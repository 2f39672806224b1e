import OsSim.Content
import OsSim.Requests
/-!
# Privacy — what other processes can do to the bytes a process reads

A byte that a process has stored, with `__write` or through the zeros of `__free`, is what its own calls made it,
whatever other processes did meanwhile.  A byte it never stored is what its frame held when the page was mapped:
`vm_map_ram` clears nothing, and a frame evicted from another process still holds that process's bytes.
-/
namespace OsSim

open Atomic Code Component

/-! ## What a process has stored -/

/-- What process `p` sees of a history: its calls, each with its status and the `mm_struct` after it. -/
abbrev viewOf (p : Pid) (h : List (Done × Machine)) : List (Call × Int × Mm) := seen (callBy p) (fun m => m.mm p) h

open Classical in
/-- The bytes of its pages as process `p` has stored them, by its own calls: `none` where it stored nothing. -/
noncomputable def storedBy (p : Pid) :
    Mm → (PteRef → Nat → Option Byte) → List (Call × Int × Mm) → PteRef → Nat → Option Byte
  | _, bytes, [] => bytes
  | mm, bytes, (c, status, mm') :: v =>
    storedBy p mm' (fun q j => if status = 0 ∧ c.stores p mm q j then some c.value else bytes q j) v

theorem storedBy_or {p : Pid} {q : PteRef} {j : Nat} : ∀ (v : List (Call × Int × Mm)) (mm : Mm)
    (bytes : PteRef → Nat → Option Byte),
      storedBy p mm bytes v q j = (storedBy p mm (fun _ _ => none) v q j).or (bytes q j)
  | [], _, _ => rfl
  | (c, status, mm') :: v, mm, bytes => by
    rw [storedBy, storedBy]
    refine (storedBy_or v mm' _).trans (.trans ?_ (congrArg (fun o => o.or (bytes q j)) (storedBy_or v mm' _).symm))
    rw [Option.or_assoc]
    congr 1
    split <;> rfl

theorem Call.stores_mine {p : Pid} {mm : Mm} {q : PteRef} {j : Nat} {c : Call} (h : c.stores p mm q j) :
    q.pid = p ∧ j < 256 := by
  cases c with
  | pgalloc size regIndex | pgmalloc size regIndex | pgread source offset => exact absurd h id
  | pgfreeData regIndex =>
    obtain ⟨vmaid, off, ⟨-, k, -, rfl, rfl⟩, rfl⟩ := h
    exact ⟨rfl, inPage_lt _ (pagingOffst_lt _)⟩
  | pgwrite data destination offset =>
    obtain ⟨rfl, rfl⟩ := h
    exact ⟨rfl, inPage_lt _ (pagingOffst_lt _)⟩

def Holding (p : Pid) (bytes : PteRef → Nat → Option Byte) (m : Machine) : Prop :=
  ∀ q j x, bytes q j = some x → (q.pid = p ∧ j < 256) ∧ m.pageByte q j = some x

section Step

variable {n ns : Nat} {p : Pid} {bytes : PteRef → Nat → Option Byte} {m m' : Machine} {c : Call} {ret : Ret}

theorem Holding.others (h : Holding p bytes m) (hn : n ≤ 8192) (hns : ns ≤ 2097152) (hm : MemInv n ns ([], m))
    {p' : Pid}
    (hp : p' ≠ p) (hcall : Completes m p' c ret m') (hfine : ∀ e ∈ m'.trace, SwapFine e) : Holding p bytes m' := by
  intro q j x hx
  obtain ⟨hmine, hbyte⟩ := h q j x hx
  refine ⟨hmine, (call_bytes hn hns hcall hfine hm).2 q j x hmine.2 (fun _ hstores => hp ?_) hbyte⟩
  exact (Call.stores_mine hstores).1.symm.trans hmine.1

open Classical in
theorem Holding.own (h : Holding p bytes m) (hn : n ≤ 8192) (hns : ns ≤ 2097152) (hm : MemInv n ns ([], m))
    (hcall : Completes m p c ret m') (hfine : ∀ e ∈ m'.trace, SwapFine e) :
    Holding p (fun q j => if ret.1 = 0 ∧ c.stores p (m.mm p) q j then some c.value else bytes q j) m' := by
  intro q j x hx
  dsimp only at hx
  split at hx
  · rename_i hstored
    cases hx
    exact ⟨Call.stores_mine hstored.2, call_leaves hn hns hcall hstored.1 hfine hm hstored.2⟩
  · rename_i hnot
    obtain ⟨hmine, hbyte⟩ := h q j x hx
    exact ⟨hmine, (call_bytes hn hns hcall hfine hm).2 q j x hmine.2 (fun h0 hstores => hnot ⟨h0, hstores⟩) hbyte⟩

end Step

/-- **After any calls of any processes** the bytes a process has stored are there. -/
theorem calls_holding {n ns : Nat} (hn : n ≤ 8192) (hns : ns ≤ 2097152) {p : Pid} {m : Machine}
    {h : List (Done × Machine)}
    (hist : Calls m h) (hfine : ∀ e ∈ (final m h).trace, SwapFine e) (hm : MemInv n ns ([], m)) :
    ∀ {bytes : PteRef → Nat → Option Byte}, Holding p bytes m →
      MemInv n ns ([], final m h) ∧ Holding p (storedBy p (m.mm p) bytes (viewOf p h)) (final m h) := by
  induction hist with
  | nil m => exact fun hhold => ⟨hm, hhold⟩
  | @cons m m' d h first rest ih =>
    intro bytes hhold
    have hfine' : ∀ e ∈ m'.trace, SwapFine e := fun e he => hfine e ((calls_trace rest).subset he)
    have hm' := (call_bytes hn hns first hfine' hm).1
    by_cases hp : d.caller = p
    · have hview : viewOf p ((d, m') :: h) = (d.call, d.ret.1, m'.mm p) :: viewOf p h := by
        simp [seen, callBy, hp]
      rw [hview]
      rw [hp] at first
      exact ih hfine hm' (hhold.own hn hns hm first hfine')
    · have hview : viewOf p ((d, m') :: h) = viewOf p h := by simp [seen, callBy, hp]
      have hmm : m'.mm p = m.mm p := callBy_none first (fun hout => hfine' _ hout) (by simp [callBy, hp])
      rw [hview, ← hmm]
      exact ih hfine hm' (hhold.others hn hns hm hp first hfine')

theorem Booted.pageByte {m : Machine} (h : Booted m) (q : PteRef) (j : Nat) : m.pageByte q j = none := by
  simp [Machine.pageByte, h.pgd q]

/-- The byte a place of a page held first: what the page's frame held when the page was mapped. -/
def firstByte (h : List (Done × Machine)) (q : PteRef) (j : Nat) : Option Byte :=
  h.findSome? (fun e => e.2.pageByte q j)

/-- **A byte that the process has not stored** is what the page's frame held when the page was mapped. -/
theorem calls_first {n ns : Nat} (hn : n ≤ 8192) (hns : ns ≤ 2097152) {p : Pid} {m : Machine}
    {h : List (Done × Machine)}
    (hist : Calls m h) (hfine : ∀ e ∈ (final m h).trace, SwapFine e) (hm : MemInv n ns ([], m)) {q : PteRef}
    {j : Nat} {x : Byte} (hq : q.pid = p) (hj : j < 256) (hnone : m.pageByte q j = none)
    (hstored : storedBy p (m.mm p) (fun _ _ => none) (viewOf p h) q j = none) (hfirst : firstByte h q j = some x) :
    (final m h).pageByte q j = some x := by
  induction hist with
  | nil m => cases hfirst
  | @cons m m' d h first rest ih =>
    have hfine' : ∀ e ∈ m'.trace, SwapFine e := fun e he => hfine e ((calls_trace rest).subset he)
    have hm' := (call_bytes hn hns first hfine' hm).1
    have hrest : storedBy p (m'.mm p) (fun _ _ => none) (viewOf p h) q j = none := by
      by_cases hp : d.caller = p
      · have hview : viewOf p ((d, m') :: h) = (d.call, d.ret.1, m'.mm p) :: viewOf p h := by
          simp [seen, callBy, hp]
        rw [hview, storedBy, storedBy_or] at hstored
        exact (Option.or_eq_none_iff.1 hstored).1
      · have hview : viewOf p ((d, m') :: h) = viewOf p h := by simp [seen, callBy, hp]
        have hmm : m'.mm p = m.mm p := callBy_none first (fun hout => hfine' _ hout) (by simp [callBy, hp])
        rwa [hview, ← hmm] at hstored
    rw [firstByte, List.findSome?_cons] at hfirst
    cases hbyte : m'.pageByte q j with
    | none =>
      rw [hbyte] at hfirst
      exact ih hfine hm' hbyte hrest hfirst
    | some y =>
      rw [hbyte] at hfirst
      cases hfirst
      -- from here on the byte is kept as if the process had stored it
      let bytes (q' : PteRef) (j' : Nat) : Option Byte := if q' = q ∧ j' = j then some x else none
      have hhold : Holding p bytes m' := by
        intro q' j' x' hx'
        by_cases hcell : q' = q ∧ j' = j
        · obtain ⟨rfl, rfl⟩ := hcell
          have hx : some x = some x' := by simpa [bytes] using hx'
          exact ⟨⟨hq, hj⟩, hbyte.trans hx⟩
        · simp [bytes, hcell] at hx'
      refine ((calls_holding hn hns rest hfine hm' hhold).2 q j x ?_).2
      rw [storedBy_or, hrest]
      simp [bytes]

/-! ## Two runs -/

/-- The same call of the same process, but for the byte if it is a `__write` of process `Q`. -/
def SameBut (Q : Pid) (a b : Pid × Call) : Prop :=
  a.1 = b.1 ∧ (a.2 = b.2 ∨ a.1 = Q ∧ ∃ data data' destination offset,
    a.2 = .pgwrite data destination offset ∧ b.2 = .pgwrite data' destination offset)

theorem callsOf_sameBut {P Q : Pid} (hPQ : P ≠ Q) {h₁ h₂ : List (Done × Machine)}
    (hsame : List.Forall₂ (SameBut Q) (requests h₁) (requests h₂)) : callsOf P h₁ = callsOf P h₂ := by
  rw [callsOf_requests, callsOf_requests]
  generalize requests h₁ = l₁ at *
  generalize requests h₂ = l₂ at *
  induction hsame with
  | nil => rfl
  | @cons a b l₁ l₂ hfirst _ ih =>
    obtain ⟨hcaller, hcall⟩ := hfirst
    by_cases hp : a.1 = P
    · have hcall : a.2 = b.2 := by
        rcases hcall with hcall | ⟨hq, -⟩
        · exact hcall
        · exact absurd (hp.symm.trans hq) hPQ
      simpa [hp, ← hcaller, hcall] using ih
    · simpa [hp, ← hcaller] using ih

def HasStored (p : Pid) (m₀ : Machine) (h : List (Done × Machine)) (r k : BitVec 32) : Prop :=
  storedBy p (m₀.mm p) (fun _ _ => none) (viewOf p h) (accessPage p ((final m₀ h).mm p) r.toInt k.toInt)
    (inPage (((final m₀ h).mm p).symrgtbl r.toInt.toNat).vmaid (accessOff ((final m₀ h).mm p) r.toInt k.toInt)) ≠ none

def FirstWas (p : Pid) (m₀ : Machine) (h : List (Done × Machine)) (r k : BitVec 32) (x : Byte) : Prop :=
  firstByte h (accessPage p ((final m₀ h).mm p) r.toInt k.toInt)
    (inPage (((final m₀ h).mm p).symrgtbl r.toInt.toNat).vmaid (accessOff ((final m₀ h).mm p) r.toInt k.toInt)) = some x

theorem read_refused {m m' : Machine} {p : Pid} {source offset : BitVec 32} {ret : Ret}
    (hcall : Completes m p (.pgread source offset) ret m') (hret : ret.1 ≠ 0) : ret.2 = none := by
  obtain ⟨fuel, hrun⟩ := hcall
  rcases run_read hrun with ⟨rfl, -⟩ | ⟨h0, -⟩
  · rfl
  · exact absurd h0 hret

/-- **What a process reads of its own**: in two runs in which it makes the same calls, a `__read` returns the same
status, delivers the same byte where the process has stored one, and otherwise what the page's frame held when it
was mapped. -/
theorem reads_own {n ns : Nat} (hn : n ≤ 8192) (hns : ns ≤ 2097152) {m₀ : Machine} (hboot : Booted m₀)
    (hram : m₀.mram.freeFpList.Perm (List.range n)) (hswp : m₀.mswp.freeFpList.Perm (List.range ns)) {P : Pid}
    {h₁ h₂ : List (Done × Machine)} (hist₁ : Calls m₀ h₁) (hist₂ : Calls m₀ h₂) (hcalls : callsOf P h₁ = callsOf P h₂)
    {r k : BitVec 32} {ret₁ ret₂ : Ret} {m₁ m₂ : Machine} (hread₁ : Completes (final m₀ h₁) P (.pgread r k) ret₁ m₁)
    (hread₂ : Completes (final m₀ h₂) P (.pgread r k) ret₂ m₂) (hfine₁ : ∀ e ∈ m₁.trace, SwapFine e)
    (hfine₂ : ∀ e ∈ m₂.trace, SwapFine e) :
    ret₁.1 = ret₂.1 ∧ (HasStored P m₀ h₁ r k → ret₁.2 = ret₂.2) ∧
      ∀ x₁ x₂, ¬ HasStored P m₀ h₁ r k → FirstWas P m₀ h₁ r k x₁ → FirstWas P m₀ h₂ r k x₂ → ret₁.1 = 0 →
        ret₁.2 = some x₁ ∧ ret₂.2 = some x₂ := by
  have hbefore : ∀ {m m' : Machine} {ret : Ret}, Completes m P (.pgread r k) ret m' → m.trace <+: m'.trace :=
    fun hread => callStep_trace (show CallStep anyCall _ _ from ⟨P, _, _, trivial, hread⟩)
  have hfinal₁ : ∀ e ∈ (final m₀ h₁).trace, SwapFine e := fun e he => hfine₁ e ((hbefore hread₁).subset he)
  have hfinal₂ : ∀ e ∈ (final m₀ h₂).trace, SwapFine e := fun e he => hfine₂ e ((hbefore hread₂).subset he)
  have hmem : MemInv n ns ([], m₀) := ⟨hboot.frames hram, hboot.swap hswp, hboot.mram, hboot.mswp⟩
  have hnone : Holding P (fun _ _ => none) m₀ := fun q j x hx => by cases hx
  obtain ⟨hmem₁, hhold₁⟩ := calls_holding hn hns hist₁ hfinal₁ hmem hnone
  obtain ⟨hmem₂, hhold₂⟩ := calls_holding hn hns hist₂ hfinal₂ hmem hnone
  -- both runs show the process the same
  have hstates : ∀ {h : List (Done × Machine)}, Calls m₀ h → (∀ e ∈ (final m₀ h).trace, SwapFine e) →
      ∀ e ∈ h, Event.outOfSwap ∉ e.2.trace := fun hist hfine e he hout => hfine _ ((calls_before hist e he).subset hout)
  have hview : viewOf P h₁ = viewOf P h₂ :=
    seen_own hist₁ hist₂ rfl (hstates hist₁ hfinal₁) (hstates hist₂ hfinal₂) hcalls
  have hmm : (final m₀ h₁).mm P = (final m₀ h₂).mm P := by
    have hlast : ∀ {h : List (Done × Machine)}, Calls m₀ h → (∀ e ∈ h, Event.outOfSwap ∉ e.2.trace) →
        (final m₀ h).mm P = lastSeen (m₀.mm P) (viewOf P h) := fun hist hok =>
      @History.lastSeen_eq _ _ _ _ _ _ (callBy P) (fun m => m.mm P)
        (fun m => Event.outOfSwap ∉ m.trace) callBy_none _ _ hist hok
    rw [hlast hist₁ (hstates hist₁ hfinal₁), hlast hist₂ (hstates hist₂ hfinal₂), hview]
  have hstatus : ret₁.1 = ret₂.1 := by
    have hanswers₁ := (completes_answers hread₁ (fun hout => hfine₁ _ hout)).1
    have hanswers₂ := (completes_answers hread₂ (fun hout => hfine₂ _ hout)).1
    rw [← hmm] at hanswers₂
    exact (Prod.mk.inj (hanswers₁.unique hanswers₂)).1
  refine ⟨hstatus, fun hstored => ?_, fun x₁ x₂ hstored hfirst₁ hfirst₂ h0 => ?_⟩
  · by_cases h0 : ret₁.1 = 0
    · obtain ⟨x, hx⟩ := Option.ne_none_iff_exists'.1 hstored
      have hbyte₁ := (hhold₁ _ _ _ hx).2
      rw [hview, hmm] at hx
      have hbyte₂ := (hhold₂ _ _ _ hx).2
      rw [read_delivers hn hns hread₁ h0 hfine₁ hmem₁ hbyte₁,
        read_delivers hn hns hread₂ (hstatus ▸ h0) hfine₂ hmem₂ hbyte₂]
    · rw [read_refused hread₁ h0, read_refused hread₂ (hstatus ▸ h0)]
  · have hnone₁ := not_not.1 hstored
    have hnone₂ := hnone₁
    rw [hview, hmm] at hnone₂
    have hbyte₁ := calls_first hn hns hist₁ hfinal₁ hmem rfl (inPage_lt _ (pagingOffst_lt _))
      (hboot.pageByte _ _) hnone₁ hfirst₁
    have hbyte₂ := calls_first hn hns hist₂ hfinal₂ hmem rfl (inPage_lt _ (pagingOffst_lt _))
      (hboot.pageByte _ _) hnone₂ hfirst₂
    exact ⟨read_delivers hn hns hread₁ h0 hfine₁ hmem₁ hbyte₁,
      read_delivers hn hns hread₂ (hstatus ▸ h0) hfine₂ hmem₂ hbyte₂⟩

/-- **Confidentiality of the bytes a process has stored.**  In two runs with the same calls but for the bytes that
`Q` writes, every `__read` of another process returns the same status; of a byte the process has stored it delivers
the same, and of one it has not stored what the page's frame held when the page was mapped. -/
theorem reads_confidential {n ns : Nat} (hn : n ≤ 8192) (hns : ns ≤ 2097152) {m₀ : Machine} (hboot : Booted m₀)
    (hram : m₀.mram.freeFpList.Perm (List.range n)) (hswp : m₀.mswp.freeFpList.Perm (List.range ns)) {P Q : Pid}
    (hPQ : P ≠ Q) {h₁ h₂ : List (Done × Machine)} (hist₁ : Calls m₀ h₁) (hist₂ : Calls m₀ h₂)
    (hsame : List.Forall₂ (SameBut Q) (requests h₁) (requests h₂)) {r k : BitVec 32} {ret₁ ret₂ : Ret} {m₁ m₂ : Machine}
    (hread₁ : Completes (final m₀ h₁) P (.pgread r k) ret₁ m₁)
    (hread₂ : Completes (final m₀ h₂) P (.pgread r k) ret₂ m₂)
    (hfine₁ : ∀ e ∈ m₁.trace, SwapFine e) (hfine₂ : ∀ e ∈ m₂.trace, SwapFine e) :
    ret₁.1 = ret₂.1 ∧ (HasStored P m₀ h₁ r k → ret₁.2 = ret₂.2) ∧
      ∀ x₁ x₂, ¬ HasStored P m₀ h₁ r k → FirstWas P m₀ h₁ r k x₁ → FirstWas P m₀ h₂ r k x₂ → ret₁.1 = 0 →
        ret₁.2 = some x₁ ∧ ret₂.2 = some x₂ :=
  reads_own hn hns hboot hram hswp hist₁ hist₂ (callsOf_sameBut hPQ hsame) hread₁ hread₂ hfine₁ hfine₂

/-- With two frames of RAM: process 1 writes a byte, process 0 allocates two pages and reads the second. -/
def frameOfAnother (data : Byte) : List (Pid × Call) :=
  [(1, .pgalloc 256 0), (1, .pgwrite data 0 0), (0, .pgalloc 256 0), (0, .pgalloc 256 1), (0, .pgread 1 0)]

/-- **`__read` delivers the byte process 1 wrote**, from a page process 0 has allocated and not written: two runs
that differ in that byte only. -/
theorem reads_confidential_fails :
    (runCalls (fun _ _ _ => true) 10 (frameOfAnother 7) (boot 512 16384 4096)).map (fun q => q.2) =
        some [(0, none), (0, none), (0, none), (0, none), (0, some 7)] ∧
      (runCalls (fun _ _ _ => true) 10 (frameOfAnother 9) (boot 512 16384 4096)).map (fun q => q.2) =
        some [(0, none), (0, none), (0, none), (0, none), (0, some 9)] := by
  decide +kernel

/-- Process 0 writes a byte into its only page; process 1 allocates two pages and writes `data` into the first;
process 0 reads its byte.  The states after the first two calls and before the last, and what the last leaves and
returns. -/
def pageGivenUp (data : Byte) : Option (Machine × Machine × Machine × Machine × Ret) :=
  (run (Call.code 10 0 (.pgalloc 256 0)) (boot 512 16384 4096)).toOption.bind fun a =>
    (run (Call.code 10 0 (.pgwrite 5 0 3)) a.1).toOption.bind fun b =>
      if a.2.1 = 0 ∧ b.2.1 = 0 then
        (runCalls (fun _ _ _ => true) 10 [(1, .pgalloc 256 0), (1, .pgwrite data 0 0),
          (1, .pgalloc 256 1)] b.1).bind fun c =>
          (run (Call.code 10 0 (.pgread 0 3)) c.1).toOption.map fun d => (a.1, b.1, c.1, d)
      else none

theorem pageGivenUp_run {data : Byte} {m₁ m₂ m₃ m₄ : Machine} {ret : Ret}
    (h : pageGivenUp data = some (m₁, m₂, m₃, m₄, ret)) (hregion : (m₁.mm 0).symrgtbl 0 = (m₃.mm 0).symrgtbl 0) :
    ∃ hist, Calls (boot 512 16384 4096) hist ∧ requests hist =
      [(0, .pgalloc 256 0), (0, .pgwrite 5 0 3), (1, .pgalloc 256 0),
        (1, .pgwrite data 0 0), (1, .pgalloc 256 1)] ∧ final (boot 512 16384 4096) hist = m₃ ∧
      Completes m₃ 0 (.pgread 0 3) ret m₄ ∧ HasStored 0 (boot 512 16384 4096) hist 0 3 := by
  obtain ⟨⟨a, reta⟩, ha, h⟩ := Option.bind_eq_some_iff.1 h
  obtain ⟨⟨b, retb⟩, hb, h⟩ := Option.bind_eq_some_iff.1 h
  split at h
  · rename_i hok
    obtain ⟨⟨c, rets⟩, hc, h⟩ := Option.bind_eq_some_iff.1 h
    obtain ⟨⟨d, retd⟩, hd, heq⟩ := Option.map_eq_some_iff.1 h
    cases heq
    obtain ⟨hist, hcalls, hreq, hfinal⟩ := calls_of_runCalls _ hc
    refine ⟨(⟨0, .pgalloc 256 0, reta⟩, a) :: (⟨0, .pgwrite 5 0 3, retb⟩, b) :: hist,
      .cons ⟨10, run_of_toOption ha⟩ (.cons ⟨10, run_of_toOption hb⟩ hcalls), congrArg (_ :: _ :: ·) hreq, hfinal,
      ⟨10, run_of_toOption hd⟩, ?_⟩
    have hview : viewOf 0 ((⟨0, .pgalloc 256 0, reta⟩, a) :: (⟨0, .pgwrite 5 0 3, retb⟩, b) :: hist) =
        (.pgalloc 256 0, reta.1, a.mm 0) :: (.pgwrite 5 0 3, retb.1, b.mm 0) :: viewOf 0 hist := by
      simp [seen, callBy]
    rw [HasStored, hview, storedBy, storedBy, storedBy_or, if_pos]
    · simp
    · -- the region is where it was
      have hlast : final (boot 512 16384 4096)
          ((⟨0, .pgalloc 256 0, reta⟩, a) :: (⟨0, .pgwrite 5 0 3, retb⟩, b) :: hist) = c := hfinal
      have hcell : (c.mm 0).symrgtbl (BitVec.toInt (0 : BitVec 32)).toNat =
          (a.mm 0).symrgtbl (BitVec.toInt (0 : BitVec 32)).toNat :=
        hregion.symm
      rw [hlast, accessPage, accessOff, hcell]
      exact ⟨hok.2, rfl, rfl⟩
  · cases h

/-- Two runs that differ in what process 1 writes: process 0's page goes out and comes back in both. -/
theorem reads_confidential_givenUp : ∃ h₁ h₂ ret₁ ret₂ m₁ m₂, Calls (boot 512 16384 4096) h₁ ∧
    Calls (boot 512 16384 4096) h₂ ∧
    requests h₁ ≠ requests h₂ ∧ Completes (final (boot 512 16384 4096) h₁) 0 (.pgread 0 3) ret₁ m₁ ∧
    Completes (final (boot 512 16384 4096) h₂) 0 (.pgread 0 3) ret₂ m₂ ∧ ret₁.1 = ret₂.1 ∧ ret₁.2 = ret₂.2 := by
  have hsome : ∀ data : Byte, (pageGivenUp data).any (fun q => (q.1.mm 0).symrgtbl 0 = (q.2.2.1.mm 0).symrgtbl 0 ∧
        ∀ e ∈ q.2.2.2.1.trace, SwapFine e) = true →
      ∃ hist m ret, Calls (boot 512 16384 4096) hist ∧ requests hist = [(0, .pgalloc 256 0), (0, .pgwrite 5 0 3),
          (1, .pgalloc 256 0), (1, .pgwrite data 0 0), (1, .pgalloc 256 1)] ∧
        Completes (final (boot 512 16384 4096) hist) 0 (.pgread 0 3) ret m ∧ HasStored 0 (boot 512 16384 4096) hist 0 3 ∧
        ∀ e ∈ m.trace, SwapFine e := by
    intro data hany
    obtain ⟨⟨m₁, m₂, m₃, m₄, ret⟩, hm, hq⟩ := (Option.any_eq_true _ _).1 hany
    obtain ⟨hregion, hfine⟩ := of_decide_eq_true hq
    obtain ⟨hist, hcalls, hreq, rfl, hread, hstored⟩ := pageGivenUp_run hm hregion
    exact ⟨hist, m₄, ret, hcalls, hreq, hread, hstored, hfine⟩
  obtain ⟨h₁, m₁, ret₁, hcalls₁, hreq₁, hread₁, hstored, hfine₁⟩ := hsome 7 (by decide +kernel)
  obtain ⟨h₂, m₂, ret₂, hcalls₂, hreq₂, hread₂, -, hfine₂⟩ := hsome 9 (by decide +kernel)
  have hsame : List.Forall₂ (SameBut 1) (requests h₁) (requests h₂) := by
    rw [hreq₁, hreq₂]
    have hwrites : SameBut 1 (1, .pgwrite 7 0 0) (1, .pgwrite 9 0 0) := ⟨rfl, Or.inr ⟨rfl, 7, 9, 0, 0, rfl, rfl⟩⟩
    have hrefl : ∀ a, SameBut 1 a a := fun a => ⟨rfl, Or.inl rfl⟩
    exact .cons (hrefl _) (.cons (hrefl _) (.cons (hrefl _) (.cons hwrites (.cons (hrefl _) .nil))))
  obtain ⟨hstatus, hbyte, -⟩ := @reads_confidential 2 64 (by decide) (by decide) _ (booted_boot 512 16384 4096)
    (initMemphy_free 2 (by decide))
    (initMemphy_free 64 (by decide)) 0 1 (by decide) h₁ h₂ hcalls₁ hcalls₂ hsame 0 3 ret₁ ret₂ m₁ m₂ hread₁ hread₂
    hfine₁ hfine₂
  refine ⟨h₁, h₂, ret₁, ret₂, m₁, m₂, hcalls₁, hcalls₂, ?_, hread₁, hread₂, hstatus, hbyte hstored⟩
  rw [hreq₁, hreq₂]
  decide

end OsSim
