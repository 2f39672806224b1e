import OsSim.Ends
/-!
# Walk — the loops of `__alloc` over the pages of a region it reuses

The counter is an `int`, the bound an `unsigned long`.  On the heap the counter goes down: past page 0 it is -1,
which the comparison takes for the largest `unsigned long`, and the loop goes on before the start of the page table.
-/
namespace OsSim

open Atomic Code

/-! ## The pages of a region -/

def pagesOf (vmaid : Int) (rg : VmRg) : List Nat :=
  let first := (rg.rgStart / 256).toNat
  let last := (rg.rgEnd / 256).toNat
  if vmaid = 0 then List.range' first (last + 1 - first) else (List.range' last (first + 1 - last)).reverse

/-- Visits of a list of pages, one after the other; one that runs out of swap space ends the call. -/
def visit (p : Pid) : List Nat → Code Int
  | [] => pure 0
  | pgn :: pgs => do
    match ← reusePage ⟨p, pgn⟩ with
    | false => pure (-3000)
    | true => visit p pgs

def reuse (p : Pid) (vmaid : Int) (rg : VmRg) : Code Int :=
  reuseLoop p vmaid (rg.rgEnd / 256) (pagingMaxPgn + 1) (int32 (rg.rgStart / 256))

def Walks (p : Pid) (pgs : List Nat) (code : Code Int) : Prop := code = visit p pgs

theorem mem_pagesOf {vmaid : Int} {rg : VmRg} {pgn : Nat} (h0 : 0 ≤ rg.rgStart ∧ 0 ≤ rg.rgEnd) :
    pgn ∈ pagesOf vmaid rg ↔
      if vmaid = 0 then rg.rgStart / 256 ≤ pgn ∧ pgn ≤ rg.rgEnd / 256 else rg.rgEnd / 256 ≤ pgn ∧
        pgn ≤ rg.rgStart / 256 := by
  unfold pagesOf
  dsimp only
  split
  · rw [List.mem_range'_1]
    omega
  · rw [List.mem_reverse, List.mem_range'_1]
    omega

theorem pagesOf_sorted (vmaid : Int) (rg : VmRg) :
    (pagesOf vmaid rg).Pairwise (fun j k => if vmaid = 0 then j < k else k < j) := by
  unfold pagesOf
  dsimp only
  split
  · exact List.pairwise_lt_range'
  · exact List.pairwise_reverse.2 List.pairwise_lt_range'

/-! ## What a walk touches -/

/-- An operation on a page table entry other than the victim's is on an entry of one of these pages of `p`. -/
def Op.onPages (p : Pid) (pgs : List Nat) : Op → Prop
  | .readPte r | .setFpn r _ | .addLruPage r => r.pid = p ∧ r.pgn ∈ pgs
  | _ => True

section Touches

variable {p : Pid} {pgs : List Nat} {pgn : Nat}

theorem swapCpPage_onPages (src : Dev) (srcfpn : Nat) (dst : Dev) (dstfpn : Nat) :
    (swapCpPage src srcfpn dst dstfpn).Within (Op.onPages p pgs) (fun _ => True) := by
  refine Prog.Within.loop (fun j => ?_) _ _
  refine Prog.Within.bind (Q := fun _ => True) ⟨trivial, fun _ => trivial⟩ (fun data _ => ?_)
  cases data with
  | none => exact ⟨trivial, fun x => x.elim⟩
  | some data => exact ⟨trivial, fun _ => trivial⟩

theorem reuseSwapIn_onPages (h : pgn ∈ pgs) (pte : Pte) :
    (reuseSwapIn ⟨p, pgn⟩ pte).Within (Op.onPages p pgs) (fun _ => True) := by
  refine Prog.Within.bind (Q := fun _ => True) ⟨trivial, fun _ => trivial⟩ (fun vic _ => ?_)
  refine Prog.Within.bind (Q := fun _ => True) ⟨trivial, fun _ => trivial⟩ (fun swpfpn _ => ?_)
  cases swpfpn with
  | none => exact ⟨trivial, fun _ => trivial⟩
  | some swpfpn =>
    refine Prog.Within.bind (Q := fun _ => True) ?_ (fun vic _ => ?_)
    · cases vic with
      | none => exact ⟨trivial, fun x => x.elim⟩
      | some vic => trivial
    · refine (swapCpPage_onPages _ _ _ _).bind (fun _ _ => ⟨trivial, fun _ => ?_⟩)
      refine (swapCpPage_onPages _ _ _ _).bind
        (fun _ _ => ⟨⟨rfl, h⟩, fun _ => ⟨⟨rfl, h⟩, fun _ => ⟨trivial, fun _ => ?_⟩⟩⟩)
      exact ⟨trivial, fun _ => ⟨trivial, fun _ => trivial⟩⟩

theorem reusePage_onPages (h : pgn ∈ pgs) : (reusePage ⟨p, pgn⟩).Within (Op.onPages p pgs) (fun _ => True) := by
  refine Prog.Within.bind (Q := fun _ => True) ⟨⟨rfl, h⟩, fun _ => trivial⟩ (fun pte _ => ?_)
  refine Prog.Within.bind (Q := fun _ => True) ?_ (fun fpn _ => ?_)
  · split
    · trivial
    · exact reuseSwapIn_onPages h pte
  · cases fpn with
    | none => trivial
    | some fpn => exact ⟨trivial, fun _ => ⟨trivial, fun _ => ⟨trivial, fun _ => trivial⟩⟩⟩

/-- **A walk touches no other entry**, but for those of the pages it evicts. -/
theorem visit_onPages : ∀ l : List Nat, (∀ pgn ∈ l, pgn ∈ pgs) →
    (visit p l).Within (Op.onPages p pgs) (fun _ => True)
  | [], _ => trivial
  | pgn :: l, h => by
    obtain ⟨hpgn, hl⟩ := List.forall_mem_cons.1 h
    refine (reusePage_onPages hpgn).bind (fun b _ => ?_)
    cases b with
    | false => trivial
    | true => exact visit_onPages l hl

end Touches

/-! ## The loops -/

theorem reuseLoop_step {p : Pid} {vmaid last i : Int} {fuel : Nat}
    (hgo : (if vmaid = 0 then decide (ulong i ≤ last) else decide (last ≤ ulong i)) = true)
    (hi : 0 ≤ i ∧ i < pagingMaxPgn)
    {pgs : List Nat} (hrest : reuseLoop p vmaid last fuel (if vmaid = 0 then i + 1 else i - 1) = visit p pgs) :
    reuseLoop p vmaid last (fuel + 1) i = visit p (i.toNat :: pgs) := by
  rw [reuseLoop, hgo, pgdAt, if_pos hi]
  refine congrArg (Bind.bind (reusePage ⟨p, i.toNat⟩)) (funext fun b => ?_)
  cases b with
  | false => rfl
  | true => exact hrest

theorem reuseLoop_stop {p : Pid} {vmaid last i : Int} {fuel : Nat}
    (hstop : (if vmaid = 0 then decide (ulong i ≤ last) else decide (last ≤ ulong i)) = false) :
    reuseLoop p vmaid last (fuel + 1) i = visit p [] := by
  rw [reuseLoop, hstop]
  rfl

theorem reuseLoop_up {p : Pid} {last : Int} (n : Nat) : ∀ {fuel : Nat} {i : Int},
    n < fuel → 0 ≤ i → i + n = last + 1 ∨ n = 0 ∧ last < i → i + n < 18446744073709551616 →
      (∀ k ∈ List.range' i.toNat n, k < pagingMaxPgn) →
        reuseLoop p 0 last fuel i = visit p (List.range' i.toNat n) := by
  induction n with
  | zero =>
    intro fuel i hfuel h0 hend hword _
    obtain ⟨fuel, rfl⟩ := Nat.exists_eq_succ_of_ne_zero (show fuel ≠ 0 by omega)
    refine reuseLoop_stop ?_
    rw [if_pos rfl, decide_eq_false_iff_not]
    unfold ulong
    omega
  | succ n ih =>
    intro fuel i hfuel h0 hend hword htable
    obtain ⟨fuel, rfl⟩ := Nat.exists_eq_succ_of_ne_zero (show fuel ≠ 0 by omega)
    rw [List.range'_succ] at htable ⊢
    obtain ⟨hi, htable'⟩ := List.forall_mem_cons.1 htable
    have hnext : i.toNat + 1 = (i + 1).toNat := by omega
    rw [hnext] at htable' ⊢
    refine reuseLoop_step ?_ ⟨h0, by omega⟩ (ih (by omega) (by omega) (by omega) (by omega) htable')
    rw [if_pos rfl, decide_eq_true_eq]
    unfold ulong
    omega

theorem reuseLoop_down {p : Pid} {vmaid : Int} (hv : vmaid ≠ 0) {last : Nat} (hlast : 1 ≤ last) (n : Nat) :
    ∀ {fuel : Nat} {i : Int}, n < fuel → i + 1 = last + n ∨ n = 0 ∧ 0 ≤ i ∧ i < last → i < 18446744073709551616 →
      (∀ k ∈ List.range' last n, k < pagingMaxPgn) →
        reuseLoop p vmaid last fuel i = visit p (List.range' last n).reverse := by
  induction n with
  | zero =>
    intro fuel i hfuel hend hword _
    obtain ⟨fuel, rfl⟩ := Nat.exists_eq_succ_of_ne_zero (show fuel ≠ 0 by omega)
    refine reuseLoop_stop ?_
    rw [if_neg hv, decide_eq_false_iff_not]
    unfold ulong
    omega
  | succ n ih =>
    intro fuel i hfuel hend hword htable
    obtain ⟨fuel, rfl⟩ := Nat.exists_eq_succ_of_ne_zero (show fuel ≠ 0 by omega)
    rw [List.range'_1_concat] at htable ⊢
    have hi : last + n = i.toNat := by omega
    have hpage := htable (last + n) (by simp)
    rw [List.reverse_append, List.reverse_singleton, List.singleton_append, hi]
    refine reuseLoop_step ?_ ⟨by omega, by omega⟩ (ih (by omega) ?_ ?_ (fun k hk => htable k (List.mem_append_left _ hk)))
    · rw [if_neg hv, decide_eq_true_eq]
      unfold ulong
      omega
    · rw [if_neg hv]
      omega
    · rw [if_neg hv]
      omega

/-! ## A walk that nothing stops -/

structure AllPresent (m : Machine) : Prop where
  present : ∀ r, (m.pgd r).present = true
  lru : m.lru ≠ []

theorem exists_allPresent : ∃ m, AllPresent m :=
  ⟨{ boot 256 256 256 with pgd := fun _ => pteSetFpn 0 0, lru := [⟨⟨0, 0⟩, 0, 0⟩] }, fun _ => by simp,
    List.cons_ne_nil _ _⟩

theorem AllPresent.reusePage {m : Machine} (h : AllPresent m) (r : PteRef) :
    ∃ m', run (reusePage r) m = .ok (m', true) ∧ AllPresent m' := by
  rw [OsSim.reusePage, run_readPte]
  simp only [h.present r, if_true, run_pure_bind]
  rw [run_updateLruLst m h.lru]
  simp only [run_note, run_pure]
  exact ⟨_, rfl, fun r => h.present r, Lru.moveToTail_ne_nil h.lru⟩

theorem AllPresent.visit {p : Pid} : ∀ (pgs : List Nat) {m : Machine}, AllPresent m →
    ∃ m', run (visit p pgs) m = .ok (m', 0)
  | [], m, _ => ⟨m, rfl⟩
  | pgn :: pgs, m, h => by
    obtain ⟨m₁, hpage, h₁⟩ := h.reusePage ⟨p, pgn⟩
    obtain ⟨m', hrest⟩ := AllPresent.visit (p := p) pgs h₁
    exact ⟨m', run_bind_ok.2 ⟨m₁, true, hpage, hrest⟩⟩

/-- **A loop that returns 0** has found each of its pages in the page table, and has not gone past page 0. -/
theorem reuseLoop_returns {p : Pid} {vmaid last : Int} (h0 : 0 ≤ last) : ∀ (fuel : Nat) {m m' : Machine} {i : Int},
    run (reuseLoop p vmaid last fuel i) m = .ok (m', 0) → -1 ≤ i → i < 4294967296 →
      if vmaid = 0 then 0 ≤ i → ∀ k, i ≤ k → k ≤ last → k < pagingMaxPgn
      else 1 ≤ last ∧ ∀ k, last ≤ k → k ≤ i → k < pagingMaxPgn
  | 0, m, m', i, h, _, _ => by cases h
  | fuel + 1, m, m', i, h, hlow, hhigh => by
    rw [reuseLoop] at h
    split at h
    · rename_i hstop
      by_cases hv : vmaid = 0
      · rw [if_pos hv, decide_eq_false_iff_not] at hstop
        rw [if_pos hv]
        intro hi k hk hlast
        unfold ulong at hstop
        omega
      · rw [if_neg hv, decide_eq_false_iff_not] at hstop
        rw [if_neg hv]
        unfold ulong at hstop
        exact ⟨by omega, fun k hk hki => by omega⟩
    · obtain ⟨m₁, r, hr, h⟩ := run_bind_ok.1 h
      obtain ⟨m₂, b, hpage, hloop⟩ := run_bind_ok.1 h
      obtain ⟨-, -, hnonneg, hi⟩ := run_pgdAt hr
      have hb : b = true := by
        rcases run_reusePage hpage with ⟨rfl, -⟩ | ⟨rfl, -⟩
        · rfl
        · cases hloop
      subst hb
      have hrest := reuseLoop_returns h0 fuel hloop
      by_cases hv : vmaid = 0
      · simp only [hv, if_true] at hrest ⊢
        intro _ k hk hlast
        rcases eq_or_lt_of_le hk with rfl | hlt
        · exact hi
        · exact hrest (by omega) (by omega) (by omega) k (by omega) hlast
      · simp only [hv, if_false] at hrest ⊢
        obtain ⟨hone, hpages⟩ := hrest (by omega) (by omega)
        refine ⟨hone, fun k hk hki => ?_⟩
        rcases eq_or_lt_of_le hki with rfl | hlt
        · exact hi
        · exact hpages k hk (by omega)

/-- **The loop walks the pages of its region** if and only if that is not a heap region that ends in page 0, and the
pages are in the page table. -/
theorem walks_iff {p : Pid} {vmaid : Int} {rg : VmRg} (hstart : 0 ≤ rg.rgStart ∧ rg.rgStart < 4294967296)
    (hend : 0 ≤ rg.rgEnd ∧ rg.rgEnd < 4294967296) : Walks p (pagesOf vmaid rg) (reuse p vmaid rg) ↔
      (vmaid = 0 ∨ 256 ≤ rg.rgEnd) ∧ ∀ pgn ∈ pagesOf vmaid rg, pgn < pagingMaxPgn := by
  have hfirst : int32 (rg.rgStart / 256) = rg.rgStart / 256 := by
    unfold int32
    omega
  have hmem := fun pgn => @mem_pagesOf vmaid rg pgn ⟨hstart.1, hend.1⟩
  rw [Walks, reuse, hfirst]
  constructor
  · intro hwalk
    obtain ⟨m, hres⟩ := exists_allPresent
    obtain ⟨m', hrun⟩ := hres.visit (p := p) (pagesOf vmaid rg)
    rw [← hwalk] at hrun
    have hreturns := reuseLoop_returns (by omega) _ hrun (by omega) (by omega)
    by_cases hv : vmaid = 0
    · simp only [hv, if_true] at hreturns hmem
      refine ⟨Or.inl hv, fun pgn hpgn => ?_⟩
      rw [hv, hmem] at hpgn
      have := hreturns (by omega) pgn hpgn.1 hpgn.2
      omega
    · simp only [hv, if_false] at hreturns hmem
      refine ⟨Or.inr (by omega), fun pgn hpgn => ?_⟩
      have := hreturns.2 pgn ((hmem pgn).1 hpgn).1 ((hmem pgn).1 hpgn).2
      omega
  · rintro ⟨harea, htable⟩
    unfold pagesOf at htable ⊢
    dsimp only at htable ⊢
    by_cases hv : vmaid = 0
    · subst hv
      rw [if_pos rfl] at htable ⊢
      refine reuseLoop_up _ ?_ (by omega) (by omega) (by omega) htable
      by_cases hsome : (rg.rgStart / 256).toNat ≤ (rg.rgEnd / 256).toNat
      · have := htable (rg.rgEnd / 256).toNat (List.mem_range'_1.2 (by omega))
        omega
      · omega
    · rw [if_neg hv] at htable ⊢
      simp only [List.mem_reverse] at htable
      have hlast : ((rg.rgEnd / 256).toNat : Int) = rg.rgEnd / 256 := Int.toNat_of_nonneg (by omega)
      rw [← hlast]
      refine reuseLoop_down hv (by omega) _ ?_ (by omega) (by omega) htable
      by_cases hsome : (rg.rgEnd / 256).toNat ≤ (rg.rgStart / 256).toNat
      · have := htable (rg.rgStart / 256).toNat (List.mem_range'_1.2 (by omega))
        omega
      · omega

/-! ## `__alloc` from the free list -/

theorem run_alloc_reuse {fuel : Nat} {p : Pid} {vmaid rgid size : Int} {m : Machine} {l : List VmRg} {rg : VmRg}
    (hid : 0 ≤ rgid ∧ rgid < 30) (hget : getFreeVmrgArea fuel vmaid size ((m.mm p).vma vmaid).vmFreergList =
      some (l, some rg)) :
    run (alloc fuel p vmaid rgid size) m =
      run (reuse p vmaid rg) (m.setMm p (((m.mm p).setFreerg vmaid l).setSymrg rgid.toNat rg)) := by
  have hsymrg : symrgAt rgid = pure rgid.toNat := if_pos hid
  simp only [alloc, run_getMm, hget, hsymrg, run_pure_bind, run_setMm]
  rfl

/-- **An `__alloc` served from the free list walks exactly the pages of its region** if and only if the region is
not a heap region that ends in page 0, and its pages are in the page table. -/
theorem reuse_walks {fuel : Nat} {p : Pid} {vmaid rgid size : Int} {m : Machine} {l : List VmRg} {rg : VmRg}
    (hid : 0 ≤ rgid ∧ rgid < 30) (hget : getFreeVmrgArea fuel vmaid size ((m.mm p).vma vmaid).vmFreergList =
      some (l, some rg))
    (hvm : (m.mm p).vmemsz ≤ 4294967296) (hstart : 0 ≤ rg.rgStart ∧ rg.rgStart < (m.mm p).vmemsz)
    (hend : 0 ≤ rg.rgEnd ∧ rg.rgEnd < (m.mm p).vmemsz) :
    run (alloc fuel p vmaid rgid size) m =
        run (reuse p vmaid rg) (m.setMm p (((m.mm p).setFreerg vmaid l).setSymrg rgid.toNat rg)) ∧
      (Walks p (pagesOf vmaid rg) (reuse p vmaid rg) ↔
        (vmaid = 0 ∨ 256 ≤ rg.rgEnd) ∧ ∀ pgn ∈ pagesOf vmaid rg, pgn < pagingMaxPgn) :=
  ⟨run_alloc_reuse hid hget, walks_iff ⟨hstart.1, by omega⟩ ⟨hend.1, by omega⟩⟩

/-- A heap region that ends in page 0: `pgmalloc`, `pgfree_data`, and `pgmalloc` again. -/
def toPageZero : List (Pid × Call) := [(0, .pgmalloc 400 0), (0, .pgfreeData 0)]

/-- **The heap's loop past page 0**: the second `pgmalloc` looks for an entry before the page table. -/
theorem reuse_walks_fails : ∃ m rets, runCalls (fun _ _ _ => true) 10 toPageZero (boot 512 512 512) = some (m, rets) ∧
    rets = [(0, none), (0, none)] ∧
    getFreeVmrgArea 10 1 400 ((m.mm 0).vma 1).vmFreergList = some ([⟨1, 511, 511⟩], some ⟨1, 511, 112⟩) ∧
    run (alloc 10 0 1 1 400) m = .error .outOfBounds ∧ ¬ Walks 0 [1, 0] (reuse 0 1 ⟨1, 511, 112⟩) := by
  have hsome : (runCalls (fun _ _ _ => true) 10 toPageZero (boot 512 512 512)).any
      (fun q => q.2 = [(0, none), (0, none)] ∧
      getFreeVmrgArea 10 1 400 ((q.1.mm 0).vma 1).vmFreergList = some ([⟨1, 511, 511⟩], some ⟨1, 511, 112⟩) ∧
      (match run (alloc 10 0 1 1 400) q.1 with
        | .error .outOfBounds => true
        | _ => false) = true) = true := by
    decide +kernel
  obtain ⟨⟨m, rets⟩, hm, hq⟩ := (Option.any_eq_true _ _).1 hsome
  obtain ⟨hrets, hget, hfault⟩ := of_decide_eq_true hq
  refine ⟨m, rets, hm, hrets, hget, ?_, fun hwalk => ?_⟩
  · split at hfault
    · assumption
    · cases hfault
  · have hpages : pagesOf 1 ⟨1, 511, 112⟩ = [1, 0] := by decide
    rw [← hpages] at hwalk
    have hcond := ((walks_iff (by decide) (by decide)).1 hwalk).1
    revert hcond
    decide

/-- A stack region freed and reused, page 0 upwards. -/
theorem reuse_walks_stack : ∃ m rets,
    runCalls (fun _ _ _ => true) 10 [(0, .pgalloc 400 0), (0, .pgfreeData 0)] (boot 512 512 512) = some (m, rets) ∧
      Walks 0 [0, 1] (reuse 0 0 ⟨0, 0, 399⟩) := by
  have hsome : (runCalls (fun _ _ _ => true) 10 [(0, .pgalloc 400 0), (0, .pgfreeData 0)] (boot 512 512 512)).any
      (fun q =>
      getFreeVmrgArea 10 0 400 ((q.1.mm 0).vma 0).vmFreergList = some ([⟨0, 0, 0⟩], some ⟨0, 0, 399⟩) ∧
        (q.1.mm 0).vmemsz = 512) = true := by
    decide +kernel
  obtain ⟨⟨m, rets⟩, hm, hq⟩ := (Option.any_eq_true _ _).1 hsome
  obtain ⟨hget, hvm⟩ := of_decide_eq_true hq
  exact ⟨m, rets, hm, (@reuse_walks 10 0 0 1 400 m _ _ (by decide) hget (by rw [hvm]; decide) (by rw [hvm]; decide)
    (by rw [hvm]; decide)).2.2 (by decide)⟩

end OsSim
