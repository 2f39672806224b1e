import Mathlib.Logic.Relation
import OsSim.Paging
/-!
# Moves — what the paging code does to the shared structures

Whatever the paging code does, it does in a few moves: it takes a free frame or a victim's frame, places a frame under a
page, or brings a page to the tail of the LRU list.  `Move` lists them, each with what the state must be for it and the
state it leaves; the frames taken and not placed yet are carried along (`held`).  Every run of the code is a sequence of
moves, so what each move keeps, every run keeps.
-/
namespace OsSim

open Atomic Code

namespace Machine

/-! ## The pieces of a move -/

def copyPage (m : Machine) (src : Dev) (srcfpn : Nat) (dst : Dev) (dstfpn : Nat) : Machine :=
  m.setDev dst (if (m.dev dst).rdmflg then (m.dev dst).paste dstfpn ((m.dev src).page srcfpn) else m.dev dst)

def referenced (m : Machine) (r : PteRef) : Machine := (m.addLru r).noted (.reference r)

def evicted (m : Machine) (v : LruNode) (lru : List LruNode) (s : Nat) (rest : List Nat) : Machine :=
  (((m.setLru lru).setFree .mswp rest).copyPage .mram v.fpn .mswp s).setPte v.pte
    (pteSetSwap (m.pgd v.pte) indexOfActiveMswp s)

def placed (m : Machine) (r : PteRef) (f : Nat) (e : Event) : Machine :=
  ((m.setPte r (pteSetFpn (m.pgd r) f)).noted e).referenced r

end Machine

section Fields

variable (m : Machine) (src dst : Dev) (f g : Nat) (r : PteRef) (pte : Pte) (l : List Nat)

@[simp] theorem Machine.copyPage_lru : (m.copyPage src f dst g).lru = m.lru := m.setDev_lru dst _
@[simp] theorem Machine.copyPage_pgd : (m.copyPage src f dst g).pgd = m.pgd := m.setDev_pgd dst _
@[simp] theorem Machine.copyPage_mm : (m.copyPage src f dst g).mm = m.mm := m.setDev_mm dst _
@[simp] theorem Machine.copyPage_trace : (m.copyPage src f dst g).trace = m.trace := m.setDev_trace dst _
@[simp] theorem Machine.copyPage_idle : (m.copyPage src f dst g).idle = m.idle := m.setDev_idle dst _

@[simp] theorem Machine.copyPage_freeFpList (d : Dev) :
    ((m.copyPage src f dst g).dev d).freeFpList = (m.dev d).freeFpList := by
  by_cases h : d = dst
  · subst h
    rw [Machine.copyPage, Machine.dev_setDev]
    split <;> rfl
  · rw [Machine.copyPage, Machine.dev_setDev_of_ne _ _ h]

theorem Machine.copyPage_setPte : (m.setPte r pte).copyPage src f dst g = (m.copyPage src f dst g).setPte r pte := by
  cases src <;> cases dst <;> rfl

theorem Machine.setFree_setPte (d : Dev) : (m.setPte r pte).setFree d l = (m.setFree d l).setPte r pte := by
  cases d <;> rfl

end Fields

theorem Machine.evicted_mswp {m : Machine} (hrandom : m.mswp.rdmflg = true) (v : LruNode) (lru : List LruNode) (s : Nat)
    (rest : List Nat) :
    (m.evicted v lru s rest).mswp = { m.mswp.paste s (m.mram.page v.fpn) with freeFpList := rest } := by
  have hr : (((m.setLru lru).setFree .mswp rest).dev .mswp).rdmflg = true := hrandom
  change (if _ then _ else _ : Memphy) = _
  rw [if_pos hr]
  rfl

theorem Machine.placed_pgd (m : Machine) (r : PteRef) (f : Nat) (e : Event) :
    (m.placed r f e).pgd = Function.update m.pgd r (pteSetFpn (m.pgd r) f) := rfl

theorem Machine.placed_lru {m : Machine} {f : Nat} (r : PteRef) (e : Event) (hnot : f ∉ m.lru.map (·.fpn))
    (hf : f < 8192) : (m.placed r f e).lru = m.lru ++ [⟨r, f, r.pgn⟩] := by
  have hfpn : (pteSetFpn (m.pgd r) f).fpn = f := by
    rw [fpn_pteSetFpn, Nat.mod_eq_of_lt hf]
  simp only [Machine.placed, Machine.referenced, Machine.addLru, Machine.noted_lru, Machine.setLru_lru,
    Machine.setPte_lru, Machine.noted_pgd, Machine.setPte_pgd, Function.update_self, hfpn]
  exact Lru.addLruPage_of_not_mem hnot

def AtTail (m : Machine) (r : PteRef) : Prop := ∃ l node, m.lru = l ++ [node] ∧ node.fpn = (m.pgd r).fpn

theorem atTail_referenced (m : Machine) (r : PteRef) : AtTail (m.referenced r) r :=
  Lru.addLruPage_tail m.lru ⟨r, (m.pgd r).fpn, r.pgn⟩

/-- **One move**, with the frames held before and after. -/
inductive Move : List Nat → Machine → List Nat → Machine → Prop where
  | take {held m f rest} (hfree : m.mram.freeFpList = f :: rest) :
      Move held m (f :: held) (m.setFree .mram rest)
  | evict {held m v lru s rest} (hfree : m.mram.freeFpList = []) (hlru : m.lru = v :: lru)
      (hswp : m.mswp.freeFpList = s :: rest) :
      Move held m (v.fpn :: held) (m.evicted v lru s rest)
  | map {held m f} (r : PteRef) (vmaid : Int) :
      Move (f :: held) m held (m.placed r f (.mapped r vmaid (m.pgd r)))
  | fill {held m f rest} (r : PteRef) (hfree : m.mram.freeFpList = f :: rest) (hpte : (m.pgd r).present = false) :
      Move held m held
        (((m.setFree .mram rest).copyPage .mswp (m.pgd r).fpn .mram f).placed r f (.filled r (m.pgd r)))
  | replace {held m v lru s rest} (r : PteRef) (hlru : m.lru = v :: lru) (hswp : m.mswp.freeFpList = s :: rest)
      (hpte : (m.pgd r).present = false) :
      Move held m held
        ((((m.evicted v lru s rest).copyPage .mswp (m.pgd r).fpn .mram v.fpn).setFree .mswp
          ((m.pgd r).fpn :: rest)).placed
          r v.fpn (.replaced r (m.pgd r)))
  | touch {held m} (r : PteRef) (hpte : (m.pgd r).present = true) : Move held m held (m.referenced r)
  | revisit {held m f} (r : PteRef) (old : Pte) (hpte : (m.pgd r).present = true) (hf : (m.pgd r).fpn = f % 8192)
      (hlru : m.lru ≠ []) (hwho : old = m.pgd r ∨ AtTail m r) :
      Move held m held (((m.setLru (Lru.moveToTail old.fpn m.lru)).noted (.reused r old f)).noted (.reference r))
  | retouch {held m} (r : PteRef) (hlru : m.lru ≠ []) 
      (hwho : (m.pgd r).present = true ∧ AtTail m r ∨ Event.outOfSwap ∈ m.trace) :
      Move held m held (m.setLru (Lru.moveToTail (m.pgd r).fpn m.lru))
  | ask {held m} (k : Int) : Move held m held (m.noted (.mapRam k))
  | lose {held m v lru} (hlru : m.lru = v :: lru) (hswp : m.mswp.freeFpList = []) :
      Move held m held ((m.setLru lru).noted .outOfSwap)
  | loseNone {held m} (hlru : m.lru = []) (hswp : m.mswp.freeFpList = []) :
      Move held m held ((m.noted .emptyVictim).noted .outOfSwap)

abbrev Moves (held : List Nat) (m : Machine) (held' : List Nat) (m' : Machine) : Prop :=
  Relation.ReflTransGen (fun a b : List Nat × Machine => Move a.1 a.2 b.1 b.2) (held, m) (held', m')

/-! ## `__swap_cp_page` -/

/-- The device `mp` with the first `j` bytes of a page written to the frame `f`. -/
def pasteTo (mp : Memphy) (f : Nat) (bytes : Nat → Byte) (j : Nat) : Memphy :=
  { mp with storage := fun a => if f * 256 ≤ a ∧ a < f * 256 + j then bytes (a - f * 256) else mp.storage a }

theorem pasteTo_zero (mp : Memphy) (f : Nat) (bytes : Nat → Byte) : pasteTo mp f bytes 0 = mp := by
  unfold pasteTo
  congr 1
  funext a
  rw [if_neg (by omega)]

theorem pasteTo_page (mp : Memphy) (f : Nat) (bytes : Nat → Byte) : pasteTo mp f bytes 256 = mp.paste f bytes := by
  unfold pasteTo Memphy.paste
  congr 1
  funext a
  by_cases h : a / 256 = f
  · rw [if_pos (by omega), if_pos h, show a - f * 256 = a % 256 by omega]
  · rw [if_neg (by omega), if_neg h]

theorem memphyWrite_pasteTo {mp mp' : Memphy} {f j : Nat} {bytes : Nat → Byte} (hr : mp.rdmflg = true)
    (h : memphyWrite (pasteTo mp f bytes j) (f * 256 + j) (bytes j) = .ok mp') : mp' = pasteTo mp f bytes (j + 1) := by
  have hr' : (pasteTo mp f bytes j).rdmflg = true := hr
  rw [memphyWrite, if_pos hr'] at h
  split at h
  · cases h
    unfold pasteTo
    congr 1
    funext a
    by_cases ha : a = f * 256 + j
    · subst ha
      rw [Function.update_self, if_pos (by omega), Nat.add_sub_cancel_left]
    · rw [Function.update_of_ne ha]
      have hiff : (f * 256 ≤ a ∧ a < f * 256 + (j + 1)) ↔ (f * 256 ≤ a ∧ a < f * 256 + j) := by omega
      simp only [hiff]
  · cases h

/-- The machine in the middle of `__swap_cp_page`. -/
def copiedTo (m : Machine) (src : Dev) (srcfpn : Nat) (dst : Dev) (dstfpn j : Nat) : Machine :=
  m.setDev dst (if (m.dev dst).rdmflg then pasteTo (m.dev dst) dstfpn ((m.dev src).page srcfpn) j else m.dev dst)

theorem run_swapCpCell {m m' : Machine} {src dst : Dev} (hne : src ≠ dst) {srcfpn dstfpn j : Nat} {u : Unit}
    (h : run (swapCpCell src srcfpn dst dstfpn j) (copiedTo m src srcfpn dst dstfpn j) = .ok (m', u)) :
    m' = copiedTo m src srcfpn dst dstfpn (j + 1) := by
  simp only [swapCpCell, Code.read, Prog.op_bind, Prog.ret_bind] at h
  obtain ⟨m₁, data, hread, hwrite⟩ := run_op_ok.1 h
  simp only [step, copiedTo, Machine.dev_setDev_of_ne _ _ hne] at hread
  cases hb : memphyRead (m.dev src) (srcfpn * 256 + j) with
  | error e => rw [hb] at hread; cases hread
  | ok b =>
    rw [hb] at hread
    cases hread
    cases data with
    | none => cases hwrite
    | some b =>
      obtain ⟨m₂, _, hstep, hret⟩ := run_op_ok.1 hwrite
      cases hret
      have hdata : b = (m.dev src).page srcfpn j := (memphyRead_ok hb).2.2
      simp only [step, Machine.dev_setDev, hdata] at hstep
      unfold copiedTo
      by_cases hr : (m.dev dst).rdmflg = true
      · rw [if_pos hr] at hstep ⊢
        obtain ⟨mp, hmp, heq⟩ := map_ok hstep
        cases heq
        rw [Machine.setDev_setDev, memphyWrite_pasteTo hr hmp]
      · rw [if_neg hr] at hstep ⊢
        rw [memphyWrite, if_neg hr] at hstep
        cases hstep
        simp

theorem run_swapCpPage {m m' : Machine} {src dst : Dev} (hne : src ≠ dst) {srcfpn dstfpn : Nat} {u : Unit}
    (h : run (swapCpPage src srcfpn dst dstfpn) m = .ok (m', u)) : m' = m.copyPage src srcfpn dst dstfpn := by
  have h0 : m = copiedTo m src srcfpn dst dstfpn 0 := by simp [copiedTo, pasteTo_zero]
  have hend := exec_loop_ok step (fun j s => s = copiedTo m src srcfpn dst dstfpn j)
    (fun j s₁ s₂ _ _ hj hs => run_swapCpCell hne (by rw [← hj]; exact hs)) h0 h
  rw [hend, Nat.zero_add, copiedTo, pasteTo_page, Machine.copyPage]

/-! ## `pg_getpage` -/

/-- A move that begins and ends with no frame held. -/
abbrev Turn (m m' : Machine) : Prop := Move [] m [] m'

section Getpage

variable {m m' : Machine} {r : PteRef}

theorem run_pgReplace {b : Bool} (hpte : (m.pgd r).present = false)
    (h : run (pgReplace r (m.pgd r)) m = .ok (m', b)) :
    (b = true ∧ Turn m (m'.referenced r) ∧ (m'.pgd r).present = true) ∨
      (b = false ∧ Turn m m' ∧ Event.outOfSwap ∈ m'.trace) := by
  rw [pgReplace] at h
  obtain ⟨vic, swpfpn, m₀, htaken, h⟩ := run_victimAndFrame h
  cases htaken with
  | neither hlru hswp =>
    cases h
    exact Or.inr ⟨rfl, .loseNone hlru hswp, by simp⟩
  | noVictim hlru hswp => cases h
  | noFrame hlru hswp =>
    cases h
    exact Or.inr ⟨rfl, .lose hlru hswp, by simp⟩
  | both hlru hswp =>
    simp only [theVictim, run_pure_bind] at h
    obtain ⟨m₁, _, hout, h⟩ := run_bind_ok.1 h
    obtain ⟨m₂, _, hin, h⟩ := run_bind_ok.1 h
    rw [run_swapCpPage (by decide) hout] at hin
    rw [run_swapCpPage (by decide) hin] at h
    simp only [run_setSwap, run_setFpn, run_putFreefp, run_note, run_pure,
      Machine.setFree_setPte, Machine.setPte_dev, Machine.copyPage_freeFpList, Machine.setFree_freeFpList] at h
    have hmove : Turn m _ := .replace r hlru hswp hpte
    simp only [Machine.evicted, Machine.placed, Machine.copyPage_setPte, Machine.setFree_setPte] at hmove
    cases h
    exact Or.inl ⟨rfl, hmove, by simp⟩

theorem run_pgBringIn {b : Bool} (hpte : (m.pgd r).present = false)
    (h : run (pgBringIn r (m.pgd r)) m = .ok (m', b)) :
    (b = true ∧ Turn m (m'.referenced r) ∧ (m'.pgd r).present = true) ∨
      (b = false ∧ Turn m m' ∧ Event.outOfSwap ∈ m'.trace) := by
  cases hfree : m.mram.freeFpList with
  | nil =>
    rw [pgBringIn, run_getFreefp_nil m .mram hfree] at h
    exact run_pgReplace hpte h
  | cons f rest =>
    rw [pgBringIn, run_getFreefp_cons m .mram hfree] at h
    obtain ⟨m₁, _, hin, h⟩ := run_bind_ok.1 h
    rw [run_swapCpPage (by decide) hin] at h
    simp only [run_setFpn, run_note, run_pure] at h
    have hmove : Turn m _ := .fill r hfree hpte
    cases h
    exact Or.inl ⟨rfl, hmove, by simp⟩

/-- **`pg_getpage` is one turn**: the page is present and the frame answered is its frame, or swap ran out. -/
theorem run_pgGetpage {o : Option Nat} (h : run (pgGetpage r) m = .ok (m', o)) :
    (o = some (m'.pgd r).fpn ∧ Turn m m' ∧ (m'.pgd r).present = true ∧ AtTail m' r) ∨
      (o = none ∧ Turn m m' ∧ Event.outOfSwap ∈ m'.trace) := by
  simp only [pgGetpage, run_lock, run_readPte] at h
  by_cases hpte : (m.pgd r).present = true
  · simp only [hpte, if_true, run_pure_bind, run_addLruPage, run_note, run_readPte, run_unlock, run_pure] at h
    cases h
    exact Or.inl ⟨rfl, .touch r hpte, hpte, atTail_referenced m r⟩
  · have hpte' : (m.pgd r).present = false := by simpa using hpte
    simp only [hpte', Bool.false_eq_true, if_false] at h
    obtain ⟨m₁, online, hin, h⟩ := run_bind_ok.1 h
    rcases run_pgBringIn hpte' hin with ⟨rfl, hmove, hpres⟩ | ⟨rfl, hmove, hswp⟩
    · simp only [if_true, run_addLruPage, run_note, run_readPte, run_unlock, run_pure] at h
      cases h
      exact Or.inl ⟨rfl, hmove, hpres, atTail_referenced m₁ r⟩
    · simp only [Bool.false_eq_true, if_false, run_pure] at h
      cases h
      exact Or.inr ⟨rfl, hmove, hswp⟩

end Getpage

/-! ## `vm_map_ram` -/

section MapRam

variable {m m' : Machine}

theorem run_allocPagesRange : ∀ (n : Nat) {m : Machine} {frmLst : List Nat} {o : Option (List Nat)},
    run (allocPagesRange n frmLst) m = .ok (m', o) →
      ∃ fs, o = some fs ∧ fs.length = n + frmLst.length ∧ Moves frmLst m fs m' ∧ m'.trace = m.trace
  | 0, m, frmLst, o, h => by
    cases h
    exact ⟨frmLst, rfl, (Nat.zero_add _).symm, .refl, rfl⟩
  | n + 1, m, frmLst, o, h => by
    -- the first frame taken, the rest of the loop is the induction hypothesis
    have hrest : ∀ {m₁ : Machine} {f : Nat}, Move frmLst m (f :: frmLst) m₁ → m₁.trace = m.trace →
        run (allocPagesRange n (f :: frmLst)) m₁ = .ok (m', o) →
          ∃ fs, o = some fs ∧ fs.length = n + 1 + frmLst.length ∧ Moves frmLst m fs m' ∧ m'.trace = m.trace := by
      intro m₁ f hmove htr hrun
      obtain ⟨fs, ho, hlen, hms, htr'⟩ := run_allocPagesRange n hrun
      refine ⟨fs, ho, ?_, .head hmove hms, htr'.trans htr⟩
      rw [hlen, List.length_cons]
      omega
    cases hfree : m.mram.freeFpList with
    | cons f rest =>
      rw [allocPagesRange, run_getFreefp_cons m .mram hfree] at h
      exact hrest (.take hfree) (by simp) h
    | nil =>
      rw [allocPagesRange, run_getFreefp_nil m .mram hfree] at h
      obtain ⟨vic, swpfpn, m₀, htaken, h⟩ := run_victimAndFrame h
      cases htaken with
      | neither hlru hswp | noVictim hlru hswp | noFrame hlru hswp => cases h
      | both hlru hswp =>
        simp only [theVictim, run_pure_bind] at h
        obtain ⟨m₁, _, hout, h⟩ := run_bind_ok.1 h
        rw [run_swapCpPage (by decide) hout] at h
        simp only [run_setSwap] at h
        exact hrest (.evict hfree hlru hswp) (by simp [Machine.evicted]) h

def vmapPages (vmaid pgn : Int) : Nat → List Nat
  | 0 => []
  | pgit + 1 => (if vmaid = 0 then pgn + pgit else pgn - pgit).toNat :: vmapPages vmaid pgn pgit

def mapsOf (p : Pid) (vmaid : Int) : List Event → List Nat
  | [] => []
  | .mapped r a _ :: es => if r.pid = p ∧ a = vmaid then r.pgn :: mapsOf p vmaid es else mapsOf p vmaid es
  | _ :: es => mapsOf p vmaid es

theorem mapsOf_append (p : Pid) (vmaid : Int) :
    ∀ a b : List Event, mapsOf p vmaid (a ++ b) = mapsOf p vmaid a ++ mapsOf p vmaid b
  | [], b => rfl
  | e :: es, b => by
    have ih := mapsOf_append p vmaid es b
    cases e with
    | mapped r a old =>
      simp only [List.cons_append, mapsOf]
      split
      · rw [ih, List.cons_append]
      · exact ih
    | _ => exact ih

theorem run_pgdAt {p : Pid} {i : Int} {r : PteRef} (h : run (pgdAt p i) m = .ok (m', r)) :
    m' = m ∧ r = ⟨p, i.toNat⟩ ∧ 0 ≤ i ∧ i < 16384 := by
  unfold pgdAt at h
  split at h
  · rename_i hi
    cases h
    exact ⟨rfl, rfl, hi⟩
  · cases h

@[simp] theorem mapsOf_placed (p : Pid) (a : Int) (m : Machine) (r : PteRef) (f : Nat) (vmaid : Int) (old : Pte) :
    mapsOf p a (m.placed r f (.mapped r vmaid old)).trace =
      mapsOf p a m.trace ++ if r.pid = p ∧ vmaid = a then [r.pgn] else [] := by
  simp [Machine.placed, Machine.referenced, Machine.addLru, mapsOf_append, mapsOf]

/-- **`vmap_page_range` maps its pages**, given the frames for them, and those only. -/
theorem run_vmapLoop {p : Pid} {vmaid pgn : Int} : ∀ (n : Nat) {m : Machine} {frames : List Nat} {ret : Int},
    frames.length = n → run (vmapLoop p vmaid pgn n frames) m = .ok (m', ret) →
      Moves frames m [] m' ∧ mapsOf p vmaid m'.trace = mapsOf p vmaid m.trace ++ vmapPages vmaid pgn n ∧
        ∀ p' vmaid', ¬(p' = p ∧ vmaid' = vmaid) → mapsOf p' vmaid' m'.trace = mapsOf p' vmaid' m.trace
  | 0, m, frames, ret, hlen, h => by
    cases h
    rw [List.eq_nil_of_length_eq_zero hlen]
    exact ⟨.refl, by simp [vmapPages], fun _ _ _ => rfl⟩
  | n + 1, m, [], ret, hlen, h => by cases hlen
  | n + 1, m, f :: frames, ret, hlen, h => by
    simp only [List.length_cons, Nat.add_right_cancel_iff] at hlen
    obtain ⟨m₁, r, hr, hrun⟩ := run_bind_ok.1 h
    obtain ⟨rfl, hr, -⟩ := run_pgdAt hr
    change run (vmapLoop p vmaid pgn n frames) (m₁.placed r f (.mapped r vmaid (m₁.pgd r))) = _ at hrun
    obtain ⟨hms, hp, hne⟩ := run_vmapLoop n hlen hrun
    refine ⟨.head (.map r vmaid) hms, ?_, fun p' vmaid' hp' => ?_⟩
    · rw [hp, mapsOf_placed, hr, if_pos ⟨rfl, rfl⟩, List.append_assoc]
      rfl
    · rw [hne p' vmaid' hp', mapsOf_placed, hr, if_neg (fun e => hp' ⟨e.1.symm, e.2.symm⟩), List.append_nil]

def mapPgn (mm : Mm) (vmaid mapstart : Int) : Int :=
  pagingPgn (if vmaid = 0 then mapstart
    else if uint32 mapstart = uint32 (mm.vmemsz - 1) then mapstart else int32 (mapstart - 1))

theorem Move.mm_eq {h h' : List Nat} (hm : Move h m h' m') : m'.mm = m.mm := by
  cases hm <;> simp [Machine.placed, Machine.referenced, Machine.addLru, Machine.evicted]

theorem moves_mm {h h' : List Nat} (hm : Moves h m h' m') : m'.mm = m.mm := by
  have hkeep : ∀ b : List Nat × Machine,
      Relation.ReflTransGen (fun a b => Move a.1 a.2 b.1 b.2) (h, m) b → b.2.mm = m.mm := by
    intro b hb
    induction hb with
    | refl => rfl
    | tail _ hd ih => rw [hd.mm_eq, ih]
  exact hkeep _ hm

/-- **`vm_map_ram`** maps as many pages as asked. -/
theorem run_vmMapRam {p : Pid} {vmaid mapstart k : Int} {ret : Int}
    (h : run (vmMapRam p vmaid mapstart k) m = .ok (m', ret)) :
    ret = 0 ∧ Moves [] m [] m' ∧
      mapsOf p vmaid m'.trace = mapsOf p vmaid m.trace ++ vmapPages vmaid (mapPgn (m.mm p) vmaid mapstart) k.toNat ∧
      ∀ p' vmaid', ¬(p' = p ∧ vmaid' = vmaid) → mapsOf p' vmaid' m'.trace = mapsOf p' vmaid' m.trace := by
  simp only [vmMapRam, run_lock, run_note] at h
  obtain ⟨m₁, o, halloc, h⟩ := run_bind_ok.1 h
  have hask : Moves [] m [] (m.noted (.mapRam k)) := .single (.ask k)
  obtain ⟨fs, rfl, hlen, hms, htr⟩ := run_allocPagesRange k.toNat halloc
  simp only [run_getMm] at h
  obtain ⟨m₂, _, hmap, h⟩ := run_bind_ok.1 h
  simp only [run_unlock, run_pure] at h
  cases h
  obtain ⟨hms', hp, hne⟩ := run_vmapLoop k.toNat hlen hmap
  have hmm : m₁.mm p = m.mm p := by rw [moves_mm hms]; rfl
  rw [htr] at hp hne
  refine ⟨rfl, hask.trans (hms.trans hms'), ?_, fun p' vmaid' hne' => ?_⟩
  · rw [hp, hmm, mapPgn]
    simp [mapsOf_append, mapsOf]
  · rw [hne p' vmaid' hne']
    simp [mapsOf_append, mapsOf]

end MapRam

end OsSim
