import OsSim.Access
import OsSim.Content
import OsSim.Disjoint
import OsSim.Requests
/-!
# Readback — a process reads what it wrote

A region's byte has a cell: a page and a place in it.  Regions that share no byte share no cell, so a call stores
into the cells it is meant for, and what pages do in between keeps every cell's byte.
-/
namespace OsSim

open Atomic Code

/-! ## Cells -/

def cell (p : Pid) (vmaid addr : Int) : PteRef × Nat := (⟨p, pagingPgn addr⟩, inPage vmaid (pagingOffst addr))

theorem cell_inj {p : Pid} {vmaid a b : Int} (ha : 0 ≤ a ∧ a < 4194304) (hb : 0 ≤ b ∧ b < 4194304)
    (h : cell p vmaid a = cell p vmaid b) : a = b := by
  have hpgn : pagingPgn a = pagingPgn b := congrArg (fun c => c.1.pgn) h
  have hin : inPage vmaid (pagingOffst a) = inPage vmaid (pagingOffst b) := congrArg Prod.snd h
  have ha' := pagingPgn_eq a
  have hb' := pagingPgn_eq b
  have hoa := pagingOffst_eq a
  have hob := pagingOffst_eq b
  unfold inPage at hin
  split at hin <;> omega

structure LaidOut (v : Int) (mm : Mm) : Prop where
  layout : Layout v mm
  aligned : mm.vma0.vmEnd % 256 = 0

/-- **A stack byte and a heap byte** are in different pages. -/
theorem LaidOut.pgn_ne {v : Int} {mm : Mm} (h : LaidOut v mm) {rg rg' : VmRg} {a b : Int}
    (hrg : rg.Of 0 0 (mm.vma0.sbrk - 1))
    (hrg' : rg'.Of 1 mm.vma1.sbrk (v - 1)) (ha : rg.Holds a) (hb : rg'.Holds b) : pagingPgn a ≠ pagingPgn b := by
  have hbounds := h.layout.bounds
  have hsize := hbounds.size
  have hstack := hbounds.stack
  have hlimit := hbounds.limit
  have halign := h.aligned
  obtain ⟨ha0, ha1, -⟩ := hrg.order
  have hlo := hrg.bytes ha.1
  have hlo' := hrg'.bytes hb.1
  have hain := ha.2
  have hbin := hb.2
  have ha' := pagingPgn_eq a
  have hb' := pagingPgn_eq b
  rcases h.layout.ends with h0 | h1 | hle
  · omega
  · -- an untouched heap holds nothing
    exact absurd hb (hrg'.not_holds_of_le (by rw [Layout.untouched hbounds h1]) b)
  · omega

theorem LaidOut.byte_range {v : Int} {mm : Mm} (h : LaidOut v mm) {i : Nat} (hi : i < 30) {a : Int}
    (ha : (mm.symrgtbl i).Holds a) : 0 ≤ a ∧ a < 4194304 := by
  have hsize := h.layout.bounds.size
  have hstack := h.layout.bounds.stack
  have hheap := h.layout.bounds.heap
  have hin := ha.2
  rcases h.layout.bounds.table i hi with hof | hof
  · have hbytes := hof.bytes ha.1
    omega
  · have hbytes := hof.bytes ha.1
    omega

/-- **Bytes of different regions have different cells**, and so have different bytes of one region. -/
theorem LaidOut.cells_apart {v : Int} {mm : Mm} (h : LaidOut v mm) (p : Pid) {i j : Nat} (hi : i < 30) (hj : j < 30)
    {a b : Int} (ha : (mm.symrgtbl i).Holds a) (hb : (mm.symrgtbl j).Holds b) (hne : a ≠ b) :
    cell p (mm.symrgtbl i).vmaid a ≠ cell p (mm.symrgtbl j).vmaid b := by
  intro heq
  have hpgn : pagingPgn a = pagingPgn b := congrArg (fun c => c.1.pgn) heq
  have hsame : (mm.symrgtbl i).vmaid = (mm.symrgtbl j).vmaid → False := by
    intro hvmaid
    rw [hvmaid] at heq
    exact hne (cell_inj (h.byte_range hi ha) (h.byte_range hj hb) heq)
  rcases h.layout.bounds.table i hi with hof | hof <;> rcases h.layout.bounds.table j hj with hof' | hof'
  · exact hsame (hof.vmaid.trans hof'.vmaid.symm)
  · exact h.pgn_ne hof hof' ha hb hpgn
  · exact h.pgn_ne hof' hof hb ha hpgn.symm
  · exact hsame (hof.vmaid.trans hof'.vmaid.symm)

theorem LaidOut.region_unique {v : Int} {mm : Mm} (h : LaidOut v mm) {i j : Nat} (hi : i < 30) (hj : j < 30)
    (hne : i ≠ j) {a b : Int} (ha : (mm.symrgtbl i).Holds a) (hb : (mm.symrgtbl j).Holds b) : a ≠ b := by
  rintro rfl
  -- without region `i` no region holds the byte
  have hcount := held_setSymrg mm hi ⟨0, 0, 0⟩ a
  rw [Cover.one_of VmRg.Holds ha, Cover.one_of_not VmRg.Holds
    (show ¬(VmRg.mk 0 0 0).Holds a from fun hh => hh.1 rfl)] at hcount
  have hmem : mm.symrgtbl j ∈ regions (mm.setSymrg i ⟨0, 0, 0⟩) := by
    refine List.mem_append_left _ (List.mem_append_left _ (List.mem_map.2 ⟨j, List.mem_range.2 hj, ?_⟩))
    exact Function.update_of_ne (fun e => hne e.symm) _ _
  have hpos := Cover.count_pos VmRg.Holds hmem hb
  have hone := h.layout.apart a
  unfold held at hcount
  omega

theorem LaidOut.wiped {v : Int} {mm : Mm} (h : LaidOut v mm) {p P : Pid} {i j : Nat} (hi : i < 30) (hj : j < 30)
    {b : Int} (hb : (mm.symrgtbl j).Holds b) {vmaid : Int} {off : Nat}
    (hw : wipes p (mm.symrgtbl i) (cell P (mm.symrgtbl j).vmaid b).1 vmaid off)
    (hin : (cell P (mm.symrgtbl j).vmaid b).2 = inPage vmaid off)
    (hne : (mm.symrgtbl i).rgStart ≠ (mm.symrgtbl i).rgEnd) :
    P = p ∧ j = i ∧ ∃ k : Nat, k < ((mm.symrgtbl i).rgEnd - (mm.symrgtbl i).rgStart).toNat ∧
      b = (mm.symrgtbl i).rgStart + k := by
  obtain ⟨rfl, k, hk, hpage, rfl⟩ := hw
  have hp : P = p := congrArg PteRef.pid hpage
  subst hp
  have hwiped : (mm.symrgtbl i).Holds ((mm.symrgtbl i).rgStart + k) := by
    refine ⟨hne, ?_⟩
    rcases h.layout.bounds.table i hi with hof | hof
    · simp only [VmRg.lo, VmRg.hi, hof.vmaid, if_true]
      omega
    · have horder := hof.order
      simp only [VmRg.lo, VmRg.hi, hof.vmaid, if_neg (show (1 : Int) ≠ 0 by decide)] at horder
      omega
  have hsame : b = (mm.symrgtbl i).rgStart + k := by
    by_contra hbk
    exact h.cells_apart P hi hj hwiped hb (fun e => hbk e.symm) (Prod.ext hpage.symm hin.symm)
  refine ⟨rfl, ?_, k, hk, hsame⟩
  by_contra hij
  exact h.region_unique hi hj (fun e => hij e.symm) hwiped hb hsame.symm

/-! ## What a call makes of the regions -/

section Fields

variable (mm : Mm) (vmaid : Int)

theorem symrgtbl_setVma (vma : VmArea) : (mm.setVma vmaid vma).symrgtbl = mm.symrgtbl := by
  unfold Mm.setVma
  split <;> rfl

theorem aligned_setVma {vma : VmArea} (h : mm.vma0.vmEnd % 256 = 0) (hend : vmaid = 0 → vma.vmEnd % 256 = 0) :
    (mm.setVma vmaid vma).vma0.vmEnd % 256 = 0 := by
  unfold Mm.setVma
  split
  · exact hend ‹_›
  · exact h

theorem aligned_setFreerg {l : List VmRg} (h : mm.vma0.vmEnd % 256 = 0) : (mm.setFreerg vmaid l).vma0.vmEnd % 256 = 0 :=
  aligned_setVma mm vmaid h (fun hv => by rw [hv]; exact h)

theorem aligned_commitRegion (i : Nat) (size : Int) (h : mm.vma0.vmEnd % 256 = 0) :
    (commitRegion mm vmaid i size).vma0.vmEnd % 256 = 0 := by
  have hbrk : ∀ (rg : VmRg) (b : Int), ((mm.setSymrg i rg).setSbrk vmaid b).vma0.vmEnd % 256 = 0 :=
    fun rg b => aligned_setVma _ _ h (fun hv => by rw [hv]; exact h)
  unfold commitRegion
  dsimp only
  split
  · rename_i hv
    subst hv
    exact hbrk _ _
  · split <;> exact hbrk _ _

theorem aligned_grownMm (size : Int) (h : mm.vma0.vmEnd % 256 = 0) : (grownMm mm vmaid size).vma0.vmEnd % 256 = 0 := by
  refine aligned_setVma mm vmaid h (fun hv => ?_)
  simp only [newVmEnd, hv, if_true, pagingPageAlignsz]
  omega

theorem symrgtbl_commitRegion (i : Nat) (size : Int) {j : Nat} (hj : j ≠ i) :
    (commitRegion mm vmaid i size).symrgtbl j = mm.symrgtbl j := by
  have hset : ∀ (rg : VmRg) (a b : Int), ((mm.setSymrg i rg).setSbrk a b).symrgtbl j = mm.symrgtbl j := by
    intro rg a b
    rw [Mm.setSbrk, symrgtbl_setVma]
    exact Function.update_of_ne hj _ _
  unfold commitRegion
  dsimp only
  split
  · exact hset _ _ _
  · split <;> exact hset _ _ _

end Fields

theorem Mm.Answers.aligned {mm mm' : Mm} {c : Call} {status : Int} (h : mm.Answers c (status, mm'))
    (ha : mm.vma0.vmEnd % 256 = 0) : mm'.vma0.vmEnd % 256 = 0 := by
  have halloc : ∀ {vmaid rgid size : Int} {l : List VmRg} {o : Option VmRg},
      (mm.allocated vmaid rgid size l o).2.vma0.vmEnd % 256 = 0 := by
    intro vmaid rgid size l o
    have hl := @aligned_setFreerg mm vmaid l ha
    cases o with
    | some rg => exact hl
    | none =>
      simp only [Mm.allocated]
      split
      · exact hl
      · split
        · exact aligned_commitRegion _ _ _ _ (aligned_grownMm _ _ _ hl)
        · exact aligned_commitRegion _ _ _ _ hl
  cases c with
  | pgalloc size regIndex | pgmalloc size regIndex =>
    obtain ⟨fuel, l, o, -, heq⟩ := h
    rw [show mm' = _ from congrArg Prod.snd heq]
    exact halloc
  | pgfreeData regIndex =>
    rw [show mm' = _ from congrArg Prod.snd h]
    unfold Mm.freed
    split
    · unfold freedMm Mm.enlisted
      dsimp only
      split
      · exact ha
      · exact aligned_setFreerg _ _ ha
    · exact ha
  | pgread source offset | pgwrite data destination offset =>
    rw [show mm' = _ from congrArg Prod.snd h]
    unfold Mm.accessed
    split <;> exact ha

/-- **A call that asks for what keeps the regions apart** leaves every process laid out, if swap does not run out. -/
theorem laidOut_call {v : Pid → Int} {m m' : Machine} {p : Pid} {c : Call} {ret : Ret} (hasks : Asks KeepsApart m p c)
    (hcall : Completes m p c ret m') (hswp : Event.outOfSwap ∉ m'.trace) (h : ∀ q, LaidOut (v q) (m.mm q)) (q : Pid) :
    LaidOut (v q) (m'.mm q) := by
  have hstep : Run (Asks KeepsApart) m m' := .single ⟨p, c, ret, hasks, hcall⟩
  have hlayout : ∀ q, Layout (v q) (m'.mm q) := run_mm KeepsApart (fun q => Layout (v q))
    (fun hvma hkeep halloc hlay => hlay.alloc hvma hkeep halloc) (fun hi hne hlay => hlay.free hi hne) hstep
    (fun q => (h q).layout)
  refine ⟨hlayout q, ?_⟩
  obtain ⟨hanswers, hother⟩ := completes_answers hcall hswp
  by_cases hq : q = p
  · subst hq
    exact hanswers.aligned (h q).aligned
  · rw [hother q hq]
    exact (h q).aligned

def Call.takes (i : Nat) (c : Call) : Prop :=
  (∃ vmaid rgid size, c.request = some (vmaid, rgid, size) ∧ rgid = i) ∨
    ∃ regIndex, c = .pgfreeData regIndex ∧ regIndex.toInt = i

/-- **A region stays** where it is unless a successful call of the process takes it, or an allocation that was given
a free region for it runs out of swap. -/
theorem symrgtbl_call_or {m m' : Machine} {p : Pid} {c : Call} {ret : Ret} (hcall : Completes m p c ret m') {i : Nat}
    (htakes : ret.1 = 0 → ¬c.takes i) : (m'.mm p).symrgtbl i = (m.mm p).symrgtbl i ∨
      Event.outOfSwap ∈ m'.trace ∧ ret.1 = -3000 ∧ ∃ fuel vmaid size l rg, c.request = some (vmaid, (i : Int), size) ∧
        getFreeVmrgArea fuel vmaid size ((m.mm p).vma vmaid).vmFreergList = some (l, some rg) ∧
          (m'.mm p).symrgtbl i = rg := by
  obtain ⟨fuel, hrun⟩ := hcall
  have hfreerg : ∀ (mm : Mm) (vmaid : Int) (l : List VmRg), (mm.setFreerg vmaid l).symrgtbl i = mm.symrgtbl i :=
    fun mm vmaid l => by rw [Mm.setFreerg, symrgtbl_setVma]
  have halloc : ∀ {vmaid rgid size status : Int}, Allocated fuel p vmaid rgid size m m' status → (status = 0 → rgid ≠ i) →
      (m'.mm p).symrgtbl i = (m.mm p).symrgtbl i ∨ rgid = i ∧ Event.outOfSwap ∈ m'.trace ∧ status = -3000 ∧ ∃ l rg,
        getFreeVmrgArea fuel vmaid size ((m.mm p).vma vmaid).vmFreergList = some (l, some rg) ∧
          (m'.mm p).symrgtbl i = rg := by
    intro vmaid rgid size status h hne
    cases h with
    | @reused l rg m₁ status hid hget hturns hret =>
      rw [turns_mm hturns]
      simp only [Machine.setMm_mm, Function.update_self]
      by_cases hi : rgid = i
      · obtain ⟨rfl, hout⟩ := hret.resolve_left (fun h0 => hne h0 hi)
        refine Or.inr ⟨hi, hout, rfl, l, rg, hget, ?_⟩
        rw [hi]
        exact Function.update_self _ _ _
      · exact Or.inl ((Function.update_of_ne (by omega) _ _).trans (hfreerg _ _ _))
    | @refused l hget hwhy =>
      simp only [Machine.setMm_mm, Function.update_self]
      exact Or.inl (hfreerg _ _ _)
    | @fitted l hid hget hvirt hpast =>
      have := hne rfl
      simp only [Machine.setMm_mm, Function.update_self]
      rw [symrgtbl_commitRegion _ _ _ _ (by omega), hfreerg]
      exact Or.inl rfl
    | @grown l m₁ hid hget hvirt hpast hover hmoves hmaps hother =>
      have := hne rfl
      simp only [Machine.setMm_mm, Function.update_self]
      rw [symrgtbl_commitRegion _ _ _ _ (by omega), grownMm, Mm.setVmEnd, symrgtbl_setVma, hfreerg]
      exact Or.inl rfl
  cases c with
  | pgalloc size regIndex | pgmalloc size regIndex =>
    obtain ⟨m₁, r, hcallee, hret⟩ := run_bind_ok.1 hrun
    cases hret
    rcases halloc (run_alloc hcallee) (fun h0 hi => htakes h0 (Or.inl ⟨_, _, _, rfl, hi⟩)) with hsame |
      ⟨hi, hout, hret, hgot⟩
    · exact Or.inl hsame
    · exact Or.inr ⟨hout, hret, fuel, _, _, hgot.choose, hgot.choose_spec.choose, hi ▸ rfl, hgot.choose_spec.choose_spec⟩
  | pgfreeData regIndex =>
    obtain ⟨m₁, r, hcallee, hret⟩ := run_bind_ok.1 hrun
    cases hret
    left
    cases run_free hcallee with
    | refused hwhy => rfl
    | freed hid hrg hvma hstores =>
      have hi : i ≠ regIndex.toInt.toNat := by
        intro e
        exact htakes rfl (Or.inr ⟨regIndex, rfl, by omega⟩)
      simp only [Machine.setMm_mm, Function.update_self, freedMm, Mm.enlisted]
      split
      · exact Function.update_of_ne hi _ _
      · rw [hfreerg]
        exact Function.update_of_ne hi _ _
  | pgread source offset => exact Or.inl (by rw [read_mm hrun])
  | pgwrite data destination offset =>
    obtain ⟨m₁, r, hcallee, hret⟩ := run_bind_ok.1 hrun
    cases hret
    exact Or.inl (by rw [write_mm hcallee])

theorem symrgtbl_call {m m' : Machine} {p : Pid} {c : Call} {ret : Ret} (hcall : Completes m p c ret m')
    (hswp : Event.outOfSwap ∉ m'.trace) {i : Nat} (htakes : ret.1 = 0 → ¬c.takes i) :
    (m'.mm p).symrgtbl i = (m.mm p).symrgtbl i :=
  (symrgtbl_call_or hcall htakes).resolve_right (fun h => hswp h.1)

/-! ## A byte from its `__write` to its `__read` -/

/-- Requests that keep the regions apart, and `__write`s that keep inside their region. -/
def Careful (m : Machine) (p : Pid) (c : Call) : Prop :=
  Asks KeepsApart m p c ∧ ∀ data destination offset, c = .pgwrite data destination offset →
    KeepsInside (m.mm p) destination.toInt offset.toInt

instance (m : Machine) (p : Pid) (c : Call) : Decidable (Careful m p c) :=
  match c with
  | .pgwrite _ destination offset =>
    decidable_of_iff (Asks KeepsApart m p _ ∧ KeepsInside (m.mm p) destination.toInt offset.toInt)
      ⟨fun h => ⟨h.1, fun _ _ _ e => by cases e; exact h.2⟩, fun h => ⟨h.1, h.2 _ _ _ rfl⟩⟩
  | .pgalloc _ _ | .pgmalloc _ _ | .pgfreeData _ | .pgread _ _ =>
    decidable_of_iff (Asks KeepsApart m p _) ⟨fun h => ⟨h, fun _ _ _ e => by cases e⟩, fun h => h.1⟩

def Call.overwrites (r k : BitVec 32) : Call → Prop
  | .pgalloc _ regIndex | .pgmalloc _ regIndex | .pgfreeData regIndex => regIndex = r
  | .pgread _ _ => False
  | .pgwrite _ destination offset => destination = r ∧ offset = k

instance (r k : BitVec 32) : (c : Call) → Decidable (c.overwrites r k)
  | .pgalloc _ regIndex | .pgmalloc _ regIndex | .pgfreeData regIndex => inferInstanceAs (Decidable (regIndex = r))
  | .pgread _ _ => instDecidableFalse
  | .pgwrite _ destination offset => inferInstanceAs (Decidable (destination = r ∧ offset = k))

theorem overwrites_of_takes {r k : BitVec 32} (hr : 0 ≤ r.toInt) {c : Call} (h : c.takes r.toInt.toNat) :
    c.overwrites r k := by
  have hsame : ∀ {b : BitVec 32}, b.toInt = ↑r.toInt.toNat → b = r := by
    intro b hb
    apply BitVec.toInt_inj.1
    omega
  rcases h with ⟨vmaid, rgid, size, hreq, hid⟩ | ⟨regIndex, rfl, hid⟩
  · cases c <;> cases hreq <;> exact hsame hid
  · exact hsame hid

structure Ready (n ns : Nat) (v : Pid → Int) (m : Machine) : Prop where
  mem : MemInv n ns ([], m)
  laidOut : ∀ p, LaidOut (v p) (m.mm p)

/-- Byte `x` is in the cell of offset `k` of region `r`, which is inside the region. -/
structure Keeps (P : Pid) (r k : BitVec 32) (x : Byte) (m : Machine) : Prop where
  id : 0 ≤ r.toInt ∧ r.toInt < 30
  inside : ((m.mm P).symrgtbl r.toInt.toNat).Holds (rgAddr ((m.mm P).symrgtbl r.toInt.toNat) k.toInt)
  byte : m.pageByte (accessPage P (m.mm P) r.toInt k.toInt)
    (inPage ((m.mm P).symrgtbl r.toInt.toNat).vmaid (accessOff (m.mm P) r.toInt k.toInt)) = some x

theorem LaidOut.words {v : Int} {mm : Mm} (h : LaidOut v mm) {i : Nat} (hi : i < 30) : (mm.symrgtbl i).Words := by
  unfold VmRg.Words
  rcases h.layout.bounds.table i hi with hof | hof
  · have horder := hof.order
    simp only [VmRg.lo, VmRg.hi, hof.vmaid, if_true] at horder
    omega
  · have horder := hof.order
    simp only [VmRg.lo, VmRg.hi, hof.vmaid, if_neg (show (1 : Int) ≠ 0 by decide)] at horder
    omega

section Step

variable {n ns : Nat} {v : Pid → Int} {m m' : Machine} {p P : Pid} {c : Call} {ret : Ret} {r k : BitVec 32} {x : Byte}

theorem Ready.write_inside (h : Ready n ns v m) {data : Byte} {destination offset : BitVec 32}
    (hin : KeepsInside (m.mm p) destination.toInt offset.toInt)
    (hcall : Completes m p (.pgwrite data destination offset) ret m') (hret : ret.1 = 0)
    (hswp : Event.outOfSwap ∉ m'.trace) :
    (0 ≤ destination.toInt ∧ destination.toInt < 30) ∧ ((m.mm p).symrgtbl destination.toInt.toNat).Holds
      (rgAddr ((m.mm p).symrgtbl destination.toInt.toNat) offset.toInt) := by
  have hanswers := congrArg Prod.fst (completes_answers hcall hswp).1
  have hacc : Accessible (m.mm p) destination.toInt offset.toInt := by
    by_contra hno
    rw [Mm.accessed, if_neg hno, hret] at hanswers
    exact absurd hanswers (show (0 : Int) ≠ -1 by decide)
  obtain ⟨-, -, hvma, hne, hout⟩ := hacc
  obtain ⟨hid, hor⟩ := hin
  have hout' : ¬outOfRg ((m.mm p).symrgtbl destination.toInt.toNat) offset.toInt = true := by simp [hout]
  refine ⟨hid, (holds_rgAddr ((h.laidOut p).words (by omega)) hne ⟨offset.le_toInt, offset.toInt_lt⟩ hout').2 ?_⟩
  exact ((hor.resolve_left hvma).resolve_left hne).resolve_left hout'

theorem Ready.call (h : Ready n ns v m) (hn : n ≤ 8192) (hns : ns ≤ 2097152) (hasks : Asks KeepsApart m p c)
    (hcall : Completes m p c ret m') (hfine : ∀ e ∈ m'.trace, SwapFine e) : Ready n ns v m' :=
  ⟨(call_bytes hn hns hcall hfine h.mem).1, laidOut_call hasks hcall (fun hout => hfine _ hout) h.laidOut⟩

theorem Ready.keeps_write (h : Ready n ns v m) (hn : n ≤ 8192) (hns : ns ≤ 2097152)
    (hcare : Careful m P (.pgwrite x r k))
    (hcall : Completes m P (.pgwrite x r k) ret m') (hret : ret.1 = 0) (hfine : ∀ e ∈ m'.trace, SwapFine e) :
    Keeps P r k x m' := by
  have hswp : Event.outOfSwap ∉ m'.trace := fun hout => hfine _ hout
  obtain ⟨hid, hin⟩ := h.write_inside (hcare.2 x r k rfl) hcall hret hswp
  have hbyte := write_leaves hn hns hcall hret hfine h.mem
  have hregion : (m'.mm P).symrgtbl r.toInt.toNat = (m.mm P).symrgtbl r.toInt.toNat := by
    apply symrgtbl_call hcall hswp
    rintro - (⟨vmaid, rgid, size, hreq, -⟩ | ⟨regIndex, hfree, -⟩)
    · cases hreq
    · cases hfree
  refine ⟨hid, by rwa [hregion], ?_⟩
  rw [accessPage, accessOff, hregion]
  exact hbyte

/-- **Any other careful call** leaves the byte there: it stores into cells of other bytes, if at all. -/
theorem Keeps.call (hk : Keeps P r k x m) (h : Ready n ns v m) (hn : n ≤ 8192) (hns : ns ≤ 2097152)
    (hcare : Careful m p c) (hcall : Completes m p c ret m') (hfine : ∀ e ∈ m'.trace, SwapFine e)
    (hother : ¬(p = P ∧ ret.1 = 0 ∧ c.overwrites r k)) : Keeps P r k x m' := by
  have hswp : Event.outOfSwap ∉ m'.trace := fun hout => hfine _ hout
  have hr := hk.id
  have hregion : (m'.mm P).symrgtbl r.toInt.toNat = (m.mm P).symrgtbl r.toInt.toNat := by
    by_cases hp : P = p
    · subst hp
      exact symrgtbl_call hcall hswp (fun h0 htakes => hother ⟨rfl, h0, overwrites_of_takes hr.1 htakes⟩)
    · rw [(completes_answers hcall hswp).2 P hp]
  refine ⟨hr, by rw [hregion]; exact hk.inside, ?_⟩
  rw [accessPage, accessOff, hregion]
  refine (call_bytes hn hns hcall hfine h.mem).2 _ _ _ (inPage_lt _ (pagingOffst_lt _)) (fun h0 hstores => ?_) hk.byte
  -- the cell stored into is the byte's own
  cases c with
  | pgalloc size regIndex | pgmalloc size regIndex => exact hstores
  | pgread source offset => exact hstores
  | pgfreeData regIndex =>
    obtain ⟨vmaid, off, hw, hin⟩ := hstores
    have hp : P = p := congrArg PteRef.pid hw.2.choose_spec.2.1
    subst hp
    obtain ⟨hi, -⟩ := free_accepted hcall h0 hswp
    obtain ⟨-, hsame, -⟩ := (h.laidOut P).wiped (by omega) (by omega) hk.inside hw hin hi.2
    exact hother ⟨rfl, h0, BitVec.toInt_inj.1 (by omega)⟩
  | pgwrite data destination offset =>
    obtain ⟨hpage, hin⟩ := hstores
    have hp : P = p := congrArg PteRef.pid hpage
    subst hp
    obtain ⟨hid, hinside⟩ := h.write_inside (hcare.2 data destination offset rfl) hcall h0 hswp
    have hne : rgAddr ((m.mm P).symrgtbl destination.toInt.toNat) offset.toInt ≠
        rgAddr ((m.mm P).symrgtbl r.toInt.toNat) k.toInt := by
      by_cases hd : destination = r
      · subst hd
        have hoffset : offset.toInt ≠ k.toInt := fun e => hother ⟨rfl, h0, rfl, BitVec.toInt_inj.1 e⟩
        have hoff := And.intro offset.le_toInt offset.toInt_lt
        have hkk := And.intro k.le_toInt k.toInt_lt
        unfold rgAddr ulong
        split <;> omega
      · have hne : destination.toInt.toNat ≠ r.toInt.toNat := by
          intro e
          apply hd
          exact BitVec.toInt_inj.1 (by omega)
        exact (h.laidOut P).region_unique (by omega) (by omega) hne hinside hk.inside
    apply (h.laidOut P).cells_apart P (by omega) (by omega) hinside hk.inside hne
    exact Prod.ext hpage.symm hin.symm

theorem Keeps.read (hk : Keeps P r k x m) (h : Ready n ns v m) (hn : n ≤ 8192) (hns : ns ≤ 2097152)
    (hcall : Completes m P (.pgread r k) ret m') (hret : ret.1 = 0) (hfine : ∀ e ∈ m'.trace, SwapFine e) :
    ret.2 = some x :=
  read_delivers hn hns hcall hret hfine h.mem hk.byte

end Step

/-! ## Runs -/

/-- One careful call, and not a successful one of `P` that overwrites its offset `k` of region `r`. -/
def OtherStep (P : Pid) (r k : BitVec 32) (m m' : Machine) : Prop :=
  ∃ p c ret, Careful m p c ∧ Completes m p c ret m' ∧ ¬(p = P ∧ ret.1 = 0 ∧ c.overwrites r k)

abbrev Since (P : Pid) (r k : BitVec 32) : Machine → Machine → Prop := Relation.ReflTransGen (OtherStep P r k)

section Runs

variable {n ns : Nat} {v : Pid → Int} {m m' : Machine} {P : Pid} {r k : BitVec 32} {x : Byte}

theorem OtherStep.callStep (h : OtherStep P r k m m') : CallStep Careful m m' := by
  obtain ⟨p, c, ret, hcare, hcall, -⟩ := h
  exact ⟨p, c, ret, hcare, hcall⟩

theorem run_asks (h : Run Careful m m') : Run (Asks KeepsApart) m m' :=
  Relation.ReflTransGen.mono (fun _ _ ⟨p, c, ret, hcare, hrun⟩ => ⟨p, c, ret, hcare.1, hrun⟩) _ _ h

theorem Ready.run (h : Ready n ns v m) (hn : n ≤ 8192) (hns : ns ≤ 2097152) (hrun : Run (Asks KeepsApart) m m')
    (hfine : ∀ e ∈ m'.trace, SwapFine e) : Ready n ns v m' := by
  induction hrun with
  | refl => exact h
  | @tail m₁ m₂ _ hd ih =>
    have hready := ih (fun e he => hfine e ((callStep_trace hd).subset he))
    obtain ⟨p, c, ret, hasks, hcall⟩ := hd
    exact hready.call hn hns hasks hcall hfine

theorem Keeps.since (hk : Keeps P r k x m) (h : Ready n ns v m) (hn : n ≤ 8192) (hns : ns ≤ 2097152)
    (hrun : Since P r k m m') (hfine : ∀ e ∈ m'.trace, SwapFine e) : Ready n ns v m' ∧ Keeps P r k x m' := by
  induction hrun with
  | refl => exact ⟨h, hk⟩
  | @tail m₁ m₂ _ hd ih =>
    obtain ⟨hready, hkeeps⟩ := ih (fun e he => hfine e ((callStep_trace hd.callStep).subset he))
    obtain ⟨p, c, ret, hcare, hcall, hother⟩ := hd
    exact ⟨hready.call hn hns hcare.1 hcall hfine, hkeeps.call hready hn hns hcare hcall hfine hother⟩

end Runs

theorem Booted.ready {n ns : Nat} {v : Pid → Int} {m : Machine} (h : Booted m)
    (hv : ∀ p, 0 < v p ∧ v p ≤ 4194304 ∧ v p % 256 = 0) (hinit : ∀ p, m.mm p = initMm zeroMm (v p))
    (hram : m.mram.freeFpList.Perm (List.range n)) (hswp : m.mswp.freeFpList.Perm (List.range ns)) :
    Ready n ns v m where
  mem := ⟨h.frames hram, h.swap hswp, h.mram, h.mswp⟩
  laidOut p := hinit p ▸ ⟨layout_initMm (hv p), rfl⟩

/-- **A process reads what it wrote**, however many pages went out and came in between, as long as the calls keep
the regions apart and `__write`s keep inside them, swap does not run out, pages mapped are new, and every page
brought back has in its entry's frame field the number of its swap frame. -/
theorem read_your_writes {n ns : Nat} (hn : n ≤ 8192) (hns : ns ≤ 2097152) {v : Pid → Int}
    (hv : ∀ p, 0 < v p ∧ v p ≤ 4194304 ∧ v p % 256 = 0) {m₀ m₁ m₂ m₃ m₄ : Machine} (hboot : Booted m₀)
    (hinit : ∀ p, m₀.mm p = initMm zeroMm (v p)) (hram : m₀.mram.freeFpList.Perm (List.range n))
    (hswp : m₀.mswp.freeFpList.Perm (List.range ns)) (hbefore : Run Careful m₀ m₁) {P : Pid} {r k : BitVec 32}
    {x : Byte} (hcare : Careful m₁ P (.pgwrite x r k)) {ret : Ret} (hwrite : Completes m₁ P (.pgwrite x r k) ret m₂)
    (hret : ret.1 = 0)
    (hsince : Since P r k m₂ m₃) {ret' : Ret} (hread : Completes m₃ P (.pgread r k) ret' m₄) (hret' : ret'.1 = 0)
    (hfine : ∀ e ∈ m₄.trace, SwapFine e) : ret'.2 = some x := by
  have hwriteStep : CallStep Careful m₁ m₂ := ⟨P, _, ret, hcare, hwrite⟩
  have hreadStep : CallStep anyCall m₃ m₄ := ⟨P, _, ret', trivial, hread⟩
  have hsinceRun : Run Careful m₂ m₃ := Relation.ReflTransGen.mono (fun _ _ h => h.callStep) _ _ hsince
  have hfine₃ : ∀ e ∈ m₃.trace, SwapFine e := fun e he => hfine e ((callStep_trace hreadStep).subset he)
  have hfine₂ : ∀ e ∈ m₂.trace, SwapFine e := fun e he => hfine₃ e ((run_trace hsinceRun).subset he)
  have hfine₁ : ∀ e ∈ m₁.trace, SwapFine e := fun e he => hfine₂ e ((callStep_trace hwriteStep).subset he)
  have hready₁ := (hboot.ready hv hinit hram hswp).run hn hns (run_asks hbefore) hfine₁
  have hready₂ := hready₁.call hn hns hcare.1 hwrite hfine₂
  have hkeeps₂ := hready₁.keeps_write hn hns hcare hwrite hret hfine₂
  obtain ⟨hready₃, hkeeps₃⟩ := hkeeps₂.since hready₂ hn hns hsince hfine₃
  exact hkeeps₃.read hready₃ hn hns hread hret' hfine

def carefulOther (P : Pid) (r k : BitVec 32) (m : Machine) (p : Pid) (c : Call) : Prop :=
  Careful m p c ∧ ¬(p = P ∧ c.overwrites r k)

instance (P : Pid) (r k : BitVec 32) (m : Machine) (p : Pid) (c : Call) : Decidable (carefulOther P r k m p c) :=
  inferInstanceAs (Decidable (_ ∧ _))

theorem since_of_run {P : Pid} {r k : BitVec 32} {m m' : Machine} (h : Run (carefulOther P r k) m m') :
    Since P r k m m' :=
  Relation.ReflTransGen.mono
    (fun _ _ ⟨p, c, ret, hok, hcall⟩ => ⟨p, c, ret, hok.1, hcall, fun hno => hok.2 ⟨hno.1, hno.2.2⟩⟩) _ _ h

/-- Calls, a `__write` of 7 at offset 0 of a region, more calls that leave the byte alone, and a `__read` of it: the
last state and what the `__write` and the `__read` returned. -/
def writeThenRead (P : Pid) (r : BitVec 32) (before after : List (Pid × Call)) (m : Machine) :
    Option (Machine × Ret × Ret) :=
  (runCalls (fun m p c => Careful m p c) 10 before m).bind fun a =>
    if Careful a.1 P (.pgwrite 7 r 0) then
      (run (Call.code 10 P (.pgwrite 7 r 0)) a.1).toOption.bind fun b =>
        (runCalls (fun m p c => carefulOther P r 0 m p c) 10 after b.1).bind fun c =>
          (run (Call.code 10 P (.pgread r 0)) c.1).toOption.map fun d => (d.1, b.2, d.2)
    else none

theorem writeThenRead_run {P : Pid} {r : BitVec 32} {before after : List (Pid × Call)} {m₀ m₄ : Machine}
    {ret ret' : Ret} (h : writeThenRead P r before after m₀ = some (m₄, ret, ret')) :
    ∃ m₁ m₂ m₃, Run Careful m₀ m₁ ∧ Careful m₁ P (.pgwrite 7 r 0) ∧ Completes m₁ P (.pgwrite 7 r 0) ret m₂ ∧
      Since P r 0 m₂ m₃ ∧ Completes m₃ P (.pgread r 0) ret' m₄ := by
  obtain ⟨⟨m₁, rets⟩, hbefore, h⟩ := Option.bind_eq_some_iff.1 h
  split at h
  · rename_i hcare
    obtain ⟨⟨m₂, ret₂⟩, hwrite, h⟩ := Option.bind_eq_some_iff.1 h
    obtain ⟨⟨m₃, rets₃⟩, hafter, h⟩ := Option.bind_eq_some_iff.1 h
    obtain ⟨⟨m₅, ret₅⟩, hread, heq⟩ := Option.map_eq_some_iff.1 h
    cases heq
    exact ⟨m₁, m₂, m₃, run_of_runCalls (fun _ _ _ h => of_decide_eq_true h) _ hbefore, hcare,
      ⟨10, run_of_toOption hwrite⟩,
      since_of_run (run_of_runCalls (fun _ _ _ h => of_decide_eq_true h) _ hafter), 10, run_of_toOption hread⟩
  · cases h

/-- With two frames of RAM, the page written to goes out into swap frame 1, and is the next one in. -/
def outToSecond : Option (Machine × Ret × Ret) :=
  writeThenRead 0 1 [(0, .pgalloc 256 0), (0, .pgalloc 256 1)] [(0, .pgalloc 256 2), (0, .pgalloc 256 3)]
    (boot 512 16384 4096)

/-- **`__read` delivers 0** for the 7 written: the page is taken from swap frame 32. -/
theorem read_your_writes_fails : ∃ m₁ m₂ m₃ m₄, Run Careful (boot 512 16384 4096) m₁ ∧
    Completes m₁ 0 (.pgwrite 7 1 0) (0, none) m₂ ∧ Since 0 1 0 m₂ m₃ ∧ Completes m₃ 0 (.pgread 1 0) (0, some 0) m₄ ∧
    Event.outOfSwap ∉ m₄.trace := by
  have hsome : outToSecond.any (fun q => q.2 = ((0, none), 0, some 0) ∧ Event.outOfSwap ∉ q.1.trace) = true := by
    decide +kernel
  obtain ⟨⟨m₄, ret, ret'⟩, hm, hq⟩ := (Option.any_eq_true _ _).1 hsome
  simp only [decide_eq_true_iff] at hq
  obtain ⟨hrets, hout⟩ := hq
  cases hrets
  obtain ⟨m₁, m₂, m₃, hbefore, -, hwrite, hsince, hread⟩ := writeThenRead_run hm
  exact ⟨m₁, m₂, m₃, m₄, hbefore, hwrite, hsince, hread, hout⟩

/-- With two frames of RAM, the page written to goes out into swap frame 0 for another process's, and is the next
one in. -/
def outToFirst : Option (Machine × Ret × Ret) :=
  writeThenRead 0 0 [(0, .pgalloc 256 0), (0, .pgalloc 256 1)] [(0, .pgwrite 5 1 0), (1, .pgalloc 256 0)]
    (boot 512 16384 4096)

/-- **`__read` delivers the 7 written**, from swap frame 0. -/
theorem read_your_writes_outToFirst : ∃ m₄ x, outToFirst = some (m₄, (0, none), 0, x) ∧
    Event.replaced ⟨0, 0⟩ (pteSetSwap 0x80000000#32 0 0) ∈ m₄.trace ∧ x = some 7 := by
  have hsome : outToFirst.any (fun q => q.2.1 = (0, none) ∧ q.2.2.1 = 0 ∧ (∀ e ∈ q.1.trace, SwapFine e) ∧
      Event.replaced ⟨0, 0⟩ (pteSetSwap 0x80000000#32 0 0) ∈ q.1.trace) = true := by
    decide +kernel
  obtain ⟨⟨m₄, ret, status, x⟩, hm, hq⟩ := (Option.any_eq_true _ _).1 hsome
  simp only [decide_eq_true_iff] at hq
  obtain ⟨hret, hstatus, hfine, hevent⟩ := hq
  subst hret hstatus
  refine ⟨m₄, x, hm, hevent, ?_⟩
  obtain ⟨m₁, m₂, m₃, hbefore, hcare, hwrite, hsince, hread⟩ := writeThenRead_run hm
  exact @read_your_writes 2 64 (by decide) (by decide) (fun _ => 4096) (fun _ => by decide) _ m₁ m₂ m₃ m₄
    (booted_boot 512 16384 4096) (fun _ => rfl) (initMemphy_free 2 (by decide)) (initMemphy_free 64 (by decide))
    hbefore 0 0 0 7 hcare _ hwrite rfl
    hsince _ hread rfl hfine

end OsSim
