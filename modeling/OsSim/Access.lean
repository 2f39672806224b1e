import OsSim.Layout
/-!
# Access — which accesses `__read`, `__write` and `__free` let through

`__read` and `__write` compare the address with `rg_end` only, in `unsigned long`: an offset that is negative, or
larger than a heap region's `rg_start`, can lead out of the region on its other side.  The region's id is checked
after its first use, and against a bound one too high.
-/
namespace OsSim

open Atomic Code

/-! ## What the regions and the free lists of a process keep -/

structure Mm.Has (R : VmRg → Prop) (F : Int → List VmRg → Prop) (mm : Mm) : Prop where
  symrgtbl : ∀ i, R (mm.symrgtbl i)
  free0 : F 0 mm.vma0.vmFreergList
  free1 : F 1 mm.vma1.vmFreergList

/-- **What the calls do to regions**: they search a free list, write an entry at the break, empty an entry, and put the
region it had on a free list. -/
structure Kept (R : VmRg → Prop) (F : Int → List VmRg → Prop) : Prop where
  search : ∀ {fuel vmaid size l l' o}, vmaid = 0 ∨ vmaid = 1 → getFreeVmrgArea fuel vmaid size l = some (l', o) →
    F vmaid l → F vmaid l' ∧ ∀ rg ∈ o, R rg
  atBrk : ∀ {vmaid}, vmaid = 0 ∨ vmaid = 1 → ∀ a b, R ⟨vmaid, ulong a, ulong b⟩
  emptied : ∀ {rg}, R rg → R { rg with rgStart := 0, rgEnd := 0 }
  enlisted : ∀ {rg l}, R rg →
    ¬((rg.rgStart ≥ rg.rgEnd ∧ rg.vmaid = 0) ∨ (rg.rgStart ≤ rg.rgEnd ∧ rg.vmaid = 1)) →
      F (vmaOf rg.vmaid) l → F (vmaOf rg.vmaid) (rg :: l)

section Keeping

variable {R : VmRg → Prop} {F : Int → List VmRg → Prop} {mm : Mm}

namespace Mm.Has

theorem setSymrg (h : mm.Has R F) {rg : VmRg} (hrg : R rg) (i : Nat) : (mm.setSymrg i rg).Has R F := by
  refine ⟨fun j => ?_, h.free0, h.free1⟩
  by_cases hji : j = i
  · subst hji
    simpa [Mm.setSymrg] using hrg
  · simpa [Mm.setSymrg, hji] using h.symrgtbl j

theorem setVma (h : mm.Has R F) {vmaid : Int} (hv : vmaid = 0 ∨ vmaid = 1) {vma : VmArea}
    (hfree : F vmaid vma.vmFreergList) : (mm.setVma vmaid vma).Has R F := by
  rcases hv with rfl | rfl
  · exact ⟨h.symrgtbl, hfree, h.free1⟩
  · exact ⟨h.symrgtbl, h.free0, hfree⟩

theorem free (h : mm.Has R F) {vmaid : Int} (hv : vmaid = 0 ∨ vmaid = 1) : F vmaid (mm.vma vmaid).vmFreergList := by
  rcases hv with rfl | rfl
  · exact h.free0
  · exact h.free1

theorem setVmEnd (h : mm.Has R F) {vmaid : Int} (hv : vmaid = 0 ∨ vmaid = 1) (e : Int) : (mm.setVmEnd vmaid e).Has R F :=
  h.setVma hv (h.free hv)

end Mm.Has

namespace Kept

variable (hk : Kept R F)
include hk

theorem commitRegion (h : mm.Has R F) {vmaid : Int} (hv : vmaid = 0 ∨ vmaid = 1) (rgid : Nat) (size : Int) :
    (OsSim.commitRegion mm vmaid rgid size).Has R F := by
  have hset : ∀ a b, (mm.setSymrg rgid ⟨vmaid, ulong a, ulong b⟩).Has R F := fun a b => h.setSymrg (hk.atBrk hv a b) rgid
  unfold OsSim.commitRegion
  split
  · rename_i hv0
    subst hv0
    exact (hset _ _).setVma hv ((hset _ _).free hv)
  · dsimp only
    split
    · exact (hset _ _).setVma hv ((hset _ _).free hv)
    · exact (hset _ _).setVma hv ((hset _ _).free hv)

theorem alloc (h : mm.Has R F) {fuel : Nat} {vmaid rgid size : Int} {mm' : Mm} (hv : vmaid = 0 ∨ vmaid = 1)
    (hstep : MmAlloc fuel vmaid rgid size mm mm') : mm'.Has R F := by
  have hlist : ∀ {l o}, getFreeVmrgArea fuel vmaid size (mm.vma vmaid).vmFreergList = some (l, o) →
      (mm.setFreerg vmaid l).Has R F ∧ ∀ rg ∈ o, R rg := by
    intro l o hget
    obtain ⟨hl, ho⟩ := hk.search hv hget (h.free hv)
    exact ⟨h.setVma hv hl, ho⟩
  cases hstep with
  | reused hid hget => exact (hlist hget).1.setSymrg ((hlist hget).2 _ rfl) _
  | refused hget => exact (hlist hget).1
  | fitted hid hget hvirt hpast => exact hk.commitRegion (hlist hget).1 hv _ _
  | grown hid hget hvirt hpast hover => exact hk.commitRegion ((hlist hget).1.setVmEnd hv _) hv _ _

theorem freed (h : mm.Has R F) (i : Nat) : (freedMm mm i).Has R F := by
  have hrg := h.symrgtbl i
  have hset : (mm.setSymrg i { mm.symrgtbl i with rgStart := 0, rgEnd := 0 }).Has R F := h.setSymrg (hk.emptied hrg) i
  unfold freedMm Mm.enlisted
  dsimp only
  split
  · exact hset
  · rename_i hguard
    exact hset.setVma (vmaOf_cases _) (hk.enlisted hrg hguard (hset.free (vmaOf_cases _)))

theorem run {m₀ m : Machine} (h : Run anyCall m₀ m) (h0 : ∀ p, (m₀.mm p).Has R F) (p : Pid) : (m.mm p).Has R F :=
  run_mm_any (fun _ mm => mm.Has R F) (fun hv _ hstep h => hk.alloc h hv hstep) (fun _ _ h => hk.freed h _) h h0 p

end Kept

end Keeping

/-! ## Regions are words -/

theorem zero_words (vmaid : Int) : (VmRg.mk vmaid 0 0).Words :=
  ⟨⟨le_rfl, (by decide : (0 : Int) < 2 ^ 64)⟩, le_rfl, (by decide : (0 : Int) < 2 ^ 64)⟩

/-- The bounds of a process's regions are `unsigned long`s, in the table and in both free lists. -/
structure Mm.Words (mm : Mm) : Prop where
  symrgtbl : ∀ i, (mm.symrgtbl i).Words
  free0 : ∀ rg ∈ mm.vma0.vmFreergList, rg.Words
  free1 : ∀ rg ∈ mm.vma1.vmFreergList, rg.Words

theorem words_iff {mm : Mm} : mm.Words ↔ mm.Has VmRg.Words (fun _ l => ∀ rg ∈ l, rg.Words) :=
  ⟨fun h => ⟨h.symrgtbl, h.free0, h.free1⟩, fun h => ⟨h.symrgtbl, h.free0, h.free1⟩⟩

theorem words_kept : Kept VmRg.Words (fun _ l => ∀ rg ∈ l, rg.Words) where
  search := fun _ hget hl => getFreeVmrgArea_words hget hl
  atBrk := fun _ _ _ => ⟨ulong_word _, ulong_word _⟩
  emptied := fun _ => zero_words _
  enlisted := fun hrg _ hl => List.forall_mem_cons.2 ⟨hrg, hl⟩

theorem run_words {m₀ m : Machine} (h : Run anyCall m₀ m) (h0 : ∀ p, (m₀.mm p).Words) (p : Pid) : (m.mm p).Words :=
  words_iff.2 (words_kept.run h (fun p => words_iff.1 (h0 p)) p)

/-! ## The checks -/

/-- The region and the offset get past the checks of `__read` and `__write` without leaving the region: the id is
one of the table's, and the access is refused, or the offset leads the way the region lies, and not round the end of
the words. -/
def KeepsInside (mm : Mm) (rgid offset : Int) : Prop :=
  (0 ≤ rgid ∧ rgid < 30) ∧
    (getVmaByNum mm (mm.symrgtbl rgid.toNat).vmaid = none ∨
      (mm.symrgtbl rgid.toNat).rgStart = (mm.symrgtbl rgid.toNat).rgEnd ∨
      outOfRg (mm.symrgtbl rgid.toNat) offset = true ∨
      if (mm.symrgtbl rgid.toNat).vmaid = 0 then
        0 ≤ offset ∧ (mm.symrgtbl rgid.toNat).rgStart + offset < 2 ^ 64 ∨ (mm.symrgtbl rgid.toNat).rgStart + offset < 0
      else 0 ≤ offset ∧ offset ≤ (mm.symrgtbl rgid.toNat).rgStart ∨ 2 ^ 64 ≤ (mm.symrgtbl rgid.toNat).rgStart - offset)

instance (mm : Mm) (rgid offset : Int) : Decidable (KeepsInside mm rgid offset) := inferInstanceAs (Decidable (_ ∧ _))

/-- **An access keeps inside its region**: the code refuses it and changes nothing, or the id is one of the table's, the
address is in the region, and the code goes on to access it. -/
def Within {α : Type} (p : Pid) (rgid offset : Int) (m : Machine) (refusal : α) (access : VmRg → Code α)
    (code : Code α) : Prop :=
  run code m = .ok (m, refusal) ∨
    (0 ≤ rgid ∧ rgid < 30) ∧ ((m.mm p).symrgtbl rgid.toNat).Holds (rgAddr ((m.mm p).symrgtbl rgid.toNat) offset) ∧
      run code m = run (access ((m.mm p).symrgtbl rgid.toNat)) m

def readAccess (p : Pid) (offset : Int) (currg : VmRg) : Code Ret := do
  let data ← pgGetval p (int32 (rgAddr currg offset)) currg.vmaid
  updateLruLst (.entry ⟨p, pagingPgn (rgAddr currg offset)⟩)
  pure (0, data)

def writeAccess (p : Pid) (offset : Int) (value : Byte) (currg : VmRg) : Code Int := do
  let _ ← pgSetval p (int32 (rgAddr currg offset)) value (if currg.vmaid = 0 then 0 else 1)
  updateLruLst (.entry ⟨p, pagingPgn (rgAddr currg offset)⟩)
  pure 0

/-- **The checks of an id outside the table** use a null pointer, or what lies past the table. -/
theorem run_accessRg_fault {p : Pid} {rgid : Int} (offset : Int) (m : Machine) (hid : ¬(0 ≤ rgid ∧ rgid < 30)) :
    ∃ e, run (accessRg p rgid offset) m = .error e := by
  rw [accessRg, run_getMm, getSymrgByid]
  split
  · exact ⟨_, rfl⟩
  · rename_i hin
    have heq : rgid = pagingMaxSymtblSz := by
      simp only [pagingMaxSymtblSz] at hin ⊢
      omega
    rw [if_pos heq]
    exact ⟨_, rfl⟩

theorem run_accessRg_eq {p : Pid} {rgid : Int} (offset : Int) (m : Machine) (hid : 0 ≤ rgid ∧ rgid < 30) :
    run (accessRg p rgid offset) m = .ok (m,
      if getVmaByNum (m.mm p) ((m.mm p).symrgtbl rgid.toNat).vmaid = none ∨
          ((m.mm p).symrgtbl rgid.toNat).rgStart = ((m.mm p).symrgtbl rgid.toNat).rgEnd ∨
          outOfRg ((m.mm p).symrgtbl rgid.toNat) offset = true then none
      else some ((m.mm p).symrgtbl rgid.toNat)) := by
  have hin : ¬(rgid < 0 ∨ rgid > pagingMaxSymtblSz) := by
    simp only [pagingMaxSymtblSz]
    omega
  have hne : rgid ≠ pagingMaxSymtblSz := by
    simp only [pagingMaxSymtblSz]
    omega
  rw [accessRg, run_getMm, getSymrgByid, if_neg hin, if_neg hne, run_pure_bind]
  dsimp only
  split
  · rename_i hvma
    simp [hvma]
  · rename_i hvma
    split
    · rename_i hempty
      simp [hempty]
    · rename_i hempty
      split
      · rename_i hout
        simp [hout]
      · rename_i hout
        simp [hvma, hempty, hout]

theorem run_free_empty {m : Machine} {p : Pid} {rgid : Int} (hid : 0 ≤ rgid ∧ rgid < 30)
    (h : ((m.mm p).symrgtbl rgid.toNat).rgStart = ((m.mm p).symrgtbl rgid.toNat).rgEnd) :
    run (free p rgid) m = .ok (m, -1) := by
  have hrange : ¬(rgid < 0 ∨ rgid > pagingMaxSymtblSz) := by
    simp only [pagingMaxSymtblSz]
    omega
  have hlast : ¬rgid = pagingMaxSymtblSz := by
    simp only [pagingMaxSymtblSz]
    omega
  rw [free, run_getMm, if_neg hrange, getSymrgByid, if_neg hrange, if_neg hlast, run_pure_bind]
  dsimp only
  rw [if_pos h]
  rfl

/-- **Which offsets stay inside** a region of words that the comparison with `rg_end` lets through. -/
theorem holds_rgAddr {rg : VmRg} (hw : rg.Words) (hne : rg.rgStart ≠ rg.rgEnd) {offset : Int}
    (hoff : -2147483648 ≤ offset ∧ offset < 2147483648) (hout : ¬ outOfRg rg offset = true) :
    rg.Holds (rgAddr rg offset) ↔
      if rg.vmaid = 0 then 0 ≤ offset ∧ rg.rgStart + offset < 2 ^ 64 ∨ rg.rgStart + offset < 0
      else 0 ≤ offset ∧ offset ≤ rg.rgStart ∨ 2 ^ 64 ≤ rg.rgStart - offset := by
  obtain ⟨hstart, hend⟩ := hw
  by_cases hv : rg.vmaid = 0
  · simp only [outOfRg, rgAddr, hv, if_true, decide_eq_true_eq] at hout
    simp only [VmRg.Holds, VmRg.lo, VmRg.hi, rgAddr, hv, if_true]
    unfold ulong at hout ⊢
    omega
  · simp only [outOfRg, rgAddr, if_neg hv, decide_eq_true_eq] at hout
    simp only [VmRg.Holds, VmRg.lo, VmRg.hi, rgAddr, if_neg hv]
    unfold ulong at hout ⊢
    omega

theorem within_iff {α : Type} {p : Pid} {rgid offset : Int} {m : Machine} {refusal : α} {access : VmRg → Code α}
    (hrefusal : ∀ rg m', run (access rg) m ≠ .ok (m', refusal)) (hw : (m.mm p).Words)
    (hoff : -2147483648 ≤ offset ∧ offset < 2147483648) :
    Within p rgid offset m refusal access
        (accessRg p rgid offset >>= fun o => match o with | none => pure refusal | some currg => access currg) ↔
      KeepsInside (m.mm p) rgid offset := by
  by_cases hid : 0 ≤ rgid ∧ rgid < 30
  · have hchecks := @run_accessRg_eq p rgid offset m hid
    by_cases hno : getVmaByNum (m.mm p) ((m.mm p).symrgtbl rgid.toNat).vmaid = none ∨
        ((m.mm p).symrgtbl rgid.toNat).rgStart = ((m.mm p).symrgtbl rgid.toNat).rgEnd ∨
        outOfRg ((m.mm p).symrgtbl rgid.toNat) offset = true
    · -- refused
      rw [if_pos hno] at hchecks
      refine iff_of_true (Or.inl ?_) ⟨hid, ?_⟩
      · exact run_bind_ok.2 ⟨m, none, hchecks, rfl⟩
      · rcases hno with hvma | hempty | hout
        · exact Or.inl hvma
        · exact Or.inr (Or.inl hempty)
        · exact Or.inr (Or.inr (Or.inl hout))
    · rw [if_neg hno] at hchecks
      have hpassed : run (accessRg p rgid offset >>= fun o =>
          match o with | none => pure refusal | some currg => access currg) m =
          run (access ((m.mm p).symrgtbl rgid.toNat)) m := by
        rw [run, exec_bind]
        simp only [run] at hchecks
        rw [hchecks]
      simp only [not_or] at hno
      obtain ⟨hvma, hempty, hout⟩ := hno
      have hholds := holds_rgAddr ((hw.symrgtbl rgid.toNat)) hempty hoff hout
      constructor
      · rintro (hrefused | ⟨-, hin, -⟩)
        · rw [hpassed] at hrefused
          exact absurd hrefused (hrefusal _ _)
        · exact ⟨hid, Or.inr (Or.inr (Or.inr (hholds.1 hin)))⟩
      · rintro ⟨-, hor⟩
        have hoffset := ((hor.resolve_left hvma).resolve_left hempty).resolve_left hout
        exact Or.inr ⟨hid, hholds.2 hoffset, hpassed⟩
  · obtain ⟨e, he⟩ := @run_accessRg_fault p rgid offset m hid
    have hfault : run (accessRg p rgid offset >>= fun o =>
        match o with | none => pure refusal | some currg => access currg) m =
        .error e :=
      run_bind_error.2 (Or.inl he)
    refine iff_of_false ?_ (fun h => hid h.1)
    rintro (hrefused | ⟨hin, -⟩)
    · rw [hfault] at hrefused
      cases hrefused
    · exact hid hin

theorem readAccess_ne {p : Pid} {offset : Int} (rg : VmRg) (m m' : Machine) :
    run (readAccess p offset rg) m ≠ .ok (m', (-1, none)) := by
  intro h
  obtain ⟨m₁, data, -, h⟩ := run_bind_ok.1 h
  obtain ⟨m₂, u, -, h⟩ := run_bind_ok.1 h
  cases h

theorem writeAccess_ne {p : Pid} {offset : Int} {value : Byte} (rg : VmRg) (m m' : Machine) :
    run (writeAccess p offset value rg) m ≠ .ok (m', -1) := by
  intro h
  obtain ⟨m₁, ret, -, h⟩ := run_bind_ok.1 h
  obtain ⟨m₂, u, -, h⟩ := run_bind_ok.1 h
  cases h

/-- **`__free`** checks the id before its first use, against a bound one too high. -/
theorem free_rejects_iff (p : Pid) (rgid : Int) (m : Machine) :
    (¬(0 ≤ rgid ∧ rgid < 30) → run (free p rgid) m = .ok (m, -1)) ↔ rgid ≠ 30 := by
  constructor
  · rintro h rfl
    have hfault : run (free p 30) m = .error .outOfBounds := by
      rw [free, run_getMm]
      rfl
    rw [h (by decide)] at hfault
    cases hfault
  · intro hne hid
    have hout : rgid < 0 ∨ rgid > pagingMaxSymtblSz := by
      simp only [pagingMaxSymtblSz]
      omega
    rw [free, run_getMm, if_pos hout]
    rfl

/-- **What the checks are worth.**  In every state reached, whatever region id and offset an instruction carries:
`FREE` of an id outside the table is rejected if and only if the id is not 30; `READ` and `WRITE` keep inside the
region if and only if the id is one of the table's and the offset leads the way the region lies. -/
theorem accesses_confined {m₀ m : Machine} (hwords : ∀ p, (m₀.mm p).Words) (hrun : Run anyCall m₀ m)
    (p : Pid) (rgid offset : BitVec 32) (value : Byte) :
    ((¬(0 ≤ rgid.toInt ∧ rgid.toInt < 30) → run (free p rgid.toInt) m = .ok (m, -1)) ↔ rgid.toInt ≠ 30) ∧
      (Within p rgid.toInt offset.toInt m (-1, none) (readAccess p offset.toInt) (read p rgid.toInt offset.toInt) ↔
        KeepsInside (m.mm p) rgid.toInt offset.toInt) ∧
      (Within p rgid.toInt offset.toInt m (-1) (writeAccess p offset.toInt value)
          (write p rgid.toInt offset.toInt value) ↔
        KeepsInside (m.mm p) rgid.toInt offset.toInt) := by
  have hw := run_words hrun hwords p
  have hoff : -2147483648 ≤ offset.toInt ∧ offset.toInt < 2147483648 :=
    ⟨offset.le_toInt, offset.toInt_lt⟩
  exact ⟨free_rejects_iff p _ m, within_iff (fun rg m' => readAccess_ne rg m m') hw hoff,
    within_iff (fun rg m' => writeAccess_ne rg m m') hw hoff⟩

theorem words_zeroMm : zeroMm.Words :=
  ⟨fun _ => zero_words 0, fun _ h => (by cases h), fun _ h => (by cases h)⟩

theorem words_initMm {junk : Mm} (h : junk.Words) (vmemsz : Int) : (initMm junk vmemsz).Words :=
  ⟨h.symrgtbl, List.forall_mem_cons.2 ⟨⟨ulong_word _, ulong_word _⟩, h.free0⟩,
    List.forall_mem_cons.2 ⟨⟨ulong_word _, ulong_word _⟩, h.free1⟩⟩

/-- Two stack regions of 100 bytes, a `WRITE` of byte -50 of the second, and a `READ` of byte 50 of the first. -/
def belowRegion : List (Pid × Call) :=
  [(0, .pgalloc 100 0), (0, .pgalloc 100 1), (0, .pgwrite 7 1 (-50)), (0, .pgread 0 50)]

/-- **`WRITE` at offset -50** of region 1 returns 0, and byte 50 of region 0 is what it wrote. -/
theorem accesses_confined_fails : (∃ m, Run anyCall (boot 512 512 4096) m ∧
      ¬ Within 0 1 (-50) m (-1) (writeAccess 0 (-50) 7) (write 0 1 (-50) 7)) ∧
    ∃ m rets, runCalls (fun _ _ _ => true) 10 belowRegion (boot 512 512 4096) = some (m, rets) ∧
      rets = [(0, none), (0, none), (0, none), (0, some 7)] := by
  constructor
  · have hsome : (runCalls (fun _ _ _ => true) 10 (belowRegion.take 2) (boot 512 512 4096)).any
        (fun q => ¬ KeepsInside (q.1.mm 0) 1 (-50)) = true := by
      decide +kernel
    obtain ⟨⟨m, rets⟩, hm, hq⟩ := (Option.any_eq_true _ _).1 hsome
    have hrun : Run anyCall (boot 512 512 4096) m := run_of_runCalls (fun _ _ _ _ => trivial) _ hm
    have hw := run_words hrun (fun _ => words_initMm words_zeroMm _) 0
    refine ⟨m, hrun, fun hwithin => of_decide_eq_true hq ?_⟩
    exact (within_iff (fun rg m' => writeAccess_ne rg m m') hw (by decide)).1 hwithin
  · have hsome : (runCalls (fun _ _ _ => true) 10 belowRegion (boot 512 512 4096)).any
        (fun q => q.2 = [(0, none), (0, none), (0, none), (0, some 7)]) = true := by
      decide +kernel
    obtain ⟨⟨m, rets⟩, hm, hq⟩ := (Option.any_eq_true _ _).1 hsome
    exact ⟨m, rets, hm, of_decide_eq_true hq⟩

/-- The last byte of a stack region, and an id past the table. -/
theorem accesses_confined_lastByte : ∃ m, Run anyCall (boot 512 512 4096) m ∧ (m.mm 0).symrgtbl 1 = ⟨0, 100, 199⟩ ∧
    Within 0 1 99 m (-1, none) (readAccess 0 99) (read 0 1 99) ∧ run (free 0 31) m = .ok (m, -1) := by
  have hsome : (runCalls (fun _ _ _ => true) 10 (belowRegion.take 2) (boot 512 512 4096)).any
      (fun q => (q.1.mm 0).symrgtbl 1 = ⟨0, 100, 199⟩ ∧ KeepsInside (q.1.mm 0) 1 99) = true := by
    decide +kernel
  obtain ⟨⟨m, rets⟩, hm, hq⟩ := (Option.any_eq_true _ _).1 hsome
  simp only [decide_eq_true_iff] at hq
  have hrun : Run anyCall (boot 512 512 4096) m := run_of_runCalls (fun _ _ _ _ => trivial) _ hm
  have hwords : ∀ p, ((boot 512 512 4096).mm p).Words := fun _ => words_initMm words_zeroMm _
  exact ⟨m, hrun, hq.1, (accesses_confined hwords hrun 0 1 99 0).2.1.2 hq.2,
    (accesses_confined hwords hrun 0 31 0 0).1.2 (by decide) (by decide)⟩

end OsSim
