import OsSim.Layout
/-!
# Disjoint — no two regions share a byte

Within an area this follows from the bounds.  Between the areas it rests on their ends: the overlap test is made when an
area grows, in `int`, against the break moved by the size and not against the page-aligned end the area is then given,
so an end can pass the other one unnoticed, and later requests up to that end make no test at all.
-/
namespace OsSim

/-! ## Regions that share no byte -/

theorem Bounds.region {v : Int} {mm : Mm} (h : Bounds v mm) {rg : VmRg} (hrg : rg ∈ regions mm) :
    rg.Of 0 0 (mm.vma0.sbrk - 1) ∨ rg.Of 1 mm.vma1.sbrk (v - 1) := by
  simp only [regions, List.mem_append, List.mem_map, List.mem_range] at hrg
  rcases hrg with (⟨i, hi, rfl⟩ | hrg) | hrg
  · exact h.table i hi
  · exact Or.inl (h.free0 rg hrg)
  · exact Or.inr (h.free1 rg hrg)

/-- **The region made at the break** is new, if the break does not pass the other area's. -/
theorem Bounds.brk_new {v size vmaid : Int} {mm : Mm} (h : Bounds v mm) (hv : vmaid = 0 ∨ vmaid = 1) (h2 : 2 ≤ size)
    (hroom : Room mm vmaid size)
    (hcross : if vmaid = 0 then mm.vma0.sbrk + size ≤ mm.vma1.sbrk ∨ mm.vma1.sbrk = v - 1
      else mm.vma0.sbrk = 0 ∨ mm.vma0.sbrk ≤ mm.vma1.sbrk - size) {b : Int} (hb : (brkRg mm vmaid size).Holds b) :
    held (regions mm) b = 0 := by
  have hbrk := (h.brkRg_of hv h2 hroom).2
  refine Cover.count_eq_zero _ (fun rg hrg => ?_)
  rcases hv with rfl | rfl
  · simp only [if_true] at hbrk hcross
    have hlo := (hbrk.bytes hb.1).1
    have hhi := (hbrk.bytes hb.1).2
    have hb' := hb.2
    have hnew : newBrk mm 0 size = mm.vma0.sbrk + size := by simp [newBrk]
    rcases h.region hrg with hof | hof
    · exact hof.not_holds (Or.inr (by omega))
    · rcases hcross with hcross | hcross
      · exact hof.not_holds (Or.inl (by omega))
      · exact hof.not_holds_of_le (by omega) b
  · simp only [if_neg (show (1 : Int) ≠ 0 by decide)] at hbrk hcross
    obtain ⟨hof1, -, hge, htop⟩ := hbrk
    have hlo := (hof1.bytes hb.1).1
    have hb' := hb.2
    rcases h.region hrg with hof | hof
    · rcases hcross with hcross | hcross
      · exact hof.not_holds_of_le (by omega) b
      · exact hof.not_holds (Or.inr (by omega))
    · rcases htop b hb with hlt | htop
      · exact hof.not_holds (Or.inl hlt)
      · exact hof.not_holds_of_le (by omega) b

/-- **The layout of a process's memory**: the bounds, the ends of the areas in order, and no byte in two regions. -/
structure Layout (v : Int) (mm : Mm) : Prop where
  bounds : Bounds v mm
  ends : mm.vma0.vmEnd = 0 ∨ mm.vma1.vmEnd = mm.vma1.vmStart ∨ mm.vma0.vmEnd ≤ heapEnd mm
  apart : Cover.Apart VmRg.Holds (regions mm)

/-- The end `inc_vma_limit` moves the area to does not pass the other area's end, unless the other area is untouched. -/
def StopsShort (mm : Mm) (vmaid size : Int) : Prop :=
  if vmaid = 0 then
    mm.vma1.vmEnd = mm.vma1.vmStart ∨ pagingPageAlignsz (mm.vma0.sbrk + size) ≤ heapEnd mm
  else mm.vma0.vmEnd = 0 ∨ mm.vma0.vmEnd + 256 ≤ pagingPageAlignsz (mm.vma1.sbrk - size)

/-- What a request must be like to leave the regions apart: the search of the free list does not wrap round, and if
nothing there fits and the area grows, it stops short of the other. -/
def KeepsApart (mm : Mm) (vmaid size : Int) : Prop :=
  2 ≤ size ∧ size ≤ 2147483647 ∧ NoWrap vmaid size (mm.vma vmaid).vmFreergList ∧
    ((∀ rg ∈ (mm.vma vmaid).vmFreergList, fits vmaid size rg = false) → outOfVirtual mm vmaid size = false →
      pastVmEnd mm vmaid size = true → overlapRefused mm vmaid size = false → StopsShort mm vmaid size)

namespace Layout

variable {v size : Int} {mm : Mm}

theorem untouched (h : Bounds v mm) (hheap : mm.vma1.vmEnd = mm.vma1.vmStart) : mm.vma1.sbrk = v - 1 := by
  have hsize := h.size
  have hbrk := h.heap
  have hlimit := h.limit.2.2
  have hend : heapEnd mm = v - 1 := by
    rw [heapEnd, hheap, h.start1]
    unfold int32
    omega
  omega

theorem commit (h : Layout v mm) {vmaid : Int} (hv : vmaid = 0 ∨ vmaid = 1) (h2 : 2 ≤ size)
    (hroom : Bounds.Room mm vmaid size) {i : Nat} (hi : i < 30) : Layout v (commitRegion mm vmaid i size) := by
  have hstack := h.bounds.stack
  have hlimit := h.bounds.limit
  have hcross : if vmaid = 0 then mm.vma0.sbrk + size ≤ mm.vma1.sbrk ∨ mm.vma1.sbrk = v - 1
      else mm.vma0.sbrk = 0 ∨ mm.vma0.sbrk ≤ mm.vma1.sbrk - size := by
    rcases hv with rfl | rfl
    · simp only [Bounds.Room, if_true] at hroom ⊢
      rcases h.ends with h0 | h1 | hle
      · omega
      · exact Or.inr (untouched h.bounds h1)
      · exact Or.inl (by omega)
    · simp only [Bounds.Room, if_neg (show (1 : Int) ≠ 0 by decide)] at hroom ⊢
      rcases h.ends with h0 | h1 | hle
      · exact Or.inl (by omega)
      · have := untouched h.bounds h1
        have hend : heapEnd mm = v - 1 := by
          have hsize := h.bounds.size
          rw [heapEnd, h1, h.bounds.start1]
          unfold int32
          omega
        omega
      · exact Or.inr (by omega)
  refine ⟨h.bounds.commit hv h2 hroom i, ?_, fun b => ?_⟩
  · rw [h.bounds.commitRegion_eq h2 hroom]
    rcases hv with rfl | rfl <;> exact h.ends
  · have hcount := held_setSymrg mm hi (Bounds.brkRg mm vmaid size) b
    have hsame : regions (commitRegion mm vmaid i size) = regions (mm.setSymrg i (Bounds.brkRg mm vmaid size)) := by
      rw [h.bounds.commitRegion_eq h2 hroom]
      rcases hv with rfl | rfl <;> rfl
    rw [hsame]
    change held (regions (mm.setSymrg i (Bounds.brkRg mm vmaid size))) b ≤ 1
    by_cases hb : (Bounds.brkRg mm vmaid size).Holds b
    · have hnew := h.bounds.brk_new hv h2 hroom hcross hb
      have := Cover.one_le VmRg.Holds (Bounds.brkRg mm vmaid size) b
      omega
    · rw [Cover.one_of_not _ hb] at hcount
      have := h.apart b
      unfold held at *
      omega

theorem grow (h : Layout v mm) {vmaid : Int} (hv : vmaid = 0 ∨ vmaid = 1) (h2 : 2 ≤ size) (hmax : size ≤ 2147483647)
    (hvirt : outOfVirtual mm vmaid size = false) (hshort : StopsShort mm vmaid size) :
    Layout v (grownMm mm vmaid size) := by
  obtain ⟨hbounds, -, hend⟩ := h.bounds.grow hv h2 hmax hvirt
  have hstack := h.bounds.stack
  have hheap := h.bounds.heap
  have hsize := h.bounds.size
  rcases hv with rfl | rfl
  · have hroom := h.bounds.stackRoom h2 hmax hvirt
    rw [if_pos rfl] at hend
    simp only [StopsShort, if_true, pagingPageAlignsz_eq (show 0 ≤ mm.vma0.sbrk + size by omega) (by omega)] at hshort
    refine ⟨hbounds, Or.inr (hshort.imp_right (fun hle => ?_)), h.apart⟩
    rw [hend]
    exact hle
  · have hroom := h.bounds.heapRoom (by decide) h2 hmax hvirt
    rw [if_neg (by decide)] at hend
    simp only [StopsShort, if_neg (show (1 : Int) ≠ 0 by decide),
      pagingPageAlignsz_eq (show 0 ≤ mm.vma1.sbrk - size by omega) (by omega)] at hshort
    have hsame : (grownMm mm 1 size).vma0.vmEnd = mm.vma0.vmEnd := rfl
    refine ⟨hbounds, hshort.imp id (fun hle => Or.inr ?_), h.apart⟩
    rw [hsame]
    omega

theorem alloc (h : Layout v mm) {fuel : Nat} {vmaid rgid : Int} {mm' : Mm} (hv : vmaid = 0 ∨ vmaid = 1)
    (hkeep : KeepsApart mm vmaid size) (halloc : MmAlloc fuel vmaid rgid size mm mm') : Layout v mm' := by
  obtain ⟨h2, hmax, hwrap, hshort⟩ := hkeep
  have hnone : ∀ {l : List VmRg}, getFreeVmrgArea fuel vmaid size (mm.vma vmaid).vmFreergList = some (l, none) →
      mm.setFreerg vmaid l = mm ∧ ∀ rg ∈ (mm.vma vmaid).vmFreergList, fits vmaid size rg = false :=
    fun hget => h.bounds.uncut hv h2 hmax hwrap hget
  cases halloc with
  | @reused l rg hid hget =>
    rcases @Bounds.cut v size mm h.bounds vmaid rgid fuel l _ hv h2 hmax hwrap hget with ⟨hrg, -⟩ |
      ⟨rg', hrg, hne, hbounds, hcount, -⟩
    · cases hrg
    · cases hrg
      refine ⟨hbounds hid.2, ?_, fun b => ?_⟩
      · rcases hv with rfl | rfl <;> exact h.ends
      · have htable := held_setSymrg (mm.setFreerg vmaid l) (show rgid.toNat < 30 by omega) rg b
        have := hcount b
        have := h.apart b
        unfold held at *
        omega
  | refused hget => rw [(hnone hget).1]; exact h
  | fitted hid hget hvirt hpast =>
    rw [(hnone hget).1]
    exact h.commit hv h2 (h.bounds.fit hv h2 hmax hvirt hpast) (by omega)
  | grown hid hget hvirt hpast hover =>
    rw [(hnone hget).1]
    exact (h.grow hv h2 hmax hvirt (hshort (hnone hget).2 hvirt hpast hover)).commit hv h2
      (h.bounds.grow hv h2 hmax hvirt).2.1 (by omega)

theorem free (h : Layout v mm) {i : Nat} (hi : i < 30) (hne : (mm.symrgtbl i).rgStart ≠ (mm.symrgtbl i).rgEnd) :
    Layout v (freedMm mm i) := by
  obtain ⟨hbounds, hcount⟩ := h.bounds.freed hi hne
  refine ⟨hbounds, ?_, fun b => (hcount b).trans_le (h.apart b)⟩
  unfold freedMm Mm.enlisted
  dsimp only
  split
  · exact h.ends
  · unfold Mm.setFreerg Mm.setVma Mm.vma
    split <;> exact h.ends

end Layout

theorem layout_initMm {v : Int} (hv : 0 < v ∧ v ≤ 4194304 ∧ v % 256 = 0) : Layout v (initMm zeroMm v) := by
  refine ⟨bounds_initMm hv, Or.inl rfl, fun b => ?_⟩
  rw [Cover.count_eq_zero _ (fun rg hrg => ?_)]
  · exact Nat.zero_le 1
  · have hempty : rg.rgStart = rg.rgEnd := by
      simp only [regions, initMm_vma1 ⟨hv.1, hv.2.1⟩, List.mem_append, List.mem_map, List.mem_singleton] at hrg
      rcases hrg with (⟨i, -, rfl⟩ | hrg) | rfl
      · rfl
      · rw [List.mem_singleton.1 hrg]
        rfl
      · rfl
    exact fun hh => hh.1 hempty

instance (mm : Mm) (vmaid size : Int) : Decidable (KeepsApart mm vmaid size) := by
  unfold KeepsApart StopsShort
  infer_instance

/-- **No two regions share a byte** in any run whose allocations keep the regions apart. -/
theorem regions_disjoint {v : Pid → Int} {m₀ m : Machine} (hv : ∀ p, 0 < v p ∧ v p ≤ 4194304 ∧ v p % 256 = 0)
    (hinit : ∀ p, m₀.mm p = initMm zeroMm (v p)) (hrun : Run (Asks KeepsApart) m₀ m) (p : Pid) :
    (regions (m.mm p)).Pairwise (fun a b => ∀ x, ¬ (a.Holds x ∧ b.Holds x)) := by
  have hlayout : ∀ p, Layout (v p) (m.mm p) := run_mm KeepsApart (fun p => Layout (v p))
    (fun hvma hkeep halloc hlay => hlay.alloc hvma hkeep halloc) (fun hi hne hlay => hlay.free hi hne) hrun
    (fun p => hinit p ▸ layout_initMm (hv p))
  exact (hlayout p).apart.pairwise

/-- 512 bytes of virtual memory: a page of stack, 255 bytes of heap, then 100 bytes of heap. -/
def touchingAreas : List (Pid × Call) := [(0, .pgalloc 256 0), (0, .pgmalloc 255 1), (0, .pgmalloc 100 2)]

/-- **The heap's end goes to 0** although the stack has the page from 0 to 255, and the third region lies in that
page. -/
theorem regions_disjoint_fails : ∃ m rets,
    runCalls (fun _ _ _ => true) 10 touchingAreas (boot 4096 4096 512) = some (m, rets) ∧
    Run anyCall (boot 4096 4096 512) m ∧ (∀ ret ∈ rets, ret.1 = 0) ∧
    (m.mm 0).symrgtbl 0 = ⟨0, 0, 255⟩ ∧ (m.mm 0).symrgtbl 2 = ⟨1, 256, 157⟩ ∧
    ¬ (regions (m.mm 0)).Pairwise (fun a b => ∀ x, ¬ (a.Holds x ∧ b.Holds x)) := by
  have hsome : (runCalls (fun _ _ _ => true) 10 touchingAreas (boot 4096 4096 512)).any
      (fun q => (∀ ret ∈ q.2, ret.1 = 0) ∧ (q.1.mm 0).symrgtbl 0 = ⟨0, 0, 255⟩ ∧
        (q.1.mm 0).symrgtbl 2 = ⟨1, 256, 157⟩ ∧ held (regions (q.1.mm 0)) 200 = 2) = true := by
    decide +kernel
  obtain ⟨⟨m, rets⟩, hm, hq⟩ := (Option.any_eq_true _ _).1 hsome
  simp only [decide_eq_true_iff] at hq
  refine ⟨m, rets, hm, run_of_runCalls (fun _ _ _ _ => trivial) _ hm, hq.1, hq.2.1, hq.2.2.1, fun hpair => ?_⟩
  have := Cover.apart_of_pairwise VmRg.Holds hpair 200
  rw [show Cover.count VmRg.Holds (regions (m.mm 0)) 200 = 2 from hq.2.2.2] at this
  exact absurd this (by decide)

/-- Stack and heap in use, a region freed and its bytes allocated again. -/
theorem regions_disjoint_reused : ∃ m, Run (Asks KeepsApart) (boot 4096 4096 1024) m ∧
    (m.mm 0).symrgtbl 2 = ⟨0, 0, 99⟩ ∧ (regions (m.mm 0)).Pairwise (fun a b => ∀ x, ¬ (a.Holds x ∧ b.Holds x)) := by
  have hsome : (runCalls (fun m p c => Asks KeepsApart m p c) 10 [(0, .pgalloc 150 0), (0, .pgmalloc 200 1),
      (0, .pgfreeData 0), (0, .pgalloc 100 2), (0, .pgmalloc 300 3)] (boot 4096 4096 1024)).any
      (fun q => (q.1.mm 0).symrgtbl 2 = ⟨0, 0, 99⟩) = true := by
    decide +kernel
  obtain ⟨⟨m, rets⟩, hm, hq⟩ := (Option.any_eq_true _ _).1 hsome
  simp only [decide_eq_true_iff] at hq
  have hrun : Run (Asks KeepsApart) (boot 4096 4096 1024) m :=
    run_of_runCalls (fun _ _ _ h => of_decide_eq_true h) _ hm
  exact ⟨m, hrun, hq, @regions_disjoint (fun _ => 1024) _ _ (fun _ => by decide) (fun _ => rfl) hrun 0⟩

end OsSim
