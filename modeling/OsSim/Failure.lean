import OsSim.Runs
/-!
# Failure — what an allocation that fails leaves behind

`__alloc` fails before it has changed anything, or, with swap full, on its way along the pages of a free region it has
cut and entered in the table.  It puts nothing back.  (Where an area that grows finds swap full, the call does not fail:
the code has no meaning from there on.)
-/
namespace OsSim

open Atomic Code

/-! ## Failure -/

structure Unchanged (m m' : Machine) : Prop where
  symrgtbl : ∀ p, ∀ i < pagingMaxSymtblSz, (m'.mm p).symrgtbl i = (m.mm p).symrgtbl i
  vma0 : ∀ p, (m'.mm p).vma0 = (m.mm p).vma0
  vma1 : ∀ p, (m'.mm p).vma1 = (m.mm p).vma1
  pgd : m'.pgd = m.pgd
  mram : ∀ f, f ∈ m'.mram.freeFpList ↔ f ∈ m.mram.freeFpList
  mswp : ∀ f, f ∈ m'.mswp.freeFpList ↔ f ∈ m.mswp.freeFpList
  idle : m'.idle = m.idle
  lru : m'.lru = m.lru
  pages : ∀ r, ∀ j < pagingPagesz, m'.pageByte r j = m.pageByte r j

theorem Unchanged.vma {m m' : Machine} (h : Unchanged m m') (p : Pid) (vmaid : Int) :
    (m'.mm p).vma vmaid = (m.mm p).vma vmaid := by
  unfold Mm.vma
  split
  · exact h.vma0 p
  · exact h.vma1 p

theorem unchanged_noted (m : Machine) (es : List Event) : Unchanged m { m with trace := m.trace ++ es } :=
  ⟨fun _ _ _ => rfl, fun _ => rfl, fun _ => rfl, rfl, fun _ => .rfl, fun _ => .rfl, rfl, rfl, fun _ _ _ => rfl⟩

/-- No free region fits, and the request is refused: out of virtual memory, or an overlap of the areas. -/
def FailsClean (mm : Mm) (vmaid size : Int) : Prop :=
  (∀ rg ∈ (mm.vma vmaid).vmFreergList, fits vmaid size rg = false) ∧
    (outOfVirtual mm vmaid size = true ∨ pastVmEnd mm vmaid size = true ∧ overlapRefused mm vmaid size = true)

instance (mm : Mm) (vmaid size : Int) : Decidable (FailsClean mm vmaid size) := by
  unfold FailsClean
  infer_instance

/-- **A failed allocation leaves everything as it was** if and only if it fails clean. -/
theorem alloc_failed_unchanged {fuel : Nat} {p : Pid} {vmaid rgid size ret : Int} {m m' : Machine}
    (hrun : run (alloc fuel p vmaid rgid size) m = .ok (m', ret)) (hret : ret < 0) :
    Unchanged m m' ↔ FailsClean (m.mm p) vmaid size := by
  cases run_alloc hrun with
  | @reused l rg m' ret hid hget hturns hret' =>
    have hmm : m'.mm = Function.update m.mm p (((m.mm p).setFreerg vmaid l).setSymrg rgid.toNat rg) := turns_mm hturns
    have hvma : ((m'.mm p).vma vmaid).vmFreergList = l := by
      rw [hmm, Function.update_self]
      by_cases hv : vmaid = 0 <;> simp [Mm.setSymrg, Mm.setFreerg, Mm.setVma, Mm.vma, hv]
    constructor
    · intro hsame
      rw [hsame.vma] at hvma
      have hfit := (getFreeVmrgArea_same hget).1 hvma.symm
      cases (getFreeVmrgArea_of_not_fits hfit hget).2
    · rintro ⟨hfit, -⟩
      cases (getFreeVmrgArea_of_not_fits hfit hget).2
  | @refused l hget hwhy =>
    constructor
    · intro hsame
      have hvma := hsame.vma p vmaid
      simp only [Machine.setMm_mm, Function.update_self, Mm.setFreerg, Mm.vma_setVma] at hvma
      have hl : l = ((m.mm p).vma vmaid).vmFreergList := congrArg VmArea.vmFreergList hvma
      exact ⟨(getFreeVmrgArea_same hget).1 hl, hwhy⟩
    · rintro ⟨hfit, -⟩
      rw [(getFreeVmrgArea_same hget).2 hfit, Mm.setFreerg_self, Machine.setMm_self]
      simpa using unchanged_noted m []
  | fitted => exact absurd hret (by decide)
  | grown => exact absurd hret (by decide)

/-- Two frames of RAM and two of swap, all of them taken; the region of the first page, which lies in swap, is free. -/
def fullMemory : List (Pid × Call) :=
  [(0, .pgalloc 256 0), (0, .pgalloc 256 1), (0, .pgalloc 256 2), (0, .pgalloc 256 3), (0, .pgfreeData 0)]

/-- **With swap full**, an allocation that reuses the free region returns -3000: its first 200 bytes have gone from the
free list into the table. -/
theorem alloc_failed_fails : ∃ m m' rets,
    runCalls (fun _ _ _ => true) 10 fullMemory (boot 512 512 4096) = some (m, rets) ∧
    Run anyCall (boot 512 512 4096) m ∧ run (alloc 10 0 0 5 200) m = .ok (m', -3000) ∧
    ((m.mm 0).symrgtbl 5, (m'.mm 0).symrgtbl 5) = (⟨0, 0, 0⟩, ⟨0, 0, 199⟩) ∧
    ((m.mm 0).vma0.vmFreergList, (m'.mm 0).vma0.vmFreergList) = ([⟨0, 0, 255⟩, ⟨0, 0, 0⟩], [⟨0, 200, 255⟩, ⟨0, 0, 0⟩]) ∧
    ¬ Unchanged m m' := by
  have hsome : (runCalls (fun _ _ _ => true) 10 fullMemory (boot 512 512 4096)).any (fun q =>
      (run (alloc 10 0 0 5 200) q.1).toOption.any (fun a => a.2 = -3000 ∧
        ((q.1.mm 0).symrgtbl 5, (a.1.mm 0).symrgtbl 5) = (⟨0, 0, 0⟩, ⟨0, 0, 199⟩) ∧
        ((q.1.mm 0).vma0.vmFreergList, (a.1.mm 0).vma0.vmFreergList) =
          ([⟨0, 0, 255⟩, ⟨0, 0, 0⟩], [⟨0, 200, 255⟩, ⟨0, 0, 0⟩]))) = true := by
    decide +kernel
  obtain ⟨⟨m, rets⟩, hm, hq⟩ := (Option.any_eq_true _ _).1 hsome
  obtain ⟨⟨m', ret⟩, hrun, ha⟩ := (Option.any_eq_true _ _).1 hq
  simp only [decide_eq_true_iff] at ha
  obtain ⟨hret, hsym, hfree⟩ := ha
  have hrun' : run (alloc 10 0 0 5 200) m = .ok (m', -3000) := hret ▸ run_of_toOption hrun
  refine ⟨m, m', rets, hm, run_of_runCalls (fun _ _ _ _ => trivial) _ hm, hrun', hsym, hfree, fun hsame => ?_⟩
  rw [hsame.symrgtbl 0 5 (by decide)] at hsym
  injection hsym with hbefore hafter
  rw [hbefore] at hafter
  cases hafter

/-- A request for more than the virtual memory there is fails clean. -/
theorem alloc_failed_outOfVirtual : ∃ m m', Run anyCall (boot 512 512 4096) m ∧
    run (alloc 10 0 0 2 5000) m = .ok (m', -1) ∧ Unchanged m m' := by
  have hsome : (runCalls (fun _ _ _ => true) 10 fullMemory (boot 512 512 4096)).any (fun q =>
      (run (alloc 10 0 0 2 5000) q.1).toOption.any (fun a => a.2 = -1 ∧ FailsClean (q.1.mm 0) 0 5000)) = true := by
    decide +kernel
  obtain ⟨⟨m, rets⟩, hm, hq⟩ := (Option.any_eq_true _ _).1 hsome
  obtain ⟨⟨m', ret⟩, hrun, ha⟩ := (Option.any_eq_true _ _).1 hq
  simp only [decide_eq_true_iff] at ha
  obtain ⟨hret, hclean⟩ := ha
  have hrun' : run (alloc 10 0 0 2 5000) m = .ok (m', -1) := hret ▸ run_of_toOption hrun
  exact ⟨m, m', run_of_runCalls (fun _ _ _ _ => trivial) _ hm, hrun',
    (alloc_failed_unchanged hrun' (by decide)).2 hclean⟩

end OsSim
