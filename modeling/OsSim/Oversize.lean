import OsSim.Access
/-!
# Oversize — requests for more than the virtual memory there is

The size of a request is a `uint32_t` for the caller and an `int` for `__alloc`: the largest ones come out negative
there. Added to the stack's break, or taken off the heap's, they lead back into virtual memory.
-/
namespace OsSim

open Atomic Code

/-! ## The breaks are inside the areas -/

structure Breaks (mm : Mm) : Prop where
  vmemsz : 0 ≤ mm.vmemsz ∧ mm.vmemsz ≤ 4194304
  stack : 0 ≤ mm.vma0.sbrk ∧ mm.vma0.sbrk ≤ mm.vmemsz ∧ mm.vma0.sbrk ≤ mm.vma0.vmEnd
  heap : 0 ≤ int32 mm.vma1.sbrk → heapEnd mm ≤ int32 mm.vma1.sbrk

namespace Breaks

variable {mm : Mm} {size : Int}

theorem setFreerg (h : Breaks mm) (vmaid : Int) (l : List VmRg) : Breaks (mm.setFreerg vmaid l) := by
  unfold Mm.setFreerg Mm.setVma
  split
  · rename_i hv
    subst hv
    exact ⟨h.vmemsz, h.stack, h.heap⟩
  · rename_i hv
    rw [Mm.vma, if_neg hv]
    exact ⟨h.vmemsz, h.stack, h.heap⟩

theorem setSymrg (h : Breaks mm) (i : Nat) (rg : VmRg) : Breaks (mm.setSymrg i rg) := ⟨h.vmemsz, h.stack, h.heap⟩

theorem commitStack (hvm : 0 ≤ mm.vmemsz ∧ mm.vmemsz ≤ 4194304)
    (hheap : 0 ≤ int32 mm.vma1.sbrk → heapEnd mm ≤ int32 mm.vma1.sbrk)
    (hvirt : outOfVirtual mm 0 size = false) (hroom : ulong (int32 (int32 mm.vma0.sbrk + size)) ≤ mm.vma0.vmEnd)
    (i : Nat) :
    Breaks (commitRegion mm 0 i size) := by
  rw [outOfVirtual, if_pos rfl, decide_eq_false_iff_not] at hvirt
  change ¬ uint32 (int32 (int32 mm.vma0.sbrk + size)) > mm.vmemsz at hvirt
  refine ⟨hvm, ?_, hheap⟩
  change 0 ≤ ulong (int32 (int32 mm.vma0.sbrk + size)) ∧ ulong (int32 (int32 mm.vma0.sbrk + size)) ≤ mm.vmemsz ∧
    ulong (int32 (int32 mm.vma0.sbrk + size)) ≤ mm.vma0.vmEnd
  generalize hr : int32 (int32 mm.vma0.sbrk + size) = r at *
  unfold int32 at hr
  unfold uint32 at hvirt
  unfold ulong at *
  omega

theorem commitHeap (hvm : 0 ≤ mm.vmemsz ∧ mm.vmemsz ≤ 4194304)
    (hstack : 0 ≤ mm.vma0.sbrk ∧ mm.vma0.sbrk ≤ mm.vmemsz ∧ mm.vma0.sbrk ≤ mm.vma0.vmEnd)
    (hroom : heapEnd mm ≤ int32 (int32 mm.vma1.sbrk - size)) (i : Nat) : Breaks (commitRegion mm 1 i size) := by
  have hword : ∀ a, int32 (ulong (int32 a)) = int32 a := by
    intro a
    unfold int32 ulong
    omega
  unfold commitRegion
  rw [if_neg (by decide)]
  split
  · refine ⟨hvm, hstack, fun h0 => ?_⟩
    change 0 ≤ int32 (ulong (int32 (int32 mm.vma1.sbrk + 1 - size))) at h0
    change heapEnd mm ≤ int32 (ulong (int32 (int32 mm.vma1.sbrk + 1 - size)))
    rw [hword] at h0 ⊢
    unfold int32 at *
    omega
  · refine ⟨hvm, hstack, fun _ => ?_⟩
    change heapEnd mm ≤ int32 (ulong (int32 (int32 mm.vma1.sbrk - size)))
    rwa [hword]

theorem growStack (h : Breaks mm) (hsize : -2147483648 ≤ size ∧ size < 2147483648)
    (hvirt : outOfVirtual mm 0 size = false) :
    ulong (int32 (int32 mm.vma0.sbrk + size)) = mm.vma0.sbrk + size ∧ mm.vma0.sbrk + size ≤ newVmEnd mm 0 size := by
  have hvm := h.vmemsz
  have hstack := h.stack
  rw [outOfVirtual, if_pos rfl, decide_eq_false_iff_not] at hvirt
  change ¬ uint32 (int32 (int32 mm.vma0.sbrk + size)) > mm.vmemsz at hvirt
  have hsbrk : int32 mm.vma0.sbrk = mm.vma0.sbrk := by
    unfold int32
    omega
  rw [hsbrk] at hvirt ⊢
  have hsum : 0 ≤ mm.vma0.sbrk + size ∧ mm.vma0.sbrk + size ≤ mm.vmemsz := by
    unfold uint32 int32 at hvirt
    omega
  have hend : newVmEnd mm 0 size = pagingPageAlignsz (ulong (mm.vma0.sbrk + size)) := rfl
  rw [hend]
  unfold pagingPageAlignsz ulong int32
  omega

theorem growHeap (hvirt : outOfVirtual mm 1 size = false) :
    int32 (newVmEnd mm 1 size) < int32 (int32 mm.vma1.sbrk - size) := by
  rw [outOfVirtual, if_neg (by decide), decide_eq_false_iff_not] at hvirt
  change ¬ int32 (int32 mm.vma1.sbrk - size) < 0 at hvirt
  have hend : newVmEnd mm 1 size = ulong (pagingPageAlignsz (ulong (mm.vma1.sbrk - size)) - 256) := rfl
  rw [hend]
  unfold pagingPageAlignsz ulong int32 at *
  omega

theorem alloc (h : Breaks mm) {fuel : Nat} {vmaid rgid : Int} {mm' : Mm} (hv : vmaid = 0 ∨ vmaid = 1)
    (hsize : -2147483648 ≤ size ∧ size < 2147483648) (hstep : MmAlloc fuel vmaid rgid size mm mm') : Breaks mm' := by
  have hcut : ∀ l, Breaks (mm.setFreerg vmaid l) := h.setFreerg vmaid
  cases hstep with
  | reused hid hget => exact (hcut _).setSymrg _ _
  | refused hget => exact hcut _
  | @fitted l hid hget hvirt hpast =>
    have hfree := hcut l
    rw [← outOfVirtual_setFreerg mm vmaid l] at hvirt
    rw [← pastVmEnd_setFreerg mm vmaid l] at hpast
    generalize mm.setFreerg vmaid l = mm₁ at *
    rcases hv with rfl | rfl
    · rw [pastVmEnd, if_pos rfl, decide_eq_false_iff_not] at hpast
      exact commitStack hfree.vmemsz hfree.heap hvirt (not_lt.1 hpast) _
    · rw [pastVmEnd, if_neg (by decide), decide_eq_false_iff_not] at hpast
      exact commitHeap hfree.vmemsz hfree.stack (not_lt.1 hpast) _
  | @grown l hid hget hvirt hpast hover =>
    have hfree := hcut l
    rw [← outOfVirtual_setFreerg mm vmaid l] at hvirt
    generalize mm.setFreerg vmaid l = mm₁ at *
    rcases hv with rfl | rfl
    · obtain ⟨hbrk, hend⟩ := hfree.growStack hsize hvirt
      have hroom : ulong (int32 (int32 (grownMm mm₁ 0 size).vma0.sbrk + size)) ≤ (grownMm mm₁ 0 size).vma0.vmEnd :=
        hbrk.le.trans hend
      exact @commitStack (grownMm mm₁ 0 size) size hfree.vmemsz hfree.heap hvirt hroom _
    · have hend := growHeap hvirt
      exact @commitHeap (grownMm mm₁ 1 size) size hfree.vmemsz hfree.stack hend.le _

theorem freed (h : Breaks mm) (i : Nat) : Breaks (freedMm mm i) := by
  unfold freedMm Mm.enlisted
  dsimp only
  split
  · exact h.setSymrg _ _
  · exact (h.setSymrg _ _).setFreerg _ _

theorem init {vmemsz : Int} (h : 0 ≤ vmemsz ∧ vmemsz ≤ 4194304) : Breaks (initMm zeroMm vmemsz) :=
  ⟨h, ⟨le_rfl, h.1, le_rfl⟩, fun _ => le_rfl⟩

end Breaks

theorem run_breaks {m₀ m : Machine} (h : Run anyCall m₀ m) (h0 : ∀ p, Breaks (m₀.mm p)) (p : Pid) : Breaks (m.mm p) :=
  run_mm_any (fun _ mm => Breaks mm) (fun hv hsize hstep h => h.alloc hv hsize hstep) (fun _ _ h => h.freed _) h h0 p

/-! ## Refusals -/

/-- The call returns a negative status and leaves the process's regions, areas, free lists and page table as they
were. -/
def Refuses (m : Machine) (p : Pid) (c : Call) : Prop :=
  ∃ ret m', Completes m p c ret m' ∧ ret.1 < 0 ∧ (∀ i < pagingMaxSymtblSz, (m'.mm p).symrgtbl i = (m.mm p).symrgtbl i) ∧
    (m'.mm p).vma0 = (m.mm p).vma0 ∧ (m'.mm p).vma1 = (m.mm p).vma1 ∧ ∀ r : PteRef, r.pid = p → m'.pgd r = m.pgd r

theorem getFreeLoop_none_fits {vmaid size : Int} (newrg : VmRg) :
    ∀ {l : List VmRg}, (∀ rg ∈ l, fits vmaid size rg = false) →
    getFreeLoop vmaid size l.length l newrg = some (l, newrg)
  | [], _ => by simp [getFreeLoop]
  | rg :: rest, h => by
    obtain ⟨hrg, hrest⟩ := List.forall_mem_cons.1 h
    rw [List.length_cons, getFreeLoop, if_neg (by simp [hrg]), getFreeLoop_none_fits newrg hrest]

def allocCall (vmaid : Int) (size regIndex : BitVec 32) : Call :=
  if vmaid = 0 then .pgalloc size regIndex else .pgmalloc size regIndex

theorem completes_alloc {m m' : Machine} {p : Pid} {vmaid : Int} (hv : vmaid = 0 ∨ vmaid = 1)
    {size regIndex : BitVec 32} {ret : Ret} :
    Completes m p (allocCall vmaid size regIndex) ret m' ↔
      ∃ fuel r, run (alloc fuel p vmaid regIndex.toInt size.toInt) m = .ok (m', r) ∧ ret = (r, none) := by
  have hcode : ∀ fuel, (allocCall vmaid size regIndex).code fuel p =
      (do return (← alloc fuel p vmaid regIndex.toInt size.toInt, none)) := by
    intro fuel
    rcases hv with rfl | rfl <;> rfl
  constructor
  · rintro ⟨fuel, hrun⟩
    rw [hcode] at hrun
    obtain ⟨m₁, r, halloc, hret⟩ := run_bind_ok.1 hrun
    cases hret
    exact ⟨fuel, r, halloc, rfl⟩
  · rintro ⟨fuel, r, halloc, rfl⟩
    refine ⟨fuel, ?_⟩
    rw [hcode]
    exact run_bind_ok.2 ⟨m', r, halloc, rfl⟩

/-- Added to the stack's break the size is below 2³², taken off the heap's it is below -2³¹ at most: `__alloc`'s
test for virtual memory running out sees it. -/
def Seen (mm : Mm) (vmaid : Int) (size : BitVec 32) : Prop :=
  if vmaid = 0 then mm.vma0.sbrk + size.toNat < 4294967296 else size.toNat ≤ 2147483648 + mm.vma1.sbrk

section Huge

variable {mm : Mm} {vmaid : Int} {size : BitVec 32}

theorem toInt_wraps (size : BitVec 32) : size.toInt = int32 size.toNat := by
  rw [BitVec.toInt_eq_toNat_cond]
  have := size.isLt
  unfold int32
  split <;> omega

theorem outOfVirtual_iff (h : Breaks mm) (hin : 0 ≤ mm.vma1.sbrk ∧ mm.vma1.sbrk ≤ mm.vmemsz)
    (hv : vmaid = 0 ∨ vmaid = 1) (hbig : mm.vmemsz < size.toNat) :
    (outOfVirtual mm vmaid size.toInt = true ↔ Seen mm vmaid size) ∧
      (outOfVirtual mm vmaid size.toInt = false → pastVmEnd mm vmaid size.toInt = false) := by
  have hvm := h.vmemsz
  have hstack := h.stack
  have hheap := h.heap
  have hlt := size.isLt
  rw [toInt_wraps]
  rcases hv with rfl | rfl
  · simp only [outOfVirtual, pastVmEnd, Seen, Mm.vma, if_true, decide_eq_true_eq, decide_eq_false_iff_not, uint32, ulong,
      int32]
    omega
  · simp only [outOfVirtual, pastVmEnd, Seen, Mm.vma, if_neg (show (1 : Int) ≠ 0 by decide), decide_eq_true_eq,
      decide_eq_false_iff_not, heapEnd, int32] at *
    omega

/-- **A request for more than virtual memory is refused** if and only if no free region seems to have room for it
and the test at the break sees its size. -/
theorem refuses_iff {m : Machine} {p : Pid} {regIndex : BitVec 32} (h : Breaks (m.mm p))
    (hin : 0 ≤ (m.mm p).vma1.sbrk ∧ (m.mm p).vma1.sbrk ≤ (m.mm p).vmemsz) (hv : vmaid = 0 ∨ vmaid = 1)
    (hbig : (m.mm p).vmemsz < size.toNat) : Refuses m p (allocCall vmaid size regIndex) ↔
      (∀ rg ∈ ((m.mm p).vma vmaid).vmFreergList, fits vmaid size.toInt rg = false) ∧ Seen (m.mm p) vmaid size := by
  obtain ⟨hseen, hroom⟩ := outOfVirtual_iff h hin hv hbig
  constructor
  · rintro ⟨ret, m', hrun, hneg, -, hvma0, hvma1, -⟩
    obtain ⟨fuel, r, halloc, rfl⟩ := (completes_alloc hv).1 hrun
    have hvma : (m'.mm p).vma vmaid = (m.mm p).vma vmaid := by
      unfold Mm.vma
      rw [hvma0, hvma1]
    have hsame : ∀ {l o mm'}, getFreeVmrgArea fuel vmaid size.toInt ((m.mm p).vma vmaid).vmFreergList = some (l, o) →
        (m'.mm p).vma vmaid = Mm.vma mm' vmaid → (Mm.vma mm' vmaid).vmFreergList = l →
          o = none ∧ ∀ rg ∈ ((m.mm p).vma vmaid).vmFreergList, fits vmaid size.toInt rg = false := by
      intro l o mm' hget hmm hl
      rw [← hmm, hvma] at hl
      have hfit := (getFreeVmrgArea_same hget).1 hl.symm
      exact ⟨(getFreeVmrgArea_of_not_fits hfit hget).2, hfit⟩
    cases run_alloc halloc with
    | @reused l rg m' ret hid hget hturns hret' =>
      have hmm : m'.mm p = ((m.mm p).setFreerg vmaid l).setSymrg regIndex.toInt.toNat rg := by
        rw [turns_mm hturns, Machine.setMm_mm, Function.update_self]
      have hlist : (Mm.vma (((m.mm p).setFreerg vmaid l).setSymrg regIndex.toInt.toNat rg) vmaid).vmFreergList = l := by
        rcases hv with rfl | rfl <;> rfl
      cases (hsame hget (congrArg (fun mm => Mm.vma mm vmaid) hmm) hlist).1
    | @refused l hget hwhy =>
      have hmm : ((m.setMm p ((m.mm p).setFreerg vmaid l)).mm p).vma vmaid =
          Mm.vma ((m.mm p).setFreerg vmaid l) vmaid := by
        rw [Machine.setMm_mm, Function.update_self]
      have hfit := (hsame hget hmm (by simp [Mm.setFreerg])).2
      refine ⟨hfit, hseen.1 ?_⟩
      rcases hwhy with hout | ⟨hpast, -⟩
      · exact hout
      · by_contra hno
        rw [hroom (by simpa using hno)] at hpast
        cases hpast
    | fitted => exact absurd hneg (by decide)
    | grown => exact absurd hneg (by decide)
  · rintro ⟨hfit, hsees⟩
    refine ⟨(-1, none), m, (completes_alloc hv).2 ⟨((m.mm p).vma vmaid).vmFreergList.length, -1, ?_, rfl⟩, by decide,
      fun _ _ => rfl, rfl, rfl, fun _ _ => rfl⟩
    have hget : getFreeVmrgArea ((m.mm p).vma vmaid).vmFreergList.length vmaid size.toInt
        ((m.mm p).vma vmaid).vmFreergList =
        some (((m.mm p).vma vmaid).vmFreergList, none) := by
      rw [getFreeVmrgArea, getFreeLoop_none_fits _ hfit]
      simp
    simp only [alloc, run_getMm, hget, run_setMm, Mm.setFreerg_self, Machine.setMm_self, allocAtBrk, hseen.2 hsees,
      if_true]
    rfl

/-- **A heap node in virtual memory seems to have room** for any such request: the test wraps round. -/
theorem fits_huge {rg : VmRg} {v : Int} (hrg : 0 ≤ rg.rgEnd ∧ rg.rgEnd ≤ rg.rgStart ∧ rg.rgStart < v)
    (hvm : v ≤ 4194304) (hbig : v < size.toNat) : fits 1 size.toInt rg = true := by
  have hlt := size.isLt
  rw [toInt_wraps, fits, if_neg (by decide), decide_eq_true_eq]
  unfold int32 ulong
  omega

end Huge

/-- **Oversized requests**: in every state reached, whatever size larger than virtual memory is asked for, the call
fails and changes nothing of the process if and only if the search's test and the test at the break see the size. -/
theorem oversize_refused {vmemsz : Pid → Int} {m₀ m : Machine} (h0 : ∀ p, m₀.mm p = initMm zeroMm (vmemsz p))
    (hvm : ∀ p, 0 ≤ vmemsz p ∧ vmemsz p ≤ 4194304) (hrun : Run anyCall m₀ m) {p : Pid}
    (hin : 0 ≤ (m.mm p).vma1.sbrk ∧ (m.mm p).vma1.sbrk ≤ (m.mm p).vmemsz) {vmaid : Int} (hv : vmaid = 0 ∨ vmaid = 1)
    {size regIndex : BitVec 32} (hbig : (m.mm p).vmemsz < size.toNat) : Refuses m p (allocCall vmaid size regIndex) ↔
      (∀ rg ∈ ((m.mm p).vma vmaid).vmFreergList, fits vmaid size.toInt rg = false) ∧ Seen (m.mm p) vmaid size :=
  refuses_iff (run_breaks hrun (fun p => h0 p ▸ Breaks.init (hvm p)) p) hin hv hbig

/-- **A request for 2³² - 1 bytes**, made of a stack of 256, is served: it moves the break back by one byte. -/
theorem oversize_refused_fails : ∃ m, Run anyCall (boot 512 512 4096) m ∧ (m.mm 0).vma0.sbrk = 256 ∧
    (∃ m', Completes m 0 (.pgalloc 4294967295 1) (0, none) m' ∧ (m'.mm 0).vma0.sbrk = 255) ∧
    ¬ Refuses m 0 (.pgalloc 4294967295 1) := by
  have hsome : (runCalls (fun _ _ _ => true) 10 [(0, .pgalloc 256 0)] (boot 512 512 4096)).any (fun q =>
      (q.1.mm 0).vma0.sbrk = 256 ∧ (0 ≤ (q.1.mm 0).vma1.sbrk ∧ (q.1.mm 0).vma1.sbrk ≤ (q.1.mm 0).vmemsz) ∧
        (q.1.mm 0).vmemsz = 4096 ∧ (run (Call.code 10 0 (.pgalloc 4294967295 1)) q.1).toOption.any (fun a =>
          a.2 = (0, none) ∧ (a.1.mm 0).vma0.sbrk = 255) = true) = true := by
    decide +kernel
  obtain ⟨⟨m, rets⟩, hm, hq⟩ := (Option.any_eq_true _ _).1 hsome
  obtain ⟨hsbrk, hin, hvm, hserved⟩ := of_decide_eq_true hq
  obtain ⟨⟨m', ret⟩, hrun, ha⟩ := (Option.any_eq_true _ _).1 hserved
  obtain ⟨hret, hback⟩ := of_decide_eq_true ha
  have hreach : Run anyCall (boot 512 512 4096) m := run_of_runCalls (fun _ _ _ _ => trivial) _ hm
  have hbreaks := run_breaks hreach (fun _ => Breaks.init (by decide)) 0
  refine ⟨m, hreach, hsbrk, ⟨m', ⟨10, hret ▸ run_of_toOption hrun⟩, hback⟩, fun hrefuses => ?_⟩
  have hseen := ((refuses_iff hbreaks hin (Or.inl rfl) (by rw [hvm]; decide)).1 hrefuses).2
  rw [Seen, if_pos rfl, hsbrk] at hseen
  revert hseen
  decide

/-- A request for 5000 bytes there. -/
theorem oversize_refused_5000 : ∃ m, Run anyCall (boot 512 512 4096) m ∧ Refuses m 0 (.pgalloc 5000 1) := by
  have hsome : (runCalls (fun _ _ _ => true) 10 [(0, .pgalloc 256 0)] (boot 512 512 4096)).any (fun q =>
      (0 ≤ (q.1.mm 0).vma1.sbrk ∧ (q.1.mm 0).vma1.sbrk ≤ (q.1.mm 0).vmemsz) ∧ (q.1.mm 0).vmemsz = 4096 ∧
        (q.1.mm 0).vma0.sbrk = 256 ∧ ∀ rg ∈ ((q.1.mm 0).vma 0).vmFreergList, fits 0 5000 rg = false) = true := by
    decide +kernel
  obtain ⟨⟨m, rets⟩, hm, hq⟩ := (Option.any_eq_true _ _).1 hsome
  obtain ⟨hin, hvm, hsbrk, hfits⟩ := of_decide_eq_true hq
  have hreach : Run anyCall (boot 512 512 4096) m := run_of_runCalls (fun _ _ _ _ => trivial) _ hm
  have h0 : ∀ p, (boot 512 512 4096).mm p = initMm zeroMm ((fun _ => 4096) p) := fun _ => rfl
  refine ⟨m, hreach, (oversize_refused h0 (fun _ => by decide) hreach hin (Or.inl rfl) (by rw [hvm]; decide)).2
    ⟨hfits, ?_⟩⟩
  rw [Seen, if_pos rfl, hsbrk]
  decide

end OsSim
