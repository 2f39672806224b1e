import OsSim.Layout
import Mathlib.Algebra.Order.Ring.Int
/-!
# Overlap — the overlap test of `validate_overlap_vm_area`

The test goes by the sign of a product of two differences of addresses, taken as an `int`.  In areas of some
megabytes the product no longer fits, and its sign is that of what is left of it.
-/
namespace OsSim

open Atomic Code

/-! ## The areas and the request -/

/-- The areas of a process, as `__alloc` keeps them: the stack's `[0, vm_end)` and the heap's `[vm_end, vmemsz -
1]`, of whole pages, one before the other, with each break inside its area or at its end.  An empty heap has `vm_end
= vm_start`. -/
structure Areas (mm : Mm) : Prop where
  size : 0 < mm.vmemsz ∧ mm.vmemsz ≤ 4194304 ∧ mm.vmemsz % 256 = 0
  stack : mm.vma0.vmStart = 0 ∧ mm.vma0.vmEnd % 256 = 0 ∧ 0 ≤ mm.vma0.sbrk ∧ mm.vma0.sbrk ≤ mm.vma0.vmEnd
  heap : mm.vma1.vmStart = mm.vmemsz - 1 ∧ mm.vma1.vmEnd ≤ mm.vma1.sbrk ∧ mm.vma1.sbrk ≤ mm.vmemsz - 1
  apart : mm.vma1.vmEnd = mm.vma1.vmStart ∧ mm.vma0.vmEnd ≤ mm.vmemsz ∨
    mm.vma1.vmEnd % 256 = 0 ∧ mm.vma0.vmEnd ≤ mm.vma1.vmEnd

/-- The byte is one of the `size` bytes after the stack's break, or before the heap's. -/
def Requested (mm : Mm) (vmaid size b : Int) : Prop :=
  if vmaid = 0 then mm.vma0.sbrk ≤ b ∧ b < mm.vma0.sbrk + size else mm.vma1.sbrk - size ≤ b ∧ b < mm.vma1.sbrk

def InArea (mm : Mm) (vmaid b : Int) : Prop :=
  if vmaid = 0 then mm.vma0.vmStart ≤ b ∧ b < mm.vma0.vmEnd
  else mm.vma1.vmStart ≠ mm.vma1.vmEnd ∧ mm.vma1.vmEnd ≤ b ∧ b ≤ mm.vma1.vmStart

/-- `__alloc`'s test for virtual memory running out has let the request pass. -/
def Granted (mm : Mm) (vmaid size : Int) : Prop :=
  1 ≤ size ∧ if vmaid = 0 then mm.vma0.sbrk + size ≤ mm.vmemsz else size ≤ mm.vma1.sbrk

def Shares (mm : Mm) (vmaid size : Int) : Prop := ∃ b, Requested mm vmaid size b ∧ InArea mm (1 - vmaid) b

def overlapAnswer (mm : Mm) (vmaid size : Int) : Int :=
  validateOverlapVmArea mm vmaid (int32 (getVmAreaNodeAtBrk mm vmaid size).rgStart)
    (int32 (getVmAreaNodeAtBrk mm vmaid size).rgEnd)

/-- From where the other area starts back to the break, times from where that area ends to where the break would go. -/
def overlapProduct (mm : Mm) (vmaid size : Int) : Int :=
  if vmaid = 0 then (mm.vma1.vmStart - mm.vma0.sbrk) * (mm.vma0.sbrk + size - mm.vma1.vmEnd)
  else (mm.vma0.vmStart - mm.vma1.sbrk) * (mm.vma1.sbrk - size - mm.vma0.vmEnd)

/-- The number is 0, or has the sign it has as an `int`. -/
def KeepsSign (x : Int) : Prop := x = 0 ∨ (x % 4294967296 < 2147483648 ↔ 0 < x)

instance (x : Int) : Decidable (KeepsSign x) := inferInstanceAs (Decidable (_ ∨ _))

theorem int32_nonneg (x : Int) : 0 ≤ int32 x ↔ x % 4294967296 < 2147483648 := by
  unfold int32
  omega

section Exact

variable {mm : Mm} {vmaid size : Int}

/-- **Two areas and a request**: they share a byte where the product is positive. -/
theorem shares_iff (h : Areas mm) (hv : vmaid = 0 ∨ vmaid = 1) (hgrant : Granted mm vmaid size) : Shares mm vmaid size ↔
    (mm.vma (1 - vmaid)).vmStart ≠ (mm.vma (1 - vmaid)).vmEnd ∧ 0 < overlapProduct mm vmaid size := by
  obtain ⟨h1, hroom⟩ := hgrant
  have hsize := h.size
  have hstack := h.stack
  have hheap := h.heap
  have hapart := h.apart
  rcases hv with rfl | rfl
  · simp only [Shares, Requested, InArea, overlapProduct, Mm.vma, if_true, sub_zero,
      if_neg (show (1 : Int) ≠ 0 by decide)] at *
    constructor
    · rintro ⟨b, hb, hne, hin⟩
      exact ⟨hne, mul_pos (by omega) (by omega)⟩
    · rintro ⟨hne, hpos⟩
      have hlow : 0 < mm.vma0.sbrk + size - mm.vma1.vmEnd := (mul_pos_iff_of_pos_left (by omega)).1 hpos
      exact ⟨max mm.vma0.sbrk mm.vma1.vmEnd, by omega, hne, by omega⟩
  · simp only [Shares, Requested, InArea, overlapProduct, Mm.vma, if_true, sub_self,
      if_neg (show (1 : Int) ≠ 0 by decide)] at *
    constructor
    · rintro ⟨b, hb, hin⟩
      exact ⟨by omega, mul_pos_of_neg_of_neg (by omega) (by omega)⟩
    · rintro ⟨hne, hpos⟩
      have hhigh : mm.vma1.sbrk - size - mm.vma0.vmEnd < 0 := by
        by_contra hge
        have := mul_nonpos_of_nonpos_of_nonneg (show mm.vma0.vmStart - mm.vma1.sbrk ≤ 0 by omega) (not_lt.1 hge)
        omega
      exact ⟨mm.vma1.sbrk - size, by omega, by omega⟩

theorem overlaps_eq {vma : VmArea} {vmastart vmaend : Int} (hstart : 0 ≤ vma.vmStart ∧ vma.vmStart ≤ 4194304)
    (hend : 0 ≤ vma.vmEnd ∧ vma.vmEnd ≤ 4194304) (hfrom : 0 ≤ vmastart ∧ vmastart ≤ 4194304)
    (hto : 0 ≤ vmaend ∧ vmaend ≤ 4194304) (hne : vma.vmStart ≠ vma.vmEnd → vma.vmStart ≠ vmastart) :
    overlaps vma vmastart vmaend = true ↔ vma.vmStart ≠ vma.vmEnd ∧
      (vma.vmStart - vmastart) * (vmaend - vma.vmEnd) % 4294967296 < 2147483648 ∧
        (vma.vmStart - vmastart) * (vmaend - vma.vmEnd) ≠ 0 := by
  have hint : ∀ x, -4194304 ≤ x ∧ x ≤ 4194304 → int32 x = x := by
    intro x hx
    unfold int32
    omega
  have hword : ulong vmaend = vmaend := by
    unfold ulong
    omega
  unfold overlaps
  rw [hint vma.vmStart (by omega), hint vma.vmEnd (by omega), hint (vma.vmStart - vmastart) (by omega),
    hint (vmaend - vma.vmEnd) (by omega), hword]
  simp only [Bool.and_eq_true, decide_eq_true_eq, ge_iff_le, int32_nonneg, and_assoc]
  refine and_congr_right (fun hsome => and_congr_right (fun _ => ?_))
  have hleft := hne hsome
  rw [mul_ne_zero_iff]
  constructor
  · exact fun h => ⟨by omega, by omega⟩
  · rintro ⟨-, h⟩
    omega

theorem overlapAnswer_eq (h : Areas mm) (hv : vmaid = 0 ∨ vmaid = 1) (hgrant : Granted mm vmaid size) :
    (overlapAnswer mm vmaid size = -1 ∨ overlapAnswer mm vmaid size = 0) ∧ (overlapAnswer mm vmaid size = -1 ↔
      (mm.vma (1 - vmaid)).vmStart ≠ (mm.vma (1 - vmaid)).vmEnd ∧
        overlapProduct mm vmaid size % 4294967296 < 2147483648 ∧
        overlapProduct mm vmaid size ≠ 0) := by
  obtain ⟨h1, hroom⟩ := hgrant
  have hsize := h.size
  have hstack := h.stack
  have hheap := h.heap
  have hapart := h.apart
  have hint : ∀ x, 0 ≤ x ∧ x ≤ 4194304 → int32 x = x ∧ int32 (ulong x) = x := by
    intro x hx
    unfold int32 ulong
    omega
  have hanswer : ∀ {vma : VmArea} {a e : Int}, overlapAnswer mm vmaid size = (if overlaps vma a e then -1 else 0) →
      (overlapAnswer mm vmaid size = -1 ∨ overlapAnswer mm vmaid size = 0) ∧
        (overlapAnswer mm vmaid size = -1 ↔ overlaps vma a e = true) := by
    intro vma a e heq
    rw [heq]
    split <;> simp_all
  rcases hv with rfl | rfl
  · simp only [if_true] at hroom
    have heq : overlapAnswer mm 0 size = if overlaps mm.vma1 mm.vma0.sbrk (mm.vma0.sbrk + size) then -1 else 0 := by
      simp [overlapAnswer, validateOverlapVmArea, getVmAreaNodeAtBrk, Mm.vma, (hint mm.vma0.sbrk (by omega)).1,
        (hint (mm.vma0.sbrk + size) (by omega)).2]
    obtain ⟨hvalue, hiff⟩ := hanswer heq
    exact ⟨hvalue, hiff.trans (overlaps_eq (by omega) (by omega) (by omega) (by omega) (by omega))⟩
  · simp only [if_neg (show (1 : Int) ≠ 0 by decide)] at hroom
    have heq : overlapAnswer mm 1 size = if overlaps mm.vma0 mm.vma1.sbrk (mm.vma1.sbrk - size) then -1 else 0 := by
      simp [overlapAnswer, validateOverlapVmArea, getVmAreaNodeAtBrk, Mm.vma, (hint mm.vma1.sbrk (by omega)).1,
        (hint (mm.vma1.sbrk - size) (by omega)).2]
    obtain ⟨hvalue, hiff⟩ := hanswer heq
    exact ⟨hvalue, hiff.trans (overlaps_eq (by omega) (by omega) (by omega) (by omega) (by omega))⟩

end Exact

/-- **`validate_overlap_vm_area` is exact** if and only if the other area is empty or the product keeps its sign. -/
theorem overlap_exact {mm : Mm} {vmaid size : Int} (h : Areas mm) (hv : vmaid = 0 ∨ vmaid = 1)
    (hgrant : Granted mm vmaid size) :
    (Shares mm vmaid size → overlapAnswer mm vmaid size = -1) ∧
      (¬ Shares mm vmaid size → overlapAnswer mm vmaid size = 0) ↔
      (mm.vma (1 - vmaid)).vmStart = (mm.vma (1 - vmaid)).vmEnd ∨ KeepsSign (overlapProduct mm vmaid size) := by
  obtain ⟨hvalue, hanswer⟩ := overlapAnswer_eq h hv hgrant
  have hshares := shares_iff h hv hgrant
  have hdiff : ¬ (overlapAnswer mm vmaid size = -1 ∧ overlapAnswer mm vmaid size = 0) := by omega
  unfold KeepsSign
  generalize overlapProduct mm vmaid size = x at *
  by_cases hempty : (mm.vma (1 - vmaid)).vmStart = (mm.vma (1 - vmaid)).vmEnd
  · simp only [hempty, ne_eq, not_true_eq_false, false_and, iff_false] at hanswer hshares ⊢
    simp [hshares, hvalue.resolve_left hanswer]
  · simp only [hempty, ne_eq, not_false_eq_true, true_and, false_or] at hanswer hshares ⊢
    constructor
    · rintro ⟨hyes, hno⟩
      by_cases hx : 0 < x
      · have := hanswer.1 (hyes (hshares.2 hx))
        omega
      · have := mt hanswer.2 (fun hboth => hdiff ⟨hboth, hno (mt hshares.1 hx)⟩)
        omega
    · intro hsign
      refine ⟨fun hs => hanswer.2 ?_, fun hs => hvalue.resolve_left (fun hbad => hs (hshares.2 ?_))⟩
      · have := hshares.1 hs
        omega
      · have := hanswer.1 hbad
        omega

/-- **Four megabytes of virtual memory, a heap of one page**, and a stack of 100 bytes asked for, at the other end:
the product is -(2²² - 1)(2²² - 356), of which 357·2²² - 356 is left. -/
theorem overlap_exact_fails : ∃ m rets m',
    runCalls (fun _ _ _ => true) 10 [(0, .pgmalloc 100 0)] (boot 512 512 4194304) = some (m, rets) ∧
      Areas (m.mm 0) ∧ Granted (m.mm 0) 0 100 ∧ ¬ Shares (m.mm 0) 0 100 ∧ overlapAnswer (m.mm 0) 0 100 = -1 ∧
    Completes m 0 (.pgalloc 100 1) (-1, none) m' := by
  have hsome : (runCalls (fun _ _ _ => true) 10 [(0, .pgmalloc 100 0)] (boot 512 512 4194304)).any (fun q =>
      ((q.1.mm 0).vmemsz, (q.1.mm 0).vma0.vmStart, (q.1.mm 0).vma0.vmEnd, (q.1.mm 0).vma0.sbrk) = (4194304, 0, 0, 0) ∧
        ((q.1.mm 0).vma1.vmStart, (q.1.mm 0).vma1.vmEnd, (q.1.mm 0).vma1.sbrk) = (4194303, 4194048, 4194204) ∧
        overlapAnswer (q.1.mm 0) 0 100 = -1 ∧ (run (Call.code 10 0 (.pgalloc 100 1)) q.1).toOption.any (fun a =>
          a.2 = (-1, none)) = true) = true := by
    decide +kernel
  obtain ⟨⟨m, rets⟩, hm, hq⟩ := (Option.any_eq_true _ _).1 hsome
  obtain ⟨hstack, hheap, hanswer, hcall⟩ := of_decide_eq_true hq
  obtain ⟨⟨m', ret⟩, hrun, ha⟩ := (Option.any_eq_true _ _).1 hcall
  simp only [Prod.mk.injEq] at hstack hheap
  obtain ⟨hvm, hstart0, hend0, hbrk0⟩ := hstack
  obtain ⟨hstart1, hend1, hbrk1⟩ := hheap
  refine ⟨m, rets, m', hm, ⟨?_, ?_, ?_, ?_⟩, ⟨by decide, ?_⟩, ?_, hanswer, 10,
    of_decide_eq_true ha ▸ run_of_toOption hrun⟩
  · rw [hvm]
    decide
  · rw [hstart0, hend0, hbrk0]
    decide
  · rw [hstart1, hend1, hbrk1, hvm]
    decide
  · rw [hstart1, hend0, hend1, hvm]
    decide
  · rw [if_pos rfl, hbrk0, hvm]
    decide
  · rintro ⟨b, hb, -, hin⟩
    rw [Requested, if_pos rfl, hbrk0] at hb
    rw [hend1] at hin
    omega

/-- The same areas in 4096 bytes of virtual memory. -/
theorem overlap_exact_small : ∃ mm : Mm, mm.vma1.vmEnd = 3840 ∧ Shares mm 0 3900 ∧ overlapAnswer mm 0 3900 = -1 := by
  have h : Areas ⟨4096, ⟨0, 0, 0, []⟩, ⟨4095, 3840, 3996, []⟩, fun _ => ⟨0, 0, 0⟩⟩ :=
    ⟨by decide, by decide, by decide, by decide⟩
  have hgrant : Granted ⟨4096, ⟨0, 0, 0, []⟩, ⟨4095, 3840, 3996, []⟩, fun _ => ⟨0, 0, 0⟩⟩ 0 3900 := by
    refine ⟨by decide, ?_⟩
    rw [if_pos rfl]
    decide
  have hshares : Shares ⟨4096, ⟨0, 0, 0, []⟩, ⟨4095, 3840, 3996, []⟩, fun _ => ⟨0, 0, 0⟩⟩ 0 3900 :=
    ⟨3840, by simp [Requested], by simp [InArea]⟩
  exact ⟨_, rfl, hshares, ((overlap_exact h (Or.inl rfl) hgrant).2 (Or.inr (by decide))).1 hshares⟩

end OsSim
