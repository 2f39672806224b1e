import Mathlib.Logic.Function.Basic
import Mathlib.Data.Int.Order.Basic
/-!
# Region — areas, regions and free lists of a process (`src/mm.c`, `src/mm-vm.c`)

What a process's `mm_struct` says of its virtual memory: the stack area (0), which grows upwards from 0, the heap area
(1), which grows downwards from `vmemsz - 1`, the table of allocated regions and each area's list of free regions.  A
stack region is `[rg_start, rg_end]`, a heap region `[rg_end, rg_start]`, both ends included; `rg_start = rg_end` marks
an empty one.

The C text mixes `int`, `uint32_t` and `unsigned long`.  Every value is an `Int` here, and every conversion is written
out: `ulong`, `int32` and `uint32` reduce to the type's range as the build's conversions and its wrapping arithmetic do.
-/
namespace OsSim

/-! ## The machine types -/

/-- The value as an `unsigned long` (64 bits). -/
def ulong (x : Int) : Int := x % 18446744073709551616
def uint32 (x : Int) : Int := x % 4294967296
def int32 (x : Int) : Int := (x + 2147483648) % 4294967296 - 2147483648

theorem int32_emod (x : Int) : int32 x % 4294967296 = x % 4294967296 := by
  unfold int32
  omega

def pagingPageAlignsz (sz : Int) : Int := ulong (sz + 255) / 256 * 256

/-! ## The structures -/

structure VmRg where
  vmaid : Int
  rgStart : Int
  rgEnd : Int
  deriving DecidableEq, Repr

structure VmArea where
  vmStart : Int
  vmEnd : Int
  sbrk : Int
  vmFreergList : List VmRg
  deriving DecidableEq, Repr

/-- `struct mm_struct` but for its page table, with the `vmemsz` of the process.  `mmap` is the list of the two
areas. -/
structure Mm where
  vmemsz : Int
  vma0 : VmArea
  vma1 : VmArea
  symrgtbl : Nat → VmRg

abbrev pagingMaxSymtblSz : Nat := 30

/-- `get_vma_by_num`: the walk along the two areas. -/
def getVmaByNum (mm : Mm) (vmaid : Int) : Option VmArea :=
  if vmaid ≤ 0 then some mm.vma0 else if vmaid = 1 then some mm.vma1 else none

/-- The number of the area `get_vma_by_num` comes to, if it comes to one. -/
def vmaOf (vmaid : Int) : Int := if vmaid ≤ 0 then 0 else 1

theorem vmaOf_of {vmaid : Int} (hv : vmaid = 0 ∨ vmaid = 1) : vmaOf vmaid = vmaid := by
  rcases hv with rfl | rfl <;> rfl

theorem vmaOf_cases (vmaid : Int) : vmaOf vmaid = 0 ∨ vmaOf vmaid = 1 := by
  unfold vmaOf
  split
  · exact Or.inl rfl
  · exact Or.inr rfl

/-- The area of `vmaid`, the 0 of `pgalloc` or the 1 of `pgmalloc`. -/
def Mm.vma (mm : Mm) (vmaid : Int) : VmArea := if vmaid = 0 then mm.vma0 else mm.vma1

def Mm.setVma (mm : Mm) (vmaid : Int) (vma : VmArea) : Mm :=
  if vmaid = 0 then { mm with vma0 := vma } else { mm with vma1 := vma }

def Mm.setFreerg (mm : Mm) (vmaid : Int) (l : List VmRg) : Mm :=
  mm.setVma vmaid { mm.vma vmaid with vmFreergList := l }

def Mm.setVmEnd (mm : Mm) (vmaid : Int) (e : Int) : Mm := mm.setVma vmaid { mm.vma vmaid with vmEnd := e }

def Mm.setSbrk (mm : Mm) (vmaid : Int) (b : Int) : Mm := mm.setVma vmaid { mm.vma vmaid with sbrk := b }

def Mm.setSymrg (mm : Mm) (rgid : Nat) (rg : VmRg) : Mm :=
  { mm with symrgtbl := Function.update mm.symrgtbl rgid rg }

def initVmRg (rgStart rgEnd vmaid : Int) : VmRg := { vmaid := vmaid, rgStart := ulong rgStart, rgEnd := ulong rgEnd }

/-- `init_mm`, on the memory the blocks of the structure came with: it sets the two areas and puts one empty region at
the front of each free list; the table of regions stays as it was. -/
def initMm (junk : Mm) (vmemsz : Int) : Mm :=
  let start1 := uint32 (vmemsz - 1)
  { vmemsz := vmemsz
    vma0 := { vmStart := 0, vmEnd := 0, sbrk := 0, vmFreergList := initVmRg 0 0 0 :: junk.vma0.vmFreergList }
    vma1 := { vmStart := start1, vmEnd := start1, sbrk := start1
              vmFreergList := initVmRg (int32 start1) (int32 start1) 1 :: junk.vma1.vmFreergList }
    symrgtbl := junk.symrgtbl }

def zeroMm : Mm :=
  { vmemsz := 0, vma0 := ⟨0, 0, 0, []⟩, vma1 := ⟨0, 0, 0, []⟩, symrgtbl := fun _ => ⟨0, 0, 0⟩ }

/-! ## The free lists -/

/-- The test of `get_free_vmrg_area` that a free region has room for the request. -/
def fits (vmaid size : Int) (rg : VmRg) : Bool :=
  if vmaid = 0 then decide (ulong (rg.rgStart + size - 1) ≤ rg.rgEnd)
  else decide (rg.rgEnd ≤ ulong (rg.rgStart - size + 1))

def cutRg (vmaid size : Int) (rg : VmRg) : VmRg :=
  { vmaid := vmaid, rgStart := rg.rgStart
    rgEnd := if vmaid = 0 then ulong (rg.rgStart + size - 1) else ulong (rg.rgStart - size + 1) }

def leaves (vmaid size : Int) (rg : VmRg) : Bool :=
  if vmaid = 0 then decide (ulong (rg.rgStart + size - 1) < rg.rgEnd)
  else decide (rg.rgEnd < ulong (rg.rgStart - size + 1))

def shrinkRg (vmaid size : Int) (rg : VmRg) : VmRg :=
  { rg with rgStart := if vmaid = 0 then ulong (rg.rgStart + size) else ulong (rg.rgStart - size) }

/-- The loop of `get_free_vmrg_area` from the node `rgit` on, with the region found so far.  A node that fits is
shrunk, or takes over the next node's values, or, being the last, becomes empty; the loop then looks at the same node
again.  `none`: the given number of turns did not end it. -/
def getFreeLoop (vmaid size : Int) : Nat → List VmRg → VmRg → Option (List VmRg × VmRg)
  | _, [], newrg => some ([], newrg)
  | 0, _ :: _, _ => none
  | fuel + 1, rgit :: rest, newrg =>
    if fits vmaid size rgit then
      let newrg := cutRg vmaid size rgit
      if leaves vmaid size rgit then getFreeLoop vmaid size fuel (shrinkRg vmaid size rgit :: rest) newrg
      else
        match rest with
        | nextrg :: rest' =>
          getFreeLoop vmaid size fuel ({ rgit with rgStart := nextrg.rgStart, rgEnd := nextrg.rgEnd } :: rest') newrg
        | [] => getFreeLoop vmaid size fuel [{ rgit with rgStart := rgit.rgEnd }] newrg
    else
      match getFreeLoop vmaid size fuel rest newrg with
      | some (rest', newrg) => some (rgit :: rest', newrg)
      | none => none

/-- `get_free_vmrg_area`: the list as the loop leaves it and, when it returns 0, the region found. -/
def getFreeVmrgArea (fuel : Nat) (vmaid size : Int) (l : List VmRg) : Option (List VmRg × Option VmRg) :=
  match getFreeLoop vmaid size fuel l { vmaid := vmaid, rgStart := ulong (-1), rgEnd := ulong (-1) } with
  | none => none
  | some (l', newrg) => if newrg.rgStart = ulong (-1) then some (l', none) else some (l', some newrg)

theorem getFreeVmrgArea_some {vmaid size : Int} {fuel : Nat} {l l' : List VmRg} {o : Option VmRg}
    (h : getFreeVmrgArea fuel vmaid size l = some (l', o)) :
    ∃ newrg, getFreeLoop vmaid size fuel l ⟨vmaid, ulong (-1), ulong (-1)⟩ = some (l', newrg) ∧
      o = if newrg.rgStart = ulong (-1) then none else some newrg := by
  rw [getFreeVmrgArea] at h
  split at h
  · cases h
  · rename_i newrg hloop
    split at h
    · rename_i hnone
      cases h
      exact ⟨newrg, hloop, (if_pos hnone).symm⟩
    · rename_i hsome
      cases h
      exact ⟨newrg, hloop, (if_neg hsome).symm⟩

theorem getFreeLoop_of_not_fits {vmaid size : Int} : ∀ (fuel : Nat) {l : List VmRg} (newrg : VmRg),
    (∀ rg ∈ l, fits vmaid size rg = false) →
      getFreeLoop vmaid size fuel l newrg = none ∨ getFreeLoop vmaid size fuel l newrg = some (l, newrg)
  | _, [], newrg, _ => by simp [getFreeLoop]
  | 0, _ :: _, newrg, _ => by simp [getFreeLoop]
  | fuel + 1, rg :: rest, newrg, h => by
    have hhead : fits vmaid size rg = false := h rg (by simp)
    rcases getFreeLoop_of_not_fits fuel newrg (fun rg' hrg' => h rg' (List.mem_cons_of_mem _ hrg')) with hrest | hrest
    · simp [getFreeLoop, hhead, hrest]
    · simp [getFreeLoop, hhead, hrest]

theorem getFreeVmrgArea_of_not_fits {vmaid size : Int} {fuel : Nat} {l l' : List VmRg} {o : Option VmRg}
    (hfit : ∀ rg ∈ l, fits vmaid size rg = false) (h : getFreeVmrgArea fuel vmaid size l = some (l', o)) :
    l' = l ∧ o = none := by
  obtain ⟨newrg, hloop, rfl⟩ := getFreeVmrgArea_some h
  rcases getFreeLoop_of_not_fits fuel ⟨vmaid, ulong (-1), ulong (-1)⟩ hfit with hnone | hsame
  · rw [hnone] at hloop; cases hloop
  · rw [hsame] at hloop
    cases hloop
    exact ⟨rfl, if_pos rfl⟩

/-- **The loop of `get_free_vmrg_area` ends when no region fits** any more. -/
theorem getFreeLoop_exhausts {vmaid size : Int} : ∀ (fuel : Nat) {l l' : List VmRg} {newrg newrg' : VmRg},
    getFreeLoop vmaid size fuel l newrg = some (l', newrg') → ∀ rg ∈ l', fits vmaid size rg = false
  | _, [], _, _, _, h => by
    simp only [getFreeLoop, Option.some.injEq, Prod.mk.injEq] at h
    obtain ⟨rfl, -⟩ := h
    simp
  | 0, _ :: _, _, _, _, h => by simp [getFreeLoop] at h
  | fuel + 1, rgit :: rest, l', newrg, newrg', h => by
    rw [getFreeLoop] at h
    split at h
    · split at h
      · exact getFreeLoop_exhausts fuel h
      · split at h
        · exact getFreeLoop_exhausts fuel h
        · exact getFreeLoop_exhausts fuel h
    · rename_i hfit
      split at h
      · rename_i rest' rg hrest
        cases h
        intro rg' hmem
        rcases List.mem_cons.1 hmem with rfl | hmem
        · simpa using hfit
        · exact getFreeLoop_exhausts fuel hrest rg' hmem
      · cases h

/-- **The free list is left as it was** just where no region fits. -/
theorem getFreeVmrgArea_same {vmaid size : Int} {fuel : Nat} {l l' : List VmRg} {o : Option VmRg}
    (h : getFreeVmrgArea fuel vmaid size l = some (l', o)) : l' = l ↔ ∀ rg ∈ l, fits vmaid size rg = false := by
  constructor
  · rintro rfl
    obtain ⟨newrg, hloop, -⟩ := getFreeVmrgArea_some h
    exact getFreeLoop_exhausts fuel hloop
  · exact fun hfit => (getFreeVmrgArea_of_not_fits hfit h).1

/-- What `enlist_vm_freerg_list` makes of the area it has. -/
def Mm.enlisted (mm : Mm) (vmaid : Int) (rg : VmRg) : Mm :=
  if (rg.rgStart ≥ rg.rgEnd ∧ vmaid = 0) ∨ (rg.rgStart ≤ rg.rgEnd ∧ vmaid = 1) then mm
  else mm.setFreerg (vmaOf vmaid) (rg :: (mm.vma (vmaOf vmaid)).vmFreergList)

/-- `enlist_vm_freerg_list`; `none`: it follows the null pointer that `get_vma_by_num` returns for a number above 1. -/
def enlistVmFreergList (mm : Mm) (vmaid : Int) (rg : VmRg) : Option Mm :=
  (getVmaByNum mm vmaid).map (fun _ => mm.enlisted vmaid rg)

/-! ## Growing an area -/

def getVmAreaNodeAtBrk (mm : Mm) (vmaid size : Int) : VmRg :=
  let rgStart := (mm.vma vmaid).sbrk
  { vmaid := vmaid, rgStart := rgStart, rgEnd := if vmaid = 0 then ulong (rgStart + size) else ulong (rgStart - size) }

def overlaps (vma : VmArea) (vmastart vmaend : Int) : Bool :=
  decide (vma.vmStart ≠ vma.vmEnd) &&
  decide (int32 (int32 (int32 vma.vmStart - vmastart) * int32 (vmaend - int32 vma.vmEnd)) ≥ 0) &&
  decide (ulong vmaend ≠ vma.vmEnd)

/-- `validate_overlap_vm_area`: the walk along the areas passes over the growing one. -/
def validateOverlapVmArea (mm : Mm) (vmaid vmastart vmaend : Int) : Int :=
  if vmaid ≠ 0 ∧ overlaps mm.vma0 vmastart vmaend then -1
  else if vmaid ≠ 1 ∧ overlaps mm.vma1 vmastart vmaend then -1
  else 0

def incAmt (mm : Mm) (vmaid incSz : Int) : Int :=
  let vma := mm.vma vmaid
  int32 (pagingPageAlignsz (ulong (if vmaid = 0 then incSz - (vma.vmEnd - vma.sbrk) else incSz - (vma.sbrk - vma.vmEnd))))

def incNumpage (mm : Mm) (vmaid incSz : Int) : Int := (incAmt mm vmaid incSz).tdiv 256

def newVmEnd (mm : Mm) (vmaid incSz : Int) : Int :=
  if vmaid = 0 then pagingPageAlignsz (ulong (mm.vma0.sbrk + incSz))
  else ulong (pagingPageAlignsz (ulong (mm.vma1.sbrk - incSz)) - 256)

def overlapRefused (mm : Mm) (vmaid incSz : Int) : Bool :=
  let area := getVmAreaNodeAtBrk mm vmaid incSz
  decide (validateOverlapVmArea mm vmaid (int32 area.rgStart) (int32 area.rgEnd) < 0)

def outOfVirtual (mm : Mm) (vmaid size : Int) : Bool :=
  let oldSbrk := int32 (mm.vma vmaid).sbrk
  if vmaid = 0 then decide (uint32 (int32 (oldSbrk + size)) > mm.vmemsz) else decide (int32 (oldSbrk - size) < 0)

def pastVmEnd (mm : Mm) (vmaid size : Int) : Bool :=
  let oldSbrk := int32 (mm.vma vmaid).sbrk
  if vmaid = 0 then decide (ulong (int32 (oldSbrk + size)) > (mm.vma vmaid).vmEnd)
  else decide (int32 (oldSbrk - size) < int32 (mm.vma vmaid).vmEnd)

/-- `__alloc`'s last part: the region at the break goes into the table and the break moves. -/
def commitRegion (mm : Mm) (vmaid : Int) (rgid : Nat) (size : Int) : Mm :=
  let oldSbrk := int32 (mm.vma vmaid).sbrk
  if vmaid = 0 then
    (mm.setSymrg rgid { vmaid := 0, rgStart := ulong oldSbrk, rgEnd := ulong (int32 (oldSbrk + size - 1)) }).setSbrk 0
      (ulong (int32 (oldSbrk + size)))
  else if uint32 oldSbrk = uint32 (mm.vmemsz - 1) then
    (mm.setSymrg rgid
      { vmaid := vmaid, rgStart := ulong oldSbrk, rgEnd := ulong (int32 (oldSbrk + 1 - size)) }).setSbrk vmaid
      (ulong (int32 (oldSbrk + 1 - size)))
  else
    (mm.setSymrg rgid
      { vmaid := vmaid, rgStart := ulong (int32 (oldSbrk - 1)), rgEnd := ulong (int32 (oldSbrk - size)) }).setSbrk vmaid
      (ulong (int32 (oldSbrk - size)))

/-! ## The free lists do not bear on growth -/

section Frame

variable (mm : Mm) (vmaid : Int)

@[simp] theorem Mm.vma_setVma (vma : VmArea) : (mm.setVma vmaid vma).vma vmaid = vma := by
  by_cases h : vmaid = 0 <;> simp [Mm.vma, Mm.setVma, h]

@[simp] theorem Mm.setVma_vma : mm.setVma vmaid (mm.vma vmaid) = mm := by
  by_cases h : vmaid = 0 <;> simp [Mm.vma, Mm.setVma, h]

@[simp] theorem getVmaByNum_setSymrg (i : Nat) (rg : VmRg) :
    getVmaByNum (mm.setSymrg i rg) vmaid = getVmaByNum mm vmaid := rfl

@[simp] theorem Mm.setVma_vmemsz (vma : VmArea) : (mm.setVma vmaid vma).vmemsz = mm.vmemsz := by
  by_cases h : vmaid = 0 <;> simp [Mm.setVma, h]

@[simp] theorem Mm.setFreerg_vmemsz (l : List VmRg) : (mm.setFreerg vmaid l).vmemsz = mm.vmemsz := by
  by_cases h : vmaid = 0 <;> simp [Mm.setFreerg, Mm.setVma, h]

@[simp] theorem Mm.setVmEnd_vmemsz (e : Int) : (mm.setVmEnd vmaid e).vmemsz = mm.vmemsz := by
  by_cases h : vmaid = 0 <;> simp [Mm.setVmEnd, Mm.setVma, h]

@[simp] theorem Mm.setFreerg_self : mm.setFreerg vmaid (mm.vma vmaid).vmFreergList = mm := mm.setVma_vma vmaid

@[simp] theorem outOfVirtual_setFreerg (l : List VmRg) (size : Int) :
    outOfVirtual (mm.setFreerg vmaid l) vmaid size = outOfVirtual mm vmaid size := by
  simp [outOfVirtual, Mm.setFreerg]

@[simp] theorem pastVmEnd_setFreerg (l : List VmRg) (size : Int) :
    pastVmEnd (mm.setFreerg vmaid l) vmaid size = pastVmEnd mm vmaid size := by
  simp [pastVmEnd, Mm.setFreerg]

@[simp] theorem overlapRefused_setFreerg (l : List VmRg) (size : Int) :
    overlapRefused (mm.setFreerg vmaid l) vmaid size = overlapRefused mm vmaid size := by
  by_cases h : vmaid = 0 <;>
    simp [overlapRefused, getVmAreaNodeAtBrk, validateOverlapVmArea, overlaps, Mm.setFreerg, Mm.vma, Mm.setVma, h]

@[simp] theorem incNumpage_setFreerg (l : List VmRg) (size : Int) :
    incNumpage (mm.setFreerg vmaid l) vmaid size = incNumpage mm vmaid size := by
  simp [incNumpage, incAmt, Mm.setFreerg]

@[simp] theorem newVmEnd_setFreerg (l : List VmRg) (size : Int) :
    newVmEnd (mm.setFreerg vmaid l) vmaid size = newVmEnd mm vmaid size := by
  by_cases h : vmaid = 0 <;> simp [newVmEnd, Mm.setFreerg, Mm.setVma, Mm.vma, h]

@[simp] theorem vmEnd_setFreerg (l : List VmRg) : ((mm.setFreerg vmaid l).vma vmaid).vmEnd = (mm.vma vmaid).vmEnd := by
  simp [Mm.setFreerg]

end Frame

end OsSim
