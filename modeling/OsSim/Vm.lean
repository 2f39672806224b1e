import OsSim.Paging
/-!
# Vm — the memory instructions (`src/mm-vm.c`)

`__alloc`, `__free`, `__read`, `__write` and the five functions the CPU calls.
-/
namespace OsSim

open Atomic Code

/-! ## `__alloc` -/

/-- `__alloc` brings in a page of a region it reuses; the page's frame, or `none` for the return of -3000. -/
def reuseSwapIn (r : PteRef) (currentPte : Pte) : Code (Option Nat) := do
  let tgtfpn := currentPte.fpn
  let vic ← findLruVictimPage
  match ← getFreefp .mswp with
  | none => do
    note .outOfSwap
    pure none
  | some swpfpn => do
    let vic ← theVictim vic
    swapCpPage .mram vic.fpn .mswp swpfpn
    setSwap vic.pte indexOfActiveMswp swpfpn
    swapCpPage .mswp tgtfpn .mram vic.fpn
    let _ ← setFpn r vic.fpn
    addLruPage r
    putFreefp .mswp tgtfpn
    note (.replaced r currentPte)
    note (.reference r)
    pure (some vic.fpn)

/-- One turn of `__alloc`'s loop over the pages of a region it reuses; `false` is the return of -3000. -/
def reusePage (r : PteRef) : Code Bool := do
  let currentPte ← readPte r
  match ← (if currentPte.present then pure (some currentPte.fpn) else reuseSwapIn r currentPte) with
  | none => pure false
  | some fpn => do
    updateLruLst (.copy currentPte)
    note (.reused r currentPte fpn)
    note (.reference r)
    pure true

/-- The loop, from page `i` to page `last`, upwards on the stack and downwards on the heap.  The bound is an
`unsigned long`, so the counter is compared as one; a counter outside the page table ends the run. -/
def reuseLoop (p : Pid) (vmaid last : Int) : Nat → Int → Code Int
  | 0, _ => fault .outOfFuel
  | fuel + 1, i =>
    match (if vmaid = 0 then decide (ulong i ≤ last) else decide (last ≤ ulong i)) with
    | false => pure 0
    | true => do
      let r ← pgdAt p i
      match ← reusePage r with
      | false => pure (-3000)
      | true => reuseLoop p vmaid last fuel (if vmaid = 0 then i + 1 else i - 1)

def symrgAt (rgid : Int) : Code Nat :=
  if 0 ≤ rgid ∧ rgid < pagingMaxSymtblSz then pure rgid.toNat else fault .outOfBounds

def incVmaLimit (p : Pid) (vmaid incSz : Int) : Code Int := do
  let mm ← getMm p
  let incnumpage := incNumpage mm vmaid incSz
  let oldEnd := int32 (mm.vma vmaid).vmEnd
  if overlapRefused mm vmaid incSz then pure (-1)
  else do
    setMm p (mm.setVmEnd vmaid (newVmEnd mm vmaid incSz))
    let ret ← vmMapRam p vmaid oldEnd incnumpage
    if ret < 0 then do
      let mm ← getMm p
      let vmEnd := (mm.vma vmaid).vmEnd
      setMm p (mm.setVmEnd vmaid (if vmaid = 0 then ulong (vmEnd - incSz) else ulong (vmEnd + incSz)))
      pure (-1)
    else pure 0

/-- `__alloc`, the part for a request that no free region has room for. -/
def allocAtBrk (p : Pid) (vmaid rgid size : Int) : Code Int := do
  let mm ← getMm p
  if outOfVirtual mm vmaid size then pure (-1)
  else do
    let incLimitRet ← if pastVmEnd mm vmaid size then incVmaLimit p vmaid size else pure 0
    if incLimitRet < 0 then pure (-1)
    else do
      let i ← symrgAt rgid
      let mm ← getMm p
      setMm p (commitRegion mm vmaid i size)
      pure 0

/-- `__alloc`.  `fuel` bounds the loop of `get_free_vmrg_area`, which need not end. -/
def alloc (fuel : Nat) (p : Pid) (vmaid rgid size : Int) : Code Int := do
  let mm ← getMm p
  match getFreeVmrgArea fuel vmaid size (mm.vma vmaid).vmFreergList with
  | none => fault .outOfFuel
  | some (l, some rgnode) => do
    let i ← symrgAt rgid
    setMm p ((mm.setFreerg vmaid l).setSymrg i rgnode)
    reuseLoop p vmaid (rgnode.rgEnd / 256) (pagingMaxPgn + 1) (int32 (rgnode.rgStart / 256))
  | some (l, none) => do
    setMm p (mm.setFreerg vmaid l)
    allocAtBrk p vmaid rgid size

/-! ## `__free`, `__read`, `__write` -/

/-- `get_symrg_byid` and the first use of what it returns: a null pointer for an id it rejects, and for the id
`PAGING_MAX_SYMTBL_SZ`, which it lets through, an element past the table. -/
def getSymrgByid (mm : Mm) (rgid : Int) : Code (Nat × VmRg) :=
  if rgid < 0 ∨ rgid > pagingMaxSymtblSz then fault .nullPointer
  else if rgid = pagingMaxSymtblSz then fault .outOfBounds
  else pure (rgid.toNat, mm.symrgtbl rgid.toNat)

def free (p : Pid) (rgid : Int) : Code Int := do
  let mm ← getMm p
  if rgid < 0 ∨ rgid > pagingMaxSymtblSz then pure (-1)
  else do
    let (i, rgnode) ← getSymrgByid mm rgid
    if rgnode.rgStart = rgnode.rgEnd then pure (-1)
    else do
      Prog.loop (fun k => do let _ ← pgSetval p (int32 (rgnode.rgStart + k)) 0 rgnode.vmaid) 0
        (rgnode.rgEnd - rgnode.rgStart).toNat
      let mm ← getMm p
      match enlistVmFreergList (mm.setSymrg i { rgnode with rgStart := 0, rgEnd := 0 }) rgnode.vmaid rgnode with
      | none => fault .nullPointer
      | some mm => do
        setMm p mm
        pure 0

def rgAddr (rg : VmRg) (offset : Int) : Int :=
  if rg.vmaid = 0 then ulong (rg.rgStart + offset) else ulong (rg.rgStart - offset)

def outOfRg (rg : VmRg) (offset : Int) : Bool :=
  if rg.vmaid = 0 then decide (rgAddr rg offset > rg.rgEnd) else decide (rgAddr rg offset < rg.rgEnd)

/-- The checks `__read` and `__write` start with: the region, or `none` for the return of -1. -/
def accessRg (p : Pid) (rgid offset : Int) : Code (Option VmRg) := do
  let mm ← getMm p
  let (_, currg) ← getSymrgByid mm rgid
  if getVmaByNum mm currg.vmaid = none then pure none
  else if currg.rgStart = currg.rgEnd then pure none
  else if outOfRg currg offset then pure none
  else pure (some currg)

/-- `__read`: the status and the byte, which a failure to bring the page in leaves unset. -/
def read (p : Pid) (rgid offset : Int) : Code (Int × Option Byte) := do
  match ← accessRg p rgid offset with
  | none => pure (-1, none)
  | some currg => do
    let data ← pgGetval p (int32 (rgAddr currg offset)) currg.vmaid
    updateLruLst (.entry ⟨p, pagingPgn (rgAddr currg offset)⟩)
    pure (0, data)

def write (p : Pid) (rgid offset : Int) (value : Byte) : Code Int := do
  match ← accessRg p rgid offset with
  | none => pure (-1)
  | some currg => do
    let _ ← pgSetval p (int32 (rgAddr currg offset)) value (if currg.vmaid = 0 then 0 else 1)
    updateLruLst (.entry ⟨p, pagingPgn (rgAddr currg offset)⟩)
    pure 0

/-! ## The calls -/

inductive Call where
  | pgalloc (size regIndex : BitVec 32)
  | pgmalloc (size regIndex : BitVec 32)
  | pgfreeData (regIndex : BitVec 32)
  | pgread (source offset : BitVec 32)
  | pgwrite (data : Byte) (destination offset : BitVec 32)
  deriving DecidableEq

/-- A call's status, and the byte `__read` delivered to `pgread`. -/
abbrev Ret := Int × Option Byte

def Call.code (fuel : Nat) (p : Pid) : Call → Code Ret
  | .pgalloc size regIndex => do return (← alloc fuel p 0 regIndex.toInt size.toInt, none)
  | .pgmalloc size regIndex => do return (← alloc fuel p 1 regIndex.toInt size.toInt, none)
  | .pgfreeData regIndex => do return (← free p regIndex.toInt, none)
  | .pgread source offset => read p source.toInt offset.toInt
  | .pgwrite data destination offset => do return (← write p destination.toInt offset.toInt data, none)

def Call.request : Call → Option (Int × Int × Int)
  | .pgalloc size regIndex => some (0, regIndex.toInt, size.toInt)
  | .pgmalloc size regIndex => some (1, regIndex.toInt, size.toInt)
  | _ => none

theorem request_vmaid {c : Call} {vmaid rgid size : Int} (h : c.request = some (vmaid, rgid, size)) :
    vmaid = 0 ∨ vmaid = 1 := by
  cases c <;> cases h
  · exact Or.inl rfl
  · exact Or.inr rfl

end OsSim
