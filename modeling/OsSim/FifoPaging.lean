import OsSim.Vm
/-!
# FifoPaging — the build without `LRU` (`src/mm.c`, `src/mm-vm.c`)

Where `LRU` is not defined, each process has a list of its pages in RAM, `fifo_pgn`, and the page mapped or brought
in first is the first to go.  Most of the text is that of `Paging` and `Vm`: what both builds have is taken from
there, and what stands in the `#else` branches, or calls it, is written out here.  The `lru` list and the history of
`Machine` are the other build's, and no program here touches them.
-/
namespace OsSim

open Atomic Code

namespace FifoBuild

inductive Event where
  /-- The page goes out to the swap frame; these were its bytes. -/
  | evicted (r : PteRef) (swpfpn : Nat) (bytes : List (Option Byte))
  /-- `pg_getpage` has brought the page back into RAM. -/
  | broughtIn (r : PteRef)
  deriving DecidableEq

/-- Each process's `fifo_pgn`, from its head, and the history. -/
structure Fifo where
  fifoPgn : Pid → List Nat
  trace : List Event

inductive FifoOp where
  | findVictimPage (p : Pid)
  | enlistPgnNode (p : Pid) (pgn : Nat)
  /-- For the history: the page is about to be copied to the swap frame. -/
  | noteEvicted (r : PteRef) (swpfpn : Nat)
  | note (e : Event)

@[reducible] def FifoOp.Res : FifoOp → Type
  | .findVictimPage _ => Option Nat
  | _ => Unit

abbrev fifoSig : Sig := ⟨FifoOp, FifoOp.Res⟩

abbrev FifoCode := Prog (memSig.sum fifoSig)

instance : MonadLift Code FifoCode := ⟨Prog.inl⟩

/-- `find_victim_page`: the walk to the last node, which is taken off; `none` is the return of -1. -/
def lastPage : List Nat → Option (Nat × List Nat)
  | [] => none
  | [pgn] => some (pgn, [])
  | pgn :: rest => (lastPage rest).map (fun v => (v.1, pgn :: v.2))

theorem lastPage_eq : ∀ (l : List Nat) (v : Nat), lastPage (l ++ [v]) = some (v, l)
  | [], v => rfl
  | [a], v => rfl
  | a :: b :: l, v => by
    have ih := lastPage_eq (b :: l) v
    simp only [List.cons_append] at ih ⊢
    rw [lastPage]
    · rw [ih]
      rfl
    · exact fun h => by cases h

def pageBytes (m : Machine) (r : PteRef) : List (Option Byte) :=
  (List.range 256).map (fun j =>
    if (m.pgd r).present then some (m.mram.page (m.pgd r).fpn j)
    else if (m.pgd r).swapped then some (m.mswp.page (m.pgd r).swpoff j)
    else none)

def fifoStep : Interp fifoSig (Machine × Fifo) Fault
  | .findVictimPage p, (m, f) =>
    match lastPage (f.fifoPgn p) with
    | none => .ok ((m, f), none)
    | some (pgn, rest) => .ok ((m, { f with fifoPgn := Function.update f.fifoPgn p rest }), some pgn)
  | .enlistPgnNode p pgn, (m, f) =>
    .ok ((m, { f with fifoPgn := Function.update f.fifoPgn p (pgn :: f.fifoPgn p) }), ())
  | .noteEvicted r swpfpn, (m, f) => .ok ((m, { f with trace := f.trace ++ [.evicted r swpfpn (pageBytes m r)] }), ())
  | .note e, (m, f) => .ok ((m, { f with trace := f.trace ++ [e] }), ())

def findVictimPage (p : Pid) : FifoCode (Option Nat) := .op (.inr (.findVictimPage p)) .ret
def enlistPgnNode (p : Pid) (pgn : Nat) : FifoCode Unit := .op (.inr (.enlistPgnNode p pgn)) .ret
def noteEvicted (r : PteRef) (swpfpn : Nat) : FifoCode Unit := .op (.inr (.noteEvicted r swpfpn)) .ret
def note (e : Event) : FifoCode Unit := .op (.inr (.note e)) .ret

/-! ## Replacing a page -/

/-- A frame of the active swap device; `none` would be the end of a search of the others without success. -/
def freeSwapFrame : Code (Option Nat) := do
  match ← getFreefp .mswp with
  | some swpfpn => pure (some swpfpn)
  | none => scanMswp

/-- The victim is copied to its swap frame, and its entry updated with the swap offset given. -/
def swapOut (vic : PteRef) (vicfpn swpfpn swpoff : Nat) : FifoCode Unit := do
  noteEvicted vic swpfpn
  swapCpPage .mram vicfpn .mswp swpfpn
  setSwap vic indexOfActiveMswp swpoff

/-- A page of the process goes out and leaves its RAM frame, or the return of -1 or -3000.  `alloc_pages_range` and
`pg_getpage` have the same text here but for `swpoff`, what each makes of the swap frame when it writes the entry. -/
def replacePage (p : Pid) (swpoff : Nat → Nat) : FifoCode (Except Int Nat) := do
  match ← findVictimPage p with
  | none => pure (.error (-1))
  | some vicpgn => do
    let vicpte ← readPte ⟨p, vicpgn⟩
    match ← freeSwapFrame with
    | none => pure (.error (-3000))
    | some swpfpn => do
      swapOut ⟨p, vicpgn⟩ vicpte.fpn swpfpn (swpoff swpfpn)
      pure (.ok vicpte.fpn)

/-! ## `pg_getpage` -/

/-- `(struct memphy_struct *)&caller->mswp[swptyp]`: the elements of `caller->mswp` have a pointer's size, so of its
addresses only the first is taken for a device. -/
def mswpAt (swptyp : Nat) : Code Dev := if swptyp = 0 then pure .mswp else fault .wildPointer

/-- `pg_getpage` finds a RAM frame.  Without a victim it returns with `MEM_in_use` locked. -/
def pgFrame (p : Pid) : FifoCode (Option Nat) := do
  match ← getFreefp .mram with
  | some vicfpn => pure (some vicfpn)
  | none => do
    match ← replacePage p (fun swpfpn => swpfpn) with
    | .ok vicfpn => pure (some vicfpn)
    | .error ret => do
      if ret = -3000 then unlock .mmVm
      pure none

/-- `pg_getpage`'s branch for a page that is not present, with the entry it has read. -/
def pgBringIn (r : PteRef) (pte : Pte) : FifoCode (Option Nat) := do
  match ← pgFrame r.pid with
  | none => pure none
  | some vicfpn => do
    let dev ← mswpAt pte.swptyp
    swapCpPage dev pte.swpoff .mram vicfpn
    putFreefp dev pte.swpoff
    let _ ← setFpn r vicfpn
    enlistPgnNode r.pid r.pgn
    note (.broughtIn r)
    unlock .mmVm
    pure (some (pteSetFpn pte vicfpn).fpn)

def pgGetpage (r : PteRef) : FifoCode (Option Nat) := do
  lock .mmVm
  let pte ← readPte r
  if pte.present then do
    unlock .mmVm
    pure (some pte.fpn)
  else pgBringIn r pte

def pgSetval (p : Pid) (addr : Int) (value : Byte) (vmaid : Int) : FifoCode Int := do
  let r : PteRef := ⟨p, pagingPgn addr⟩
  match ← pgGetpage r with
  | none => pure (-1)
  | some fpn => do
    store r (phyaddr vmaid fpn (pagingOffst addr)) value
    pure 0

/-- `pg_getval`: the value read, or `none` for the return of -1, which leaves the output unset. -/
def pgGetval (p : Pid) (addr : Int) (vmaid : Int) : FifoCode (Option Byte) := do
  let r : PteRef := ⟨p, pagingPgn addr⟩
  match ← pgGetpage r with
  | none => pure none
  | some fpn => load r (phyaddr vmaid fpn (pagingOffst addr))

/-! ## Mapping pages -/

/-- `alloc_pages_range` with so many frames still to find and the list found so far; `none` is the return of -1 or
-3000. -/
def allocPagesRange (p : Pid) : Nat → List Nat → FifoCode (Option (List Nat))
  | 0, frmLst => pure (some frmLst)
  | n + 1, frmLst => do
    match ← getFreefp .mram with
    | some fpn => allocPagesRange p n (fpn :: frmLst)
    | none => do
      match ← replacePage p (fun swpfpn => swpfpn * pagingPagesz) with
      | .error _ => pure none
      | .ok vicfpn => allocPagesRange p n (vicfpn :: frmLst)

/-- The loop of `vmap_page_range`, with `pgit` + 1 turns to go. -/
def vmapLoop (p : Pid) (vmaid pgn : Int) : Nat → List Nat → FifoCode Int
  | 0, _ => pure 0
  | _ + 1, [] => pure (-1)
  | pgit + 1, fpn :: rest => do
    let r ← pgdAt p (if vmaid = 0 then pgn + pgit else pgn - pgit)
    let _ ← setFpn r fpn
    enlistPgnNode p r.pgn
    vmapLoop p vmaid pgn pgit rest

def vmapPageRange (p : Pid) (vmaid addr : Int) (pgnum : Int) (frames : List Nat) : FifoCode Int :=
  vmapLoop p vmaid (pagingPgn addr) pgnum.toNat frames

def vmMapRam (p : Pid) (vmaid mapstart incpgnum : Int) : FifoCode Int := do
  lock .mm
  match ← allocPagesRange p incpgnum.toNat [] with
  | none => do
    unlock .mm
    pure (-1)
  | some frmLst => do
    let mm ← getMm p
    let addr :=
      if vmaid = 0 then mapstart
      else if uint32 mapstart = uint32 (mm.vmemsz - 1) then mapstart else int32 (mapstart - 1)
    let _ ← vmapPageRange p vmaid addr incpgnum frmLst
    unlock .mm
    pure 0

/-! ## The memory instructions -/

def incVmaLimit (p : Pid) (vmaid incSz : Int) : FifoCode Int := do
  let mm ← getMm p
  let incnumpage := incNumpage mm vmaid incSz
  let oldEnd := int32 (mm.vma vmaid).vmEnd
  if overlapRefused mm vmaid incSz then pure (-1)
  else do
    setMm p (mm.setVmEnd vmaid (newVmEnd mm vmaid incSz))
    let ret ← vmMapRam p vmaid oldEnd incnumpage
    if ret < 0 then do
      let mm ← getMm p
      let vmEnd := (mm.vma vmaid).vmEnd
      setMm p (mm.setVmEnd vmaid (if vmaid = 0 then ulong (vmEnd - incSz) else ulong (vmEnd + incSz)))
      pure (-1)
    else pure 0

/-- `__alloc`, the part for a request that no free region has room for. -/
def allocAtBrk (p : Pid) (vmaid rgid size : Int) : FifoCode Int := do
  let mm ← getMm p
  if outOfVirtual mm vmaid size then pure (-1)
  else do
    let incLimitRet ← if pastVmEnd mm vmaid size then incVmaLimit p vmaid size else pure 0
    if incLimitRet < 0 then pure (-1)
    else do
      let i ← symrgAt rgid
      let mm ← getMm p
      setMm p (commitRegion mm vmaid i size)
      pure 0

/-- `__alloc`: a region reused is entered in the table, and no page of it is touched. -/
def alloc (fuel : Nat) (p : Pid) (vmaid rgid size : Int) : FifoCode Int := do
  let mm ← getMm p
  match getFreeVmrgArea fuel vmaid size (mm.vma vmaid).vmFreergList with
  | none => fault .outOfFuel
  | some (l, some rgnode) => do
    let i ← symrgAt rgid
    setMm p ((mm.setFreerg vmaid l).setSymrg i rgnode)
    pure 0
  | some (l, none) => do
    setMm p (mm.setFreerg vmaid l)
    allocAtBrk p vmaid rgid size

def free (p : Pid) (rgid : Int) : FifoCode Int := do
  let mm ← getMm p
  if rgid < 0 ∨ rgid > pagingMaxSymtblSz then pure (-1)
  else do
    let (i, rgnode) ← getSymrgByid mm rgid
    if rgnode.rgStart = rgnode.rgEnd then pure (-1)
    else do
      Prog.loop (fun k => do let _ ← pgSetval p (int32 (rgnode.rgStart + k)) 0 rgnode.vmaid) 0
        (rgnode.rgEnd - rgnode.rgStart).toNat
      let mm ← getMm p
      match enlistVmFreergList (mm.setSymrg i { rgnode with rgStart := 0, rgEnd := 0 }) rgnode.vmaid rgnode with
      | none => fault .nullPointer
      | some mm => do
        setMm p mm
        pure 0

/-- `__read`: the status and the byte, which a failure to bring the page in leaves unset. -/
def read (p : Pid) (rgid offset : Int) : FifoCode (Int × Option Byte) := do
  match ← accessRg p rgid offset with
  | none => pure (-1, none)
  | some currg => do
    let data ← pgGetval p (int32 (rgAddr currg offset)) currg.vmaid
    pure (0, data)

def write (p : Pid) (rgid offset : Int) (value : Byte) : FifoCode Int := do
  match ← accessRg p rgid offset with
  | none => pure (-1)
  | some currg => do
    let _ ← pgSetval p (int32 (rgAddr currg offset)) value (if currg.vmaid = 0 then 0 else 1)
    pure 0

def callCode (fuel : Nat) (p : Pid) : Call → FifoCode Ret
  | .pgalloc size regIndex => do return (← alloc fuel p 0 regIndex.toInt size.toInt, none)
  | .pgmalloc size regIndex => do return (← alloc fuel p 1 regIndex.toInt size.toInt, none)
  | .pgfreeData regIndex => do return (← free p regIndex.toInt, none)
  | .pgread source offset => read p source.toInt offset.toInt
  | .pgwrite data destination offset => do return (← write p destination.toInt offset.toInt data, none)

end FifoBuild

end OsSim
