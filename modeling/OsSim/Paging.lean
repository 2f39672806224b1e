import OsSim.Machine
/-!
# Paging — bringing pages into RAM and out (`src/mm.c`, `src/mm-vm.c`)

The build's default: `LRU` and `SYNC` defined.
-/
namespace OsSim

open Atomic Code

/-- `index_of_active_mswp`: the search along `caller->mswp` ends at its first test, `active_mswp` being `&mswp[0]`. -/
def indexOfActiveMswp : Nat := 0

def theVictim : Option LruNode → Code LruNode
  | some vic => pure vic
  | none => fault .noVictim

def swapCpCell (src : Dev) (srcfpn : Nat) (dst : Dev) (dstfpn cellidx : Nat) : Code Unit := do
  let addrsrc := srcfpn * pagingPagesz + cellidx
  let addrdst := dstfpn * pagingPagesz + cellidx
  match ← read src addrsrc with
  | some data => write dst addrdst data
  | none => fault .uninitialised

def swapCpPage (src : Dev) (srcfpn : Nat) (dst : Dev) (dstfpn : Nat) : Code Unit :=
  Prog.loop (swapCpCell src srcfpn dst dstfpn) 0 pagingPagesz

/-! ## `pg_getpage` -/

/-- `pg_getpage`'s replacement when RAM has no free frame; `false` is the return of -3000. -/
def pgReplace (r : PteRef) (pte : Pte) : Code Bool := do
  let tgtfpn := pte.fpn
  let vic ← findLruVictimPage
  match ← getFreefp .mswp with
  | none => do
    note .outOfSwap
    unlock .mmVm
    pure false
  | some swpfpn => do
    let vic ← theVictim vic
    swapCpPage .mram vic.fpn .mswp swpfpn
    swapCpPage .mswp tgtfpn .mram vic.fpn
    setSwap vic.pte indexOfActiveMswp swpfpn
    let _ ← setFpn r vic.fpn
    putFreefp .mswp tgtfpn
    note (.replaced r pte)
    pure true

/-- `pg_getpage`'s branch for a page that is not present. -/
def pgBringIn (r : PteRef) (pte : Pte) : Code Bool := do
  match ← getFreefp .mram with
  | some fpnTemp => do
    let tgtfpn := pte.fpn
    swapCpPage .mswp tgtfpn .mram fpnTemp
    let _ ← setFpn r fpnTemp
    note (.filled r pte)
    pure true
  | none => pgReplace r pte

/-- `pg_getpage`: the frame, or `none` for the return of -3000. -/
def pgGetpage (r : PteRef) : Code (Option Nat) := do
  lock .mmVm
  let pte ← readPte r
  let online ← if pte.present then pure true else pgBringIn r pte
  if online then do
    addLruPage r
    note (.reference r)
    let pte ← readPte r
    unlock .mmVm
    pure (some pte.fpn)
  else pure none

/-- The RAM address of a byte of a page: a heap page is filled from its top down. -/
def phyaddr (vmaid : Int) (fpn off : Nat) : Nat :=
  if vmaid = 0 then fpn <<< pagingAddrFpnLobit + off
  else fpn <<< pagingAddrFpnLobit + (pagingPagesz - 1 - off)

def inPage (vmaid : Int) (off : Nat) : Nat := if vmaid = 0 then off else 255 - off

theorem phyaddr_eq (vmaid : Int) (fpn off : Nat) : phyaddr vmaid fpn off = fpn * 256 + inPage vmaid off := by
  have hshift : fpn <<< pagingAddrFpnLobit = fpn * 256 := by
    rw [show pagingAddrFpnLobit = 8 by decide, Nat.shiftLeft_eq]
  unfold phyaddr inPage
  rw [hshift]
  split <;> rfl

theorem inPage_lt (vmaid : Int) {off : Nat} (hoff : off < 256) : inPage vmaid off < 256 := by
  unfold inPage
  split <;> omega

theorem inPage_area (vmaid : Int) (off : Nat) : inPage (if vmaid = 0 then 0 else 1) off = inPage vmaid off := by
  unfold inPage
  split
  · rw [if_pos rfl]
  · rw [if_neg (by decide)]

def pgSetval (p : Pid) (addr : Int) (value : Byte) (vmaid : Int) : Code Int := do
  let r : PteRef := ⟨p, pagingPgn addr⟩
  match ← pgGetpage r with
  | none => pure (-1)
  | some fpn => do
    store r (phyaddr vmaid fpn (pagingOffst addr)) value
    pure 0

/-- `pg_getval`: the value read, or `none` for the return of -1, which leaves the output unset. -/
def pgGetval (p : Pid) (addr : Int) (vmaid : Int) : Code (Option Byte) := do
  let r : PteRef := ⟨p, pagingPgn addr⟩
  match ← pgGetpage r with
  | none => pure none
  | some fpn => load r (phyaddr vmaid fpn (pagingOffst addr))

/-! ## `vm_map_ram` -/

/-- `alloc_pages_range` with so many frames still to find and the list found so far.  `none` is the return of -3000,
which only a search of the other swap devices comes to. -/
def allocPagesRange : Nat → List Nat → Code (Option (List Nat))
  | 0, frmLst => pure (some frmLst)
  | n + 1, frmLst => do
    match ← getFreefp .mram with
    | some fpn => allocPagesRange n (fpn :: frmLst)
    | none => do
      let vic ← findLruVictimPage
      match ← getFreefp .mswp with
      | none => scanMswp
      | some swpfpn => do
        let vic ← theVictim vic
        swapCpPage .mram vic.fpn .mswp swpfpn
        setSwap vic.pte indexOfActiveMswp swpfpn
        allocPagesRange n (vic.fpn :: frmLst)

def pgdAt (p : Pid) (i : Int) : Code PteRef :=
  if 0 ≤ i ∧ i < pagingMaxPgn then pure ⟨p, i.toNat⟩ else fault .outOfBounds

/-- The loop of `vmap_page_range`, with `pgit` + 1 turns to go. -/
def vmapLoop (p : Pid) (vmaid pgn : Int) : Nat → List Nat → Code Int
  | 0, _ => pure 0
  | _ + 1, [] => pure (-1)
  | pgit + 1, fpn :: rest => do
    let r ← pgdAt p (if vmaid = 0 then pgn + pgit else pgn - pgit)
    let old ← setFpn r fpn
    addLruPage r
    note (.mapped r vmaid old)
    note (.reference r)
    vmapLoop p vmaid pgn pgit rest

def vmapPageRange (p : Pid) (vmaid addr : Int) (pgnum : Int) (frames : List Nat) : Code Int :=
  vmapLoop p vmaid (pagingPgn addr) pgnum.toNat frames

def vmMapRam (p : Pid) (vmaid mapstart incpgnum : Int) : Code Int := do
  lock .mm
  note (.mapRam incpgnum)
  match ← allocPagesRange incpgnum.toNat [] with
  | none => do
    unlock .mm
    pure (-1)
  | some frmLst => do
    let mm ← getMm p
    let addr :=
      if vmaid = 0 then mapstart
      else if uint32 mapstart = uint32 (mm.vmemsz - 1) then mapstart else int32 (mapstart - 1)
    let _ ← vmapPageRange p vmaid addr incpgnum frmLst
    unlock .mm
    pure 0

end OsSim
