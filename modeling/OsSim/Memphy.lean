import Mathlib.Logic.Function.Basic
import OsSim.Pte
/-!
# Memphy — the physical devices (`src/mm-memphy.c`)

RAM and the swap devices are one structure: the storage, its size, the access mode and the list of free frames.  The
devices of the simulation are random access (`rdmflg` set by `os.c`); on a sequential device the two access functions
return -1, since their mode test is the wrong way round, so the cursor is never reached.

A call that reads or writes outside the storage, or uses a variable before it is set, has no result (`Fault`).
-/
namespace OsSim

abbrev Byte := BitVec 8

/-- Why a call has no result: undefined behaviour of the C text, or a loop that has not ended yet. -/
inductive Fault where
  /-- An access outside an array or a device's storage. -/
  | outOfBounds
  /-- The outputs of `find_LRU_victim_page` used although it returned -1. -/
  | noVictim
  /-- A local variable used before it is set. -/
  | uninitialised
  /-- A null pointer followed. -/
  | nullPointer
  /-- Bytes of `mswp` followed as a pointer: `caller->mswp` is the array of devices cast to an array of pointers. -/
  | wildPointer
  /-- The loop of `get_free_vmrg_area` has not ended within the given number of turns. -/
  | outOfFuel
  deriving DecidableEq, Repr

structure Memphy where
  storage : Nat → Byte
  maxsz : Nat
  rdmflg : Bool
  freeFpList : List Nat

/-- `MEMPHY_read`: `none` is the return of -1, which leaves the output unset. -/
def memphyRead (mp : Memphy) (addr : Nat) : Except Fault (Option Byte) :=
  if mp.rdmflg then
    if addr < mp.maxsz then .ok (some (mp.storage addr)) else .error .outOfBounds
  else .ok none

def memphyWrite (mp : Memphy) (addr : Nat) (data : Byte) : Except Fault Memphy :=
  if mp.rdmflg then
    if addr < mp.maxsz then .ok { mp with storage := Function.update mp.storage addr data }
    else .error .outOfBounds
  else .ok mp

/-- `MEMPHY_get_freefp`: `none` is the return of -1. -/
def memphyGetFreefp (mp : Memphy) : Memphy × Option Nat :=
  match mp.freeFpList with
  | [] => (mp, none)
  | fp :: rest => ({ mp with freeFpList := rest }, some fp)

def memphyPutFreefp (mp : Memphy) (fpn : Nat) : Memphy := { mp with freeFpList := fpn :: mp.freeFpList }

/-- `MEMPHY_format`.  The link of the first node is set only by the loop that adds the second, so on a device of one
frame the list goes on with whatever `malloc` left there (`junk`). -/
def memphyFormat (mp : Memphy) (pagesz : Nat) (junk : List Nat) : Memphy :=
  match mp.maxsz / pagesz with
  | 0 => mp
  | 1 => { mp with freeFpList := 0 :: junk }
  | numfp => { mp with freeFpList := List.range numfp }

/-- `init_memphy`, with the content and the list pointer the allocation came with. -/
def initMemphy (bytes : Nat → Byte) (junk : List Nat) (maxSize : Nat) (randomflg : Int) : Memphy :=
  memphyFormat { storage := bytes, maxsz := maxSize, rdmflg := randomflg != 0, freeFpList := junk } pagingPagesz junk

/-! ## Pages of a device -/

def Memphy.page (mp : Memphy) (fpn : Nat) : Nat → Byte := fun j => mp.storage (fpn * 256 + j)

def Memphy.paste (mp : Memphy) (fpn : Nat) (bytes : Nat → Byte) : Memphy :=
  { mp with storage := fun a => if a / 256 = fpn then bytes (a % 256) else mp.storage a }

@[simp] theorem Memphy.paste_maxsz (mp : Memphy) (f : Nat) (b : Nat → Byte) : (mp.paste f b).maxsz = mp.maxsz := rfl
@[simp] theorem Memphy.paste_rdmflg (mp : Memphy) (f : Nat) (b : Nat → Byte) : (mp.paste f b).rdmflg = mp.rdmflg := rfl
@[simp] theorem Memphy.paste_freeFpList (mp : Memphy) (f : Nat) (b : Nat → Byte) :
    (mp.paste f b).freeFpList = mp.freeFpList := rfl

theorem Memphy.page_paste (mp : Memphy) (f g : Nat) (b : Nat → Byte) {j : Nat} (hj : j < 256) :
    (mp.paste f b).page g j = if g = f then b j else mp.page g j := by
  have h1 : (g * 256 + j) / 256 = g := by omega
  have h2 : (g * 256 + j) % 256 = j := by omega
  simp [Memphy.page, Memphy.paste, h1, h2]

theorem memphyWrite_freeFpList {mp mp' : Memphy} {a : Nat} {v : Byte} (h : memphyWrite mp a v = .ok mp') :
    mp'.freeFpList = mp.freeFpList := by
  unfold memphyWrite at h
  split at h
  · split at h
    · cases h; rfl
    · cases h
  · cases h; rfl

theorem memphyRead_error {mp : Memphy} {a : Nat} {e : Fault} (h : memphyRead mp a = .error e) : e = .outOfBounds := by
  unfold memphyRead at h
  split at h
  · split at h
    · cases h
    · cases h; rfl
  · cases h

theorem memphyWrite_error {mp : Memphy} {a : Nat} {v : Byte} {e : Fault} (h : memphyWrite mp a v = .error e) :
    e = .outOfBounds := by
  unfold memphyWrite at h
  split at h
  · split at h
    · cases h
    · cases h; rfl
  · cases h

theorem memphyRead_ok {mp : Memphy} {a : Nat} {b : Byte} (h : memphyRead mp a = .ok (some b)) :
    mp.rdmflg = true ∧ a < mp.maxsz ∧ b = mp.storage a := by
  unfold memphyRead at h
  split at h
  · rename_i hr
    split at h
    · rename_i ha
      cases h
      exact ⟨hr, ha, rfl⟩
    · cases h
  · cases h

end OsSim
