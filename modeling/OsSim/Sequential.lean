import Mathlib.Data.List.Forall2
import OsSim.Memphy
/-!
# Sequential — the two access modes of a device (`src/mm-memphy.c`)

Here a device has all its fields: the cursor that a sequential device moves to the address before each access, and the
mutex that each call takes.  `MEMPHY_read` and `MEMPHY_write` take the mutex and hand a sequential device on to
`MEMPHY_seq_read` and `MEMPHY_seq_write`, which release it on every path.  Those two refuse a device whose `rdmflg` is
not set ("not compatible mode for sequential read"), which is every device they are handed: the test is the wrong way
round.  So a sequential device answers -1 to every call, reads and writes nothing, and never moves its cursor.

What the other modules say of `memphyRead` and `memphyWrite` is what these functions do from one call to the next.
-/
namespace OsSim

structure MemphyCsr extends Memphy where
  cursor : Int
  locked : Bool

inductive AccessFault where
  /-- The mutex is locked by the thread that holds it already. -/
  | deadlock
  /-- The mutex is unlocked by a thread that does not hold it. -/
  | notHeld
  | outOfBounds
  deriving DecidableEq, Repr

structure Answer where
  status : Int
  value : Option Byte
  deriving DecidableEq, Repr

namespace MemphyCsr

variable (mp : MemphyCsr)

def mutexLock : Except AccessFault MemphyCsr :=
  if mp.locked then .error .deadlock else .ok { mp with locked := true }

def mutexUnlock : Except AccessFault MemphyCsr :=
  if mp.locked then .ok { mp with locked := false } else .error .notHeld

/-- `mp->storage[addr]` -/
def cell (addr : Nat) : Except AccessFault Byte :=
  if addr < mp.maxsz then .ok (mp.storage addr) else .error .outOfBounds

def setCell (addr : Nat) (data : Byte) : Except AccessFault MemphyCsr :=
  if addr < mp.maxsz then .ok { mp with storage := Function.update mp.storage addr data } else .error .outOfBounds

end MemphyCsr

def mvCsrLoop (offset : Nat) (mp : MemphyCsr) (numstep : Nat) : MemphyCsr :=
  if numstep < offset ∧ numstep < mp.maxsz then
    mvCsrLoop offset { mp with cursor := (mp.cursor + 1).tmod mp.maxsz } (numstep + 1)
  else mp
termination_by mp.maxsz - numstep

def memphyMvCsr (mp : MemphyCsr) (offset : Nat) : Except AccessFault MemphyCsr := do
  let mp ← mp.mutexLock
  let mp := mvCsrLoop offset { mp with cursor := 0 } 0
  mp.mutexUnlock

def memphySeqRead (mp : MemphyCsr) (addr : Nat) : Except AccessFault (MemphyCsr × Answer) := do
  if !mp.rdmflg then
    let mp ← mp.mutexUnlock
    return (mp, ⟨-1, none⟩)
  let mp ← memphyMvCsr mp addr
  let value ← mp.cell addr
  let mp ← mp.mutexUnlock
  return (mp, ⟨0, some value⟩)

def memphyCsrRead (mp : MemphyCsr) (addr : Nat) : Except AccessFault (MemphyCsr × Answer) := do
  let mp ← mp.mutexLock
  if mp.rdmflg then
    let value ← mp.cell addr
    let mp ← mp.mutexUnlock
    return (mp, ⟨0, some value⟩)
  else memphySeqRead mp addr

def memphySeqWrite (mp : MemphyCsr) (addr : Nat) (value : Byte) : Except AccessFault (MemphyCsr × Answer) := do
  if !mp.rdmflg then
    let mp ← mp.mutexUnlock
    return (mp, ⟨-1, none⟩)
  let mp ← memphyMvCsr mp addr
  let mp ← mp.setCell addr value
  let mp ← mp.mutexUnlock
  return (mp, ⟨0, none⟩)

def memphyCsrWrite (mp : MemphyCsr) (addr : Nat) (data : Byte) : Except AccessFault (MemphyCsr × Answer) := do
  let mp ← mp.mutexLock
  if mp.rdmflg then
    let mp ← mp.setCell addr data
    let mp ← mp.mutexUnlock
    return (mp, ⟨0, none⟩)
  else memphySeqWrite mp addr data

/-- `init_memphy`, on memory that held `bytes`, `junk` and `cursor`: only a sequential device's cursor is set. -/
def initMemphyCsr (bytes : Nat → Byte) (junk : List Nat) (cursor : Int) (maxSize : Nat) (randomflg : Int) :
    MemphyCsr where
  toMemphy := initMemphy bytes junk maxSize randomflg
  cursor := if randomflg != 0 then cursor else 0
  locked := false

/-! ## One call -/

section Call

variable {mp : MemphyCsr} {addr : Nat}

/-- **Between calls the functions are `memphyRead` and `memphyWrite`**: the mutex they take they release. -/
theorem memphyCsrRead_eq (hfree : mp.locked = false) : memphyCsrRead mp addr =
    match memphyRead mp.toMemphy addr with
    | .ok (some value) => .ok (mp, ⟨0, some value⟩)
    | .ok none => .ok (mp, ⟨-1, none⟩)
    | .error _ => .error .outOfBounds := by
  obtain ⟨base, cursor, locked⟩ := mp
  cases hfree
  cases hr : base.rdmflg <;> by_cases ha : addr < base.maxsz <;>
    simp [memphyCsrRead, memphySeqRead, memphyRead, MemphyCsr.mutexLock, MemphyCsr.mutexUnlock, MemphyCsr.cell, hr, ha,
      bind, Except.bind, pure, Except.pure]

theorem memphyCsrWrite_eq (hfree : mp.locked = false) (data : Byte) : memphyCsrWrite mp addr data =
    match memphyWrite mp.toMemphy addr data with
    | .ok base => .ok ({ mp with toMemphy := base }, ⟨if mp.rdmflg then 0 else -1, none⟩)
    | .error _ => .error .outOfBounds := by
  obtain ⟨base, cursor, locked⟩ := mp
  cases hfree
  cases hr : base.rdmflg <;> by_cases ha : addr < base.maxsz <;>
    simp [memphyCsrWrite, memphySeqWrite, memphyWrite, MemphyCsr.mutexLock, MemphyCsr.mutexUnlock, MemphyCsr.setCell, hr,
      ha, bind, Except.bind, pure, Except.pure]

theorem mvCsrLoop_cursor {offset : Nat} : ∀ (n : Nat) {mp : MemphyCsr} {numstep : Nat}, offset < mp.maxsz →
    mp.cursor = numstep → numstep + n = offset → mvCsrLoop offset mp numstep = { mp with cursor := offset }
  | 0, mp, numstep, hin, hcur, hn => by
    rw [mvCsrLoop, if_neg (by omega), show (offset : Int) = mp.cursor by omega]
  | n + 1, mp, numstep, hin, hcur, hn => by
    rw [mvCsrLoop, if_pos (by omega)]
    have hstep : (mp.cursor + 1).tmod mp.maxsz = ((numstep + 1 : Nat) : Int) := by
      rw [hcur, Int.tmod_eq_of_lt (by omega) (by omega)]
      omega
    exact mvCsrLoop_cursor n hin hstep (by omega)

/-- **The cursor's own loop is right**: it stops at the address. -/
theorem memphyMvCsr_cursor {offset : Nat} (hfree : mp.locked = false) (hin : offset < mp.maxsz) :
    memphyMvCsr mp offset = .ok { mp with cursor := offset } := by
  have hloop := @mvCsrLoop_cursor offset offset { mp with locked := true, cursor := 0 } 0 hin rfl (Nat.zero_add _)
  have hlock : mp.mutexLock = .ok { mp with locked := true } := by simp [MemphyCsr.mutexLock, hfree]
  have hmv : memphyMvCsr mp offset = (mvCsrLoop offset { mp with locked := true, cursor := 0 } 0).mutexUnlock := by
    rw [memphyMvCsr, hlock]
    rfl
  obtain ⟨base, cursor, locked⟩ := mp
  cases hfree
  rw [hmv, hloop]
  rfl

/-- **With the test the right way round a call would not return**: `MEMPHY_mv_csr` locks the mutex its caller holds. -/
theorem memphySeqRead_deadlock (hheld : mp.locked = true) (hr : mp.rdmflg = true) :
    memphySeqRead mp addr = .error .deadlock := by
  simp [memphySeqRead, memphyMvCsr, MemphyCsr.mutexLock, hheld, hr, bind, Except.bind]

end Call

/-! ## Sequences of calls -/

inductive Access where
  | read (addr : Nat)
  | write (addr : Nat) (data : Byte)
  deriving DecidableEq, Repr

def Access.addr : Access → Nat
  | .read addr => addr
  | .write addr _ => addr

def Access.exec (mp : MemphyCsr) : Access → Except AccessFault (MemphyCsr × Answer)
  | .read addr => memphyCsrRead mp addr
  | .write addr data => memphyCsrWrite mp addr data

structure Served where
  access : Access
  answer : Answer
  device : MemphyCsr

def serve : MemphyCsr → List Access → Except AccessFault (List Served)
  | _, [] => .ok []
  | mp, c :: cs =>
    match c.exec mp with
    | .error e => .error e
    | .ok (mp', a) => (serve mp' cs).map (⟨c, a, mp'⟩ :: ·)

/-- **A sequential device behaves like a random access one**: the same answers, the mutex released after every call of
either, and the cursor of the sequential one at the address last accessed. -/
structure Alike (seq rand : List Served) : Prop where
  answers : List.Forall₂ (fun s r => s.answer = r.answer) seq rand
  released : ∀ s ∈ seq ++ rand, s.device.locked = false
  cursor : ∀ s ∈ seq, s.device.cursor = s.access.addr

theorem Access.exec_sequential (c : Access) {mp : MemphyCsr} (hfree : mp.locked = false) (hseq : mp.rdmflg = false) :
    c.exec mp = .ok (mp, ⟨-1, none⟩) := by
  cases c with
  | read addr => rw [Access.exec, memphyCsrRead_eq hfree, memphyRead, hseq]; rfl
  | write addr data => rw [Access.exec, memphyCsrWrite_eq hfree, memphyWrite, hseq]; rfl

theorem Access.exec_random (c : Access) {mp : MemphyCsr} (hfree : mp.locked = false) (hrand : mp.rdmflg = true)
    (hin : c.addr < mp.maxsz) : ∃ mp' value, c.exec mp = .ok (mp', ⟨0, value⟩) ∧ mp'.locked = false ∧
      mp'.rdmflg = true ∧ mp'.maxsz = mp.maxsz := by
  cases c with
  | read addr =>
    have hin' : addr < mp.maxsz := hin
    refine ⟨mp, some (mp.storage addr), ?_, hfree, hrand, rfl⟩
    rw [Access.exec, memphyCsrRead_eq hfree, memphyRead, if_pos hrand, if_pos hin']
  | write addr data =>
    have hin' : addr < mp.maxsz := hin
    refine ⟨{ mp with storage := Function.update mp.storage addr data }, none, ?_, hfree, hrand, rfl⟩
    rw [Access.exec, memphyCsrWrite_eq hfree, memphyWrite, if_pos hrand, if_pos hin', if_pos hrand]

theorem serve_sequential {mp : MemphyCsr} (hfree : mp.locked = false) (hseq : mp.rdmflg = false) (calls : List Access) :
    serve mp calls = .ok (calls.map (fun c => ⟨c, ⟨-1, none⟩, mp⟩)) := by
  induction calls with
  | nil => rfl
  | cons c calls ih =>
    rw [serve, c.exec_sequential hfree hseq]
    simp only [ih, Except.map, List.map_cons]

theorem serve_random {calls : List Access} : ∀ {mp : MemphyCsr}, mp.locked = false → mp.rdmflg = true →
    (∀ c ∈ calls, c.addr < mp.maxsz) → ∃ l, serve mp calls = .ok l ∧ l.map (·.access) = calls ∧
      ∀ s ∈ l, s.answer.status = 0 ∧ s.device.locked = false := by
  induction calls with
  | nil => exact fun _ _ _ => ⟨[], rfl, rfl, fun s hs => nomatch hs⟩
  | cons c calls ih =>
    intro mp hfree hrand hin
    obtain ⟨mp', value, hexec, hfree', hrand', hsize⟩ := c.exec_random hfree hrand (hin c List.mem_cons_self)
    obtain ⟨l, hl, hacc, hall⟩ := ih hfree' hrand' (fun c' hc' => hsize ▸ hin c' (List.mem_cons_of_mem c hc'))
    refine ⟨⟨c, ⟨0, value⟩, mp'⟩ :: l, ?_, by rw [List.map_cons, hacc], ?_⟩
    · rw [serve, hexec]
      simp only [hl, Except.map]
    · exact List.forall_mem_cons.2 ⟨⟨rfl, hfree'⟩, hall⟩

section Init

variable (bytes : Nat → Byte) (junk : List Nat) (cursor : Int) (maxSize : Nat)

theorem initMemphy_fields (randomflg : Int) : (initMemphy bytes junk maxSize randomflg).maxsz = maxSize ∧
    (initMemphy bytes junk maxSize randomflg).rdmflg = (randomflg != 0) := by
  unfold initMemphy memphyFormat
  split <;> exact ⟨rfl, rfl⟩

end Init

/-- **When a sequential device behaves like a random access one**: only as long as it is not accessed.  (A device whose
size is not positive has no address, and no call to make.) -/
theorem sequential_alike_iff (bytes : Nat → Byte) (junk junk' : List Nat) (cursor cursor' : Int) (maxSize : Nat)
    (calls : List Access) (hin : ∀ c ∈ calls, c.addr < maxSize) :
    (∃ seq rand, serve (initMemphyCsr bytes junk cursor maxSize 0) calls = .ok seq ∧
      serve (initMemphyCsr bytes junk' cursor' maxSize 1) calls = .ok rand ∧ Alike seq rand) ↔ calls = [] := by
  obtain ⟨-, hseq⟩ := initMemphy_fields bytes junk maxSize 0
  obtain ⟨hsize, hrand⟩ := initMemphy_fields bytes junk' maxSize 1
  constructor
  · rintro ⟨seq, rand, hs, hr, halike⟩
    cases calls with
    | nil => rfl
    | cons c calls =>
      -- the first call already answers -1 on the one device and 0 on the other
      rw [serve_sequential rfl hseq] at hs
      obtain ⟨l, hl, hacc, hall⟩ := @serve_random (c :: calls) (initMemphyCsr bytes junk' cursor' maxSize 1) rfl hrand
        (fun c' hc' => by rw [initMemphyCsr, hsize]; exact hin c' hc')
      rw [hl] at hr
      cases hs
      cases hr
      cases rand with
      | nil => cases hacc
      | cons r rand =>
        obtain ⟨hsame, -⟩ := List.forall₂_cons.1 halike.answers
        have h0 : r.answer.status = 0 := (hall r List.mem_cons_self).1
        rw [← hsame] at h0
        have hminus : (-1 : Int) = 0 := h0
        omega
  · rintro rfl
    exact ⟨[], [], rfl, rfl, ⟨.nil, fun s hs => (nomatch hs), fun s hs => (nomatch hs)⟩⟩

theorem sequential_alike_iff_one_read :
    (∃ seq rand, serve (initMemphyCsr (fun _ => 0) [] 0 256 0) [.read 3] = .ok seq ∧
      serve (initMemphyCsr (fun _ => 0) [] 0 256 1) [.read 3] = .ok rand ∧ Alike seq rand) ↔ [Access.read 3] = [] :=
  sequential_alike_iff (fun _ => 0) [] [] 0 0 256 [.read 3] (by decide)

/-- **A byte read from each device**: -1 from the sequential one. -/
theorem sequential_read_refused :
    ¬ ∃ seq rand, serve (initMemphyCsr (fun _ => 0) [] 0 256 0) [.read 3] = .ok seq ∧
      serve (initMemphyCsr (fun _ => 0) [] 0 256 1) [.read 3] = .ok rand ∧ Alike seq rand := by
  rintro ⟨seq, rand, hs, hr, halike⟩
  cases hs
  cases hr
  exact absurd (List.forall₂_cons.1 halike.answers).1 (by decide)

end OsSim
