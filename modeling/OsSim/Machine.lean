import OsSim.Lib.Program
import OsSim.Memphy
import OsSim.Lru
import OsSim.Region
/-!
# Machine — the memory of the simulated system, and its atomic operations

The state every process shares: RAM, the swap devices and the LRU list; and what each process has of its own, its page
table and its `mm_struct`.  `Op` lists the operations that one CPU does in one step: a call of a device function, a
call of an LRU list function, a read or an update of one page table entry, taking or releasing one of the two mutexes
named `MEM_in_use`.  The memory functions of `Paging` and `Vm` are programs of these.

Every process's `active_mswp` is the first swap device, as `os.c` sets it; the other three are unused.

`trace` is a history: `note` adds to it, and no operation reads it.
-/
namespace OsSim

open Atomic

inductive Event where
  /-- The page is referenced: newly mapped, read or written through `pg_getpage`, or visited by `__alloc` in a region
  it reuses. -/
  | reference (r : PteRef)
  /-- `vmap_page_range` maps the page, whose entry was `old`. -/
  | mapped (r : PteRef) (vmaid : Int) (old : Pte)
  /-- The page, whose entry was `old`, is brought into a free RAM frame. -/
  | filled (r : PteRef) (old : Pte)
  /-- The page, whose entry was `old`, is brought into the frame of a victim. -/
  | replaced (r : PteRef) (old : Pte)
  /-- `__alloc` visits the page in a region it reuses: its entry was `old` before, its frame is `fpn` now. -/
  | reused (r : PteRef) (old : Pte) (fpn : Nat)
  /-- `vm_map_ram` is asked for so many pages. -/
  | mapRam (incpgnum : Int)
  /-- The active swap device has no free frame, and the code returns -3000 for it. -/
  | outOfSwap
  /-- `find_LRU_victim_page` finds the list empty. -/
  | emptyVictim
  deriving DecidableEq

structure Machine where
  mram : Memphy
  /-- `mswp[0]`, which every `active_mswp` points to -/
  mswp : Memphy
  /-- `mswp[1]` .. `mswp[3]` -/
  idle : List Memphy
  lru : List LruNode
  pgd : PteRef → Pte
  mm : Pid → Mm
  trace : List Event

inductive Dev where
  | mram | mswp
  deriving DecidableEq

/-- The source files with a copy of `MEM_in_use` that the memory functions lock (`static` in `mm.h`). -/
inductive MemInUse where
  | mm | mmVm
  deriving DecidableEq

/-- A `uint32_t *` argument: into a page table, or to a local copy of an entry. -/
inductive PtePtr where
  | entry (r : PteRef)
  | copy (pte : Pte)

inductive Op where
  | lock (l : MemInUse)
  | unlock (l : MemInUse)
  | getFreefp (d : Dev)
  | putFreefp (d : Dev) (fpn : Nat)
  | read (d : Dev) (addr : Nat)
  | write (d : Dev) (addr : Nat) (data : Byte)
  /-- The `MEMPHY_write` of `pg_setval`, which is meant for the page `r`. -/
  | store (r : PteRef) (addr : Nat) (data : Byte)
  /-- The `MEMPHY_read` of `pg_getval`, which is meant for the page `r`. -/
  | load (r : PteRef) (addr : Nat)
  | findLruVictimPage
  | addLruPage (r : PteRef)
  | updateLruLst (pte : PtePtr)
  | readPte (r : PteRef)
  | setSwap (r : PteRef) (swptyp swpoff : Nat)
  | setFpn (r : PteRef) (fpn : Nat)
  | getMm (p : Pid)
  | setMm (p : Pid) (mm : Mm)
  | note (e : Event)
  /-- Not an operation: the code has no meaning from here on. -/
  | fault (f : Fault)

/-- What each operation answers.  `setFpn` answers the entry it overwrote, for the history only. -/
@[reducible] def Op.Res : Op → Type
  | .lock _ | .unlock _ | .putFreefp _ _ | .write _ _ _ | .store _ _ _ | .addLruPage _ | .updateLruLst _
  | .setSwap _ _ _ | .setMm _ _ | .note _ => Unit
  | .getFreefp _ => Option Nat
  | .read _ _ | .load _ _ => Option Byte
  | .findLruVictimPage => Option LruNode
  | .readPte _ | .setFpn _ _ => Pte
  | .getMm _ => Mm
  | .fault _ => Empty

abbrev memSig : Sig := ⟨Op, Op.Res⟩

abbrev Code := Prog memSig

namespace Machine

def dev (m : Machine) : Dev → Memphy
  | .mram => m.mram
  | .mswp => m.mswp

def setDev (m : Machine) (d : Dev) (mp : Memphy) : Machine :=
  match d with
  | .mram => { m with mram := mp }
  | .mswp => { m with mswp := mp }

def setFree (m : Machine) (d : Dev) (l : List Nat) : Machine := m.setDev d { m.dev d with freeFpList := l }

def setLru (m : Machine) (l : List LruNode) : Machine := { m with lru := l }

def addLru (m : Machine) (r : PteRef) : Machine := m.setLru (Lru.addLruPage m.lru ⟨r, (m.pgd r).fpn, r.pgn⟩)

def noted (m : Machine) (e : Event) : Machine := { m with trace := m.trace ++ [e] }

def setPte (m : Machine) (r : PteRef) (pte : Pte) : Machine := { m with pgd := Function.update m.pgd r pte }

def setMm (m : Machine) (p : Pid) (mm : Mm) : Machine := { m with mm := Function.update m.mm p mm }

def deref (m : Machine) : PtePtr → Pte
  | .entry r => m.pgd r
  | .copy pte => pte

end Machine

section Fields

variable (m : Machine) (d : Dev) (mp : Memphy) (l : List Nat) (nodes : List LruNode) (r : PteRef) (pte : Pte) (e : Event)

@[simp] theorem Machine.setDev_lru : (m.setDev d mp).lru = m.lru := by cases d <;> rfl
@[simp] theorem Machine.setDev_pgd : (m.setDev d mp).pgd = m.pgd := by cases d <;> rfl
@[simp] theorem Machine.setDev_mm : (m.setDev d mp).mm = m.mm := by cases d <;> rfl
@[simp] theorem Machine.setDev_trace : (m.setDev d mp).trace = m.trace := by cases d <;> rfl
@[simp] theorem Machine.setDev_idle : (m.setDev d mp).idle = m.idle := by cases d <;> rfl
@[simp] theorem Machine.dev_setDev : (m.setDev d mp).dev d = mp := by cases d <;> rfl
@[simp] theorem Machine.setDev_dev : m.setDev d (m.dev d) = m := by cases d <;> rfl
@[simp] theorem Machine.setDev_setDev (mp' : Memphy) : (m.setDev d mp).setDev d mp' = m.setDev d mp' := by
  cases d <;> rfl

theorem Machine.dev_setDev_of_ne {d d' : Dev} (h : d ≠ d') : (m.setDev d' mp).dev d = m.dev d := by
  cases d <;> cases d' <;> first | rfl | exact absurd rfl h

@[simp] theorem Machine.setFree_lru : (m.setFree d l).lru = m.lru := m.setDev_lru d _
@[simp] theorem Machine.setFree_pgd : (m.setFree d l).pgd = m.pgd := m.setDev_pgd d _
@[simp] theorem Machine.setFree_mm : (m.setFree d l).mm = m.mm := m.setDev_mm d _
@[simp] theorem Machine.setFree_trace : (m.setFree d l).trace = m.trace := m.setDev_trace d _
@[simp] theorem Machine.setFree_idle : (m.setFree d l).idle = m.idle := m.setDev_idle d _
@[simp] theorem Machine.setFree_freeFpList : ((m.setFree d l).dev d).freeFpList = l := by cases d <;> rfl
@[simp] theorem Machine.setFree_mram_mram : (m.setFree .mram l).mram = { m.mram with freeFpList := l } := rfl
@[simp] theorem Machine.setFree_mram_mswp : (m.setFree .mram l).mswp = m.mswp := rfl
@[simp] theorem Machine.setFree_mswp_mswp : (m.setFree .mswp l).mswp = { m.mswp with freeFpList := l } := rfl
@[simp] theorem Machine.setFree_mswp_mram : (m.setFree .mswp l).mram = m.mram := rfl

@[simp] theorem Machine.setLru_lru : (m.setLru nodes).lru = nodes := rfl
@[simp] theorem Machine.setLru_pgd : (m.setLru nodes).pgd = m.pgd := rfl
@[simp] theorem Machine.setLru_mm : (m.setLru nodes).mm = m.mm := rfl
@[simp] theorem Machine.setLru_trace : (m.setLru nodes).trace = m.trace := rfl
@[simp] theorem Machine.setLru_mram : (m.setLru nodes).mram = m.mram := rfl
@[simp] theorem Machine.setLru_mswp : (m.setLru nodes).mswp = m.mswp := rfl
@[simp] theorem Machine.setLru_idle : (m.setLru nodes).idle = m.idle := rfl

@[simp] theorem Machine.setPte_lru : (m.setPte r pte).lru = m.lru := rfl
@[simp] theorem Machine.setPte_pgd : (m.setPte r pte).pgd = Function.update m.pgd r pte := rfl
@[simp] theorem Machine.setPte_mm : (m.setPte r pte).mm = m.mm := rfl
@[simp] theorem Machine.setPte_trace : (m.setPte r pte).trace = m.trace := rfl
@[simp] theorem Machine.setPte_mram : (m.setPte r pte).mram = m.mram := rfl
@[simp] theorem Machine.setPte_mswp : (m.setPte r pte).mswp = m.mswp := rfl
@[simp] theorem Machine.setPte_dev : (m.setPte r pte).dev d = m.dev d := by cases d <;> rfl
@[simp] theorem Machine.setPte_idle : (m.setPte r pte).idle = m.idle := rfl

@[simp] theorem Machine.addLru_pgd : (m.addLru r).pgd = m.pgd := rfl
@[simp] theorem Machine.addLru_mm : (m.addLru r).mm = m.mm := rfl
@[simp] theorem Machine.addLru_trace : (m.addLru r).trace = m.trace := rfl
@[simp] theorem Machine.addLru_mram : (m.addLru r).mram = m.mram := rfl
@[simp] theorem Machine.addLru_mswp : (m.addLru r).mswp = m.mswp := rfl
@[simp] theorem Machine.addLru_dev : (m.addLru r).dev d = m.dev d := by cases d <;> rfl
@[simp] theorem Machine.addLru_idle : (m.addLru r).idle = m.idle := rfl

@[simp] theorem Machine.noted_lru : (m.noted e).lru = m.lru := rfl
@[simp] theorem Machine.noted_pgd : (m.noted e).pgd = m.pgd := rfl
@[simp] theorem Machine.noted_mm : (m.noted e).mm = m.mm := rfl
@[simp] theorem Machine.noted_trace : (m.noted e).trace = m.trace ++ [e] := rfl
@[simp] theorem Machine.noted_mram : (m.noted e).mram = m.mram := rfl
@[simp] theorem Machine.noted_mswp : (m.noted e).mswp = m.mswp := rfl
@[simp] theorem Machine.noted_idle : (m.noted e).idle = m.idle := rfl

@[simp] theorem Machine.setMm_lru (p : Pid) (mm : Mm) : (m.setMm p mm).lru = m.lru := rfl
@[simp] theorem Machine.setMm_pgd (p : Pid) (mm : Mm) : (m.setMm p mm).pgd = m.pgd := rfl
@[simp] theorem Machine.setMm_mm (p : Pid) (mm : Mm) : (m.setMm p mm).mm = Function.update m.mm p mm := rfl
@[simp] theorem Machine.setMm_trace (p : Pid) (mm : Mm) : (m.setMm p mm).trace = m.trace := rfl
@[simp] theorem Machine.setMm_mram (p : Pid) (mm : Mm) : (m.setMm p mm).mram = m.mram := rfl
@[simp] theorem Machine.setMm_mswp (p : Pid) (mm : Mm) : (m.setMm p mm).mswp = m.mswp := rfl
@[simp] theorem Machine.setMm_idle (p : Pid) (mm : Mm) : (m.setMm p mm).idle = m.idle := rfl

theorem Machine.setFree_addLru : (m.addLru r).setFree d l = (m.setFree d l).addLru r := by cases d <;> rfl
theorem Machine.addLru_noted : (m.noted e).addLru r = (m.addLru r).noted e := rfl

theorem Machine.setMm_self (p : Pid) : m.setMm p (m.mm p) = m := by simp [Machine.setMm]

@[simp] theorem Machine.setMm_setMm (p : Pid) (mm mm' : Mm) : (m.setMm p mm).setMm p mm' = m.setMm p mm' := by
  simp [Machine.setMm]

end Fields

/-- What an operation does when no other CPU is in the way of it. -/
def step : Interp memSig Machine Fault
  | .lock _, m => .ok (m, ())
  | .unlock _, m => .ok (m, ())
  | .getFreefp d, m => .ok (m.setDev d (memphyGetFreefp (m.dev d)).1, (memphyGetFreefp (m.dev d)).2)
  | .putFreefp d fpn, m => .ok (m.setDev d (memphyPutFreefp (m.dev d) fpn), ())
  | .read d addr, m => (memphyRead (m.dev d) addr).map (fun b => (m, b))
  | .write d addr data, m => (memphyWrite (m.dev d) addr data).map (fun mp => (m.setDev d mp, ()))
  | .store _ addr data, m => (memphyWrite m.mram addr data).map (fun mp => (m.setDev .mram mp, ()))
  | .load _ addr, m => (memphyRead m.mram addr).map (fun b => (m, b))
  | .findLruVictimPage, m =>
    match Lru.findLruVictimPage m.lru with
    | (_, none) => .ok (m.noted .emptyVictim, none)
    | (lru, some v) => .ok (m.setLru lru, some v)
  | .addLruPage r, m => .ok (m.addLru r, ())
  | .updateLruLst ptr, m =>
    match Lru.updateLruLst m.lru (m.deref ptr).fpn with
    | none => .error .nullPointer
    | some lru => .ok (m.setLru lru, ())
  | .readPte r, m => .ok (m, m.pgd r)
  | .setSwap r swptyp swpoff, m => .ok (m.setPte r (pteSetSwap (m.pgd r) swptyp swpoff), ())
  | .setFpn r fpn, m => .ok (m.setPte r (pteSetFpn (m.pgd r) fpn), m.pgd r)
  | .getMm p, m => .ok (m, m.mm p)
  | .setMm p mm, m => .ok (m.setMm p mm, ())
  | .note e, m => .ok (m.noted e, ())
  | .fault f, _ => .error f

/-! ## The operations as programs -/

namespace Code

def lock (l : MemInUse) : Code Unit := .op (.lock l) .ret
def unlock (l : MemInUse) : Code Unit := .op (.unlock l) .ret
def getFreefp (d : Dev) : Code (Option Nat) := .op (.getFreefp d) .ret
def putFreefp (d : Dev) (fpn : Nat) : Code Unit := .op (.putFreefp d fpn) .ret
def read (d : Dev) (addr : Nat) : Code (Option Byte) := .op (.read d addr) .ret
def write (d : Dev) (addr : Nat) (data : Byte) : Code Unit := .op (.write d addr data) .ret
def store (r : PteRef) (addr : Nat) (data : Byte) : Code Unit := .op (.store r addr data) .ret
def load (r : PteRef) (addr : Nat) : Code (Option Byte) := .op (.load r addr) .ret
def findLruVictimPage : Code (Option LruNode) := .op .findLruVictimPage .ret
def addLruPage (r : PteRef) : Code Unit := .op (.addLruPage r) .ret
def updateLruLst (ptr : PtePtr) : Code Unit := .op (.updateLruLst ptr) .ret
def readPte (r : PteRef) : Code Pte := .op (.readPte r) .ret
def setSwap (r : PteRef) (swptyp swpoff : Nat) : Code Unit := .op (.setSwap r swptyp swpoff) .ret
def setFpn (r : PteRef) (fpn : Nat) : Code Pte := .op (.setFpn r fpn) .ret
def getMm (p : Pid) : Code Mm := .op (.getMm p) .ret
def setMm (p : Pid) (mm : Mm) : Code Unit := .op (.setMm p mm) .ret
def note (e : Event) : Code Unit := .op (.note e) .ret
def fault {α : Type} (f : Fault) : Code α := .op (.fault f) Empty.elim

/-- The search of `caller->mswp[0 .. 3]` for a device with a free frame, when the active one has none.  `caller->mswp`
is an array of structures, and the search follows its elements as pointers: nothing that comes after it (another active
device, the return of -3000) is ever reached. -/
def scanMswp {α : Type} : Code α := fault .wildPointer

end Code

abbrev run {α : Type} (c : Code α) (m : Machine) : Except Fault (Machine × α) := exec step c m

theorem run_op_ok {α : Type} {o : Op} {k : o.Res → Code α} {m m' : Machine} {a : α} :
    run (.op o k) m = .ok (m', a) ↔ ∃ m₁ r, step o m = .ok (m₁, r) ∧ run (k r) m₁ = .ok (m', a) :=
  exec_op_ok step

theorem run_op_error {α : Type} {o : Op} {k : o.Res → Code α} {m : Machine} {e : Fault} :
    run (.op o k) m = .error e ↔ step o m = .error e ∨ ∃ m₁ r, step o m = .ok (m₁, r) ∧ run (k r) m₁ = .error e :=
  exec_op_error step

theorem run_bind_ok {α β : Type} {c : Code α} {f : α → Code β} {m m' : Machine} {b : β} :
    run (c >>= f) m = .ok (m', b) ↔ ∃ m₁ a, run c m = .ok (m₁, a) ∧ run (f a) m₁ = .ok (m', b) :=
  exec_bind_ok step

theorem run_bind_error {α β : Type} {c : Code α} {f : α → Code β} {m : Machine} {e : Fault} :
    run (c >>= f) m = .error e ↔ run c m = .error e ∨ ∃ m₁ a, run c m = .ok (m₁, a) ∧ run (f a) m₁ = .error e :=
  exec_bind_error step

section Steps

variable {α : Type} (m : Machine)

@[simp] theorem run_ret (a : α) : run (.ret a) m = .ok (m, a) := rfl

@[simp] theorem run_pure (a : α) : run (pure a) m = .ok (m, a) := rfl

@[simp] theorem run_pure_bind {β : Type} (a : β) (f : β → Code α) : run (pure a >>= f) m = run (f a) m := rfl

@[simp] theorem run_lock (l : MemInUse) (f : Unit → Code α) : run (Code.lock l >>= f) m = run (f ()) m := rfl

@[simp] theorem run_unlock (l : MemInUse) (f : Unit → Code α) : run (Code.unlock l >>= f) m = run (f ()) m := rfl

@[simp] theorem run_note (e : Event) (f : Unit → Code α) : run (Code.note e >>= f) m = run (f ()) (m.noted e) := rfl

@[simp] theorem run_readPte (r : PteRef) (f : Pte → Code α) : run (Code.readPte r >>= f) m = run (f (m.pgd r)) m := rfl

@[simp] theorem run_getMm (p : Pid) (f : Mm → Code α) : run (Code.getMm p >>= f) m = run (f (m.mm p)) m := rfl

@[simp] theorem run_setMm (p : Pid) (mm : Mm) (f : Unit → Code α) :
    run (Code.setMm p mm >>= f) m = run (f ()) (m.setMm p mm) := rfl

@[simp] theorem run_setSwap (r : PteRef) (swptyp swpoff : Nat) (f : Unit → Code α) :
    run (Code.setSwap r swptyp swpoff >>= f) m = run (f ()) (m.setPte r (pteSetSwap (m.pgd r) swptyp swpoff)) := rfl

@[simp] theorem run_setFpn (r : PteRef) (fpn : Nat) (f : Pte → Code α) :
    run (Code.setFpn r fpn >>= f) m = run (f (m.pgd r)) (m.setPte r (pteSetFpn (m.pgd r) fpn)) := rfl

@[simp] theorem run_putFreefp (d : Dev) (fpn : Nat) (f : Unit → Code α) :
    run (Code.putFreefp d fpn >>= f) m = run (f ()) (m.setFree d (fpn :: (m.dev d).freeFpList)) := rfl

@[simp] theorem run_addLruPage (r : PteRef) (f : Unit → Code α) :
    run (Code.addLruPage r >>= f) m = run (f ()) (m.addLru r) := rfl

theorem run_getFreefp_nil (d : Dev) {f : Option Nat → Code α} (h : (m.dev d).freeFpList = []) :
    run (Code.getFreefp d >>= f) m = run (f none) m := by
  have hget : memphyGetFreefp (m.dev d) = (m.dev d, none) := by rw [memphyGetFreefp, h]
  change run (f (memphyGetFreefp (m.dev d)).2) (m.setDev d (memphyGetFreefp (m.dev d)).1) = _
  rw [hget]
  cases d <;> rfl

theorem run_getFreefp_cons (d : Dev) {f : Option Nat → Code α} {x : Nat} {l : List Nat}
    (h : (m.dev d).freeFpList = x :: l) :
    run (Code.getFreefp d >>= f) m = run (f (some x)) (m.setFree d l) := by
  change run (f (memphyGetFreefp (m.dev d)).2) (m.setDev d (memphyGetFreefp (m.dev d)).1) = _
  rw [memphyGetFreefp, h]
  rfl

theorem run_findLru_nil {f : Option LruNode → Code α} (h : m.lru = []) :
    run (Code.findLruVictimPage >>= f) m = run (f none) (m.noted .emptyVictim) := by
  have hstep : step .findLruVictimPage m = .ok (m.noted .emptyVictim, none) := by
    simp only [step, h, Lru.findLruVictimPage]
  rw [Code.findLruVictimPage, Prog.op_bind, run, exec_op, hstep]
  rfl

theorem run_findLru_cons {f : Option LruNode → Code α} {v : LruNode} {l : List LruNode} (h : m.lru = v :: l) :
    run (Code.findLruVictimPage >>= f) m = run (f (some v)) (m.setLru l) := by
  have hstep : step .findLruVictimPage m = .ok (m.setLru l, some v) := by
    simp only [step, h, Lru.findLruVictimPage]
  rw [Code.findLruVictimPage, Prog.op_bind, run, exec_op, hstep]
  rfl

/-- **A victim and a swap frame for it**, which every replacement takes first: either may be missing. -/
inductive VictimAndFrame (m : Machine) : Option LruNode → Option Nat → Machine → Prop where
  | neither (hlru : m.lru = []) (hswp : m.mswp.freeFpList = []) : VictimAndFrame m none none (m.noted .emptyVictim)
  | noVictim {s rest} (hlru : m.lru = []) (hswp : m.mswp.freeFpList = s :: rest) :
      VictimAndFrame m none (some s) ((m.noted .emptyVictim).setFree .mswp rest)
  | noFrame {v lru} (hlru : m.lru = v :: lru) (hswp : m.mswp.freeFpList = []) :
      VictimAndFrame m (some v) none (m.setLru lru)
  | both {v lru s rest} (hlru : m.lru = v :: lru) (hswp : m.mswp.freeFpList = s :: rest) :
      VictimAndFrame m (some v) (some s) ((m.setLru lru).setFree .mswp rest)

theorem run_victimAndFrame {m : Machine} {k : Option LruNode → Option Nat → Code α} {q : Except Fault (Machine × α)}
    (h : run (Code.findLruVictimPage >>= fun vic => Code.getFreefp .mswp >>= k vic) m = q) :
    ∃ vic swpfpn m₁, VictimAndFrame m vic swpfpn m₁ ∧ run (k vic swpfpn) m₁ = q := by
  cases hlru : m.lru with
  | nil =>
    rw [run_findLru_nil m hlru] at h
    cases hswp : m.mswp.freeFpList with
    | nil =>
      rw [run_getFreefp_nil (m.noted .emptyVictim) .mswp hswp] at h
      exact ⟨_, _, _, .neither hlru hswp, h⟩
    | cons s rest =>
      rw [run_getFreefp_cons (m.noted .emptyVictim) .mswp hswp] at h
      exact ⟨_, _, _, .noVictim hlru hswp, h⟩
  | cons v lru =>
    rw [run_findLru_cons m hlru] at h
    cases hswp : m.mswp.freeFpList with
    | nil =>
      rw [run_getFreefp_nil (m.setLru lru) .mswp hswp] at h
      exact ⟨_, _, _, .noFrame hlru hswp, h⟩
    | cons s rest =>
      rw [run_getFreefp_cons (m.setLru lru) .mswp hswp] at h
      exact ⟨_, _, _, .both hlru hswp, h⟩

theorem run_updateLruLst {ptr : PtePtr} {f : Unit → Code α} (h : m.lru ≠ []) :
    run (Code.updateLruLst ptr >>= f) m = run (f ()) (m.setLru (Lru.moveToTail (m.deref ptr).fpn m.lru)) := by
  have hup : Lru.updateLruLst m.lru (m.deref ptr).fpn = some (Lru.moveToTail (m.deref ptr).fpn m.lru) := by
    cases hl : m.lru with
    | nil => exact absurd hl h
    | cons p l => rfl
  have hstep : step (.updateLruLst ptr) m = .ok (m.setLru (Lru.moveToTail (m.deref ptr).fpn m.lru), ()) := by
    simp only [step, hup]
  rw [Code.updateLruLst, Prog.op_bind, run, exec_op, hstep]
  rfl

theorem run_updateLruLst_nil {ptr : PtePtr} {f : Unit → Code α} (h : m.lru = []) :
    run (Code.updateLruLst ptr >>= f) m = .error .nullPointer := by
  have hstep : step (.updateLruLst ptr) m = .error .nullPointer := by
    simp only [step, h, Lru.updateLruLst]
  rw [Code.updateLruLst, Prog.op_bind, run, exec_op, hstep]

@[simp] theorem run_fault (f : Fault) : run (Code.fault f : Code α) m = .error f := rfl

@[simp] theorem run_fault_bind {β : Type} (e : Fault) (f : β → Code α) : run (Code.fault e >>= f) m = .error e := rfl

end Steps

end OsSim
