import OsSim.Epochs
/-!
# Queue — the ready queues as arrays (`src/queue.c`, `src/sched.c`)

`Sched` has the queues as lists and each function as one action on them.  Here is what the functions do: a process
is stored behind the last one of an array and taken from its front, the others moving up by one, and `get_mlq_proc`
goes along the queues in a loop.  The lists of `Mlq` are what the arrays hold.
-/
namespace OsSim

structure QueueT where
  proc : Vector Nat maxQueueSize
  size : Nat
  fits : size ≤ maxQueueSize

namespace QueueT

def empty (q : QueueT) : Bool := q.size == 0

/-- On a full queue the program exits. -/
def enqueue (q : QueueT) (proc : Nat) : Option QueueT :=
  if h : q.size < maxQueueSize then some ⟨q.proc.set q.size proc h, q.size + 1, h⟩ else none

/-- The loop of `dequeue` from index `i` on, with so many turns to go. -/
def shift : (turns i : Nat) → i + turns < maxQueueSize → Vector Nat maxQueueSize → Vector Nat maxQueueSize
  | 0, _, _, proc => proc
  | n + 1, i, h, proc => shift n (i + 1) (by omega) (proc.set i (proc.get ⟨i + 1, by omega⟩) (by omega))

def dequeue (q : QueueT) : QueueT × Option Nat :=
  if h : q.size = 0 then (q, none)
  else
    have hsize := q.fits
    (⟨shift (q.size - 1) 0 (by omega) q.proc, q.size - 1, by omega⟩, some (q.proc.get ⟨0, by decide⟩))

def cleared (q : QueueT) : QueueT := ⟨q.proc, 0, Nat.zero_le _⟩

def contents (q : QueueT) : List Nat := q.proc.toList.take q.size

theorem length_contents (q : QueueT) : q.contents.length = q.size := by
  rw [contents, List.length_take, Vector.length_toList]
  exact Nat.min_eq_left q.fits

theorem empty_iff (q : QueueT) : q.empty = true ↔ q.contents = [] := by
  rw [← List.length_eq_zero_iff, length_contents, empty, beq_iff_eq]

theorem take_succ_set {l : List Nat} {i : Nat} (hi : i < l.length) (x : Nat) :
    (l.set i x).take (i + 1) = l.take i ++ [x] := by
  rw [List.take_add_one, List.take_set_of_le (Nat.le_refl _), List.getElem?_set_self hi]
  rfl

theorem enqueue_some {q q' : QueueT} {proc : Nat} (h : q.enqueue proc = some q') :
    q'.contents = q.contents ++ [proc] := by
  unfold enqueue at h
  split at h
  · rename_i hsize
    cases h
    rw [contents, contents, Vector.toList_set, take_succ_set (by rwa [Vector.length_toList])]
  · cases h

theorem enqueue_contents (q : QueueT) (proc : Nat) : (q.enqueue proc).map contents = Mlq.enqueue q.contents proc := by
  cases hq : q.enqueue proc with
  | none =>
    unfold enqueue at hq
    split at hq
    · cases hq
    · rename_i hfull
      rw [Mlq.enqueue, length_contents, if_neg hfull]
      rfl
  | some q' =>
    have hlen := congrArg List.length (enqueue_some hq)
    rw [length_contents, List.length_append, length_contents, List.length_singleton] at hlen
    have hroom : q.size < maxQueueSize := by
      have := q'.fits
      omega
    rw [Mlq.enqueue, length_contents, if_pos hroom, Option.map_some, enqueue_some hq]

theorem take_shift : ∀ (n i : Nat) (h : i + n < maxQueueSize) (proc : Vector Nat maxQueueSize),
    (shift n i h proc).toList.take (i + n) = proc.toList.take i ++ (proc.toList.drop (i + 1)).take n
  | 0, i, h, proc => by simp [shift]
  | n + 1, i, h, proc => by
    have hlen : i + 1 < proc.toList.length := by
      rw [Vector.length_toList]
      omega
    have ih := take_shift n (i + 1) (by omega) (proc.set i (proc.get ⟨i + 1, by omega⟩) (by omega))
    rw [shift, show i + (n + 1) = i + 1 + n by omega, ih, Vector.toList_set, take_succ_set (by omega),
      List.drop_set_of_lt (by omega), List.drop_eq_getElem_cons hlen, List.take_succ_cons, List.append_assoc]
    rfl

theorem dequeue_cons {q : QueueT} {p : Nat} {rest : List Nat} (h : q.contents = p :: rest) :
    q.dequeue.2 = some p ∧ q.dequeue.1.contents = rest := by
  have hsize : q.size = rest.length + 1 := by
    rw [← q.length_contents, h, List.length_cons]
  have hne : q.size ≠ 0 := by omega
  have hlen : 0 < q.proc.toList.length := by
    rw [Vector.length_toList]
    decide
  have hcells : q.contents = q.proc.toList[0] :: (q.proc.toList.drop 1).take (q.size - 1) := by
    rw [contents, ← List.take_succ_cons, ← List.drop_eq_getElem_cons hlen, Nat.sub_add_cancel (by omega)]
    rfl
  rw [hcells] at h
  obtain ⟨hp, hrest⟩ := List.cons.inj h
  rw [dequeue, dif_neg hne]
  refine ⟨congrArg some hp, ?_⟩
  have hshift := take_shift (q.size - 1) 0 (by have := q.fits; omega) q.proc
  simp only [Nat.zero_add, List.take_zero, List.nil_append] at hshift
  exact hshift.trans hrest

end QueueT

/-- The queues and the slot table, `static` in `sched.c`. -/
structure Queues where
  readyQueue : QueueT
  runQueue : QueueT
  mlqReadyQueue : Nat → QueueT
  mlqReadyQueueSlot : Nat → Int

namespace Queues

def initSlot (s : Queues) : Queues := { s with mlqReadyQueueSlot := fun i => (maxPrio : Int) - i }

/-- -1 where a ready queue is not empty. -/
def queueEmpty (s : Queues) : Int :=
  if (List.range maxPrio).any (fun prio => !(s.mlqReadyQueue prio).empty) then -1
  else if s.readyQueue.empty && s.runQueue.empty then 1
  else 0

/-- `init_scheduler`: the arrays stay as they are. -/
def initScheduler (s : Queues) : Queues :=
  initSlot ⟨s.readyQueue.cleared, s.runQueue.cleared, fun i => (s.mlqReadyQueue i).cleared, s.mlqReadyQueueSlot⟩

/-- `dequeue` from queue `i`, and its slot counted. -/
def take (s : Queues) (i : Nat) : Queues × Option Nat :=
  let (q, proc) := (s.mlqReadyQueue i).dequeue
  ({ s with mlqReadyQueue := Function.update s.mlqReadyQueue i q
            mlqReadyQueueSlot := Function.update s.mlqReadyQueueSlot i (s.mlqReadyQueueSlot i - 1) }, proc)

/-- The `for` loop of `get_mlq_proc` from queue `i` on, with so many turns to go. -/
def scan (s : Queues) : Nat → Nat → Queues × Option Nat
  | 0, _ => (s, none)
  | n + 1, i => if !(s.mlqReadyQueue i).empty && s.mlqReadyQueueSlot i != 0 then s.take i else scan s n (i + 1)

/-- `get_mlq_proc`.  `fuel` bounds the turns of its `while` loop; `none`: they did not end it. -/
def getMlqProc : Nat → Queues → Option (Queues × Option Nat)
  | 0, _ => none
  | fuel + 1, s =>
    if s.queueEmpty = -1 then
      match s.scan maxPrio 0 with
      | (s, some proc) => some (s, some proc)
      | (s, none) => getMlqProc fuel (if s.queueEmpty = -1 then s.initSlot else s)
    else some (s, none)

/-- `put_mlq_proc` and `add_mlq_proc`, of a process with a priority there is a queue for. -/
def putMlqProc (s : Queues) (prio proc : Nat) : Option Queues :=
  if prio < maxPrio then
    ((s.mlqReadyQueue prio).enqueue proc).map
      (fun q => { s with mlqReadyQueue := Function.update s.mlqReadyQueue prio q })
  else none

def lists (s : Queues) : Mlq := ⟨fun i => (s.mlqReadyQueue i).contents, s.mlqReadyQueueSlot⟩

def renewed (s : Queues) : Queues := if s.lists.refills then s.initSlot else s

section Loop

variable {s : Queues}

theorem empty_eq (s : Queues) (i : Nat) : (s.mlqReadyQueue i).empty = (s.lists.ready i).isEmpty := by
  rw [Bool.eq_iff_iff, QueueT.empty_iff, List.isEmpty_iff]
  rfl

theorem queueEmpty_iff : s.queueEmpty = -1 ↔ s.lists.queueEmpty = false := by
  have hall : s.lists.queueEmpty = !(List.range maxPrio).any (fun prio => !(s.mlqReadyQueue prio).empty) := by
    simp [Mlq.queueEmpty, empty_eq, List.not_any_eq_all_not]
  rw [hall, queueEmpty]
  by_cases hany : (List.range maxPrio).any (fun prio => !(s.mlqReadyQueue prio).empty) = true
  · simp [hany]
  · rw [if_neg hany]
    split <;> simp [hany]

theorem scan_eq (s : Queues) : s.scan maxPrio 0 = match s.lists.find with
    | none => (s, none)
    | some i => s.take i := by
  have hloop : ∀ n i, s.scan n i =
      match (List.range' i n).find? (fun i => !(s.lists.ready i).isEmpty && s.lists.slot i != 0) with
      | none => (s, none)
      | some i => s.take i := by
    intro n
    induction n with
    | zero => exact fun i => rfl
    | succ n ih =>
      intro i
      have hturn : s.scan (n + 1) i =
          if !(s.lists.ready i).isEmpty && s.lists.slot i != 0 then s.take i else s.scan n (i + 1) := by
        rw [scan, empty_eq]
        rfl
      rw [hturn, List.range'_succ, List.find?_cons]
      cases !(s.lists.ready i).isEmpty && s.lists.slot i != 0 with
      | true => rfl
      | false => exact ih (i + 1)
  rw [hloop, ← List.range_eq_range']
  rfl

theorem take_lists {i : Nat} (h : s.lists.ready i ≠ []) : ((s.take i).1.lists, (s.take i).2) = s.lists.take i := by
  obtain ⟨p, rest, hcons⟩ := List.exists_cons_of_ne_nil h
  obtain ⟨hp, hrest⟩ := QueueT.dequeue_cons hcons
  rw [Mlq.take, hcons]
  refine Prod.ext ?_ hp
  refine congrArg₂ Mlq.mk (funext fun j => ?_) rfl
  by_cases hji : j = i
  · subst hji
    simpa [take] using hrest
  · simp [take, hji, lists]

theorem getMlqProc_find {i : Nat} (h : s.lists.find = some i) (k : Nat) : getMlqProc (k + 1) s = some (s.take i) := by
  obtain ⟨hi, hne⟩ := Mlq.find_some h
  have hbusy : s.lists.queueEmpty = false := by
    by_contra hempty
    have hnil := (s.lists.queueEmpty_iff).1 (by simpa using hempty)
    exact hne (Family.all_eq_nil.1 hnil i hi)
  obtain ⟨p, rest, hcons⟩ := List.exists_cons_of_ne_nil hne
  have hsome := (QueueT.dequeue_cons hcons).1
  have hscan : s.scan maxPrio 0 = ((s.take i).1, some p) := by
    rw [scan_eq, h]
    exact Prod.ext rfl hsome
  rw [getMlqProc, if_pos (queueEmpty_iff.2 hbusy), hscan]
  exact congrArg some (Prod.ext rfl hsome.symm)

theorem getMlqProc_again (hbusy : s.lists.queueEmpty = false) (h : s.lists.find = none) (k : Nat) :
    getMlqProc (k + 1) s = getMlqProc k s.initSlot := by
  rw [getMlqProc, if_pos (queueEmpty_iff.2 hbusy), scan_eq, h]
  simp [queueEmpty_iff.2 hbusy]

theorem renewed_lists (s : Queues) : s.renewed.lists = s.lists.renewed := by
  unfold renewed Mlq.renewed
  split <;> rfl

theorem renewed_mlqReadyQueue (s : Queues) : s.renewed.mlqReadyQueue = s.mlqReadyQueue := by
  unfold renewed
  split <;> rfl

/-- **The `while` loop ends after two scans** at most: the second finds a queue, all slots being given anew. -/
theorem getMlqProc_eq (s : Queues) (k : Nat) : getMlqProc (k + 2) s = some (match s.lists.chosen with
    | none => (s, none)
    | some i => s.renewed.take i) := by
  by_cases hempty : s.lists.queueEmpty = true
  · have hexit : s.queueEmpty ≠ -1 := by
      rw [Ne, queueEmpty_iff, hempty]
      decide
    rw [getMlqProc, if_neg hexit, Mlq.chosen, if_pos hempty]
  · have hbusy : s.lists.queueEmpty = false := by simpa using hempty
    rw [Mlq.chosen, if_neg hempty, Mlq.renewed, renewed, Mlq.refills, hbusy]
    cases hfind : s.lists.find with
    | some i =>
      rw [getMlqProc_find hfind]
      simp [hfind]
    | none =>
      have hsome := Mlq.find_initSlot (fun hnil => hempty (s.lists.queueEmpty_iff.2 hnil))
      obtain ⟨i, hi⟩ := Option.ne_none_iff_exists'.1 hsome
      have hlists : s.initSlot.lists.find = some i := hi
      rw [getMlqProc_again hbusy hfind, getMlqProc_find hlists]
      simp [hi]

/-- **What `get_mlq_proc` does to the arrays** is what it does to the lists. -/
theorem getMlqProc_lists (s : Queues) (k : Nat) :
    (getMlqProc (k + 2) s).map (fun q => (q.1.lists, q.2)) = some s.lists.getMlqProc := by
  rw [getMlqProc_eq, Mlq.getMlqProc_eq, Option.map_some]
  cases hchosen : s.lists.chosen with
  | none => rfl
  | some i =>
    have hfind := Mlq.chosen_some hchosen
    rw [← renewed_lists] at hfind ⊢
    exact congrArg some (take_lists (Mlq.find_some hfind).2)

theorem putMlqProc_lists (s : Queues) (prio proc : Nat) :
    (s.putMlqProc prio proc).map lists = s.lists.putMlqProc prio proc := by
  unfold putMlqProc Mlq.putMlqProc
  split
  · rw [show s.lists.ready prio = (s.mlqReadyQueue prio).contents from rfl, ← QueueT.enqueue_contents]
    cases hq : (s.mlqReadyQueue prio).enqueue proc with
    | none => rfl
    | some q =>
      refine congrArg some (congrArg₂ Mlq.mk (funext fun j => ?_) rfl)
      by_cases hj : j = prio
      · subst hj
        simp
      · simp [hj, lists]
  · rfl

end Loop

/-! ## Which process `get_mlq_proc` returns -/

def Lowest (P : Nat → Prop) (i : Nat) : Prop := i < maxPrio ∧ P i ∧ ∀ j < i, ¬P j

/-- **Queue `i` is served**: the process in front of it is returned, its slot is counted, and nothing else changes. -/
structure Serves (s : Queues) (i : Nat) (s' : Queues) (r : Option Nat) : Prop where
  front : ∃ proc, r = some proc ∧ (s.mlqReadyQueue i).contents = proc :: (s'.mlqReadyQueue i).contents
  slot : s'.mlqReadyQueueSlot = Function.update s.mlqReadyQueueSlot i (s.mlqReadyQueueSlot i - 1)
  others : ∀ j ≠ i, s'.mlqReadyQueue j = s.mlqReadyQueue j
  rest : s'.readyQueue = s.readyQueue ∧ s'.runQueue = s.runQueue

section Spec

variable {s : Queues}

theorem find_lists {i : Nat} : s.lists.find = some i ↔
    Lowest (fun j => (s.mlqReadyQueue j).size ≠ 0 ∧ s.mlqReadyQueueSlot j ≠ 0) i := by
  have hbusy : ∀ j, (s.lists.ready j).isEmpty = false ↔ (s.mlqReadyQueue j).size ≠ 0 := by
    intro j
    rw [← empty_eq, QueueT.empty, beq_eq_false_iff_ne]
  rw [Mlq.find, List.find?_range_eq_some, Lowest]
  simp only [List.mem_range, Bool.not_eq_true', Bool.and_eq_true, hbusy, bne_iff_ne, ← Bool.not_eq_true]
  exact and_left_comm

theorem take_serves {i : Nat} (h : s.lists.ready i ≠ []) : s.Serves i (s.take i).1 (s.take i).2 := by
  obtain ⟨p, rest, hcons⟩ := List.exists_cons_of_ne_nil h
  obtain ⟨hp, hrest⟩ := QueueT.dequeue_cons hcons
  refine ⟨⟨p, hp, ?_⟩, rfl, fun j hj => Function.update_of_ne hj _ _, rfl, rfl⟩
  rw [show (s.mlqReadyQueue i).contents = p :: rest from hcons]
  simpa [take] using hrest.symm

/-- **`get_mlq_proc`** ends after two scans at most.  It returns NULL and changes nothing just where all queues are
empty; otherwise it serves the first queue with a process and a slot left, or, there being none, gives all slots
anew and serves the first queue with a process. -/
theorem getMlqProc_serves (hslot : ∀ i < maxPrio, 0 ≤ s.mlqReadyQueueSlot i ∧ s.mlqReadyQueueSlot i ≤ maxPrio - i) :
    ∃ s' r, (∀ k, getMlqProc (k + 2) s = some (s', r)) ∧ (r = none ↔ ∀ i < maxPrio, (s.mlqReadyQueue i).size = 0) ∧
      (r = none → s' = s) ∧
      (∀ i, Lowest (fun j => (s.mlqReadyQueue j).size ≠ 0 ∧ 0 < s.mlqReadyQueueSlot j) i → s.Serves i s' r) ∧
      ((∀ j < maxPrio, (s.mlqReadyQueue j).size ≠ 0 → s.mlqReadyQueueSlot j = 0) →
        ∀ i, Lowest (fun j => (s.mlqReadyQueue j).size ≠ 0) i →
          s.initSlot.Serves i s' r ∧ s'.mlqReadyQueueSlot i = 139 - i) := by
  have hempty : s.lists.queueEmpty = true ↔ ∀ i < maxPrio, (s.mlqReadyQueue i).size = 0 := by
    simp [Mlq.queueEmpty, ← empty_eq, QueueT.empty]
  have hleft : ∀ i, Lowest (fun j => (s.mlqReadyQueue j).size ≠ 0 ∧ 0 < s.mlqReadyQueueSlot j) i →
      s.lists.find = some i := by
    rintro i ⟨hi, ⟨hne, hpos⟩, hbefore⟩
    refine find_lists.2 ⟨hi, ⟨hne, by omega⟩, fun j hj hfound => hbefore j hj ⟨hfound.1, ?_⟩⟩
    have := hslot j (by omega)
    omega
  by_cases hall : s.lists.queueEmpty = true
  · -- all queues are empty
    refine ⟨s, none, fun k => ?_, iff_of_true rfl (hempty.1 hall), fun _ => rfl, ?_, ?_⟩
    · rw [getMlqProc_eq, Mlq.chosen, if_pos hall]
    · rintro i ⟨hi, ⟨hne, -⟩, -⟩
      exact absurd (hempty.1 hall i hi) hne
    · rintro - i ⟨hi, hne, -⟩
      exact absurd (hempty.1 hall i hi) hne
  · have hserved : ∀ {t : Queues} {i : Nat}, t.lists.find = some i → t.Serves i (t.take i).1 (t.take i).2 := fun hfind =>
      take_serves (Mlq.find_some hfind).2
    have hsome : ∀ {t : Queues} {i : Nat}, t.lists.find = some i → (t.take i).2 ≠ none := by
      intro t i hfind hnone
      obtain ⟨p, hp, -⟩ := (hserved hfind).front
      rw [hp] at hnone
      cases hnone
    cases hfind : s.lists.find with
    | some i =>
      refine ⟨(s.take i).1, (s.take i).2, fun k => getMlqProc_find hfind (k + 1),
        iff_of_false (hsome hfind) (fun h => hall (hempty.2 h)), fun h => absurd h (hsome hfind), fun j hj => ?_,
          fun hspent => ?_⟩
      · obtain rfl : i = j := Option.some.inj (hfind.symm.trans (hleft j hj))
        exact hserved hfind
      · obtain ⟨hi, ⟨hne, hne0⟩, -⟩ := find_lists.1 hfind
        exact absurd (hspent i hi hne) hne0
    | none =>
      have hrenewed := Mlq.find_initSlot (fun hnil => hall (s.lists.queueEmpty_iff.2 hnil))
      obtain ⟨i, hi⟩ := Option.ne_none_iff_exists'.1 hrenewed
      have hlists : s.initSlot.lists.find = some i := hi
      refine ⟨(s.initSlot.take i).1, (s.initSlot.take i).2, fun k => ?_,
        iff_of_false (hsome hlists) (fun h => hall (hempty.2 h)), fun h => absurd h (hsome hlists), fun j hj => ?_,
          fun _ j hj => ?_⟩
      · rw [getMlqProc_again (by simpa using hall) hfind, getMlqProc_find hlists]
      · rw [hleft j hj] at hfind
        cases hfind
      · -- with every slot anew, the queue found is the first that is not empty
        have hfirst : s.initSlot.lists.find = some j := by
          refine find_lists.2 ⟨hj.1, ⟨hj.2.1, ?_⟩, fun k hk hbusy => hj.2.2 k hk hbusy.1⟩
          have := hj.1
          change (maxPrio : Int) - j ≠ 0
          omega
        obtain rfl : i = j := Option.some.inj (hlists.symm.trans hfirst)
        refine ⟨hserved hlists, ?_⟩
        rw [(hserved hlists).slot, Function.update_self]
        change ((140 : Nat) : Int) - i - 1 = 139 - i
        omega

end Spec

def single (proc : Nat) : QueueT := ⟨(Vector.replicate maxQueueSize 0).set 0 proc (by decide), 1, by decide⟩

def usedUp : Queues :=
  { readyQueue := (single 0).cleared
    runQueue := (single 0).cleared
    mlqReadyQueue := fun i => if i = 130 then single 4 else if i = 139 then single 7 else (single 0).cleared
    mlqReadyQueueSlot := fun i => if i = 130 ∨ i = 139 then 0 else (maxPrio : Int) - i }

theorem getMlqProc_serves_usedUp : ∃ s', getMlqProc 2 usedUp = some (s', some 4) ∧ s'.mlqReadyQueueSlot 130 = 9 ∧
    s'.mlqReadyQueueSlot 139 = 1 := by
  have hslot : ∀ i < maxPrio, 0 ≤ usedUp.mlqReadyQueueSlot i ∧ usedUp.mlqReadyQueueSlot i ≤ maxPrio - i := by
    intro i hi
    simp only [usedUp]
    split <;> omega
  obtain ⟨s', r, hends, -, -, -, hspent⟩ := getMlqProc_serves hslot
  have hbusy : ∀ j, (usedUp.mlqReadyQueue j).size ≠ 0 ↔ j = 130 ∨ j = 139 := by
    intro j
    simp only [usedUp, apply_ite QueueT.size]
    split
    · simp [*, single]
    · split <;> simp [*, single, QueueT.cleared]
  have hfirst : Lowest (fun j => (usedUp.mlqReadyQueue j).size ≠ 0) 130 := by
    refine ⟨by decide, (hbusy 130).2 (Or.inl rfl), fun j hj hne => ?_⟩
    have := (hbusy j).1 hne
    omega
  obtain ⟨hserves, hcounter⟩ := hspent (fun j _ hne => by simp [usedUp, (hbusy j).1 hne]) 130 hfirst
  obtain ⟨p, rfl, hfront⟩ := hserves.front
  obtain rfl : p = 4 := (List.cons.inj hfront).1.symm
  refine ⟨s', hends 0, hcounter, ?_⟩
  rw [hserves.slot]
  decide

end Queues

end OsSim
