import Mathlib.Logic.Function.Basic
import OsSim.Lib.Family
/-!
# Sched — the ready queues (`src/queue.c`, `src/sched.c`, `MLQ_SCHED`)

One queue for each priority, served in the order of priority, each at most `MAX_PRIO` minus its priority times until all
slots are given anew.  Processes are numbered by their place in the configuration.  Each function is one action, under
`queue_lock`.
-/
namespace OsSim

abbrev maxPrio : Nat := 140
abbrev maxQueueSize : Nat := 10

structure Mlq where
  ready : Nat → List Nat
  slot : Nat → Int

namespace Mlq

/-- `enqueue`: on a full queue the program exits. -/
def enqueue (q : List Nat) (proc : Nat) : Option (List Nat) :=
  if q.length < maxQueueSize then some (q ++ [proc]) else none

def initSlot (m : Mlq) : Mlq := { m with slot := fun i => (maxPrio : Int) - i }

/-- `queue_empty` does not answer -1. -/
def queueEmpty (m : Mlq) : Bool := (List.range maxPrio).all (fun prio => (m.ready prio).isEmpty)

def find (m : Mlq) : Option Nat := (List.range maxPrio).find? (fun i => !(m.ready i).isEmpty && m.slot i != 0)

def take (m : Mlq) (i : Nat) : Mlq × Option Nat :=
  match m.ready i with
  | [] => (m, none)
  | proc :: rest =>
    ({ ready := Function.update m.ready i rest, slot := Function.update m.slot i (m.slot i - 1) }, some proc)

/-- `get_mlq_proc`: where the first turn of its loop finds no slot left, it gives all slots anew and the second turn
finds one. -/
def getMlqProc (m : Mlq) : Mlq × Option Nat :=
  if m.queueEmpty then (m, none)
  else
    match m.find with
    | some i => m.take i
    | none =>
      match m.initSlot.find with
      | some i => m.initSlot.take i
      | none => (m.initSlot, none)

/-- `put_mlq_proc` and `add_mlq_proc`, of a process with a priority there is a queue for. -/
def putMlqProc (m : Mlq) (prio proc : Nat) : Option Mlq :=
  if prio < maxPrio then (enqueue (m.ready prio) proc).map (fun q => { m with ready := Function.update m.ready prio q })
  else none

def procs (m : Mlq) : List Nat := Family.all maxPrio m.ready

theorem queueEmpty_iff (m : Mlq) : m.queueEmpty = true ↔ m.procs = [] := by
  simp [queueEmpty, procs, Family.all_eq_nil, List.all_eq_true]

theorem find_some {m : Mlq} {i : Nat} (h : m.find = some i) : i < maxPrio ∧ m.ready i ≠ [] := by
  have hmem := List.mem_of_find?_eq_some h
  have hp := List.find?_some h
  simp only [Bool.and_eq_true, Bool.not_eq_true', List.isEmpty_eq_false_iff] at hp
  exact ⟨List.mem_range.1 hmem, hp.1⟩

theorem find_initSlot {m : Mlq} (h : m.procs ≠ []) : m.initSlot.find ≠ none := by
  intro hnone
  refine h (Family.all_eq_nil.2 (fun i hi => ?_))
  have hi' := List.find?_eq_none.1 hnone i (List.mem_range.2 hi)
  have hslot : (maxPrio : Int) - i ≠ 0 := by
    have : (i : Int) < maxPrio := by exact_mod_cast hi
    omega
  simp only [initSlot, Bool.and_eq_true, Bool.not_eq_true', List.isEmpty_eq_false_iff, bne_iff_ne, not_and_or,
    not_not] at hi'
  exact hi'.resolve_right hslot

theorem take_spec {m m' : Mlq} {i : Nat} {r : Option Nat} (hi : i < maxPrio) (hne : m.ready i ≠ [])
    (h : m.take i = (m', r)) :
    ∃ p, r = some p ∧ ∀ a, m.procs.count a = m'.procs.count a + [p].count a := by
  unfold take at h
  split at h
  · rename_i hnil
    exact absurd hnil hne
  · rename_i proc rest hcons
    cases h
    refine ⟨proc, rfl, fun a => ?_⟩
    have := Family.count_all_update hi m.ready rest a
    rw [hcons, ← List.singleton_append, List.count_append] at this
    simp only [procs]
    omega

/-- **`get_mlq_proc`** answers NULL and changes nothing if the queues are empty; otherwise it takes one process out. -/
theorem getMlqProc_spec {m m' : Mlq} {r : Option Nat} (h : m.getMlqProc = (m', r)) :
    r = none ∧ m.procs = [] ∧ m' = m ∨ ∃ p, r = some p ∧ ∀ a, m.procs.count a = m'.procs.count a + [p].count a := by
  unfold getMlqProc at h
  split at h
  · rename_i hempty
    cases h
    exact Or.inl ⟨rfl, m.queueEmpty_iff.1 hempty, rfl⟩
  · rename_i hempty
    split at h
    · rename_i i hfind
      obtain ⟨hi, hne⟩ := find_some hfind
      exact Or.inr (take_spec hi hne h)
    · split at h
      · rename_i i hfind
        obtain ⟨hi, hne⟩ := find_some hfind
        exact Or.inr (@take_spec m.initSlot _ _ _ hi hne h)
      · rename_i hfind
        exact absurd hfind (find_initSlot (fun hnil => hempty (m.queueEmpty_iff.2 hnil)))

theorem putMlqProc_spec {m m' : Mlq} {prio proc : Nat} (h : m.putMlqProc prio proc = some m') (a : Nat) :
    m'.procs.count a = m.procs.count a + [proc].count a := by
  unfold putMlqProc enqueue at h
  split at h
  · rename_i hprio
    split at h
    · cases h
      have := Family.count_all_update hprio m.ready (m.ready prio ++ [proc]) a
      rw [List.count_append] at this
      simp only [procs]
      omega
    · cases h
  · cases h

end Mlq

end OsSim
