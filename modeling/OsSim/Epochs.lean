import OsSim.Lib.Rounds
import OsSim.Lib.System
import OsSim.Sched
/-!
# Epochs — the ready queues are served in rounds

Between two refills of the slot table queue `i` is served `MAX_PRIO - i` times at most, and as often as that if it
is not empty when the table is filled again; a process that waits is passed over a bounded number of times.
-/
namespace OsSim

open System

namespace Mlq

def busy (m : Mlq) (i : Nat) : Bool := !(m.ready i).isEmpty

/-- `get_mlq_proc` finds no slot left in the queues that are not empty, and calls `init_slot`. -/
def refills (m : Mlq) : Bool := !m.queueEmpty && m.find.isNone

def renewed (m : Mlq) : Mlq := if m.refills then m.initSlot else m

def chosen (m : Mlq) : Option Nat := if m.queueEmpty then none else m.renewed.find

def counted (m : Mlq) (t : Rounds.Tally Nat) : Rounds.Tally Nat :=
  match m.chosen with
  | none => t
  | some i => ((if m.refills then t.renew else t).serve i).watch (m.getMlqProc).1.busy

theorem getMlqProc_eq (m : Mlq) :
    m.getMlqProc = match m.chosen with
      | none => (m, none)
      | some i => m.renewed.take i := by
  unfold getMlqProc chosen renewed refills
  by_cases hempty : m.queueEmpty = true
  · simp [hempty]
  · cases hfind : m.find with
    | some i => simp [hempty, hfind]
    | none =>
      have hsome := find_initSlot (fun hnil => hempty (m.queueEmpty_iff.2 hnil))
      obtain ⟨i, hi⟩ := Option.ne_none_iff_exists'.1 hsome
      simp [hempty, hi]

theorem chosen_of_refills {m : Mlq} (h : m.refills = true) : m.chosen ≠ none := by
  have hempty : m.queueEmpty = false := by
    simp only [refills, Bool.and_eq_true, Bool.not_eq_true'] at h
    exact h.1
  rw [chosen, renewed, if_pos h, if_neg (by simp [hempty])]
  exact find_initSlot (fun hnil => by simp [m.queueEmpty_iff.2 hnil] at hempty)

theorem chosen_some {m : Mlq} {i : Nat} (h : m.chosen = some i) : m.renewed.find = some i := by
  unfold chosen at h
  split at h
  · cases h
  · exact h

theorem counted_used (m : Mlq) (t : Rounds.Tally Nat) (i : Nat) :
    (m.counted t).used i = (if m.refills then 0 else t.used i) + (if m.chosen = some i then 1 else 0) := by
  unfold counted
  cases hchosen : m.chosen with
  | none =>
    have hrefills : m.refills ≠ true := fun h => chosen_of_refills h hchosen
    simp [hrefills]
  | some j =>
    by_cases hji : i = j
    · subst hji
      by_cases hrefills : m.refills = true <;> simp [hrefills, Rounds.Tally.watch, Rounds.Tally.serve, Rounds.Tally.renew]
    · have hij : j ≠ i := fun e => hji e.symm
      by_cases hrefills : m.refills = true <;>
        simp [hrefills, hji, hij, Rounds.Tally.watch, Rounds.Tally.serve, Rounds.Tally.renew]

theorem find_first {m : Mlq} {i : Nat} (h : m.find = some i) :
    i < maxPrio ∧ m.busy i = true ∧ m.slot i ≠ 0 ∧ ∀ j < i, m.busy j = true → m.slot j = 0 := by
  obtain ⟨hp, hi, hbefore⟩ := List.find?_range_eq_some.1 h
  simp only [Bool.and_eq_true, bne_iff_ne] at hp
  refine ⟨List.mem_range.1 hi, hp.1, hp.2, fun j hj hbusy => ?_⟩
  have := hbefore j hj
  simp only [busy] at hbusy
  simpa [hbusy] using this

theorem find_none {m : Mlq} (h : m.find = none) {j : Nat} (hj : j < maxPrio) (hbusy : m.busy j = true) :
    m.slot j = 0 := by
  have := List.find?_eq_none.1 h j (List.mem_range.2 hj)
  simp only [busy] at hbusy
  simpa [hbusy] using this

theorem take_first {m : Mlq} {i : Nat} (h : m.busy i = true) :
    (m.take i).1.slot = Function.update m.slot i (m.slot i - 1) ∧ ∀ j, (m.take i).1.busy j = true →
      m.busy j = true := by
  unfold take
  cases hready : m.ready i with
  | nil => simp [busy, hready] at h
  | cons proc rest =>
    refine ⟨rfl, fun j hj => ?_⟩
    by_cases hji : j = i
    · subst hji
      exact h
    · simpa [busy, hji] using hj

end Mlq

structure Epoch where
  mlq : Mlq
  tally : Rounds.Tally Nat

inductive MlqAct where
  | add (prio proc : Nat)
  | put (prio proc : Nat)
  | get

namespace Epoch

def start : Epoch := ⟨Mlq.initSlot ⟨fun _ => [], fun _ => 0⟩, .start⟩

def step (s : Epoch) : MlqAct → Option Epoch
  | .add prio proc | .put prio proc => (s.mlq.putMlqProc prio proc).map (fun m => ⟨m, s.tally.watch m.busy⟩)
  | .get => some ⟨(s.mlq.getMlqProc).1, s.mlq.counted s.tally⟩

/-- **The slot table counts** the dispatches of the round, and the round is kept to. -/
structure Inv (s : Epoch) : Prop where
  slots : ∀ i < maxPrio, s.mlq.slot i = (maxPrio : Int) - i - s.tally.used i
  round : Rounds.Inv (Finset.range maxPrio) (fun i => maxPrio - i) s.mlq.busy s.tally

theorem start_inv : start.Inv := ⟨fun i _ => by simp [start, Mlq.initSlot, Rounds.Tally.start], Rounds.start_inv _⟩

section Step

variable {s s' : Epoch}

theorem Inv.spent (h : s.Inv) {i : Nat} (hi : i < maxPrio) (hslot : s.mlq.slot i = 0) :
    s.tally.used i = maxPrio - i := by
  have := h.slots i hi
  omega

theorem Inv.over (h : s.Inv) (hrefills : s.mlq.refills = true) {i : Nat} (hi : i < maxPrio)
    (hbusy : s.mlq.busy i = true) :
    s.tally.used i = maxPrio - i := by
  simp only [Mlq.refills, Bool.and_eq_true, Option.isNone_iff_eq_none] at hrefills
  exact h.spent hi (Mlq.find_none hrefills.2 hi hbusy)

theorem Inv.renewed (h : s.Inv) : Inv ⟨s.mlq.renewed, if s.mlq.refills then s.tally.renew else s.tally⟩ := by
  unfold Mlq.renewed
  by_cases hrefills : s.mlq.refills = true
  · rw [if_pos hrefills, if_pos hrefills]
    refine ⟨fun i _ => by simp [Mlq.initSlot, Rounds.Tally.renew], h.round.renew (fun j hj hbusy => ?_) (fun j hj => ?_)⟩
    · exact (h.over hrefills (Finset.mem_range.1 hj) hbusy).ge
    · exact Nat.sub_pos_of_lt (Finset.mem_range.1 hj)
  · rw [if_neg hrefills, if_neg hrefills]
    exact h

theorem Inv.take {m : Mlq} {t : Rounds.Tally Nat} (h : Inv ⟨m, t⟩) {i : Nat} (hfind : m.find = some i) :
    Inv ⟨(m.take i).1, (t.serve i).watch (m.take i).1.busy⟩ := by
  obtain ⟨hslots, hround⟩ := h
  dsimp only at hslots hround
  obtain ⟨hi, hbusy, hslot, hbefore⟩ := Mlq.find_first hfind
  obtain ⟨htake, hsub⟩ := Mlq.take_first hbusy
  have hfirst : Rounds.First (Finset.range maxPrio) (fun i => maxPrio - i) m.busy t i := by
    refine ⟨Finset.mem_range.2 hi, hbusy, ?_, fun j hj hji hbusyj => ?_⟩
    · have := hslots i hi
      have := hround.within i (Finset.mem_range.2 hi)
      omega
    · have := hslots j (Finset.mem_range.1 hj)
      have := hbefore j hji hbusyj
      omega
  refine ⟨fun j hj => ?_, hround.serve hfirst hsub⟩
  have := hslots j hj
  change (m.take i).1.slot j = (maxPrio : Int) - j - ((t.serve i).used j : Nat)
  rw [htake]
  by_cases hji : j = i
  · subst hji
    simp only [Rounds.Tally.serve, Function.update_self]
    omega
  · simpa [Rounds.Tally.serve, hji] using this

theorem Inv.get (h : s.Inv) : Inv ⟨(s.mlq.getMlqProc).1, s.mlq.counted s.tally⟩ := by
  unfold Mlq.counted
  rw [Mlq.getMlqProc_eq]
  cases hchosen : s.mlq.chosen with
  | none => exact h
  | some i => exact h.renewed.take (Mlq.chosen_some hchosen)

theorem Inv.put (h : s.Inv) {prio proc : Nat} {m : Mlq} (hput : s.mlq.putMlqProc prio proc = some m) :
    Inv ⟨m, s.tally.watch m.busy⟩ := by
  unfold Mlq.putMlqProc at hput
  split at hput
  · obtain ⟨q, -, rfl⟩ := Option.map_eq_some_iff.1 hput
    exact ⟨h.slots, h.round.watch _⟩
  · cases hput

theorem step_inv {a : MlqAct} (hstep : s.step a = some s') (h : s.Inv) : s'.Inv := by
  cases a with
  | add prio proc | put prio proc =>
    obtain ⟨m, hput, rfl⟩ := Option.map_eq_some_iff.1 hstep
    exact h.put hput
  | get =>
    cases hstep
    exact h.get

end Step

/-- **Weighted epochs.**  In every state a queue's slots are `MAX_PRIO` minus its priority, less its dispatches
since the last refill; and when the table is filled again, every queue that is not empty has been served that often
exactly. -/
theorem slots_counted {s : Epoch} (h : Reach step start s) :
    (∀ i < maxPrio, s.mlq.slot i = (maxPrio : Int) - i - s.tally.used i ∧ 0 ≤ s.mlq.slot i) ∧
      (s.mlq.refills = true → ∀ i < maxPrio, s.tally.used i ≤ maxPrio - i ∧
        (s.mlq.ready i ≠ [] → s.tally.used i = maxPrio - i)) := by
  have hinv : s.Inv := h.inv start_inv (fun ha hs => step_inv ha hs)
  refine ⟨fun i hi => ⟨hinv.slots i hi, ?_⟩, fun hrefills i hi => ⟨?_, fun hne => ?_⟩⟩
  · have := hinv.slots i hi
    have := hinv.round.within i (Finset.mem_range.2 hi)
    omega
  · exact hinv.round.within i (Finset.mem_range.2 hi)
  · exact hinv.over hrefills hi (by simpa [Mlq.busy] using hne)

/-- The queue of priority 139 has its one slot used, and its process is back. -/
theorem slots_counted_lowest : ∃ s, Reach step start s ∧ s.mlq.refills = true ∧ s.mlq.ready 139 = [7] ∧
    s.tally.used 139 = 1 := by
  have hsome : (runActions step [.add 139 7, .get, .put 139 7] start).any
      (fun s => s.mlq.refills = true ∧ s.mlq.ready 139 = [7]) = true := by
    decide +kernel
  obtain ⟨s, hs, hq⟩ := (Option.any_eq_true _ _).1 hsome
  simp only [decide_eq_true_iff] at hq
  have hreach := reach_of_runActions _ hs
  exact ⟨s, hreach, hq.1, hq.2, ((slots_counted hreach).2 hq.1 139 (by decide)).2 (by simp [hq.2])⟩

/-- **Bounded bypass.**  While queue `i` waits, the others are served no more often than the slots of all of them
and once more those of the queues before it. -/
theorem bypass_bounded {s : Epoch} (h : Reach step start s) {i : Nat} (hi : i < maxPrio) :
    s.tally.waits i ≤ ∑ j ∈ (Finset.range maxPrio).erase i, (maxPrio - j) + ∑ j ∈ Finset.range i, (maxPrio - j) := by
  have hinv : s.Inv := h.inv start_inv (fun ha hs => step_inv ha hs)
  have hahead : Rounds.ahead (Finset.range maxPrio) (fun j => maxPrio - j) i = ∑ j ∈ Finset.range i, (maxPrio - j) := by
    refine Finset.sum_congr (Finset.ext (fun j => ?_)) (fun _ _ => rfl)
    simp only [Finset.mem_filter, Finset.mem_range]
    omega
  rw [← hahead]
  exact (hinv.round.passed i (Finset.mem_range.2 hi)).bound

/-- Queue 139 is passed over twice, for a process of priority 138. -/
theorem bypass_bounded_lowest : ∃ s, Reach step start s ∧ s.tally.waits 139 = 2 ∧ s.tally.waits 139 ≤
    ∑ j ∈ (Finset.range maxPrio).erase 139, (maxPrio - j) + ∑ j ∈ Finset.range 139, (maxPrio - j) := by
  have hsome : (runActions step [.add 139 7, .add 138 4, .get, .put 138 4, .get] start).any
      (fun s => s.tally.waits 139 = 2) = true := by
    decide +kernel
  obtain ⟨s, hs, hq⟩ := (Option.any_eq_true _ _).1 hsome
  simp only [decide_eq_true_iff] at hq
  have hreach := reach_of_runActions _ hs
  exact ⟨s, hreach, hq, bypass_bounded hreach (by decide)⟩

end Epoch

end OsSim
