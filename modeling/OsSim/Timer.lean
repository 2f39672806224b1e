import Mathlib.Logic.Function.Basic
import OsSim.Lib.System
/-!
# Timer — the barrier between time slots (`src/timer.c`)

The timer thread waits until every attached device has done its job in the slot or has left, counts the slot, and
lets the devices go on.  Each section under a mutex is one action, and so is `_time++`.  A condition variable only
says when to look again; a thread may wake up by itself, so the signals do not restrict what can happen and are left
out.
-/
namespace OsSim

open System

inductive DevPhase where
  /-- Not inside `next_slot`. -/
  | outside
  /-- In `next_slot`, between its two sections. -/
  | told
  /-- In `pthread_cond_wait` on `timer_cond`. -/
  | waiting
  /-- After `detach_event`. -/
  | detached
  deriving DecidableEq, Repr

/-- `struct timer_id_t`, with the thread's place and how many calls of `next_slot` it has begun and completed. -/
structure TimerId where
  done : Bool
  fsh : Bool
  phase : DevPhase
  begun : Nat
  completed : Nat
  deriving DecidableEq, Repr

/-- Where `timer_routine` is, with its local `fsh` and `event` and the number of devices it has passed. -/
inductive TimerPc where
  | head
  /-- About to lock a device's `event_lock`, or past the last device. -/
  | collect (k fsh event : Nat)
  /-- In `pthread_cond_wait` on a device's `event_cond`. -/
  | asleep (k fsh event : Nat)
  /-- About to lock a device's `timer_lock`, or past the last device. -/
  | release (k fsh event : Nat)
  | exited
  deriving DecidableEq, Repr

/-- The globals of `timer.c`, with the devices of `dev_list` by their place in it. -/
structure Timer where
  time : Nat
  timerStop : Bool
  pc : TimerPc
  dev : Nat → TimerId

inductive TimerAct where
  /-- The next action of `timer_routine`. -/
  | routine
  /-- `next_slot`'s first section. -/
  | enter (i : Nat)
  /-- `next_slot`'s second section, up to the wait or the return; again after each wake-up. -/
  | test (i : Nat)
  /-- `detach_event` -/
  | detach (i : Nat)
  /-- `stop_timer`'s assignment. -/
  | stop
  deriving DecidableEq

namespace Timer

def setDev (s : Timer) (i : Nat) (d : TimerId) : Timer := { s with dev := Function.update s.dev i d }

def routine (n : Nat) (s : Timer) : Option Timer :=
  match s.pc with
  | .head => some { s with pc := if s.timerStop then .exited else .collect 0 0 0 }
  | .collect k fsh event =>
    if k < n then
      if !(s.dev k).done && !(s.dev k).fsh then some { s with pc := .asleep k fsh event }
      else some { s with pc := .collect (k + 1) (if (s.dev k).fsh then fsh + 1 else fsh) (event + 1) }
    else some { s with time := s.time + 1, pc := .release 0 fsh event }
  | .asleep k fsh event => some { s with pc := .collect k fsh event }
  | .release k fsh event =>
    if k < n then some { s.setDev k { s.dev k with done := false } with pc := .release (k + 1) fsh event }
    else some { s with pc := if fsh = event then .exited else .head }
  | .exited => none

/-- The first section of `next_slot`. -/
def enter (s : Timer) (i : Nat) : Option Timer :=
  if (s.dev i).phase = .outside then
    some (s.setDev i { s.dev i with done := true, phase := .told, begun := (s.dev i).begun + 1 })
  else none

/-- The second section of `next_slot`. -/
def test (s : Timer) (i : Nat) : Option Timer :=
  if (s.dev i).phase = .told ∨ (s.dev i).phase = .waiting then
    if (s.dev i).done then some (s.setDev i { s.dev i with phase := .waiting })
    else some (s.setDev i { s.dev i with phase := .outside, completed := (s.dev i).completed + 1 })
  else none

def detach (s : Timer) (i : Nat) : Option Timer :=
  if (s.dev i).phase = .outside then some (s.setDev i { s.dev i with fsh := true, phase := .detached }) else none

def step (n : Nat) (s : Timer) : TimerAct → Option Timer
  | .routine => s.routine n
  | .enter i => if i < n then s.enter i else none
  | .test i => if i < n then s.test i else none
  | .detach i => if i < n then s.detach i else none
  | .stop => some { s with timerStop := true }

/-- The timer as `attach_event` and `start_timer` leave it. -/
def start : Timer := ⟨0, false, .head, fun _ => ⟨false, false, .outside, 0, 0⟩⟩

/-- **What the timer's action does**, from each place where `timer_routine` can be. -/
inductive RoutineStep (n : Nat) (s : Timer) : Timer → Prop where
  | begins (hpc : s.pc = .head) : RoutineStep n s { s with pc := if s.timerStop then .exited else .collect 0 0 0 }
  | sleeps {k fsh event} (hpc : s.pc = .collect k fsh event) (hk : k < n)
      (hclear : (s.dev k).done = false ∧ (s.dev k).fsh = false) : RoutineStep n s { s with pc := .asleep k fsh event }
  | passes {k fsh event} (hpc : s.pc = .collect k fsh event) (hk : k < n)
      (hset : (s.dev k).done = true ∨ (s.dev k).fsh = true) :
      RoutineStep n s { s with pc := .collect (k + 1) (if (s.dev k).fsh then fsh + 1 else fsh) (event + 1) }
  | counts {k fsh event} (hpc : s.pc = .collect k fsh event) (hk : n ≤ k) :
      RoutineStep n s { s with time := s.time + 1, pc := .release 0 fsh event }
  | wakes {k fsh event} (hpc : s.pc = .asleep k fsh event) : RoutineStep n s { s with pc := .collect k fsh event }
  | letsGo {k fsh event} (hpc : s.pc = .release k fsh event) (hk : k < n) :
      RoutineStep n s { s.setDev k { s.dev k with done := false } with pc := .release (k + 1) fsh event }
  | ends {k fsh event} (hpc : s.pc = .release k fsh event) (hk : n ≤ k) :
      RoutineStep n s { s with pc := if fsh = event then .exited else .head }

theorem routine_cases {n : Nat} {s s' : Timer} (h : s.routine n = some s') : RoutineStep n s s' := by
  unfold routine at h
  split at h
  · rename_i hpc
    cases h
    exact .begins hpc
  · rename_i k fsh event hpc
    split at h
    · rename_i hk
      split at h
      · rename_i hclear
        cases h
        exact .sleeps hpc hk (by simpa using hclear)
      · rename_i hset
        cases h
        simp only [Bool.and_eq_true, Bool.not_eq_true', not_and, Bool.not_eq_false] at hset
        refine .passes hpc hk ?_
        cases hdone : (s.dev k).done with
        | true => exact Or.inl rfl
        | false => exact Or.inr (hset hdone)
    · rename_i hk
      cases h
      exact .counts hpc (Nat.le_of_not_lt hk)
  · rename_i hpc
    cases h
    exact .wakes hpc
  · rename_i hpc
    split at h
    · rename_i hk
      cases h
      exact .letsGo hpc hk
    · rename_i hk
      cases h
      exact .ends hpc (Nat.le_of_not_lt hk)
  · cases h

/-! ## The invariant -/

/-- The slot has been counted and the device not been let go yet. -/
def Pending (pc : TimerPc) (i : Nat) : Prop :=
  match pc with
  | .release k _ _ => k ≤ i
  | _ => False

/-- The timer has found the device to be done or gone in this slot. -/
def Passed (pc : TimerPc) (i : Nat) : Prop :=
  match pc with
  | .collect k _ _ | .asleep k _ _ => i < k
  | _ => False

/-- **Where a device can be** while `t` slots have been counted. -/
structure DevInv (t : Nat) (pc : TimerPc) (i : Nat) (d : TimerId) : Prop where
  passed : Passed pc i → d.done = true ∨ d.fsh = true
  outside : d.phase = .outside → d.done = false ∧ d.fsh = false ∧ ¬ Pending pc i ∧ d.begun = t ∧ d.completed = t
  inside : d.phase = .told ∨ d.phase = .waiting → d.fsh = false ∧ d.begun = d.completed + 1 ∧
    (d.done = true ∧ d.begun = t + 1 ∧ ¬ Pending pc i ∨ d.done = true ∧ d.begun = t ∧ Pending pc i ∨
      d.done = false ∧ d.begun = t ∧ ¬ Pending pc i)
  detached : d.phase = .detached → d.fsh = true

def Inv (n : Nat) (s : Timer) : Prop := ∀ i < n, DevInv s.time s.pc i (s.dev i)

theorem start_inv (n : Nat) : Inv n start := fun i _ =>
  ⟨fun h => h.elim, fun _ => ⟨rfl, rfl, fun h => h.elim, rfl, rfl⟩, fun h => (by rcases h with h | h <;> cases h),
    fun h => (by cases h)⟩

/-- The timer moves and the devices do not: each is as pending as before, and passed only where it was or is done. -/
theorem DevInv.move {t : Nat} {pc pc' : TimerPc} {i : Nat} {d : TimerId} (h : DevInv t pc i d)
    (hpend : Pending pc' i ↔ Pending pc i) (hpass : Passed pc' i → Passed pc i ∨ d.done = true ∨ d.fsh = true) :
    DevInv t pc' i d :=
  ⟨fun hp => (hpass hp).elim h.passed id, by simpa only [hpend] using h.outside, by simpa only [hpend] using h.inside,
    h.detached⟩

theorem DevInv.tick {t k fsh event fsh' event' : Nat} {i : Nat} {d : TimerId} (h : DevInv t (.collect k fsh event) i d)
    (hik : i < k) : DevInv (t + 1) (.release 0 fsh' event') i d := by
  have hpassed := h.passed hik
  refine ⟨fun hp => hp.elim, fun hout => ?_, fun hin => ?_, h.detached⟩
  · obtain ⟨hdone, hfsh, -⟩ := h.outside hout
    rw [hdone, hfsh] at hpassed
    simp at hpassed
  · obtain ⟨hfsh, hcount, hcases⟩ := h.inside hin
    have hdone : d.done = true := by simpa [hfsh] using hpassed
    refine ⟨hfsh, hcount, ?_⟩
    rcases hcases with ⟨-, hbegun, -⟩ | ⟨-, -, hpend⟩ | ⟨hnot, -, -⟩
    · exact Or.inr (Or.inl ⟨hdone, hbegun, Nat.zero_le i⟩)
    · exact hpend.elim
    · rw [hdone] at hnot
      cases hnot

theorem DevInv.letGo {t k fsh event : Nat} {d : TimerId} (h : DevInv t (.release k fsh event) k d) :
    DevInv t (.release (k + 1) fsh event) k { d with done := false } := by
  have hnot : ¬ Pending (.release (k + 1) fsh event) k := Nat.not_succ_le_self k
  refine ⟨fun hp => hp.elim, fun hout => ?_, fun hin => ?_, h.detached⟩
  · exact absurd (Nat.le_refl k) (h.outside hout).2.2.1
  · obtain ⟨hfsh, hcount, hcases⟩ := h.inside hin
    refine ⟨hfsh, hcount, Or.inr (Or.inr ⟨rfl, ?_, hnot⟩)⟩
    rcases hcases with ⟨-, -, hpend⟩ | ⟨-, hbegun, -⟩ | ⟨-, hbegun, -⟩
    · exact absurd (Nat.le_refl k) hpend
    · exact hbegun
    · exact hbegun

theorem routine_inv {n : Nat} {s s' : Timer} (h : s.routine n = some s') (hinv : Inv n s) : Inv n s' := by
  intro i hi
  have hdev := hinv i hi
  cases routine_cases h with
  | begins hpc =>
    rw [hpc] at hdev
    dsimp only
    split
    · exact hdev.move .rfl (fun hp => hp.elim)
    · exact hdev.move .rfl (fun hp => absurd hp (Nat.not_lt_zero i))
  | sleeps hpc hk hclear =>
    rw [hpc] at hdev
    exact hdev.move .rfl Or.inl
  | passes hpc hk hset =>
    rw [hpc] at hdev
    refine hdev.move .rfl (fun hp => ?_)
    rcases Nat.lt_succ_iff_lt_or_eq.1 hp with hlt | rfl
    · exact Or.inl hlt
    · exact Or.inr hset
  | counts hpc hk =>
    rw [hpc] at hdev
    exact hdev.tick (Nat.lt_of_lt_of_le hi hk)
  | wakes hpc =>
    rw [hpc] at hdev
    exact hdev.move .rfl Or.inl
  | @letsGo k fsh event hpc hk =>
    rw [hpc] at hdev
    by_cases hik : i = k
    · subst hik
      simpa [setDev] using hdev.letGo
    · have hpend : Pending (.release (k + 1) fsh event) i ↔ Pending (.release k fsh event) i := by
        simp only [Pending]
        omega
      simpa [setDev, hik] using hdev.move hpend (fun hp => hp.elim)
  | @ends k fsh event hpc hk =>
    rw [hpc] at hdev
    have hpend : ¬ Pending (.release k fsh event) i := by
      simp only [Pending]
      omega
    dsimp only
    split
    · exact hdev.move (iff_of_false id hpend) (fun hp => hp.elim)
    · exact hdev.move (iff_of_false id hpend) (fun hp => hp.elim)

theorem Inv.setDev {n i : Nat} {s : Timer} {d : TimerId} (hinv : Inv n s) (hd : DevInv s.time s.pc i d) :
    Inv n (s.setDev i d) := by
  intro j hj
  by_cases hij : j = i
  · subst hij
    simpa [Timer.setDev] using hd
  · simpa [Timer.setDev, hij] using hinv j hj

theorem enter_inv {n i : Nat} {s s' : Timer} (hi : i < n) (h : s.enter i = some s') (hinv : Inv n s) : Inv n s' := by
  unfold enter at h
  split at h
  · rename_i hout
    cases h
    obtain ⟨hdone, hfsh, hpend, hbegun, hcompleted⟩ := (hinv i hi).outside hout
    refine hinv.setDev ⟨fun _ => Or.inl rfl, fun h => (by cases h), fun _ => ?_, fun h => (by cases h)⟩
    exact ⟨hfsh, by simp [hbegun, hcompleted], Or.inl ⟨rfl, by simp [hbegun], hpend⟩⟩
  · cases h

theorem test_inv {n i : Nat} {s s' : Timer} (hi : i < n) (h : s.test i = some s') (hinv : Inv n s) : Inv n s' := by
  unfold test at h
  split at h
  · rename_i hin
    have hdev := hinv i hi
    obtain ⟨hfsh, hcount, hcases⟩ := hdev.inside hin
    split at h
    · cases h
      exact hinv.setDev ⟨hdev.passed, fun h => (by cases h), fun _ => ⟨hfsh, hcount, hcases⟩, fun h => (by cases h)⟩
    · rename_i hdone
      cases h
      have hdone' : (s.dev i).done = false := by simpa using hdone
      refine hinv.setDev ⟨hdev.passed, fun _ => ⟨hdone', hfsh, ?_⟩, fun h => (by rcases h with h | h <;> cases h),
        fun h => (by cases h)⟩
      rcases hcases with ⟨ht, -, -⟩ | ⟨ht, -, -⟩ | ⟨-, hbegun, hpend⟩
      · rw [hdone'] at ht; cases ht
      · rw [hdone'] at ht; cases ht
      · exact ⟨hpend, hbegun, hcount ▸ hbegun⟩
  · cases h

theorem detach_inv {n i : Nat} {s s' : Timer} (h : s.detach i = some s') (hinv : Inv n s) : Inv n s' := by
  unfold detach at h
  split at h
  · cases h
    exact hinv.setDev ⟨fun _ => Or.inr rfl, fun h => (by cases h), fun h => (by rcases h with h | h <;> cases h),
      fun _ => rfl⟩
  · cases h

theorem step_inv {n : Nat} {s s' : Timer} {a : TimerAct} (h : step n s a = some s') (hinv : Inv n s) : Inv n s' := by
  cases a with
  | routine => exact routine_inv h hinv
  | enter i =>
    by_cases hi : i < n
    · exact enter_inv hi (by simpa [step, hi] using h) hinv
    · simp [step, hi] at h
  | test i =>
    by_cases hi : i < n
    · exact test_inv hi (by simpa [step, hi] using h) hinv
    · simp [step, hi] at h
  | detach i =>
    by_cases hi : i < n
    · exact detach_inv (by simpa [step, hi] using h) hinv
    · simp [step, hi] at h
  | stop =>
    cases h
    exact hinv

theorem reach_inv {n : Nat} {s : Timer} (h : Reach (step n) start s) : Inv n s :=
  h.inv (start_inv n) (fun ha => step_inv ha)

/-! ## What each action changes -/

theorem step_enter {n i : Nat} {s s' : Timer} (h : step n s (.enter i) = some s') :
    (s.dev i).phase = .outside ∧ s'.time = s.time ∧ (∀ j, j ≠ i → s'.dev j = s.dev j) ∧ (s'.dev i).phase = .told ∧
      (s'.dev i).begun = (s.dev i).begun + 1 := by
  simp only [step, enter] at h
  split at h
  · split at h
    · rename_i hout
      cases h
      exact ⟨hout, rfl, fun j hj => by simp [setDev, hj], by simp [setDev], by simp [setDev]⟩
    · cases h
  · cases h

theorem step_test {n i : Nat} {s s' : Timer} (h : step n s (.test i) = some s') :
    ((s.dev i).phase = .told ∨ (s.dev i).phase = .waiting) ∧ s'.time = s.time ∧ (∀ j, j ≠ i → s'.dev j = s.dev j) ∧
      (s'.dev i).begun = (s.dev i).begun ∧
        ((s'.dev i).phase = .waiting ∨ (s'.dev i).phase = .outside ∧ (s.dev i).done = false) := by
  simp only [step, test] at h
  split at h
  · split at h
    · rename_i hin
      split at h
      · cases h
        exact ⟨hin, rfl, fun j hj => by simp [setDev, hj], by simp [setDev], Or.inl (by simp [setDev])⟩
      · rename_i hdone
        cases h
        exact ⟨hin, rfl, fun j hj => by simp [setDev, hj], by simp [setDev],
          Or.inr ⟨by simp [setDev], by simpa using hdone⟩⟩
    · cases h
  · cases h

theorem step_sleeps {n i : Nat} {s s' : Timer} (h : step n s (.test i) = some s') (hin : (s'.dev i).phase ≠ .outside) :
    s'.time = s.time ∧ (∀ j, j ≠ i → s'.dev j = s.dev j) ∧ (s'.dev i).begun = (s.dev i).begun ∧
      (s'.dev i).phase = .waiting := by
  obtain ⟨-, htime, hdev, hbegun, hend⟩ := step_test h
  exact ⟨htime, hdev, hbegun, hend.resolve_right (fun hout => hin hout.1)⟩

theorem Inv.begun_letOut {n i : Nat} {s s' : Timer} (hinv : Inv n s) (hi : i < n) (h : step n s (.test i) = some s')
    (hout : (s'.dev i).phase = .outside) : (s.dev i).begun = s.time := by
  obtain ⟨hin, -, -, -, hend⟩ := step_test h
  have hdone : (s.dev i).done = false := by
    rcases hend with hwait | ⟨-, hdone⟩
    · simp [hout] at hwait
    · exact hdone
  obtain ⟨-, -, hcases⟩ := (hinv i hi).inside hin
  rcases hcases with hc | hc | hc
  · simp [hdone] at hc
  · exact hc.2.1
  · exact hc.2.1

theorem Inv.begun_enters {n i : Nat} {s s' : Timer} (hinv : Inv n s) (hi : i < n) (h : step n s (.enter i) = some s') :
    (s'.dev i).begun = s'.time + 1 := by
  obtain ⟨hout, htime, -, -, hbegun⟩ := step_enter h
  rw [hbegun, htime, ((hinv i hi).outside hout).2.2.2.1]

theorem step_detach {n i : Nat} {s s' : Timer} (h : step n s (.detach i) = some s') :
    (s.dev i).phase = .outside ∧ s'.time = s.time ∧ (∀ j, j ≠ i → s'.dev j = s.dev j) ∧ (s'.dev i).phase = .detached ∧
      (s'.dev i).begun = (s.dev i).begun := by
  simp only [step, detach] at h
  split at h
  · split at h
    · rename_i hout
      cases h
      exact ⟨hout, rfl, fun j hj => by simp [setDev, hj], by simp [setDev], by simp [setDev]⟩
    · cases h
  · cases h

/-- **The timer thread moves no device**, and counts a slot only after it has passed every one of them. -/
theorem step_routine {n : Nat} {s s' : Timer} (h : step n s .routine = some s') :
    (∀ i, (s'.dev i).phase = (s.dev i).phase ∧ (s'.dev i).begun = (s.dev i).begun) ∧
      (s'.time = s.time ∨ ∀ i < n, Passed s.pc i) := by
  cases routine_cases h with
  | counts hpc hk =>
    refine ⟨fun i => ⟨rfl, rfl⟩, Or.inr (fun i hi => ?_)⟩
    rw [hpc]
    exact Nat.lt_of_lt_of_le hi hk
  | @letsGo k fsh event hpc hk =>
    refine ⟨fun i => ?_, Or.inl rfl⟩
    by_cases hik : i = k
    · subst hik
      simp [setDev]
    · simp [setDev, hik]
  | _ => exact ⟨fun i => ⟨rfl, rfl⟩, Or.inl rfl⟩

/-! ## Lockstep -/

theorem step_time {n i : Nat} (hi : i < n) {s s' : Timer} {a : TimerAct} (h : step n s a = some s') (hinv : Inv n s)
    (hout : (s.dev i).phase = .outside) : s'.time = s.time := by
  cases a with
  | routine =>
    refine (step_routine h).2.resolve_right (fun hall => ?_)
    -- the timer would have passed the device
    obtain ⟨hdone, hfsh, -⟩ := (hinv i hi).outside hout
    have hpassed := (hinv i hi).passed (hall i hi)
    rw [hdone, hfsh] at hpassed
    simp at hpassed
  | enter j => exact (step_enter h).2.1
  | test j => exact (step_test h).2.1
  | detach j => exact (step_detach h).2.1
  | stop => cases h; rfl

abbrev StaysOutside (n i : Nat) : Timer → Timer → Prop :=
  Relation.ReflTransGen (fun s s' => Next (step n) s s' ∧ (s.dev i).phase = .outside ∧ (s'.dev i).phase = .outside)

/-- **The devices keep step.**  Whatever the interleaving, a device that has not detached has begun as many calls of
`next_slot` as slots have been counted, or one more; outside `next_slot` it has completed that many, and no slot is
counted until it enters again or detaches.  So two of them are never more than one call apart. -/
theorem lockstep {n : Nat} {s : Timer} (h : Reach (step n) start s) :
    (∀ i < n, (s.dev i).phase ≠ .detached → (s.dev i).begun = s.time ∨ (s.dev i).begun = s.time + 1) ∧
      (∀ i < n, (s.dev i).phase = .outside → (s.dev i).begun = s.time ∧ (s.dev i).completed = s.time ∧
        ∀ s', StaysOutside n i s s' → s'.time = s.time) ∧
      ∀ i < n, ∀ j < n, (s.dev i).phase ≠ .detached → (s.dev j).phase ≠ .detached →
        (s.dev i).begun ≤ (s.dev j).begun + 1 := by
  have hinv := reach_inv h
  have hbegun : ∀ i < n, (s.dev i).phase ≠ .detached → (s.dev i).begun = s.time ∨ (s.dev i).begun = s.time + 1 := by
    intro i hi hne
    have hdev := hinv i hi
    cases hphase : (s.dev i).phase with
    | outside => exact Or.inl (hdev.outside hphase).2.2.2.1
    | told => rcases (hdev.inside (Or.inl hphase)).2.2 with hc | hc | hc <;> simp [hc.2.1]
    | waiting => rcases (hdev.inside (Or.inr hphase)).2.2 with hc | hc | hc <;> simp [hc.2.1]
    | detached => exact absurd hphase hne
  refine ⟨hbegun, fun i hi hout => ?_, fun i hi j hj hni hnj => ?_⟩
  · obtain ⟨-, -, -, hb, hc⟩ := (hinv i hi).outside hout
    refine ⟨hb, hc, fun s' hpath => ?_⟩
    exact Reach.const (fun s => s.time) (fun ha hQ => step_inv ha hQ) (fun ha hQ hP => step_time hi ha hQ hP) hinv hpath
  · rcases hbegun i hi hni with h1 | h1 <;> rcases hbegun j hj hnj with h2 | h2 <;> omega

/-- Two devices: device 0 is let go and begins the next slot while the timer has device 1 still to let go. -/
theorem lockstep_overtaking : ∃ s, Reach (step 2) start s ∧ s.pc = .release 1 0 2 ∧
    (s.dev 0).begun = 2 ∧ (s.dev 1).begun = 1 ∧ s.time = 1 ∧
    ∀ i < 2, (s.dev i).phase ≠ .detached → (s.dev i).begun = s.time ∨ (s.dev i).begun = s.time + 1 := by
  have hsome : (runActions (step 2) [.enter 0, .enter 1, .routine, .routine, .routine, .routine, .test 1, .routine,
      .test 0, .enter 0] start).any (fun s => s.pc = .release 1 0 2 ∧ (s.dev 0).begun = 2 ∧ (s.dev 1).begun = 1 ∧
        s.time = 1) = true := by
    decide +kernel
  obtain ⟨s, hs, hq⟩ := (Option.any_eq_true _ _).1 hsome
  simp only [decide_eq_true_iff] at hq
  have hreach := reach_of_runActions _ hs
  exact ⟨s, hreach, hq.1, hq.2.1, hq.2.2.1, hq.2.2.2, (lockstep hreach).1⟩

end Timer

end OsSim
