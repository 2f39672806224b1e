import Mathlib.Data.List.Count
import OsSim.Timer
/-!
# Wakeup — the barrier with its condition variables

`Timer` lets a sleeping thread look again at any time.  Here it does so on a signal, or by itself: `pthread_cond_signal`
reaches the thread that sleeps on the variable at that moment and is lost otherwise.  Each device makes its calls of
`next_slot` and then detaches.  Whoever sleeps without a signal has a reason to, and somebody else can go on.
-/
namespace OsSim

open System

def TimerPc.sleepsOn : TimerPc → Option Nat
  | .asleep k _ _ => some k
  | _ => none

structure Wakeup where
  timer : Timer
  /-- The timer has been signalled since it fell asleep. -/
  eventSig : Bool
  /-- The device has been signalled on its `timer_cond` since it fell asleep. -/
  timerSig : Nat → Bool
  /-- The calls of `next_slot` the device has still to make. -/
  calls : Nat → Nat

inductive WakeupAct where
  | timer
  | dev (i : Nat)
  /-- The timer wakes up without a signal. -/
  | timerWakes
  /-- The device wakes up without a signal. -/
  | devWakes (i : Nat)

def WakeupAct.spurious : WakeupAct → Bool
  | .timer | .dev _ => false
  | .timerWakes | .devWakes _ => true

namespace Wakeup

/-- `pthread_cond_signal(&timer_id->event_cond)` -/
def signalEvent (s : Wakeup) (i : Nat) : Bool := s.eventSig || decide (s.timer.pc.sleepsOn = some i)

/-- `pthread_cond_signal(&temp->id.timer_cond)`, in the loop that lets the devices go. -/
def signalTimer (n : Nat) (s : Wakeup) : Nat → Bool :=
  match s.timer.pc with
  | .release k _ _ => if k < n ∧ (s.timer.dev k).phase = .waiting then Function.update s.timerSig k true else s.timerSig
  | _ => s.timerSig

def timerGoes (n : Nat) (s : Wakeup) : Option Wakeup :=
  (s.timer.step n .routine).map (fun t => { s with timer := t, eventSig := false, timerSig := s.signalTimer n })

/-- A device's thread: its calls of `next_slot`, then `detach_event`. -/
def devGoes (n : Nat) (s : Wakeup) (i : Nat) : Option Wakeup :=
  match (s.timer.dev i).phase with
  | .outside =>
    if s.calls i = 0 then (s.timer.step n (.detach i)).map (fun t => { s with timer := t, eventSig := s.signalEvent i })
    else
      (s.timer.step n (.enter i)).map (fun t =>
        { s with timer := t, eventSig := s.signalEvent i, calls := Function.update s.calls i (s.calls i - 1) })
  | .told | .waiting =>
    (s.timer.step n (.test i)).map (fun t => { s with timer := t, timerSig := Function.update s.timerSig i false })
  | .detached => none

def step (n : Nat) (s : Wakeup) : WakeupAct → Option Wakeup
  | .timer => if s.timer.pc.sleepsOn ≠ none ∧ s.eventSig = false then none else s.timerGoes n
  | .dev i => if (s.timer.dev i).phase = .waiting ∧ s.timerSig i = false then none else s.devGoes n i
  | .timerWakes => if s.timer.pc.sleepsOn ≠ none then s.timerGoes n else none
  | .devWakes i => if (s.timer.dev i).phase = .waiting then s.devGoes n i else none

def start (calls : Nat → Nat) : Wakeup := ⟨.start, false, fun _ => false, calls⟩

/-! ## What a thread does -/

section Steps

variable {n : Nat} {s s' : Wakeup}

theorem devGoes_cases {i : Nat} (h : s.devGoes n i = some s') : i < n ∧
    ((s.timer.dev i).phase = .outside ∧ s'.eventSig = s.signalEvent i ∧ s'.timerSig = s.timerSig ∧
        ((s.calls i ≠ 0 ∧ s'.timer = s.timer.setDev i
            { s.timer.dev i with done := true, phase := .told, begun := (s.timer.dev i).begun + 1 }) ∨
          s'.timer = s.timer.setDev i { s.timer.dev i with fsh := true, phase := .detached }) ∨
      s'.eventSig = s.eventSig ∧ s'.timerSig = Function.update s.timerSig i false ∧
        ((s.timer.dev i).done = true ∧ s'.timer = s.timer.setDev i { s.timer.dev i with phase := .waiting } ∨
          s'.timer = s.timer.setDev i
            { s.timer.dev i with phase := .outside, completed := (s.timer.dev i).completed + 1 })) := by
  unfold devGoes at h
  have htest : ∀ t, s.timer.step n (.test i) = some t → i < n ∧
      ((s.timer.dev i).done = true ∧ t = s.timer.setDev i { s.timer.dev i with phase := .waiting } ∨
        t = s.timer.setDev i { s.timer.dev i with phase := .outside, completed := (s.timer.dev i).completed + 1 }) := by
    intro t ht
    simp only [Timer.step, Timer.test] at ht
    split at ht
    · rename_i hi
      split at ht
      · split at ht
        · rename_i hdone
          cases ht
          exact ⟨hi, Or.inl ⟨hdone, rfl⟩⟩
        · cases ht
          exact ⟨hi, Or.inr rfl⟩
      · cases ht
    · cases ht
  split at h
  · rename_i hout
    split at h
    · obtain ⟨t, ht, rfl⟩ := Option.map_eq_some_iff.1 h
      simp only [Timer.step, Timer.detach, hout] at ht
      split at ht
      · rename_i hi
        cases ht
        exact ⟨hi, Or.inl ⟨hout, rfl, rfl, Or.inr rfl⟩⟩
      · cases ht
    · rename_i hcalls
      obtain ⟨t, ht, rfl⟩ := Option.map_eq_some_iff.1 h
      simp only [Timer.step, Timer.enter, hout] at ht
      split at ht
      · rename_i hi
        cases ht
        exact ⟨hi, Or.inl ⟨hout, rfl, rfl, Or.inl ⟨hcalls, rfl⟩⟩⟩
      · cases ht
  · obtain ⟨t, ht, rfl⟩ := Option.map_eq_some_iff.1 h
    obtain ⟨hi, hcases⟩ := htest t ht
    exact ⟨hi, Or.inr ⟨rfl, rfl, hcases⟩⟩
  · obtain ⟨t, ht, rfl⟩ := Option.map_eq_some_iff.1 h
    obtain ⟨hi, hcases⟩ := htest t ht
    exact ⟨hi, Or.inr ⟨rfl, rfl, hcases⟩⟩
  · cases h

theorem step_cases {a : WakeupAct} (h : step n s a = some s') :
    s.timerGoes n = some s' ∨ ∃ i, s.devGoes n i = some s' := by
  cases a with
  | timer =>
    simp only [step] at h
    split at h
    · cases h
    · exact Or.inl h
  | dev i =>
    simp only [step] at h
    split at h
    · cases h
    · exact Or.inr ⟨i, h⟩
  | timerWakes =>
    simp only [step] at h
    split at h
    · exact Or.inl h
    · cases h
  | devWakes i =>
    simp only [step] at h
    split at h
    · exact Or.inr ⟨i, h⟩
    · cases h

/-- **The barrier with signals is the barrier**: what a thread does here it may do in `Timer`. -/
theorem step_timer {a : WakeupAct} (h : step n s a = some s') : Next (Timer.step n) s.timer s'.timer := by
  rcases step_cases h with h | ⟨i, h⟩
  · obtain ⟨t, ht, rfl⟩ := Option.map_eq_some_iff.1 h
    exact ⟨_, ht⟩
  · unfold devGoes at h
    split at h
    · split at h
      · obtain ⟨t, ht, rfl⟩ := Option.map_eq_some_iff.1 h
        exact ⟨_, ht⟩
      · obtain ⟨t, ht, rfl⟩ := Option.map_eq_some_iff.1 h
        exact ⟨_, ht⟩
    · obtain ⟨t, ht, rfl⟩ := Option.map_eq_some_iff.1 h
      exact ⟨_, ht⟩
    · obtain ⟨t, ht, rfl⟩ := Option.map_eq_some_iff.1 h
      exact ⟨_, ht⟩
    · cases h

end Steps

/-! ## The invariant -/

def gone (t : Timer) (k : Nat) : Nat := (List.range k).countP (fun i => (t.dev i).fsh)

/-- What the timer has counted is there: it has passed `event` devices, of which `fsh` have detached. -/
def Counted (n : Nat) (t : Timer) : Prop :=
  match t.pc with
  | .head => True
  | .collect k fsh event | .asleep k fsh event => k ≤ n ∧ event = k ∧ fsh ≤ gone t k
  | .release _ fsh event => event = n ∧ fsh ≤ gone t n
  | .exited => n ≤ gone t n

/-- **The invariant of the sleepers**: the timer sleeps on a device that is neither done nor gone, or has been
signalled; a device sleeps with its slot not yet over, or has been signalled. -/
structure Inv (n : Nat) (s : Wakeup) : Prop where
  barrier : Timer.Inv n s.timer
  started : s.timer.timerStop = false
  counted : Counted n s.timer
  timerAsleep : ∀ k, s.timer.pc.sleepsOn = some k →
    k < n ∧ (s.eventSig = false → (s.timer.dev k).done = false ∧ (s.timer.dev k).fsh = false)
  devAsleep : ∀ i < n, (s.timer.dev i).phase = .waiting → s.timerSig i = false → (s.timer.dev i).done = true

theorem start_inv (n : Nat) (calls : Nat → Nat) : Inv n (start calls) :=
  ⟨Timer.start_inv n, rfl, trivial, fun k hk => (by cases hk), fun i _ hw => (by cases hw)⟩

theorem gone_succ (t : Timer) (k : Nat) : gone t (k + 1) = gone t k + if (t.dev k).fsh then 1 else 0 := by
  simp [gone, List.range_succ, List.countP_append, List.countP_cons]

theorem gone_mono {t t' : Timer} (h : ∀ i, (t.dev i).fsh = true → (t'.dev i).fsh = true) (k : Nat) :
    gone t k ≤ gone t' k :=
  List.countP_mono_left (fun i _ => h i)

theorem gone_all {t : Timer} {n : Nat} (h : n ≤ gone t n) {i : Nat} (hi : i < n) : (t.dev i).fsh = true := by
  have hall : (List.range n).countP (fun i => (t.dev i).fsh) = (List.range n).length := by
    refine Nat.le_antisymm List.countP_le_length ?_
    simpa [gone] using h
  exact List.countP_eq_length.1 hall i (List.mem_range.2 hi)

theorem Counted.mono {n : Nat} {t t' : Timer} (h : Counted n t) (hpc : t'.pc = t.pc)
    (hfsh : ∀ i, (t.dev i).fsh = true → (t'.dev i).fsh = true) : Counted n t' := by
  have hle := gone_mono hfsh
  unfold Counted at h ⊢
  rw [hpc]
  split at h
  · trivial
  · exact ⟨h.1, h.2.1, Nat.le_trans h.2.2 (hle _)⟩
  · exact ⟨h.1, h.2.1, Nat.le_trans h.2.2 (hle _)⟩
  · exact ⟨h.1, Nat.le_trans h.2 (hle _)⟩
  · exact Nat.le_trans h (hle _)

/-- **What the timer counts is there** after each of its actions. -/
theorem Counted.routine {n : Nat} {t t' : Timer} (h : Counted n t) (hstop : t.timerStop = false)
    (hstep : t.step n .routine = some t') : t'.timerStop = false ∧ Counted n t' := by
  unfold Counted at h
  cases Timer.routine_cases hstep with
  | begins hpc =>
    refine ⟨hstop, ?_⟩
    simp only [hstop]
    exact ⟨Nat.zero_le n, rfl, Nat.zero_le _⟩
  | sleeps hpc hk hclear | wakes hpc =>
    rw [hpc] at h
    exact ⟨hstop, h⟩
  | @passes k fsh event hpc hk hset =>
    rw [hpc] at h
    obtain ⟨-, hevent, hle⟩ := h
    refine ⟨hstop, hk, by rw [hevent], ?_⟩
    change _ ≤ gone t (k + 1)
    rw [gone_succ]
    split <;> omega
  | @counts k fsh event hpc hk =>
    rw [hpc] at h
    obtain rfl : k = n := Nat.le_antisymm h.1 hk
    exact ⟨hstop, h.2⟩
  | @letsGo k fsh event hpc hk =>
    rw [hpc] at h
    refine ⟨hstop, h.1, Nat.le_trans h.2 (gone_mono (fun i hi => ?_) n)⟩
    by_cases hik : i = k
    · subst hik
      simpa [Timer.setDev] using hi
    · simpa [Timer.setDev, hik] using hi
  | @ends k fsh event hpc hk =>
    rw [hpc] at h
    refine ⟨hstop, ?_⟩
    by_cases hall : fsh = event
    · simp only [if_pos hall]
      change n ≤ gone t n
      omega
    · simp only [if_neg hall]
      trivial

/-- A device that sleeps on is one the timer has not let go. -/
theorem Inv.devAsleep_timerGoes {n : Nat} {s : Wakeup} {t : Timer} (h : Inv n s) (ht : s.timer.step n .routine = some t) :
    ∀ i < n, (t.dev i).phase = .waiting → s.signalTimer n i = false → (t.dev i).done = true := by
  cases Timer.routine_cases ht with
  | begins hpc | sleeps hpc hk hclear | passes hpc hk hset | counts hpc hk | wakes hpc =>
    simpa [signalTimer, hpc] using h.devAsleep
  | @letsGo k fsh event hpc hk =>
    intro i hi hw hsig
    by_cases hik : i = k
    · -- the device was signalled
      subst hik
      have hw' : (s.timer.dev i).phase = .waiting := by simpa [Timer.setDev] using hw
      simp [signalTimer, hpc, hk, hw'] at hsig
    · have hw' : (s.timer.dev i).phase = .waiting := by simpa [Timer.setDev, hik] using hw
      have hsig' : s.timerSig i = false := by
        simp only [signalTimer, hpc] at hsig
        split at hsig
        · simpa [hik] using hsig
        · exact hsig
      simpa [Timer.setDev, hik] using h.devAsleep i hi hw' hsig'
  | @ends k fsh event hpc hk =>
    intro i hi hw hsig
    have hnone : ¬ (k < n ∧ (s.timer.dev k).phase = .waiting) := fun h => by omega
    simp only [signalTimer, hpc, if_neg hnone] at hsig
    exact h.devAsleep i hi hw hsig

theorem Inv.timerGoes {n : Nat} {s s' : Wakeup} (h : Inv n s) (hstep : s.timerGoes n = some s') : Inv n s' := by
  obtain ⟨t, ht, rfl⟩ := Option.map_eq_some_iff.1 hstep
  obtain ⟨hstarted, hcounted⟩ := h.counted.routine h.started ht
  refine ⟨Timer.step_inv ht h.barrier, hstarted, hcounted, fun k hk => ?_, h.devAsleep_timerGoes ht⟩
  -- only where it has just looked at the device does the timer go to sleep
  change t.pc.sleepsOn = some k at hk
  cases Timer.routine_cases ht with
  | sleeps hpc hlt hclear =>
    cases hk
    exact ⟨hlt, fun _ => hclear⟩
  | begins hpc =>
    simp only [h.started] at hk
    cases hk
  | passes hpc hlt hset | counts hpc hlt | wakes hpc | letsGo hpc hlt => cases hk
  | @ends l fsh event hpc hlt =>
    by_cases hall : fsh = event
    · simp only [if_pos hall] at hk
      cases hk
    · simp only [if_neg hall] at hk
      cases hk

theorem Inv.devGoes {n : Nat} {s s' : Wakeup} {i : Nat} (h : Inv n s) (hbarrier : Timer.Inv n s'.timer)
    (hstep : s.devGoes n i = some s') : Inv n s' := by
  obtain ⟨hi, hcases⟩ := devGoes_cases hstep
  -- the flags of the other devices are as they were, and no `fsh` is cleared
  have hto : ∀ {d : TimerId}, s'.timer = s.timer.setDev i d → ((s.timer.dev i).fsh = true → d.fsh = true) →
      (d.done = (s.timer.dev i).done ∧ d.fsh = (s.timer.dev i).fsh ∧ s'.eventSig = s.eventSig ∨
        s'.eventSig = s.signalEvent i) →
      (∀ j < n, (s'.timer.dev j).phase = .waiting → s'.timerSig j = false → (s'.timer.dev j).done = true) → Inv n s' := by
    intro d ht hfsh hsig hdevs
    refine ⟨hbarrier, by rw [ht]; exact h.started, h.counted.mono (by rw [ht]; rfl) (fun j hj => ?_),
      fun k hk => ?_, hdevs⟩
    · rw [ht]
      by_cases hji : j = i
      · subst hji
        simpa [Timer.setDev] using hfsh hj
      · simpa [Timer.setDev, hji] using hj
    · rw [ht] at hk ⊢
      obtain ⟨hkn, hflags⟩ := h.timerAsleep k hk
      refine ⟨hkn, fun hquiet => ?_⟩
      by_cases hki : k = i
      · subst hki
        rcases hsig with ⟨hdone, hfsh', hsame⟩ | hnew
        · simpa [Timer.setDev, hdone, hfsh'] using hflags (by rw [← hsame]; exact hquiet)
        · have hasleep : s.timer.pc.sleepsOn = some k := hk
          simp [hnew, signalEvent, hasleep] at hquiet
      · have hsame : s.eventSig = false := by
          rcases hsig with ⟨-, -, hsame⟩ | hnew
          · rw [← hsame]
            exact hquiet
          · simp only [hnew, signalEvent, Bool.or_eq_false_iff] at hquiet
            exact hquiet.1
        simpa [Timer.setDev, hki] using hflags hsame
  -- a device other than `i` sleeps as before
  have hothers : ∀ {d : TimerId}, s'.timer = s.timer.setDev i d → (∀ j, j ≠ i → s'.timerSig j = s.timerSig j) →
      (d.phase = .waiting → d.done = true) →
      ∀ j < n, (s'.timer.dev j).phase = .waiting → s'.timerSig j = false → (s'.timer.dev j).done = true := by
    intro d ht hsig hd j hj hw hquiet
    rw [ht] at hw ⊢
    by_cases hji : j = i
    · subst hji
      simp only [Timer.setDev, Function.update_self] at hw ⊢
      exact hd hw
    · simp only [Timer.setDev, Function.update_of_ne hji] at hw ⊢
      exact h.devAsleep j hj hw (by rw [← hsig j hji]; exact hquiet)
  rcases hcases with ⟨-, hsig, htimer, ⟨-, ht⟩ | ht⟩ | ⟨hsig, htimer, ⟨hdone, ht⟩ | ht⟩
  · exact hto ht id (Or.inr hsig) (hothers ht (fun _ _ => by rw [htimer]) (fun hp => (by cases hp)))
  · exact hto ht (fun _ => rfl) (Or.inr hsig) (hothers ht (fun _ _ => by rw [htimer]) (fun hp => (by cases hp)))
  · exact hto ht id (Or.inl ⟨rfl, rfl, hsig⟩)
      (hothers ht (fun j hj => by rw [htimer, Function.update_of_ne hj]) (fun _ => hdone))
  · exact hto ht id (Or.inl ⟨rfl, rfl, hsig⟩)
      (hothers ht (fun j hj => by rw [htimer, Function.update_of_ne hj]) (fun hp => (by cases hp)))

theorem step_inv {n : Nat} {s s' : Wakeup} {a : WakeupAct} (hstep : step n s a = some s') (h : Inv n s) : Inv n s' := by
  obtain ⟨b, hb⟩ := step_timer hstep
  rcases step_cases hstep with ht | ⟨i, hd⟩
  · exact h.timerGoes ht
  · exact h.devGoes (Timer.step_inv hb h.barrier) hd

/-! ## Nobody is stuck -/

theorem dev_enabled {n : Nat} {s : Wakeup} {i : Nat} (hi : i < n) (hphase : (s.timer.dev i).phase ≠ .detached)
    (hsig : (s.timer.dev i).phase = .waiting → s.timerSig i = true) : (step n s (.dev i)).isSome := by
  cases hp : (s.timer.dev i).phase with
  | outside =>
    by_cases hcalls : s.calls i = 0
    · simp [step, devGoes, hp, hcalls, Timer.step, hi, Timer.detach]
    · simp [step, devGoes, hp, hcalls, Timer.step, hi, Timer.enter]
  | told =>
    by_cases hdone : (s.timer.dev i).done = true
    · simp [step, devGoes, hp, Timer.step, hi, Timer.test, hdone]
    · simp [step, devGoes, hp, Timer.step, hi, Timer.test, hdone]
  | waiting =>
    by_cases hdone : (s.timer.dev i).done = true
    · simp [step, devGoes, hp, Timer.step, hi, Timer.test, hdone, hsig hp]
    · simp [step, devGoes, hp, Timer.step, hi, Timer.test, hdone, hsig hp]
  | detached => exact absurd hp hphase

theorem timer_enabled {n : Nat} {s : Wakeup} (hpc : s.timer.pc ≠ .exited)
    (hsig : s.timer.pc.sleepsOn ≠ none → s.eventSig = true) : (step n s .timer).isSome := by
  have hawake : ¬ (s.timer.pc.sleepsOn ≠ none ∧ s.eventSig = false) := by
    rintro ⟨hasleep, hquiet⟩
    rw [hsig hasleep] at hquiet
    cases hquiet
  simp only [step, if_neg hawake, timerGoes, Option.isSome_map, Timer.step, Timer.routine]
  split
  · rfl
  · split
    · split <;> rfl
    · rfl
  · rfl
  · split <;> rfl
  · rename_i hexited
    exact absurd hexited hpc

/-- **The barrier never deadlocks and loses no wake-up.**  Whatever the interleaving, while a thread has not ended
one can go on without waking up by itself; no device sleeps with its slot over and no signal, nor the timer on a
device that is done or gone; and the timer has left its loop only when every device has detached. -/
theorem never_stuck (n : Nat) (calls : Nat → Nat) {s : Wakeup} (h : Reach (step n) (start calls) s) :
    ((s.timer.pc ≠ .exited ∨ ∃ i < n, (s.timer.dev i).phase ≠ .detached) →
        ∃ a, WakeupAct.spurious a = false ∧ (step n s a).isSome) ∧
      (∀ i < n, (s.timer.dev i).phase = .waiting → (s.timer.dev i).done = false → s.timerSig i = true) ∧
      (∀ k, s.timer.pc.sleepsOn = some k → ((s.timer.dev k).done = true ∨ (s.timer.dev k).fsh = true) →
        s.eventSig = true) ∧
      (s.timer.pc = .exited → ∀ i < n, (s.timer.dev i).phase = .detached) := by
  have hinv : Inv n s := h.inv (start_inv n calls) (fun ha hs => step_inv ha hs)
  have hdevs : ∀ i < n, (s.timer.dev i).phase = .waiting → (s.timer.dev i).done = false → s.timerSig i = true := by
    intro i hi hw hdone
    by_contra hquiet
    have := hinv.devAsleep i hi hw (by simpa using hquiet)
    rw [hdone] at this
    cases this
  have hfsh : ∀ i < n, (s.timer.dev i).fsh = true → (s.timer.dev i).phase = .detached := by
    intro i hi hfsh
    have hdev := hinv.barrier i hi
    cases hp : (s.timer.dev i).phase with
    | outside => simp [(hdev.outside hp).2.1] at hfsh
    | told => simp [(hdev.inside (Or.inl hp)).1] at hfsh
    | waiting => simp [(hdev.inside (Or.inr hp)).1] at hfsh
    | detached => rfl
  have hexited : s.timer.pc = .exited → ∀ i < n, (s.timer.dev i).phase = .detached := by
    intro hpc i hi
    have hcounted := hinv.counted
    rw [Counted, hpc] at hcounted
    exact hfsh i hi (gone_all hcounted hi)
  refine ⟨fun hlive => ?_, hdevs, fun k hk hflag => ?_, hexited⟩
  · by_cases hpc : s.timer.pc = .exited
    · obtain ⟨i, hi, hne⟩ := hlive.resolve_left (fun hne => hne hpc)
      exact absurd (hexited hpc i hi) hne
    · by_cases hquiet : s.timer.pc.sleepsOn ≠ none ∧ s.eventSig = false
      · -- the device it sleeps on is neither done nor gone, so it is not asleep for good
        obtain ⟨k, hk⟩ := Option.ne_none_iff_exists'.1 hquiet.1
        obtain ⟨hkn, hflags⟩ := hinv.timerAsleep k hk
        obtain ⟨hdone, hnot⟩ := hflags hquiet.2
        refine ⟨.dev k, rfl, dev_enabled hkn (fun hp => ?_) (fun hw => hdevs k hkn hw hdone)⟩
        have := (hinv.barrier k hkn).detached hp
        rw [hnot] at this
        cases this
      · refine ⟨.timer, rfl, timer_enabled hpc (fun hasleep => ?_)⟩
        by_contra hne
        exact hquiet ⟨hasleep, by simpa using hne⟩
  · by_contra hne
    obtain ⟨hdone, hnot⟩ := (hinv.timerAsleep k hk).2 (by simpa using hne)
    simp [hdone, hnot] at hflag

/-- Two devices: the timer sleeps on device 0, which waits for the slot to be over; it was signalled when device 0
entered. -/
theorem never_stuck_asleep : ∃ s, Reach (step 2) (start (fun _ => 1)) s ∧ s.timer.pc.sleepsOn = some 0 ∧
    (s.timer.dev 0).phase = .waiting ∧ s.eventSig = true ∧ ∃ a, WakeupAct.spurious a = false ∧ (step 2 s a).isSome := by
  have hsome : (runActions (step 2) [.timer, .timer, .dev 0, .dev 0] (start (fun _ => 1))).any
      (fun s => s.timer.pc = .asleep 0 0 0 ∧ (s.timer.dev 0).phase = .waiting ∧ (s.timer.dev 0).done = true) = true := by
    decide +kernel
  obtain ⟨s, hs, hq⟩ := (Option.any_eq_true _ _).1 hsome
  simp only [decide_eq_true_iff] at hq
  have hreach := reach_of_runActions _ hs
  obtain ⟨hgoes, -, htimer, -⟩ := never_stuck 2 (fun _ => 1) hreach
  have hasleep : s.timer.pc.sleepsOn = some 0 := by rw [hq.1]; rfl
  exact ⟨s, hreach, hasleep, hq.2.1, htimer 0 hasleep (Or.inl hq.2.2), hgoes (Or.inl (by simp [hq.1]))⟩

end Wakeup

end OsSim
