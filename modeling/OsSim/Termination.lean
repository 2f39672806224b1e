import OsSim.Makespan
import OsSim.Wakeup
/-!
# Termination — the threads run to their ends
Every action of a thread that does not look in vain at a condition takes it nearer to its next call of `next_slot`, or
to its end; and the timer, which then goes on, counts no more slots than `makespan` lets it.  So the simulation comes
to an end whatever the scheduling, as long as whoever can go on does in the end, every `run` returns and every process
is counted in `cnt_proc_done`.
-/
namespace OsSim

open System

namespace Os

def devWaits (d : TimerId) : Bool := d.phase = .waiting && d.done

def timerWaits (n : Nat) (t : Timer) : Bool :=
  match t.pc with
  | .collect k _ _ | .asleep k _ _ => decide (k < n) && !(t.dev k).done && !(t.dev k).fsh
  | _ => false

/-- The action only looks at a condition that does not hold yet. -/
def waits (c : Config) (s : Os) : OsAct → Bool
  | .cpu i => devWaits (s.timer.dev (c.cpuDev i))
  | .loader => devWaits (s.timer.dev ldDev)
  | .timer => timerWaits c.numDevs s.timer

def Over (c : Config) (s : Os) : Prop :=
  s.timer.pc = .exited ∧ s.loader = .gone ∧ ∀ i < c.numCpus, (s.cpu i).pc = .stopped

/-! ## What is left to do -/

/-- In `next_slot`: the slot before is over, or this one is not. -/
def slotLeft (d : TimerId) (time : Nat) : Nat := (if d.begun = time then 11 else 3) + if d.phase = .told then 1 else 0

def cpuLeft (c : Config) (s : Os) (i : Nat) : Nat :=
  match (s.cpu i).pc with
  | .top => 10
  | .count | .get => 9
  | .recheck => 8
  | .run | .empty => 7
  | .enter => 6
  | .leave => 5
  | .slot => slotLeft (s.timer.dev (c.cpuDev i)) s.timer.time
  | .stopped => 0

def ldLeft (s : Os) : Nat :=
  match s.loader with
  | .loop _ => 10
  | .check _ => 9
  | .add _ => 8
  | .enterWait _ | .enterAdd _ => 7
  | .leave => 5
  | .waitSlot _ | .addSlot _ => slotLeft (s.timer.dev ldDev) s.timer.time
  | .gone => 0

def timerLeft (n : Nat) (t : Timer) : Nat :=
  match t.pc with
  | .collect k _ _ => 2 * (n - k)
  | .asleep k _ _ => 2 * (n - k) + if timerWaits n t then 0 else 1
  | .head => 2 * n + 1
  | .release k _ _ => 2 * n + 2 + (n - k)
  | .exited => 0

def lastTime (c : Config) : Nat :=
  lastLoad c + 3 + ((∑ p ∈ Finset.range c.numProcesses, c.need p) + (c.numCpus - 1) * Worked.longest c)

/-- **What is left to do** in the slots to come and in this one. -/
def left (c : Config) (s : Os) : Nat :=
  (11 * c.numDevs + 3) * (lastTime c - s.timer.time) +
    ((∑ i ∈ Finset.range c.numCpus, cpuLeft c s i) + ldLeft s + timerLeft c.numDevs s.timer)

theorem time_le_lastTime {c : Config} (hnum : 1 ≤ c.numCpus) {s : Os} (h : Reach (step c) start s) :
    s.timer.time ≤ lastTime c := by
  have hbound := makespan hnum h
  have hle := Nat.le_mul_of_pos_left (s.timer.time - (lastLoad c + 3)) hnum
  unfold lastTime
  omega

/-! ## What a thread's action on its device takes -/

section Device

variable {n i : Nat} {t t' : Timer}

theorem test_cases (h : t.step n (.test i) = some t') :
    (t.dev i).done = true ∧ t' = t.setDev i { t.dev i with phase := .waiting } ∨
      (t.dev i).done = false ∧
        t' = t.setDev i { t.dev i with phase := .outside, completed := (t.dev i).completed + 1 } := by
  simp only [Timer.step, Timer.test] at h
  split at h
  · split at h
    · split at h
      · rename_i hdone
        cases h
        exact Or.inl ⟨hdone, rfl⟩
      · rename_i hdone
        cases h
        exact Or.inr ⟨by simpa using hdone, rfl⟩
    · cases h
  · cases h

theorem timerLeft_dev (hpc : t'.pc = t.pc) : timerLeft n t' ≤ timerLeft n t + 1 := by
  have hone : (if timerWaits n t' then 0 else 1) ≤ 1 := by split <;> omega
  unfold timerLeft
  rw [hpc]
  split <;> omega

theorem timerLeft_test (h : t.step n (.test i) = some t') : timerLeft n t' = timerLeft n t := by
  have hflags : t'.pc = t.pc ∧ ∀ k, (t'.dev k).done = (t.dev k).done ∧ (t'.dev k).fsh = (t.dev k).fsh := by
    rcases test_cases h with ⟨-, rfl⟩ | ⟨-, rfl⟩
    all_goals
      refine ⟨rfl, fun k => ?_⟩
      by_cases hk : k = i
      · subst hk
        simp [Timer.setDev]
      · simp [Timer.setDev, hk]
  obtain ⟨hpc, hflags⟩ := hflags
  have hwaits : timerWaits n t' = timerWaits n t := by simp only [timerWaits, hpc, (hflags _).1, (hflags _).2]
  simp only [timerLeft, hpc, hwaits]

theorem left_enters (hinv : Timer.Inv n t) (hi : i < n) (h : t.step n (.enter i) = some t') :
    slotLeft (t'.dev i) t'.time + timerLeft n t' ≤ 5 + timerLeft n t := by
  obtain ⟨-, -, -, htold, -⟩ := Timer.step_enter h
  have hnew := hinv.begun_enters hi h
  have hslot : slotLeft (t'.dev i) t'.time = 4 := by simp [slotLeft, htold, hnew]
  have hleft := timerLeft_dev (n := n) (Worked.timer_pc (by simp) h)
  omega

theorem left_sleeps (h : t.step n (.test i) = some t') (hin : (t'.dev i).phase ≠ .outside) :
    slotLeft (t'.dev i) t'.time + timerLeft n t' + (if devWaits (t.dev i) then 0 else 1) ≤
      slotLeft (t.dev i) t.time + timerLeft n t := by
  rw [timerLeft_test h]
  obtain ⟨hphase, htime, -, hbegun, -⟩ := Timer.step_test h
  have hwait := (Timer.step_sleeps h hin).2.2.2
  rcases test_cases h with ⟨hdone, -⟩ | ⟨-, rfl⟩
  · rcases hphase with htold | hwaiting
    · have hnow : slotLeft (t'.dev i) t'.time + 1 = slotLeft (t.dev i) t.time := by
        simp [slotLeft, htold, hwait, hbegun, htime]
      have hruns : devWaits (t.dev i) = false := by simp [devWaits, htold]
      rw [hruns, if_neg Bool.false_ne_true]
      omega
    · simp [slotLeft, devWaits, hwaiting, hwait, hbegun, htime, hdone]
  · simp [Timer.setDev] at hin

theorem left_returns (hinv : Timer.Inv n t) (hi : i < n) (h : t.step n (.test i) = some t')
    (hout : (t'.dev i).phase = .outside) : 11 + timerLeft n t' ≤ slotLeft (t.dev i) t.time + timerLeft n t := by
  have hbegun := hinv.begun_letOut hi h hout
  rw [timerLeft_test h]
  simp only [slotLeft, hbegun, if_true]
  omega

theorem left_detaches (h : t.step n (.detach i) = some t') : timerLeft n t' ≤ 1 + timerLeft n t := by
  have hleft := timerLeft_dev (n := n) (Worked.timer_pc (by simp) h)
  omega

theorem left_routine (h : t.step n .routine = some t') (htime : t'.time = t.time) :
    timerLeft n t' + (if timerWaits n t then 0 else 1) ≤ timerLeft n t := by
  cases Timer.routine_cases h with
  | begins hpc =>
    by_cases hstop : t.timerStop = true
    · simp [timerLeft, timerWaits, hpc, hstop]
    · simp [timerLeft, timerWaits, hpc, hstop]
  | sleeps hpc hk hclear => simp [timerLeft, timerWaits, hpc, hk, hclear]
  | @passes k fsh event hpc hk hset =>
    have hready : timerWaits n t = false := by rcases hset with e | e <;> simp [timerWaits, hpc, e]
    simp only [timerLeft, hpc, hready]
    simp
    omega
  | counts hpc hk => simp at htime
  | @wakes k fsh event hpc =>
    simp only [timerLeft, timerWaits, hpc]
    cases (t.dev k).done <;> cases (t.dev k).fsh <;> simp
  | @letsGo k fsh event hpc hk =>
    simp only [timerLeft, timerWaits, hpc]
    simp
    omega
  | @ends k fsh event hpc hk =>
    by_cases hall : fsh = event
    · simp [timerLeft, timerWaits, hpc, hall]
      omega
    · simp [timerLeft, timerWaits, hpc, hall]

theorem slotLeft_tick {d d' : TimerId} (hphase : d'.phase = d.phase) (hbegun : d'.begun = d.begun) (time : Nat) :
    slotLeft d' (time + 1) ≤ slotLeft d time + 8 := by
  simp only [slotLeft, hphase, hbegun]
  have hnow : (if d.begun = time + 1 then 11 else 3) ≤ (if d.begun = time then 11 else 3) + 8 := by split <;> split <;> omega
  omega

end Device

section Spends

variable {c : Config} {s s' : Os}

theorem left_cpu {i spent : Nat} (hi : i < c.numCpus) (hstep : s.cpuRoutine c i = some s')
    (hspent : cpuLeft c s' i + timerLeft c.numDevs s'.timer + spent ≤ cpuLeft c s i + timerLeft c.numDevs s.timer) :
    left c s' + spent ≤ left c s := by
  obtain ⟨hcpu, hdev, -, hld⟩ := cpuRoutine_frame hstep
  have htime := Worked.cpuRoutine_time hstep
  have hsum := Worked.sum_change hi (f := cpuLeft c s) (g := cpuLeft c s') (fun j hj hji => by
    simp only [cpuLeft, hcpu j hji, hdev _ (cpuDev_ne hj hi hji), htime])
  have hldLeft : ldLeft s' = ldLeft s := by simp only [ldLeft, hld, hdev _ (cpuDev_ne_ldDev hi), htime]
  unfold left
  rw [htime, hldLeft]
  omega

theorem cpuRoutine_left (h : Inv c s) {i : Nat} (hi : i < c.numCpus) (hstep : s.cpuRoutine c i = some s') :
    left c s' + (if waits c s (.cpu i) then 0 else 1) ≤ left c s := by
  have hone : (if waits c s (.cpu i) then 0 else 1) ≤ 1 := by split <;> omega
  refine left_cpu hi hstep ?_
  -- an action on what is not the timer's
  have hgoes : s'.timer = s.timer → cpuLeft c s' i + 1 ≤ cpuLeft c s i →
      cpuLeft c s' i + timerLeft c.numDevs s'.timer + (if waits c s (.cpu i) then 0 else 1) ≤
        cpuLeft c s i + timerLeft c.numDevs s.timer := fun htimer hless => by
    rw [htimer]
    omega
  cases cpuRoutine_cases hstep with
  | fetches hpc hp =>
    by_cases hr : s.mlq.getMlqProc.2 = none
    · exact hgoes rfl (by simp [cpuLeft, hpc, hr])
    · exact hgoes rfl (by simp [cpuLeft, hpc, hr])
  | runs hpc hp => exact hgoes (runProc_frame c s _).1 (by simp [cpuLeft, hpc])
  | finishes hpc | putsBack hpc | keeps hpc | allDone hpc | waits hpc | counts hpc | gets hpc | leaves hpc | idles hpc
  | dispatches hpc => exact hgoes rfl (by simp [cpuLeft, hpc])
  | @enters t hpc ht =>
    have hleft := left_enters h.timer (cpuDev_lt hi) ht
    simp only [cpuLeft, setCpu_self, hpc]
    simp only [setCpu]
    omega
  | @sleeps t hpc ht hin =>
    have hleft := left_sleeps ht hin
    simp only [cpuLeft, setCpu_self, hpc]
    simp only [setCpu, waits]
    exact hleft
  | @returns t hpc ht hout =>
    have hleft := left_returns h.timer (cpuDev_lt hi) ht hout
    simp only [cpuLeft, setCpu_self, hpc]
    simp only [setCpu]
    omega
  | @detaches t hpc ht =>
    have hleft := left_detaches ht
    simp only [cpuLeft, setCpu_self, hpc]
    simp only [setCpu]
    omega

theorem ldRoutine_left (h : Inv c s) (hstep : s.ldRoutine c = some s') :
    left c s' + (if waits c s .loader then 0 else 1) ≤ left c s := by
  have hone : (if waits c s .loader then 0 else 1) ≤ 1 := by split <;> omega
  obtain ⟨hcpu, hdev, -⟩ := ldRoutine_frame hstep
  have htime := Worked.ldRoutine_time hstep
  have hsum : (∑ i ∈ Finset.range c.numCpus, cpuLeft c s' i) = ∑ i ∈ Finset.range c.numCpus, cpuLeft c s i :=
    Finset.sum_congr rfl (fun i hi => by
      simp only [cpuLeft, hcpu, hdev _ (cpuDev_ne_ldDev (Finset.mem_range.1 hi)).symm, htime])
  have hspent : ldLeft s' + timerLeft c.numDevs s'.timer + (if waits c s .loader then 0 else 1) ≤
      ldLeft s + timerLeft c.numDevs s.timer := by
    cases ldRoutine_cases hstep with
    | loads hld | ends hld | early hld | due hld | adds hld =>
      simp only [ldLeft, hld]
      omega
    | entersWait hld ht | enters hld ht =>
      have hleft := left_enters h.timer ldDev_lt ht
      simp only [ldLeft, hld]
      omega
    | sleepsWait hld ht hin | sleeps hld ht hin =>
      simp only [ldLeft, hld]
      exact left_sleeps ht hin
    | looksAgain hld ht hout | goesOn hld ht hout =>
      have hleft := left_returns h.timer ldDev_lt ht hout
      simp only [ldLeft, hld]
      omega
    | detaches hld ht =>
      have hleft := left_detaches ht
      simp only [ldLeft, hld]
      omega
  unfold left
  rw [htime, hsum]
  omega

theorem routine_left (hstep : s.devStep c .routine = some s') (hlast : s'.timer.time ≤ lastTime c) :
    left c s' + (if waits c s .timer then 0 else 1) ≤ left c s := by
  obtain ⟨t, ht, rfl⟩ := devStep_some hstep
  have hdev := (Timer.step_routine ht).1
  rcases Worked.routine_time ht with htime | ⟨htime, -⟩
  · have hless := left_routine ht htime
    have hcpu : ∀ i, cpuLeft c { s with timer := t } i = cpuLeft c s i := fun i => by
      simp only [cpuLeft, slotLeft, (hdev _).1, (hdev _).2, htime]
    have hld : ldLeft { s with timer := t } = ldLeft s := by
      simp only [ldLeft, slotLeft, (hdev _).1, (hdev _).2, htime]
    change _ + (if timerWaits c.numDevs s.timer then 0 else 1) ≤ _
    simp only [left, hcpu, hld, htime]
    omega
  · have hcpu : ∀ i, cpuLeft c { s with timer := t } i ≤ cpuLeft c s i + 8 := fun i => by
      have htick := slotLeft_tick (hdev (c.cpuDev i)).1 (hdev (c.cpuDev i)).2 s.timer.time
      simp only [cpuLeft, htime]
      split <;> omega
    have hld : ldLeft { s with timer := t } ≤ ldLeft s + 8 := by
      have htick := slotLeft_tick (hdev ldDev).1 (hdev ldDev).2 s.timer.time
      simp only [ldLeft, htime]
      split <;> omega
    have hsum : (∑ i ∈ Finset.range c.numCpus, cpuLeft c { s with timer := t } i) ≤
        (∑ i ∈ Finset.range c.numCpus, cpuLeft c s i) + 8 * c.numCpus := by
      refine (Finset.sum_le_sum (fun i _ => hcpu i)).trans_eq ?_
      simp [Finset.sum_add_distrib, Nat.mul_comm]
    have htimer : timerLeft c.numDevs t ≤ 3 * c.numDevs + 2 := by
      cases Timer.routine_cases ht with
      | counts hpc hk =>
        simp only [timerLeft]
        omega
      | _ => simp [Timer.setDev] at htime
    have hone : (if waits c s .timer then 0 else 1) ≤ 1 := by split <;> omega
    change t.time ≤ _ at hlast
    have hspent : (11 * c.numDevs + 3) * (lastTime c - s.timer.time) =
        (11 * c.numDevs + 3) * (lastTime c - t.time) + (11 * c.numDevs + 3) := by
      rw [← Nat.mul_succ]
      congr 1
      omega
    have hdevs : c.numDevs = c.numCpus + 1 := rfl
    simp only [left]
    omega

/-- **Every action** takes some of what is left, unless it waits. -/
theorem step_left (hnum : 1 ≤ c.numCpus) (h : Reach (step c) start s) {a : OsAct} (hstep : step c s a = some s') :
    left c s' + (if waits c s a then 0 else 1) ≤ left c s := by
  have hos : Inv c s := h.inv (start_inv c) (fun ha hs => step_inv hnum ha hs)
  have hlast := time_le_lastTime hnum (h.tail ⟨a, hstep⟩)
  cases a with
  | timer => exact routine_left hstep hlast
  | loader => exact ldRoutine_left hos hstep
  | cpu i =>
    simp only [step] at hstep
    split at hstep
    · rename_i hi
      exact cpuRoutine_left hos hi hstep
    · cases hstep

end Spends

/-! ## Somebody can go on -/

structure Steady (c : Config) (s : Os) : Prop where
  started : s.timer.timerStop = false
  counted : Wakeup.Counted c.numDevs s.timer
  running : ∀ i, (s.cpu i).pc = .run → (s.cpu i).proc ≠ none
  placed : ∀ q, ∀ p ∈ s.mlq.ready q, c.prio p = q

theorem start_steady (c : Config) : Steady c start :=
  ⟨rfl, trivial, fun i hrun => (by cases hrun), fun q p hp => (by cases hp)⟩

section Steady

variable {c : Config} {s s' : Os}

theorem step_timer_goes {a : OsAct} (h : step c s a = some s') :
    s'.timer = s.timer ∨ ∃ b, b ≠ .stop ∧ s.timer.step c.numDevs b = some s'.timer := by
  cases a with
  | timer =>
    obtain ⟨t, ht, rfl⟩ := devStep_some h
    exact Or.inr ⟨.routine, by simp, ht⟩
  | loader =>
    cases ldRoutine_cases h with
    | entersWait hld ht | enters hld ht => exact Or.inr ⟨.enter ldDev, by simp, ht⟩
    | sleepsWait hld ht | sleeps hld ht | looksAgain hld ht | goesOn hld ht => exact Or.inr ⟨.test ldDev, by simp, ht⟩
    | detaches hld ht => exact Or.inr ⟨.detach ldDev, by simp, ht⟩
    | _ => exact Or.inl rfl
  | cpu i =>
    simp only [step] at h
    split at h
    · cases cpuRoutine_cases h with
      | runs hpc hp => exact Or.inl (runProc_frame c s _).1
      | enters hpc ht => exact Or.inr ⟨.enter (c.cpuDev i), by simp, ht⟩
      | sleeps hpc ht | returns hpc ht => exact Or.inr ⟨.test (c.cpuDev i), by simp, ht⟩
      | detaches hpc ht => exact Or.inr ⟨.detach (c.cpuDev i), by simp, ht⟩
      | _ => exact Or.inl rfl
    · cases h

theorem timer_counted {n : Nat} {t t' : Timer} {a : TimerAct} (ha : a ≠ .stop) (h : t.step n a = some t')
    (hstop : t.timerStop = false) (hcounted : Wakeup.Counted n t) : t'.timerStop = false ∧ Wakeup.Counted n t' := by
  have hdev : ∀ {d : TimerId} {i : Nat}, t' = t.setDev i d → ((t.dev i).fsh = true → d.fsh = true) →
      t'.timerStop = false ∧ Wakeup.Counted n t' := by
    rintro d i rfl hfsh
    refine ⟨hstop, hcounted.mono rfl (fun j hj => ?_)⟩
    by_cases hji : j = i
    · subst hji
      simpa [Timer.setDev] using hfsh hj
    · simpa [Timer.setDev, hji] using hj
  cases a with
  | stop => exact absurd rfl ha
  | enter i =>
    simp only [Timer.step, Timer.enter] at h
    split at h
    · split at h
      · cases h
        exact hdev rfl id
      · cases h
    · cases h
  | test i =>
    rcases test_cases h with ⟨-, ht⟩ | ⟨-, ht⟩
    · exact hdev ht id
    · exact hdev ht id
  | detach i =>
    simp only [Timer.step, Timer.detach] at h
    split at h
    · split at h
      · cases h
        exact hdev rfl (fun _ => rfl)
      · cases h
    · cases h
  | routine => exact hcounted.routine hstop h

theorem take_ready (m : Mlq) (i q : Nat) : (m.take i).1.ready q ⊆ m.ready q := by
  unfold Mlq.take
  split
  · exact List.Subset.refl _
  · rename_i proc rest hcons
    by_cases hq : q = i
    · subst hq
      rw [hcons]
      simp
    · simp [hq]

theorem getMlqProc_ready (m : Mlq) (q : Nat) : m.getMlqProc.1.ready q ⊆ m.ready q := by
  unfold Mlq.getMlqProc
  split
  · exact List.Subset.refl _
  · split
    · exact take_ready m _ q
    · split
      · exact take_ready m.initSlot _ q
      · exact List.Subset.refl _

theorem putMlqProc_ready {m m' : Mlq} {prio proc : Nat} (h : m.putMlqProc prio proc = some m') {q p : Nat}
    (hp : p ∈ m'.ready q) : p ∈ m.ready q ∨ q = prio ∧ p = proc := by
  unfold Mlq.putMlqProc Mlq.enqueue at h
  split at h
  · split at h
    · cases h
      by_cases hq : q = prio
      · subst hq
        simpa using hp
      · exact Or.inl (by simpa [hq] using hp)
    · cases h
  · cases h

theorem Steady.cpuRoutine (h : Steady c s) {i : Nat} (hstep : s.cpuRoutine c i = some s') :
    (∀ j, (s'.cpu j).pc = .run → (s'.cpu j).proc ≠ none) ∧ ∀ q, ∀ p ∈ s'.mlq.ready q, c.prio p = q := by
  obtain ⟨hcpu, -⟩ := cpuRoutine_frame hstep
  have hself : ((s'.cpu i).pc = .run → (s'.cpu i).proc ≠ none) → ∀ j, (s'.cpu j).pc = .run → (s'.cpu j).proc ≠ none := by
    intro hi j
    by_cases hji : j = i
    · subst hji
      exact hi
    · rw [hcpu j hji]
      exact h.running j
  have htaken : ∀ q, ∀ p ∈ s.mlq.getMlqProc.1.ready q, c.prio p = q := fun q p hp =>
    h.placed q p (getMlqProc_ready s.mlq q hp)
  cases cpuRoutine_cases hstep with
  | fetches hpc hp =>
    refine ⟨hself (fun hrun => ?_), htaken⟩
    rw [setCpu_self] at hrun
    dsimp only at hrun
    split at hrun <;> cases hrun
  | finishes hpc | gets hpc => exact ⟨hself (by simp), htaken⟩
  | putsBack hpc hp hend hleft hput =>
    refine ⟨hself (by simp), fun q p hmem => ?_⟩
    rcases putMlqProc_ready hput hmem with hold | ⟨rfl, rfl⟩
    · exact h.placed q p hold
    · rfl
  | dispatches hpc hp => exact ⟨hself (fun _ => by simp [hp]), h.placed⟩
  | @runs p hpc hp =>
    refine ⟨hself (by simp), ?_⟩
    change ∀ q, ∀ r ∈ (s.runProc c p).mlq.ready q, c.prio r = q
    rw [(Worked.runProc_queues c s p).1]
    exact h.placed
  | _ => exact ⟨hself (by simp), h.placed⟩

theorem Steady.step (h : Steady c s) {a : OsAct} (hstep : step c s a = some s') : Steady c s' := by
  have htimer : s'.timer.timerStop = false ∧ Wakeup.Counted c.numDevs s'.timer := by
    rcases step_timer_goes hstep with hsame | ⟨b, hb, ht⟩
    · rw [hsame]
      exact ⟨h.started, h.counted⟩
    · exact timer_counted hb ht h.started h.counted
  cases a with
  | timer =>
    obtain ⟨t, ht, rfl⟩ := devStep_some hstep
    exact ⟨htimer.1, htimer.2, h.running, h.placed⟩
  | loader =>
    refine ⟨htimer.1, htimer.2, ?_, ?_⟩
    · rw [(ldRoutine_frame hstep).1]
      exact h.running
    · cases ldRoutine_cases hstep with
      | adds hld hput =>
        intro q p hmem
        rcases putMlqProc_ready hput hmem with hold | ⟨rfl, rfl⟩
        · exact h.placed q p hold
        · rfl
      | _ => exact h.placed
  | cpu i =>
    simp only [Os.step] at hstep
    split at hstep
    · obtain ⟨hrunning, hplaced⟩ := h.cpuRoutine hstep
      exact ⟨htimer.1, htimer.2, hrunning, hplaced⟩
    · cases hstep

def Fits (c : Config) : Prop :=
  (∀ p < c.numProcesses, c.prio p < maxPrio) ∧
    ∀ q, ((List.range c.numProcesses).filter (fun p => c.prio p = q)).length ≤ maxQueueSize

theorem put_goes (hfits : Fits c) (h : Inv c s) (hsteady : Steady c s) {p : Nat} (hp : p < c.numProcesses)
    (hout : p ∉ s.mlq.procs) : (s.mlq.putMlqProc (c.prio p) p).isSome := by
  have hprio := hfits.1 p hp
  have hcount : ∀ a, (s.mlq.ready (c.prio p)).count a ≤ s.mlq.procs.count a := fun a => by
    have := Family.count_all_update hprio s.mlq.ready [] a
    rw [List.count_nil] at this
    simp only [Mlq.procs]
    omega
  have hnodup : (p :: s.mlq.ready (c.prio p)).Nodup := by
    refine List.nodup_cons.2 ⟨fun hmem => hout (Family.mem_all.2 ⟨_, hprio, hmem⟩), ?_⟩
    refine List.nodup_iff_count_le_one.2 (fun a => (hcount a).trans ?_)
    have := h.places a
    split at this <;> omega
  have hsub : (p :: s.mlq.ready (c.prio p)).Subperm ((List.range c.numProcesses).filter (fun r => c.prio r = c.prio p)) := by
    refine hnodup.subperm (fun r hr => List.mem_filter.2 ⟨List.mem_range.2 ?_, decide_eq_true ?_⟩)
    · rcases List.mem_cons.1 hr with rfl | hr
      · exact hp
      · have hpos := (List.count_pos_iff.2 hr).trans_le (hcount r)
        have hplace := h.places r
        by_contra hge
        have hle := h.loaded_le
        rw [if_neg (by omega)] at hplace
        omega
    · rcases List.mem_cons.1 hr with rfl | hr
      · rfl
      · exact hsteady.placed _ r hr
  have hlen := hsub.length_le.trans (hfits.2 _)
  rw [List.length_cons] at hlen
  simp [Mlq.putMlqProc, Mlq.enqueue, hprio, Nat.lt_of_succ_le hlen]

theorem cpu_goes (hfits : Fits c) (h : Inv c s) (hsteady : Steady c s) {i : Nat} (hi : i < c.numCpus)
    (hpc : (s.cpu i).pc ≠ .stopped) : (s.cpuRoutine c i).isSome := by
  have hphase := h.cpuPhase i hi
  have hlt := cpuDev_lt hi
  cases hat : (s.cpu i).pc with
  | top =>
    cases hp : (s.cpu i).proc with
    | none => simp [cpuRoutine, hat, hp]
    | some p =>
      by_cases hend : (s.pcb p).pc = c.size p
      · simp [cpuRoutine, hat, hp, hend]
      · by_cases hleft : (s.cpu i).timeLeft = 0
        · have hlt := h.held_lt hi hp
          have hplace := h.places p
          have hheld : 0 < (held c s).count p := List.count_pos_iff.2 (Family.mem_all.2 ⟨i, hi, by simp [hp]⟩)
          have hout : p ∉ s.mlq.procs := fun hmem => by
            have := List.count_pos_iff.2 hmem
            rw [if_pos hlt] at hplace
            omega
          have hput := put_goes hfits h hsteady (hlt.trans_le h.loaded_le) hout
          simpa [cpuRoutine, hat, hp, hend, hleft] using hput
        · simp [cpuRoutine, hat, hp, hend, hleft]
  | empty | count | get => simp [cpuRoutine, hat]
  | recheck => cases hp : (s.cpu i).proc <;> simp [cpuRoutine, hat, hp]
  | run =>
    obtain ⟨p, hp⟩ := Option.ne_none_iff_exists'.1 (hsteady.running i hat)
    simp [cpuRoutine, hat, hp]
  | enter =>
    rw [hat] at hphase
    have hout : (s.timer.dev (c.cpuDev i)).phase = .outside := hphase
    simp [cpuRoutine, hat, devStep, Timer.step, Timer.enter, hlt, hout]
  | slot =>
    rw [hat] at hphase
    have hin : (s.timer.dev (c.cpuDev i)).phase = .told ∨ (s.timer.dev (c.cpuDev i)).phase = .waiting := hphase
    cases hdone : (s.timer.dev (c.cpuDev i)).done <;> simp [cpuRoutine, hat, devStep, Timer.step, Timer.test, hlt, hin, hdone]
  | leave =>
    rw [hat] at hphase
    have hout : (s.timer.dev (c.cpuDev i)).phase = .outside := hphase
    simp [cpuRoutine, hat, devStep, Timer.step, Timer.detach, hlt, hout]
  | stopped => exact absurd hat hpc

theorem loader_goes (hfits : Fits c) (h : Inv c s) (hsteady : Steady c s) (hpc : s.loader ≠ .gone) :
    (s.ldRoutine c).isSome := by
  have hphase := h.ldPhase
  have hok := h.ldOk
  have hlt := @ldDev_lt c
  cases hld : s.loader with
  | loop i => by_cases hi : i < c.numProcesses <;> simp [ldRoutine, hld, hi]
  | check i => simp [ldRoutine, hld]
  | add i =>
    rw [hld] at hok
    have hout : i ∉ s.mlq.procs := fun hmem => by
      have hplace := h.places i
      have := List.count_pos_iff.2 hmem
      rw [if_neg (by simp [loaded, hld])] at hplace
      omega
    simpa [ldRoutine, hld] using put_goes hfits h hsteady hok hout
  | enterWait i | enterAdd i | leave =>
    rw [hld] at hphase
    have hout : (s.timer.dev ldDev).phase = .outside := hphase
    simp [ldRoutine, hld, devStep, Timer.step, Timer.enter, Timer.detach, hlt, hout]
  | waitSlot i | addSlot i =>
    rw [hld] at hphase
    have hin : (s.timer.dev ldDev).phase = .told ∨ (s.timer.dev ldDev).phase = .waiting := hphase
    cases hdone : (s.timer.dev ldDev).done <;> simp [ldRoutine, hld, devStep, Timer.step, Timer.test, hlt, hin, hdone]
  | gone => exact absurd hld hpc

/-! While the CPUs and the loader can go on no further, the timer can. -/

theorem devWaits_iff {d : TimerId} : devWaits d = true ↔ d.phase = .waiting ∧ d.done = true := by
  simp [devWaits]

theorem timerWaits_of_set {n : Nat} {t : Timer} (hset : ∀ k < n, (t.dev k).done = true ∨ (t.dev k).fsh = true) :
    timerWaits n t = false := by
  have hflag : ∀ k, (decide (k < n) && !(t.dev k).done && !(t.dev k).fsh) = false := fun k => by
    by_cases hk : k < n
    · rcases hset k hk with e | e <;> simp [e]
    · simp [hk]
  unfold timerWaits
  split
  · exact hflag _
  · exact hflag _
  · rfl

theorem timer_goes (hpc : s.timer.pc ≠ .exited) : (step c s .timer).isSome := by
  simp only [step, devStep, Option.isSome_map, Timer.step, Timer.routine]
  split
  · rfl
  · split
    · split <;> rfl
    · rfl
  · rfl
  · split <;> rfl
  · rename_i hat
    exact absurd hat hpc

/-- The device of a thread that has ended is detached. -/
theorem Inv.ended_detached (h : Inv c s) (hloader : s.loader = .gone ∨ devWaits (s.timer.dev ldDev) = true)
    (hcpus : ∀ i < c.numCpus, (s.cpu i).pc = .stopped ∨ devWaits (s.timer.dev (c.cpuDev i)) = true) {k : Nat}
    (hk : k < c.numDevs) : (s.timer.dev k).phase = .detached ∨ devWaits (s.timer.dev k) = true := by
  cases Nat.eq_zero_or_pos k with
  | inl hzero =>
    subst hzero
    refine hloader.imp_left (fun hgone => ?_)
    have hphase := h.ldPhase
    rwa [hgone] at hphase
  | inr hpos =>
    have hself : c.cpuDev (c.numCpus - k) = k := by
      unfold Config.cpuDev
      unfold Config.numDevs at hk
      omega
    have hlt : c.numCpus - k < c.numCpus := by
      unfold Config.numDevs at hk
      omega
    rw [← hself]
    refine (hcpus _ hlt).imp_left (fun hstopped => ?_)
    have hphase := h.cpuPhase _ hlt
    rwa [hstopped] at hphase

/-- **Nobody is stuck**: while a thread has not ended, one can go on without waiting. -/
theorem someone_goes_on (hfits : Fits c) (h : Inv c s) (hsteady : Steady c s) (hnot : ¬ Over c s) :
    ∃ a, waits c s a = false ∧ (step c s a).isSome := by
  by_contra hnone
  push Not at hnone
  have hcpus : ∀ i < c.numCpus, (s.cpu i).pc = .stopped ∨ devWaits (s.timer.dev (c.cpuDev i)) = true := fun i hi => by
    by_contra hgoes
    push Not at hgoes
    have hgo := cpu_goes hfits h hsteady hi hgoes.1
    refine hnone (.cpu i) (by simpa [waits] using hgoes.2) ?_
    simpa [step, hi] using hgo
  have hloader : s.loader = .gone ∨ devWaits (s.timer.dev ldDev) = true := by
    by_contra hgoes
    push Not at hgoes
    exact hnone .loader (by simpa [waits] using hgoes.2) (loader_goes hfits h hsteady hgoes.1)
  -- each device is done or gone, so the timer does not wait, and has ended
  have hset : ∀ k < c.numDevs, (s.timer.dev k).done = true ∨ (s.timer.dev k).fsh = true := fun k hk =>
    (h.ended_detached hloader hcpus hk).symm.imp (fun hw => (devWaits_iff.1 hw).2) (h.timer k hk).detached
  have hexited : s.timer.pc = .exited := by
    by_contra hpc
    exact hnone .timer (timerWaits_of_set hset) (timer_goes hpc)
  -- it has found every device gone
  have hcounted := hsteady.counted
  rw [Wakeup.Counted, hexited] at hcounted
  have hnotWaits : ∀ k < c.numDevs, devWaits (s.timer.dev k) ≠ true := fun k hk hw => by
    have hfsh := Wakeup.gone_all hcounted hk
    have hin := ((h.timer k hk).inside (Or.inr (devWaits_iff.1 hw).1)).1
    simp [hfsh] at hin
  exact hnot ⟨hexited, hloader.resolve_right (hnotWaits ldDev (Nat.succ_pos _)),
    fun i hi => (hcpus i hi).resolve_right (hnotWaits _ (cpuDev_lt hi))⟩

end Steady

/-- **The simulation comes to an end.**  In every interleaving no more than `left` actions are done that do not wait;
and as long as a thread has not ended, such an action can be done. -/
theorem simulation_ends {c : Config} (hnum : 1 ≤ c.numCpus) (hfits : Fits c) {s : Os} {log : List OsAct}
    (h : Reach (logged (step c) (fun s a => if waits c s a then [] else [a])) (start, []) (s, log)) :
    log.length ≤ left c start ∧ (¬ Over c s → ∃ a, waits c s a = false ∧ (step c s a).isSome) := by
  obtain ⟨⟨hreach, hsteady⟩, hspent⟩ := h.spends (P := fun s => Reach (step c) start s ∧ Steady c s) (m := left c)
    ⟨.refl, start_steady c⟩ (fun ha hs => ⟨hs.1.tail ⟨_, ha⟩, hs.2.step ha⟩) (fun ha hs => step_left hnum hs.1 ha)
  have hos : Inv c s := hreach.inv (start_inv c) (fun ha hs => step_inv hnum ha hs)
  exact ⟨by omega, someone_goes_on hfits hos hsteady⟩

/-- The simulation of `fourEach`: 131 actions, and all threads have ended. -/
theorem simulation_ends_fourEach : ∃ (s : Os) (log : List OsAct),
    Reach (logged (step fourEach) (fun s a => if waits fourEach s a then [] else [a])) (start, []) (s, log) ∧
      Over fourEach s ∧ log.length = 131 ∧ log.length ≤ left fourEach start := by
  have hsome : (runActions (logged (step fourEach) (fun s a => if waits fourEach s a then [] else [a])) fourEachRun
      (start, [])).any (fun x => x.1.timer.pc = .exited ∧ x.1.loader = .gone ∧ (∀ i < 2, (x.1.cpu i).pc = .stopped) ∧
        x.2.length = 131) = true := by
    decide +kernel
  obtain ⟨⟨s, log⟩, hs, hq⟩ := (Option.any_eq_true _ _).1 hsome
  obtain ⟨hpc, hld, hstopped, hlen⟩ := of_decide_eq_true hq
  have hreach := reach_of_runActions _ hs
  have hfits : Fits fourEach :=
    ⟨fun _ _ => Nat.succ_pos 139, fun q => (List.length_filter_le _ _).trans (by decide)⟩
  exact ⟨s, log, hreach, ⟨hpc, hld, hstopped⟩, hlen, (simulation_ends (by decide) hfits hreach).1⟩

end Os

end OsSim
