import OsSim.Lifecycle
/-!
# Loading — when processes are added (`ld_routine`)

The loader reads the time without a lock while the timer counts slots.  Between two calls of `next_slot` the time
stands for it, at the number of slots it has begun, and each call takes it one further; so the slots its device has
begun say where in both loops it is.
-/
namespace OsSim

open System

def addEvent (s : Os) (a : OsAct) : List (Nat × Nat) :=
  match a, s.loader with
  | .loader, .add i => [(i, s.timer.time)]
  | _, _ => []

abbrev loading (c : Config) : Os × List (Nat × Nat) → OsAct → Option (Os × List (Nat × Nat)) :=
  logged (Os.step c) addEvent

/-- When process `i` is added: not before its start time, nor in the slot of the process before it. -/
def loadTime (c : Config) : Nat → Nat
  | 0 => c.startTime 0
  | i + 1 => max (c.startTime (i + 1)) (loadTime c i + 1)

def readyTime (c : Config) : Nat → Nat
  | 0 => 0
  | i + 1 => loadTime c i + 1

theorem loadTime_eq (c : Config) (i : Nat) : loadTime c i = max (c.startTime i) (readyTime c i) := by
  cases i with
  | zero => simp [loadTime, readyTime]
  | succ i => rfl

/-- **Where the loader is** after `begun` slots. -/
def LoadPlace (c : Config) (pc : LdPc) (begun : Nat) : Prop :=
  match pc with
  | .loop i => begun = readyTime c i
  | .check i => readyTime c i ≤ begun ∧ begun ≤ loadTime c i
  | .enterWait i => readyTime c i ≤ begun ∧ begun < c.startTime i
  | .waitSlot i => readyTime c i ≤ begun ∧ begun ≤ c.startTime i
  | .add i | .enterAdd i => begun = loadTime c i
  | .addSlot i => begun = loadTime c i + 1
  | .leave | .gone => True

structure LoadInv (c : Config) (s : Os × List (Nat × Nat)) : Prop where
  timer : Timer.Inv c.numDevs s.1.timer
  phase : Os.LdPhase s.1.loader (s.1.timer.dev ldDev).phase
  ok : Os.LdOk c s.1.loader
  place : LoadPlace c s.1.loader (s.1.timer.dev ldDev).begun
  log : s.2 = (List.range (Os.loaded c s.1)).map (fun i => (i, loadTime c i))

theorem start_loadInv (c : Config) : LoadInv c (Os.start, []) := ⟨Timer.start_inv _, rfl, Nat.zero_le _, rfl, rfl⟩

section Step

variable {c : Config} {s s' : Os} {log : List (Nat × Nat)}

theorem LoadInv.begun_eq (h : LoadInv c (s, log)) (hout : (s.timer.dev ldDev).phase = .outside) :
    (s.timer.dev ldDev).begun = s.timer.time :=
  ((h.timer ldDev (Nat.succ_pos _)).outside hout).2.2.2.1

theorem LoadInv.other (h : LoadInv c (s, log)) (htimer : Timer.Inv c.numDevs s'.timer) (hld : s'.loader = s.loader)
    (hphase : (s'.timer.dev ldDev).phase = (s.timer.dev ldDev).phase)
    (hbegun : (s'.timer.dev ldDev).begun = (s.timer.dev ldDev).begun) : LoadInv c (s', log ++ []) := by
  have hloaded : Os.loaded c s' = Os.loaded c s := by rw [Os.loaded, hld, Os.loaded]
  refine ⟨htimer, ?_, ?_, ?_, ?_⟩
  · dsimp only
    rw [hld, hphase]
    exact h.phase
  · dsimp only
    rw [hld]
    exact h.ok
  · dsimp only
    rw [hld, hbegun]
    exact h.place
  · rw [List.append_nil, h.log]
    dsimp only
    rw [hloaded]

theorem LoadInv.goes (h : LoadInv c (s, log)) (htimer : Timer.Inv c.numDevs s'.timer) (hnone : addEvent s .loader = [])
    (hloaded : Os.loaded c s' = Os.loaded c s) (hphase : Os.LdPhase s'.loader (s'.timer.dev ldDev).phase)
    (hok : Os.LdOk c s'.loader) (hplace : LoadPlace c s'.loader (s'.timer.dev ldDev).begun) :
    LoadInv c (s', log ++ addEvent s .loader) := by
  refine ⟨htimer, hphase, hok, hplace, ?_⟩
  rw [hnone, List.append_nil, h.log]
  dsimp only
  rw [hloaded]

theorem LoadInv.ldRoutine (h : LoadInv c (s, log)) (htimer : Timer.Inv c.numDevs s'.timer)
    (hstep : s.ldRoutine c = some s') : LoadInv c (s', log ++ addEvent s .loader) := by
  have hphase : Os.LdPhase s.loader (s.timer.dev ldDev).phase := h.phase
  have hok : Os.LdOk c s.loader := h.ok
  have hplace : LoadPlace c s.loader (s.timer.dev ldDev).begun := h.place
  cases Os.ldRoutine_cases hstep with
  | @loads i hld hi =>
    rw [hld] at hplace hphase
    have hready : (s.timer.dev ldDev).begun = readyTime c i := hplace
    refine h.goes htimer (by simp [addEvent, hld]) (by simp [Os.loaded, hld]) hphase hi ⟨hready.ge, ?_⟩
    change (s.timer.dev ldDev).begun ≤ loadTime c i
    rw [hready, loadTime_eq]
    exact le_max_right _ _
  | @ends i hld hi =>
    rw [hld] at hok hphase
    have hlast : i = c.numProcesses := Nat.le_antisymm hok hi
    exact h.goes htimer (by simp [addEvent, hld]) (by simp [Os.loaded, hld, hlast]) hphase trivial trivial
  | @early i hld htime =>
    rw [hld] at hplace hphase hok
    have hbegun := h.begun_eq hphase
    exact h.goes htimer (by simp [addEvent, hld]) (by simp [Os.loaded, hld]) hphase hok ⟨hplace.1, hbegun.trans_lt htime⟩
  | @due i hld htime =>
    rw [hld] at hplace hphase hok
    have hbegun := h.begun_eq hphase
    refine h.goes htimer (by simp [addEvent, hld]) (by simp [Os.loaded, hld]) hphase hok ?_
    -- the start time has come, and the time has not gone past it
    refine Nat.le_antisymm hplace.2 ?_
    rw [loadTime_eq]
    exact max_le (htime.trans hbegun.ge) hplace.1
  | @entersWait i t hld ht =>
    rw [hld] at hplace hok
    obtain ⟨-, -, -, htold, hbegun⟩ := Timer.step_enter ht
    refine h.goes htimer (by simp [addEvent, hld]) (by simp [Os.loaded, hld]) (Or.inl htold) hok ?_
    change readyTime c i ≤ (t.dev ldDev).begun ∧ (t.dev ldDev).begun ≤ c.startTime i
    rw [hbegun]
    exact ⟨hplace.1.trans (Nat.le_succ _), hplace.2⟩
  | @sleepsWait i t hld ht hin =>
    rw [hld] at hplace hok
    obtain ⟨-, -, hbegun, hwait⟩ := Timer.step_sleeps ht hin
    refine h.goes htimer (by simp [addEvent, hld]) (by simp [Os.loaded, hld]) (Or.inr hwait) hok ?_
    change LoadPlace c (.waitSlot i) (t.dev ldDev).begun
    rwa [hbegun]
  | @looksAgain i t hld ht hout =>
    rw [hld] at hplace hok
    obtain ⟨-, -, -, hbegun, -⟩ := Timer.step_test ht
    refine h.goes htimer (by simp [addEvent, hld]) (by simp [Os.loaded, hld]) hout hok ?_
    change readyTime c i ≤ (t.dev ldDev).begun ∧ (t.dev ldDev).begun ≤ loadTime c i
    rw [hbegun, loadTime_eq]
    exact ⟨hplace.1, hplace.2.trans (le_max_left _ _)⟩
  | @adds i m hld hput =>
    rw [hld] at hplace hphase hok
    have htime : s.timer.time = loadTime c i := (h.begun_eq hphase).symm.trans hplace
    have hlog : log = (List.range i).map (fun i => (i, loadTime c i)) := by simpa [Os.loaded, hld] using h.log
    refine ⟨htimer, hphase, hok, hplace, ?_⟩
    simp [addEvent, hld, hlog, htime, Os.loaded, List.range_succ]
  | @enters i t hld ht =>
    rw [hld] at hplace hok
    obtain ⟨-, -, -, htold, hbegun⟩ := Timer.step_enter ht
    refine h.goes htimer (by simp [addEvent, hld]) (by simp [Os.loaded, hld]) (Or.inl htold) hok ?_
    exact hbegun.trans (congrArg (· + 1) hplace)
  | @sleeps i t hld ht hin =>
    rw [hld] at hplace hok
    obtain ⟨-, -, hbegun, hwait⟩ := Timer.step_sleeps ht hin
    exact h.goes htimer (by simp [addEvent, hld]) (by simp [Os.loaded, hld]) (Or.inr hwait) hok (hbegun.trans hplace)
  | @goesOn i t hld ht hout =>
    rw [hld] at hplace hok
    obtain ⟨-, -, -, hbegun, -⟩ := Timer.step_test ht
    exact h.goes htimer (by simp [addEvent, hld]) (by simp [Os.loaded, hld]) hout hok (hbegun.trans hplace)
  | detaches hld ht =>
    obtain ⟨-, -, -, hgone, -⟩ := Timer.step_detach ht
    exact h.goes htimer (by simp [addEvent, hld]) (by simp [Os.loaded, hld]) hgone trivial trivial

theorem step_loadInv {x x' : Os × List (Nat × Nat)} {a : OsAct} (hstep : loading c x a = some x') (h : LoadInv c x) :
    LoadInv c x' := by
  obtain ⟨s, log⟩ := x
  obtain ⟨s', hos, rfl⟩ := logged_some.1 hstep
  have htimer : Timer.Inv c.numDevs s'.timer := by
    rcases Os.step_timer hos with hsame | ⟨b, hb⟩
    · rw [hsame]
      exact h.timer
    · exact Timer.step_inv hb h.timer
  cases a with
  | timer =>
    obtain ⟨t, ht, rfl⟩ := Os.devStep_some hos
    obtain ⟨hphase, hbegun⟩ := (Timer.step_routine ht).1 ldDev
    exact h.other htimer rfl hphase hbegun
  | loader => exact h.ldRoutine htimer hos
  | cpu j =>
    simp only [Os.step] at hos
    split at hos
    · rename_i hj
      obtain ⟨-, hdev, -, hld⟩ := Os.cpuRoutine_frame hos
      have hsame := hdev ldDev (Os.cpuDev_ne_ldDev hj)
      exact h.other htimer hld (by rw [hsame]) (by rw [hsame])
    · cases hos

end Step

/-- **Processes are loaded at the earliest allowed slot.**  Whatever the start times and the interleaving, the processes
added are the first ones of the configuration, each at its `loadTime`, and so is the one about to be added. -/
theorem load_times (c : Config) {s : Os} {log : List (Nat × Nat)} (h : Reach (loading c) (Os.start, []) (s, log)) :
    log = (List.range (Os.loaded c s)).map (fun i => (i, loadTime c i)) ∧
      ∀ i, s.loader = .add i → s.timer.time = loadTime c i := by
  have hinv : LoadInv c (s, log) := h.inv (start_loadInv c) (fun ha hs => step_loadInv ha hs)
  refine ⟨hinv.log, fun i hld => ?_⟩
  have hphase : Os.LdPhase s.loader (s.timer.dev ldDev).phase := hinv.phase
  have hplace : LoadPlace c s.loader (s.timer.dev ldDev).begun := hinv.place
  rw [hld] at hphase hplace
  exact (hinv.begun_eq hphase).symm.trans hplace

/-- Start times 2 and 0: the second process has to wait for the first one. -/
theorem load_times_late : ∃ (s : Os) (log : List (Nat × Nat)),
    Reach (loading ⟨1, 1, 2, fun i => 2 - 2 * i, fun _ => 138, fun _ => 1⟩) (Os.start, []) (s, log) ∧
      s.loader = .enterAdd 1 ∧ log = [(0, 2), (1, 3)] ∧
      log = (List.range 2).map (fun i => (i, loadTime ⟨1, 1, 2, fun i => 2 - 2 * i, fun _ => 138, fun _ => 1⟩ i)) := by
  have hsome : (runActions (loading ⟨1, 1, 2, fun i => 2 - 2 * i, fun _ => 138, fun _ => 1⟩)
      (repeated [(3, .loader), (3, .cpu 0), (7, .timer), (3, .loader), (4, .cpu 0), (7, .timer), (4, .loader),
      (5, .cpu 0), (7, .timer), (4, .loader)]) (Os.start, [])).any
      (fun x => x.1.loader = .enterAdd 1 ∧ x.2 = [(0, 2), (1, 3)]) = true := by
    decide +kernel
  obtain ⟨⟨s, log⟩, hs, hq⟩ := (Option.any_eq_true _ _).1 hsome
  obtain ⟨hld, hlog⟩ := of_decide_eq_true hq
  have hreach := reach_of_runActions _ hs
  have htimes := (load_times _ hreach).1
  have hld' : s.loader = .enterAdd 1 := hld
  rw [Os.loaded, hld'] at htimes
  exact ⟨s, log, hreach, hld, hlog, htimes⟩

end OsSim
