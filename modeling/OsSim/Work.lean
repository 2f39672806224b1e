import OsSim.Loading
/-!
# Work — no CPU is idle while a process waits
A CPU that has found the queues empty does nothing for the rest of the slot.  What is put in a queue after that is put
there by a CPU that takes a process out again at once, or by the loader; so when the slot is over, no more processes
wait than were added in it.
-/
namespace OsSim

open System

/-- How often `run` is called on a process: once for each instruction, and once if it has none. -/
def Config.need (c : Config) (p : Nat) : Nat := max (c.size p) 1

/-- The system with, for the history, what has been run and the slots that are over. -/
structure Worked where
  os : Os
  /-- How many processes had been added when the slot began. -/
  seen : Nat
  /-- The calls of `run` on each process. -/
  runs : Nat → Nat
  /-- The processes run in this slot. -/
  now : List Nat
  /-- The slots that began before all processes had been added. -/
  early : Nat
  /-- The later slots in which every CPU has run a process. -/
  full : Nat
  /-- Those in which some CPUs have, and some not. -/
  part : Nat
  /-- Those in which none has. -/
  calm : Nat

namespace Os

def Past (c : Config) (s : Os) (i : Nat) : Prop :=
  (s.cpu i).pc = .enter ∨ (s.cpu i).pc = .slot ∧ (s.timer.dev (c.cpuDev i)).begun = s.timer.time + 1

instance (c : Config) (s : Os) (i : Nat) : Decidable (Past c s i) :=
  inferInstanceAs (Decidable (_ ∨ _ ∧ _))

/-- The CPU has found the queues empty, in this slot or before it stopped. -/
def Idle (c : Config) (s : Os) (i : Nat) : Prop :=
  (s.cpu i).proc = none ∧
    (Past c s i ∨ (s.cpu i).pc = .empty ∨ (s.cpu i).pc = .count ∨ (s.cpu i).pc = .recheck ∨ (s.cpu i).pc = .leave ∨
      (s.cpu i).pc = .stopped)

def getting (c : Config) (s : Os) : List Nat :=
  Family.all c.numCpus (fun i => if (s.cpu i).pc = .get then [i] else [])

end Os

namespace Worked

open Os

def ran (s : Worked) : OsAct → Worked
  | .cpu i =>
    match (s.os.cpu i).pc, (s.os.cpu i).proc with
    | .run, some p => { s with runs := Function.update s.runs p (s.runs p + 1), now := s.now ++ [p] }
    | _, _ => s
  | _ => s

def late (c : Config) (s : Worked) : Bool := decide (c.numProcesses ≤ s.seen)

def slotOver (c : Config) (s : Worked) (os : Os) : Worked :=
  let busy := (Os.held c os).length
  { s with
    os := os
    seen := loaded c os
    now := []
    early := if s.late c then s.early else s.early + 1
    full := if s.late c ∧ busy = c.numCpus then s.full + 1 else s.full
    part := if s.late c ∧ busy ≠ c.numCpus ∧ busy ≠ 0 then s.part + 1 else s.part
    calm := if s.late c ∧ busy ≠ c.numCpus ∧ busy = 0 then s.calm + 1 else s.calm }

def step (c : Config) (s : Worked) (a : OsAct) : Option Worked :=
  (Os.step c s.os a).map (fun os =>
    if os.timer.time = s.os.timer.time then { s.ran a with os := os } else s.slotOver c os)

def start : Worked := ⟨.start, 0, fun _ => 0, [], 0, 0, 0, 0⟩

/-! ## What each action does -/

inductive Step (c : Config) (s : Worked) : Worked → Prop where
  | runs {i p os} (hi : i < c.numCpus) (hpc : (s.os.cpu i).pc = .run) (hp : (s.os.cpu i).proc = some p)
      (hos : s.os.cpuRoutine c i = some os) :
      Step c s { s with os := os, runs := Function.update s.runs p (s.runs p + 1), now := s.now ++ [p] }
  | goes {i os} (hi : i < c.numCpus) (hpc : (s.os.cpu i).pc ≠ .run) (hos : s.os.cpuRoutine c i = some os) :
      Step c s { s with os := os }
  | loader {os} (hos : s.os.ldRoutine c = some os) : Step c s { s with os := os }
  | timer {t} (ht : s.os.timer.step c.numDevs .routine = some t) (htime : t.time = s.os.timer.time) :
      Step c s { s with os := { s.os with timer := t } }
  | slotEnds {t} (ht : s.os.timer.step c.numDevs .routine = some t) (htime : t.time = s.os.timer.time + 1)
      (hall : ∀ k < c.numDevs, Timer.Passed s.os.timer.pc k) : Step c s (s.slotOver c { s.os with timer := t })

section Cases

variable {c : Config} {s s' : Worked}

theorem cpuRoutine_time {s s' : Os} {i : Nat} (h : s.cpuRoutine c i = some s') : s'.timer.time = s.timer.time := by
  cases cpuRoutine_cases h with
  | runs hpc hp => exact congrArg Timer.time (runProc_frame c s _).1
  | enters hpc ht => exact (Timer.step_enter ht).2.1
  | sleeps hpc ht hin => exact (Timer.step_test ht).2.1
  | returns hpc ht hout => exact (Timer.step_test ht).2.1
  | detaches hpc ht => exact (Timer.step_detach ht).2.1
  | _ => rfl

theorem ldRoutine_time {s s' : Os} (h : s.ldRoutine c = some s') : s'.timer.time = s.timer.time := by
  cases ldRoutine_cases h with
  | entersWait hld ht => exact (Timer.step_enter ht).2.1
  | sleepsWait hld ht hin => exact (Timer.step_test ht).2.1
  | looksAgain hld ht hout => exact (Timer.step_test ht).2.1
  | enters hld ht => exact (Timer.step_enter ht).2.1
  | sleeps hld ht hin => exact (Timer.step_test ht).2.1
  | goesOn hld ht hout => exact (Timer.step_test ht).2.1
  | detaches hld ht => exact (Timer.step_detach ht).2.1
  | _ => rfl

theorem routine_time {n : Nat} {s t : Timer} (h : s.step n .routine = some t) :
    t.time = s.time ∨ t.time = s.time + 1 ∧ ∀ k < n, Timer.Passed s.pc k := by
  rcases (Timer.step_routine h).2 with hsame | hall
  · exact Or.inl hsame
  · cases Timer.routine_cases h with
    | counts hpc hk => exact Or.inr ⟨rfl, hall⟩
    | _ => exact Or.inl rfl

theorem step_cases {a : OsAct} (h : step c s a = some s') : Step c s s' := by
  obtain ⟨os, hos, rfl⟩ := Option.map_eq_some_iff.1 h
  cases a with
  | timer =>
    obtain ⟨t, ht, rfl⟩ := devStep_some hos
    rcases routine_time ht with htime | ⟨htime, hall⟩
    · rw [if_pos htime]
      exact .timer ht htime
    · have hne : t.time ≠ s.os.timer.time := by omega
      rw [if_neg hne]
      exact .slotEnds ht htime hall
  | loader =>
    rw [if_pos (ldRoutine_time hos)]
    exact .loader hos
  | cpu i =>
    simp only [Os.step] at hos
    split at hos
    · rename_i hi
      rw [if_pos (cpuRoutine_time hos)]
      by_cases hpc : (s.os.cpu i).pc = .run
      · cases hp : (s.os.cpu i).proc with
        | none => simp [cpuRoutine, hpc, hp] at hos
        | some p =>
          simp only [ran, hpc, hp]
          exact .runs hi hpc hp hos
      · have hran : s.ran (.cpu i) = s := by
          unfold ran
          dsimp only
          split
          · rename_i hrun _
            exact absurd hrun hpc
          · rfl
        rw [hran]
        exact .goes hi hpc hos
    · cases hos

end Cases

/-! ## When the last process has been added -/

end Worked

def lastLoad (c : Config) : Nat := loadTime c (c.numProcesses - 1)

section Load

variable {c : Config}

theorem loadTime_mono {i j : Nat} (h : i ≤ j) : loadTime c i ≤ loadTime c j := by
  induction h with
  | refl => exact Nat.le_refl _
  | @step k _ ih => exact ih.trans ((Nat.le_succ _).trans (le_max_right _ _))

theorem loadTime_le_lastLoad {i : Nat} (hi : i < c.numProcesses) : loadTime c i ≤ lastLoad c :=
  loadTime_mono (Nat.le_sub_one_of_lt hi)

theorem Timer.Inv.time_le {n : Nat} {t : Timer} (h : Timer.Inv n t) {i : Nat} (hi : i < n)
    (hphase : (t.dev i).phase ≠ .detached) : t.time ≤ (t.dev i).begun := by
  cases hp : (t.dev i).phase with
  | outside => exact ((h i hi).outside hp).2.2.2.1.ge
  | told => rcases ((h i hi).inside (Or.inl hp)).2.2 with hc | hc | hc <;> omega
  | waiting => rcases ((h i hi).inside (Or.inr hp)).2.2 with hc | hc | hc <;> omega
  | detached => exact absurd hp hphase

theorem Timer.Inv.passed_over {n : Nat} {t : Timer} (h : Timer.Inv n t) {i : Nat} (hi : i < n)
    (hpassed : Timer.Passed t.pc i) :
    ((t.dev i).phase = .told ∨ (t.dev i).phase = .waiting) ∧ (t.dev i).begun = t.time + 1 ∨
      (t.dev i).phase = .detached := by
  have hflags := (h i hi).passed hpassed
  have hnot : ¬ Timer.Pending t.pc i := by
    cases hpc : t.pc <;> simp [Timer.Passed, Timer.Pending, hpc] at hpassed ⊢
  have hin : (t.dev i).phase = .told ∨ (t.dev i).phase = .waiting →
      ((t.dev i).phase = .told ∨ (t.dev i).phase = .waiting) ∧ (t.dev i).begun = t.time + 1 := fun hin => by
    obtain ⟨hfsh, -, hcases⟩ := (h i hi).inside hin
    refine ⟨hin, ?_⟩
    rcases hcases with ⟨-, hbegun, -⟩ | ⟨-, -, hpend⟩ | ⟨hdone, -, -⟩
    · exact hbegun
    · exact absurd hpend hnot
    · simp [hfsh, hdone] at hflags
  cases hp : (t.dev i).phase with
  | outside =>
    obtain ⟨hdone, hfsh, -⟩ := (h i hi).outside hp
    simp [hdone, hfsh] at hflags
  | told => exact Or.inl (by simpa [hp] using hin (Or.inl hp))
  | waiting => exact Or.inl (by simpa [hp] using hin (Or.inr hp))
  | detached => exact Or.inr rfl

theorem LoadInv.time_le {s : Os} {log : List (Nat × Nat)} (h : LoadInv c (s, log))
    (hlt : Os.loaded c s < c.numProcesses) : s.timer.time ≤ lastLoad c := by
  have hplace : LoadPlace c s.loader (s.timer.dev ldDev).begun := h.place
  have hphase : Os.LdPhase s.loader (s.timer.dev ldDev).phase := h.phase
  have hready : ∀ i, readyTime c i ≤ loadTime c i := fun i => (le_max_right _ _).trans_eq (loadTime_eq c i).symm
  have hstart : ∀ i, c.startTime i ≤ loadTime c i := fun i => (le_max_left _ _).trans_eq (loadTime_eq c i).symm
  have htime : (s.timer.dev ldDev).phase ≠ .detached → s.timer.time ≤ (s.timer.dev ldDev).begun :=
    h.timer.time_le (Nat.succ_pos _)
  cases hld : s.loader with
  | loop i | check i | enterWait i | waitSlot i | add i =>
    rw [hld] at hplace hphase
    simp only [Os.loaded, hld] at hlt
    have hlast := loadTime_le_lastLoad hlt
    have hr := hready i
    have hs := hstart i
    have ht := htime (by rintro e; simp [Os.LdPhase, e] at hphase)
    simp only [LoadPlace] at hplace
    omega
  | enterAdd i | addSlot i =>
    rw [hld] at hplace hphase
    simp only [Os.loaded, hld] at hlt
    have hlast := loadTime_le_lastLoad hlt
    have hnext : loadTime c i + 1 ≤ loadTime c (i + 1) := le_max_right _ _
    have ht := htime (by rintro e; simp [Os.LdPhase, e] at hphase)
    simp only [LoadPlace] at hplace
    omega
  | leave | gone => simp [Os.loaded, hld] at hlt

theorem LoadInv.ends_time {s : Os} {log : List (Nat × Nat)} (h : LoadInv c (s, log)) {i : Nat}
    (hld : s.loader = .loop i) (hi : c.numProcesses ≤ i) : c.numProcesses = 0 ∨ s.timer.time = lastLoad c + 1 := by
  have hplace : LoadPlace c s.loader (s.timer.dev ldDev).begun := h.place
  have hphase : Os.LdPhase s.loader (s.timer.dev ldDev).phase := h.phase
  have hok : Os.LdOk c s.loader := h.ok
  rw [hld] at hplace hphase hok
  obtain rfl : i = c.numProcesses := Nat.le_antisymm hok hi
  have hbegun := h.begun_eq hphase
  have hready : (s.timer.dev ldDev).begun = readyTime c c.numProcesses := hplace
  cases hn : c.numProcesses with
  | zero => exact Or.inl rfl
  | succ n =>
    rw [hn] at hready
    refine Or.inr (hbegun.symm.trans (hready.trans ?_))
    simp [readyTime, lastLoad, hn]

end Load

/-! ## The processes that wait -/

theorem Mlq.getMlqProc_perm (m : Mlq) : m.procs.Perm (m.getMlqProc.1.procs ++ m.getMlqProc.2.toList) := by
  rw [List.perm_iff_count]
  intro a
  rcases @Mlq.getMlqProc_spec m m.getMlqProc.1 m.getMlqProc.2 rfl with ⟨hr, -, hm⟩ | ⟨p, hr, hcount⟩
  · rw [hr, hm]
    simp
  · rw [hr, List.count_append]
    exact hcount a

theorem Mlq.getMlqProc_none {m : Mlq} (h : m.getMlqProc.2 = none) : m.getMlqProc.1.procs = [] := by
  rcases @Mlq.getMlqProc_spec m m.getMlqProc.1 m.getMlqProc.2 rfl with ⟨-, hnil, hm⟩ | ⟨p, hr, -⟩
  · rw [hm, hnil]
  · rw [h] at hr
    cases hr

theorem Mlq.putMlqProc_perm {m m' : Mlq} {prio proc : Nat} (h : m.putMlqProc prio proc = some m') :
    m'.procs.Perm (m.procs ++ [proc]) := by
  rw [List.perm_iff_count]
  intro a
  rw [List.count_append]
  exact Mlq.putMlqProc_spec h a

namespace Os

variable {c : Config} {s s' : Os} {i : Nat}

/-- **Work is conserved**: once a CPU has found the queues empty, no more processes wait in them than CPUs are about to
ask for one, and `fresh` more. -/
def Conserves (c : Config) (s : Os) (fresh : Nat) : Prop :=
  (∃ i < c.numCpus, Idle c s i) → s.mlq.procs.length ≤ (getting c s).length + fresh

theorem length_getting (hcpu : ∀ j, j ≠ i → s'.cpu j = s.cpu j) (hi : i < c.numCpus) :
    (getting c s').length + (if (s.cpu i).pc = .get then 1 else 0) =
      (getting c s).length + (if (s'.cpu i).pc = .get then 1 else 0) := by
  have hupdate : (fun j => if (s'.cpu j).pc = .get then [j] else []) =
      Function.update (fun j => if (s.cpu j).pc = .get then [j] else []) i (if (s'.cpu i).pc = .get then [i] else []) := by
    funext j
    by_cases hj : j = i
    · subst hj; simp
    · rw [Function.update_of_ne hj, hcpu j hj]
  have hlen := Family.length_all_update hi (fun j => if (s.cpu j).pc = .get then [j] else [])
    (if (s'.cpu i).pc = .get then [i] else [])
  rw [getting, hupdate, getting]
  split <;> split <;> simp_all

theorem idle_other (hstep : s.cpuRoutine c i = some s') (hi : i < c.numCpus) {j : Nat} (hj : j < c.numCpus) (hji : j ≠ i) :
    Idle c s' j ↔ Idle c s j := by
  obtain ⟨hcpu, hdev, -, -⟩ := cpuRoutine_frame hstep
  have htime := Worked.cpuRoutine_time hstep
  simp only [Idle, Past, hcpu j hji, hdev _ (cpuDev_ne hj hi hji), htime]

/-- What CPU `i` may do to a system that conserves its work: it leaves the queues empty, or it is not newly idle and for
every process it puts in there is a CPU about to ask for one. -/
def Eases (c : Config) (s s' : Os) (i : Nat) : Prop :=
  s'.mlq.procs = [] ∨ (Idle c s' i → Idle c s i) ∧
    s'.mlq.procs.length + (if (s.cpu i).pc = .get then 1 else 0) ≤
      s.mlq.procs.length + (if (s'.cpu i).pc = .get then 1 else 0)

theorem Conserves.eases {fresh : Nat} (h : Conserves c s fresh) (hi : i < c.numCpus) (hstep : s.cpuRoutine c i = some s')
    (heases : Eases c s s' i) : Conserves c s' fresh := by
  rintro ⟨j, hj, hidle⟩
  rcases heases with hnil | ⟨hsame, hprocs⟩
  · rw [hnil]
    exact Nat.zero_le _
  · have hold : ∃ j < c.numCpus, Idle c s j := by
      by_cases hji : j = i
      · exact ⟨i, hi, hsame (hji ▸ hidle)⟩
      · exact ⟨j, hj, (idle_other hstep hi hj hji).1 hidle⟩
    have hle := h hold
    have hlen := length_getting (c := c) (cpuRoutine_frame hstep).1 hi
    omega

/-- **A CPU that asks for a process** finds the queues empty, or takes one out and is not idle. -/
theorem eases_asks (hmlq : s'.mlq = s.mlq.getMlqProc.1) (hproc : (s'.cpu i).proc = s.mlq.getMlqProc.2)
    (hpc : (s'.cpu i).pc ≠ .get) : Eases c s s' i := by
  have hperm := (Mlq.getMlqProc_perm s.mlq).length_eq
  rw [List.length_append] at hperm
  rw [Eases, hmlq]
  cases hr : s.mlq.getMlqProc.2 with
  | none => exact Or.inl (Mlq.getMlqProc_none hr)
  | some p =>
    rw [hr] at hperm hproc
    refine Or.inr ⟨fun hidle' => ?_, ?_⟩
    · obtain ⟨hnone, -⟩ := hidle'
      rw [hproc] at hnone
      cases hnone
    · rw [Option.toList_some, List.length_singleton] at hperm
      split <;> omega

/-- An action that leaves the queues alone. -/
theorem eases_goes (hmlq : s'.mlq = s.mlq) (hpc : (s.cpu i).pc ≠ .get) (hpc' : (s'.cpu i).pc ≠ .get)
    (hidle : Idle c s' i → Idle c s i) : Eases c s s' i := by
  rw [Eases, hmlq, if_neg hpc, if_neg hpc']
  exact Or.inr ⟨hidle, Nat.le_refl _⟩

theorem eases_cpuRoutine (hos : Inv c s) (hi : i < c.numCpus) (hstep : s.cpuRoutine c i = some s') :
    Eases c s s' i := by
  have hidle := hos.idle i hi
  cases cpuRoutine_cases hstep with
  | fetches hpc hp =>
    refine eases_asks rfl (by rw [setCpu_self]) ?_
    simp only [setCpu_self]
    split <;> simp
  | finishes hpc hp hend => exact eases_asks rfl (by rw [setCpu_self]) (by simp)
  | gets hpc => exact eases_asks rfl (by rw [setCpu_self]) (by simp)
  | @putsBack p m hpc hp hend hleft hput =>
    have hlen := (Mlq.putMlqProc_perm hput).length_eq
    rw [List.length_append, List.length_singleton] at hlen
    refine Or.inr ⟨fun hidle' => ?_, ?_⟩
    · simp [Idle, Past] at hidle'
    · simp only [setCpu_self, hpc]
      exact hlen.le
  | keeps hpc hp hend hleft =>
    exact eases_goes rfl (by simp [hpc]) (by simp) (fun hidle' => by simp [Idle, hp] at hidle')
  | allDone hpc hcnt =>
    exact eases_goes rfl (by simp [hpc]) (by simp) (fun _ => ⟨hidle (Or.inl hpc), Or.inr (Or.inl hpc)⟩)
  | waits hpc hcnt =>
    exact eases_goes rfl (by simp [hpc]) (by simp) (fun _ => ⟨hidle (Or.inl hpc), Or.inr (Or.inl hpc)⟩)
  | counts hpc =>
    refine eases_goes rfl (by simp [hpc]) (by simp) (fun hidle' => ⟨?_, by simp [hpc]⟩)
    simpa using hidle'.1
  | leaves hpc hp hdone | idles hpc hp hdone =>
    exact eases_goes rfl (by simp [hpc]) (by simp) (fun _ => ⟨hp, by simp [hpc]⟩)
  | dispatches hpc hp => exact eases_goes rfl (by simp [hpc]) (by simp) (fun hidle' => by simp [Idle, hp] at hidle')
  | @runs p hpc hp =>
    refine eases_goes ?_ (by simp [hpc]) (by simp) (fun hidle' => by simp [Idle, hp] at hidle')
    change (s.runProc c p).mlq = s.mlq
    unfold runProc
    split <;> rfl
  | enters hpc ht =>
    refine eases_goes rfl (by simp [hpc]) (by simp) (fun hidle' => ⟨?_, Or.inl (Or.inl hpc)⟩)
    simpa using hidle'.1
  | @sleeps t hpc ht hin =>
    obtain ⟨htime, -, hbegun, -⟩ := Timer.step_sleeps ht hin
    refine eases_goes rfl (by simp [hpc]) (by simp) (fun hidle' => ?_)
    obtain ⟨hnone, hcase⟩ := hidle'
    refine ⟨by simpa using hnone, Or.inl (Or.inr ⟨hpc, ?_⟩)⟩
    have hpast : (t.dev (c.cpuDev i)).begun = t.time + 1 := by simpa [Past, setCpu] using hcase
    omega
  | returns hpc ht hout =>
    exact eases_goes rfl (by simp [hpc]) (by simp) (fun hidle' => by simp [Idle, Past] at hidle')
  | detaches hpc ht =>
    refine eases_goes rfl (by simp [hpc]) (by simp) (fun hidle' => ⟨?_, by simp [hpc]⟩)
    simpa using hidle'.1

theorem Conserves.cpuRoutine {fresh : Nat} (h : Conserves c s fresh) (hos : Inv c s) (hi : i < c.numCpus)
    (hstep : s.cpuRoutine c i = some s') : Conserves c s' fresh :=
  h.eases hi hstep (eases_cpuRoutine hos hi hstep)

/-- **A slot is over** when every CPU is in `next_slot` for it, or has stopped. -/
theorem Inv.slotOver (h : Inv c s) (hall : ∀ k < c.numDevs, Timer.Passed s.timer.pc k) (hi : i < c.numCpus) :
    (s.cpu i).pc = .slot ∧ (s.timer.dev (c.cpuDev i)).begun = s.timer.time + 1 ∨ (s.cpu i).pc = .stopped := by
  have hphase := h.cpuPhase i hi
  rcases h.timer.passed_over (cpuDev_lt hi) (hall _ (cpuDev_lt hi)) with ⟨hin, hbegun⟩ | hgone
  · refine Or.inl ⟨?_, hbegun⟩
    by_contra hslot
    by_cases hstopped : (s.cpu i).pc = .stopped
    · have hgone : (s.timer.dev (c.cpuDev i)).phase = .detached := by simpa [CpuPhase, hstopped] using hphase
      simp [hgone] at hin
    · simp [hphase.outside hslot hstopped] at hin
  · by_contra hnot
    push Not at hnot
    by_cases hslot : (s.cpu i).pc = .slot
    · simp [CpuPhase, hslot, hgone] at hphase
    · have hout := hphase.outside hslot hnot.2
      simp [hgone] at hout

end Os

namespace Worked

open Os

/-- **The work is conserved** in every slot; and by the time the last process is added, the slots have begun that find
all of them there. -/
structure Fair (c : Config) (s : Worked) : Prop where
  os : Os.Inv c s.os
  load : ∃ log, LoadInv c (s.os, log)
  seen_le : s.seen ≤ loaded c s.os
  seen_late : s.seen < c.numProcesses → s.os.timer.time ≤ lastLoad c
  done_late : s.os.done = true → c.numProcesses ≤ s.seen
  conserves : Conserves c s.os (loaded c s.os - s.seen)
  /-- A CPU that has been running is in `next_slot` with its process. -/
  ran : ∀ i < c.numCpus, Past c s.os i → ∀ p, (s.os.cpu i).proc = some p → p ∈ s.now

theorem start_fair (c : Config) : Fair c start := by
  refine ⟨start_inv c, ⟨[], start_loadInv c⟩, Nat.zero_le _, fun _ => Nat.zero_le _, fun h => (by cases h), fun _ => ?_,
    fun i _ _ p hp => (by cases hp)⟩
  have hprocs : start.os.mlq.procs = [] := by simp [start, Os.start, Mlq.procs, Mlq.initSlot, Family.all_eq_nil]
  rw [hprocs]
  exact Nat.zero_le _

section Step

variable {c : Config} {s s' : Worked}

theorem cpuRoutine_done {s s' : Os} {i : Nat} (h : s.cpuRoutine c i = some s') : s'.done = s.done := by
  cases cpuRoutine_cases h with
  | @runs p hpc hp =>
    change (s.runProc c p).done = s.done
    unfold runProc
    split <;> rfl
  | _ => rfl

theorem ldRoutine_adds {s s' : Os} (h : s.ldRoutine c = some s') (hok : LdOk c s.loader) :
    s'.mlq.procs.length + loaded c s = s.mlq.procs.length + loaded c s' ∧ loaded c s ≤ loaded c s' := by
  cases ldRoutine_cases h with
  | @adds i m hld hput =>
    have hlen := (Mlq.putMlqProc_perm hput).length_eq
    rw [List.length_append, List.length_singleton] at hlen
    simp only [loaded, hld]
    omega
  | @ends i hld hi =>
    rw [hld] at hok
    have hlast : i = c.numProcesses := Nat.le_antisymm hok hi
    simp [loaded, hld, hlast]
  | loads hld hi | early hld htime | due hld htime | entersWait hld ht | sleepsWait hld ht hin | looksAgain hld ht hout
  | enters hld ht | sleeps hld ht hin | goesOn hld ht hout | detaches hld ht => simp [loaded, hld]

theorem Fair.load_step (h : Fair c s) {a : OsAct} {os : Os} (hos : Os.step c s.os a = some os) :
    ∃ log, LoadInv c (os, log) := by
  obtain ⟨log, hlog⟩ := h.load
  exact ⟨_, step_loadInv (logged_some.2 ⟨os, hos, rfl⟩) hlog⟩

/-- A CPU that goes on, and does not call `run`, has been in this place with its process before. -/
theorem past_goes {s s' : Os} {i : Nat} (hos : Inv c s) (hi : i < c.numCpus) (hpc : (s.cpu i).pc ≠ .run)
    (hstep : s.cpuRoutine c i = some s') (hpast : Past c s' i) {p : Nat} (hp : (s'.cpu i).proc = some p) :
    Past c s i ∧ (s.cpu i).proc = some p := by
  have hidle := hos.idle i hi
  cases cpuRoutine_cases hstep with
  | fetches hfrom hnone =>
    simp only [Past, setCpu_self] at hpast
    split at hpast <;> simp at hpast
  | finishes | putsBack | keeps | allDone | counts | gets | leaves | dispatches | detaches | returns =>
    simp [Past] at hpast
  | waits hfrom hcnt =>
    have hsome : (s.cpu i).proc = some p := by simpa using hp
    exact absurd (hidle (Or.inl hfrom)) (by simp [hsome])
  | idles hfrom hnone hdone =>
    have hsome : (s.cpu i).proc = some p := by simpa using hp
    exact absurd hnone (by simp [hsome])
  | runs hfrom hsome => exact absurd hfrom hpc
  | enters hfrom ht => exact ⟨Or.inl hfrom, by simpa using hp⟩
  | @sleeps t hfrom ht hin =>
    obtain ⟨htime, -, hbegun, -⟩ := Timer.step_sleeps ht hin
    refine ⟨Or.inr ⟨hfrom, ?_⟩, by simpa using hp⟩
    have hnow : (t.dev (c.cpuDev i)).begun = t.time + 1 := by simpa [Past, setCpu] using hpast
    omega

theorem Fair.cpu (h : Fair c s) (hnum : 1 ≤ c.numCpus) {i : Nat} (hi : i < c.numCpus) {os : Os} {runs : Nat → Nat}
    {now : List Nat} (hos : s.os.cpuRoutine c i = some os) (hnow : ∀ p ∈ s.now, p ∈ now)
    (hran : Past c os i → ∀ p, (os.cpu i).proc = some p → p ∈ now) :
    Fair c { s with os := os, runs := runs, now := now } := by
  have hact : Os.step c s.os (.cpu i) = some os := (if_pos hi).trans hos
  obtain ⟨hcpu, hdev, -, hld⟩ := cpuRoutine_frame hos
  have htime := cpuRoutine_time hos
  have hloaded : loaded c os = loaded c s.os := by rw [loaded, hld, loaded]
  refine ⟨Os.step_inv hnum hact h.os, h.load_step hact, ?_, ?_, ?_, ?_, fun j hj hpast p hp => ?_⟩
  · dsimp only
    rw [hloaded]
    exact h.seen_le
  · dsimp only
    rw [htime]
    exact h.seen_late
  · dsimp only
    rw [cpuRoutine_done hos]
    exact h.done_late
  · dsimp only
    rw [hloaded]
    exact h.conserves.cpuRoutine h.os hi hos
  · by_cases hji : j = i
    · subst hji
      exact hran hpast p hp
    · simp only [Past, hcpu j hji, hdev _ (cpuDev_ne hj hi hji), htime] at hpast
      simp only [hcpu j hji] at hp
      exact hnow p (h.ran j hj hpast p hp)

theorem Fair.loader (h : Fair c s) (hnum : 1 ≤ c.numCpus) {os : Os} (hos : s.os.ldRoutine c = some os) :
    Fair c { s with os := os } := by
  obtain ⟨hcpu, hdev, -⟩ := ldRoutine_frame hos
  obtain ⟨hadds, hmono⟩ := ldRoutine_adds hos h.os.ldOk
  have htime := ldRoutine_time hos
  have hpast : ∀ i < c.numCpus, (Past c os i ↔ Past c s.os i) := fun i hi => by
    simp only [Past, hcpu, hdev _ (cpuDev_ne_ldDev hi).symm, htime]
  refine ⟨Os.step_inv hnum (a := .loader) hos h.os, h.load_step (a := .loader) hos, h.seen_le.trans hmono, ?_, ?_, ?_,
    fun i hi hp => ?_⟩
  · dsimp only
    rw [htime]
    exact h.seen_late
  · intro hdone
    cases ldRoutine_cases hos with
    | @ends i hld hi =>
      -- the slot in which the last process was added is over
      obtain ⟨log, hlog⟩ := h.load
      rcases hlog.ends_time hld hi with hnone | hover
      · exact hnone.le.trans (Nat.zero_le _)
      · by_contra hlt
        have := h.seen_late (Nat.lt_of_not_le hlt)
        omega
    | _ => exact h.done_late hdone
  · rintro ⟨i, hi, hidle⟩
    have hold : Idle c s.os i := by simpa only [Idle, hpast i hi, hcpu] using hidle
    have hle := h.conserves ⟨i, hi, hold⟩
    have hseen := h.seen_le
    have hgetting : getting c os = getting c s.os := by rw [getting, hcpu, getting]
    dsimp only
    rw [hgetting]
    omega
  · dsimp only
    rw [hcpu]
    exact h.ran i hi ((hpast i hi).1 hp)

theorem Fair.timer (h : Fair c s) (hnum : 1 ≤ c.numCpus) {t : Timer} (ht : s.os.timer.step c.numDevs .routine = some t)
    (htime : t.time = s.os.timer.time) : Fair c { s with os := { s.os with timer := t } } := by
  have hact : Os.step c s.os .timer = some { s.os with timer := t } := Option.map_eq_some_iff.2 ⟨t, ht, rfl⟩
  have hpast : ∀ i, Past c { s.os with timer := t } i ↔ Past c s.os i := fun i => by
    simp only [Past, ((Timer.step_routine ht).1 _).2, htime]
  refine ⟨Os.step_inv hnum hact h.os, h.load_step hact, h.seen_le, ?_, h.done_late, ?_, fun i hi hp => ?_⟩
  · dsimp only
    rw [htime]
    exact h.seen_late
  · rintro ⟨i, hi, hidle⟩
    exact h.conserves ⟨i, hi, by simpa only [Idle, hpast] using hidle⟩
  · exact h.ran i hi ((hpast i).1 hp)

theorem getting_over {s : Os} (hos : Inv c s) (hall : ∀ k < c.numDevs, Timer.Passed s.timer.pc k) : getting c s = [] := by
  refine Family.all_eq_nil.2 (fun i hi => if_neg (fun hget => ?_))
  rcases hos.slotOver hall hi with ⟨hslot, -⟩ | hstopped
  · simp [hget] at hslot
  · simp [hget] at hstopped

/-- **The slot is over**, and those seen are all that have been added. -/
theorem Fair.slotEnds (h : Fair c s) (hnum : 1 ≤ c.numCpus) {t : Timer} (ht : s.os.timer.step c.numDevs .routine = some t)
    (htime : t.time = s.os.timer.time + 1) (hall : ∀ k < c.numDevs, Timer.Passed s.os.timer.pc k) :
    Fair c (s.slotOver c { s.os with timer := t }) := by
  have hact : Os.step c s.os .timer = some { s.os with timer := t } := Option.map_eq_some_iff.2 ⟨t, ht, rfl⟩
  have hload := h.load_step hact
  -- a CPU in `next_slot` is there for the slot that is over
  have hpast : ∀ i < c.numCpus, ¬ Past c { s.os with timer := t } i := fun i hi hp => by
    have hbegun := ((Timer.step_routine ht).1 (c.cpuDev i)).2
    simp only [Past] at hp
    rcases h.os.slotOver hall hi with ⟨hslot, hnow⟩ | hstopped
    · simp only [hslot] at hp
      rcases hp with hp | ⟨-, hp⟩
      · cases hp
      · omega
    · simp [hstopped] at hp
  have hle := h.os.loaded_le
  refine ⟨Os.step_inv hnum hact h.os, hload, Nat.le_refl _, fun hlt => ?_, fun hdone => ?_, ?_,
    fun i hi hp => absurd hp (hpast i hi)⟩
  · obtain ⟨log, hlog⟩ := hload
    exact hlog.time_le hlt
  · change c.numProcesses ≤ loaded c s.os
    rcases h.os.doneSet hdone with hld | hld <;> simp [loaded, hld]
  · rintro ⟨i, hi, hidle⟩
    have hstopped : (s.os.cpu i).pc = .stopped := by
      rcases h.os.slotOver hall hi with ⟨hslot, -⟩ | hstopped
      · have hslot' : (({ s.os with timer := t } : Os).cpu i).pc = .slot := hslot
        obtain ⟨-, hp | hp⟩ := hidle
        · exact absurd hp (hpast i hi)
        · simp [slotOver, hslot] at hp
      · exact hstopped
    change s.os.mlq.procs.length ≤ _ + (loaded c s.os - loaded c s.os)
    rcases h.os.stops i hi (Or.inr hstopped) with hdone | hcnt
    · have hlate := h.done_late hdone
      have := h.conserves ⟨i, hi, h.os.idle i hi (by simp [hstopped]), by simp [hstopped]⟩
      rw [getting_over h.os hall, List.length_nil] at this
      omega
    · rw [(h.os.all_counted hcnt).2.2]
      exact Nat.zero_le _

theorem Fair.step (h : Fair c s) (hnum : 1 ≤ c.numCpus) {a : OsAct} (hstep : step c s a = some s') : Fair c s' := by
  cases step_cases hstep with
  | @runs i p os hi hpc hp hos =>
    refine h.cpu hnum hi hos (fun q hq => List.mem_append_left _ hq) (fun _ q hq => ?_)
    cases cpuRoutine_cases hos with
    | runs _ _ =>
      rw [setCpu_self] at hq
      exact List.mem_append_right _ (List.mem_singleton.2 (Option.some.inj (hq.symm.trans hp)))
    | _ => simp_all
  | goes hi hpc hos =>
    refine h.cpu hnum hi hos (fun q hq => hq) (fun hpast q hq => ?_)
    obtain ⟨hpast', hq'⟩ := past_goes h.os hi hpc hos hpast hq
    exact h.ran _ hi hpast' q hq'
  | loader hos => exact h.loader hnum hos
  | timer ht htime => exact h.timer hnum ht htime
  | slotEnds ht htime hall => exact h.slotEnds hnum ht htime hall

theorem reach_fair (hnum : 1 ≤ c.numCpus) (h : Reach (Worked.step c) start s) : Fair c s :=
  h.inv (start_fair c) (fun ha hs => hs.step hnum ha)

end Step

/-- **No CPU is idle while a process waits.**  In every interleaving, when a slot is over either every CPU has run a
process in it and holds it, or no more processes wait in the queues than the loader has added since the slot began. -/
theorem work_conserved {c : Config} (hnum : 1 ≤ c.numCpus) {s s' : Worked} (h : Reach (step c) start s)
    (hstep : step c s .timer = some s') (hover : s'.os.timer.time ≠ s.os.timer.time) :
    (∀ i < c.numCpus, ∃ p ∈ s.now, (s.os.cpu i).proc = some p) ∨ s.os.mlq.procs.length ≤ loaded c s.os - s.seen := by
  have hfair := reach_fair hnum h
  have hall : ∀ k < c.numDevs, Timer.Passed s.os.timer.pc k := by
    obtain ⟨os, hos, rfl⟩ := Option.map_eq_some_iff.1 hstep
    obtain ⟨t, ht, rfl⟩ := devStep_some hos
    rcases (Timer.step_routine ht).2 with hsame | hall
    · rw [if_pos hsame] at hover
      exact absurd hsame hover
    · exact hall
  have hidle : (∃ i < c.numCpus, Idle c s.os i) → s.os.mlq.procs.length ≤ loaded c s.os - s.seen := fun hidle => by
    have hle := hfair.conserves hidle
    rwa [getting_over hfair.os hall, List.length_nil, Nat.zero_add] at hle
  by_cases hbusy : ∀ i < c.numCpus, Past c s.os i ∧ (s.os.cpu i).proc ≠ none
  · refine Or.inl (fun i hi => ?_)
    obtain ⟨hpast, hsome⟩ := hbusy i hi
    obtain ⟨p, hp⟩ := Option.ne_none_iff_exists'.1 hsome
    exact ⟨p, hfair.ran i hi hpast p hp, hp⟩
  · push Not at hbusy
    obtain ⟨i, hi, hnot⟩ := hbusy
    refine Or.inr (hidle ⟨i, hi, ?_⟩)
    rcases hfair.os.slotOver hall hi with hslot | hstopped
    · exact ⟨hnot (Or.inr hslot), Or.inl (Or.inr hslot)⟩
    · exact ⟨hfair.os.idle i hi (by simp [hstopped]), by simp [hstopped]⟩

/-- One CPU and two processes of three instructions: in the third slot the first process is run, the second waits. -/
theorem work_conserved_waits : ∃ s : Worked, Reach (step ⟨1, 1, 2, fun _ => 0, fun _ => 0, fun _ => 3⟩) start s ∧
    s.os.mlq.procs.length = 1 ∧ loaded ⟨1, 1, 2, fun _ => 0, fun _ => 0, fun _ => 3⟩ s.os = s.seen ∧
      ∃ p ∈ s.now, (s.os.cpu 0).proc = some p := by
  have hsome : (runActions (step ⟨1, 1, 2, fun _ => 0, fun _ => 0, fun _ => 3⟩)
      (repeated [(4, .loader), (4, .cpu 0), (7, .timer), (5, .loader), (6, .cpu 0), (7, .timer), (3, .loader),
      (6, .cpu 0), (3, .timer)]) start).any
      (fun s => s.os.mlq.procs.length = 1 ∧ loaded ⟨1, 1, 2, fun _ => 0, fun _ => 0, fun _ => 3⟩ s.os = s.seen ∧
        (step ⟨1, 1, 2, fun _ => 0, fun _ => 0, fun _ => 3⟩ s .timer).any
          (fun s' => s'.os.timer.time ≠ s.os.timer.time)) = true := by
    decide +kernel
  obtain ⟨s, hs, hq⟩ := (Option.any_eq_true _ _).1 hsome
  obtain ⟨hwaits, hseen, hover⟩ := of_decide_eq_true hq
  obtain ⟨s', hs', htime⟩ := (Option.any_eq_true _ _).1 hover
  have hreach := reach_of_runActions _ hs
  refine ⟨s, hreach, hwaits, hseen, ?_⟩
  rcases work_conserved (Nat.le_refl 1) hreach hs' (of_decide_eq_true htime) with hrun | hwait
  · exact hrun 0 Nat.one_pos
  · omega

end Worked

end OsSim
