import OsSim.Sched
import OsSim.Timer
/-!
# Os — the CPU and loader threads (`src/os.c`)

Each CPU takes processes from the ready queues and runs one instruction in each time slot; the loader adds the
processes when their time has come.  One action of a thread is one operation it shares with others: a queue
operation, a section of `next_slot`, a read or an update of `cnt_proc_done` or `done`.  `cnt_proc_done++`, which the
code does without a lock, is one update here: none is lost.  What an instruction does to memory is left out: `run`
returns, and `proc->pc` is one further.
-/
namespace OsSim

/-- What `read_config` reads: processes by their place in the file. -/
structure Config where
  timeSlot : Int
  numCpus : Nat
  numProcesses : Nat
  startTime : Nat → Nat
  prio : Nat → Nat
  /-- `code->size` of the process's program. -/
  size : Nat → Nat

/-- The place of a CPU's device in `dev_list`, which is built from its end: the loader's comes first. -/
def Config.cpuDev (c : Config) (i : Nat) : Nat := c.numCpus - i

def ldDev : Nat := 0

def Config.numDevs (c : Config) : Nat := c.numCpus + 1

inductive CpuPc where
  /-- The head of the loop. -/
  | top
  /-- `get_proc` has returned NULL at the head of the loop. -/
  | empty
  /-- A process has finished, and the next one has been asked for. -/
  | count
  /-- A process has been put back. -/
  | get
  /-- "Recheck process status after loading new process" -/
  | recheck
  | run
  /-- About to call `next_slot`. -/
  | enter
  /-- In `next_slot`. -/
  | slot
  /-- Out of the loop. -/
  | leave
  | stopped
  deriving DecidableEq

/-- The locals of `cpu_routine`.  A process put back is the CPU's no more, so `proc` is NULL until the next one
comes. -/
structure Cpu where
  pc : CpuPc
  proc : Option Nat
  timeLeft : Int

inductive LdPc where
  | loop (i : Nat)
  /-- About to read the time. -/
  | check (i : Nat)
  | enterWait (i : Nat)
  /-- In `next_slot`, waiting for the start time. -/
  | waitSlot (i : Nat)
  | add (i : Nat)
  | enterAdd (i : Nat)
  /-- In `next_slot`, the process added. -/
  | addSlot (i : Nat)
  | leave
  | gone
  deriving DecidableEq

/-- A process: its program counter and, for the history, the instructions it has executed. -/
structure Pcb where
  pc : Nat
  executed : List Nat
  deriving DecidableEq

structure Os where
  timer : Timer
  mlq : Mlq
  cntProcDone : Nat
  done : Bool
  pcb : Nat → Pcb
  loader : LdPc
  cpu : Nat → Cpu
  /-- For the history: the processes that have finished. -/
  finished : List Nat

inductive OsAct where
  | timer
  | loader
  | cpu (i : Nat)
  deriving DecidableEq

namespace Os

def setCpu (s : Os) (i : Nat) (x : Cpu) : Os := { s with cpu := Function.update s.cpu i x }

/-- `run`: the instruction at `proc->pc`, if there is one. -/
def runProc (c : Config) (s : Os) (p : Nat) : Os :=
  if (s.pcb p).pc < c.size p then
    { s with pcb := Function.update s.pcb p ⟨(s.pcb p).pc + 1, (s.pcb p).executed ++ [(s.pcb p).pc]⟩ }
  else s

def devStep (c : Config) (s : Os) (a : TimerAct) : Option Os :=
  (s.timer.step c.numDevs a).map (fun t => { s with timer := t })

def cpuRoutine (c : Config) (s : Os) (i : Nat) : Option Os :=
  let cpu := s.cpu i
  match cpu.pc with
  | .top =>
    match cpu.proc with
    | none =>
      let (mlq, proc) := s.mlq.getMlqProc
      some ({ s with mlq := mlq }.setCpu i { cpu with pc := if proc = none then .empty else .recheck, proc := proc })
    | some p =>
      if (s.pcb p).pc = c.size p then
        let (mlq, proc) := s.mlq.getMlqProc
        some ({ s with mlq := mlq, finished := s.finished ++ [p] }.setCpu i { pc := .count, proc := proc, timeLeft := 0 })
      else if cpu.timeLeft = 0 then
        (s.mlq.putMlqProc (c.prio p) p).map
          (fun mlq => { s with mlq := mlq }.setCpu i { cpu with pc := .get, proc := none })
      else some (s.setCpu i { cpu with pc := .recheck })
  | .empty => some (s.setCpu i { cpu with pc := if s.cntProcDone = c.numProcesses then .leave else .enter })
  -- `cnt_proc_done++`, in one step
  | .count => some ({ s with cntProcDone := s.cntProcDone + 1 }.setCpu i { cpu with pc := .recheck })
  | .get =>
    let (mlq, proc) := s.mlq.getMlqProc
    some ({ s with mlq := mlq }.setCpu i { cpu with pc := .recheck, proc := proc })
  | .recheck =>
    match cpu.proc with
    | none => some (s.setCpu i { cpu with pc := if s.done then .leave else .enter })
    | some _ =>
      some (s.setCpu i { cpu with pc := .run, timeLeft := if cpu.timeLeft = 0 then c.timeSlot else cpu.timeLeft })
  | .run =>
    match cpu.proc with
    | none => none
    | some p => some ((s.runProc c p).setCpu i { cpu with pc := .enter, timeLeft := cpu.timeLeft - 1 })
  | .enter => (s.devStep c (.enter (c.cpuDev i))).map (fun s => s.setCpu i { cpu with pc := .slot })
  | .slot =>
    (s.devStep c (.test (c.cpuDev i))).map (fun s =>
      s.setCpu i { cpu with pc := if (s.timer.dev (c.cpuDev i)).phase = .outside then .top else .slot })
  | .leave => (s.devStep c (.detach (c.cpuDev i))).map (fun s => s.setCpu i { cpu with pc := .stopped })
  | .stopped => none

def ldRoutine (c : Config) (s : Os) : Option Os :=
  match s.loader with
  | .loop i =>
    if i < c.numProcesses then some { s with pcb := Function.update s.pcb i ⟨0, []⟩, loader := .check i }
    else some { s with done := true, loader := .leave }
  | .check i => some { s with loader := if s.timer.time < c.startTime i then .enterWait i else .add i }
  | .enterWait i => (s.devStep c (.enter ldDev)).map (fun s => { s with loader := .waitSlot i })
  | .waitSlot i =>
    (s.devStep c (.test ldDev)).map (fun s =>
      { s with loader := if (s.timer.dev ldDev).phase = .outside then .check i else .waitSlot i })
  | .add i => (s.mlq.putMlqProc (c.prio i) i).map (fun mlq => { s with mlq := mlq, loader := .enterAdd i })
  | .enterAdd i => (s.devStep c (.enter ldDev)).map (fun s => { s with loader := .addSlot i })
  | .addSlot i =>
    (s.devStep c (.test ldDev)).map (fun s =>
      { s with loader := if (s.timer.dev ldDev).phase = .outside then .loop (i + 1) else .addSlot i })
  | .leave => (s.devStep c (.detach ldDev)).map (fun s => { s with loader := .gone })
  | .gone => none

def step (c : Config) (s : Os) : OsAct → Option Os
  | .timer => s.devStep c .routine
  | .loader => s.ldRoutine c
  | .cpu i => if i < c.numCpus then s.cpuRoutine c i else none

def start : Os :=
  { timer := .start
    mlq := Mlq.initSlot ⟨fun _ => [], fun _ => 0⟩
    cntProcDone := 0
    done := false
    pcb := fun _ => ⟨0, []⟩
    loader := .loop 0
    cpu := fun _ => ⟨.top, none, 0⟩
    finished := [] }

/-! ## What each action does -/

section Cases

variable {c : Config} {s s' : Os}

/-- **What a CPU's action does**, from each place where `cpu_routine` can be. -/
inductive CpuStep (c : Config) (s : Os) (i : Nat) : Os → Prop where
  | fetches (hpc : (s.cpu i).pc = .top) (hp : (s.cpu i).proc = none) :
      CpuStep c s i (({ s with mlq := s.mlq.getMlqProc.1 } : Os).setCpu i
        { s.cpu i with pc := if s.mlq.getMlqProc.2 = none then .empty else .recheck, proc := s.mlq.getMlqProc.2 })
  | finishes {p} (hpc : (s.cpu i).pc = .top) (hp : (s.cpu i).proc = some p) (hend : (s.pcb p).pc = c.size p) :
      CpuStep c s i (({ s with mlq := s.mlq.getMlqProc.1, finished := s.finished ++ [p] } : Os).setCpu i
        { pc := .count, proc := s.mlq.getMlqProc.2, timeLeft := 0 })
  | putsBack {p m} (hpc : (s.cpu i).pc = .top) (hp : (s.cpu i).proc = some p) (hend : (s.pcb p).pc ≠ c.size p)
      (hleft : (s.cpu i).timeLeft = 0) (hput : s.mlq.putMlqProc (c.prio p) p = some m) :
      CpuStep c s i (({ s with mlq := m } : Os).setCpu i { s.cpu i with pc := .get, proc := none })
  | keeps {p} (hpc : (s.cpu i).pc = .top) (hp : (s.cpu i).proc = some p) (hend : (s.pcb p).pc ≠ c.size p)
      (hleft : (s.cpu i).timeLeft ≠ 0) : CpuStep c s i (s.setCpu i { s.cpu i with pc := .recheck })
  | allDone (hpc : (s.cpu i).pc = .empty) (hcnt : s.cntProcDone = c.numProcesses) :
      CpuStep c s i (s.setCpu i { s.cpu i with pc := .leave })
  | waits (hpc : (s.cpu i).pc = .empty) (hcnt : s.cntProcDone ≠ c.numProcesses) :
      CpuStep c s i (s.setCpu i { s.cpu i with pc := .enter })
  | counts (hpc : (s.cpu i).pc = .count) :
      CpuStep c s i (({ s with cntProcDone := s.cntProcDone + 1 } : Os).setCpu i { s.cpu i with pc := .recheck })
  | gets (hpc : (s.cpu i).pc = .get) :
      CpuStep c s i (({ s with mlq := s.mlq.getMlqProc.1 } : Os).setCpu i
        { s.cpu i with pc := .recheck, proc := s.mlq.getMlqProc.2 })
  | leaves (hpc : (s.cpu i).pc = .recheck) (hp : (s.cpu i).proc = none) (hdone : s.done = true) :
      CpuStep c s i (s.setCpu i { s.cpu i with pc := .leave })
  | idles (hpc : (s.cpu i).pc = .recheck) (hp : (s.cpu i).proc = none) (hdone : s.done = false) :
      CpuStep c s i (s.setCpu i { s.cpu i with pc := .enter })
  | dispatches {p} (hpc : (s.cpu i).pc = .recheck) (hp : (s.cpu i).proc = some p) :
      CpuStep c s i (s.setCpu i
        { s.cpu i with pc := .run, timeLeft := if (s.cpu i).timeLeft = 0 then c.timeSlot else (s.cpu i).timeLeft })
  | runs {p} (hpc : (s.cpu i).pc = .run) (hp : (s.cpu i).proc = some p) :
      CpuStep c s i ((s.runProc c p).setCpu i { s.cpu i with pc := .enter, timeLeft := (s.cpu i).timeLeft - 1 })
  | enters {t} (hpc : (s.cpu i).pc = .enter) (ht : s.timer.step c.numDevs (.enter (c.cpuDev i)) = some t) :
      CpuStep c s i (({ s with timer := t } : Os).setCpu i { s.cpu i with pc := .slot })
  | sleeps {t} (hpc : (s.cpu i).pc = .slot) (ht : s.timer.step c.numDevs (.test (c.cpuDev i)) = some t)
      (hin : (t.dev (c.cpuDev i)).phase ≠ .outside) :
      CpuStep c s i (({ s with timer := t } : Os).setCpu i { s.cpu i with pc := .slot })
  | returns {t} (hpc : (s.cpu i).pc = .slot) (ht : s.timer.step c.numDevs (.test (c.cpuDev i)) = some t)
      (hout : (t.dev (c.cpuDev i)).phase = .outside) :
      CpuStep c s i (({ s with timer := t } : Os).setCpu i { s.cpu i with pc := .top })
  | detaches {t} (hpc : (s.cpu i).pc = .leave) (ht : s.timer.step c.numDevs (.detach (c.cpuDev i)) = some t) :
      CpuStep c s i (({ s with timer := t } : Os).setCpu i { s.cpu i with pc := .stopped })

theorem devStep_some {a : TimerAct} (h : s.devStep c a = some s') :
    ∃ t, s.timer.step c.numDevs a = some t ∧ s' = { s with timer := t } := by
  obtain ⟨t, ht, rfl⟩ := Option.map_eq_some_iff.1 h
  exact ⟨t, ht, rfl⟩

theorem cpuRoutine_cases {i : Nat} (h : s.cpuRoutine c i = some s') : CpuStep c s i s' := by
  cases hpc : (s.cpu i).pc with
  | top =>
    cases hp : (s.cpu i).proc with
    | none =>
      simp only [cpuRoutine, hpc, hp] at h
      cases h
      exact .fetches hpc hp
    | some p =>
      simp only [cpuRoutine, hpc, hp] at h
      split at h
      · rename_i hend
        cases h
        exact .finishes hpc hp hend
      · rename_i hend
        split at h
        · rename_i hleft
          obtain ⟨m, hput, rfl⟩ := Option.map_eq_some_iff.1 h
          exact .putsBack hpc hp hend hleft hput
        · rename_i hleft
          cases h
          rw [← hp]
          exact .keeps hpc hp hend hleft
  | empty =>
    simp only [cpuRoutine, hpc] at h
    cases h
    split
    · rename_i hcnt
      exact .allDone hpc hcnt
    · rename_i hcnt
      exact .waits hpc hcnt
  | count =>
    simp only [cpuRoutine, hpc] at h
    cases h
    exact .counts hpc
  | get =>
    simp only [cpuRoutine, hpc] at h
    cases h
    exact .gets hpc
  | recheck =>
    cases hp : (s.cpu i).proc with
    | none =>
      simp only [cpuRoutine, hpc, hp] at h
      cases h
      rw [← hp]
      split
      · rename_i hdone
        exact .leaves hpc hp hdone
      · rename_i hdone
        exact .idles hpc hp (by simpa using hdone)
    | some p =>
      simp only [cpuRoutine, hpc, hp] at h
      cases h
      rw [← hp]
      exact .dispatches hpc hp
  | run =>
    cases hp : (s.cpu i).proc with
    | none => simp [cpuRoutine, hpc, hp] at h
    | some p =>
      simp only [cpuRoutine, hpc, hp] at h
      cases h
      rw [← hp]
      exact .runs hpc hp
  | enter =>
    simp only [cpuRoutine, hpc] at h
    obtain ⟨s₁, hs₁, rfl⟩ := Option.map_eq_some_iff.1 h
    obtain ⟨t, ht, rfl⟩ := devStep_some hs₁
    exact .enters hpc ht
  | slot =>
    simp only [cpuRoutine, hpc] at h
    obtain ⟨s₁, hs₁, rfl⟩ := Option.map_eq_some_iff.1 h
    obtain ⟨t, ht, rfl⟩ := devStep_some hs₁
    dsimp only
    split
    · rename_i hout
      exact .returns hpc ht hout
    · rename_i hin
      exact .sleeps hpc ht hin
  | leave =>
    simp only [cpuRoutine, hpc] at h
    obtain ⟨s₁, hs₁, rfl⟩ := Option.map_eq_some_iff.1 h
    obtain ⟨t, ht, rfl⟩ := devStep_some hs₁
    exact .detaches hpc ht
  | stopped => simp [cpuRoutine, hpc] at h

/-- **What the loader's action does**, from each place where `ld_routine` can be. -/
inductive LdStep (c : Config) (s : Os) : Os → Prop where
  | loads {i} (hld : s.loader = .loop i) (hi : i < c.numProcesses) :
      LdStep c s { s with pcb := Function.update s.pcb i ⟨0, []⟩, loader := .check i }
  | ends {i} (hld : s.loader = .loop i) (hi : c.numProcesses ≤ i) : LdStep c s { s with done := true, loader := .leave }
  | early {i} (hld : s.loader = .check i) (htime : s.timer.time < c.startTime i) :
      LdStep c s { s with loader := .enterWait i }
  | due {i} (hld : s.loader = .check i) (htime : c.startTime i ≤ s.timer.time) : LdStep c s { s with loader := .add i }
  | entersWait {i t} (hld : s.loader = .enterWait i) (ht : s.timer.step c.numDevs (.enter ldDev) = some t) :
      LdStep c s { s with timer := t, loader := .waitSlot i }
  | sleepsWait {i t} (hld : s.loader = .waitSlot i) (ht : s.timer.step c.numDevs (.test ldDev) = some t)
      (hin : (t.dev ldDev).phase ≠ .outside) : LdStep c s { s with timer := t, loader := .waitSlot i }
  | looksAgain {i t} (hld : s.loader = .waitSlot i) (ht : s.timer.step c.numDevs (.test ldDev) = some t)
      (hout : (t.dev ldDev).phase = .outside) : LdStep c s { s with timer := t, loader := .check i }
  | adds {i m} (hld : s.loader = .add i) (hput : s.mlq.putMlqProc (c.prio i) i = some m) :
      LdStep c s { s with mlq := m, loader := .enterAdd i }
  | enters {i t} (hld : s.loader = .enterAdd i) (ht : s.timer.step c.numDevs (.enter ldDev) = some t) :
      LdStep c s { s with timer := t, loader := .addSlot i }
  | sleeps {i t} (hld : s.loader = .addSlot i) (ht : s.timer.step c.numDevs (.test ldDev) = some t)
      (hin : (t.dev ldDev).phase ≠ .outside) : LdStep c s { s with timer := t, loader := .addSlot i }
  | goesOn {i t} (hld : s.loader = .addSlot i) (ht : s.timer.step c.numDevs (.test ldDev) = some t)
      (hout : (t.dev ldDev).phase = .outside) : LdStep c s { s with timer := t, loader := .loop (i + 1) }
  | detaches {t} (hld : s.loader = .leave) (ht : s.timer.step c.numDevs (.detach ldDev) = some t) :
      LdStep c s { s with timer := t, loader := .gone }

theorem ldRoutine_cases (h : s.ldRoutine c = some s') : LdStep c s s' := by
  -- on its device the loader changes the timer and its own place
  have hdev : ∀ {a : TimerAct} {pc : Os → LdPc}, (s.devStep c a).map (fun s => { s with loader := pc s }) = some s' →
      ∃ t, s.timer.step c.numDevs a = some t ∧ s' = { s with timer := t, loader := pc { s with timer := t } } := by
    intro a pc hmap
    obtain ⟨s₁, hs₁, rfl⟩ := Option.map_eq_some_iff.1 hmap
    obtain ⟨t, ht, rfl⟩ := devStep_some hs₁
    exact ⟨t, ht, rfl⟩
  cases hld : s.loader with
  | loop i =>
    simp only [ldRoutine, hld] at h
    split at h
    · rename_i hi
      cases h
      exact .loads hld hi
    · rename_i hi
      cases h
      exact .ends hld (Nat.le_of_not_lt hi)
  | check i =>
    simp only [ldRoutine, hld] at h
    cases h
    split
    · rename_i htime
      exact .early hld htime
    · rename_i htime
      exact .due hld (Nat.le_of_not_lt htime)
  | enterWait i =>
    simp only [ldRoutine, hld] at h
    obtain ⟨t, ht, rfl⟩ := hdev h
    exact .entersWait hld ht
  | waitSlot i =>
    simp only [ldRoutine, hld] at h
    obtain ⟨t, ht, rfl⟩ := hdev h
    dsimp only
    split
    · rename_i hout
      exact .looksAgain hld ht hout
    · rename_i hin
      exact .sleepsWait hld ht hin
  | add i =>
    simp only [ldRoutine, hld] at h
    obtain ⟨m, hput, rfl⟩ := Option.map_eq_some_iff.1 h
    exact .adds hld hput
  | enterAdd i =>
    simp only [ldRoutine, hld] at h
    obtain ⟨t, ht, rfl⟩ := hdev h
    exact .enters hld ht
  | addSlot i =>
    simp only [ldRoutine, hld] at h
    obtain ⟨t, ht, rfl⟩ := hdev h
    dsimp only
    split
    · rename_i hout
      exact .goesOn hld ht hout
    · rename_i hin
      exact .sleeps hld ht hin
  | leave =>
    simp only [ldRoutine, hld] at h
    obtain ⟨t, ht, rfl⟩ := hdev h
    exact .detaches hld ht
  | gone => simp [ldRoutine, hld] at h

end Cases

/-! ## Where the processes are -/

/-- How many processes have been handed to `add_proc`: those of the configuration before this one. -/
def loaded (c : Config) (s : Os) : Nat :=
  match s.loader with
  | .loop i | .check i | .enterWait i | .waitSlot i | .add i => i
  | .enterAdd i | .addSlot i => i + 1
  | .leave | .gone => c.numProcesses

def held (c : Config) (s : Os) : List Nat := Family.all c.numCpus (fun i => (s.cpu i).proc.toList)

def counting (c : Config) (s : Os) : List Nat :=
  Family.all c.numCpus (fun i => if (s.cpu i).pc = .count then [i] else [])

section Frame

variable (c : Config) (s : Os) {i : Nat} (x : Cpu)

@[simp] theorem setCpu_self (i : Nat) : (s.setCpu i x).cpu i = x := by simp [setCpu]

theorem setCpu_of_ne {i j : Nat} (h : j ≠ i) : (s.setCpu i x).cpu j = s.cpu j := by simp [setCpu, h]

variable {s x} in
/-- What holds of all CPUs after one has moved: of that one, and of the others as they were. -/
theorem setCpu_all {n : Nat} {Q : Nat → Cpu → Prop} (hself : Q i x) (hother : ∀ j < n, j ≠ i → Q j (s.cpu j)) :
    ∀ j < n, Q j ((s.setCpu i x).cpu j) := fun j hj => by
  by_cases hji : j = i
  · subst hji
    rwa [setCpu_self]
  · rw [setCpu_of_ne s x hji]
    exact hother j hj hji

theorem count_held_setCpu (hi : i < c.numCpus) (p : Nat) :
    (held c (s.setCpu i x)).count p + (s.cpu i).proc.toList.count p = (held c s).count p + x.proc.toList.count p := by
  have hupdate : (fun j => ((s.setCpu i x).cpu j).proc.toList) =
      Function.update (fun j => (s.cpu j).proc.toList) i x.proc.toList := by
    funext j
    by_cases hj : j = i
    · subst hj; simp
    · rw [setCpu_of_ne s x hj, Function.update_of_ne hj]
  rw [held, hupdate]
  exact Family.count_all_update hi (fun j => (s.cpu j).proc.toList) x.proc.toList p

theorem length_counting_setCpu (hi : i < c.numCpus) :
    (counting c (s.setCpu i x)).length + (if (s.cpu i).pc = .count then 1 else 0) =
      (counting c s).length + (if x.pc = .count then 1 else 0) := by
  have hupdate : (fun j => if ((s.setCpu i x).cpu j).pc = .count then [j] else []) =
      Function.update (fun j => if (s.cpu j).pc = .count then [j] else []) i (if x.pc = .count then [i] else []) := by
    funext j
    by_cases hj : j = i
    · subst hj; simp
    · rw [setCpu_of_ne s x hj, Function.update_of_ne hj]
  have := Family.length_all_update hi (fun j => if (s.cpu j).pc = .count then [j] else [])
    (if x.pc = .count then [i] else [])
  rw [counting, hupdate, counting]
  split <;> split <;> simp_all

end Frame

end Os

end OsSim
