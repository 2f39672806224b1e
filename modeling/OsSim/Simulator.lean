import OsSim.Cpu
import OsSim.Cpus
import OsSim.Lifecycle
/-!
# Simulator — scheduling and memory together (`src/os.c`, `src/cpu.c`, `src/mm-vm.c`)

`Os` leaves out what an instruction does to memory, and `Cpus` which process a CPU runs.  Here every CPU goes through
`cpu_routine`, and where it calls `run` it does the operations of the instruction one at a time, among those of the
other threads; it goes on in `cpu_routine` when `run` has returned.
-/
namespace OsSim

open Atomic Code Prog System

structure Workload where
  timeSlot : Int
  numCpus : Nat
  numProcesses : Nat
  startTime : Nat → Nat
  prio : Nat → Nat
  /-- `code->text` of each process. -/
  text : Nat → List Inst

def Workload.config (w : Workload) : Config :=
  ⟨w.timeSlot, w.numCpus, w.numProcesses, w.startTime, w.prio, fun p => (w.text p).length⟩

/-- `proc->pid = avail_pid++`: the loader loads the processes in the order of the configuration. -/
def pidOf (p : Nat) : Pid := p + 1

inductive RunEvent where
  | begins (pid : Pid) (pc : Nat)
  | returns (pid : Pid) (pc : Nat)
  deriving DecidableEq

def RunEvent.pid : RunEvent → Pid
  | .begins pid _ | .returns pid _ => pid

structure Sim where
  os : Os
  /-- The memory, and who holds the mutexes. -/
  shared : Shared Nat
  /-- What each CPU has still to do of the call of `run` it is in. -/
  prog : Nat → Code (CpuPcb × Int)
  /-- For the history: what each CPU is in the middle of. -/
  hand : Nat → Hand
  log : List RunEvent

inductive SimAct where
  | timer
  | loader
  /-- The CPU's next action; a call of `run` that begins is given so many turns for its loops. -/
  | cpu (i turns : Nat)

def unreturned {α : Type} : Code α → Bool
  | .ret _ => false
  | .op _ _ => true

namespace Sim

/-- What `run` reads of a process.  No instruction of this build reads a register or writes one. -/
def pcb (w : Workload) (os : Os) (p : Nat) : CpuPcb := ⟨pidOf p, w.text p, fun _ => 0, (os.pcb p).pc⟩

def returned : Code (CpuPcb × Int) → List RunEvent
  | .ret (proc, _) => [.returns proc.pid (proc.pc - 1)]
  | .op _ _ => []

def called (turns : Nat) (proc : CpuPcb) : List RunEvent :=
  if proc.pc < proc.text.length then .begins proc.pid proc.pc :: returned (cpuRun turns proc) else []

def operate (x : Sim) (i : Nat) (o : Op) (k : o.Res → Code (CpuPcb × Int)) : Option Sim :=
  (cpuAct i o x.shared).map (fun q =>
    { x with
      shared := q.1
      prog := Function.update x.prog i (k q.2)
      hand := Function.update x.hand i ((x.hand i).next o q.2)
      log := x.log ++ returned (k q.2) })

def advance (w : Workload) (x : Sim) (i turns : Nat) : Option Sim :=
  (x.os.cpuRoutine w.config i).map (fun os =>
    match (x.os.cpu i).pc, (x.os.cpu i).proc with
    | .run, some p =>
      { x with
        os := os
        prog := Function.update x.prog i (cpuRun turns (pcb w x.os p))
        hand := Function.update x.hand i Hand.empty
        log := x.log ++ called turns (pcb w x.os p) }
    | _, _ => { x with os := os, hand := Function.update x.hand i Hand.empty })

def step (w : Workload) (x : Sim) : SimAct → Option Sim
  | .timer => (x.os.devStep w.config .routine).map (fun os => { x with os := os })
  | .loader => (x.os.ldRoutine w.config).map (fun os => { x with os := os })
  | .cpu i turns =>
    if i < w.numCpus then
      match x.prog i with
      | .op o k => x.operate i o k
      | .ret _ => x.advance w i turns
    else none

/-- The threads started, on a machine as `main` sets it up.  `init_mm` for all processes is part of it: no thread
looks at the memory of a process that has not been loaded. -/
def start (m : Machine) : Sim :=
  { os := .start
    shared := ⟨m, fun _ => none⟩
    prog := fun _ => .ret (⟨0, [], fun _ => 0, 0⟩, 0)
    hand := fun _ => Hand.empty
    log := [] }

/-! ## What each action does -/

section Cases

variable {w : Workload} {x y : Sim}

/-- **What an action does**: a CPU does an operation of the instruction it is in, or comes to be in one; or a thread
does its next action in `os.c` and leaves the memory alone. -/
inductive Step (w : Workload) (x : Sim) : Sim → Prop where
  | operates {i o k s r} (hi : i < w.numCpus) (hprog : x.prog i = .op o k) (hact : cpuAct i o x.shared = some (s, r)) :
      Step w x ⟨x.os, s, Function.update x.prog i (k r), Function.update x.hand i ((x.hand i).next o r),
        x.log ++ returned (k r)⟩
  | calls {i p os} (turns : Nat) (hi : i < w.numCpus) (hback : unreturned (x.prog i) = false)
      (hpc : (x.os.cpu i).pc = .run) (hp : (x.os.cpu i).proc = some p)
      (hos : x.os.cpuRoutine w.config i = some os) :
      Step w x ⟨os, x.shared, Function.update x.prog i (cpuRun turns (pcb w x.os p)),
        Function.update x.hand i Hand.empty, x.log ++ called turns (pcb w x.os p)⟩
  | goes {i os} (hi : i < w.numCpus) (hback : unreturned (x.prog i) = false) (hpc : (x.os.cpu i).pc ≠ .run)
      (hos : x.os.cpuRoutine w.config i = some os) :
      Step w x { x with os := os, hand := Function.update x.hand i Hand.empty }
  | loader {os} (hos : x.os.ldRoutine w.config = some os) : Step w x { x with os := os }
  | timer {os} (hos : x.os.devStep w.config .routine = some os) : Step w x { x with os := os }

theorem step_cases {a : SimAct} (h : step w x a = some y) : Step w x y := by
  cases a with
  | timer =>
    obtain ⟨os, hos, rfl⟩ := Option.map_eq_some_iff.1 h
    exact .timer hos
  | loader =>
    obtain ⟨os, hos, rfl⟩ := Option.map_eq_some_iff.1 h
    exact .loader hos
  | cpu i turns =>
    simp only [step] at h
    split at h
    · rename_i hi
      split at h
      · rename_i o k hprog
        obtain ⟨⟨s, r⟩, hact, rfl⟩ := Option.map_eq_some_iff.1 h
        exact .operates hi hprog hact
      · rename_i a hprog
        have hback : unreturned (x.prog i) = false := by rw [hprog]; rfl
        obtain ⟨os, hos, rfl⟩ := Option.map_eq_some_iff.1 h
        split
        · rename_i p hpc hp
          exact .calls turns hi hback hpc hp hos
        · rename_i hnot
          refine .goes hi hback (fun hpc => ?_) hos
          cases hp : (x.os.cpu i).proc with
          | none => simp [Os.cpuRoutine, hpc, hp] at hos
          | some p => exact hnot p hpc hp
    · cases h

/-- **The simulator does what its scheduler may do**, or an operation of an instruction, which leaves the scheduler
where it is. -/
theorem Step.os (h : Step w x y) : y.os = x.os ∨ Next (Os.step w.config) x.os y.os := by
  cases h with
  | operates hi hprog hact => exact Or.inl rfl
  | @calls i p os turns hi hback hpc hp hos => exact Or.inr ⟨.cpu i, (if_pos hi).trans hos⟩
  | @goes i os hi hback hpc hos => exact Or.inr ⟨.cpu i, (if_pos hi).trans hos⟩
  | loader hos => exact Or.inr ⟨.loader, hos⟩
  | timer hos => exact Or.inr ⟨.timer, hos⟩

theorem os_reach {m : Machine} (h : Reach (step w) (start m) x) : Reach (Os.step w.config) .start x.os :=
  h.simulates Sim.os (fun ha => (step_cases ha).os)

end Cases

/-! ## The instruction a CPU is in -/

section Frame

variable {c : Config} {s s' : Os} {i : Nat}

theorem cpuRoutine_pcb (h : s.cpuRoutine c i = some s') (hpc : (s.cpu i).pc ≠ .run) : s'.pcb = s.pcb := by
  cases Os.cpuRoutine_cases h with
  | runs hrun hp => exact absurd hrun hpc
  | _ => rfl

theorem cpuRoutine_run {p : Nat} (h : s.cpuRoutine c i = some s') (hpc : (s.cpu i).pc = .run)
    (hp : (s.cpu i).proc = some p) :
    s'.cpu = (s.setCpu i { s.cpu i with pc := .enter, timeLeft := (s.cpu i).timeLeft - 1 }).cpu ∧
      (∀ q, q ≠ p → s'.pcb q = s.pcb q) ∧
      (s'.pcb p).pc = if (s.pcb p).pc < c.size p then (s.pcb p).pc + 1 else (s.pcb p).pc := by
  obtain ⟨-, hcpu, hpcb⟩ := Os.runProc_frame c s p
  simp only [Os.cpuRoutine, hpc, hp] at h
  cases h
  refine ⟨?_, fun q hq => hpcb q hq, ?_⟩
  · simp only [Os.setCpu, hcpu, hp]
  · change ((s.runProc c p).pcb p).pc = _
    unfold Os.runProc
    split <;> simp

theorem ldRoutine_pcb (h : s.ldRoutine c = some s') (p : Nat) :
    s'.pcb p = s.pcb p ∨ Os.loaded c s ≤ p ∧ s'.pcb p = ⟨0, []⟩ := by
  cases Os.ldRoutine_cases h with
  | @loads k hld hk =>
    by_cases hp : p = k
    · subst hp
      exact Or.inr ⟨by simp [Os.loaded, hld], by simp⟩
    · exact Or.inl (by simp [hp])
  | _ => exact Or.inl rfl

theorem ldRoutine_loaded (h : s.ldRoutine c = some s') (hok : Os.LdOk c s.loader) :
    Os.loaded c s ≤ Os.loaded c s' := by
  cases Os.ldRoutine_cases h with
  | @ends k hld hk =>
    rw [hld] at hok
    simpa [Os.loaded, hld, Os.LdOk] using hok
  | adds hld hput => simp [Os.loaded, hld]
  | loads hld hk | early hld htime | due hld htime | entersWait hld ht | sleepsWait hld ht hin | looksAgain hld ht hout
  | enters hld ht | sleeps hld ht hin | goesOn hld ht hout | detaches hld ht => simp [Os.loaded, hld]

end Frame

/-- The history of a process's first `k` instructions, each begun when the one before it has returned. -/
def history (p k : Nat) : List RunEvent := (List.range k).flatMap (fun j => [.begins (pidOf p) j, .returns (pidOf p) j])

theorem history_succ (p k : Nat) :
    history p (k + 1) = history p k ++ [.begins (pidOf p) k, .returns (pidOf p) k] := by
  simp [history, List.range_succ]

def logOf (x : Sim) (p : Nat) : List RunEvent := x.log.filter (fun e => e.pid = pidOf p)

def Running (x : Sim) (p : Nat) : Prop := ∃ i, unreturned (x.prog i) = true ∧ (x.os.cpu i).proc = some p

/-- What `run` returns: the process, with the program counter where `cpu_routine` has it. -/
def Ends (p pc : Nat) (r : CpuPcb × Int) : Prop := r.1.pid = pidOf p ∧ r.1.pc = pc

structure Inv (w : Workload) (x : Sim) : Prop where
  os : Os.Inv w.config x.os
  beyond : ∀ i, w.numCpus ≤ i → (x.os.cpu i).proc = none
  fresh : ∀ p, Os.loaded w.config x.os ≤ p → (x.os.pcb p).pc = 0
  /-- A CPU in an instruction has the process it is of, and has not come back to `cpu_routine`. -/
  inRun : ∀ i, unreturned (x.prog i) = true → i < w.numCpus ∧ (x.os.cpu i).pc = .enter ∧
    ∃ p, (x.os.cpu i).proc = some p ∧ (x.prog i).Within (fun _ => True) (Ends p (x.os.pcb p).pc)
  order : ∀ p, (Running x p → ∃ k, (x.os.pcb p).pc = k + 1 ∧ logOf x p = history p k ++ [.begins (pidOf p) k]) ∧
    (¬ Running x p → logOf x p = history p (x.os.pcb p).pc)

theorem start_inv (w : Workload) (m : Machine) : Inv w (start m) := by
  refine ⟨Os.start_inv _, fun _ _ => rfl, fun _ _ => rfl, fun i hi => (by cases hi), fun p => ⟨?_, fun _ => rfl⟩⟩
  rintro ⟨i, hi, -⟩
  cases hi

theorem cpuRun_ends (turns : Nat) (proc : CpuPcb) : (cpuRun turns proc).Within (fun _ => True)
    (fun r => r.1.pid = proc.pid ∧ r.1.pc = if proc.pc < proc.text.length then proc.pc + 1 else proc.pc) := by
  cases hins : proc.text[proc.pc]? with
  | none =>
    have hlen := List.getElem?_eq_none_iff.1 hins
    simp only [cpuRun, hins]
    exact ⟨rfl, (if_neg (by omega)).symm⟩
  | some ins =>
    obtain ⟨hlen, -⟩ := List.getElem?_eq_some_iff.1 hins
    simp only [cpuRun, hins]
    exact (Within.any _).bind (fun _ _ => ⟨rfl, (if_pos hlen).symm⟩)

/-! ### What each action does to the history -/

section Inv

variable {w : Workload} {x : Sim} {i p : Nat}

theorem filter_other {l : List RunEvent} (hl : ∀ e ∈ l, e.pid = pidOf p) {q : Nat} (hq : q ≠ p) :
    l.filter (fun e => e.pid = pidOf q) = [] := by
  refine List.filter_eq_nil_iff.2 (fun e he => ?_)
  have hne : pidOf p ≠ pidOf q := fun e => hq (Nat.succ.inj e).symm
  simpa [hl e he] using hne

theorem filter_self {l : List RunEvent} (hl : ∀ e ∈ l, e.pid = pidOf p) : l.filter (fun e => e.pid = pidOf p) = l :=
  List.filter_eq_self.2 (fun e he => by simpa using hl e he)

theorem returned_pid {c : Code (CpuPcb × Int)} {pc : Nat} (hc : c.Within (fun _ => True) (Ends p pc)) :
    ∀ e ∈ returned c, e.pid = pidOf p := by
  cases c with
  | ret r =>
    intro e he
    cases List.mem_singleton.1 he
    exact hc.1
  | op o k => exact fun e he => nomatch he

theorem Inv.running_unique (h : Inv w x) (hi : i < w.numCpus) (hp : (x.os.cpu i).proc = some p) :
    Running x p ↔ unreturned (x.prog i) = true := by
  constructor
  · rintro ⟨j, hj, hjp⟩
    by_cases hji : j = i
    · rwa [← hji]
    · exact absurd hp (h.os.holder_unique (h.inRun j hj).1 hi hji hjp)
  · exact fun hrun => ⟨i, hrun, hp⟩

theorem running_other {y : Sim} {q : Nat} (hprog : ∀ j, j ≠ i → y.prog j = x.prog j)
    (hcpu : ∀ j, j ≠ i → y.os.cpu j = x.os.cpu j) (hx : (x.os.cpu i).proc ≠ some q)
    (hy : (y.os.cpu i).proc ≠ some q) : Running y q ↔ Running x q := by
  constructor
  · rintro ⟨j, hj, hjq⟩
    have hji : j ≠ i := fun e => hy (e ▸ hjq)
    exact ⟨j, by rwa [← hprog j hji], by rwa [← hcpu j hji]⟩
  · rintro ⟨j, hj, hjq⟩
    have hji : j ≠ i := fun e => hx (e ▸ hjq)
    exact ⟨j, by rwa [hprog j hji], by rwa [hcpu j hji]⟩

theorem Inv.operates (h : Inv w x) {o : Op} {k : o.Res → Code (CpuPcb × Int)} {s : Shared Nat} {r : o.Res}
    {hand : Nat → Hand} (hprog : x.prog i = .op o k) :
    Inv w ⟨x.os, s, Function.update x.prog i (k r), hand, x.log ++ returned (k r)⟩ := by
  obtain ⟨hi, hpc, p, hp, hwithin⟩ := h.inRun i (by rw [hprog]; rfl)
  rw [hprog] at hwithin
  have hrest : (k r).Within (fun _ => True) (Ends p (x.os.pcb p).pc) := hwithin.2 r
  refine ⟨h.os, h.beyond, h.fresh, fun j hj => ?_, fun q => ?_⟩
  · by_cases hji : j = i
    · subst hji
      exact ⟨hi, hpc, p, hp, by simpa using hrest⟩
    · simp only [Function.update_of_ne hji] at hj ⊢
      exact h.inRun j hj
  · have hlog : logOf ⟨x.os, s, Function.update x.prog i (k r), hand, x.log ++ returned (k r)⟩ q =
        logOf x q ++ (returned (k r)).filter (fun e => e.pid = pidOf q) := by simp [logOf]
    rw [hlog]
    by_cases hq : q = p
    · subst hq
      obtain ⟨n, hn, hbegun⟩ := (h.order q).1 ⟨i, by rw [hprog]; rfl, hp⟩
      rw [filter_self (returned_pid hrest), hbegun]
      cases hk : k r with
      | ret r' =>
        rw [hk] at hrest
        obtain ⟨hpid, hpc'⟩ := hrest
        refine ⟨?_, fun _ => ?_⟩
        · rintro ⟨j, hj, hjq⟩
          by_cases hji : j = i
          · subst hji
            simp [unreturned] at hj
          · simp only [Function.update_of_ne hji] at hj
            exact absurd hp (h.os.holder_unique (h.inRun j hj).1 hi hji hjq)
        · change _ = history q (x.os.pcb q).pc
          rw [hn, history_succ]
          simp [returned, hpid, hpc', hn]
      | op o' k' =>
        refine ⟨fun _ => ⟨n, hn, by simp [returned]⟩, fun hnot => absurd ⟨i, ?_, hp⟩ hnot⟩
        simp [unreturned]
    · rw [filter_other (returned_pid hrest) hq, List.append_nil]
      have hne : (x.os.cpu i).proc ≠ some q := fun e => hq (Option.some.inj (e.symm.trans hp))
      rw [running_other (y := ⟨x.os, s, Function.update x.prog i (k r), hand, x.log ++ returned (k r)⟩) (x := x)
        (i := i) (fun j hj => Function.update_of_ne hj _ _) (fun _ _ => rfl) hne hne]
      exact h.order q

/-- A thread goes on in `os.c`, and no CPU comes to be in an instruction: those that are in one stay where they are, and
no program counter moves. -/
structure Elsewhere (w : Workload) (x : Sim) (os : Os) : Prop where
  inv : Os.Inv w.config os
  cpu : ∀ j, unreturned (x.prog j) = true ∨ w.numCpus ≤ j → os.cpu j = x.os.cpu j
  pc : ∀ p, (os.pcb p).pc = (x.os.pcb p).pc
  loaded : Os.loaded w.config x.os ≤ Os.loaded w.config os

theorem Inv.goes_elsewhere {os : Os} (hinv : Os.Inv w.config os) (hi : i < w.numCpus)
    (hback : unreturned (x.prog i) = false) (hpc : (x.os.cpu i).pc ≠ .run)
    (hos : x.os.cpuRoutine w.config i = some os) : Elsewhere w x os := by
  obtain ⟨hcpu, -, -, hld⟩ := Os.cpuRoutine_frame hos
  refine ⟨hinv, fun j hj => hcpu j ?_, fun p => by rw [cpuRoutine_pcb hos hpc], le_of_eq ?_⟩
  · rintro rfl
    rcases hj with hj | hj
    · simp [hj] at hback
    · omega
  · rw [Os.loaded, Os.loaded, hld]

theorem Inv.loader_elsewhere (h : Inv w x) {os : Os} (hinv : Os.Inv w.config os)
    (hos : x.os.ldRoutine w.config = some os) : Elsewhere w x os := by
  refine ⟨hinv, fun j _ => by rw [(Os.ldRoutine_frame hos).1], fun p => ?_, ldRoutine_loaded hos h.os.ldOk⟩
  rcases ldRoutine_pcb hos p with hsame | ⟨hp, hzero⟩
  · rw [hsame]
  · rw [hzero, h.fresh p hp]

theorem Inv.timer_elsewhere {os : Os} (hinv : Os.Inv w.config os)
    (hos : x.os.devStep w.config .routine = some os) : Elsewhere w x os := by
  obtain ⟨t, -, rfl⟩ := Os.devStep_some hos
  exact ⟨hinv, fun _ _ => rfl, fun _ => rfl, le_rfl⟩

theorem Elsewhere.running {os : Os} (h : Elsewhere w x os) {hand : Nat → Hand} (p : Nat) :
    Running { x with os := os, hand := hand } p ↔ Running x p := by
  unfold Running
  refine exists_congr (fun j => and_congr_right (fun hj => ?_))
  change (os.cpu j).proc = some p ↔ _
  rw [h.cpu j (Or.inl hj)]

theorem Inv.elsewhere (h : Inv w x) {os : Os} {hand : Nat → Hand} (hos : Elsewhere w x os) :
    Inv w { x with os := os, hand := hand } := by
  refine ⟨hos.inv, fun j hj => ?_, fun p hp => ?_, fun j hj => ?_, fun p => ?_⟩
  · change (os.cpu j).proc = none
    rw [hos.cpu j (Or.inr hj)]
    exact h.beyond j hj
  · exact (hos.pc p).trans (h.fresh p (hos.loaded.trans hp))
  · change j < w.numCpus ∧ (os.cpu j).pc = .enter ∧ ∃ p, (os.cpu j).proc = some p ∧
      (x.prog j).Within (fun _ => True) (Ends p (os.pcb p).pc)
    rw [hos.cpu j (Or.inl hj)]
    simpa only [hos.pc] using h.inRun j hj
  · rw [hos.running]
    change (_ → ∃ k, (os.pcb p).pc = k + 1 ∧ logOf x p = _) ∧ (_ → logOf x p = history p (os.pcb p).pc)
    rw [hos.pc]
    exact h.order p

theorem running_moved {y : Sim} (hprog : ∀ j, j ≠ i → y.prog j = x.prog j) (hcpu : ∀ j, j ≠ i → y.os.cpu j = x.os.cpu j)
    (hidle : ¬ Running x p) (hy : (y.os.cpu i).proc = some p) : Running y p ↔ unreturned (y.prog i) = true := by
  constructor
  · rintro ⟨j, hj, hjp⟩
    by_cases hji : j = i
    · rwa [← hji]
    · exact absurd ⟨j, by rwa [← hprog j hji], by rwa [← hcpu j hji]⟩ hidle
  · exact fun hrun => ⟨i, hrun, hy⟩

theorem called_pid (w : Workload) (turns : Nat) (os : Os) (p : Nat) : ∀ e ∈ called turns (pcb w os p), e.pid = pidOf p := by
  intro e he
  unfold called at he
  split at he
  · rcases List.mem_cons.1 he with rfl | he
    · rfl
    · exact returned_pid (cpuRun_ends turns (pcb w os p)) e he
  · cases he

/-- **What a call of `run` makes of the process's history**: its next instruction has begun, or, where `run` is back
already, has returned; past the last instruction `run` only returns 1. -/
theorem history_called (w : Workload) (turns : Nat) (os : Os) (p : Nat) {n : Nat}
    (hn : n = if (os.pcb p).pc < (w.text p).length then (os.pcb p).pc + 1 else (os.pcb p).pc) :
    (unreturned (cpuRun turns (pcb w os p)) = true → ∃ k, n = k + 1 ∧
      history p (os.pcb p).pc ++ called turns (pcb w os p) = history p k ++ [.begins (pidOf p) k]) ∧
    (¬ unreturned (cpuRun turns (pcb w os p)) = true →
      history p (os.pcb p).pc ++ called turns (pcb w os p) = history p n) := by
  have hends := cpuRun_ends turns (pcb w os p)
  by_cases hlt : (os.pcb p).pc < (w.text p).length
  · have hcalled : called turns (pcb w os p) =
        .begins (pidOf p) (os.pcb p).pc :: returned (cpuRun turns (pcb w os p)) := if_pos hlt
    obtain rfl : n = (os.pcb p).pc + 1 := hn.trans (if_pos hlt)
    rw [hcalled]
    cases hrun : cpuRun turns (pcb w os p) with
    | ret r =>
      rw [hrun] at hends
      have hpid : r.1.pid = pidOf p := hends.1
      have hpc : r.1.pc = (os.pcb p).pc + 1 := hends.2.trans (if_pos hlt)
      refine ⟨by simp [unreturned], fun _ => ?_⟩
      simp [returned, hpid, hpc, history_succ]
    | op o k => exact ⟨fun _ => ⟨_, rfl, by simp [returned]⟩, fun hnot => absurd rfl hnot⟩
  · have hcalled : called turns (pcb w os p) = [] := if_neg hlt
    have hnone : (pcb w os p).text[(pcb w os p).pc]? = none := List.getElem?_eq_none_iff.2 (Nat.le_of_not_lt hlt)
    have hrun : cpuRun turns (pcb w os p) = .ret (pcb w os p, 1) := by
      simp only [cpuRun, hnone]
      rfl
    rw [hcalled, hrun, hn, if_neg hlt]
    exact ⟨by simp [unreturned], fun _ => List.append_nil _⟩

/-- **`run` is called** on the process the CPU holds: its next instruction begins, if there is one. -/
theorem Inv.calls (h : Inv w x) {os : Os} {hand : Nat → Hand} (turns : Nat) (hos : Os.Inv w.config os)
    (hi : i < w.numCpus) (hback : unreturned (x.prog i) = false) (hpc : (x.os.cpu i).pc = .run)
    (hp : (x.os.cpu i).proc = some p) (hstep : x.os.cpuRoutine w.config i = some os) :
    Inv w ⟨os, x.shared, Function.update x.prog i (cpuRun turns (pcb w x.os p)), hand,
      x.log ++ called turns (pcb w x.os p)⟩ := by
  obtain ⟨hcpu, hpcb, hpcp⟩ := cpuRoutine_run hstep hpc hp
  obtain ⟨-, -, -, hld⟩ := Os.cpuRoutine_frame hstep
  have hloaded : Os.loaded w.config os = Os.loaded w.config x.os := by rw [Os.loaded, hld, Os.loaded]
  have hother : ∀ j, j ≠ i → os.cpu j = x.os.cpu j := fun j hj => by rw [hcpu, Os.setCpu_of_ne _ _ hj]
  have hself : (os.cpu i).pc = .enter ∧ (os.cpu i).proc = some p := by simp [hcpu, hp]
  have hidle : ¬ Running x p := fun hrun => by simp [(h.running_unique hi hp).1 hrun] at hback
  refine ⟨hos, fun j hj => ?_, fun q hq => ?_, fun j hj => ?_, fun q => ?_⟩
  · have hji : j ≠ i := by omega
    simp only [hother j hji]
    exact h.beyond j hj
  · have hqp : q ≠ p := by
      rintro rfl
      have := h.os.held_lt hi hp
      dsimp only at hq
      omega
    simp only [hpcb q hqp]
    exact h.fresh q (by rw [← hloaded]; exact hq)
  · by_cases hji : j = i
    · subst hji
      have hends : (cpuRun turns (pcb w x.os p)).Within (fun _ => True) (Ends p (os.pcb p).pc) := by
        rw [hpcp]
        exact cpuRun_ends turns (pcb w x.os p)
      exact ⟨hi, hself.1, p, hself.2, by simpa using hends⟩
    · simp only [Function.update_of_ne hji] at hj ⊢
      obtain ⟨hj', hpcj, q, hq, hwithin⟩ := h.inRun j hj
      have hqp : q ≠ p := fun e => h.os.holder_unique hj' hi hji (e ▸ hq) hp
      simp only [hother j hji, hpcb q hqp, hpcj, hq, Option.some.injEq, exists_eq_left']
      exact ⟨hj', trivial, hwithin⟩
  · have hlog : logOf ⟨os, x.shared, Function.update x.prog i (cpuRun turns (pcb w x.os p)), hand,
        x.log ++ called turns (pcb w x.os p)⟩ q =
        logOf x q ++ (called turns (pcb w x.os p)).filter (fun e => e.pid = pidOf q) := by simp [logOf]
    rw [hlog]
    by_cases hq : q = p
    · subst hq
      rw [filter_self (called_pid w turns x.os q), (h.order q).2 hidle,
        running_moved (fun j hj => Function.update_of_ne hj _ _) hother hidle hself.2]
      simp only [Function.update_self]
      exact history_called w turns x.os q hpcp
    · have hne : some p ≠ some q := fun e => hq (Option.some.inj e).symm
      rw [filter_other (called_pid w turns x.os p) hq, List.append_nil, running_other (x := x) (i := i)
        (fun j hj => Function.update_of_ne hj _ _) hother (by rw [hp]; exact hne) (by simp only [hself.2]; exact hne)]
      simp only [hpcb q hq]
      exact h.order q

theorem step_inv (hnum : 1 ≤ w.numCpus) {y : Sim} {a : SimAct} (hstep : step w x a = some y) (h : Inv w x) :
    Inv w y := by
  have hos : ∀ {b : OsAct} {os : Os}, Os.step w.config x.os b = some os → Os.Inv w.config os :=
    fun hb => Os.step_inv hnum hb h.os
  cases step_cases hstep with
  | operates hi hprog hact => exact h.operates hprog
  | @calls i p os turns hi hback hpc hp hrun =>
    exact h.calls turns (hos (b := .cpu i) ((if_pos hi).trans hrun)) hi hback hpc hp hrun
  | @goes i os hi hback hpc hrun =>
    exact h.elsewhere (Inv.goes_elsewhere (hos (b := .cpu i) ((if_pos hi).trans hrun)) hi hback hpc hrun)
  | loader hld => exact h.elsewhere (h.loader_elsewhere (hos (b := .loader) hld) hld)
  | timer ht => exact h.elsewhere (Inv.timer_elsewhere (hos (b := .timer) ht) ht)

end Inv

/-- **Every process's instructions are executed one after the other, in the order of its program**, whatever the
interleaving and whichever CPUs run them: an instruction begins when the one before it has returned.  When all CPUs have
stopped, every instruction of every process has returned. -/
theorem program_order (w : Workload) (hnum : 1 ≤ w.numCpus) {m : Machine} {x : Sim} (h : Reach (step w) (start m) x) :
    (∀ p, ∃ k, logOf x p = history p k ∨ logOf x p = history p k ++ [.begins (pidOf p) k]) ∧
      ((∀ i < w.numCpus, (x.os.cpu i).pc = .stopped) →
        ∀ p < w.numProcesses, logOf x p = history p (w.text p).length) := by
  have hinv : Inv w x := h.inv (start_inv w m) (fun ha hs => step_inv hnum ha hs)
  refine ⟨fun p => ?_, fun hstopped p hp => ?_⟩
  · by_cases hrun : Running x p
    · obtain ⟨k, -, hlog⟩ := (hinv.order p).1 hrun
      exact ⟨k, Or.inr hlog⟩
    · exact ⟨_, Or.inl ((hinv.order p).2 hrun)⟩
  · have hidle : ¬ Running x p := by
      rintro ⟨i, hi, -⟩
      obtain ⟨hlt, hpc, -⟩ := hinv.inRun i hi
      rw [hstopped i hlt] at hpc
      cases hpc
    have hexecuted := ((Os.processes_complete w.config hnum (os_reach h)).2 hstopped).2 p hp
    have hpc : (x.os.pcb p).pc = w.config.size p := by
      have hrange := (hinv.os.executed p).1.symm.trans hexecuted.2
      simpa using congrArg List.length hrange
    rw [(hinv.order p).2 hidle, hpc]
    rfl

/-- Two CPUs and two processes; the first has one instruction more. -/
def bothAlloc : Workload := ⟨2, 2, 2, fun _ => 0, fun _ => 0, fun p =>
  if p = 0 then [⟨.calc, 0, 0, 0⟩, ⟨.alloc, 100, 0, 0⟩] else [⟨.alloc, 100, 0, 0⟩]⟩

/-- Both processes have run when the CPUs stop. -/
theorem program_order_bothAlloc : ∃ x, Reach (step bothAlloc) (start (boot 1024 1024 1024)) x ∧
    (∀ i < 2, (x.os.cpu i).pc = .stopped) ∧
    logOf x 0 = [.begins 1 0, .returns 1 0, .begins 1 1, .returns 1 1] ∧ logOf x 1 = [.begins 2 0, .returns 2 0] := by
  have hsome : (runActions (step bothAlloc) (repeated [(5, .loader), (5, .cpu 0 5), (4, .cpu 1 5), (6, .timer),
    (6, .loader), (1, .timer), (22, .cpu 1 5), (1, .timer), (22, .cpu 0 5), (7, .timer), (3, .loader), (1, .timer),
    (5, .cpu 1 5), (1, .timer), (5, .cpu 0 5)]) (start (boot 1024 1024 1024))).any
      (fun x => (∀ i < 2, (x.os.cpu i).pc = .stopped)) = true := by
    decide +kernel
  obtain ⟨x, hx, hq⟩ := (Option.any_eq_true _ _).1 hsome
  have hstopped := of_decide_eq_true hq
  have hreach := reach_of_runActions _ hx
  have hall := (program_order bothAlloc (by decide) hreach).2 hstopped
  exact ⟨x, hreach, hstopped, hall 0 (by decide), hall 1 (by decide)⟩

end Sim

end OsSim
