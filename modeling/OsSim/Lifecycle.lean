import OsSim.Os
/-!
# Lifecycle — every process is run to its end, by one CPU at a time

A CPU stops when it finds no process and `done` is set.  That no process is then left behind rests on the barrier: the
loader sets `done` only after the slot in which it added the last process, so a CPU that reads `done` has looked at the
queues after all the processes were there; and a queue that is not empty then has a CPU that will look at it again.
-/
namespace OsSim

open System

namespace Os

/-! ## The invariant -/

def CpuPhase (pc : CpuPc) (phase : DevPhase) : Prop :=
  match pc with
  | .slot => phase = .told ∨ phase = .waiting
  | .stopped => phase = .detached
  | _ => phase = .outside

def LdPhase (pc : LdPc) (phase : DevPhase) : Prop :=
  match pc with
  | .waitSlot _ | .addSlot _ => phase = .told ∨ phase = .waiting
  | .gone => phase = .detached
  | _ => phase = .outside

/-- The loader's `i` is of a process of the configuration. -/
def LdOk (c : Config) (pc : LdPc) : Prop :=
  match pc with
  | .loop i => i ≤ c.numProcesses
  | .check i | .enterWait i | .waitSlot i | .add i | .enterAdd i | .addSlot i => i < c.numProcesses
  | .leave | .gone => True

/-- The CPU has found the queues empty and may stop without looking again. -/
def Blind (x : Cpu) : Prop :=
  (x.pc = .count ∨ x.pc = .recheck) ∧ x.proc = none ∨ x.pc = .leave ∨ x.pc = .stopped

/-- The slot in which the last process was added is over. -/
def Late (c : Config) (s : Os) : Prop :=
  match s.loader with
  | .loop i => c.numProcesses ≤ i
  | .addSlot i => c.numProcesses = i + 1 ∧ (s.timer.dev ldDev).begun = s.timer.time
  | .leave | .gone => True
  | _ => False

structure Inv (c : Config) (s : Os) : Prop where
  timer : Timer.Inv c.numDevs s.timer
  cpuPhase : ∀ i < c.numCpus, CpuPhase (s.cpu i).pc (s.timer.dev (c.cpuDev i)).phase
  ldPhase : LdPhase s.loader (s.timer.dev ldDev).phase
  ldOk : LdOk c s.loader
  /-- A process that has been added is in one place, and no other is anywhere. -/
  places : ∀ p, s.mlq.procs.count p + (held c s).count p + s.finished.count p = if p < loaded c s then 1 else 0
  counted : s.finished.length = s.cntProcDone + (counting c s).length
  executed : ∀ p, (s.pcb p).executed = List.range (s.pcb p).pc ∧ (s.pcb p).pc ≤ c.size p
  ended : ∀ p ∈ s.finished, (s.pcb p).pc = c.size p
  idle : ∀ i < c.numCpus, (s.cpu i).pc = .empty ∨ (s.cpu i).pc = .get ∨ (s.cpu i).pc = .leave ∨ (s.cpu i).pc = .stopped →
    (s.cpu i).proc = none
  /-- A CPU stops on `done`, or when all processes have been counted. -/
  stops : ∀ i < c.numCpus, (s.cpu i).pc = .leave ∨ (s.cpu i).pc = .stopped →
    s.done = true ∨ s.cntProcDone = c.numProcesses
  doneSet : s.done = true → s.loader = .leave ∨ s.loader = .gone
  /-- Once all processes have been added, a queue that is not empty has a CPU that will look at it. -/
  late : Late c s → s.mlq.procs ≠ [] → ∃ i < c.numCpus, ¬ Blind (s.cpu i)

theorem start_inv (c : Config) : Inv c start := by
  have hprocs : start.mlq.procs = [] := by simp [start, Mlq.procs, Mlq.initSlot, Family.all_eq_nil]
  have hheld : held c start = [] := by simp [held, start, Family.all_eq_nil]
  have hcounting : counting c start = [] := by simp [counting, start, Family.all_eq_nil]
  refine ⟨Timer.start_inv _, fun i _ => rfl, rfl, Nat.zero_le _, fun p => ?_, ?_, fun p => ⟨rfl, Nat.zero_le _⟩, ?_,
    ?_, ?_, ?_, fun _ hne => absurd hprocs hne⟩
  · rw [hprocs, hheld]
    simp [start, loaded]
  · rw [hcounting]
    rfl
  · simp [start]
  · simp [start]
  · simp [start]
  · simp [start]

section Facts

variable {c : Config} {s : Os}

theorem Inv.loaded_le (h : Inv c s) : loaded c s ≤ c.numProcesses := by
  have hld := h.ldOk
  unfold loaded
  unfold LdOk at hld
  split <;> simp_all <;> omega

theorem Inv.finished_nodup (h : Inv c s) : s.finished.Nodup ∧ ∀ p ∈ s.finished, p < loaded c s := by
  refine ⟨List.nodup_iff_count_le_one.2 (fun p => ?_), fun p hp => ?_⟩
  · have := h.places p
    split at this <;> omega
  · have := h.places p
    have := List.count_pos_iff.2 hp
    by_contra hlt
    rw [if_neg hlt] at *
    omega

theorem Inv.finished_length (h : Inv c s) : s.finished.length ≤ c.numProcesses := by
  obtain ⟨hnodup, hlt⟩ := h.finished_nodup
  have hsub : s.finished.Subperm (List.range c.numProcesses) :=
    hnodup.subperm (fun p hp => List.mem_range.2 ((hlt p hp).trans_le h.loaded_le))
  simpa using hsub.length_le

/-- **All processes counted** have all finished, and the queues are empty. -/
theorem Inv.all_counted (h : Inv c s) (hcnt : s.cntProcDone = c.numProcesses) :
    (∀ p < c.numProcesses, p ∈ s.finished) ∧ loaded c s = c.numProcesses ∧ s.mlq.procs = [] := by
  obtain ⟨hnodup, hlt⟩ := h.finished_nodup
  have hcounted := h.counted
  have hle := h.loaded_le
  have hall : ∀ p < c.numProcesses, p ∈ s.finished := fun p hp =>
    Family.mem_of_full hnodup (fun a ha => (hlt a ha).trans_le hle) (by omega) hp
  have hloaded : loaded c s = c.numProcesses := by
    by_contra hne
    have := hlt _ (hall (loaded c s) (by omega))
    omega
  refine ⟨hall, hloaded, List.eq_nil_iff_forall_not_mem.2 (fun p hp => ?_)⟩
  have hplaces := h.places p
  have hpos := List.count_pos_iff.2 hp
  by_cases hplt : p < c.numProcesses
  · have := List.count_pos_iff.2 (hall p hplt)
    split at hplaces <;> omega
  · rw [if_neg (by omega)] at hplaces
    omega

theorem Inv.held_lt {i p : Nat} (h : Inv c s) (hi : i < c.numCpus) (hp : (s.cpu i).proc = some p) : p < loaded c s := by
  have hplace := h.places p
  have hmem : p ∈ held c s := Family.mem_all.2 ⟨i, hi, by simp [hp]⟩
  have := List.count_pos_iff.2 hmem
  by_contra hge
  rw [if_neg hge] at hplace
  omega

theorem Inv.holder_unique {i j p : Nat} (h : Inv c s) (hi : i < c.numCpus) (hj : j < c.numCpus) (hij : i ≠ j)
    (hp : (s.cpu i).proc = some p) : (s.cpu j).proc ≠ some p := by
  intro hq
  have hplace := h.places p
  -- taken from `i`, it would still be held
  have hcount := Family.count_all_update hi (fun k => (s.cpu k).proc.toList) [] p
  have hmem : p ∈ Family.all c.numCpus (Function.update (fun k => (s.cpu k).proc.toList) i []) :=
    Family.mem_all.2 ⟨j, hj, by simp [hij.symm, hq]⟩
  have := List.count_pos_iff.2 hmem
  simp only [hp, Option.toList_some, List.count_singleton_self, List.count_nil] at hcount
  rw [held] at hplace
  split at hplace <;> omega

theorem ldDev_lt : ldDev < c.numDevs := Nat.succ_pos _

theorem cpuDev_lt {i : Nat} (hi : i < c.numCpus) : c.cpuDev i < c.numDevs := by
  unfold Config.cpuDev Config.numDevs
  omega

theorem cpuDev_ne {i j : Nat} (hi : i < c.numCpus) (hj : j < c.numCpus) (hij : i ≠ j) : c.cpuDev i ≠ c.cpuDev j := by
  unfold Config.cpuDev
  omega

theorem cpuDev_ne_ldDev {i : Nat} (hi : i < c.numCpus) : ldDev ≠ c.cpuDev i := by
  unfold Config.cpuDev ldDev
  omega

end Facts

/-! ## What a thread leaves alone -/

section Frame

variable {c : Config} {s s' : Os}

theorem runProc_frame (c : Config) (s : Os) (p : Nat) : (s.runProc c p).timer = s.timer ∧ (s.runProc c p).cpu = s.cpu ∧
    ∀ q, q ≠ p → (s.runProc c p).pcb q = s.pcb q := by
  unfold runProc
  split
  · exact ⟨rfl, rfl, fun q hq => by simp [hq]⟩
  · exact ⟨rfl, rfl, fun q hq => rfl⟩

/-- **A CPU's action** changes no other CPU, no device but its own, and no process but the one it runs. -/
theorem cpuRoutine_frame {j : Nat} (h : s.cpuRoutine c j = some s') : (∀ i, i ≠ j → s'.cpu i = s.cpu i) ∧
    (∀ k, k ≠ c.cpuDev j → s'.timer.dev k = s.timer.dev k) ∧
    (∀ p, (s.cpu j).proc ≠ some p → s'.pcb p = s.pcb p) ∧ s'.loader = s.loader := by
  cases cpuRoutine_cases h with
  | @runs p hpc hp =>
    obtain ⟨htimer, hcpu, hpcb⟩ := runProc_frame c s p
    refine ⟨fun i hi => by rw [setCpu_of_ne _ _ hi, hcpu], fun k _ => ?_, fun q hq => ?_, ?_⟩
    · change (s.runProc c p).timer.dev k = _
      rw [htimer]
    · exact hpcb q (fun e => hq (e ▸ hp))
    · change (s.runProc c p).loader = _
      unfold runProc
      split <;> rfl
  | enters hpc ht => exact ⟨fun i hi => setCpu_of_ne _ _ hi, (Timer.step_enter ht).2.2.1, fun _ _ => rfl, rfl⟩
  | sleeps hpc ht hin => exact ⟨fun i hi => setCpu_of_ne _ _ hi, (Timer.step_test ht).2.2.1, fun _ _ => rfl, rfl⟩
  | returns hpc ht hout => exact ⟨fun i hi => setCpu_of_ne _ _ hi, (Timer.step_test ht).2.2.1, fun _ _ => rfl, rfl⟩
  | detaches hpc ht => exact ⟨fun i hi => setCpu_of_ne _ _ hi, (Timer.step_detach ht).2.2.1, fun _ _ => rfl, rfl⟩
  | _ => exact ⟨fun i hi => setCpu_of_ne _ _ hi, fun _ _ => rfl, fun _ _ => rfl, rfl⟩

theorem ldRoutine_frame (h : s.ldRoutine c = some s') : s'.cpu = s.cpu ∧
    (∀ k, k ≠ ldDev → s'.timer.dev k = s.timer.dev k) ∧ ∀ p < loaded c s, s'.pcb p = s.pcb p := by
  cases ldRoutine_cases h with
  | @loads k hld hk =>
    refine ⟨rfl, fun _ _ => rfl, fun p hp => ?_⟩
    have hpk : p ≠ k := by
      simp only [loaded, hld] at hp
      omega
    simp [hpk]
  | entersWait hld ht => exact ⟨rfl, (Timer.step_enter ht).2.2.1, fun _ _ => rfl⟩
  | sleepsWait hld ht hin => exact ⟨rfl, (Timer.step_test ht).2.2.1, fun _ _ => rfl⟩
  | looksAgain hld ht hout => exact ⟨rfl, (Timer.step_test ht).2.2.1, fun _ _ => rfl⟩
  | enters hld ht => exact ⟨rfl, (Timer.step_enter ht).2.2.1, fun _ _ => rfl⟩
  | sleeps hld ht hin => exact ⟨rfl, (Timer.step_test ht).2.2.1, fun _ _ => rfl⟩
  | goesOn hld ht hout => exact ⟨rfl, (Timer.step_test ht).2.2.1, fun _ _ => rfl⟩
  | detaches hld ht => exact ⟨rfl, (Timer.step_detach ht).2.2.1, fun _ _ => rfl⟩
  | _ => exact ⟨rfl, fun _ _ => rfl, fun _ _ => rfl⟩

theorem step_timer {a : OsAct} (h : step c s a = some s') :
    s'.timer = s.timer ∨ ∃ b, s.timer.step c.numDevs b = some s'.timer := by
  cases a with
  | timer =>
    obtain ⟨t, ht, rfl⟩ := devStep_some h
    exact Or.inr ⟨_, ht⟩
  | loader =>
    cases ldRoutine_cases h with
    | entersWait hld ht => exact Or.inr ⟨_, ht⟩
    | sleepsWait hld ht hin => exact Or.inr ⟨_, ht⟩
    | looksAgain hld ht hout => exact Or.inr ⟨_, ht⟩
    | enters hld ht => exact Or.inr ⟨_, ht⟩
    | sleeps hld ht hin => exact Or.inr ⟨_, ht⟩
    | goesOn hld ht hout => exact Or.inr ⟨_, ht⟩
    | detaches hld ht => exact Or.inr ⟨_, ht⟩
    | _ => exact Or.inl rfl
  | cpu i =>
    simp only [step] at h
    split at h
    · cases cpuRoutine_cases h with
      | runs hpc hp => exact Or.inl (runProc_frame c s _).1
      | enters hpc ht => exact Or.inr ⟨_, ht⟩
      | sleeps hpc ht hin => exact Or.inr ⟨_, ht⟩
      | returns hpc ht hout => exact Or.inr ⟨_, ht⟩
      | detaches hpc ht => exact Or.inr ⟨_, ht⟩
      | _ => exact Or.inl rfl
    · cases h

end Frame

/-! ## A CPU's actions -/

/-- **A CPU's action** that takes its state to `x` and the rest of the system to `s₁` keeps the invariant, if what it
changes adds up. -/
theorem Inv.cpu {c : Config} {s s₁ : Os} {i : Nat} {x : Cpu} (h : Inv c s) (hi : i < c.numCpus)
    (hsame : s₁.cpu = s.cpu ∧ s₁.loader = s.loader ∧ s₁.done = s.done)
    (htimer : Timer.Inv c.numDevs s₁.timer) (htime : s₁.timer.time = s.timer.time)
    (hdev : ∀ k, k ≠ c.cpuDev i → s₁.timer.dev k = s.timer.dev k)
    (hphase : CpuPhase x.pc (s₁.timer.dev (c.cpuDev i)).phase)
    (hplaces : ∀ p, s₁.mlq.procs.count p + x.proc.toList.count p + s₁.finished.count p =
      s.mlq.procs.count p + (s.cpu i).proc.toList.count p + s.finished.count p)
    (hcounted : s₁.finished.length + (if (s.cpu i).pc = .count then 1 else 0) + s.cntProcDone =
      s.finished.length + (if x.pc = .count then 1 else 0) + s₁.cntProcDone)
    (hexecuted : ∀ p, (s₁.pcb p).executed = List.range (s₁.pcb p).pc ∧ (s₁.pcb p).pc ≤ c.size p)
    (hended : ∀ p ∈ s₁.finished, (s₁.pcb p).pc = c.size p)
    (hidle : x.pc = .empty ∨ x.pc = .get ∨ x.pc = .leave ∨ x.pc = .stopped → x.proc = none)
    (hcnt : s.cntProcDone = c.numProcesses → s₁.cntProcDone = c.numProcesses)
    (hstops : x.pc = .leave ∨ x.pc = .stopped → s.done = true ∨ s₁.cntProcDone = c.numProcesses)
    (hblind : Blind x → s₁.mlq.procs = [] ∨ Blind (s.cpu i) ∧ s₁.mlq = s.mlq) : Inv c (s₁.setCpu i x) := by
  obtain ⟨hcpu, hloader, hdone⟩ := hsame
  have hall {Q : Nat → Cpu → Prop} (hself : Q i x) (hold : ∀ j < c.numCpus, j ≠ i → Q j (s.cpu j)) :
      ∀ j < c.numCpus, Q j ((s₁.setCpu i x).cpu j) :=
    setCpu_all hself (fun j hj hji => hcpu ▸ hold j hj hji)
  have hheld : held c s₁ = held c s := by rw [held, hcpu, held]
  have hcounting : counting c s₁ = counting c s := by rw [counting, hcpu, counting]
  have hloaded : loaded c (s₁.setCpu i x) = loaded c s := by
    change loaded c s₁ = _
    rw [loaded, hloader, loaded]
  have hlate : Late c (s₁.setCpu i x) → Late c s := fun hlate => by
    have hld : s₁.timer.dev ldDev = s.timer.dev ldDev := hdev _ (cpuDev_ne_ldDev hi)
    change Late c s₁ at hlate
    rwa [Late, hloader, hld, htime] at hlate
  refine
    { timer := htimer
      cpuPhase := hall (Q := fun j y => CpuPhase y.pc (s₁.timer.dev (c.cpuDev j)).phase) hphase (fun j hj hji => ?_)
      ldPhase := ?_
      ldOk := hloader ▸ h.ldOk
      places := fun p => ?_
      counted := ?_
      executed := hexecuted
      ended := hended
      idle := hall (Q := fun _ y => y.pc = .empty ∨ y.pc = .get ∨ y.pc = .leave ∨ y.pc = .stopped → y.proc = none) hidle
        (fun j hj _ => h.idle j hj)
      stops := hall (Q := fun _ y => y.pc = .leave ∨ y.pc = .stopped → s₁.done = true ∨ s₁.cntProcDone = c.numProcesses)
        (hdone ▸ hstops) (fun j hj _ hpc => hdone ▸ (h.stops j hj hpc).imp_right hcnt)
      doneSet := ?_
      late := fun hnow hne => ?_ }
  · rw [hdev _ (cpuDev_ne hj hi hji)]
    exact h.cpuPhase j hj
  · change LdPhase s₁.loader (s₁.timer.dev ldDev).phase
    rw [hloader, hdev _ (cpuDev_ne_ldDev hi)]
    exact h.ldPhase
  · have hcount := count_held_setCpu c s₁ x hi p
    rw [hheld, hcpu] at hcount
    have := h.places p
    have := hplaces p
    rw [hloaded]
    change s₁.mlq.procs.count p + _ + s₁.finished.count p = _
    omega
  · have hlen := length_counting_setCpu c s₁ x hi
    rw [hcounting, hcpu] at hlen
    have := h.counted
    change s₁.finished.length = s₁.cntProcDone + _
    omega
  · change s₁.done = true → s₁.loader = .leave ∨ s₁.loader = .gone
    rw [hdone, hloader]
    exact h.doneSet
  · by_cases hx : Blind x
    · rcases hblind hx with hnil | ⟨hold, hmlq⟩
      · exact absurd hnil hne
      · obtain ⟨j, hj, hsees⟩ := h.late (hlate hnow) (by rw [← hmlq]; exact hne)
        have hji : j ≠ i := by
          rintro rfl
          exact hsees hold
        exact ⟨j, hj, by rwa [setCpu_of_ne _ _ hji, hcpu]⟩
    · exact ⟨i, hi, by rwa [setCpu_self]⟩

section Cpu

variable {c : Config} {s s' : Os} {i : Nat} {x : Cpu}

theorem CpuPhase.outside {pc : CpuPc} {phase : DevPhase} (h : CpuPhase pc phase) (hslot : pc ≠ .slot)
    (hstopped : pc ≠ .stopped) : phase = .outside := by
  unfold CpuPhase at h
  split at h
  · exact absurd rfl hslot
  · exact absurd rfl hstopped
  · exact h

theorem Inv.cpu_goes (h : Inv c s) (hi : i < c.numCpus) (hproc : x.proc = (s.cpu i).proc)
    (hcount : (s.cpu i).pc ≠ .count ∧ x.pc ≠ .count) (hphase : CpuPhase x.pc (s.timer.dev (c.cpuDev i)).phase)
    (hidle : x.pc = .empty ∨ x.pc = .get ∨ x.pc = .leave ∨ x.pc = .stopped → x.proc = none)
    (hstops : x.pc = .leave ∨ x.pc = .stopped → s.done = true ∨ s.cntProcDone = c.numProcesses)
    (hblind : Blind x → s.mlq.procs = [] ∨ Blind (s.cpu i)) : Inv c (s.setCpu i x) := by
  refine h.cpu hi ⟨rfl, rfl, rfl⟩ h.timer rfl (fun _ _ => rfl) hphase (fun p => by rw [hproc]) ?_ h.executed h.ended hidle
    id hstops (fun hb => (hblind hb).imp_right (fun hb => ⟨hb, rfl⟩))
  rw [if_neg hcount.1, if_neg hcount.2]

theorem Inv.cpu_gets (h : Inv c s) (hi : i < c.numCpus) {m : Mlq} {r : Option Nat} (hget : s.mlq.getMlqProc = (m, r))
    {ended : List Nat} (hpc : (s.cpu i).pc = .top ∨ (s.cpu i).pc = .get) (hproc : x.proc = r)
    (hx : x.pc = .empty ∧ r = none ∨ x.pc = .recheck ∨ x.pc = .count)
    (hended : (s.cpu i).proc.toList = ended ∧ ended.length = (if x.pc = .count then 1 else 0) ∧
      ∀ p ∈ ended, (s.pcb p).pc = c.size p) :
    Inv c (({ s with mlq := m, finished := s.finished ++ ended } : Os).setCpu i x) := by
  obtain ⟨hold, hlen, hends⟩ := hended
  have hphase : (s.timer.dev (c.cpuDev i)).phase = .outside := by
    refine (h.cpuPhase i hi).outside ?_ ?_
    · rcases hpc with e | e <;> simp [e]
    · rcases hpc with e | e <;> simp [e]
  have hcount : (s.cpu i).pc ≠ .count := by rcases hpc with e | e <;> simp [e]
  have hspec := Mlq.getMlqProc_spec hget
  refine h.cpu hi ⟨rfl, rfl, rfl⟩ h.timer rfl (fun _ _ => rfl) ?_ (fun p => ?_) ?_ h.executed (fun p hp => ?_) ?_ id ?_ ?_
  · rcases hx with ⟨e, -⟩ | e | e <;> simpa [CpuPhase, e] using hphase
  · change m.procs.count p + _ + (s.finished ++ ended).count p = _
    rw [hproc, hold, List.count_append]
    rcases hspec with ⟨rfl, -, rfl⟩ | ⟨q, rfl, hq⟩
    · simp only [Option.toList_none, List.count_nil]
      omega
    · have := hq p
      simp only [Option.toList_some]
      omega
  · change (s.finished ++ ended).length + _ + s.cntProcDone = _ + _ + s.cntProcDone
    rw [if_neg hcount, List.length_append, hlen]
    omega
  · rcases List.mem_append.1 hp with hp | hp
    · exact h.ended p hp
    · exact hends p hp
  · rcases hx with ⟨e, hr⟩ | e | e <;> simp [e, hproc]
    exact hr
  · rcases hx with ⟨e, -⟩ | e | e <;> simp [e]
  · intro hblind
    rcases hspec with ⟨-, hnil, hm⟩ | ⟨q, rfl, -⟩
    · exact Or.inl (by rw [← hnil, ← hm])
    · rcases hx with ⟨-, hr⟩ | e | e
      · cases hr
      · simp [Blind, e, hproc] at hblind
      · simp [Blind, e, hproc] at hblind

theorem Inv.cpu_dev (h : Inv c s) (hi : i < c.numCpus) {t : Timer} (htimer : Timer.Inv c.numDevs t)
    (htime : t.time = s.timer.time) (hdev : ∀ k, k ≠ c.cpuDev i → t.dev k = s.timer.dev k)
    (hproc : x.proc = (s.cpu i).proc) (hcount : (s.cpu i).pc ≠ .count ∧ x.pc ≠ .count)
    (hphase : CpuPhase x.pc (t.dev (c.cpuDev i)).phase)
    (hidle : x.pc = .empty ∨ x.pc = .get ∨ x.pc = .leave ∨ x.pc = .stopped → x.proc = none)
    (hstops : x.pc = .leave ∨ x.pc = .stopped → s.done = true ∨ s.cntProcDone = c.numProcesses)
    (hblind : Blind x → Blind (s.cpu i)) : Inv c (({ s with timer := t } : Os).setCpu i x) := by
  refine h.cpu hi ⟨rfl, rfl, rfl⟩ htimer htime hdev hphase (fun p => by rw [hproc]) ?_ h.executed h.ended hidle id hstops
    (fun hb => Or.inr ⟨hblind hb, rfl⟩)
  rw [if_neg hcount.1, if_neg hcount.2]

theorem Inv.cpu_puts {p : Nat} {m : Mlq} (h : Inv c s) (hi : i < c.numCpus) (hpc : (s.cpu i).pc = .top)
    (hp : (s.cpu i).proc = some p) (hput : s.mlq.putMlqProc (c.prio p) p = some m) (hproc : x.proc = none)
    (hxpc : x.pc = .get) : Inv c (({ s with mlq := m } : Os).setCpu i x) := by
  have hphase := (h.cpuPhase i hi).outside (by simp [hpc]) (by simp [hpc])
  refine h.cpu hi ⟨rfl, rfl, rfl⟩ h.timer rfl (fun _ _ => rfl) (by simpa [CpuPhase, hxpc] using hphase) (fun q => ?_) ?_
    h.executed h.ended (fun _ => hproc) id (by simp [hxpc]) (by simp [Blind, hxpc])
  · change m.procs.count q + _ + s.finished.count q = _
    rw [Mlq.putMlqProc_spec hput q, hp, hproc]
    simp
  · simp [hpc, hxpc]

theorem Inv.cpu_runs {p : Nat} (h : Inv c s) (hi : i < c.numCpus) (hpc : (s.cpu i).pc = .run)
    (hp : (s.cpu i).proc = some p) (hx : x.proc = some p) (hxpc : x.pc = .enter) :
    Inv c ((s.runProc c p).setCpu i x) := by
  have hphase := (h.cpuPhase i hi).outside (by simp [hpc]) (by simp [hpc])
  have hproc : x.proc = (s.cpu i).proc := hx.trans hp.symm
  unfold runProc
  split
  · rename_i hlt
    refine h.cpu hi ⟨rfl, rfl, rfl⟩ h.timer rfl (fun _ _ => rfl) (by simpa [CpuPhase, hxpc] using hphase)
      (fun q => by rw [hproc]) (by simp [hpc, hxpc]) (fun q => ?_) (fun q hq => ?_) (by simp [hxpc]) id (by simp [hxpc])
      (by simp [Blind, hxpc])
    · by_cases hqp : q = p
      · subst hqp
        simp only [Function.update_self]
        exact ⟨by rw [(h.executed q).1, List.range_succ], hlt⟩
      · simpa [hqp] using h.executed q
    · -- a process with an instruction left has not finished
      have hqp : q ≠ p := by
        rintro rfl
        exact absurd (h.ended q hq) hlt.ne
      simpa [hqp] using h.ended q hq
  · exact h.cpu_goes hi hproc (by simp [hpc, hxpc]) (by simpa [CpuPhase, hxpc] using hphase) (by simp [hxpc])
      (by simp [hxpc]) (by simp [Blind, hxpc])

/-- **Every action of a CPU keeps the invariant.** -/
theorem Inv.cpuRoutine (h : Inv c s) (hi : i < c.numCpus) (hstep : s.cpuRoutine c i = some s') : Inv c s' := by
  have hphase := h.cpuPhase i hi
  have hidle := h.idle i hi
  have hstops := h.stops i hi
  cases cpuRoutine_cases hstep with
  | fetches hpc hp =>
    have hgets := @Inv.cpu_gets c s i
      { s.cpu i with pc := if (s.mlq.getMlqProc).2 = none then .empty else .recheck, proc := (s.mlq.getMlqProc).2 }
      h hi _ _ rfl [] (Or.inl hpc) rfl
    simp only [List.append_nil] at hgets
    refine hgets ?_ ⟨by simp [hp], ?_, by simp⟩
    · split
      · rename_i hr
        exact Or.inl ⟨rfl, hr⟩
      · exact Or.inr (Or.inl rfl)
    · split <;> rfl
  | finishes hpc hp hend =>
    refine h.cpu_gets hi rfl (Or.inl hpc) rfl (Or.inr (Or.inr rfl)) ⟨by simp [hp], rfl, ?_⟩
    simpa using hend
  | putsBack hpc hp hend hleft hput => exact h.cpu_puts hi hpc hp hput rfl rfl
  | keeps hpc hp hend hleft =>
    have hout := hphase.outside (by simp [hpc]) (by simp [hpc])
    exact h.cpu_goes hi rfl (by simp [hpc]) hout (by simp) (by simp) (by simp [Blind, hp])
  | allDone hpc hcnt =>
    have hout := hphase.outside (by simp [hpc]) (by simp [hpc])
    exact h.cpu_goes hi rfl (by simp [hpc]) hout (fun _ => hidle (Or.inl hpc)) (fun _ => Or.inr hcnt)
      (fun _ => Or.inl (h.all_counted hcnt).2.2)
  | waits hpc hcnt =>
    have hout := hphase.outside (by simp [hpc]) (by simp [hpc])
    exact h.cpu_goes hi rfl (by simp [hpc]) hout (by simp) (by simp) (by simp [Blind])
  | counts hpc =>
    have hout := hphase.outside (by simp [hpc]) (by simp [hpc])
    refine h.cpu hi ⟨rfl, rfl, rfl⟩ h.timer rfl (fun _ _ => rfl) hout (fun q => rfl)
      (by simp [hpc]; omega) h.executed h.ended
      (by simp) (fun hcnt => ?_) (by simp) (fun hb => Or.inr ⟨?_, rfl⟩)
    · -- all counted, and this one not yet
      have hlen := h.finished_length
      have hcounted := h.counted
      have hmem : i ∈ counting c s := Family.mem_all.2 ⟨i, hi, by simp [hpc]⟩
      have := List.length_pos_of_mem hmem
      omega
    · simpa [Blind, hpc] using hb
  | gets hpc =>
    have hgets := @Inv.cpu_gets c s i { s.cpu i with pc := .recheck, proc := (s.mlq.getMlqProc).2 } h hi _ _ rfl []
      (Or.inr hpc) rfl (Or.inr (Or.inl rfl)) ⟨by simp [hidle (Or.inr (Or.inl hpc))], rfl, by simp⟩
    simp only [List.append_nil] at hgets
    exact hgets
  | leaves hpc hp hdone =>
    have hout := hphase.outside (by simp [hpc]) (by simp [hpc])
    exact h.cpu_goes hi rfl (by simp [hpc]) hout (fun _ => hp) (fun _ => Or.inl hdone)
      (fun _ => Or.inr (Or.inl ⟨Or.inr hpc, hp⟩))
  | idles hpc hp hdone =>
    have hout := hphase.outside (by simp [hpc]) (by simp [hpc])
    exact h.cpu_goes hi rfl (by simp [hpc]) hout (by simp) (by simp) (by simp [Blind])
  | dispatches hpc hp =>
    have hout := hphase.outside (by simp [hpc]) (by simp [hpc])
    exact h.cpu_goes hi rfl (by simp [hpc]) hout (by simp) (by simp) (by simp [Blind])
  | runs hpc hp => exact h.cpu_runs hi hpc hp hp rfl
  | enters hpc ht =>
    obtain ⟨-, htime, hdev, htold, -⟩ := Timer.step_enter ht
    exact h.cpu_dev hi (Timer.step_inv ht h.timer) htime hdev rfl (by simp [hpc]) (Or.inl htold) (by simp) (by simp)
      (by simp [Blind])
  | sleeps hpc ht hin =>
    obtain ⟨htime, hdev, -, hwait⟩ := Timer.step_sleeps ht hin
    exact h.cpu_dev hi (Timer.step_inv ht h.timer) htime hdev rfl (by simp [hpc]) (Or.inr hwait) (by simp) (by simp)
      (by simp [Blind])
  | returns hpc ht hout =>
    obtain ⟨-, htime, hdev, -, -⟩ := Timer.step_test ht
    exact h.cpu_dev hi (Timer.step_inv ht h.timer) htime hdev rfl (by simp [hpc]) hout (by simp) (by simp)
      (by simp [Blind])
  | detaches hpc ht =>
    obtain ⟨-, htime, hdev, hgone, -⟩ := Timer.step_detach ht
    exact h.cpu_dev hi (Timer.step_inv ht h.timer) htime hdev rfl (by simp [hpc]) hgone
      (fun _ => hidle (Or.inr (Or.inr (Or.inl hpc)))) (fun _ => hstops (Or.inl hpc))
      (fun _ => Or.inr (Or.inl hpc))

end Cpu

/-! ## The loader's actions and the timer's -/

/-- **A loader's action** that leaves the CPUs alone keeps the invariant, if what it adds is what it takes for
loaded. -/
theorem Inv.loaderTo {c : Config} {s s₁ : Os} (h : Inv c s)
    (hsame : s₁.cpu = s.cpu ∧ s₁.finished = s.finished ∧ s₁.cntProcDone = s.cntProcDone)
    (htimer : Timer.Inv c.numDevs s₁.timer) (hdev : ∀ k, k ≠ ldDev → s₁.timer.dev k = s.timer.dev k)
    (hphase : LdPhase s₁.loader (s₁.timer.dev ldDev).phase) (hok : LdOk c s₁.loader)
    (hplaces : ∀ p, s₁.mlq.procs.count p + (if p < loaded c s then 1 else 0) =
      s.mlq.procs.count p + (if p < loaded c s₁ then 1 else 0))
    (hexecuted : ∀ p, (s₁.pcb p).executed = List.range (s₁.pcb p).pc ∧ (s₁.pcb p).pc ≤ c.size p)
    (hended : ∀ p ∈ s.finished, (s₁.pcb p).pc = c.size p) (hdone : s.done = true → s₁.done = true)
    (hset : s₁.done = true → s₁.loader = .leave ∨ s₁.loader = .gone)
    (hlate : Late c s₁ → Late c s ∧ s₁.mlq = s.mlq) : Inv c s₁ := by
  obtain ⟨hcpu, hfinished, hcnt⟩ := hsame
  refine ⟨htimer, fun i hi => ?_, hphase, hok, fun p => ?_, ?_, hexecuted, by rwa [hfinished], fun i hi => ?_,
    fun i hi => ?_, hset, fun hl hne => ?_⟩
  · rw [hcpu, hdev _ (cpuDev_ne_ldDev hi).symm]
    exact h.cpuPhase i hi
  · have := h.places p
    have := hplaces p
    rw [held, hcpu, hfinished, ← held]
    omega
  · rw [hfinished, hcnt, counting, hcpu, ← counting]
    exact h.counted
  · rw [hcpu]
    exact h.idle i hi
  · rw [hcpu, hcnt]
    exact fun hpc => (h.stops i hi hpc).imp_left hdone
  · obtain ⟨hold, hmlq⟩ := hlate hl
    rw [hcpu]
    exact h.late hold (by rw [← hmlq]; exact hne)

theorem Inv.loader_goes {c : Config} {s : Os} (h : Inv c s) {t : Timer} {l : LdPc} (htimer : Timer.Inv c.numDevs t)
    (hdev : ∀ k, k ≠ ldDev → t.dev k = s.timer.dev k) (hphase : LdPhase l (t.dev ldDev).phase) (hok : LdOk c l)
    (hloaded : loaded c { s with timer := t, loader := l } = loaded c s)
    (hset : s.done = true → l = .leave ∨ l = .gone) (hlate : Late c { s with timer := t, loader := l } → Late c s) :
    Inv c { s with timer := t, loader := l } :=
  h.loaderTo ⟨rfl, rfl, rfl⟩ htimer hdev hphase hok (fun p => by rw [hloaded]) h.executed h.ended id hset
    (fun hl => ⟨hlate hl, rfl⟩)

/-- Before the loader's end `done` is not set. -/
theorem Inv.loader_within {c : Config} {s : Os} (h : Inv c s) (hbusy : ¬ (s.loader = .leave ∨ s.loader = .gone)) {t : Timer}
    {l : LdPc} (htimer : Timer.Inv c.numDevs t) (hdev : ∀ k, k ≠ ldDev → t.dev k = s.timer.dev k)
    (hphase : LdPhase l (t.dev ldDev).phase) (hok : LdOk c l)
    (hloaded : loaded c { s with timer := t, loader := l } = loaded c s)
    (hlate : Late c { s with timer := t, loader := l } → Late c s) : Inv c { s with timer := t, loader := l } :=
  h.loader_goes htimer hdev hphase hok hloaded (fun hd => absurd (h.doneSet hd) hbusy) hlate

section Loader

variable {c : Config} {s : Os} {i : Nat} {t : Timer}

/-- A process is loaded: none that has finished. -/
theorem Inv.ldLoads (h : Inv c s) (hld : s.loader = .loop i) (hlt : i < c.numProcesses) :
    Inv c { s with pcb := Function.update s.pcb i ⟨0, []⟩, loader := .check i } := by
  have hphase := h.ldPhase
  have hset := h.doneSet
  rw [hld] at hphase hset
  have hnew : ∀ p ∈ s.finished, p ≠ i := by
    intro p hp
    have := h.finished_nodup.2 p hp
    simp only [loaded, hld] at this
    omega
  have hloaded : loaded c { s with pcb := Function.update s.pcb i ⟨0, []⟩, loader := .check i } = loaded c s := by
    simp [loaded, hld]
  refine h.loaderTo ⟨rfl, rfl, rfl⟩ h.timer (fun _ _ => rfl) hphase hlt (fun p => by rw [hloaded]) (fun p => ?_)
    (fun p hp => ?_) id (fun hd => by simpa using hset hd) (fun hl => hl.elim)
  · by_cases hp : p = i
    · subst hp
      simp
    · simpa [hp] using h.executed p
  · simpa [hnew p hp] using h.ended p hp

theorem Inv.ldEnds (h : Inv c s) (hld : s.loader = .loop i) (hge : c.numProcesses ≤ i) :
    Inv c { s with done := true, loader := .leave } := by
  have hphase := h.ldPhase
  have hok := h.ldOk
  rw [hld] at hphase hok
  have heq : i = c.numProcesses := Nat.le_antisymm hok hge
  have hloaded : loaded c { s with done := true, loader := .leave } = loaded c s := by
    simp [loaded, hld, heq]
  exact h.loaderTo ⟨rfl, rfl, rfl⟩ h.timer (fun _ _ => rfl) hphase trivial (fun p => by rw [hloaded])
    h.executed h.ended (fun _ => rfl) (fun _ => Or.inl rfl) (fun _ => ⟨by simp [Late, hld, heq], rfl⟩)

theorem Inv.ldAdds (h : Inv c s) {m : Mlq} (hld : s.loader = .add i) (hput : s.mlq.putMlqProc (c.prio i) i = some m) :
    Inv c { s with mlq := m, loader := .enterAdd i } := by
  have hphase := h.ldPhase
  have hok := h.ldOk
  have hset := h.doneSet
  rw [hld] at hphase hok hset
  refine h.loaderTo ⟨rfl, rfl, rfl⟩ h.timer (fun _ _ => rfl) hphase hok (fun p => ?_) h.executed h.ended id
    (fun hd => by simpa using hset hd) (fun hl => hl.elim)
  have hcount := Mlq.putMlqProc_spec hput p
  have hold : loaded c s = i := by simp [loaded, hld]
  have hnew : loaded c { s with mlq := m, loader := .enterAdd i } = i + 1 := rfl
  rw [hold, hnew]
  change m.procs.count p + _ = _
  simp only [List.count_singleton, beq_iff_eq] at hcount
  split at hcount <;> split <;> split <;> omega

/-! In `next_slot` after `add_proc`: the last process has been added late only if the slot it was added in is over. -/

theorem Inv.ldEnters (h : Inv c s) (hld : s.loader = .enterAdd i)
    (ht : s.timer.step c.numDevs (.enter ldDev) = some t) : Inv c { s with timer := t, loader := .addSlot i } := by
  have hok := h.ldOk
  rw [hld] at hok
  obtain ⟨-, -, hdev, htold, -⟩ := Timer.step_enter ht
  refine h.loader_within (by simp [hld]) (Timer.step_inv ht h.timer) hdev (Or.inl htold) hok (by simp [loaded, hld])
    (fun hl => ?_)
  have hlate : (t.dev ldDev).begun = t.time := hl.2
  have hbegun := h.timer.begun_enters ldDev_lt ht
  omega

theorem Inv.ldSleeps (h : Inv c s) (hld : s.loader = .addSlot i)
    (ht : s.timer.step c.numDevs (.test ldDev) = some t) (hin : (t.dev ldDev).phase ≠ .outside) :
    Inv c { s with timer := t, loader := .addSlot i } := by
  have hok := h.ldOk
  rw [hld] at hok
  obtain ⟨htime, hdev, hbegun, hwait⟩ := Timer.step_sleeps ht hin
  refine h.loader_within (by simp [hld]) (Timer.step_inv ht h.timer) hdev (Or.inr hwait) hok (by simp [loaded, hld])
    (fun hl => ?_)
  have hl' : c.numProcesses = i + 1 ∧ (t.dev ldDev).begun = t.time := hl
  rw [hbegun, htime] at hl'
  simpa [Late, hld] using hl'

theorem Inv.ldGoesOn (h : Inv c s) (hld : s.loader = .addSlot i)
    (ht : s.timer.step c.numDevs (.test ldDev) = some t) (hout : (t.dev ldDev).phase = .outside) :
    Inv c { s with timer := t, loader := .loop (i + 1) } := by
  have hok := h.ldOk
  rw [hld] at hok
  obtain ⟨-, -, hdev, -, -⟩ := Timer.step_test ht
  refine h.loader_within (by simp [hld]) (Timer.step_inv ht h.timer) hdev hout hok (by simp [loaded, hld]) (fun hl => ?_)
  have hlast : c.numProcesses ≤ i + 1 := hl
  have hlt : i < c.numProcesses := hok
  simp only [Late, hld]
  exact ⟨by omega, h.timer.begun_letOut ldDev_lt ht hout⟩

end Loader

theorem Inv.ldRoutine {c : Config} {s s' : Os} (h : Inv c s) (hstep : s.ldRoutine c = some s') : Inv c s' := by
  have hphase := h.ldPhase
  have hok := h.ldOk
  cases ldRoutine_cases hstep with
  | loads hld hlt => exact h.ldLoads hld hlt
  | ends hld hge => exact h.ldEnds hld hge
  | early hld _ | due hld _ =>
    rw [hld] at hphase hok
    exact h.loader_within (by simp [hld]) h.timer (fun _ _ => rfl) hphase hok (by simp [loaded, hld]) (fun hl => hl.elim)
  | entersWait hld ht =>
    rw [hld] at hok
    obtain ⟨-, -, hdev, htold, -⟩ := Timer.step_enter ht
    exact h.loader_within (by simp [hld]) (Timer.step_inv ht h.timer) hdev (Or.inl htold) hok (by simp [loaded, hld])
      (fun hl => hl.elim)
  | sleepsWait hld ht hin =>
    rw [hld] at hok
    obtain ⟨-, hdev, -, hwait⟩ := Timer.step_sleeps ht hin
    exact h.loader_within (by simp [hld]) (Timer.step_inv ht h.timer) hdev (Or.inr hwait) hok (by simp [loaded, hld])
      (fun hl => hl.elim)
  | looksAgain hld ht hout =>
    rw [hld] at hok
    obtain ⟨-, -, hdev, -, -⟩ := Timer.step_test ht
    exact h.loader_within (by simp [hld]) (Timer.step_inv ht h.timer) hdev hout hok (by simp [loaded, hld])
      (fun hl => hl.elim)
  | adds hld hput => exact h.ldAdds hld hput
  | enters hld ht => exact h.ldEnters hld ht
  | sleeps hld ht hin => exact h.ldSleeps hld ht hin
  | goesOn hld ht hout => exact h.ldGoesOn hld ht hout
  | detaches hld ht =>
    obtain ⟨-, -, hdev, hgone, -⟩ := Timer.step_detach ht
    exact h.loader_goes (Timer.step_inv ht h.timer) hdev hgone trivial (by simp [loaded, hld])
      (fun _ => Or.inr rfl) (fun _ => by simp [Late, hld])

/-- **The timer's actions keep the invariant.**  When the slot is over in which the last process was added, CPU 0 is in
that slot, and will look at the queues after it, or has stopped with all processes counted. -/
theorem Inv.timerRoutine {c : Config} (hnum : 1 ≤ c.numCpus) {s s' : Os} (h : Inv c s)
    (hstep : s.devStep c .routine = some s') : Inv c s' := by
  obtain ⟨t, ht, rfl⟩ := devStep_some hstep
  obtain ⟨hdev, htick⟩ := Timer.step_routine ht
  refine ⟨Timer.step_inv ht h.timer, fun i hi => ?_, ?_, h.ldOk, h.places, h.counted, h.executed, h.ended, h.idle,
    h.stops, h.doneSet, fun hl hne => ?_⟩
  · change CpuPhase _ (t.dev _).phase
    rw [(hdev _).1]
    exact h.cpuPhase i hi
  · change LdPhase _ (t.dev _).phase
    rw [(hdev _).1]
    exact h.ldPhase
  · by_cases hlate : Late c s
    · exact h.late hlate hne
    · have hnotDone : ¬ s.done = true := by
        intro hd
        rcases h.doneSet hd with e | e <;> simp [Late, e] at hlate
      have hnotAll : s.cntProcDone ≠ c.numProcesses := fun hcnt => hne (h.all_counted hcnt).2.2
      have hgoes : ¬ ((s.cpu 0).pc = .leave ∨ (s.cpu 0).pc = .stopped) := by
        intro hpc
        rcases h.stops 0 hnum hpc with hd | hcnt
        · exact hnotDone hd
        · exact hnotAll hcnt
      rcases htick with htime | hpassed
      · -- no slot counted
        refine absurd ?_ hlate
        change Late c { s with timer := t } at hl
        simp only [Late, (hdev _).2, htime] at hl
        exact hl
      · have hcpu := h.cpuPhase 0 hnum
        have hinv := h.timer _ (cpuDev_lt hnum)
        have hnotOut : (s.timer.dev (c.cpuDev 0)).phase ≠ .outside := by
          intro hout
          obtain ⟨hd, hf, -⟩ := hinv.outside hout
          have := hinv.passed (hpassed _ (cpuDev_lt hnum))
          simp [hd, hf] at this
        have hslot : (s.cpu 0).pc = .slot := by
          by_contra hns
          exact hnotOut (hcpu.outside hns (fun e => hgoes (Or.inr e)))
        exact ⟨0, hnum, by simp [Blind, hslot]⟩

theorem step_inv {c : Config} (hnum : 1 ≤ c.numCpus) {s s' : Os} {a : OsAct} (hstep : step c s a = some s')
    (h : Inv c s) :
    Inv c s' := by
  cases a with
  | timer => exact h.timerRoutine hnum hstep
  | loader => exact h.ldRoutine hstep
  | cpu i =>
    simp only [step] at hstep
    split at hstep
    · rename_i hi
      exact h.cpuRoutine hi hstep
    · cases hstep

/-! ## Lost, run twice or abandoned -/

/-- **No process is lost, run twice or abandoned.**  Whatever the interleaving, a process handed to `add_proc` is in one
place: once in one queue, or with one CPU, or finished.  When all CPUs have stopped, all processes have been loaded and
have finished, and each has executed its instructions once, in order. -/
theorem processes_complete (c : Config) (hnum : 1 ≤ c.numCpus) {s : Os} (h : Reach (step c) start s) :
    (∀ p < loaded c s, s.mlq.procs.count p + (held c s).count p + s.finished.count p = 1) ∧
      ((∀ i < c.numCpus, (s.cpu i).pc = .stopped) → loaded c s = c.numProcesses ∧
        ∀ p < c.numProcesses, p ∈ s.finished ∧ (s.pcb p).executed = List.range (c.size p)) := by
  have hinv : Inv c s := h.inv (start_inv c) (fun ha hs => step_inv hnum ha hs)
  refine ⟨fun p hp => ?_, fun hstopped => ?_⟩
  · have := hinv.places p
    rwa [if_pos hp] at this
  · have hends : ∀ p ∈ s.finished, (s.pcb p).executed = List.range (c.size p) := fun p hp => by
      rw [(hinv.executed p).1, hinv.ended p hp]
    rcases hinv.stops 0 hnum (Or.inr (hstopped 0 hnum)) with hdone | hcnt
    · have hlate : Late c s := by
        rcases hinv.doneSet hdone with e | e <;> simp [Late, e]
      have hloaded : loaded c s = c.numProcesses := by
        rcases hinv.doneSet hdone with e | e <;> simp [loaded, e]
      have hprocs : s.mlq.procs = [] := by
        by_contra hne
        obtain ⟨i, hi, hsees⟩ := hinv.late hlate hne
        exact hsees (Or.inr (Or.inr (hstopped i hi)))
      have hheld : held c s = [] := Family.all_eq_nil.2 (fun i hi => by
        rw [hinv.idle i hi (Or.inr (Or.inr (Or.inr (hstopped i hi)))), Option.toList_none])
      refine ⟨hloaded, fun p hp => ?_⟩
      have hplace := hinv.places p
      rw [hprocs, hheld, hloaded, if_pos hp] at hplace
      have hmem : p ∈ s.finished := List.count_pos_iff.1 (by simp at hplace; omega)
      exact ⟨hmem, hends p hmem⟩
    · obtain ⟨hall, hloaded, -⟩ := hinv.all_counted hcnt
      exact ⟨hloaded, fun p hp => ⟨hall p hp, hends p (hall p hp)⟩⟩

/-- Two CPUs and two processes, the second of two instructions and put back to its queue after the first one. -/
theorem processes_complete_twoCpus : ∃ s, Reach (step ⟨1, 2, 2, fun _ => 0, fun _ => 0, fun p => p + 1⟩) start s ∧
    (∀ i < 2, (s.cpu i).pc = .stopped) ∧ s.done = true ∧ s.timer.time = 3 ∧
    loaded ⟨1, 2, 2, fun _ => 0, fun _ => 0, fun p => p + 1⟩ s = 2 ∧
    ∀ p < 2, p ∈ s.finished ∧ (s.pcb p).executed = List.range (p + 1) := by
  have hsome : (runActions (step ⟨1, 2, 2, fun _ => 0, fun _ => 0, fun p => p + 1⟩)
      (repeated [(5, .loader), (5, .cpu 0), (4, .cpu 1), (6, .timer), (6, .loader), (1, .timer), (6, .cpu 1), (1, .timer),
        (6, .cpu 0), (7, .timer), (3, .loader), (1, .timer), (7, .cpu 1), (1, .timer), (5, .cpu 0), (8, .timer),
        (5, .cpu 1), (1, .timer), (4, .cpu 0)]) start).any
      (fun s => (∀ i < 2, (s.cpu i).pc = .stopped) ∧ s.done = true ∧ s.timer.time = 3) = true := by
    decide +kernel
  obtain ⟨s, hs, hq⟩ := (Option.any_eq_true _ _).1 hsome
  simp only [decide_eq_true_iff] at hq
  have hreach := reach_of_runActions _ hs
  have hall := (processes_complete _ (by decide) hreach).2 hq.1
  exact ⟨s, hreach, hq.1, hq.2.1, hq.2.2, hall.1, hall.2⟩

end Os

end OsSim
