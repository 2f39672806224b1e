import OsSim.Epochs
import OsSim.Lifecycle
/-!
# Budget — what a dispatch costs and how long it runs (`cpu_routine` on one CPU)

`get_mlq_proc` takes one slot from the queue for each dispatch; the CPU runs the process until `time_left`, which
starts at `time_slot`, is 0 or the process has finished.  The slots of the table are timer slots only where no
dispatch runs longer than one.
-/
namespace OsSim

open System

/-- The system and, for the history: how the queues have been served, the queue the CPU's process came from, and the
timer slots in which the CPU ran processes of each queue since the last refill. -/
structure Metered where
  os : Os
  tally : Rounds.Tally Nat
  source : Option Nat
  ran : Nat → Nat

namespace Metered

def gets (c : Config) (s : Os) : Bool :=
  match (s.cpu 0).pc with
  | .top =>
    match (s.cpu 0).proc with
    | none => true
    | some p => (s.pcb p).pc = c.size p
  | .get => true
  | _ => false

def bill (ran : Nat → Nat) (source : Option Nat) : Nat → Nat :=
  match source with
  | none => ran
  | some i => Function.update ran i (ran i + 1)

def step (c : Config) (s : Metered) (a : OsAct) : Option Metered :=
  (s.os.step c a).map (fun os =>
    if a = .cpu 0 ∧ gets c s.os then
      { os := os
        tally := s.os.mlq.counted s.tally
        source := s.os.mlq.chosen
        ran := if s.os.mlq.refills then fun _ => 0 else s.ran }
    else
      { s with
        os := os
        tally := s.tally.watch os.mlq.busy
        ran := if a = .cpu 0 ∧ (s.os.cpu 0).pc = .run then bill s.ran s.source else s.ran })

def start : Metered := ⟨.start, .start, none, fun _ => 0⟩

/-- A dispatch from queue `i` is over after one timer slot. -/
def oneSlot (c : Config) (i : Nat) (s : Metered) (a : OsAct) : Bool :=
  match a, (s.os.cpu 0).proc with
  | .cpu 0, some p =>
    (s.os.cpu 0).pc != .recheck || s.source != some i || (s.os.cpu 0).timeLeft != 0 || c.timeSlot == 1 ||
      c.size p ≤ (s.os.pcb p).pc + 1
  | _, _ => true

/-! ## The invariant -/

/-- The CPU's process came from queue `i`, and its timer slot is still to be run. -/
def owes (s : Os) (source : Option Nat) (i : Nat) : Nat :=
  if source = some i ∧ (s.cpu 0).proc ≠ none ∧ ((s.cpu 0).pc = .count ∨
    (s.cpu 0).pc = .recheck ∨ (s.cpu 0).pc = .run) then 1
  else 0

/-- The dispatch of `p` is over after one timer slot: what this says of `time_left` where the CPU is. -/
def Short (c : Config) (s : Os) (p : Nat) : Prop :=
  match (s.cpu 0).pc with
  | .run => (s.cpu 0).timeLeft = 1 ∨ c.size p ≤ (s.pcb p).pc + 1
  | .enter | .slot | .top => (s.cpu 0).timeLeft = 0 ∨ (s.pcb p).pc = c.size p
  | _ => (s.cpu 0).timeLeft = 0

/-- **The slots of queue `i` are kept to** while no dispatch from it takes more than one. -/
structure Inv (c : Config) (i : Nat) (s : Metered) : Prop where
  os : Os.Inv c s.os
  epoch : Epoch.Inv ⟨s.os.mlq, s.tally⟩
  rested : (s.os.cpu 0).proc = none ∨ (s.os.cpu 0).pc = .count → (s.os.cpu 0).timeLeft = 0
  paid : s.ran i + owes s.os s.source i ≤ s.tally.used i
  short : s.source = some i → ∀ p, (s.os.cpu 0).proc = some p → Short c s.os p

theorem start_inv (c : Config) (i : Nat) : Inv c i start :=
  ⟨Os.start_inv c, Epoch.start_inv, fun _ => rfl, le_rfl, fun h => (by cases h)⟩

section Step

variable {c : Config} {i : Nat} {s : Metered} {os : Os}

/-- **An action that does not call `get_proc`** keeps the invariant, if a slot it runs was owed. -/
theorem Inv.goes (h : Inv c i s) (hos : Os.Inv c os) {ran : Nat → Nat}
    (hmlq : os.mlq = s.os.mlq ∨ ∃ prio proc, s.os.mlq.putMlqProc prio proc = some os.mlq)
    (hrested : (os.cpu 0).proc = none ∨ (os.cpu 0).pc = .count → (os.cpu 0).timeLeft = 0)
    (hpaid : ran i + owes os s.source i ≤ s.ran i + owes s.os s.source i)
    (hshort : s.source = some i → ∀ p, (os.cpu 0).proc = some p → Short c os p) :
    Inv c i { s with os := os, tally := s.tally.watch os.mlq.busy, ran := ran } := by
  refine ⟨hos, ?_, hrested, hpaid.trans h.paid, hshort⟩
  rcases hmlq with hmlq | ⟨prio, proc, hput⟩
  · dsimp only
    rw [hmlq]
    exact ⟨h.epoch.slots, h.epoch.round.watch _⟩
  · exact h.epoch.put hput

theorem Inv.dispatched (h : Inv c i s) (hos : Os.Inv c os) (hmlq : os.mlq = (s.os.mlq.getMlqProc).1)
    (hleft : (os.cpu 0).timeLeft = 0) (hpc : (os.cpu 0).pc ≠ .run) :
    Inv c i { os := os, tally := s.os.mlq.counted s.tally, source := s.os.mlq.chosen
              ran := if s.os.mlq.refills then fun _ => 0 else s.ran } := by
  refine ⟨hos, ?_, fun _ => hleft, ?_, fun _ p _ => ?_⟩
  · dsimp only
    rw [hmlq]
    exact h.epoch.get
  · have hpaid := h.paid
    dsimp only
    rw [Mlq.counted_used]
    have howes : owes os s.os.mlq.chosen i ≤ if s.os.mlq.chosen = some i then 1 else 0 := by
      unfold owes
      split <;> split <;> simp_all
    have hran : (if s.os.mlq.refills then fun _ => 0 else s.ran) i = if s.os.mlq.refills then 0 else s.ran i := by
      split <;> rfl
    rw [hran]
    split <;> omega
  · unfold Short
    split
    · rename_i hrun
      exact absurd hrun hpc
    · exact Or.inl hleft
    · exact Or.inl hleft
    · exact Or.inl hleft
    · exact hleft

def afterCpu (c : Config) (s : Metered) (os : Os) : Metered :=
  if gets c s.os then
    { os := os, tally := s.os.mlq.counted s.tally, source := s.os.mlq.chosen
      ran := if s.os.mlq.refills then fun _ => 0 else s.ran }
  else
    { s with
      os := os, tally := s.tally.watch os.mlq.busy
      ran := if (s.os.cpu 0).pc = .run then bill s.ran s.source else s.ran }

theorem Inv.cpu_goes (h : Inv c i s) (hos : Os.Inv c os) (hgets : gets c s.os = false) (hrun : (s.os.cpu 0).pc ≠ .run)
    (hmlq : os.mlq = s.os.mlq ∨ ∃ prio proc, s.os.mlq.putMlqProc prio proc = some os.mlq)
    (hrested : (os.cpu 0).proc = none ∨ (os.cpu 0).pc = .count → (os.cpu 0).timeLeft = 0)
    (howes : owes os s.source i ≤ owes s.os s.source i)
    (hshort : s.source = some i → ∀ p, (os.cpu 0).proc = some p → Short c os p) : Inv c i (afterCpu c s os) := by
  unfold afterCpu
  rw [if_neg (by simp [hgets]), if_neg hrun]
  exact h.goes hos hmlq hrested (Nat.add_le_add_left howes _) hshort

theorem Inv.cpu_idles (h : Inv c i s) (hos : Os.Inv c os) (hgets : gets c s.os = false) (hrun : (s.os.cpu 0).pc ≠ .run)
    (hmlq : os.mlq = s.os.mlq) (hnone : (os.cpu 0).proc = none) (hleft : (os.cpu 0).timeLeft = 0) :
    Inv c i (afterCpu c s os) := by
  refine h.cpu_goes hos hgets hrun (Or.inl hmlq) (fun _ => hleft) ?_ (fun _ q hq => ?_)
  · simp [owes, hnone]
  · rw [hnone] at hq
    cases hq

theorem Inv.cpu_waits (h : Inv c i s) (hos : Os.Inv c os) (hpc : (s.os.cpu 0).pc = .enter ∨ (s.os.cpu 0).pc = .slot)
    (hpc' : (os.cpu 0).pc = .slot ∨ (os.cpu 0).pc = .top) (hmlq : os.mlq = s.os.mlq) (hpcb : os.pcb = s.os.pcb)
    (hproc : (os.cpu 0).proc = (s.os.cpu 0).proc) (hleft : (os.cpu 0).timeLeft = (s.os.cpu 0).timeLeft) :
    Inv c i (afterCpu c s os) := by
  have hgets : gets c s.os = false := by rcases hpc with hpc | hpc <;> simp [gets, hpc]
  have hrun : (s.os.cpu 0).pc ≠ .run := by rcases hpc with hpc | hpc <;> simp [hpc]
  refine h.cpu_goes hos hgets hrun (Or.inl hmlq) (fun hrest => ?_) ?_ (fun hsource q hq => ?_)
  · rw [hproc] at hrest
    rw [hleft]
    refine h.rested (hrest.imp_right (fun hcount => ?_))
    rcases hpc' with hpc' | hpc' <;> simp [hpc'] at hcount
  · have howes : owes os s.source i = 0 := by rcases hpc' with hpc' | hpc' <;> simp [owes, hpc']
    rw [howes]
    exact Nat.zero_le _
  · rw [hproc] at hq
    have hover : (s.os.cpu 0).timeLeft = 0 ∨ (s.os.pcb q).pc = c.size q := by
      have hshort := h.short hsource q hq
      rcases hpc with hpc | hpc <;> simpa [Short, hpc] using hshort
    rcases hpc' with hpc' | hpc' <;> simpa [Short, hpc', hleft, hpcb] using hover

theorem Inv.cpu_runs {p : Nat} (h : Inv c i s) (hos : Os.Inv c os) (hpc : (s.os.cpu 0).pc = .run)
    (hp : (s.os.cpu 0).proc = some p) (heq : os = (s.os.runProc c p).setCpu 0
      { s.os.cpu 0 with pc := .enter, timeLeft := (s.os.cpu 0).timeLeft - 1 }) : Inv c i (afterCpu c s os) := by
  have hgets : gets c s.os = false := by simp [gets, hpc]
  rw [afterCpu, if_neg (by simp [hgets]), if_pos hpc]
  subst heq
  have hmlq : (s.os.runProc c p).mlq = s.os.mlq := by
    unfold Os.runProc
    split <;> rfl
  refine h.goes hos (Or.inl hmlq) (by simp [hp]) ?_ (fun hsource q hq => ?_)
  · by_cases hsource : s.source = some i
    · simp [bill, hsource, owes, hpc, hp]
    · have hbill : bill s.ran s.source i = s.ran i := by
        cases hj : s.source with
        | none => rfl
        | some j =>
          have hij : i ≠ j := fun e => hsource (e ▸ hj)
          simp [bill, hij]
      rw [hbill]
      simp [owes, hsource]
  · obtain rfl : p = q := by simpa [hp] using hq
    have hshort := h.short hsource p hp
    simp only [Short, hpc] at hshort
    have hle := (h.os.executed p).2
    simp only [Short, Os.setCpu_self]
    rcases hshort with hone | hlast
    · exact Or.inl (by omega)
    · refine Or.inr ?_
      simp only [Os.runProc, Os.setCpu]
      split
      · simp only [Function.update_self]
        omega
      · omega

theorem Inv.cpuRoutine (h : Inv c i s) (hos : Os.Inv c os) (hone : oneSlot c i s (.cpu 0) = true) (hnum : c.numCpus = 1)
    (hstep : s.os.cpuRoutine c 0 = some os) : Inv c i (afterCpu c s os) := by
  have hidle := h.os.idle 0 (by omega)
  have hrested := h.rested
  have hshort := h.short
  cases Os.cpuRoutine_cases hstep with
  | fetches hpc hp =>
    have hgets : gets c s.os = true := by simp [gets, hpc, hp]
    rw [afterCpu, if_pos hgets]
    refine h.dispatched hos rfl (by simpa using hrested (Or.inl hp)) ?_
    simp only [Os.setCpu_self]
    split <;> simp
  | finishes hpc hp hend =>
    have hgets : gets c s.os = true := by simp [gets, hpc, hp, hend]
    rw [afterCpu, if_pos hgets]
    exact h.dispatched hos rfl (by simp) (by simp)
  | putsBack hpc hp hend hleft hput =>
    exact h.cpu_goes hos (by simp [gets, hpc, hp, hend]) (by simp [hpc]) (Or.inr ⟨_, _, hput⟩) (by simpa using hleft)
      (by simp [owes]) (fun _ q hq => by simp at hq)
  | @keeps p hpc hp hend hleft =>
    have hsource : s.source ≠ some i := by
      intro hsource
      have hover := hshort hsource p hp
      simp [Short, hpc, hleft, hend] at hover
    exact h.cpu_goes hos (by simp [gets, hpc, hp, hend]) (by simp [hpc]) (Or.inl rfl) (by simp [hp])
      (by simp [owes, hsource]) (fun hs => absurd hs hsource)
  | gets hpc =>
    have hgets : gets c s.os = true := by simp [gets, hpc]
    rw [afterCpu, if_pos hgets]
    exact h.dispatched hos rfl (by simpa using hrested (Or.inl (hidle (Or.inr (Or.inl hpc))))) (by simp)
  | runs hpc hp => exact h.cpu_runs hos hpc hp rfl
  | allDone hpc hcnt =>
    have hnone := hidle (Or.inl hpc)
    exact h.cpu_idles hos (by simp [gets, hpc]) (by simp [hpc]) rfl (by simpa using hnone)
      (by simpa using hrested (Or.inl hnone))
  | waits hpc hcnt =>
    have hnone := hidle (Or.inl hpc)
    exact h.cpu_idles hos (by simp [gets, hpc]) (by simp [hpc]) rfl (by simpa using hnone)
      (by simpa using hrested (Or.inl hnone))
  | counts hpc =>
    have hleft := hrested (Or.inr hpc)
    exact h.cpu_goes hos (by simp [gets, hpc]) (by simp [hpc]) (Or.inl rfl) (fun _ => by simpa using hleft)
      (by simp [owes, hpc]) (fun _ q hq => by simpa [Short] using hleft)
  | leaves hpc hp hdone =>
    exact h.cpu_idles hos (by simp [gets, hpc]) (by simp [hpc]) rfl (by simp [hp]) (by simpa using hrested (Or.inl hp))
  | idles hpc hp hdone =>
    exact h.cpu_idles hos (by simp [gets, hpc]) (by simp [hpc]) rfl (by simp [hp]) (by simpa using hrested (Or.inl hp))
  | @dispatches p hpc hp =>
    refine h.cpu_goes hos (by simp [gets, hpc]) (by simp [hpc]) (Or.inl rfl) (by simp [hp]) (by simp [owes, hpc, hp])
      (fun hsource q hq => ?_)
    obtain rfl : p = q := by simpa [hp] using hq
    have hleft : (s.os.cpu 0).timeLeft = 0 := by simpa [Short, hpc] using hshort hsource p hp
    simpa [oneSlot, hpc, hp, hsource, hleft, Short, Os.setCpu] using hone
  | enters hpc ht => exact h.cpu_waits hos (Or.inl hpc) (by simp) rfl rfl (by simp) (by simp)
  | sleeps hpc ht hin => exact h.cpu_waits hos (Or.inr hpc) (by simp) rfl rfl (by simp) (by simp)
  | returns hpc ht hout => exact h.cpu_waits hos (Or.inr hpc) (by simp) rfl rfl (by simp) (by simp)
  | detaches hpc ht =>
    have hnone := hidle (Or.inr (Or.inr (Or.inl hpc)))
    exact h.cpu_idles hos (by simp [gets, hpc]) (by simp [hpc]) rfl (by simpa using hnone)
      (by simpa using hrested (Or.inl hnone))

theorem ldRoutine_keeps (hstep : s.os.ldRoutine c = some os) : os.cpu = s.os.cpu ∧
    (os.mlq = s.os.mlq ∨ ∃ prio proc, s.os.mlq.putMlqProc prio proc = some os.mlq) ∧
    ∀ p < Os.loaded c s.os, os.pcb p = s.os.pcb p := by
  obtain ⟨hcpu, -, hpcb⟩ := Os.ldRoutine_frame hstep
  refine ⟨hcpu, ?_, hpcb⟩
  cases Os.ldRoutine_cases hstep with
  | adds hld hput => exact Or.inr ⟨_, _, hput⟩
  | _ => exact Or.inl rfl

theorem Inv.others (h : Inv c i s) (hos : Os.Inv c os) (hnum : c.numCpus = 1) (hcpu : os.cpu = s.os.cpu)
    (hmlq : os.mlq = s.os.mlq ∨ ∃ prio proc, s.os.mlq.putMlqProc prio proc = some os.mlq)
    (hpcb : ∀ p < Os.loaded c s.os, os.pcb p = s.os.pcb p) :
    Inv c i { s with os := os, tally := s.tally.watch os.mlq.busy } := by
  refine h.goes hos hmlq (by rw [hcpu]; exact h.rested) ?_ (fun hsource p hp => ?_)
  · rw [owes, hcpu, ← owes]
  · rw [hcpu] at hp
    rw [Short, hcpu, hpcb p (h.os.held_lt (by omega) hp), ← Short]
    exact h.short hsource p hp

theorem step_inv (hnum : c.numCpus = 1) {s' : Metered} {a : OsAct} (hstep : guard (step c) (oneSlot c i) s a = some s')
    (h : Inv c i s) : Inv c i s' := by
  obtain ⟨hone, hstep⟩ := guard_some.1 hstep
  obtain ⟨os, hos, rfl⟩ := Option.map_eq_some_iff.1 hstep
  have hinv : Os.Inv c os := Os.step_inv (by omega) hos h.os
  cases a with
  | timer =>
    obtain ⟨t, -, rfl⟩ := Os.devStep_some hos
    simpa using h.others hinv hnum rfl (Or.inl rfl) (fun _ _ => rfl)
  | loader =>
    obtain ⟨hcpu, hmlq, hpcb⟩ := ldRoutine_keeps hos
    simpa using h.others hinv hnum hcpu hmlq hpcb
  | cpu k =>
    simp only [Os.step] at hos
    split at hos
    · obtain rfl : k = 0 := by omega
      have hcpu := h.cpuRoutine hinv hone hnum hos
      simpa [afterCpu] using hcpu
    · cases hos

end Step

/-- **A queue's slots bound its time.**  On one CPU, in a run in which every process dispatched from queue `i` has one
instruction left at most, or `time_slot` is 1, the CPU runs processes of queue `i` in no more timer slots between two
refills than `MAX_PRIO` minus the priority. -/
theorem slots_bound_time (c : Config) (hnum : c.numCpus = 1) {i : Nat} (hi : i < maxPrio) {s : Metered}
    (h : Reach (guard (step c) (oneSlot c i)) start s) : s.ran i ≤ maxPrio - i := by
  have hinv : Inv c i s := h.inv (start_inv c i) (fun ha hs => step_inv hnum ha hs)
  have hpaid := hinv.paid
  have := hinv.epoch.round.within i (Finset.mem_range.2 hi)
  dsimp only at this
  omega

/-- One process of priority 138 with two instructions, `time_slot` 1: two slots, each of a dispatch of its own. -/
theorem slots_bound_time_twoSlots : ∃ s, Reach (guard (step ⟨1, 1, 1, fun _ => 0, fun _ => 138, fun _ => 2⟩)
    (oneSlot ⟨1, 1, 1, fun _ => 0, fun _ => 138, fun _ => 2⟩ 138)) start s ∧ s.ran 138 = 2 ∧
      s.ran 138 ≤ maxPrio - 138 := by
  have hsome : (runActions (guard (step ⟨1, 1, 1, fun _ => 0, fun _ => 138, fun _ => 2⟩)
      (oneSlot ⟨1, 1, 1, fun _ => 0, fun _ => 138, fun _ => 2⟩ 138))
      (repeated [(4, .loader), (4, .cpu 0), (7, .timer), (6, .cpu 0)])
      start).any (fun s => s.ran 138 = 2) = true := by
    decide +kernel
  obtain ⟨s, hs, hq⟩ := (Option.any_eq_true _ _).1 hsome
  have hreach := reach_of_runActions _ hs
  exact ⟨s, hreach, of_decide_eq_true hq, slots_bound_time _ rfl (by decide) hreach⟩

/-- One process of priority 138 with three instructions, `time_slot` 3: one dispatch of the two there may be, and
the process has had three timer slots. -/
theorem slots_bound_time_fails : ¬ ∀ c : Config, c.numCpus = 1 → 1 ≤ c.timeSlot → (∀ p, c.prio p < maxPrio) →
    ∀ s, Reach (step c) start s → ∀ i < maxPrio, s.ran i ≤ maxPrio - i := by
  intro hall
  have hsome : (runActions (step ⟨3, 1, 1, fun _ => 0, fun _ => 138, fun _ => 3⟩)
      (repeated [(4, .loader), (4, .cpu 0), (7, .timer), (3, .loader), (5, .cpu 0), (7, .timer), (5, .cpu 0)]) start).any
      (fun s => s.ran 138 = 3) = true := by
    decide +kernel
  obtain ⟨s, hs, hq⟩ := (Option.any_eq_true _ _).1 hsome
  have := hall _ rfl (by decide) (fun _ => (by decide : 138 < maxPrio)) s (reach_of_runActions _ hs) 138 (by decide)
  rw [of_decide_eq_true hq] at this
  exact absurd this (by decide)

end Metered

end OsSim
