import Mathlib.Logic.Hydra
import OsSim.Mutexes
import OsSim.Termination
/-!
# Completion — the simulator comes to its end
The threads of `os.c` come to their ends when the instructions they run return, and an instruction is a program that
ends after finitely many operations, if its search of a free list ends: one that has not ended after the turns it is
given is an operation without a meaning.  What holds an instruction up is such an operation, or a mutex whose owner
goes on.
-/
namespace OsSim

open Atomic Prog System Relation

namespace Sim

def waits (w : Workload) (x : Sim) : SimAct → Bool
  | .timer => Os.waits w.config x.os .timer
  | .loader => Os.waits w.config x.os .loader
  | .cpu i _ => !unreturned (x.prog i) && Os.waits w.config x.os (.cpu i)

def Ended (w : Workload) (x : Sim) : Prop := Os.Over w.config x.os ∧ ∀ i, unreturned (x.prog i) = false

def unfinished (w : Workload) (x : Sim) : Multiset (Code (CpuPcb × Int)) := Family.all w.numCpus (fun i => [x.prog i])

/-- What is left to do: first what `Os` has, then what the instructions have. -/
def left (w : Workload) (x : Sim) : Nat × Multiset (Code (CpuPcb × Int)) := (Os.left w.config x.os, unfinished w x)

theorem left_wf : WellFounded (Prod.Lex (α := Nat) (β := Multiset (Code (CpuPcb × Int))) (· < ·) (CutExpand Part)) :=
  Nat.lt_wfRel.wf.prod_lex part_wf.cutExpand

section Step

variable {w : Workload} {x y : Sim}

theorem unfinished_operates {i : Nat} (hi : i < w.numCpus) {o : Op} {k : o.Res → Code (CpuPcb × Int)} {r : o.Res}
    (hprog : x.prog i = .op o k) (hrest : y.prog = Function.update x.prog i (k r)) :
    CutExpand Part (unfinished w y) (unfinished w x) := by
  refine ⟨{k r}, .op o k, fun p hp => ?_, ?_⟩
  · rw [Multiset.mem_singleton.1 hp]
    exact Part.rest (S := memSig) o k r
  · have hupdate : (fun j => [y.prog j]) = Function.update (fun j => [x.prog j]) i [k r] := by
      funext j
      by_cases hj : j = i
      · subst hj
        simp [hrest]
      · simp [hrest, hj]
    have hperm := Family.all_update hi (fun j => [x.prog j]) [k r]
    simp only [hprog] at hperm
    rw [unfinished, hupdate, unfinished]
    exact Multiset.coe_eq_coe.2 hperm

theorem step_left (hnum : 1 ≤ w.numCpus) {m : Machine} (h : Reach (step w) (start m) x) {a : SimAct}
    (hstep : step w x a = some y) :
    Prod.Lex (· < ·) (CutExpand Part) (left w y) (left w x) ∨ left w y = left w x ∧ waits w x a = true := by
  have hreach := os_reach h
  -- an action of the scheduler, after which the instructions are what they are unless it ran one
  have hos : ∀ {b : OsAct} {os : Os}, Os.step w.config x.os b = some os → y.os = os →
      (Os.waits w.config x.os b = true → y.prog = x.prog ∧ waits w x a = true) →
      Prod.Lex (· < ·) (CutExpand Part) (left w y) (left w x) ∨ left w y = left w x ∧ waits w x a = true := by
    rintro b os hb rfl hwait
    have hspent := Os.step_left hnum hreach hb
    by_cases hless : Os.left w.config y.os < Os.left w.config x.os
    · exact Or.inl (.left _ _ hless)
    · have hwaits : Os.waits w.config x.os b = true := by
        by_contra hnot
        rw [if_neg hnot] at hspent
        omega
      obtain ⟨hprog, hwaits'⟩ := hwait hwaits
      refine Or.inr ⟨Prod.ext ?_ ?_, hwaits'⟩
      · rw [if_pos hwaits] at hspent
        exact Nat.le_antisymm hspent (Nat.le_of_not_lt hless)
      · simp only [left, unfinished, hprog]
  cases a with
  | timer =>
    obtain ⟨os, hb, rfl⟩ := Option.map_eq_some_iff.1 hstep
    exact hos (b := .timer) hb rfl (fun hwaits => ⟨rfl, hwaits⟩)
  | loader =>
    obtain ⟨os, hb, rfl⟩ := Option.map_eq_some_iff.1 hstep
    exact hos (b := .loader) hb rfl (fun hwaits => ⟨rfl, hwaits⟩)
  | cpu i turns =>
    simp only [step] at hstep
    split at hstep
    · rename_i hi
      split at hstep
      · rename_i o k hprog
        obtain ⟨⟨s, r⟩, hact, rfl⟩ := Option.map_eq_some_iff.1 hstep
        exact Or.inl (.right _ (unfinished_operates hi hprog rfl))
      · rename_i r hprog
        obtain ⟨os, hb, hy⟩ := Option.map_eq_some_iff.1 hstep
        have hact : Os.step w.config x.os (.cpu i) = some os := (if_pos hi).trans hb
        refine hos hact ?_ (fun hwaits => ⟨?_, by simp [waits, hprog, unreturned, hwaits]⟩)
        · rw [← hy]
          split <;> rfl
        · -- it waits in `next_slot`, and does not call `run`
          rw [← hy]
          split
          · rename_i p hpc hp
            have hinv : Os.Inv w.config x.os := hreach.inv (Os.start_inv _) (fun ha hs => Os.step_inv hnum ha hs)
            have hphase := hinv.cpuPhase i hi
            rw [hpc] at hphase
            have hout : (x.os.timer.dev (w.config.cpuDev i)).phase = .outside := hphase
            simp [Os.waits, Os.devWaits, hout] at hwaits
          · rfl
    · cases hstep

/-- **Somebody can go on** while a thread has not ended, or a CPU has come to an operation without a meaning. -/
theorem someone_goes_on (hnum : 1 ≤ w.numCpus) (hfits : Os.Fits w.config) {m : Machine} (h : Reach (step w) (start m) x) :
    Ended w x ∨ (∃ a y, waits w x a = false ∧ step w x a = some y) ∨ ∃ i, Faults x i := by
  by_cases hin : ∃ i, unreturned (x.prog i) = true
  · obtain ⟨i, hi⟩ := hin
    have hmoves : ∀ j, Moves w x j → ∃ a y, waits w x a = false ∧ step w x a = some y := fun j hj => by
      obtain ⟨y, hy⟩ := hj.2 0
      exact ⟨.cpu j 0, y, by simp [waits, hj.1], hy⟩
    obtain ⟨holds, hlocks⟩ := reach_locks h
    have hsim : Inv w x := h.inv (start_inv w m) (fun ha hs => step_inv hnum ha hs)
    rcases hsim.goesOn hlocks hi with hi | hi | ⟨-, j, -, -, -, -, hj | hj⟩
    · exact Or.inr (Or.inl (hmoves i hi))
    · exact Or.inr (Or.inr ⟨i, hi⟩)
    · exact Or.inr (Or.inl (hmoves j hj))
    · exact Or.inr (Or.inr ⟨j, hj⟩)
  · have hback : ∀ i, unreturned (x.prog i) = false := fun i => by
      by_contra hi
      exact hin ⟨i, by simpa using hi⟩
    have hreach := os_reach h
    have hsteady : Os.Steady w.config x.os := hreach.inv (Os.start_steady _) (fun ha hs => hs.step ha)
    have hinv : Os.Inv w.config x.os := hreach.inv (Os.start_inv _) (fun ha hs => Os.step_inv hnum ha hs)
    by_cases hover : Os.Over w.config x.os
    · exact Or.inl ⟨hover, hback⟩
    · obtain ⟨a, hwaits, hgoes⟩ := Os.someone_goes_on hfits hinv hsteady hover
      obtain ⟨os, hos⟩ := Option.isSome_iff_exists.1 hgoes
      refine Or.inr (Or.inl ?_)
      cases a with
      | timer => exact ⟨.timer, _, hwaits, Option.map_eq_some_iff.2 ⟨os, hos, rfl⟩⟩
      | loader => exact ⟨.loader, _, hwaits, Option.map_eq_some_iff.2 ⟨os, hos, rfl⟩⟩
      | cpu i =>
        simp only [Os.step] at hos
        split at hos
        · rename_i hi
          cases hprog : x.prog i with
          | op o k => simpa [hprog, unreturned] using hback i
          | ret r =>
            have hlt : i < w.numCpus := hi
            have hsome : (step w x (.cpu i 0)).isSome := by simp [step, hlt, hprog, advance, hos]
            obtain ⟨y, hy⟩ := Option.isSome_iff_exists.1 hsome
            exact ⟨.cpu i 0, y, by simp [waits, hwaits], hy⟩
        · cases hos

end Step

/-- **The simulator comes to its end**, whatever the scheduling.  From some point on every action of an infinite run
waits; and in every state reached either all threads have ended, or one of them can go on without waiting, or a CPU has
come to an operation without a meaning. -/
theorem simulator_ends (w : Workload) (hnum : 1 ≤ w.numCpus) (hfits : Os.Fits w.config) (m : Machine) :
    (∀ (f : Nat → Sim) (acts : Nat → SimAct), f 0 = start m → (∀ n, step w (f n) (acts n) = some (f (n + 1))) →
        ∃ n, ∀ k, n ≤ k → waits w (f k) (acts k) = true) ∧
      ∀ x, Reach (step w) (start m) x →
        Ended w x ∨ (∃ a y, waits w x a = false ∧ step w x a = some y) ∨ ∃ i, Faults x i := by
  refine ⟨fun f acts h0 hrun => ?_, fun x hx => someone_goes_on hnum hfits hx⟩
  have hfirst : Reach (step w) (start m) (f 0) := h0 ▸ .refl
  exact eventually_waits left_wf (P := Reach (step w) (start m)) (m := left w) (fun {x a y} ha hs => hs.tail ⟨a, ha⟩)
    (fun ha hs => step_left hnum hs ha) hfirst hrun

/-- The two CPUs of `bothAlloc`, one of which waits for the mutex of `mm.c`: somebody can go on. -/
theorem simulator_ends_bothAlloc : ∃ x, Reach (step bothAlloc) (start (boot 1024 1024 1024)) x ∧
    lockOf (x.prog 1) = some .mm ∧ x.shared.owner .mm = some 0 ∧
      (Ended bothAlloc x ∨ (∃ a y, waits bothAlloc x a = false ∧ step bothAlloc x a = some y) ∨ ∃ i, Faults x i) := by
  have hsome : (runActions (step bothAlloc) (repeated [(4, .loader), (5, .cpu 0 5), (4, .cpu 1 5), (9, .timer),
    (6, .loader), (12, .cpu 0 5), (9, .cpu 1 5)]) (start (boot 1024 1024 1024))).any
      (fun x => lockOf (x.prog 1) = some .mm ∧ x.shared.owner .mm = some 0) = true := by
    decide +kernel
  obtain ⟨x, hx, hq⟩ := (Option.any_eq_true _ _).1 hsome
  obtain ⟨hlock, hmm⟩ := of_decide_eq_true hq
  have hreach := reach_of_runActions _ hx
  have hfits : Os.Fits bothAlloc.config :=
    ⟨fun _ _ => Nat.succ_pos 139, fun q => (List.length_filter_le _ _).trans (by decide)⟩
  exact ⟨x, hreach, hlock, hmm, (simulator_ends bothAlloc (by decide) hfits _).2 x hreach⟩

end Sim

end OsSim
