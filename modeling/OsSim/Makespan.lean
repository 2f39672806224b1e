import Mathlib.Algebra.BigOperators.Group.Finset.Piecewise
import Mathlib.Algebra.Order.BigOperators.Group.Finset
import Mathlib.Data.Finset.Lattice.Fold
import Mathlib.Order.Lattice.Nat
import Mathlib.Tactic.Ring
import OsSim.Work
/-!
# Makespan — when the simulation is over

Once all processes have been added, a slot is full, every CPU running a process in it, or it takes every process left
one instruction further: nothing waits.  So the slots are at most the work of all processes shared out among the CPUs,
and the longest process besides.  Like `Os` this takes every `run` to return and `cnt_proc_done` to count every
process: a CPU with nothing to run stops at that count only.
-/
namespace OsSim

open System

namespace Worked

open Os

/-! ## The calls of `run` on each process -/

/-- How often `run` has been called on a process that a CPU holds at `pc`, of `need` calls. -/
def Called (pc : CpuPc) (runs need : Nat) : Prop :=
  match pc with
  | .count | .recheck | .run => runs < need
  | _ => 1 ≤ runs

/-- **`run` is called `need` times on each process**, as far as it has come. -/
structure Counts (c : Config) (s : Worked) : Prop where
  le : ∀ p, s.runs p ≤ c.need p
  waiting : ∀ p ∈ s.os.mlq.procs, s.runs p < c.need p
  held : ∀ i < c.numCpus, ∀ p, (s.os.cpu i).proc = some p → Called (s.os.cpu i).pc (s.runs p) (c.need p)
  pc : ∀ p, c.size p ≠ 0 → s.runs p = (s.os.pcb p).pc
  new : ∀ p, loaded c s.os ≤ p → s.runs p = 0
  finished : ∀ p ∈ s.os.finished, s.runs p = c.need p

theorem need_pos (c : Config) (p : Nat) : 0 < c.need p := Nat.lt_of_lt_of_le Nat.one_pos (le_max_right _ _)

theorem start_counts (c : Config) : Counts c start := by
  refine ⟨fun p => Nat.zero_le _, fun p hp => ?_, fun i _ p hp => (by cases hp), fun p _ => rfl, fun p _ => rfl,
    fun p hp => (by cases hp)⟩
  exact need_pos c p

section Counts

variable {c : Config} {s s' : Worked}

theorem Counts.elsewhere (h : Counts c s) {os : Os}
    (hwaiting : ∀ p ∈ os.mlq.procs, s.runs p < c.need p)
    (hheld : ∀ i < c.numCpus, ∀ p, (os.cpu i).proc = some p → Called (os.cpu i).pc (s.runs p) (c.need p))
    (hpc : ∀ p, (os.pcb p).pc = (s.os.pcb p).pc ∨ loaded c s.os ≤ p ∧ (os.pcb p).pc = 0)
    (hloaded : loaded c s.os ≤ loaded c os) (hfinished : ∀ p ∈ os.finished, s.runs p = c.need p) :
    Counts c { s with os := os } := by
  refine ⟨h.le, hwaiting, hheld, fun p hp => ?_, fun p hp => h.new p (hloaded.trans hp), hfinished⟩
  rcases hpc p with hsame | ⟨hnew, hzero⟩
  · exact (h.pc p hp).trans hsame.symm
  · exact (h.new p hnew).trans hzero.symm

theorem Counts.ended (h : Counts c s) {i p : Nat} (hi : i < c.numCpus) (hpc : (s.os.cpu i).pc = .top)
    (hp : (s.os.cpu i).proc = some p) (hend : (s.os.pcb p).pc = c.size p) : s.runs p = c.need p := by
  have hle := h.le p
  have hpos : 1 ≤ s.runs p := by simpa [hpc, Called] using h.held i hi p hp
  unfold Config.need at hle ⊢
  by_cases hsize : c.size p = 0
  · omega
  · have := h.pc p hsize
    omega

theorem Counts.goesOn (h : Counts c s) (hos : Inv c s.os) {p : Nat} (hend : (s.os.pcb p).pc ≠ c.size p) :
    s.runs p < c.need p := by
  have hle := (hos.executed p).2
  have hsize : c.size p ≠ 0 := by omega
  have := h.pc p hsize
  unfold Config.need
  omega

theorem Counts.goes (h : Counts c s) (hos : Inv c s.os) {i : Nat} (hi : i < c.numCpus) (hpc : (s.os.cpu i).pc ≠ .run)
    {os : Os} (hstep : s.os.cpuRoutine c i = some os) : Counts c { s with os := os } := by
  obtain ⟨hcpu, -, -, hld⟩ := cpuRoutine_frame hstep
  have hloaded : loaded c os = loaded c s.os := by rw [loaded, hld, loaded]
  have hperm := Mlq.getMlqProc_perm s.os.mlq
  have hleft : ∀ p ∈ s.os.mlq.getMlqProc.1.procs, s.runs p < c.need p := fun p hp =>
    h.waiting p (hperm.mem_iff.2 (List.mem_append_left _ hp))
  have htaken : ∀ p, s.os.mlq.getMlqProc.2 = some p → s.runs p < c.need p := fun p hp =>
    h.waiting p (hperm.mem_iff.2 (List.mem_append_right _ (by simp [hp])))
  have hold := h.held i hi
  -- what is left to say is where the CPU's own process is
  have hgoes : (∀ p, (os.pcb p).pc = (s.os.pcb p).pc) → (∀ p ∈ os.mlq.procs, s.runs p < c.need p) →
      (∀ p ∈ os.finished, s.runs p = c.need p) →
      (∀ p, (os.cpu i).proc = some p → Called (os.cpu i).pc (s.runs p) (c.need p)) → Counts c { s with os := os } := by
    intro hpcb hwaiting hfinished hself
    refine h.elsewhere hwaiting (fun j hj p hp => ?_) (fun p => Or.inl (hpcb p)) hloaded.ge hfinished
    by_cases hji : j = i
    · subst hji
      exact hself p hp
    · rw [hcpu j hji] at hp ⊢
      exact h.held j hj p hp
  cases cpuRoutine_cases hstep with
  | fetches hfrom hnone =>
    refine hgoes (fun _ => rfl) hleft h.finished (fun p hp => ?_)
    simp only [setCpu_self] at hp ⊢
    simpa [hp, Called] using htaken p hp
  | @finishes q hfrom hq hend =>
    refine hgoes (fun _ => rfl) hleft (fun p hp => ?_) (fun p hp => ?_)
    · rcases List.mem_append.1 hp with hp | hp
      · exact h.finished p hp
      · cases List.mem_singleton.1 hp
        exact h.ended hi hfrom hq hend
    · simp only [setCpu_self] at hp ⊢
      exact htaken p hp
  | @putsBack q m hfrom hq hend hzero hput =>
    refine hgoes (fun _ => rfl) (fun p hp => ?_) h.finished (fun p hp => (by simp at hp))
    rcases List.mem_append.1 ((Mlq.putMlqProc_perm hput).mem_iff.1 hp) with hp | hp
    · exact h.waiting p hp
    · cases List.mem_singleton.1 hp
      exact h.goesOn hos hend
  | @keeps q hfrom hq hend hleft' =>
    refine hgoes (fun _ => rfl) h.waiting h.finished (fun p hp => ?_)
    have hpq : p = q := by simpa [hq, eq_comm] using hp
    subst hpq
    simpa [Called] using h.goesOn hos hend
  | allDone hfrom | waits hfrom =>
    refine hgoes (fun _ => rfl) h.waiting h.finished (fun p hp => ?_)
    have hnone := hos.idle i hi (Or.inl hfrom)
    simp [hnone] at hp
  | counts hfrom =>
    refine hgoes (fun _ => rfl) h.waiting h.finished (fun p hp => ?_)
    have hsame : (s.os.cpu i).proc = some p := by simpa using hp
    simpa [hfrom, Called] using hold p hsame
  | gets hfrom =>
    refine hgoes (fun _ => rfl) hleft h.finished (fun p hp => ?_)
    simp only [setCpu_self] at hp ⊢
    exact htaken p hp
  | leaves hfrom hnone | idles hfrom hnone =>
    refine hgoes (fun _ => rfl) h.waiting h.finished (fun p hp => ?_)
    simp [hnone] at hp
  | @dispatches q hfrom hq =>
    refine hgoes (fun _ => rfl) h.waiting h.finished (fun p hp => ?_)
    have hsame : (s.os.cpu i).proc = some p := by simpa using hp
    simpa [hfrom, Called] using hold p hsame
  | runs hfrom => exact absurd hfrom hpc
  | enters hfrom | sleeps hfrom | returns hfrom | detaches hfrom =>
    refine hgoes (fun _ => rfl) h.waiting h.finished (fun p hp => ?_)
    have hsame : (s.os.cpu i).proc = some p := by simpa using hp
    simpa [hfrom, Called] using hold p hsame

theorem runProc_queues (c : Config) (s : Os) (p : Nat) :
    (s.runProc c p).mlq = s.mlq ∧ (s.runProc c p).finished = s.finished := by
  unfold runProc
  split <;> exact ⟨rfl, rfl⟩

theorem runProc_pc (c : Config) (s : Os) (p : Nat) :
    ((s.runProc c p).pcb p).pc = if (s.pcb p).pc < c.size p then (s.pcb p).pc + 1 else (s.pcb p).pc := by
  unfold runProc
  split <;> simp

theorem Counts.runs (h : Counts c s) (hos : Inv c s.os) {i p : Nat} (hi : i < c.numCpus) (hpc : (s.os.cpu i).pc = .run)
    (hp : (s.os.cpu i).proc = some p) {os : Os} (hstep : s.os.cpuRoutine c i = some os) :
    Counts c { s with os := os, runs := Function.update s.runs p (s.runs p + 1), now := s.now ++ [p] } := by
  have hdue : s.runs p < c.need p := by simpa [hpc, Called] using h.held i hi p hp
  have hlt := hos.held_lt hi hp
  have hplace := hos.places p
  have hheld : 0 < (Os.held c s.os).count p := List.count_pos_iff.2 (Family.mem_all.2 ⟨i, hi, by simp [hp]⟩)
  rw [if_pos hlt] at hplace
  have hother : ∀ q, q ≠ p → Function.update s.runs p (s.runs p + 1) q = s.runs q := fun q hq =>
    Function.update_of_ne hq _ _
  obtain ⟨hcpu, -, hpcb, hld⟩ := cpuRoutine_frame hstep
  have hloaded : loaded c os = loaded c s.os := by rw [loaded, hld, loaded]
  obtain ⟨hmlq, hfin⟩ := runProc_queues c s.os p
  have hself := runProc_pc c s.os p
  cases cpuRoutine_cases hstep with
  | @runs q hfrom hq =>
    obtain rfl : q = p := Option.some.inj (hq.symm.trans hp)
    refine ⟨fun r => ?_, fun r hr => ?_, fun j hj r hr => ?_, fun r hr => ?_, fun r hr => ?_, fun r hr => ?_⟩
    · by_cases hrq : r = q
      · subst hrq
        have hself : Function.update s.runs r (s.runs r + 1) r = s.runs r + 1 := Function.update_self _ _ _
        exact hself.trans_le hdue
      · exact (hother r hrq).trans_le (h.le r)
    · change r ∈ (s.os.runProc c q).mlq.procs at hr
      rw [hmlq] at hr
      have hrq : r ≠ q := by
        rintro rfl
        have := List.count_pos_iff.2 hr
        omega
      exact (hother r hrq).trans_lt (h.waiting r hr)
    · by_cases hji : j = i
      · subst hji
        have hrq : r = q := by simpa [hq, eq_comm] using hr
        subst hrq
        simp [Called]
      · simp only [hcpu j hji] at hr ⊢
        have hrq : r ≠ q := by
          rintro rfl
          exact hos.holder_unique hj hi hji hr hq
        rw [hother r hrq]
        exact h.held j hj r hr
    · by_cases hrq : r = q
      · subst hrq
        have hruns := h.pc r hr
        have hneed : c.need r = c.size r := max_eq_left (Nat.one_le_iff_ne_zero.2 hr)
        change _ = ((s.os.runProc c r).pcb r).pc
        rw [hself, if_pos (by omega)]
        simp [hruns]
      · have hsame := hpcb r (fun e => hrq (Option.some.inj (e.symm.trans hq)))
        exact (hother r hrq).trans ((h.pc r hr).trans (congrArg Pcb.pc hsame).symm)
    · rw [hloaded] at hr
      exact (hother r (by omega)).trans (h.new r hr)
    · change r ∈ (s.os.runProc c q).finished at hr
      rw [hfin] at hr
      have hrq : r ≠ q := by
        rintro rfl
        have := List.count_pos_iff.2 hr
        omega
      exact (hother r hrq).trans (h.finished r hr)
  | _ => simp_all

theorem Counts.loader (h : Counts c s) (hos : Inv c s.os) {os : Os} (hstep : s.os.ldRoutine c = some os) :
    Counts c { s with os := os } := by
  obtain ⟨hcpu, -, hpcb⟩ := ldRoutine_frame hstep
  have hmono := (ldRoutine_adds hstep hos.ldOk).2
  have hfin : os.finished = s.os.finished := by cases ldRoutine_cases hstep <;> rfl
  refine h.elsewhere (fun p hp => ?_) (by rw [hcpu]; exact h.held) (fun p => ?_) hmono (by rw [hfin]; exact h.finished)
  · cases ldRoutine_cases hstep with
    | @adds i m hld hput =>
      rcases List.mem_append.1 ((Mlq.putMlqProc_perm hput).mem_iff.1 hp) with hp | hp
      · exact h.waiting p hp
      · cases List.mem_singleton.1 hp
        rw [h.new p (by simp [loaded, hld])]
        exact need_pos c p
    | _ => exact h.waiting p hp
  · cases ldRoutine_cases hstep with
    | @loads i hld hi =>
      by_cases hpi : p = i
      · subst hpi
        exact Or.inr ⟨by simp [loaded, hld], by simp⟩
      · exact Or.inl (by simp [hpi])
    | _ => exact Or.inl rfl

theorem Counts.step (h : Counts c s) (hos : Inv c s.os) {a : OsAct} (hstep : step c s a = some s') : Counts c s' := by
  cases step_cases hstep with
  | runs hi hpc hp hcpu => exact h.runs hos hi hpc hp hcpu
  | goes hi hpc hcpu => exact h.goes hos hi hpc hcpu
  | loader hld => exact h.loader hos hld
  | timer ht htime => exact h.elsewhere h.waiting h.held (fun _ => Or.inl rfl) (Nat.le_refl _) h.finished
  | slotEnds ht htime hall => exact ⟨h.le, h.waiting, h.held, h.pc, h.new, h.finished⟩

end Counts

/-! ## The slots once all processes have been added -/

def longest (c : Config) : Nat := (Finset.range c.numProcesses).sup c.need

theorem need_le_longest {c : Config} {p : Nat} (hp : p < c.numProcesses) : c.need p ≤ longest c :=
  Finset.le_sup (f := c.need) (Finset.mem_range.2 hp)

def calls (c : Config) (s : Worked) : Nat := ∑ p ∈ Finset.range c.numProcesses, s.runs p

/-- **What the slots over have done**: a full one has taken as many calls of `run` as there are CPUs, and each of the
others one for every process not at its end. -/
structure Busy (c : Config) (s : Worked) : Prop where
  slots : s.os.timer.time = s.early + s.full + s.part + s.calm
  notLate : s.late c = false → s.full = 0 ∧ s.part = 0 ∧ s.calm = 0
  early_le : s.early ≤ lastLoad c + 1
  work : c.numCpus * s.full + s.part + (if s.late c then s.now.length else 0) ≤ calls c s
  part_le : ∀ p < c.numProcesses, s.runs p < c.need p → s.part ≤ s.runs p
  part_now : s.late c = true → ∀ p ∈ s.now, s.part + 1 ≤ s.runs p
  part_longest : s.part ≤ longest c

theorem start_busy (c : Config) : Busy c start := by
  refine ⟨rfl, fun _ => ⟨rfl, rfl, rfl⟩, Nat.zero_le _, ?_, fun _ _ _ => Nat.zero_le _, fun _ p hp => (by cases hp),
    Nat.zero_le _⟩
  have hnone : (if start.late c = true then start.now.length else 0) = 0 := by split <;> rfl
  rw [hnone]
  exact Nat.zero_le _

section Busy

variable {c : Config} {s s' : Worked}

theorem length_held {s : Os} (hsome : ∀ i < c.numCpus, (s.cpu i).proc ≠ none) : (Os.held c s).length = c.numCpus := by
  have hone : ∀ i ∈ List.range c.numCpus, ((s.cpu i).proc.toList).length = 1 := fun i hi => by
    obtain ⟨p, hp⟩ := Option.ne_none_iff_exists'.1 (hsome i (List.mem_range.1 hi))
    simp [hp]
  rw [Os.held, Family.all, List.length_flatMap, List.map_congr_left hone]
  simp

theorem held_nodup {s : Os} (hos : Inv c s) : (Os.held c s).Nodup := by
  refine List.nodup_iff_count_le_one.2 (fun p => ?_)
  have := hos.places p
  split at this <;> omega

/-- **When a slot is over** that began after the last process was added: what the CPUs hold has been run in it, and if
they are not all busy, nothing waits. -/
theorem Fair.over_late (h : Fair c s) (hall : ∀ k < c.numDevs, Timer.Passed s.os.timer.pc k) (hlate : s.late c = true) :
    (∀ p ∈ Os.held c s.os, p ∈ s.now) ∧ loaded c s.os = c.numProcesses ∧
      ((Os.held c s.os).length ≠ c.numCpus → s.os.mlq.procs = []) := by
  have hseen : c.numProcesses ≤ s.seen := of_decide_eq_true hlate
  have hle := h.os.loaded_le
  have hseen_le := h.seen_le
  refine ⟨fun p hp => ?_, by omega, fun hbusy => ?_⟩
  · obtain ⟨i, hi, hmem⟩ := Family.mem_all.1 hp
    have hproc : (s.os.cpu i).proc = some p := by simpa using hmem
    rcases h.os.slotOver hall hi with hslot | hstopped
    · exact h.ran i hi (Or.inr hslot) p hproc
    · exact absurd (h.os.idle i hi (by simp [hstopped])) (by simp [hproc])
  · have hfree : ∃ i < c.numCpus, (s.os.cpu i).proc = none := by
      by_contra hnone
      push Not at hnone
      exact hbusy (length_held hnone)
    obtain ⟨i, hi, hproc⟩ := hfree
    have hidle : Idle c s.os i := by
      rcases h.os.slotOver hall hi with hslot | hstopped
      · exact ⟨hproc, Or.inl (Or.inr hslot)⟩
      · exact ⟨hproc, by simp [hstopped]⟩
    have hwait := h.conserves ⟨i, hi, hidle⟩
    rw [getting_over h.os hall, List.length_nil] at hwait
    exact List.eq_nil_of_length_eq_zero (by omega)

theorem sum_change {n i : Nat} (hi : i < n) {f g : Nat → Nat} (h : ∀ j < n, j ≠ i → g j = f j) :
    (∑ j ∈ Finset.range n, g j) + f i = (∑ j ∈ Finset.range n, f j) + g i := by
  have hmem := Finset.mem_range.2 hi
  have hrest : ∑ j ∈ Finset.range n \ {i}, g j = ∑ j ∈ Finset.range n \ {i}, f j :=
    Finset.sum_congr rfl (fun j hj => by
      obtain ⟨hj, hji⟩ := Finset.mem_sdiff.1 hj
      exact h j (Finset.mem_range.1 hj) (fun e => hji (Finset.mem_singleton.2 e)))
  rw [Finset.sum_eq_add_sum_sdiff_singleton_of_mem hmem f, Finset.sum_eq_add_sum_sdiff_singleton_of_mem hmem g, hrest]
  omega

theorem calls_update {p : Nat} (hp : p < c.numProcesses) (s : Worked) (os : Os) (now : List Nat) :
    calls c { s with os := os, runs := Function.update s.runs p (s.runs p + 1), now := now } = calls c s + 1 := by
  have hsum := sum_change hp (f := s.runs) (g := Function.update s.runs p (s.runs p + 1))
    (fun j _ hj => Function.update_of_ne hj _ _)
  rw [Function.update_self] at hsum
  simp only [calls]
  omega

theorem Busy.runs (h : Busy c s) (hos : Inv c s.os) (hcounts : Counts c s) {i p : Nat} (hi : i < c.numCpus)
    (hpc : (s.os.cpu i).pc = .run) (hp : (s.os.cpu i).proc = some p) {os : Os} (htime : os.timer.time = s.os.timer.time) :
    Busy c { s with os := os, runs := Function.update s.runs p (s.runs p + 1), now := s.now ++ [p] } := by
  have hdue : s.runs p < c.need p := by simpa [hpc, Called] using hcounts.held i hi p hp
  have hlt := (hos.held_lt hi hp).trans_le hos.loaded_le
  have hmono : ∀ q, s.runs q ≤ Function.update s.runs p (s.runs p + 1) q := fun q => by
    by_cases hq : q = p
    · subst hq
      simp
    · rw [Function.update_of_ne hq]
  refine ⟨htime.trans h.slots, h.notLate, h.early_le, ?_, fun q hq hneed => ?_, fun hlate q hq => ?_, h.part_longest⟩
  · rw [calls_update hlt]
    change c.numCpus * s.full + s.part + (if s.late c = true then (s.now ++ [p]).length else 0) ≤ _
    have hwork := h.work
    rw [List.length_append, List.length_singleton]
    split at hwork <;> split <;> first | omega | contradiction
  · have hle := h.part_le q hq
    have := hmono q
    dsimp only at hneed ⊢
    omega
  · dsimp only
    rcases List.mem_append.1 hq with hold | hnew
    · exact (h.part_now hlate q hold).trans (hmono q)
    · cases List.mem_singleton.1 hnew
      rw [Function.update_self]
      exact Nat.succ_le_succ (h.part_le p hlt hdue)

/-- **The slot is over** and counted as one of the four kinds. -/
theorem slotOver_cases (c : Config) (s : Worked) (os : Os) :
    s.late c = false ∧ s.slotOver c os = { s with os := os, seen := loaded c os, now := [], early := s.early + 1 } ∨
    s.late c = true ∧ ((Os.held c os).length = c.numCpus ∧
        s.slotOver c os = { s with os := os, seen := loaded c os, now := [], full := s.full + 1 } ∨
      (Os.held c os).length ≠ c.numCpus ∧ (Os.held c os ≠ [] ∧
          s.slotOver c os = { s with os := os, seen := loaded c os, now := [], part := s.part + 1 } ∨
        Os.held c os = [] ∧ s.slotOver c os = { s with os := os, seen := loaded c os, now := [], calm := s.calm + 1 })) := by
  cases hlate : s.late c with
  | false => exact Or.inl ⟨rfl, by simp [slotOver, hlate]⟩
  | true =>
    refine Or.inr ⟨rfl, ?_⟩
    by_cases hfull : (Os.held c os).length = c.numCpus
    · exact Or.inl ⟨hfull, by simp [slotOver, hlate, hfull]⟩
    · refine Or.inr ⟨hfull, ?_⟩
      by_cases hnil : Os.held c os = []
      · have hzero : (Os.held c os).length = 0 := by rw [hnil, List.length_nil]
        rw [hzero] at hfull
        exact Or.inr ⟨hnil, by simp [slotOver, hlate, hfull, hzero]⟩
      · have hpos : (Os.held c os).length ≠ 0 := fun e => hnil (List.eq_nil_of_length_eq_zero e)
        exact Or.inl ⟨hnil, by simp [slotOver, hlate, hfull, hpos]⟩

theorem Busy.slotEnds (h : Busy c s) (hfair : Fair c s) (hcounts : Counts c s) {os : Os}
    (hall : ∀ k < c.numDevs, Timer.Passed s.os.timer.pc k) (htime : os.timer.time = s.os.timer.time + 1)
    (hcpu : os.cpu = s.os.cpu) (hld : os.loader = s.os.loader) : Busy c (s.slotOver c os) := by
  have hheld : Os.held c os = Os.held c s.os := by rw [Os.held, hcpu, Os.held]
  have hloaded : loaded c os = loaded c s.os := by rw [loaded, hld, loaded]
  have hslots := h.slots
  have hwork := h.work
  have hseen : s.late c = true → loaded c s.os = c.numProcesses := fun hlate => (hfair.over_late hall hlate).2.1
  rcases slotOver_cases c s os with ⟨hlate, heq⟩ | ⟨hlate, hkind⟩
  · obtain ⟨hfull, hpart, hcalm⟩ := h.notLate hlate
    have htimely := hfair.seen_late (by simpa [late] using hlate)
    rw [heq]
    refine ⟨?_, fun _ => ⟨hfull, hpart, hcalm⟩, ?_, ?_, fun p _ _ => ?_, fun _ p hp => (by cases hp), h.part_longest⟩
    · change os.timer.time = s.early + 1 + s.full + s.part + s.calm
      omega
    · change s.early + 1 ≤ _
      omega
    · simp [hfull, hpart]
    · change s.part ≤ _
      omega
  · obtain ⟨hran, hall', hnone⟩ := hfair.over_late hall hlate
    rw [hheld] at hkind
    have hbusy : (Os.held c s.os).length ≤ s.now.length := ((held_nodup hfair.os).subperm hran).length_le
    rw [if_pos hlate] at hwork
    have hstill : decide (c.numProcesses ≤ loaded c os) = true := decide_eq_true (by omega)
    rcases hkind with ⟨hfull, heq⟩ | ⟨hfull, ⟨hsome, heq⟩ | ⟨hnil, heq⟩⟩
    · rw [heq]
      refine ⟨?_, fun hnot => ?_, h.early_le, ?_, h.part_le, fun _ p hp => (by cases hp), h.part_longest⟩
      · change os.timer.time = s.early + (s.full + 1) + s.part + s.calm
        omega
      · exact absurd (hstill.symm.trans hnot) (by simp)
      · change c.numCpus * (s.full + 1) + s.part + (if _ then 0 else 0) ≤ calls c s
        rw [Nat.mul_succ]
        split <;> omega
    · rw [heq]
      have hpos : 0 < (Os.held c s.os).length := List.length_pos_of_ne_nil hsome
      -- nothing waits, so each process left is with a CPU and has been run in this slot
      have hstep : ∀ p < c.numProcesses, s.runs p < c.need p → s.part + 1 ≤ s.runs p := fun p hp hneed => by
        have hplace := hfair.os.places p
        rw [if_pos (by omega), hnone hfull, List.count_nil] at hplace
        have hmem : p ∈ Os.held c s.os := by
          by_contra hnot
          have hfin : p ∈ s.os.finished := by
            refine List.count_pos_iff.1 ?_
            have := List.count_eq_zero.2 hnot
            omega
          have := hcounts.finished p hfin
          omega
        exact h.part_now hlate p (hran p hmem)
      refine ⟨?_, fun hnot => ?_, h.early_le, ?_, hstep, fun _ p hp => (by cases hp), ?_⟩
      · change os.timer.time = s.early + s.full + (s.part + 1) + s.calm
        omega
      · exact absurd (hstill.symm.trans hnot) (by simp)
      · change c.numCpus * s.full + (s.part + 1) + (if _ then 0 else 0) ≤ calls c s
        split <;> omega
      · obtain ⟨p, hp⟩ := List.exists_mem_of_ne_nil _ hsome
        have hlt : p < c.numProcesses := by
          obtain ⟨i, hi, hmem⟩ := Family.mem_all.1 hp
          exact (hfair.os.held_lt hi (by simpa using hmem)).trans_le hfair.os.loaded_le
        exact (h.part_now hlate p (hran p hp)).trans ((hcounts.le p).trans (need_le_longest hlt))
    · rw [heq]
      refine ⟨?_, fun hnot => ?_, h.early_le, ?_, h.part_le, fun _ p hp => (by cases hp), h.part_longest⟩
      · change os.timer.time = s.early + s.full + s.part + (s.calm + 1)
        omega
      · exact absurd (hstill.symm.trans hnot) (by simp)
      · change c.numCpus * s.full + s.part + (if _ then 0 else 0) ≤ calls c s
        split <;> omega

theorem Busy.step (h : Busy c s) (hfair : Fair c s) (hcounts : Counts c s) {a : OsAct} (hstep : step c s a = some s') :
    Busy c s' := by
  have hkeeps : ∀ os : Os, os.timer.time = s.os.timer.time → Busy c { s with os := os } := fun os htime =>
    ⟨htime.trans h.slots, h.notLate, h.early_le, h.work, h.part_le, h.part_now, h.part_longest⟩
  cases step_cases hstep with
  | runs hi hpc hp hos => exact h.runs hfair.os hcounts hi hpc hp (cpuRoutine_time hos)
  | goes hi hpc hos => exact hkeeps _ (cpuRoutine_time hos)
  | loader hos => exact hkeeps _ (ldRoutine_time hos)
  | timer ht htime => exact hkeeps _ htime
  | slotEnds ht htime hall => exact h.slotEnds hfair hcounts hall htime rfl rfl

end Busy

/-! ## The slots with nothing left to run -/

def AllGone : TimerPc → Prop
  | .collect _ fsh event | .asleep _ fsh event => fsh = event
  | _ => True

def Ending : TimerPc → Prop
  | .release _ fsh event => fsh = event
  | .exited => True
  | _ => False

def Stopping (c : Config) (s : Os) (i : Nat) : Prop :=
  (s.cpu i).proc = none ∧ ((s.cpu i).pc = .top ∨ (s.cpu i).pc = .empty ∨ (s.cpu i).pc = .leave ∨ (s.cpu i).pc = .stopped ∨
    (s.cpu i).pc = .slot ∧ (s.timer.dev (c.cpuDev i)).begun = s.timer.time)

/-- **After a slot in which nothing was run** all processes have been counted: the CPUs stop, then the timer. -/
structure Quiet (c : Config) (s : Worked) : Prop where
  late : s.late c = true → Os.Late c s.os
  counted : 1 ≤ s.calm → s.os.cntProcDone = c.numProcesses
  gone : 1 ≤ s.calm → s.os.loader = .gone
  stopping : 1 ≤ s.calm → ∀ i < c.numCpus, Stopping c s.os i
  allGone : 1 ≤ s.calm → AllGone s.os.timer.pc
  ending : 2 ≤ s.calm → Ending s.os.timer.pc
  calm_le : s.calm ≤ 2

theorem start_quiet (c : Config) : Quiet c start := by
  refine ⟨fun hlate => ?_, fun h => (by cases h), fun h => (by cases h), fun h => (by cases h), fun h => (by cases h),
    fun h => (by cases h), Nat.zero_le _⟩
  have hnone : c.numProcesses ≤ 0 := of_decide_eq_true hlate
  exact hnone

section Quiet

variable {c : Config} {s s' : Worked}

theorem timer_pc {n : Nat} {t t' : Timer} {a : TimerAct} (ha : a ≠ .routine) (h : t.step n a = some t') : t'.pc = t.pc := by
  cases a with
  | routine => exact absurd rfl ha
  | enter i =>
    simp only [Timer.step, Timer.enter] at h
    split at h
    · split at h <;> cases h
      rfl
    · cases h
  | test i =>
    simp only [Timer.step, Timer.test] at h
    split at h
    · split at h
      · split at h <;> cases h <;> rfl
      · cases h
    · cases h
  | detach i =>
    simp only [Timer.step, Timer.detach] at h
    split at h
    · split at h <;> cases h
      rfl
    · cases h
  | stop =>
    cases h
    rfl

theorem cpuRoutine_timerPc {s s' : Os} {i : Nat} (h : s.cpuRoutine c i = some s') : s'.timer.pc = s.timer.pc := by
  cases cpuRoutine_cases h with
  | runs hpc hp => exact congrArg Timer.pc (runProc_frame c s _).1
  | enters hpc ht | sleeps hpc ht | returns hpc ht | detaches hpc ht => exact timer_pc (by simp) ht
  | _ => rfl

theorem Stopping.cpuRoutine {s s' : Os} {i : Nat} (h : Stopping c s i) (hos : Inv c s)
    (hcnt : s.cntProcDone = c.numProcesses) (hstep : s.cpuRoutine c i = some s') :
    Stopping c s' i ∧ s'.cntProcDone = s.cntProcDone := by
  obtain ⟨hnone, hplace⟩ := h
  have hprocs := (hos.all_counted hcnt).2.2
  cases cpuRoutine_cases hstep with
  | fetches hpc hp =>
    have hempty : s.mlq.getMlqProc.2 = none := by
      have hperm := Mlq.getMlqProc_perm s.mlq
      rw [hprocs] at hperm
      have hnil := (List.append_eq_nil_iff.1 (List.nil_perm.1 hperm)).2
      simpa using hnil
    exact ⟨⟨by simp [hempty], by simp [hempty]⟩, rfl⟩
  | allDone hpc hc => exact ⟨⟨by simpa using hnone, by simp⟩, rfl⟩
  | waits hpc hc => exact absurd hcnt hc
  | @sleeps t hpc ht hin =>
    obtain ⟨htime, -, hbegun, -⟩ := Timer.step_sleeps ht hin
    refine ⟨⟨by simpa using hnone, ?_⟩, rfl⟩
    have hsame : (t.dev (c.cpuDev i)).begun = t.time := by
      simp [hpc] at hplace
      omega
    simpa [setCpu] using hsame
  | returns hpc ht hout => exact ⟨⟨by simpa using hnone, by simp⟩, rfl⟩
  | detaches hpc ht => exact ⟨⟨by simpa using hnone, by simp⟩, rfl⟩
  | _ => simp_all

theorem Quiet.cpu (h : Quiet c s) (hos : Inv c s.os) {i : Nat} (hi : i < c.numCpus) {os : Os} {runs : Nat → Nat}
    {now : List Nat} (hstep : s.os.cpuRoutine c i = some os) : Quiet c { s with os := os, runs := runs, now := now } := by
  obtain ⟨hcpu, hdev, -, hld⟩ := cpuRoutine_frame hstep
  have htime := cpuRoutine_time hstep
  have hpc := cpuRoutine_timerPc hstep
  refine ⟨fun hlate => ?_, fun hcalm => ?_, fun hcalm => hld.trans (h.gone hcalm), fun hcalm j hj => ?_, ?_, ?_, h.calm_le⟩
  · have hold := h.late hlate
    have hldDev : os.timer.dev ldDev = s.os.timer.dev ldDev := hdev _ (cpuDev_ne_ldDev hi)
    simp only [Os.Late] at hold ⊢
    rw [hld, hldDev, htime]
    exact hold
  · exact ((h.stopping hcalm i hi).cpuRoutine hos (h.counted hcalm) hstep).2.trans (h.counted hcalm)
  · by_cases hji : j = i
    · subst hji
      exact ((h.stopping hcalm j hj).cpuRoutine hos (h.counted hcalm) hstep).1
    · have hold := h.stopping hcalm j hj
      simp only [Stopping] at hold ⊢
      rw [hcpu j hji, hdev _ (cpuDev_ne hj hi hji), htime]
      exact hold
  · dsimp only
    rw [hpc]
    exact h.allGone
  · dsimp only
    rw [hpc]
    exact h.ending

theorem Quiet.loader (h : Quiet c s) {os : Os} (hstep : s.os.ldRoutine c = some os) : Quiet c { s with os := os } := by
  have hnot : ¬ 1 ≤ s.calm := fun hcalm => by simp [ldRoutine, h.gone hcalm] at hstep
  refine ⟨fun hlate => ?_, fun hcalm => absurd hcalm hnot, fun hcalm => absurd hcalm hnot, fun hcalm => absurd hcalm hnot,
    fun hcalm => absurd hcalm hnot, fun hcalm => absurd ((Nat.le_succ 1).trans hcalm) hnot, h.calm_le⟩
  have hold := h.late hlate
  change Os.Late c os
  cases ldRoutine_cases hstep with
  | loads hld hk =>
    simp only [Os.Late, hld] at hold
    omega
  | ends hld hk => trivial
  | sleeps hld ht hin =>
    obtain ⟨htime, -, hbegun, -⟩ := Timer.step_sleeps ht hin
    simp only [Os.Late, hld] at hold
    exact ⟨hold.1, hbegun.trans (hold.2.trans htime.symm)⟩
  | goesOn hld ht hout =>
    simp only [Os.Late, hld] at hold
    exact hold.1.le
  | detaches hld ht => trivial
  | early hld | due hld | entersWait hld | sleepsWait hld | looksAgain hld | adds hld | enters hld =>
    simp [Os.Late, hld] at hold

theorem Quiet.passed (h : Quiet c s) (hos : Inv c s.os) (hcalm : 1 ≤ s.calm) {k fsh event : Nat} (hk : k < c.numDevs)
    (hpc : s.os.timer.pc = .collect k fsh event) (hset : (s.os.timer.dev k).done = true ∨ (s.os.timer.dev k).fsh = true) :
    (s.os.timer.dev k).fsh = true := by
  have hdev := hos.timer k hk
  cases Nat.eq_zero_or_pos k with
  | inl hzero =>
    subst hzero
    have hphase := hos.ldPhase
    rw [h.gone hcalm] at hphase
    exact hdev.detached hphase
  | inr hpos =>
    have hlt : c.numCpus - k < c.numCpus := by
      unfold Config.numDevs at hk
      omega
    have hself : c.cpuDev (c.numCpus - k) = k := by
      unfold Config.cpuDev
      unfold Config.numDevs at hk
      omega
    obtain ⟨-, hplace⟩ := h.stopping hcalm _ hlt
    have hphase := hos.cpuPhase _ hlt
    rw [hself] at hplace hphase
    have hout : (s.os.timer.dev k).phase = .outside → (s.os.timer.dev k).fsh = true := fun hout => by
      have hdone := (hdev.outside hout).1
      simpa [hdone] using hset
    rcases hplace with hp | hp | hp | hp | ⟨hp, hbegun⟩
    · exact hout (by simpa [CpuPhase, hp] using hphase)
    · exact hout (by simpa [CpuPhase, hp] using hphase)
    · exact hout (by simpa [CpuPhase, hp] using hphase)
    · exact hdev.detached (by simpa [CpuPhase, hp] using hphase)
    · -- in `next_slot` for the slot before, its `done` is clear
      obtain ⟨-, -, hcases⟩ := hdev.inside (by simpa [CpuPhase, hp] using hphase)
      rcases hcases with ⟨-, hnow, -⟩ | ⟨-, -, hpend⟩ | ⟨hdone, -, -⟩
      · omega
      · simp [Timer.Pending, hpc] at hpend
      · simpa [hdone] using hset

theorem Quiet.timer (h : Quiet c s) (hos : Inv c s.os) {t : Timer} (ht : s.os.timer.step c.numDevs .routine = some t)
    (htime : t.time = s.os.timer.time) : Quiet c { s with os := { s.os with timer := t } } := by
  have hdev := (Timer.step_routine ht).1
  refine ⟨fun hlate => ?_, h.counted, h.gone, fun hcalm i hi => ?_, fun hcalm => ?_, fun hcalm => ?_, h.calm_le⟩
  · have hold := h.late hlate
    simp only [Os.Late] at hold ⊢
    rw [(hdev _).2, htime]
    exact hold
  · have hold := h.stopping hcalm i hi
    simp only [Stopping] at hold ⊢
    rw [(hdev _).2, htime]
    exact hold
  · have hgone := h.allGone hcalm
    dsimp only
    cases Timer.routine_cases ht with
    | begins hpc =>
      dsimp only
      split
      · trivial
      · exact rfl
    | sleeps hpc hk hclear =>
      rw [hpc] at hgone
      exact hgone
    | @passes k fsh event hpc hk hset =>
      rw [hpc] at hgone
      have hfsh := h.passed hos hcalm hk hpc hset
      simpa [AllGone, hfsh] using hgone
    | counts hpc hk => simp at htime
    | wakes hpc =>
      rw [hpc] at hgone
      exact hgone
    | letsGo hpc hk => trivial
    | ends hpc hk =>
      dsimp only
      split <;> trivial
  · have hending := h.ending hcalm
    dsimp only
    cases Timer.routine_cases ht with
    | letsGo hpc hk =>
      rw [hpc] at hending
      exact hending
    | ends hpc hk =>
      rw [hpc] at hending
      have hall : _ = _ := hending
      rw [if_pos hall]
      trivial
    | begins hpc | sleeps hpc | passes hpc | counts hpc | wakes hpc =>
      rw [hpc] at hending
      exact hending.elim

/-- **When a slot is over** the loader is in `next_slot` for it, or has stopped. -/
theorem loader_over {s : Os} (hos : Inv c s) (hall : ∀ k < c.numDevs, Timer.Passed s.timer.pc k) :
    (∃ i, (s.loader = .waitSlot i ∨ s.loader = .addSlot i) ∧ (s.timer.dev ldDev).begun = s.timer.time + 1) ∨
      s.loader = .gone := by
  have hphase := hos.ldPhase
  rcases hos.timer.passed_over (Nat.succ_pos _) (hall _ (Nat.succ_pos _)) with ⟨hin, hbegun⟩ | hgone
  · change (s.timer.dev ldDev).phase = _ ∨ (s.timer.dev ldDev).phase = _ at hin
    cases hld : s.loader with
    | waitSlot i => exact Or.inl ⟨i, Or.inl rfl, hbegun⟩
    | addSlot i => exact Or.inl ⟨i, Or.inr rfl, hbegun⟩
    | gone => exact Or.inr rfl
    | _ =>
      rw [hld] at hphase
      have hout : (s.timer.dev ldDev).phase = .outside := hphase
      simp [hout] at hin
  · change (s.timer.dev ldDev).phase = _ at hgone
    cases hld : s.loader with
    | gone => exact Or.inr rfl
    | waitSlot i | addSlot i =>
      rw [hld] at hphase
      rcases hphase with hp | hp <;> simp [hgone] at hp
    | _ =>
      rw [hld] at hphase
      have hout : (s.timer.dev ldDev).phase = .outside := hphase
      simp [hgone] at hout

/-- **Nothing held and nothing waiting**: all processes have been counted. -/
theorem all_counted_over {s : Os} (hos : Inv c s) (hall : ∀ k < c.numDevs, Timer.Passed s.timer.pc k)
    (hloaded : loaded c s = c.numProcesses) (hprocs : s.mlq.procs = []) (hheld : Os.held c s = []) :
    s.cntProcDone = c.numProcesses := by
  have hcounting : counting c s = [] := Family.all_eq_nil.2 (fun i hi => if_neg (fun hcount => by
    rcases hos.slotOver hall hi with ⟨hslot, -⟩ | hstopped
    · simp [hcount] at hslot
    · simp [hcount] at hstopped))
  have hcounted := hos.counted
  have hmem : ∀ p < c.numProcesses, p ∈ s.finished := fun p hp => by
    have hplace := hos.places p
    rw [hprocs, hheld, if_pos (by omega)] at hplace
    exact List.count_pos_iff.1 (by simp at hplace; omega)
  have hle := (List.nodup_range.subperm (fun p hp => hmem p (List.mem_range.1 hp)) :
    (List.range c.numProcesses).Subperm s.finished).length_le
  have hge := hos.finished_length
  rw [List.length_range] at hle
  rw [hcounting, List.length_nil] at hcounted
  omega

theorem Quiet.slotEnds (h : Quiet c s) (hnum : 1 ≤ c.numCpus) (hfair : Fair c s) (hbusy : Busy c s) {t : Timer}
    (ht : s.os.timer.step c.numDevs .routine = some t) (htime : t.time = s.os.timer.time + 1)
    (hall : ∀ k < c.numDevs, Timer.Passed s.os.timer.pc k) : Quiet c (s.slotOver c { s.os with timer := t }) := by
  have hos := hfair.os
  have hbegun := fun k => ((Timer.step_routine ht).1 k).2
  have hlatest : (s.slotOver c { s.os with timer := t }).late c = true → Os.Late c { s.os with timer := t } := by
    intro hlate
    have hloaded : c.numProcesses ≤ loaded c s.os := of_decide_eq_true hlate
    have hok := hos.ldOk
    rcases loader_over hos hall with ⟨i, hld | hld, hnow⟩ | hgone
    · simp only [hld, LdOk] at hok
      simp only [loaded, hld] at hloaded
      omega
    · simp only [hld, LdOk] at hok
      simp only [loaded, hld] at hloaded
      simp only [Os.Late, hld]
      exact ⟨by omega, (hbegun _).trans (hnow.trans htime.symm)⟩
    · simp [Os.Late, hgone]
  -- unless it has been quiet, there is nothing to say
  have hbefore : s.calm = 0 → (s.slotOver c { s.os with timer := t }).calm = s.calm →
      Quiet c (s.slotOver c { s.os with timer := t }) := fun hzero hsame => by
    have hnot : ¬ 1 ≤ (s.slotOver c { s.os with timer := t }).calm := by omega
    exact ⟨hlatest, fun hc => absurd hc hnot, fun hc => absurd hc hnot, fun hc => absurd hc hnot, fun hc => absurd hc hnot,
      fun hc => absurd ((Nat.le_succ 1).trans hc) hnot, by omega⟩
  have hheld : Os.held c { s.os with timer := t } = Os.held c s.os := rfl
  have hnone : 1 ≤ s.calm → Os.held c s.os = [] := fun hcalm => Family.all_eq_nil.2 (fun i hi => by
    simp [(h.stopping hcalm i hi).1])
  rcases slotOver_cases c s { s.os with timer := t } with ⟨hlate, heq⟩ | ⟨hlate, hkind⟩
  · exact hbefore (hbusy.notLate hlate).2.2 (by rw [heq])
  · rw [hheld] at hkind
    rcases hkind with ⟨hfull, heq⟩ | ⟨hfull, ⟨hsome, heq⟩ | ⟨hnil, heq⟩⟩
    · refine hbefore ?_ (by rw [heq])
      by_contra hcalm
      rw [hnone (by omega), List.length_nil] at hfull
      omega
    · exact hbefore (by_contra (fun hcalm => hsome (hnone (by omega)))) (by rw [heq])
    · obtain ⟨-, hloaded, hwait⟩ := hfair.over_late hall hlate
      have hcounted := all_counted_over hos hall hloaded (hwait hfull) hnil
      have hgone : s.os.loader = .gone := by
        have hlast := h.late hlate
        rcases loader_over hos hall with ⟨i, hld | hld, hnow⟩ | hgone
        · simp [Os.Late, hld] at hlast
        · simp only [Os.Late, hld] at hlast
          omega
        · exact hgone
      rw [heq] at hlatest ⊢
      cases Timer.routine_cases ht with
      | @counts k fsh event hpc hk =>
        have hless : s.calm ≤ 1 := by
          by_contra hcalm
          have hending := h.ending (by omega)
          rw [hpc] at hending
          exact hending
        refine ⟨hlatest, fun _ => hcounted, fun _ => hgone, fun _ i hi => ?_, fun _ => trivial, fun hcalm => ?_,
          Nat.succ_le_succ hless⟩
        · have hproc : (s.os.cpu i).proc = none := by simpa using Family.all_eq_nil.1 hnil i hi
          refine ⟨hproc, ?_⟩
          rcases hos.slotOver hall hi with ⟨hslot, hnow⟩ | hst
          · exact Or.inr (Or.inr (Or.inr (Or.inr ⟨hslot, hnow⟩)))
          · exact Or.inr (Or.inr (Or.inr (Or.inl hst)))
        · have hall' := h.allGone (Nat.le_of_succ_le_succ hcalm)
          rw [hpc] at hall'
          exact hall'
      | _ => simp [Timer.setDev] at htime

theorem Quiet.step (h : Quiet c s) (hnum : 1 ≤ c.numCpus) (hfair : Fair c s) (hbusy : Busy c s) {a : OsAct}
    (hstep : step c s a = some s') : Quiet c s' := by
  cases step_cases hstep with
  | runs hi hpc hp hos => exact h.cpu hfair.os hi hos
  | goes hi hpc hos => exact h.cpu hfair.os hi hos
  | loader hos => exact h.loader hos
  | timer ht htime => exact h.timer hfair.os ht htime
  | slotEnds ht htime hall => exact h.slotEnds hnum hfair hbusy ht htime hall

end Quiet

theorem reach_all {c : Config} (hnum : 1 ≤ c.numCpus) {s : Worked} (h : Reach (step c) start s) :
    Fair c s ∧ Counts c s ∧ Busy c s ∧ Quiet c s := by
  refine Reach.inv h (P := fun s => Fair c s ∧ Counts c s ∧ Busy c s ∧ Quiet c s)
    ⟨start_fair c, start_counts c, start_busy c, start_quiet c⟩ (fun ha hs => ?_)
  obtain ⟨hfair, hcounts, hbusy, hquiet⟩ := hs
  exact ⟨hfair.step hnum ha, hcounts.step hfair.os ha, hbusy.step hfair hcounts ha, hquiet.step hnum hfair hbusy ha⟩

end Worked

/-- **The history can be kept** of every run. -/
theorem Worked.reach_lifts {c : Config} {s : Os} (h : Reach (Os.step c) .start s) :
    ∃ w, Reach (Worked.step c) Worked.start w ∧ w.os = s := by
  have hlift : ∀ {w : Worked} {a : OsAct} {os : Os}, Os.step c w.os a = some os →
      ∃ w', Next (Worked.step c) w w' ∧ w'.os = os := fun {w a os} hos => by
    refine ⟨_, ⟨a, Option.map_eq_some_iff.2 ⟨os, hos, rfl⟩⟩, ?_⟩
    dsimp only
    split <;> rfl
  exact h.lifts Worked.os hlift rfl

/-- **The simulation is over in good time.**  In every interleaving the time is at most that of the last `add_proc` and
three slots, the calls of `run` of all processes shared out evenly among the CPUs, and the longest process once more
for every CPU but one of them. -/
theorem makespan {c : Config} (hnum : 1 ≤ c.numCpus) {s : Os} (h : Reach (Os.step c) .start s) :
    c.numCpus * (s.timer.time - (lastLoad c + 3)) ≤
      (∑ p ∈ Finset.range c.numProcesses, c.need p) + (c.numCpus - 1) * Worked.longest c := by
  obtain ⟨w, hw, rfl⟩ := Worked.reach_lifts h
  obtain ⟨-, hcounts, hbusy, hquiet⟩ := Worked.reach_all hnum hw
  have hearly := hbusy.early_le
  have hslots := hbusy.slots
  have hcalm := hquiet.calm_le
  have hcalls : Worked.calls c w ≤ ∑ p ∈ Finset.range c.numProcesses, c.need p :=
    Finset.sum_le_sum (fun p _ => hcounts.le p)
  have hfullPart : c.numCpus * w.full + w.part ≤ ∑ p ∈ Finset.range c.numProcesses, c.need p :=
    (Nat.le_add_right _ _).trans (hbusy.work.trans hcalls)
  obtain ⟨n, hn⟩ : ∃ n, c.numCpus = n + 1 := ⟨c.numCpus - 1, by omega⟩
  calc c.numCpus * (w.os.timer.time - (lastLoad c + 3))
      ≤ c.numCpus * (w.full + w.part) := Nat.mul_le_mul_left _ (by omega)
    _ = c.numCpus * w.full + w.part + (c.numCpus - 1) * w.part := by rw [hn]; simp only [Nat.add_sub_cancel]; ring
    _ ≤ _ := Nat.add_le_add hfullPart (Nat.mul_le_mul_left _ hbusy.part_longest)

def fourEach : Config := ⟨2, 2, 2, fun _ => 0, fun _ => 0, fun _ => 4⟩

def fourEachRun : List OsAct := repeated
  [(5, .loader), (5, .cpu 0), (4, .cpu 1), (6, .timer), (6, .loader), (1, .timer), (6, .cpu 1), (1, .timer),
    (6, .cpu 0), (7, .timer), (3, .loader), (1, .timer), (6, .cpu 1), (1, .timer), (7, .cpu 0), (8, .timer),
    (7, .cpu 1), (1, .timer), (6, .cpu 0), (8, .timer), (6, .cpu 1), (1, .timer), (5, .cpu 0), (8, .timer),
    (5, .cpu 1), (11, .timer)]

/-- The simulation is over at time 6, and 10 is the bound. -/
theorem makespan_fourEach : ∃ s : Os, Reach (Os.step fourEach) .start s ∧
    s.timer.pc = .exited ∧ s.timer.time = 6 ∧ s.timer.time ≤ 10 := by
  have hsome : (runActions (Os.step fourEach) fourEachRun .start).any
      (fun s => s.timer.pc = .exited ∧ s.timer.time = 6) = true := by
    decide +kernel
  obtain ⟨s, hs, hq⟩ := (Option.any_eq_true _ _).1 hsome
  obtain ⟨hpc, htime⟩ := of_decide_eq_true hq
  have hreach := reach_of_runActions _ hs
  have hbound := makespan (c := fourEach) (by decide) hreach
  have hlast : lastLoad fourEach = 1 := rfl
  have hcalls : (∑ p ∈ Finset.range fourEach.numProcesses, fourEach.need p) = 8 := by decide
  have hlongest : Worked.longest fourEach = 4 := by decide
  have hnum : fourEach.numCpus = 2 := rfl
  rw [hlast, hcalls, hlongest, hnum] at hbound
  exact ⟨s, hreach, hpc, htime, by omega⟩

end OsSim
