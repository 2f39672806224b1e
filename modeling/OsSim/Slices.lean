import OsSim.Lifecycle
/-!
# Slices — how long a CPU runs a process (`cpu_routine`)

`time_left` outlives the turn of the loop it is set in, and there are three ways to come by a process.  What carries
the count is that a CPU between two calls of `next_slot` has its slice's remaining events before it: they follow
from where it is, its `time_left`, the process's `pc` and the slots its device has begun.
-/
namespace OsSim

open System

/-- What `cpu_routine` does with a process, with the process's `pc` and the time at which it does it. -/
inductive CpuEvent where
  /-- "Dispatched process" -/
  | dispatched (proc pc time : Nat)
  /-- A call of `run`. -/
  | ran (proc pc time : Nat)
  /-- "Processed has finished" -/
  | finished (proc pc : Nat)
  /-- "Put process to run queue", and `put_proc`. -/
  | putBack (proc pc : Nat)
  deriving DecidableEq

def cpuEvent (c : Config) (i : Nat) (s : Os) (a : OsAct) : List CpuEvent :=
  if a = .cpu i then
    match (s.cpu i).pc, (s.cpu i).proc with
    | .recheck, some p => if (s.cpu i).timeLeft = 0 then [.dispatched p (s.pcb p).pc s.timer.time] else []
    | .run, some p => [.ran p (s.pcb p).pc s.timer.time]
    | .top, some p =>
      if (s.pcb p).pc = c.size p then [.finished p (s.pcb p).pc]
      else if (s.cpu i).timeLeft = 0 then [.putBack p (s.pcb p).pc]
      else []
    | _, _ => []
  else []

abbrev sliced (c : Config) (i : Nat) : Os × List CpuEvent → OsAct → Option (Os × List CpuEvent) :=
  logged (Os.step c) (cpuEvent c i)

/-! ## A slice -/

structure Dispatch where
  proc : Nat
  pc : Nat
  time : Nat

def Dispatch.turns (c : Config) (d : Dispatch) : Nat := min c.timeSlot.toNat (c.size d.proc - d.pc)

def ending (c : Config) (p pc : Nat) : CpuEvent := if pc = c.size p then .finished p pc else .putBack p pc

/-- **A whole slice**: `run` in one slot after the other, `pc` one further each time, as often as the slice or the
program allows.  A process without instructions is run once, and `run` does nothing. -/
def slice (c : Config) (d : Dispatch) : List CpuEvent :=
  .dispatched d.proc d.pc d.time ::
    if d.pc < c.size d.proc then
      (List.range (d.turns c)).map (fun k => .ran d.proc (d.pc + k) (d.time + k)) ++ [ending c d.proc (d.pc + d.turns c)]
    else [.ran d.proc d.pc d.time, .finished d.proc d.pc]

def toEnd (c : Config) (p : Nat) : Nat → Nat → Nat → List CpuEvent
  | 0, pc, _ => [ending c p pc]
  | left + 1, pc, time => if pc = c.size p then [.finished p pc] else .ran p pc time :: toEnd c p left (pc + 1) (time + 1)

def turn (c : Config) (p left pc time : Nat) : List CpuEvent :=
  .ran p pc time :: toEnd c p (left - 1) (if pc < c.size p then pc + 1 else pc) (time + 1)

section Slice

variable {c : Config} {p : Nat}

theorem toEnd_size (left time : Nat) : toEnd c p left (c.size p) time = [.finished p (c.size p)] := by
  cases left with
  | zero => simp [toEnd, ending]
  | succ left => simp [toEnd]

theorem toEnd_turn {left pc : Nat} (hleft : 1 ≤ left) (hpc : pc < c.size p) (time : Nat) :
    toEnd c p left pc time = turn c p left pc time := by
  obtain ⟨n, rfl⟩ := Nat.exists_eq_add_of_le' hleft
  rw [toEnd, if_neg hpc.ne, turn, if_pos hpc, Nat.add_sub_cancel]

theorem toEnd_eq : ∀ (left : Nat) {pc : Nat} (_ : pc ≤ c.size p) (time : Nat), toEnd c p left pc time =
    (List.range (min left (c.size p - pc))).map (fun k => .ran p (pc + k) (time + k)) ++
      [ending c p (pc + min left (c.size p - pc))]
  | 0, pc, _, _ => by simp [toEnd]
  | left + 1, pc, hpc, time => by
    by_cases hend : pc = c.size p
    · subst hend
      simp [toEnd, ending]
    · have hlt : pc + 1 ≤ c.size p := by omega
      have hmin : min (left + 1) (c.size p - pc) = min left (c.size p - (pc + 1)) + 1 := by omega
      have hshift : ∀ k, CpuEvent.ran p (pc + 1 + k) (time + 1 + k) =
          .ran p (pc + (k + 1)) (time + (k + 1)) := fun k => by
        rw [Nat.add_assoc, Nat.add_assoc, Nat.add_comm 1 k]
      rw [toEnd, if_neg hend, toEnd_eq left hlt (time + 1), hmin, List.range_succ_eq_map, List.map_cons, List.map_map,
        List.cons_append]
      simp only [hshift, Function.comp_def, Nat.succ_eq_add_one, Nat.add_zero]
      rw [Nat.add_assoc, Nat.add_comm 1]

theorem slice_eq (hslot : 1 ≤ c.timeSlot) {pc : Nat} (hpc : pc ≤ c.size p) (time : Nat) :
    slice c ⟨p, pc, time⟩ = .dispatched p pc time :: turn c p c.timeSlot.toNat pc time := by
  unfold slice
  split
  · rename_i hlt
    have hlt' : pc < c.size p := hlt
    rw [← toEnd_turn (by omega) hlt', toEnd_eq _ hpc, Dispatch.turns]
  · rename_i hend
    obtain rfl : pc = c.size p := Nat.le_antisymm hpc (Nat.le_of_not_lt hend)
    rw [turn, if_neg (Nat.lt_irrefl _), toEnd_size]

end Slice

/-! ## What a CPU has before it -/

def toCome (c : Config) (s : Os) (i : Nat) : List CpuEvent :=
  match (s.cpu i).proc with
  | none => []
  | some p =>
    let left := (s.cpu i).timeLeft.toNat
    let begun := (s.timer.dev (c.cpuDev i)).begun
    match (s.cpu i).pc with
    | .recheck => if (s.cpu i).timeLeft = 0 then [] else turn c p left (s.pcb p).pc begun
    | .run => turn c p left (s.pcb p).pc begun
    | .enter => toEnd c p left (s.pcb p).pc (begun + 1)
    | .slot | .top => toEnd c p left (s.pcb p).pc begun
    | _ => []

structure SliceInv (c : Config) (i : Nat) (s : Os × List CpuEvent) : Prop where
  os : Os.Inv c s.1
  left : 0 ≤ (s.1.cpu i).timeLeft ∧ ((s.1.cpu i).pc = .run → 1 ≤ (s.1.cpu i).timeLeft)
  rested : (s.1.cpu i).proc = none ∨ (s.1.cpu i).pc = .count → (s.1.cpu i).timeLeft = 0
  /-- What has been done and what is left are whole slices. -/
  whole : ∃ ds : List Dispatch, s.2 ++ toCome c s.1 i = ds.flatMap (slice c)

theorem start_sliceInv (c : Config) (i : Nat) : SliceInv c i (Os.start, []) :=
  ⟨Os.start_inv c, ⟨Int.le_refl 0, fun h => (by cases h)⟩, fun _ => rfl, [], rfl⟩

section Step

variable {c : Config} {i : Nat} {s s' : Os} {log : List CpuEvent}

theorem SliceInv.goes {done : List CpuEvent} (h : SliceInv c i (s, log)) (hos : Os.Inv c s')
    (hleft : 0 ≤ (s'.cpu i).timeLeft ∧ ((s'.cpu i).pc = .run → 1 ≤ (s'.cpu i).timeLeft))
    (hrested : (s'.cpu i).proc = none ∨ (s'.cpu i).pc = .count → (s'.cpu i).timeLeft = 0)
    (hcome : done ++ toCome c s' i = toCome c s i) : SliceInv c i (s', log ++ done) := by
  obtain ⟨ds, hds⟩ := h.whole
  refine ⟨hos, hleft, hrested, ds, ?_⟩
  rw [List.append_assoc, hcome]
  exact hds

theorem SliceInv.other (h : SliceInv c i (s, log)) (hos : Os.Inv c s') (hcpu : s'.cpu i = s.cpu i)
    (hdev : (s'.timer.dev (c.cpuDev i)).begun = (s.timer.dev (c.cpuDev i)).begun)
    (hpcb : ∀ p, (s.cpu i).proc = some p → s'.pcb p = s.pcb p) : SliceInv c i (s', log ++ []) := by
  refine h.goes hos (by rw [hcpu]; exact h.left) (by rw [hcpu]; exact h.rested) ?_
  rw [List.nil_append, toCome, hcpu, hdev, toCome]
  cases hp : (s.cpu i).proc with
  | none => rfl
  | some p =>
    dsimp only
    rw [hpcb p hp]

theorem begun_eq (h : Os.Inv c s) (hi : i < c.numCpus) (hslot : (s.cpu i).pc ≠ .slot)
    (hstopped : (s.cpu i).pc ≠ .stopped) : (s.timer.dev (c.cpuDev i)).begun = s.timer.time :=
  ((h.timer _ (Os.cpuDev_lt hi)).outside ((h.cpuPhase i hi).outside hslot hstopped)).2.2.2.1

theorem SliceInv.dispatches (h : SliceInv c i (s, log)) (hslot : 1 ≤ c.timeSlot) (hi : i < c.numCpus) {p : Nat}
    (hpc : (s.cpu i).pc = .recheck) (hp : (s.cpu i).proc = some p) {left : Int}
    (hleft : left = if (s.cpu i).timeLeft = 0 then c.timeSlot else (s.cpu i).timeLeft)
    (hos : Os.Inv c (s.setCpu i { s.cpu i with pc := .run, timeLeft := left })) :
    SliceInv c i (s.setCpu i { s.cpu i with pc := .run, timeLeft := left }, log ++ cpuEvent c i s (.cpu i)) := by
  have hbegun : (s.timer.dev (c.cpuDev i)).begun = s.timer.time := begun_eq h.os hi (by simp [hpc]) (by simp [hpc])
  have hpos : 1 ≤ left := by
    have := h.left.1
    dsimp only at this
    split at hleft <;> omega
  have hafter : toCome c (s.setCpu i { s.cpu i with pc := .run, timeLeft := left }) i =
      turn c p left.toNat (s.pcb p).pc s.timer.time := by
    simp [toCome, hp, Os.setCpu, hbegun]
  by_cases hnew : (s.cpu i).timeLeft = 0
  · rw [if_pos hnew] at hleft
    obtain ⟨ds, hds⟩ := h.whole
    refine ⟨hos, ⟨by simp; omega, fun _ => by simpa using hpos⟩, by simp [hp],
      ds ++ [⟨p, (s.pcb p).pc, s.timer.time⟩], ?_⟩
    have hnothing : toCome c s i = [] := by simp [toCome, hp, hpc, hnew]
    rw [hnothing, List.append_nil] at hds
    have hevent : cpuEvent c i s (.cpu i) = [.dispatched p (s.pcb p).pc s.timer.time] := by simp [cpuEvent, hpc, hp, hnew]
    rw [hafter, hevent, hleft, List.flatMap_append, ← hds, List.append_assoc, List.flatMap_singleton,
      slice_eq hslot (h.os.executed p).2]
    rfl
  · rw [if_neg hnew] at hleft
    refine h.goes hos ⟨by simp; omega, fun _ => by simpa using hpos⟩ (by simp [hp]) ?_
    rw [hafter]
    simp [cpuEvent, toCome, hpc, hp, hnew, hbegun, hleft]

theorem SliceInv.runs (h : SliceInv c i (s, log)) (hi : i < c.numCpus) {p : Nat} (hpc : (s.cpu i).pc = .run)
    (hp : (s.cpu i).proc = some p)
    (heq : s' = (s.runProc c p).setCpu i { s.cpu i with pc := .enter, timeLeft := (s.cpu i).timeLeft - 1 })
    (hos : Os.Inv c s') : SliceInv c i (s', log ++ cpuEvent c i s (.cpu i)) := by
  have hbegun : (s.timer.dev (c.cpuDev i)).begun = s.timer.time := begun_eq h.os hi (by simp [hpc]) (by simp [hpc])
  have hpos := h.left.2 hpc
  have hcpu : s'.cpu i = { s.cpu i with pc := .enter, timeLeft := (s.cpu i).timeLeft - 1 } := by rw [heq, Os.setCpu_self]
  have hpcb : (s'.pcb p).pc = if (s.pcb p).pc < c.size p then (s.pcb p).pc + 1 else (s.pcb p).pc := by
    rw [heq]
    change ((s.runProc c p).pcb p).pc = _
    unfold Os.runProc
    split <;> simp
  have htimer : s'.timer = s.timer := by
    rw [heq]
    exact (Os.runProc_frame c s p).1
  dsimp only at hpos
  refine h.goes hos ⟨by rw [hcpu]; dsimp only; omega, by simp [hcpu]⟩ (by simp [hcpu, hp]) ?_
  have hleft : ((s.cpu i).timeLeft - 1).toNat = (s.cpu i).timeLeft.toNat - 1 := by omega
  simp [cpuEvent, toCome, hcpu, hpc, hp, hpcb, htimer, hbegun, turn, hleft]

theorem SliceInv.cpuRoutine (h : SliceInv c i (s, log)) (hslot : 1 ≤ c.timeSlot) (hi : i < c.numCpus)
    (hstep : s.cpuRoutine c i = some s') : SliceInv c i (s', log ++ cpuEvent c i s (.cpu i)) := by
  have hos : Os.Inv c s' := h.os.cpuRoutine hi hstep
  have hidle := h.os.idle i hi
  have hrested := h.rested
  have hnonneg := h.left.1
  dsimp only at hrested hnonneg hidle
  cases Os.cpuRoutine_cases hstep with
  | fetches hpc hp =>
    have hleft := hrested (Or.inl hp)
    refine h.goes hos ⟨by simpa using hnonneg, ?_⟩ (fun _ => by simpa using hleft) ?_
    · simp only [Os.setCpu_self]
      split <;> simp
    · have hbefore : toCome c s i = [] := by simp [toCome, hp]
      have hevent : cpuEvent c i s (.cpu i) = [] := by simp [cpuEvent, hpc, hp]
      rw [hbefore, hevent, List.nil_append]
      cases hproc : s.mlq.getMlqProc.2 with
      | none => simp [toCome]
      | some q => simp [toCome, hleft]
  | @finishes p hpc hp hend =>
    refine h.goes hos ⟨by simp, by simp⟩ (by simp) ?_
    have hbefore : toCome c s i = [.finished p (c.size p)] := by simp [toCome, hpc, hp, hend, toEnd_size]
    rw [hbefore]
    simp only [cpuEvent, toCome, hpc, hp, hend, Os.setCpu_self, if_true]
    split <;> rfl
  | @putsBack p m hpc hp hend hleft hput =>
    refine h.goes hos ⟨by simpa using hnonneg, by simp⟩ (by simpa using hleft) ?_
    simp [cpuEvent, toCome, hpc, hp, hend, hleft, toEnd, ending]
  | @keeps p hpc hp hend hleft =>
    refine h.goes hos ⟨by simpa using hnonneg, by simp⟩ (by simp [hp]) ?_
    have hlt : (s.pcb p).pc < c.size p := Nat.lt_of_le_of_ne (h.os.executed p).2 hend
    have hturn := @toEnd_turn c p (s.cpu i).timeLeft.toNat _ (by omega) hlt (s.timer.dev (c.cpuDev i)).begun
    simp [cpuEvent, toCome, hpc, hp, hend, hleft, hturn, Os.setCpu]
  | allDone hpc hcnt =>
    have hnone := hidle (Or.inl hpc)
    exact h.goes hos ⟨by simpa using hnonneg, by simp⟩ (fun _ => by simpa using hrested (Or.inl hnone))
      (by simp [cpuEvent, toCome, hpc, hnone])
  | waits hpc hcnt =>
    have hnone := hidle (Or.inl hpc)
    exact h.goes hos ⟨by simpa using hnonneg, by simp⟩ (fun _ => by simpa using hrested (Or.inl hnone))
      (by simp [cpuEvent, toCome, hpc, hnone])
  | counts hpc =>
    have hleft := hrested (Or.inr hpc)
    refine h.goes hos ⟨by simpa using hnonneg, by simp⟩ (fun _ => by simpa using hleft) ?_
    simp only [cpuEvent, toCome, hpc, hleft, Os.setCpu_self, if_true, List.nil_append]
  | gets hpc =>
    have hnone := hidle (Or.inr (Or.inl hpc))
    have hleft := hrested (Or.inl hnone)
    refine h.goes hos ⟨by simpa using hnonneg, by simp⟩ (fun _ => by simpa using hleft) ?_
    simp only [cpuEvent, toCome, hpc, hnone, hleft, Os.setCpu_self, if_true, List.nil_append]
    split <;> rfl
  | leaves hpc hp hdone =>
    exact h.goes hos ⟨by simpa using hnonneg, by simp⟩ (fun _ => by simpa using hrested (Or.inl hp))
      (by simp [cpuEvent, toCome, hpc, hp])
  | idles hpc hp hdone =>
    exact h.goes hos ⟨by simpa using hnonneg, by simp⟩ (fun _ => by simpa using hrested (Or.inl hp))
      (by simp [cpuEvent, toCome, hpc, hp])
  | dispatches hpc hp => exact h.dispatches hslot hi hpc hp rfl hos
  | runs hpc hp => exact h.runs hi hpc hp rfl hos
  | enters hpc ht =>
    obtain ⟨-, -, -, -, hbegun⟩ := Timer.step_enter ht
    refine h.goes hos ⟨by simpa using hnonneg, by simp⟩ (by simpa [hpc] using hrested) ?_
    simp [cpuEvent, toCome, hpc, hbegun, Os.setCpu]
  | sleeps hpc ht hin =>
    obtain ⟨-, -, -, hbegun, -⟩ := Timer.step_test ht
    refine h.goes hos ⟨by simpa using hnonneg, by simp⟩ (by simpa [hpc] using hrested) ?_
    simp [cpuEvent, toCome, hpc, hbegun, Os.setCpu]
  | returns hpc ht hout =>
    obtain ⟨-, -, -, hbegun, -⟩ := Timer.step_test ht
    refine h.goes hos ⟨by simpa using hnonneg, by simp⟩ (by simpa [hpc] using hrested) ?_
    simp [cpuEvent, toCome, hpc, hbegun, Os.setCpu]
  | detaches hpc ht =>
    have hnone := hidle (Or.inr (Or.inr (Or.inl hpc)))
    exact h.goes hos ⟨by simpa using hnonneg, by simp⟩ (fun _ => by simpa using hrested (Or.inl hnone))
      (by simp [cpuEvent, toCome, hpc, hnone])

theorem step_sliceInv (hslot : 1 ≤ c.timeSlot) (hi : i < c.numCpus) {x x' : Os × List CpuEvent} {a : OsAct}
    (hstep : sliced c i x a = some x') (h : SliceInv c i x) : SliceInv c i x' := by
  obtain ⟨s, log⟩ := x
  obtain ⟨s', hos, rfl⟩ := logged_some.1 hstep
  have hinv : Os.Inv c s' := Os.step_inv (by omega) hos h.os
  cases a with
  | timer =>
    obtain ⟨t, ht, rfl⟩ := Os.devStep_some hos
    exact h.other hinv rfl ((Timer.step_routine ht).1 _).2 (fun _ _ => rfl)
  | loader =>
    obtain ⟨hcpu, hdev, hpcb⟩ := Os.ldRoutine_frame hos
    refine h.other hinv (by rw [hcpu]) (by rw [hdev _ (Os.cpuDev_ne_ldDev hi).symm]) (fun p hp => ?_)
    exact hpcb p (h.os.held_lt hi hp)
  | cpu j =>
    simp only [Os.step] at hos
    split at hos
    · rename_i hj
      by_cases hij : i = j
      · subst hij
        exact h.cpuRoutine hslot hi hos
      · obtain ⟨hcpu, hdev, hpcb, -⟩ := Os.cpuRoutine_frame hos
        have hevent : cpuEvent c i s (.cpu j) = [] := if_neg (fun e => hij (OsAct.cpu.inj e).symm)
        rw [hevent]
        exact h.other hinv (hcpu i hij) (by rw [hdev _ (Os.cpuDev_ne hi hj hij)])
          (fun p hp => hpcb p (h.os.holder_unique hi hj hij hp))
    · cases hos

end Step

/-- **What the CPU is about to do** continues its slices, also where the ready queue is full and `put_proc` ends the
program. -/
theorem SliceInv.next {c : Config} {i : Nat} {s : Os} {log : List CpuEvent} (h : SliceInv c i (s, log))
    (hslot : 1 ≤ c.timeSlot) (hi : i < c.numCpus) :
    ∃ ds : List Dispatch, log ++ cpuEvent c i s (.cpu i) <+: ds.flatMap (slice c) := by
  cases hstep : s.cpuRoutine c i with
  | some s' =>
    obtain ⟨ds, hds⟩ := (h.cpuRoutine hslot hi hstep).whole
    exact ⟨ds, _, hds⟩
  | none =>
    obtain ⟨ds, hds⟩ := h.whole
    refine ⟨ds, ?_⟩
    rw [← hds, List.prefix_append_right_inj]
    simp only [cpuEvent, if_true]
    split
    · rename_i p hpc hp
      simp [Os.cpuRoutine, hpc, hp] at hstep
    · rename_i p hpc hp
      simp [Os.cpuRoutine, hpc, hp] at hstep
    · rename_i p hpc hp
      split
      · rename_i hend
        simp [Os.cpuRoutine, hpc, hp, hend] at hstep
      · rename_i hend
        split
        · rename_i hleft
          simp [toCome, hpc, hp, hleft, toEnd, ending, hend]
        · exact List.nil_prefix
    · exact List.nil_prefix

/-- **Time slices are exact.**  With `time_slot` at least 1, whatever the interleaving, what a CPU does with
processes, and does next, is a sequence of whole slices and the beginning of another one: from a dispatch on, `run`
in consecutive slots as often as the slice and the program allow, then the end.  A CPU without a process has no
slice begun, and no time left of the last one. -/
theorem slices_exact (c : Config) (hslot : 1 ≤ c.timeSlot) {i : Nat} (hi : i < c.numCpus) {s : Os} {log : List CpuEvent}
    (h : Reach (sliced c i) (Os.start, []) (s, log)) :
    (∃ ds : List Dispatch, log ++ cpuEvent c i s (.cpu i) <+: ds.flatMap (slice c)) ∧
      ((s.cpu i).proc = none → (s.cpu i).timeLeft = 0 ∧ ∃ ds : List Dispatch, log = ds.flatMap (slice c)) := by
  have hinv : SliceInv c i (s, log) := h.inv (start_sliceInv c i) (fun ha hs => step_sliceInv hslot hi ha hs)
  refine ⟨hinv.next hslot hi, fun hnone => ⟨hinv.rested (Or.inl hnone), ?_⟩⟩
  obtain ⟨ds, hds⟩ := hinv.whole
  refine ⟨ds, ?_⟩
  rw [← hds]
  simp [toCome, hnone]

/-- Three instructions, `time_slot` 2: a full slice, then one cut short by the end of the program. -/
theorem slices_exact_three : ∃ (s : Os) (log : List CpuEvent),
    Reach (sliced ⟨2, 1, 1, fun _ => 0, fun _ => 138, fun _ => 3⟩ 0) (Os.start, []) (s, log) ∧
      log = [.dispatched 0 0 0, .ran 0 0 0, .ran 0 1 1, .putBack 0 2, .dispatched 0 2 2, .ran 0 2 2, .finished 0 3] ∧
      (s.cpu 0).proc = none ∧ (s.cpu 0).timeLeft = 0 := by
  have hsome : (runActions (sliced ⟨2, 1, 1, fun _ => 0, fun _ => 138, fun _ => 3⟩ 0)
      (repeated [(4, .loader), (4, .cpu 0), (7, .timer), (3, .loader), (5, .cpu 0), (7, .timer), (6, .cpu 0),
      (7, .timer), (2, .cpu 0)]) (Os.start, [])).any (fun x => x.2 = [.dispatched 0 0 0, .ran 0 0 0, .ran 0 1 1,
          .putBack 0 2, .dispatched 0 2 2, .ran 0 2 2, .finished 0 3] ∧ (x.1.cpu 0).proc = none) = true := by
    decide +kernel
  obtain ⟨⟨s, log⟩, hs, hq⟩ := (Option.any_eq_true _ _).1 hsome
  have hreach := reach_of_runActions _ hs
  obtain ⟨hlog, hnone⟩ := of_decide_eq_true hq
  exact ⟨s, log, hreach, hlog, hnone, ((slices_exact _ (by decide) (by decide) hreach).2 hnone).1⟩

end OsSim
