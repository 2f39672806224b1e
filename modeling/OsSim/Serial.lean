import OsSim.Simulator
/-!
# Serial — when the simulator's memory is that of instructions made one after the other
The results about runs of completed calls speak of calls that do not overlap.  The simulator makes such a run whenever
at most one CPU is in an instruction at a time, and so always where there is one CPU.
-/
namespace OsSim

open Atomic Code Prog System

/-- The instructions made one after the other, each by the process with the number. -/
inductive Performs : List (Pid × Inst) → Machine → Machine → Prop where
  | none (m : Machine) : Performs [] m m
  | next {l m m₁ m₂ p ins turns stat} (h : Performs l m m₁)
      (hrun : run (execInst turns p ins) m₁ = .ok (m₂, stat)) : Performs (l ++ [(p, ins)]) m m₂

theorem execInst_call {turns : Nat} {p : Pid} {ins : Inst} {m m' : Machine} {stat : Int}
    (h : run (execInst turns p ins) m = .ok (m', stat)) : m' = m ∨ CallStep anyCall m m' := by
  have hcall : ∀ {c : Call} {f : Ret → Int}, run ((c.code turns p) >>= fun r => pure (f r)) m = .ok (m', stat) →
      m' = m ∨ CallStep anyCall m m' := by
    intro c f hrun
    obtain ⟨m₁, ret, hcode, hret⟩ := run_bind_ok.1 hrun
    cases hret
    exact Or.inr ⟨p, c, ret, trivial, turns, hcode⟩
  unfold execInst at h
  split at h
  · cases h
    exact Or.inl rfl
  · exact hcall h
  · exact hcall h
  · exact hcall h
  · exact hcall (c := .pgread _ _) (f := fun r => r.1) h
  · exact hcall h

theorem Performs.calls {l : List (Pid × Inst)} {m m' : Machine} (h : Performs l m m') : Run anyCall m m' := by
  induction h with
  | none => exact .refl
  | next _ hrun ih =>
    rcases execInst_call hrun with rfl | hcall
    · exact ih
    · exact ih.tail hcall

theorem run_cpuRun_ok {turns : Nat} (proc : CpuPcb) {ins : Inst} (hins : proc.text[proc.pc]? = some ins)
    {m m' : Machine} {a : CpuPcb × Int} (h : run (cpuRun turns proc) m = .ok (m', a)) :
    run (execInst turns proc.pid ins) m = .ok (m', a.2) := by
  simp only [cpuRun, hins] at h
  obtain ⟨m₁, stat, hexec, hret⟩ := run_bind_ok.1 h
  cases hret
  exact hexec

theorem run_operation {α : Type} {o : Op} {k : o.Res → Code α} {m m' : Machine} {r : o.Res}
    (h : OsSim.step o m = .ok (m', r)) : run (.op o k) m = run (k r) m' := by
  rw [run, exec_op, h]

namespace Sim

def performedBy (w : Workload) : RunEvent → Option (Pid × Inst)
  | .begins _ _ => none
  | .returns pid pc => (w.text (pid - 1))[pc]?.map (fun ins => (pid, ins))

def performed (w : Workload) (x : Sim) : List (Pid × Inst) := x.log.filterMap (performedBy w)

theorem performedBy_begins (w : Workload) (pid : Pid) (pc : Nat) (l : List RunEvent) :
    (RunEvent.begins pid pc :: l).filterMap (performedBy w) = l.filterMap (performedBy w) := rfl

def Alone (x : Sim) : Prop := ∀ i j, unreturned (x.prog i) = true → unreturned (x.prog j) = true → i = j

abbrev AloneRun (w : Workload) : Sim → Sim → Prop := Relation.ReflTransGen (fun x y => Next (step w) x y ∧ Alone y)

/-- The CPU is in this instruction of process `p`, which began on the machine `m`. -/
structure Within (w : Workload) (m : Machine) (x : Sim) (i turns p pc : Nat) (ins : Inst) : Prop where
  fetched : (w.text p)[pc]? = some ins
  ends : (x.prog i).Within (fun _ => True) (Ends p (pc + 1))
  rest : run (x.prog i) x.shared.machine = run (cpuRun turns ⟨pidOf p, w.text p, fun _ => 0, pc⟩) m

/-- The memory is that of the instructions that have returned; and if a CPU is in one, it is where that one alone would
have come to. -/
structure Serial (w : Workload) (m₀ m : Machine) (x : Sim) : Prop where
  performs : Performs (performed w x) m₀ m
  idle : (∀ i, unreturned (x.prog i) = false) → x.shared.machine = m
  busy : ∀ i, unreturned (x.prog i) = true → ∃ turns p pc ins, Within w m x i turns p pc ins

section Step

variable {w : Workload} {m₀ m : Machine} {x y : Sim}

theorem performed_returned {c : Code (CpuPcb × Int)} {r : CpuPcb × Int} (hret : c = .ret r) {p pc : Nat} {ins : Inst}
    (hins : (w.text p)[pc]? = some ins) (hends : Ends p (pc + 1) r) :
    (returned c).filterMap (performedBy w) = [(pidOf p, ins)] := by
  subst hret
  obtain ⟨hpid, hpc⟩ := hends
  have hp : pidOf p - 1 = p := rfl
  simp [returned, performedBy, hpid, hpc, hp, hins]

/-- **An operation of the one instruction** that a CPU is in. -/
theorem Serial.operates (h : Serial w m₀ m x) (halone : Alone x) {i : Nat} {o : Op} {k : o.Res → Code (CpuPcb × Int)}
    {s : Shared Nat} {r : o.Res} {hand : Nat → Hand} (hprog : x.prog i = .op o k)
    (hact : cpuAct i o x.shared = some (s, r)) :
    ∃ m', Serial w m₀ m' ⟨x.os, s, Function.update x.prog i (k r), hand, x.log ++ returned (k r)⟩ := by
  have hrun : unreturned (x.prog i) = true := by rw [hprog]; rfl
  have hothers : ∀ j, j ≠ i → unreturned (x.prog j) = false := fun j hj => by
    by_contra hbusy
    exact hj (halone j i (by simpa using hbusy) hrun)
  obtain ⟨turns, p, pc, ins, hin⟩ := h.busy i hrun
  have hends := hin.ends
  have hrest := hin.rest
  rw [hprog] at hends hrest
  rw [run_operation (cpuAct_step hact)] at hrest
  have hnext : (k r).Within (fun _ => True) (Ends p (pc + 1)) := hends.2 r
  cases hk : k r with
  | ret a =>
    rw [hk] at hrest hnext
    refine ⟨s.machine, ?_, fun _ => rfl, fun j hj => ?_⟩
    · have hlog : performed w ⟨x.os, s, Function.update x.prog i (.ret a), hand, x.log ++ returned (.ret a)⟩ =
          performed w x ++ [(pidOf p, ins)] := by
        rw [← performed_returned (c := .ret a) rfl hin.fetched hnext]
        simp [performed]
      rw [hlog]
      exact h.performs.next (run_cpuRun_ok ⟨pidOf p, w.text p, fun _ => 0, pc⟩ hin.fetched hrest.symm)
    · by_cases hji : j = i
      · subst hji
        simp [unreturned] at hj
      · simp only [Function.update_of_ne hji, hothers j hji] at hj
        cases hj
  | op o' k' =>
    rw [hk] at hrest hnext
    refine ⟨m, by simpa [performed, returned] using h.performs, fun hidle => ?_, fun j hj => ?_⟩
    · have := hidle i
      simp [unreturned] at this
    · by_cases hji : j = i
      · subst hji
        exact ⟨turns, p, pc, ins, hin.fetched, by simpa using hnext, by simpa using hrest⟩
      · simp only [Function.update_of_ne hji, hothers j hji] at hj
        cases hj

/-- **A call of `run`** adds to the instructions that have returned only one without an operation, which leaves the
memory as it is. -/
theorem performs_called {l : List (Pid × Inst)} (h : Performs l m₀ m) (turns : Nat) (os : Os) (p : Nat) :
    Performs (l ++ (called turns (pcb w os p)).filterMap (performedBy w)) m₀ m := by
  have hends := cpuRun_ends turns (pcb w os p)
  cases hins : (w.text p)[(os.pcb p).pc]? with
  | none =>
    have hlen : ¬ (os.pcb p).pc < (w.text p).length := Nat.not_lt.2 (List.getElem?_eq_none_iff.1 hins)
    have hcalled : called turns (pcb w os p) = [] := if_neg hlen
    rw [hcalled, List.filterMap_nil, List.append_nil]
    exact h
  | some ins =>
    obtain ⟨hlen, -⟩ := List.getElem?_eq_some_iff.1 hins
    have hcalled : called turns (pcb w os p) =
        .begins (pidOf p) (os.pcb p).pc :: returned (cpuRun turns (pcb w os p)) := if_pos hlen
    rw [hcalled, performedBy_begins]
    cases hrun : cpuRun turns (pcb w os p) with
    | ret a =>
      rw [hrun] at hends
      have hends' : Ends p ((os.pcb p).pc + 1) a := ⟨hends.1, hends.2.trans (if_pos hlen)⟩
      have halready : run (cpuRun turns (pcb w os p)) m = .ok (m, a) := by rw [hrun]; rfl
      rw [performed_returned (c := .ret a) rfl hins hends']
      exact h.next (run_cpuRun_ok (pcb w os p) hins halready)
    | op o k => simpa [returned] using h

theorem within_called {i p turns : Nat} (hidle : x.shared.machine = m) (hi : x.prog i = cpuRun turns (pcb w y.os p))
    (hrun : unreturned (cpuRun turns (pcb w y.os p)) = true) : ∃ pc ins, Within w m x i turns p pc ins := by
  cases hins : (w.text p)[(y.os.pcb p).pc]? with
  | none =>
    have hret : cpuRun turns (pcb w y.os p) = .ret (pcb w y.os p, 1) := by simp only [cpuRun, pcb, hins]; rfl
    rw [hret] at hrun
    cases hrun
  | some ins =>
    obtain ⟨hlen, -⟩ := List.getElem?_eq_some_iff.1 hins
    have hpc : (if (y.os.pcb p).pc < (w.text p).length then (y.os.pcb p).pc + 1 else (y.os.pcb p).pc) =
      (y.os.pcb p).pc + 1 := if_pos hlen
    refine ⟨_, ins, hins, ?_, ?_⟩
    · rw [hi, ← hpc]
      exact cpuRun_ends turns (pcb w y.os p)
    · rw [hi, hidle, pcb]

/-- **A call of `run` begins**, no other being under way if this one has something to do. -/
theorem Serial.calls (h : Serial w m₀ m x) {i p turns : Nat} {os : Os} {hand : Nat → Hand}
    (hback : unreturned (x.prog i) = false)
    (halone : Alone ⟨os, x.shared, Function.update x.prog i (cpuRun turns (pcb w x.os p)), hand,
      x.log ++ called turns (pcb w x.os p)⟩) :
    Serial w m₀ m ⟨os, x.shared, Function.update x.prog i (cpuRun turns (pcb w x.os p)), hand,
      x.log ++ called turns (pcb w x.os p)⟩ := by
  refine ⟨?_, fun hall => h.idle (fun j => ?_), fun j hj => ?_⟩
  · simpa [performed] using performs_called (w := w) h.performs turns x.os p
  · by_cases hji : j = i
    · rwa [hji]
    · simpa only [Function.update_of_ne hji] using hall j
  · by_cases hji : j = i
    · subst hji
      have hrun : unreturned (cpuRun turns (pcb w x.os p)) = true := by simpa using hj
      -- no other CPU is in an instruction, so the memory is that of the instructions that have returned
      have hnone : ∀ k, unreturned (x.prog k) = false := fun k => by
        by_cases hkj : k = j
        · rwa [hkj]
        · by_contra hbusy
          exact hkj (halone k j (by simpa only [Function.update_of_ne hkj] using eq_true_of_ne_false hbusy) hj)
      obtain ⟨pc, ins, hin⟩ := within_called (x := ⟨os, x.shared, Function.update x.prog j (cpuRun turns (pcb w x.os p)),
        hand, x.log ++ called turns (pcb w x.os p)⟩) (h.idle hnone) (Function.update_self _ _ _) hrun
      exact ⟨turns, p, pc, ins, hin⟩
    · -- the other CPUs are where they were
      simp only [Function.update_of_ne hji] at hj
      obtain ⟨turns', p', pc', ins', hin⟩ := h.busy j hj
      refine ⟨turns', p', pc', ins', hin.fetched, ?_, ?_⟩
      · simpa only [Function.update_of_ne hji] using hin.ends
      · simpa only [Function.update_of_ne hji] using hin.rest

theorem Serial.step (h : ∃ m, Serial w m₀ m x) (halone : Alone x) {a : SimAct} (hstep : step w x a = some y)
    (halone' : Alone y) : ∃ m, Serial w m₀ m y := by
  obtain ⟨m, h⟩ := h
  have hsame : ∀ {os : Os} {hand : Nat → Hand}, Serial w m₀ m { x with os := os, hand := hand } := fun {os hand} =>
    ⟨h.performs, h.idle, fun j hj => by
      obtain ⟨turns, p, pc, ins, hin⟩ := h.busy j hj
      exact ⟨turns, p, pc, ins, hin.fetched, hin.ends, hin.rest⟩⟩
  cases step_cases hstep with
  | operates hi hprog hact => exact h.operates halone hprog hact
  | calls turns hi hback hpc hp hos => exact ⟨m, h.calls hback halone'⟩
  | goes hi hback hpc hos => exact ⟨m, hsame⟩
  | loader hos => exact ⟨m, hsame⟩
  | timer hos => exact ⟨m, hsame⟩

end Step

theorem start_serial (w : Workload) (m : Machine) : Serial w m m (start m) :=
  ⟨.none m, fun _ => rfl, fun i hi => (by cases hi)⟩

/-- **While the instructions do not overlap, the memory is what they make one after the other**, in the order in which
they return; and so every result about runs of completed calls is one about the simulator. -/
theorem serial_memory (w : Workload) {m : Machine} {x : Sim} (h : AloneRun w (start m) x)
    (hidle : ∀ i, unreturned (x.prog i) = false) :
    Performs (performed w x) m x.shared.machine ∧ Run anyCall m x.shared.machine := by
  have hserial : (∃ m', Serial w m m' x) ∧ Alone x := by
    clear hidle
    induction h with
    | refl => exact ⟨⟨m, start_serial w m⟩, fun i j hi => (by cases hi)⟩
    | tail _ hd ih =>
      obtain ⟨⟨a, ha⟩, halone⟩ := hd
      exact ⟨Serial.step ih.1 ih.2 ha halone, halone⟩
  obtain ⟨⟨m', hm'⟩, -⟩ := hserial
  rw [hm'.idle hidle]
  exact ⟨hm'.performs, hm'.performs.calls⟩

/-- **One CPU** is never in two instructions. -/
theorem aloneRun_oneCpu {w : Workload} (hnum : w.numCpus = 1) {m : Machine} {x : Sim} (h : Reach (step w) (start m) x) :
    AloneRun w (start m) x := by
  have hinv : ∀ {y : Sim}, Reach (step w) (start m) y → Alone y := fun hy i j hi hj => by
    have hy' : Inv w _ := hy.inv (start_inv w m) (fun ha hs => step_inv hnum.ge ha hs)
    have := (hy'.inRun i hi).1
    have := (hy'.inRun j hj).1
    omega
  induction h with
  | refl => exact .refl
  | tail hreach hd ih => exact ih.tail ⟨hd, hinv (hreach.tail hd)⟩

def aloneBelow (n : Nat) (x : Sim) : Bool :=
  decide (∀ i < n, ∀ j < n, unreturned (x.prog i) = true → unreturned (x.prog j) = true → i = j)

theorem aloneRun_of_runActions {w : Workload} (hnum : 1 ≤ w.numCpus) : ∀ (as : List SimAct) {x y : Sim},
    runActions (guard (step w) (fun x a => (step w x a).any (aloneBelow w.numCpus))) as x = some y → Inv w x →
      AloneRun w x y ∧ Inv w y
  | [], x, y, h, hx => by
    cases h
    exact ⟨.refl, hx⟩
  | a :: as, x, y, h, hx => by
    obtain ⟨z, hz, hrest⟩ := Option.bind_eq_some_iff.1 h
    obtain ⟨halone, hstep⟩ := guard_some.1 hz
    rw [hstep, Option.any_some] at halone
    have hinv : Inv w z := step_inv hnum hstep hx
    obtain ⟨hrun, hy⟩ := aloneRun_of_runActions hnum as hrest hinv
    exact ⟨.head ⟨⟨a, hstep⟩, fun i j hi hj => of_decide_eq_true halone i (hinv.inRun i hi).1 j (hinv.inRun j hj).1 hi hj⟩
      hrun, hy⟩

/-- One CPU runs `calc` of the first process and then the second process, the other CPU the rest of the first process:
the memory is that of the three instructions one after the other. -/
theorem serial_memory_bothAlloc : ∃ x, AloneRun bothAlloc (start (boot 1024 1024 1024)) x ∧
    (x.shared.machine.pgd ⟨1, 0⟩).present = true ∧ (x.shared.machine.pgd ⟨2, 0⟩).present = true ∧
    Performs [(1, ⟨.calc, 0, 0, 0⟩), (2, ⟨.alloc, 100, 0, 0⟩), (1, ⟨.alloc, 100, 0, 0⟩)] (boot 1024 1024 1024)
      x.shared.machine := by
  have hsome : (runActions (guard (step bothAlloc) (fun x a => (step bothAlloc x a).any (aloneBelow 2)))
      (repeated [(5, .loader), (5, .cpu 0 5), (4, .cpu 1 5), (6, .timer), (6, .loader), (1, .timer), (22, .cpu 1 5),
        (1, .timer), (22, .cpu 0 5)]) (start (boot 1024 1024 1024))).any
      (fun x => (x.shared.machine.pgd ⟨1, 0⟩).present = true ∧ (x.shared.machine.pgd ⟨2, 0⟩).present = true ∧
        (∀ i < 2, unreturned (x.prog i) = false) ∧
        performed bothAlloc x = [(1, ⟨.calc, 0, 0, 0⟩), (2, ⟨.alloc, 100, 0, 0⟩), (1, ⟨.alloc, 100, 0, 0⟩)]) = true := by
    decide +kernel
  obtain ⟨x, hx, hq⟩ := (Option.any_eq_true _ _).1 hsome
  obtain ⟨hfirst, hsecond, hback, hperformed⟩ := of_decide_eq_true hq
  obtain ⟨halone, hinv⟩ := aloneRun_of_runActions (w := bothAlloc) (by decide) _ hx (start_inv _ _)
  have hidle : ∀ i, unreturned (x.prog i) = false := fun i => by
    by_contra hbusy
    have hlt : i < 2 := (hinv.inRun i (by simpa using hbusy)).1
    exact hbusy (hback i hlt)
  refine ⟨x, halone, hfirst, hsecond, ?_⟩
  rw [← hperformed]
  exact (serial_memory bothAlloc halone hidle).1

end Sim

end OsSim
