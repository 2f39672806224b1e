import OsSim.Simulator
/-!
# Residence — the pages in RAM while the whole simulator runs
In `Cpus` each CPU has a process of its own for good.  Here the scheduler hands the processes round, and what `Cpus`
asks for is what `Os.Inv` gives: no process is with two CPUs.
-/
namespace OsSim

open Atomic Code Prog System

theorem Placed.reassign {Cpu : Type} {proc proc' : Cpu → Pid} {hand : Cpu → Hand} {m : Machine} (h : Placed proc hand m)
    (hsame : ∀ i, proc' i = proc i ∨ (hand i).page = none) : Placed proc' hand m where
  deal := h.deal
  small := h.small
  owner := h.owner
  inj := h.inj
  pins i r hr := by
    rcases hsame i with heq | hnone
    · rw [heq]
      exact h.pins i r hr
    · rw [hnone] at hr
      cases hr

namespace Sim

/-- Whose memory a CPU works on; a CPU with no process has a number that no process has. -/
def whose (w : Workload) (os : Os) (i : Nat) : Pid :=
  match (os.cpu i).proc with
  | some p => pidOf p
  | none => w.numProcesses + 1 + i

theorem whose_some {w : Workload} {os : Os} {i p : Nat} (hp : (os.cpu i).proc = some p) : whose w os i = pidOf p := by
  rw [whose, hp]

theorem Inv.whose_injective {w : Workload} {x : Sim} (h : Inv w x) : Function.Injective (whose w x.os) := by
  have hlt : ∀ {i p}, (x.os.cpu i).proc = some p → i < w.numCpus ∧ p < w.numProcesses := fun {i p} hp => by
    have hi : i < w.numCpus := by
      by_contra hge
      rw [h.beyond i (Nat.le_of_not_lt hge)] at hp
      cases hp
    exact ⟨hi, (h.os.held_lt hi hp).trans_le h.os.loaded_le⟩
  intro i j hij
  unfold whose at hij
  by_contra hne
  cases hi : (x.os.cpu i).proc with
  | some p =>
    have hp := (hlt hi).2
    cases hj : (x.os.cpu j).proc with
    | some q =>
      simp only [hi, hj, pidOf] at hij
      obtain rfl : p = q := Nat.succ.inj hij
      exact h.os.holder_unique (hlt hi).1 (hlt hj).1 hne hi hj
    | none =>
      simp only [hi, hj] at hij
      have hpid : p + 1 = w.numProcesses + 1 + j := hij
      omega
  | none =>
    cases hj : (x.os.cpu j).proc with
    | some q =>
      have hq := (hlt hj).2
      simp only [hi, hj] at hij
      have hpid : w.numProcesses + 1 + i = q + 1 := hij
      omega
    | none =>
      simp only [hi, hj] at hij
      exact hne (Nat.add_left_cancel hij)

theorem handles_cpuRun (turns : Nat) (proc : CpuPcb) :
    Handles proc.pid (fun _ _ => True) (cpuRun turns proc) Hand.empty := by
  cases hins : proc.text[proc.pc]? with
  | none =>
    simp only [cpuRun, hins]
    trivial
  | some ins =>
    simp only [cpuRun, hins]
    refine Obeys.bind (Q := fun _ _ => True) ?_ (fun _ _ _ => trivial)
    unfold execInst
    split
    · trivial
    · exact Obeys.bind (handles_call turns (.pgalloc _ _)) (fun _ _ _ => trivial)
    · exact Obeys.bind (handles_call turns (.pgmalloc _ _)) (fun _ _ _ => trivial)
    · exact Obeys.bind (handles_call turns (.pgfreeData _)) (fun _ _ _ => trivial)
    · exact Obeys.bind (handles_call turns (.pgread _ _)) (fun _ _ _ => trivial)
    · exact Obeys.bind (handles_call turns (.pgwrite _ _ _)) (fun _ _ _ => trivial)

/-- The memory of the whole simulator: every frame is in one place, and a CPU in an instruction does what the process it
holds may. -/
structure Resident (w : Workload) (x : Sim) : Prop where
  inv : Inv w x
  placed : Placed (whose w x.os) x.hand x.shared.machine
  obeys : ∀ i, (x.prog i).Obeys (handRule (whose w x.os i)) (fun _ _ => True) (x.hand i)

/-- The runs in which no page is evicted by one CPU while another has it in hand. -/
abbrev ClearRun (w : Workload) : Sim → Sim → Prop := Relation.ReflTransGen (fun x y => Clear x.hand ∧ Next (step w) x y)

section Step

variable {w : Workload} {x y : Sim}

namespace Resident

/-- What one CPU is in the middle of changes. -/
theorem update_obeys (h : Resident w x) {i : Nat} {p : Code (CpuPcb × Int)} {g : Hand}
    (hp : p.Obeys (handRule (whose w x.os i)) (fun _ _ => True) g) (j : Nat) :
    (Function.update x.prog i p j).Obeys (handRule (whose w x.os j)) (fun _ _ => True)
      (Function.update x.hand i g j) := by
  by_cases hj : j = i
  · subst hj
    rwa [Function.update_self, Function.update_self]
  · rw [Function.update_of_ne hj, Function.update_of_ne hj]
    exact h.obeys j

theorem calls (h : Resident w x) {i p turns : Nat} {os : Os} (hpc : (x.os.cpu i).pc = .run)
    (hp : (x.os.cpu i).proc = some p) (hos : x.os.cpuRoutine w.config i = some os)
    (hinv : Inv w ⟨os, x.shared, Function.update x.prog i (cpuRun turns (pcb w x.os p)),
      Function.update x.hand i Hand.empty, x.log ++ called turns (pcb w x.os p)⟩) :
    Resident w ⟨os, x.shared, Function.update x.prog i (cpuRun turns (pcb w x.os p)),
      Function.update x.hand i Hand.empty, x.log ++ called turns (pcb w x.os p)⟩ := by
  obtain ⟨hcpu, -, -⟩ := cpuRoutine_run hos hpc hp
  have hwhose : whose w os = whose w x.os := by
    funext j
    unfold whose
    by_cases hj : j = i
    · subst hj
      simp [hcpu, hp]
    · rw [hcpu, Os.setCpu_of_ne _ _ hj]
  refine ⟨hinv, ?_, ?_⟩
  · dsimp only
    rw [hwhose]
    exact h.placed.empty
  · dsimp only
    rw [hwhose]
    refine h.update_obeys ?_
    rw [whose_some hp]
    exact handles_cpuRun turns (pcb w x.os p)

/-- A CPU that is in no instruction may be given another process. -/
theorem goes (h : Resident w x) {i : Nat} {os : Os} (hback : unreturned (x.prog i) = false)
    (hos : x.os.cpuRoutine w.config i = some os)
    (hinv : Inv w ⟨os, x.shared, x.prog, Function.update x.hand i Hand.empty, x.log⟩) :
    Resident w ⟨os, x.shared, x.prog, Function.update x.hand i Hand.empty, x.log⟩ := by
  obtain ⟨hcpu, -, -, -⟩ := Os.cpuRoutine_frame hos
  have hwhose : ∀ j, j ≠ i → whose w os j = whose w x.os j := fun j hj => by rw [whose, whose, hcpu j hj]
  refine ⟨hinv, ?_, fun j => ?_⟩
  · refine (h.placed.empty (i := i)).reassign (fun j => ?_)
    by_cases hj : j = i
    · subst hj
      exact Or.inr (by simp [Hand.holding])
    · exact Or.inl (hwhose j hj)
  · by_cases hj : j = i
    · subst hj
      dsimp only
      cases hprog : x.prog j with
      | ret r => trivial
      | op o k => simp [hprog, unreturned] at hback
    · dsimp only
      rw [hwhose j hj, Function.update_of_ne hj]
      exact h.obeys j

theorem loader (h : Resident w x) {os : Os} (hos : x.os.ldRoutine w.config = some os) (hinv : Inv w { x with os := os }) :
    Resident w { x with os := os } := by
  have hwhose : whose w os = whose w x.os := by
    funext j
    rw [whose, whose, (Os.ldRoutine_frame hos).1]
  refine ⟨hinv, ?_, ?_⟩
  · dsimp only
    rw [hwhose]
    exact h.placed
  · dsimp only
    rw [hwhose]
    exact h.obeys

theorem step (hnum : 1 ≤ w.numCpus) (hclear : Clear x.hand) {a : SimAct} (hstep : step w x a = some y)
    (h : Resident w x) : Resident w y := by
  have hinv := step_inv hnum hstep h.inv
  cases step_cases hstep with
  | @operates i o k s r hi hprog hact =>
    have hobeys := h.obeys i
    rw [hprog] at hobeys
    exact ⟨hinv, h.placed.step h.inv.whose_injective hclear hobeys.1 (cpuAct_step hact), h.update_obeys (hobeys.2 r)⟩
  | calls turns hi hback hpc hp hos => exact h.calls hpc hp hos hinv
  | goes hi hback hpc hos => exact h.goes hback hos hinv
  | loader hos => exact h.loader hos hinv
  | timer hos =>
    obtain ⟨t, -, rfl⟩ := Os.devStep_some hos
    exact ⟨hinv, h.placed, h.obeys⟩

end Resident

theorem start_resident (w : Workload) {m : Machine} (hm : Booted m) {n : Nat} (hn : n ≤ 8192)
    (hfree : m.mram.freeFpList.Perm (List.range n)) : Resident w (start m) :=
  ⟨start_inv w m, hm.placed hn hfree _, fun _ => trivial⟩

theorem ClearRun.resident (hnum : 1 ≤ w.numCpus) (hrun : ClearRun w x y) (h : Resident w x) : Resident w y := by
  induction hrun with
  | refl => exact h
  | tail _ hd ih =>
    obtain ⟨hclear, a, ha⟩ := hd
    exact ih.step hnum hclear ha

end Step

/-- **A byte is stored in a page of the process the scheduler gave the CPU**, in every interleaving of the whole
simulator in which no page is evicted while another CPU has it in hand: in the frame the page's entry holds, and in no
page of another process.  No CPU has the frame in hand meanwhile, and no two pages have one frame. -/
theorem store_lands (w : Workload) (hnum : 1 ≤ w.numCpus) {m : Machine} (hm : Booted m) {n : Nat} (hn : n ≤ 8192)
    (hfree : m.mram.freeFpList.Perm (List.range n)) {x : Sim} (hrun : ClearRun w (start m) x) (hclear : Clear x.hand)
    {i : Nat} {r : PteRef} {addr : Nat} {v : Byte} {k : Unit → Code (CpuPcb × Int)}
    (hstore : x.prog i = .op (.store r addr v) k) :
    (∃ p, (x.os.cpu i).proc = some p ∧ p < Os.loaded w.config x.os ∧ Lands (pidOf p) x.shared.machine r addr v) ∧
      (∀ j, ∀ s ∈ (x.hand j).slots, s.frame ≠ addr / pagingPagesz) ∧
      ∀ q q', (x.shared.machine.pgd q).present = true → (x.shared.machine.pgd q').present = true →
        (x.shared.machine.pgd q).fpn = (x.shared.machine.pgd q').fpn → q = q' := by
  have hres : Resident w x := hrun.resident hnum (start_resident w hm hn hfree)
  obtain ⟨hi, -, p, hp, -⟩ := hres.inv.inRun i (by rw [hstore]; rfl)
  have hobeys := hres.obeys i
  rw [hstore] at hobeys
  have hmay : (x.hand i).may (whose w x.os i) (.store r addr v) := hobeys.1
  have hlands := hres.placed.lands hmay
  refine ⟨⟨p, hp, hres.inv.os.held_lt hi hp, by rwa [whose_some hp] at hlands⟩, ?_, hres.placed.inj⟩
  rw [hlands.frame]
  exact hres.placed.untouched hclear hmay.1 hmay.2.2

/-! ## Runs computed -/

def clearBelow (n : Nat) (x : Sim) : Bool :=
  decide (∀ i < n, ∀ j < n, i ≠ j → ∀ v ∈ (x.hand j).victim, (x.hand i).page ≠ some v.pte)

theorem clear_of_clearBelow {w : Workload} {x : Sim} (hbeyond : ∀ i, w.numCpus ≤ i → x.hand i = Hand.empty)
    (h : clearBelow w.numCpus x = true) : Clear x.hand := by
  intro i j hij v hv hpage
  have hi : i < w.numCpus := by
    by_contra hge
    rw [hbeyond i (Nat.le_of_not_lt hge)] at hpage
    cases hpage
  have hj : j < w.numCpus := by
    by_contra hge
    rw [hbeyond j (Nat.le_of_not_lt hge)] at hv
    cases hv
  exact of_decide_eq_true h i hi j hj hij v hv hpage

theorem step_hand_beyond {w : Workload} {x y : Sim} {a : SimAct} (hstep : step w x a = some y)
    (h : ∀ i, w.numCpus ≤ i → x.hand i = Hand.empty) : ∀ i, w.numCpus ≤ i → y.hand i = Hand.empty := by
  have hupdate : ∀ {i : Nat} {g : Hand}, i < w.numCpus → ∀ j, w.numCpus ≤ j →
      Function.update x.hand i g j = Hand.empty := fun {i g} hi j hj => by
    rw [Function.update_of_ne (by omega)]
    exact h j hj
  cases step_cases hstep with
  | operates hi hprog hact => exact hupdate hi
  | calls turns hi hback hpc hp hos => exact hupdate hi
  | goes hi hback hpc hos => exact hupdate hi
  | loader hos => exact h
  | timer hos => exact h

theorem clearRun_of_runActions {w : Workload} : ∀ (as : List SimAct) {x y : Sim},
    runActions (guard (step w) (fun x _ => clearBelow w.numCpus x)) as x = some y →
    (∀ i, w.numCpus ≤ i → x.hand i = Hand.empty) → ClearRun w x y ∧ ∀ i, w.numCpus ≤ i → y.hand i = Hand.empty
  | [], x, y, h, hx => by
    cases h
    exact ⟨.refl, hx⟩
  | a :: as, x, y, h, hx => by
    obtain ⟨z, hz, hrest⟩ := Option.bind_eq_some_iff.1 h
    obtain ⟨hclear, hstep⟩ := guard_some.1 hz
    obtain ⟨hrun, hy⟩ := clearRun_of_runActions as hrest (step_hand_beyond hstep hx)
    exact ⟨.head ⟨clear_of_clearBelow hx hclear, a, hstep⟩ hrun, hy⟩

/-- Two CPUs; the first process allocates and then writes, the second allocates. -/
def twoAllocs : Workload :=
  ⟨2, 2, 2, fun _ => 0, fun _ => 0,
    fun p => if p = 0 then [⟨.alloc, 100, 0, 0⟩, ⟨.write, 7, 0, 0⟩] else [⟨.alloc, 100, 0, 0⟩]⟩

/-- CPU 0 is about to store the byte 7 for the first process, and CPU 1 has frame 1 in hand for the second. -/
theorem store_lands_twoAllocs : ∃ x : Sim, (∃ k, x.prog 0 = .op (.store ⟨1, 0⟩ 0 7) k) ∧ (x.hand 1).frames = [1] ∧
    (∃ p, (x.os.cpu 0).proc = some p ∧ p < Os.loaded twoAllocs.config x.os ∧
      Lands (pidOf p) x.shared.machine ⟨1, 0⟩ 0 7) ∧
    (∀ j, ∀ s ∈ (x.hand j).slots, s.frame ≠ 0 / pagingPagesz) ∧
    ∀ q q', (x.shared.machine.pgd q).present = true → (x.shared.machine.pgd q').present = true →
      (x.shared.machine.pgd q).fpn = (x.shared.machine.pgd q').fpn → q = q' := by
  have hsome : (runActions (guard (step twoAllocs) (fun x _ => clearBelow 2 x)) (repeated [(4, .loader),
    (28, .cpu 0 5), (4, .cpu 1 5), (9, .timer), (6, .loader), (12, .cpu 1 5), (11, .cpu 0 5)])
          (start (boot 1024 1024 1024))).any
      (fun x => decide (storeOf (x.prog 0) = some (⟨1, 0⟩, 0, 7)) && clearBelow 2 x &&
        decide ((x.hand 1).frames = [1])) = true := by
    decide +kernel
  obtain ⟨x, hx, hq⟩ := (Option.any_eq_true _ _).1 hsome
  rw [Bool.and_eq_true, Bool.and_eq_true, decide_eq_true_iff, decide_eq_true_iff] at hq
  obtain ⟨⟨hstore, hclear⟩, hframes⟩ := hq
  obtain ⟨k, hk⟩ := storeOf_some hstore
  obtain ⟨hrun, hbeyond⟩ := clearRun_of_runActions (w := twoAllocs) _ hx (fun _ _ => rfl)
  exact ⟨x, ⟨k, hk⟩, hframes, store_lands twoAllocs (by decide) (booted_boot 1024 1024 1024) (by decide)
    (initMemphy_free 4 (by decide)) hrun (clear_of_clearBelow hbeyond hclear) hk⟩

end Sim

end OsSim
