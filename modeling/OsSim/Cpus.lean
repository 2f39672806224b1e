import OsSim.Places
import OsSim.Content
/-!
# Cpus — calls of several CPUs interleaved, operation by operation

Each CPU runs calls of a process of its own; any of them does the next operation.  A mutex is taken when no CPU
holds it: `MEM_in_use` is `static` in `mm.h`, so `mm.c` and `mm-vm.c` lock two different ones.
-/
namespace OsSim

open Atomic Code Prog

structure Shared (Cpu : Type) where
  machine : Machine
  owner : MemInUse → Option Cpu

abbrev CpuState (Cpu : Type) := Threads.State memSig (Shared Cpu) Cpu Hand Ret

section Cpus

variable {Cpu : Type}

/-- Who holds the mutexes after an operation of CPU `i`; none while it waits. -/
def ownerAfter (i : Cpu) (owner : MemInUse → Option Cpu) : Op → Option (MemInUse → Option Cpu)
  | .lock l => if owner l = none then some (Function.update owner l (some i)) else none
  | .unlock l => some (Function.update owner l none)
  | _ => some owner

/-- One operation of CPU `i`: none while it waits for a mutex, and none where the code has no meaning. -/
def cpuAct (i : Cpu) (o : Op) (s : Shared Cpu) : Option (Shared Cpu × o.Res) :=
  match ownerAfter i s.owner o, step o s.machine with
  | some owner, .ok (m, r) => some (⟨m, owner⟩, r)
  | _, _ => none

/-- A CPU begins any call of its process, with any number of turns. -/
def cpus (proc : Cpu → Pid) : Threads memSig (Shared Cpu) Cpu Hand Ret (Nat × Call) where
  act := cpuAct
  rule i := handRule (proc i)
  text i job := job.2.code job.1 (proc i)
  fresh := Hand.empty

def CpuState.idle (m : Machine) : CpuState Cpu := ⟨⟨m, fun _ => none⟩, fun _ => .ret (0, none), fun _ => Hand.empty⟩

abbrev ClearRun [DecidableEq Cpu] (proc : Cpu → Pid) : CpuState Cpu → CpuState Cpu → Prop :=
  (cpus proc).Run (fun x _ => Clear x.hand)

theorem cpuAct_step {i : Cpu} {o : Op} {s s' : Shared Cpu} {r : o.Res} (h : cpuAct i o s = some (s', r)) :
    step o s.machine = .ok (s'.machine, r) := by
  unfold cpuAct at h
  split at h
  · rename_i heq
    cases h
    exact heq
  · cases h

end Cpus

section Runs

variable {Cpu : Type} {proc : Cpu → Pid}

/-- **The store lands in the writer's own page**: in the frame that the page's entry holds, the page being in RAM,
and in no byte of another process's page. -/
structure Lands (p : Pid) (m : Machine) (r : PteRef) (addr : Nat) (v : Byte) : Prop where
  own : r.pid = p
  present : (m.pgd r).present = true
  frame : addr / pagingPagesz = (m.pgd r).fpn
  others : ∀ m' q j, step (.store r addr v) m = .ok (m', ()) → q.pid ≠ p → j < pagingPagesz →
    m'.pageByte q j = m.pageByte q j

theorem Placed.lands {hand : Cpu → Hand} {m : Machine} (h : Placed proc hand m) {i : Cpu} {r : PteRef} {addr : Nat}
    {v : Byte} (hmay : (hand i).may (proc i) (.store r addr v)) : Lands (proc i) m r addr v := by
  obtain ⟨hpage, hfpn, -⟩ := hmay
  obtain ⟨hown, hpres, hframe⟩ := h.pins i r hpage
  refine ⟨hown, hpres, (hframe _ hfpn).symm, fun m' q j hstep hq hj => ?_⟩
  have haddr : (m.pgd r).fpn = addr / 256 := hframe _ hfpn
  obtain ⟨mp, hwrite, heq⟩ := map_ok hstep
  cases heq
  unfold memphyWrite at hwrite
  split at hwrite
  · split at hwrite
    · cases hwrite
      refine pageByte_congr rfl (fun hqpres => ?_) (fun _ _ => rfl)
      have hj' : j < 256 := hj
      have hne : (m.pgd q).fpn ≠ (m.pgd r).fpn := fun e => hq ((h.inj q r hqpres hpres e) ▸ hown)
      change Memphy.page { m.mram with storage := Function.update m.mram.storage addr v } _ _ = _
      rw [page_update, if_neg]
      omega
    · cases hwrite
  · cases hwrite
    rfl

theorem Placed.untouched {hand : Cpu → Hand} {m : Machine} (h : Placed proc hand m) (hclear : Clear hand) {i : Cpu}
    {r : PteRef} (hpage : (hand i).page = some r) (hvic : (hand i).victim = none) :
    ∀ j, ∀ s ∈ (hand j).slots, s.frame ≠ (m.pgd r).fpn := by
  intro j s hs hf
  obtain ⟨-, hpres, -⟩ := h.pins i r hpage
  have hown := h.owner j s (List.mem_append_right _ hs) r hpres hf.symm
  simp only [Hand.slots, List.mem_append, List.mem_map, Option.mem_toList, Option.map_eq_some_iff] at hs
  rcases hs with ⟨f, -, rfl⟩ | ⟨v, hv, rfl⟩
  · cases hown
  · by_cases hj : j = i
    · rw [hj, hvic] at hv
      cases hv
    · have hpte : v.pte = r := Option.some.inj hown
      exact hclear i j (fun e => hj e.symm) v hv (by rw [hpage, hpte])

variable [DecidableEq Cpu]

/-- **In every interleaving in which no page is evicted while in hand**, every frame is in one place, and every CPU
goes on doing what it may. -/
theorem ClearRun.placed (hproc : Function.Injective proc) {x y : CpuState Cpu} (h : ClearRun proc x y)
    (hx : (cpus proc).Kept (fun hand s => Placed proc hand s.machine) x) :
    (cpus proc).Kept (fun hand s => Placed proc hand s.machine) y := by
  refine Threads.Kept.run (fun i hand s hs => hs.empty) (fun x i o k s r _ hclear hinv hmay hact => ?_)
    (fun i job => handles_call job.1 job.2) h hx
  exact hinv.step hproc hclear hmay (cpuAct_step hact)

/-- **A write lands in the writer's own page** in every interleaving in which no page is evicted while in hand, and
no CPU has the frame in hand meanwhile. -/
theorem write_lands (hproc : Function.Injective proc) {n : Nat} (hn : n ≤ 8192) {m : Machine} (hm : Booted m)
    (hfree : m.mram.freeFpList.Perm (List.range n)) {x : CpuState Cpu} (hrun : ClearRun proc (CpuState.idle m) x)
    (hclear : Clear x.hand) {i : Cpu} {r : PteRef} {addr : Nat} {v : Byte} {k : Unit → Code Ret}
    (hstore : x.prog i = .op (.store r addr v) k) :
    Lands (proc i) x.shared.machine r addr v ∧ ∀ j, ∀ s ∈ (x.hand j).slots, s.frame ≠ addr / pagingPagesz := by
  have hstart : (cpus proc).Kept (fun hand s => Placed proc hand s.machine) (CpuState.idle m) :=
    ⟨hm.placed hn hfree proc, fun _ => trivial⟩
  have hkept := ClearRun.placed hproc hrun hstart
  have hobeys := hkept.obeys i
  rw [hstore] at hobeys
  have hmay : (x.hand i).may (proc i) (.store r addr v) := hobeys.1
  have hlands := hkept.inv.lands hmay
  refine ⟨hlands, ?_⟩
  rw [hlands.frame]
  exact hkept.inv.untouched hclear hmay.1 hmay.2.2

end Runs

/-! ## Two CPUs -/

abbrev twoCpus : Threads memSig (Shared (Fin 2)) (Fin 2) Hand Ret (Nat × Call) := cpus (fun i => i.val)

def burst (i : Fin 2) (c : Call) (n : Nat) : List (Threads.Sched (Fin 2) (Nat × Call)) :=
  .start i (2, c) :: List.replicate n (.advance i)

def storeOf {α : Type} : Code α → Option (PteRef × Nat × Byte)
  | .op (.store r addr v) _ => some (r, addr, v)
  | _ => none

theorem storeOf_some {α : Type} {c : Code α} {r : PteRef} {addr : Nat} {v : Byte} (h : storeOf c = some (r, addr, v)) :
    ∃ k, c = .op (.store r addr v) k := by
  unfold storeOf at h
  split at h
  · cases h
    exact ⟨_, rfl⟩
  · cases h

/-- Process 0 has found its page in frame 0 and is about to store a byte; process 1 then allocates two pages, and
the page is evicted. -/
def evictedMeanwhile : Option (CpuState (Fin 2)) :=
  System.runActions twoCpus.step
    (burst 0 (.pgalloc 256 0) 16 ++ burst 0 (.pgwrite 7 0 0) 7 ++ burst 1 (.pgalloc 512 0) 536)
    (CpuState.idle (boot 512 16384 4096))

/-- **The byte goes into a page of process 1**, its own page being out of RAM. -/
theorem write_lands_fails :
    ∃ x r addr v k m', System.Reach twoCpus.step (CpuState.idle (boot 512 16384 4096)) x ∧
      x.prog 0 = .op (.store r addr v) k ∧ r.pid = 0 ∧ (x.shared.machine.pgd r).present = false ∧
      step (.store r addr v) x.shared.machine = .ok (m', ()) ∧
      m'.pageByte ⟨1, 1⟩ 0 ≠ x.shared.machine.pageByte ⟨1, 1⟩ 0 ∧ ¬ Lands 0 x.shared.machine r addr v := by
  have hsome : evictedMeanwhile.any (fun x => decide (storeOf (x.prog 0) = some (⟨0, 0⟩, 0, 7)) &&
      decide ((x.shared.machine.pgd ⟨0, 0⟩).present = false) &&
      (step (.store ⟨0, 0⟩ 0 7) x.shared.machine).toOption.any
        (fun q => decide (q.1.pageByte ⟨1, 1⟩ 0 ≠ x.shared.machine.pageByte ⟨1, 1⟩ 0))) = true := by
    decide +kernel
  obtain ⟨x, hx, hq⟩ := (Option.any_eq_true _ _).1 hsome
  rw [Bool.and_eq_true, Bool.and_eq_true, decide_eq_true_iff, decide_eq_true_iff] at hq
  obtain ⟨⟨hstore, hpres⟩, hbyte⟩ := hq
  obtain ⟨⟨m', u⟩, hm', hne⟩ := (Option.any_eq_true _ _).1 hbyte
  obtain ⟨k, hk⟩ := storeOf_some hstore
  have hstep : step (.store ⟨0, 0⟩ 0 7) x.shared.machine = .ok (m', ()) := by
    cases hs : step (.store ⟨0, 0⟩ 0 7) x.shared.machine with
    | error e => rw [hs] at hm'; cases hm'
    | ok q => rw [hs] at hm'; cases hm'; rfl
  refine ⟨x, _, _, _, k, m', System.reach_of_runActions _ hx, hk, rfl, hpres, hstep, of_decide_eq_true hne,
    fun hlands => ?_⟩
  rw [hlands.present] at hpres
  cases hpres

/-- Process 0 has found its page and is about to store a byte; process 1 is copying another page of process 0 out. -/
def evictingAnother : Option (CpuState (Fin 2)) :=
  System.runActions (System.guard twoCpus.step (fun x _ => decide (Clear x.hand)))
    (burst 0 (.pgalloc 512 0) 21 ++ burst 1 (.pgalloc 256 0) 30 ++ burst 0 (.pgwrite 7 0 0) 7)
    (CpuState.idle (boot 512 16384 4096))

/-- The byte of process 0 lands in its own page while process 1 evicts the next one. -/
theorem write_lands_evicting : ∃ (x : CpuState (Fin 2)) (r : PteRef) (addr : Nat) (v : Byte),
    (∃ k, x.prog 0 = .op (.store r addr v) k) ∧ (x.hand 1).victim ≠ none ∧
    Lands 0 x.shared.machine r addr v ∧ ∀ j, ∀ s ∈ (x.hand j).slots, s.frame ≠ addr / pagingPagesz := by
  have hsome : evictingAnother.any (fun x => decide (storeOf (x.prog 0) = some (⟨0, 0⟩, 0, 7)) && decide (Clear x.hand) &&
      decide ((x.hand 1).victim ≠ none)) = true := by
    decide +kernel
  obtain ⟨x, hx, hq⟩ := (Option.any_eq_true _ _).1 hsome
  rw [Bool.and_eq_true, Bool.and_eq_true, decide_eq_true_iff, decide_eq_true_iff, decide_eq_true_iff] at hq
  obtain ⟨⟨hstore, hclear⟩, hvic⟩ := hq
  obtain ⟨k, hk⟩ := storeOf_some hstore
  have hrun : ClearRun (fun i : Fin 2 => i.val) (CpuState.idle (boot 512 16384 4096)) x := Threads.run_of_runActions _ hx
  exact ⟨x, _, _, _, ⟨k, hk⟩, hvic, write_lands (fun _ _ => Fin.eq_of_val_eq) (by decide) (booted_boot 512 16384 4096)
    (initMemphy_free 2 (by decide)) hrun hclear hk⟩

end OsSim
