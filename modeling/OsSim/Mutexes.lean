import OsSim.Simulator
/-!
# Mutexes — `MEM_in_use` is released, and nobody waits for ever
`pg_getpage` and `vm_map_ram` each take the `MEM_in_use` of their own file.  Neither is reached from inside the other,
and each releases the mutex on every way out; so a CPU holds at most one of them, waits for none while it holds one,
and holds none between instructions.
-/
namespace OsSim

open Atomic Code Prog System

/-- What a CPU that holds `g` may do: take a mutex when it holds none, release the one it holds. -/
def lockRule : Discipline memSig (Option MemInUse) where
  may g
    | .lock _ => g = none
    | .unlock l => g = some l
    | _ => True
  next g
    | .lock l, _ => some l
    | .unlock _, _ => none
    | _, _ => g

/-- The program takes and releases the mutexes by the rule, and holds in the end what it began with. -/
abbrev Balanced {α : Type} (c : Code α) (g : Option MemInUse) : Prop := c.Obeys lockRule (fun g' _ => g' = g) g

def Op.lockless : Op → Prop
  | .lock _ | .unlock _ => False
  | _ => True

abbrev Lockless {α : Type} (c : Code α) : Prop := c.Within Op.lockless (fun _ => True)

section Functions

variable {α β : Type} {p : Pid} {g : Option MemInUse}

theorem Op.lockless_next {o : Op} (h : o.lockless) : lockRule.may g o ∧ ∀ r, lockRule.next g o r = g := by
  cases o with
  | lock l | unlock l => exact absurd h id
  | _ => exact ⟨trivial, fun _ => rfl⟩

theorem Lockless.balanced {c : Code α} (h : Lockless c) : Balanced c g := by
  refine (h.obeys (fun g' => g' = g) (fun g' o hg ho => ?_) rfl).mono (fun _ _ h => h.1)
  subst hg
  exact Op.lockless_next ho

theorem Lockless.op {o : Op} {f : o.Res → Code β} (ho : o.lockless) (hf : ∀ a, Lockless (f a)) :
    Lockless ((.op o .ret : Code o.Res) >>= f) :=
  ⟨ho, hf⟩

theorem Lockless.then {c : Code α} {f : α → Code β} (hc : Lockless c) (hf : ∀ a, Lockless (f a)) : Lockless (c >>= f) :=
  hc.bind (fun a _ => hf a)

theorem Balanced.then {c : Code α} {f : α → Code β} (hc : Balanced c g) (hf : ∀ a, Balanced (f a) g) :
    Balanced (c >>= f) g := by
  refine Obeys.bind hc (fun g' a hg => ?_)
  subst hg
  exact hf a

theorem lockless_fault (f : Fault) : Lockless (Code.fault f : Code α) := ⟨trivial, fun e => nomatch e⟩

/-! ### What takes no mutex -/

theorem lockless_swapCpPage (src : Dev) (srcfpn : Nat) (dst : Dev) (dstfpn : Nat) :
    Lockless (swapCpPage src srcfpn dst dstfpn) := by
  refine Within.loop (fun j => ?_) _ _
  refine Lockless.op (o := .read src _) trivial (fun data => ?_)
  cases data with
  | none => exact lockless_fault _
  | some data => exact ⟨trivial, fun _ => trivial⟩

theorem lockless_theVictim (vic : Option LruNode) : Lockless (theVictim vic) := by
  cases vic with
  | none => exact lockless_fault _
  | some v => trivial

theorem lockless_pgdAt (i : Int) : Lockless (pgdAt p i) := by
  unfold pgdAt
  split
  · trivial
  · exact lockless_fault _

theorem lockless_symrgAt (rgid : Int) : Lockless (symrgAt rgid) := by
  unfold symrgAt
  split
  · trivial
  · exact lockless_fault _

theorem lockless_getSymrgByid (mm : Mm) (rgid : Int) : Lockless (getSymrgByid mm rgid) := by
  unfold getSymrgByid
  split
  · exact lockless_fault _
  · split
    · exact lockless_fault _
    · trivial

theorem lockless_accessRg (rgid offset : Int) : Lockless (accessRg p rgid offset) := by
  refine Lockless.op trivial (fun mm => (lockless_getSymrgByid _ _).then (fun q => ?_))
  dsimp only
  split
  · trivial
  · split
    · trivial
    · split <;> trivial

theorem lockless_allocPagesRange : ∀ (n : Nat) (frmLst : List Nat), Lockless (allocPagesRange n frmLst)
  | 0, _ => trivial
  | n + 1, frmLst => by
    refine Lockless.op trivial (fun fpn => ?_)
    cases fpn with
    | some fpn => exact lockless_allocPagesRange n _
    | none =>
      refine Lockless.op trivial (fun vic => Lockless.op trivial (fun swpfpn => ?_))
      cases swpfpn with
      | none => exact lockless_fault _
      | some swpfpn =>
        refine (lockless_theVictim vic).then (fun v => (lockless_swapCpPage _ _ _ _).then (fun _ => ?_))
        exact Lockless.op trivial (fun _ => lockless_allocPagesRange n _)

theorem lockless_vmapLoop (vmaid pgn : Int) : ∀ (n : Nat) (frames : List Nat), Lockless (vmapLoop p vmaid pgn n frames)
  | 0, _ => trivial
  | _ + 1, [] => trivial
  | n + 1, fpn :: frames => by
    refine (lockless_pgdAt _).then (fun r => Lockless.op trivial (fun _ => Lockless.op trivial (fun _ => ?_)))
    exact Lockless.op trivial (fun _ => Lockless.op trivial (fun _ => lockless_vmapLoop vmaid pgn n frames))

theorem lockless_reuseSwapIn (r : PteRef) (pte : Pte) : Lockless (reuseSwapIn r pte) := by
  refine Lockless.op trivial (fun vic => Lockless.op trivial (fun swpfpn => ?_))
  cases swpfpn with
  | none => exact ⟨trivial, fun _ => trivial⟩
  | some swpfpn =>
    refine (lockless_theVictim vic).then (fun v => (lockless_swapCpPage _ _ _ _).then (fun _ => ?_))
    refine Lockless.op trivial (fun _ => (lockless_swapCpPage _ _ _ _).then (fun _ => ?_))
    refine Lockless.op trivial (fun _ => Lockless.op trivial (fun _ => Lockless.op trivial (fun _ => ?_)))
    exact ⟨trivial, fun _ => ⟨trivial, fun _ => trivial⟩⟩

theorem lockless_reusePage (r : PteRef) : Lockless (reusePage r) := by
  refine Lockless.op trivial (fun pte => Lockless.then (c := if pte.present then pure (some pte.fpn) else _) ?_ (fun o => ?_))
  · split
    · trivial
    · exact lockless_reuseSwapIn r pte
  · cases o with
    | none => trivial
    | some fpn => exact ⟨trivial, fun _ => ⟨trivial, fun _ => ⟨trivial, fun _ => trivial⟩⟩⟩

theorem lockless_reuseLoop (vmaid last : Int) : ∀ (fuel : Nat) (i : Int), Lockless (reuseLoop p vmaid last fuel i)
  | 0, _ => lockless_fault _
  | fuel + 1, i => by
    unfold reuseLoop
    split
    · trivial
    · refine (lockless_pgdAt i).then (fun r => (lockless_reusePage r).then (fun b => ?_))
      cases b with
      | false => trivial
      | true => exact lockless_reuseLoop vmaid last fuel _

/-! ### What takes one, and releases it -/

theorem locks_op {Q : Option MemInUse → β → Prop} {o : Op} {f : o.Res → Code β} (ho : lockRule.may g o)
    (hf : ∀ a, (f a).Obeys lockRule Q (lockRule.next g o a)) : ((.op o .ret : Code o.Res) >>= f).Obeys lockRule Q g :=
  ⟨ho, hf⟩

theorem locks_then {Q : Option MemInUse → β → Prop} {c : Code α} {f : α → Code β} (hc : Lockless c)
    (hf : ∀ a, (f a).Obeys lockRule Q g) : (c >>= f).Obeys lockRule Q g := by
  refine Obeys.bind hc.balanced (fun g' a hg => ?_)
  subst hg
  exact hf a

def heldOnline (online : Bool) : Option MemInUse := if online then some .mmVm else none

theorem locks_pgReplace (r : PteRef) (pte : Pte) :
    (pgReplace r pte).Obeys lockRule (fun g online => g = heldOnline online) (some .mmVm) := by
  refine locks_op trivial (fun vic => locks_op trivial (fun swpfpn => ?_))
  cases swpfpn with
  | none => exact locks_op trivial (fun _ => locks_op rfl (fun _ => rfl))
  | some swpfpn =>
    refine locks_then (lockless_theVictim vic) (fun v => locks_then (lockless_swapCpPage _ _ _ _) (fun _ => ?_))
    refine locks_then (lockless_swapCpPage _ _ _ _) (fun _ => locks_op trivial (fun _ => locks_op trivial (fun _ => ?_)))
    exact locks_op trivial (fun _ => locks_op trivial (fun _ => rfl))

theorem locks_pgBringIn (r : PteRef) (pte : Pte) :
    (pgBringIn r pte).Obeys lockRule (fun g online => g = heldOnline online) (some .mmVm) := by
  refine locks_op trivial (fun fpn => ?_)
  cases fpn with
  | none => exact locks_pgReplace r pte
  | some fpn =>
    refine locks_then (lockless_swapCpPage _ _ _ _) (fun _ => locks_op trivial (fun _ => locks_op trivial (fun _ => rfl)))

theorem balanced_pgGetpage (r : PteRef) : Balanced (pgGetpage r) none := by
  have hend : ∀ (online : Bool), Obeys lockRule (fun g _ => g = none) (if online then do
      addLruPage r
      note (.reference r)
      let pte ← readPte r
      unlock .mmVm
      pure (some pte.fpn)
    else pure none : Code (Option Nat)) (heldOnline online) := by
    intro online
    cases online with
    | false => rfl
    | true =>
      refine locks_op trivial (fun _ => locks_op trivial (fun _ => locks_op trivial (fun _ => ?_)))
      exact locks_op rfl (fun _ => rfl)
  refine locks_op rfl (fun _ => locks_op trivial (fun pte => ?_))
  dsimp only
  split
  · exact hend true
  · refine Obeys.bind (locks_pgBringIn r pte) (fun g online hg => ?_)
    subst hg
    exact hend online

theorem balanced_pgSetval (addr : Int) (v : Byte) (vmaid : Int) : Balanced (pgSetval p addr v vmaid) none := by
  refine (balanced_pgGetpage _).then (fun o => ?_)
  cases o with
  | none => rfl
  | some fpn => exact ⟨trivial, fun _ => rfl⟩

theorem balanced_pgGetval (addr vmaid : Int) : Balanced (pgGetval p addr vmaid) none := by
  refine (balanced_pgGetpage _).then (fun o => ?_)
  cases o with
  | none => rfl
  | some fpn => exact ⟨trivial, fun _ => rfl⟩

theorem balanced_vmMapRam (vmaid mapstart k : Int) : Balanced (vmMapRam p vmaid mapstart k) none := by
  refine locks_op rfl (fun _ => locks_op trivial (fun _ => locks_then (lockless_allocPagesRange _ _) (fun o => ?_)))
  cases o with
  | none => exact locks_op rfl (fun _ => rfl)
  | some frmLst =>
    refine locks_op trivial (fun mm => locks_then (lockless_vmapLoop _ _ _ _) (fun _ => ?_))
    exact locks_op rfl (fun _ => rfl)

theorem balanced_incVmaLimit (vmaid size : Int) : Balanced (incVmaLimit p vmaid size) none := by
  refine locks_op trivial (fun mm => ?_)
  dsimp only
  split
  · rfl
  · refine locks_op trivial (fun _ => (balanced_vmMapRam _ _ _).then (fun ret => ?_))
    split
    · exact locks_op trivial (fun _ => locks_op trivial (fun _ => rfl))
    · rfl

theorem balanced_alloc (fuel : Nat) (vmaid rgid size : Int) : Balanced (alloc fuel p vmaid rgid size) none := by
  refine locks_op trivial (fun mm => ?_)
  split
  · exact (lockless_fault _).balanced
  · refine locks_then (lockless_symrgAt rgid) (fun i => locks_op trivial (fun _ => ?_))
    exact (lockless_reuseLoop _ _ _ _).balanced
  · refine locks_op trivial (fun _ => locks_op trivial (fun mm => ?_))
    split
    · rfl
    · have hend : ∀ ret : Int, Lockless (if ret < 0 then pure (-1) else do
          let i ← symrgAt rgid
          let mm ← getMm p
          setMm p (commitRegion mm vmaid i size)
          pure (0 : Int) : Code Int) := by
        intro ret
        split
        · trivial
        · exact (lockless_symrgAt rgid).then (fun i => ⟨trivial, fun _ => ⟨trivial, fun _ => trivial⟩⟩)
      dsimp only
      split
      · exact (balanced_incVmaLimit _ _).then (fun ret => (hend ret).balanced)
      · exact (hend 0).balanced

theorem balanced_free (rgid : Int) : Balanced (free p rgid) none := by
  refine locks_op trivial (fun mm => ?_)
  split
  · rfl
  · refine locks_then (lockless_getSymrgByid _ _) (fun q => ?_)
    dsimp only
    split
    · rfl
    · refine Obeys.bind (Obeys.loop (fun g => g = none) (fun k g hg => ?_) _ _ _ rfl) (fun g _ hg => ?_)
      · subst hg
        exact (balanced_pgSetval _ _ _).then (fun _ => rfl)
      · subst hg
        refine locks_op trivial (fun mm => ?_)
        split
        · exact (lockless_fault _).balanced
        · exact locks_op trivial (fun _ => rfl)

theorem balanced_read (rgid offset : Int) : Balanced (read p rgid offset) none := by
  refine locks_then (lockless_accessRg _ _) (fun o => ?_)
  cases o with
  | none => rfl
  | some rg => exact (balanced_pgGetval _ _).then (fun _ => locks_op trivial (fun _ => rfl))

theorem balanced_write (rgid offset : Int) (v : Byte) : Balanced (write p rgid offset v) none := by
  refine locks_then (lockless_accessRg _ _) (fun o => ?_)
  cases o with
  | none => rfl
  | some rg => exact (balanced_pgSetval _ _ _).then (fun _ => locks_op trivial (fun _ => rfl))

theorem balanced_call (fuel : Nat) (c : Call) : Balanced (c.code fuel p) none := by
  cases c with
  | pgalloc size regIndex | pgmalloc size regIndex => exact (balanced_alloc _ _ _ _).then (fun _ => rfl)
  | pgfreeData regIndex => exact (balanced_free _).then (fun _ => rfl)
  | pgread source offset => exact balanced_read _ _
  | pgwrite data destination offset => exact (balanced_write _ _ _).then (fun _ => rfl)

/-- **A call of `run`** holds no mutex when it begins and none when it returns. -/
theorem balanced_cpuRun (turns : Nat) (proc : CpuPcb) : Balanced (cpuRun turns proc) none := by
  cases hins : proc.text[proc.pc]? with
  | none =>
    simp only [cpuRun, hins]
    rfl
  | some ins =>
    simp only [cpuRun, hins]
    refine Balanced.then ?_ (fun _ => rfl)
    unfold execInst
    split
    · rfl
    · exact (balanced_call turns (.pgalloc _ _)).then (fun _ => rfl)
    · exact (balanced_call turns (.pgmalloc _ _)).then (fun _ => rfl)
    · exact (balanced_call turns (.pgfreeData _)).then (fun _ => rfl)
    · exact (balanced_call turns (.pgread _ _)).then (fun _ => rfl)
    · exact (balanced_call turns (.pgwrite _ _ _)).then (fun _ => rfl)

end Functions

/-! ## In the simulator -/

namespace Sim

def Owns (owner : MemInUse → Option Nat) (holds : Nat → Option MemInUse) : Prop :=
  ∀ l i, owner l = some i ↔ holds i = some l

theorem Owns.take {owner : MemInUse → Option Nat} {holds : Nat → Option MemInUse} (h : Owns owner holds) {l₀ : MemInUse}
    {i : Nat} (hfree : owner l₀ = none) (hnone : holds i = none) :
    Owns (Function.update owner l₀ (some i)) (Function.update holds i (some l₀)) := by
  intro l j
  have hother : holds j ≠ some l₀ := fun hj => by
    rw [(h l₀ j).2 hj] at hfree
    cases hfree
  by_cases hl : l = l₀ <;> by_cases hj : j = i
  · subst hl hj
    simp
  · subst hl
    simpa [hj, Ne.symm hj] using hother
  · subst hj
    have hnot : owner l ≠ some j := fun howner => by
      rw [(h l j).1 howner] at hnone
      cases hnone
    simpa [hl, Ne.symm hl] using hnot
  · simpa [hl, hj] using h l j

theorem Owns.release {owner : MemInUse → Option Nat} {holds : Nat → Option MemInUse} (h : Owns owner holds) {l₀ : MemInUse}
    {i : Nat} (hheld : holds i = some l₀) :
    Owns (Function.update owner l₀ none) (Function.update holds i none) := by
  intro l j
  by_cases hl : l = l₀ <;> by_cases hj : j = i
  · subst hl hj
    simp
  · subst hl
    have hnot : holds j ≠ some l := fun hj' => by
      have howner := (h l j).2 hj'
      rw [(h l i).2 hheld] at howner
      exact hj (Option.some.inj howner).symm
    simpa [hj] using hnot
  · subst hj
    have hnot : owner l ≠ some j := fun howner => by
      rw [(h l j).1 howner] at hheld
      exact hl (Option.some.inj hheld)
    simpa [hl] using hnot
  · simpa [hl, hj] using h l j

/-- Each CPU holds what the owners say, and goes by the rule from here on. -/
structure Locks (x : Sim) (holds : Nat → Option MemInUse) : Prop where
  owner : Owns x.shared.owner holds
  obeys : ∀ i, (x.prog i).Obeys lockRule (fun g _ => g = none) (holds i)

section Step

variable {w : Workload} {x y : Sim} {holds : Nat → Option MemInUse}

theorem Locks.none (h : Locks x holds) {i : Nat} (hback : unreturned (x.prog i) = false) : holds i = none := by
  have hobeys := h.obeys i
  cases hprog : x.prog i with
  | ret a =>
    rw [hprog] at hobeys
    exact hobeys
  | op o k => simp [hprog, unreturned] at hback

/-- **One operation**: a mutex is taken when nobody has it, and released by the CPU that has it. -/
theorem Locks.operates (h : Locks x holds) {i : Nat} {o : Op} {k : o.Res → Code (CpuPcb × Int)} {s : Shared Nat} {r : o.Res}
    {hand : Nat → Hand} {log : List RunEvent} (hprog : x.prog i = .op o k) (hact : cpuAct i o x.shared = some (s, r)) :
    Locks ⟨x.os, s, Function.update x.prog i (k r), hand, log⟩
      (Function.update holds i (lockRule.next (holds i) o r)) := by
  have hobeys := h.obeys i
  rw [hprog] at hobeys
  obtain ⟨hmay, hnext⟩ := hobeys
  have howner : ownerAfter i x.shared.owner o = some s.owner := by
    unfold cpuAct at hact
    split at hact
    · rename_i owner m' r' hafter hstep
      cases hact
      exact hafter
    · cases hact
  refine ⟨?_, fun j => ?_⟩
  · cases o with
    | lock l₀ =>
      have hnone : holds i = .none := hmay
      simp only [ownerAfter] at howner
      split at howner
      · rename_i hfree
        rw [← Option.some.inj howner]
        exact h.owner.take hfree hnone
      · cases howner
    | unlock l₀ =>
      rw [← Option.some.inj howner]
      exact h.owner.release hmay
    | _ =>
      have hsame : x.shared.owner = s.owner := Option.some.inj howner
      rw [← hsame]
      change Owns x.shared.owner (Function.update holds i (holds i))
      rw [Function.update_eq_self]
      exact h.owner
  · by_cases hj : j = i
    · subst hj
      simpa using hnext r
    · simpa [hj] using h.obeys j

theorem Locks.step (h : ∃ holds, Locks x holds) {a : SimAct} (hstep : step w x a = some y) :
    ∃ holds, Locks y holds := by
  obtain ⟨holds, h⟩ := h
  cases step_cases hstep with
  | operates hi hprog hact => exact ⟨_, h.operates hprog hact⟩
  | @calls i p os turns hi hback hpc hp hos =>
    refine ⟨holds, h.owner, fun j => ?_⟩
    by_cases hj : j = i
    · subst hj
      rw [h.none hback]
      simpa using balanced_cpuRun turns (pcb w x.os p)
    · simpa [hj] using h.obeys j
  | goes hi hback hpc hos => exact ⟨holds, h.owner, h.obeys⟩
  | loader hos => exact ⟨holds, h.owner, h.obeys⟩
  | timer hos => exact ⟨holds, h.owner, h.obeys⟩

theorem start_locks (m : Machine) : ∃ holds, Locks (start m) holds :=
  ⟨fun _ => none, fun l i => ⟨fun h => (by cases h), fun h => (by cases h)⟩, fun _ => rfl⟩

def Faults (x : Sim) (i : Nat) : Prop := ∃ o k e, x.prog i = .op o k ∧ OsSim.step o x.shared.machine = .error e

def Moves (w : Workload) (x : Sim) (i : Nat) : Prop :=
  unreturned (x.prog i) = true ∧ ∀ turns, ∃ y, step w x (.cpu i turns) = some y

theorem held_up (hi : i < w.numCpus) {o : Op} {k : o.Res → Code (CpuPcb × Int)} (hprog : x.prog i = .op o k) :
    Moves w x i ∨ Faults x i ∨ ∃ l j, o = .lock l ∧ x.shared.owner l = some j := by
  have hown : ownerAfter i x.shared.owner o ≠ none ∨ ∃ l j, o = .lock l ∧ x.shared.owner l = some j := by
    cases o with
    | lock l =>
      cases hl : x.shared.owner l with
      | none => exact Or.inl (by simp [ownerAfter, hl])
      | some j => exact Or.inr ⟨l, j, rfl, hl⟩
    | unlock l => exact Or.inl (by simp [ownerAfter])
    | _ => exact Or.inl (by simp [ownerAfter])
  rcases hown with hown | htaken
  · obtain ⟨owner, howner⟩ := Option.ne_none_iff_exists'.1 hown
    cases hstep : OsSim.step o x.shared.machine with
    | error e => exact Or.inr (Or.inl ⟨o, k, e, hprog, hstep⟩)
    | ok q =>
      obtain ⟨m, r⟩ := q
      have hact : cpuAct i o x.shared = some (⟨m, owner⟩, r) := by simp only [cpuAct, howner, hstep]
      refine Or.inl ⟨by rw [hprog]; rfl, fun turns => ?_⟩
      simp only [Sim.step, if_pos hi, hprog, operate, hact, Option.map_some]
      exact ⟨_, rfl⟩
  · exact Or.inr (Or.inr htaken)

theorem Locks.inRun (h : Locks x holds) {l : MemInUse} {i : Nat} (hl : x.shared.owner l = some i) :
    unreturned (x.prog i) = true := by
  by_contra hback
  have hnone := h.none (i := i) (by simpa using hback)
  rw [(h.owner l i).1 hl] at hnone
  cases hnone

/-- **A CPU in an instruction** goes on, or comes to an operation without a meaning, or waits for a CPU that does. -/
theorem Inv.goesOn (hinv : Inv w x) (h : Locks x holds) {i : Nat} (hi : unreturned (x.prog i) = true) :
    Moves w x i ∨ Faults x i ∨
      ∃ l j k, x.prog i = .op (.lock l) k ∧ x.shared.owner l = some j ∧ j ≠ i ∧ (Moves w x j ∨ Faults x j) := by
  cases hprog : x.prog i with
  | ret a => simp [hprog, unreturned] at hi
  | op o k =>
    rcases held_up (hinv.inRun i hi).1 hprog with hmoves | hfaults | ⟨l, j, rfl, hl⟩
    · exact Or.inl hmoves
    · exact Or.inr (Or.inl hfaults)
    · have hwaits := h.obeys i
      rw [hprog] at hwaits
      have hnone : holds i = none := hwaits.1
      have hji : j ≠ i := by
        rintro rfl
        rw [(h.owner l j).1 hl] at hnone
        cases hnone
      refine Or.inr (Or.inr ⟨l, j, k, rfl, hl, hji, ?_⟩)
      have hj := h.inRun hl
      cases hprogj : x.prog j with
      | ret a => simp [hprogj, unreturned] at hj
      | op o' k' =>
        rcases held_up (hinv.inRun j hj).1 hprogj with hmoves | hfaults | ⟨l', j', rfl, -⟩
        · exact Or.inl hmoves
        · exact Or.inr hfaults
        · -- the CPU that has the mutex takes no other
          have hmay := h.obeys j
          rw [hprogj] at hmay
          have hnone' : holds j = none := hmay.1
          rw [(h.owner l j).1 hl] at hnone'
          cases hnone'

theorem reach_locks {m : Machine} (h : Reach (step w) (start m) x) : ∃ holds, Locks x holds :=
  h.inv (start_locks m) (fun ha hs => Locks.step hs ha)

end Step

/-- **The two `MEM_in_use` never hang the simulator**, in any interleaving.  A CPU has a mutex only while it is in an
instruction; and a CPU that cannot go on waits for one that can, or that has come to an operation without a meaning. -/
theorem mutexes_released (w : Workload) (hnum : 1 ≤ w.numCpus) {m : Machine} {x : Sim} (h : Reach (step w) (start m) x) :
    (∀ l i, x.shared.owner l = some i → unreturned (x.prog i) = true) ∧
      ∀ i, unreturned (x.prog i) = true → Moves w x i ∨ Faults x i ∨
        ∃ l j k, x.prog i = .op (.lock l) k ∧ x.shared.owner l = some j ∧ j ≠ i ∧ (Moves w x j ∨ Faults x j) := by
  have hinv : Inv w x := h.inv (start_inv w m) (fun ha hs => step_inv hnum ha hs)
  obtain ⟨holds, hlocks⟩ := reach_locks h
  exact ⟨fun l i hl => hlocks.inRun hl, fun i hi => hinv.goesOn hlocks hi⟩

def lockOf {α : Type} : Code α → Option MemInUse
  | .op (.lock l) _ => some l
  | _ => none

theorem lockOf_some {α : Type} {c : Code α} {l : MemInUse} (h : lockOf c = some l) : ∃ k, c = .op (.lock l) k := by
  unfold lockOf at h
  split at h
  · cases h
    exact ⟨_, rfl⟩
  · cases h

/-- CPU 1 waits for the mutex of `mm.c`; CPU 0 has it and goes on. -/
theorem mutexes_released_bothAlloc : ∃ x, Reach (step bothAlloc) (start (boot 1024 1024 1024)) x ∧
    x.shared.owner .mm = some 0 ∧ ¬ Moves bothAlloc x 1 ∧ (Moves bothAlloc x 0 ∨ Faults x 0) := by
  have hsome : (runActions (step bothAlloc) (repeated [(4, .loader), (5, .cpu 0 5), (4, .cpu 1 5), (9, .timer),
    (6, .loader), (12, .cpu 0 5), (9, .cpu 1 5)]) (start (boot 1024 1024 1024))).any
      (fun x => lockOf (x.prog 1) = some .mm ∧ x.shared.owner .mm = some 0 ∧
        (step bothAlloc x (.cpu 1 5)).isNone = true) = true := by
    decide +kernel
  obtain ⟨x, hx, hq⟩ := (Option.any_eq_true _ _).1 hsome
  obtain ⟨hlock, hmm, hblocked⟩ := of_decide_eq_true hq
  have hreach := reach_of_runActions _ hx
  obtain ⟨k, hk⟩ := lockOf_some hlock
  have hstuck : ¬ Moves bothAlloc x 1 := by
    rintro ⟨-, hmoves⟩
    obtain ⟨y, hy⟩ := hmoves 5
    rw [hy] at hblocked
    cases hblocked
  refine ⟨x, hreach, hmm, hstuck, ?_⟩
  rcases (mutexes_released bothAlloc (by decide) hreach).2 1 (by rw [hk]; rfl) with hmoves | ⟨o, k', e, hop, herr⟩ | hwait
  · exact absurd hmoves hstuck
  · rw [hk] at hop
    cases hop
    cases herr
  · obtain ⟨l, j, k', hop, hl, -, hj⟩ := hwait
    rw [hk] at hop
    cases hop
    rw [hmm] at hl
    cases hl
    exact hj

end Sim

end OsSim
