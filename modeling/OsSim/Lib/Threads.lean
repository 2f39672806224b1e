import OsSim.Lib.Program
import OsSim.Lib.System
/-!
# Threads — programs interleaved, each under a discipline

Several threads share a state and do one operation each at a time, in any order; a thread whose program has ended begins
another.  What a thread is in the middle of is its hand: a history of what it did, which no program reads.  A discipline
says what a thread may do with what it has in hand, and what it has in hand then.  That a
program keeps to the discipline is checked on its text alone; what every allowed operation keeps is then kept by every
interleaving.
-/
namespace Atomic

structure Discipline (S : Sig) (Γ : Type) where
  may : Γ → S.Op → Prop
  next : Γ → (o : S.Op) → S.Res o → Γ

namespace Prog

variable {S : Sig} {Γ α β : Type} {D : Discipline S Γ}

/-- The program does what it may, whatever the answers, and ends in `Q`. -/
def Obeys (D : Discipline S Γ) (Q : Γ → α → Prop) : Prog S α → Γ → Prop
  | ret a, g => Q g a
  | op o k, g => D.may g o ∧ ∀ r, Obeys D Q (k r) (D.next g o r)

section Rules

variable {Q Q' : Γ → α → Prop} {R : Γ → β → Prop} {p : Prog S α} {g : Γ}

theorem Obeys.bind {f : α → Prog S β} (hp : p.Obeys D Q g) (hf : ∀ g a, Q g a → (f a).Obeys D R g) :
    (p >>= f).Obeys D R g := by
  induction p generalizing g with
  | ret a => exact hf g a hp
  | op o k ih => exact ⟨hp.1, fun r => ih r (hp.2 r)⟩

theorem Obeys.mono (hp : p.Obeys D Q g) (hQ : ∀ g a, Q g a → Q' g a) : p.Obeys D Q' g := by
  induction p generalizing g with
  | ret a => exact hQ g a hp
  | op o k ih => exact ⟨hp.1, fun r => ih r (hp.2 r)⟩

theorem Obeys.loop (J : Γ → Prop) {body : Nat → Prog S Unit}
    (hbody : ∀ j g, J g → (body j).Obeys D (fun g _ => J g) g) :
    ∀ i n g, J g → (loop body i n).Obeys D (fun g _ => J g) g
  | _, 0, _, hg => hg
  | i, n + 1, g, hg => (hbody i g hg).bind (fun g' _ hg' => Obeys.loop J hbody (i + 1) n g' hg')

theorem Within.obeys (J : Γ → Prop) {P : S.Op → Prop} {Q : α → Prop} (hp : p.Within P Q)
    (hop : ∀ g o, J g → P o → D.may g o ∧ ∀ r, J (D.next g o r)) (hg : J g) : p.Obeys D (fun g a => J g ∧ Q a) g := by
  induction p generalizing g with
  | ret a => exact ⟨hg, hp⟩
  | op o k ih =>
    obtain ⟨hmay, hnext⟩ := hop g o hg hp.1
    exact ⟨hmay, fun r => ih r (hp.2 r) (hnext r)⟩

theorem Obeys.within {P : S.Op → Prop} (hp : p.Obeys D Q g) (hmay : ∀ g o, D.may g o → P o) :
    p.Within P (fun _ => True) := by
  induction p generalizing g with
  | ret a => trivial
  | op o k ih => exact ⟨hmay g o hp.1, fun r => ih r (hp.2 r)⟩

end Rules

end Prog

/-- Threads `ι` on a shared state: what an operation of one of them does, if it can be done now; its discipline; the
program it begins for a job, and the hand it begins with. -/
structure Threads (S : Sig) (σ ι Γ α Job : Type) where
  act : ι → (o : S.Op) → σ → Option (σ × S.Res o)
  rule : ι → Discipline S Γ
  text : ι → Job → Prog S α
  fresh : Γ

namespace Threads

structure State (S : Sig) (σ ι Γ α : Type) where
  shared : σ
  prog : ι → Prog S α
  hand : ι → Γ

inductive Sched (ι Job : Type) where
  | start (i : ι) (job : Job)
  | advance (i : ι)

variable {S : Sig} {σ ι Γ α Job : Type} [DecidableEq ι] (T : Threads S σ ι Γ α Job)

def step (x : State S σ ι Γ α) : Sched ι Job → Option (State S σ ι Γ α)
  | .start i job =>
    match x.prog i with
    | .ret _ =>
      some { x with prog := Function.update x.prog i (T.text i job), hand := Function.update x.hand i T.fresh }
    | .op _ _ => none
  | .advance i =>
    match x.prog i with
    | .ret _ => none
    | .op o k =>
      match T.act i o x.shared with
      | none => none
      | some (s, r) =>
        some ⟨s, Function.update x.prog i (k r), Function.update x.hand i ((T.rule i).next (x.hand i) o r)⟩

abbrev Run (ok : State S σ ι Γ α → Sched ι Job → Prop) : State S σ ι Γ α → State S σ ι Γ α → Prop :=
  Relation.ReflTransGen (fun x y => ∃ a, ok x a ∧ T.step x a = some y)

variable {T} {ok : State S σ ι Γ α → Sched ι Job → Prop} {x y : State S σ ι Γ α}

theorem run_of_runActions [∀ x a, Decidable (ok x a)] (as : List (Sched ι Job))
    (h : System.runActions (System.guard T.step (fun x a => decide (ok x a))) as x = some y) : T.Run ok x y := by
  refine Relation.ReflTransGen.mono (fun a b hab => ?_) _ _ (System.reach_of_runActions as h)
  obtain ⟨act, hact⟩ := hab
  obtain ⟨hok, hstep⟩ := System.guard_some.1 hact
  exact ⟨act, of_decide_eq_true hok, hstep⟩

/-- The invariant, and every thread keeping to its discipline from here on. -/
structure Kept (T : Threads S σ ι Γ α Job) (Inv : (ι → Γ) → σ → Prop) (x : State S σ ι Γ α) : Prop where
  inv : Inv x.hand x.shared
  obeys : ∀ i, (x.prog i).Obeys (T.rule i) (fun _ _ => True) (x.hand i)

section Kept

variable {Inv : (ι → Γ) → σ → Prop}
  (hfresh : ∀ i hand s, Inv hand s → Inv (Function.update hand i T.fresh) s)
  (hact : ∀ x i o k s r, x.prog i = .op o k → ok x (.advance i) → Inv x.hand x.shared → (T.rule i).may (x.hand i) o →
    T.act i o x.shared = some (s, r) → Inv (Function.update x.hand i ((T.rule i).next (x.hand i) o r)) s)
  (htext : ∀ i job, (T.text i job).Obeys (T.rule i) (fun _ _ => True) T.fresh)
include hfresh hact htext

/-- **One step of an interleaving**: the thread that moves keeps to its discipline, the others are where they were. -/
theorem Kept.step {a : Sched ι Job} (hok : ok x a) (hstep : T.step x a = some y) (h : T.Kept Inv x) : T.Kept Inv y := by
  have hupdate : ∀ {i : ι} {p : Prog S α} {g : Γ}, p.Obeys (T.rule i) (fun _ _ => True) g → ∀ j,
      (Function.update x.prog i p j).Obeys (T.rule j) (fun _ _ => True) (Function.update x.hand i g j) := by
    intro i p g hp j
    by_cases hj : j = i
    · subst hj
      rwa [Function.update_self, Function.update_self]
    · rw [Function.update_of_ne hj, Function.update_of_ne hj]
      exact h.obeys j
  cases a with
  | start i job =>
    rw [Threads.step] at hstep
    split at hstep
    · cases hstep
      exact ⟨hfresh i _ _ h.inv, hupdate (htext i job)⟩
    · cases hstep
  | advance i =>
    rw [Threads.step] at hstep
    split at hstep
    · cases hstep
    · rename_i o k hprog
      split at hstep
      · cases hstep
      · rename_i s r heq
        cases hstep
        have hobeys := h.obeys i
        rw [hprog] at hobeys
        exact ⟨hact x i o k s r hprog hok h.inv hobeys.1 heq, hupdate (hobeys.2 r)⟩

/-- **The interleaving rule.** -/
theorem Kept.run (hrun : T.Run ok x y) (h : T.Kept Inv x) : T.Kept Inv y := by
  induction hrun with
  | refl => exact h
  | tail _ hd ih =>
    obtain ⟨a, hok, hstep⟩ := hd
    exact Kept.step hfresh hact htext hok hstep ih

end Kept

end Threads

end Atomic
