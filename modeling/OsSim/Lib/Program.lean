import Mathlib.Logic.Function.Basic
/-!
# Program — code as a sequence of atomic operations

A piece of code is the tree of the atomic operations it asks for, each continued by what the operation answers.  The
tree says nothing of what the operations do: `exec` runs it alone against a state, and an interleaving takes the first
operation of one of several trees at a time.  One text of the code thus has both meanings.

An operation that has no result on a state (a wild access, a value read before it is set) is an `Except.error`; it ends
the run, and no rule below says anything of the state it was in.
-/
namespace Atomic

/-- The operations a program may ask for, and what each answers. -/
structure Sig where
  Op : Type
  Res : Op → Type

inductive Prog (S : Sig) (α : Type) : Type where
  | ret (a : α) : Prog S α
  | op (o : S.Op) (k : S.Res o → Prog S α) : Prog S α

abbrev Interp (S : Sig) (σ ε : Type) := (o : S.Op) → σ → Except ε (σ × S.Res o)

theorem map_ok {ε α β : Type} {x : Except ε α} {f : α → β} {b : β} (h : x.map f = .ok b) :
    ∃ a, x = .ok a ∧ f a = b := by
  cases x with
  | error e => cases h
  | ok a => exact ⟨a, rfl, Except.ok.inj h⟩

theorem map_error {ε α β : Type} {x : Except ε α} {f : α → β} {e : ε} (h : x.map f = .error e) : x = .error e := by
  cases x with
  | error e' =>
    cases h
    rfl
  | ok a => cases h

namespace Prog

variable {S : Sig} {α β γ : Type}

def bind : Prog S α → (α → Prog S β) → Prog S β
  | ret a, f => f a
  | op o k, f => op o (fun r => bind (k r) f)

instance : Monad (Prog S) where
  pure := ret
  bind := bind

def perform (o : S.Op) : Prog S (S.Res o) := op o ret

@[simp] theorem pure_eq (a : α) : (pure a : Prog S α) = ret a := rfl

@[simp] theorem ret_bind (a : α) (f : α → Prog S β) : (ret a >>= f) = f a := rfl

@[simp] theorem op_bind (o : S.Op) (k : S.Res o → Prog S α) (f : α → Prog S β) :
    (op o k >>= f) = op o (fun r => k r >>= f) := rfl

def loop (body : Nat → Prog S Unit) : Nat → Nat → Prog S Unit
  | _, 0 => ret ()
  | i, n + 1 => body i >>= fun _ => loop body (i + 1) n

inductive Part : Prog S α → Prog S α → Prop where
  | rest (o : S.Op) (k : S.Res o → Prog S α) (r : S.Res o) : Part (k r) (op o k)

theorem part_wf : WellFounded (Part (S := S) (α := α)) := by
  refine ⟨fun p => ?_⟩
  induction p with
  | ret a => exact ⟨_, fun q hq => nomatch hq⟩
  | op o k ih =>
    refine ⟨_, fun q hq => ?_⟩
    cases hq with
    | rest _ _ r => exact ih r

/-! ### What a program may ask for -/

/-- Every operation the program may ask for is in `P`, whatever the answers, and its result is in `Q`. -/
def Within (P : S.Op → Prop) (Q : α → Prop) : Prog S α → Prop
  | ret a => Q a
  | op o k => P o ∧ ∀ r, Within P Q (k r)

section Within

variable {P : S.Op → Prop} {Q : α → Prop} {R : β → Prop}

theorem Within.bind {p : Prog S α} {f : α → Prog S β} (hp : p.Within P Q) (hf : ∀ a, Q a → (f a).Within P R) :
    (p >>= f).Within P R := by
  induction p with
  | ret a => exact hf a hp
  | op o k ih => exact ⟨hp.1, fun r => ih r (hp.2 r)⟩

theorem Within.any : ∀ p : Prog S α, p.Within (fun _ => True) (fun _ => True)
  | .ret _ => trivial
  | .op _ k => ⟨trivial, fun r => Within.any (k r)⟩

theorem Within.loop {body : Nat → Prog S Unit} (hbody : ∀ j, (body j).Within P (fun _ => True)) :
    ∀ i n, (loop body i n).Within P (fun _ => True)
  | _, 0 => trivial
  | i, n + 1 => (hbody i).bind (fun _ _ => Within.loop hbody (i + 1) n)

end Within

/-! ### What a program makes of a part of the state -/

/-- The program asks for operations in `P`; and while its operations answer, and move a part of the state, as `T` says,
it ends in `Q`. -/
def Follows {Γ : Type} (T : Γ → (o : S.Op) → S.Res o → Γ → Prop) (P : S.Op → Prop) (Q : Γ → α → Prop) :
    Prog S α → Γ → Prop
  | ret a, g => Q g a
  | op o k, g => P o ∧ ∀ r g', T g o r g' → Follows T P Q (k r) g'

section Follows

variable {Γ : Type} {T : Γ → (o : S.Op) → S.Res o → Γ → Prop} {P : S.Op → Prop} {Q Q' : Γ → α → Prop}
  {R : Γ → β → Prop} {p : Prog S α} {g : Γ}

theorem Follows.bind {f : α → Prog S β} (hp : p.Follows T P Q g) (hf : ∀ g a, Q g a → (f a).Follows T P R g) :
    (p >>= f).Follows T P R g := by
  induction p generalizing g with
  | ret a => exact hf g a hp
  | op o k ih => exact ⟨hp.1, fun r g' hr => ih r (hp.2 r g' hr)⟩

theorem Follows.mono (hp : p.Follows T P Q g) (hQ : ∀ g a, Q g a → Q' g a) : p.Follows T P Q' g := by
  induction p generalizing g with
  | ret a => exact hQ g a hp
  | op o k ih => exact ⟨hp.1, fun r g' hr => ih r (hp.2 r g' hr)⟩

theorem Within.follows {P' : S.Op → Prop} {Q : α → Prop} (hp : p.Within P' Q) (hP : ∀ o, P' o → P o)
    (hleaves : ∀ o r g', P' o → T g o r g' → g' = g) : p.Follows T P (fun g' a => g' = g ∧ Q a) g := by
  induction p with
  | ret a => exact ⟨rfl, hp⟩
  | op o k ih =>
    refine ⟨hP o hp.1, fun r g' hr => ?_⟩
    rw [hleaves o r g' hp.1 hr]
    exact ih r (hp.2 r)

end Follows

end Prog

open Prog

/-! ## Operations added to a signature -/

section Sum

abbrev Sig.sum (S E : Sig) : Sig := ⟨S.Op ⊕ E.Op, Sum.elim S.Res E.Res⟩

variable {S E : Sig} {σ τ ε α : Type}

def Prog.inl : Prog S α → Prog (S.sum E) α
  | .ret a => .ret a
  | .op o k => .op (.inl o) (fun r => (k r).inl)

/-- The operations of the first signature act on the first part of the state, those of the second on the whole of it. -/
def Interp.sum (I : Interp S σ ε) (J : Interp E (σ × τ) ε) : Interp (S.sum E) (σ × τ) ε
  | .inl o, x => (I o x.1).map (fun q => ((q.1, x.2), q.2))
  | .inr o, x => J o x

end Sum

/-! ## Running a program alone -/

section Exec

variable {S : Sig} {σ ε : Type} (I : Interp S σ ε) {α β : Type}

def exec : Prog S α → σ → Except ε (σ × α)
  | .ret a, s => .ok (s, a)
  | .op o k, s =>
    match I o s with
    | .ok (s', r) => exec (k r) s'
    | .error e => .error e

@[simp] theorem exec_ret (a : α) (s : σ) : exec I (.ret a) s = .ok (s, a) := rfl

theorem exec_op (o : S.Op) (k : S.Res o → Prog S α) (s : σ) :
    exec I (.op o k) s = match I o s with
      | .ok (s', r) => exec I (k r) s'
      | .error e => .error e := by
  rw [exec]

theorem exec_op_ok {o : S.Op} {k : S.Res o → Prog S α} {s s' : σ} {a : α} :
    exec I (.op o k) s = .ok (s', a) ↔ ∃ s₁ r, I o s = .ok (s₁, r) ∧ exec I (k r) s₁ = .ok (s', a) := by
  rw [exec_op]
  constructor
  · intro h
    split at h
    · rename_i s₁ r heq
      exact ⟨s₁, r, heq, h⟩
    · cases h
  · rintro ⟨s₁, r, h₁, h₂⟩
    rw [h₁]
    exact h₂

theorem exec_op_error {o : S.Op} {k : S.Res o → Prog S α} {s : σ} {e : ε} :
    exec I (.op o k) s = .error e ↔ I o s = .error e ∨ ∃ s₁ r, I o s = .ok (s₁, r) ∧ exec I (k r) s₁ = .error e := by
  rw [exec_op]
  cases h : I o s with
  | error e' => simp
  | ok q =>
    constructor
    · intro h'; exact Or.inr ⟨q.1, q.2, rfl, h'⟩
    · rintro (h' | ⟨s₁, r, heq, h'⟩)
      · cases h'
      · cases heq
        exact h'

@[simp] theorem exec_perform (o : S.Op) (s : σ) : exec I (perform o) s = I o s := by
  rw [perform, exec_op]
  cases I o s with
  | ok p => rfl
  | error e => rfl

theorem exec_bind (p : Prog S α) (f : α → Prog S β) (s : σ) :
    exec I (p >>= f) s = match exec I p s with
      | .ok (s', a) => exec I (f a) s'
      | .error e => .error e := by
  induction p generalizing s with
  | ret a => rfl
  | op o k ih =>
    rw [op_bind, exec_op, exec_op]
    cases I o s with
    | error e => rfl
    | ok p => exact ih p.2 p.1

theorem exec_bind_ok {p : Prog S α} {f : α → Prog S β} {s s' : σ} {b : β} :
    exec I (p >>= f) s = .ok (s', b) ↔ ∃ s₁ a, exec I p s = .ok (s₁, a) ∧ exec I (f a) s₁ = .ok (s', b) := by
  rw [exec_bind]
  cases h : exec I p s with
  | error e => simp
  | ok q =>
    constructor
    · intro h'; exact ⟨q.1, q.2, rfl, h'⟩
    · rintro ⟨s₁, a, heq, h'⟩
      cases heq
      exact h'

theorem exec_bind_error {p : Prog S α} {f : α → Prog S β} {s : σ} {e : ε} :
    exec I (p >>= f) s = .error e ↔
      exec I p s = .error e ∨ ∃ s₁ a, exec I p s = .ok (s₁, a) ∧ exec I (f a) s₁ = .error e := by
  rw [exec_bind]
  cases h : exec I p s with
  | error e' => simp
  | ok q =>
    constructor
    · intro h'; exact Or.inr ⟨q.1, q.2, rfl, h'⟩
    · rintro (h' | ⟨s₁, a, heq, h'⟩)
      · cases h'
      · cases heq
        exact h'

/-- **The loop rule**: what holds before the first turn and is kept by each turn that ends holds after the last. -/
theorem exec_loop_ok {body : Nat → Prog S Unit} (Inv : Nat → σ → Prop) {i n : Nat} {s s' : σ}
    (hstep : ∀ j s₁ s₂, i ≤ j → j < i + n → Inv j s₁ → exec I (body j) s₁ = .ok (s₂, ()) → Inv (j + 1) s₂)
    (h0 : Inv i s) (h : exec I (loop body i n) s = .ok (s', ())) : Inv (i + n) s' := by
  induction n generalizing i s with
  | zero => cases h; exact h0
  | succ n ih =>
    obtain ⟨s₁, _, h₁, h₂⟩ := (exec_bind_ok I).1 h
    have h1 : Inv (i + 1) s₁ := hstep i s s₁ (Nat.le_refl i) (by omega) h0 h₁
    have := ih (fun j s₂ s₃ hj hn => hstep j s₂ s₃ (by omega) (by omega)) h1 h₂
    rwa [show i + (n + 1) = i + 1 + n by omega]

theorem exec_loop_eq {body : Nat → Prog S Unit} (st : Nat → σ) {i n : Nat}
    (hturn : ∀ j, i ≤ j → j < i + n → exec I (body j) (st j) = .ok (st (j + 1), ())) :
    exec I (loop body i n) (st i) = .ok (st (i + n), ()) := by
  induction n generalizing i with
  | zero => rfl
  | succ n ih =>
    refine (exec_bind_ok I).2 ⟨st (i + 1), (), hturn i (Nat.le_refl i) (by omega), ?_⟩
    have hrest := @ih (i + 1) (fun j hj hn => hturn j (by omega) (by omega))
    rwa [show i + 1 + n = i + (n + 1) by omega] at hrest

/-- **A fault of a loop** is a turn's, from a state that the turns before it kept in order. -/
theorem exec_loop_error {body : Nat → Prog S Unit} (Inv : Nat → σ → Prop) {i n : Nat} {s : σ} {e : ε}
    (hstep : ∀ j s₁ s₂, i ≤ j → j < i + n → Inv j s₁ → exec I (body j) s₁ = .ok (s₂, ()) → Inv (j + 1) s₂)
    (h0 : Inv i s) (h : exec I (loop body i n) s = .error e) :
    ∃ j s₁, i ≤ j ∧ j < i + n ∧ Inv j s₁ ∧ exec I (body j) s₁ = .error e := by
  induction n generalizing i s with
  | zero => cases h
  | succ n ih =>
    rcases (exec_bind_error I).1 h with h₁ | ⟨s₁, _, h₁, h₂⟩
    · exact ⟨i, s, Nat.le_refl i, by omega, h0, h₁⟩
    · have h1 : Inv (i + 1) s₁ := hstep i s s₁ (Nat.le_refl i) (by omega) h0 h₁
      obtain ⟨j, s₂, hj, hn, hj', he⟩ := ih (fun j s₂ s₃ hj hn => hstep j s₂ s₃ (by omega) (by omega)) h1 h₂
      exact ⟨j, s₂, by omega, by omega, hj', he⟩

/-- **What every operation in `P` keeps**, a program that stays within `P` keeps. -/
theorem exec_within {P : S.Op → Prop} {Q : α → Prop} (Inv : σ → Prop)
    (hop : ∀ o s s' r, P o → I o s = .ok (s', r) → Inv s → Inv s') {p : Prog S α} (hp : p.Within P Q) {s s' : σ} {a : α}
    (h : exec I p s = .ok (s', a)) (h0 : Inv s) : Inv s' ∧ Q a := by
  induction p generalizing s with
  | ret b =>
    cases h
    exact ⟨h0, hp⟩
  | op o k ih =>
    obtain ⟨s₁, r, hstep, hrest⟩ := (exec_op_ok I).1 h
    exact ih r (hp.2 r) hrest (hop o s s₁ r hp.1 hstep h0)

theorem exec_inl {E : Sig} {τ : Type} (J : Interp E (σ × τ) ε) (p : Prog S α) (s : σ) (t : τ) :
    exec (Interp.sum I J) p.inl (s, t) = (exec I p s).map (fun q => ((q.1, t), q.2)) := by
  induction p generalizing s with
  | ret a => rfl
  | op o k ih =>
    rw [Prog.inl, exec_op, exec_op]
    simp only [Interp.sum]
    cases I o s with
    | error e => rfl
    | ok q => exact ih q.2 q.1

theorem exec_inl_ok {E : Sig} {τ : Type} (J : Interp E (σ × τ) ε) {p : Prog S α} {s : σ} {t : τ} {x : σ × τ} {a : α}
    (h : exec (Interp.sum I J) p.inl (s, t) = .ok (x, a)) : ∃ s', exec I p s = .ok (s', a) ∧ x = (s', t) := by
  rw [exec_inl] at h
  obtain ⟨q, hq, heq⟩ := map_ok h
  cases heq
  exact ⟨q.1, hq, rfl⟩

end Exec

end Atomic
