import Mathlib.Logic.Relation
/-!
# System — a transition system with named actions

A system is a partial function from a state and an action to the next state; an action that is not enabled has no next
state.  An interleaving is a list of actions, and a property kept by every action holds in every state reached.
-/
namespace System

variable {σ α : Type} (step : σ → α → Option σ)

def Next (s s' : σ) : Prop := ∃ a, step s a = some s'

abbrev Reach : σ → σ → Prop := Relation.ReflTransGen (Next step)

def runActions : List α → σ → Option σ
  | [], s => some s
  | a :: as, s => (step s a).bind (runActions as)

/-- Actions, each the number of times in front of it. -/
def repeated (as : List (Nat × α)) : List α := as.flatMap fun a => List.replicate a.1 a.2

/-- The system with only the actions that `ok` lets through. -/
def guard (ok : σ → α → Bool) (s : σ) (a : α) : Option σ := if ok s a then step s a else none

def logged {ε : Type} (event : σ → α → List ε) (s : σ × List ε) (a : α) : Option (σ × List ε) :=
  (step s.1 a).map (fun s' => (s', s.2 ++ event s.1 a))

variable {step}

theorem logged_some {ε : Type} {event : σ → α → List ε} {s s' : σ × List ε} {a : α} :
    logged step event s a = some s' ↔ ∃ t, step s.1 a = some t ∧ s' = (t, s.2 ++ event s.1 a) := by
  simp only [logged, Option.map_eq_some_iff, eq_comm (a := s')]

theorem guard_some {ok : σ → α → Bool} {s s' : σ} {a : α} :
    guard step ok s a = some s' ↔ ok s a = true ∧ step s a = some s' := by
  unfold guard
  split <;> simp_all

/-- **An invariant**: what holds at first and is kept by every action holds in every state reached. -/
theorem Reach.inv {P : σ → Prop} {s s' : σ} (h : Reach step s s') (h0 : P s)
    (hstep : ∀ {s a s'}, step s a = some s' → P s → P s') : P s' := by
  induction h with
  | refl => exact h0
  | tail _ hd ih =>
    obtain ⟨a, ha⟩ := hd
    exact hstep ha ih

theorem reach_of_runActions : ∀ (as : List α) {s s' : σ}, runActions step as s = some s' → Reach step s s'
  | [], s, s', h => by
    cases h
    exact .refl
  | a :: as, s, s', h => by
    obtain ⟨s₁, ha, hrest⟩ := Option.bind_eq_some_iff.1 h
    exact .head ⟨a, ha⟩ (reach_of_runActions as hrest)

/-- **A measure**: where every action that does not wait takes some of it, and none gives any, as many have been done
as it has lost at least. -/
theorem Reach.spends {P : σ → Prop} {waits : σ → α → Bool} {m : σ → Nat} {s : σ} {log : List α}
    {s₀ : σ} (h0 : P s₀) (hP : ∀ {s a s'}, step s a = some s' → P s → P s')
    (hm : ∀ {s a s'}, step s a = some s' → P s → m s' + (if waits s a then 0 else 1) ≤ m s)
    (h : Reach (logged step (fun s a => if waits s a then [] else [a])) (s₀, []) (s, log)) :
    P s ∧ log.length + m s ≤ m s₀ := by
  refine h.inv (P := fun x => P x.1 ∧ x.2.length + m x.1 ≤ m s₀) ⟨h0, Nat.le_of_eq (Nat.zero_add _)⟩
    (fun {x a y} hstep hx => ?_)
  obtain ⟨t, ht, rfl⟩ := logged_some.1 hstep
  refine ⟨hP ht hx.1, ?_⟩
  have hspent := hm ht hx.1
  have hold := hx.2
  have hlen : (if waits x.1 a then [] else [a]).length = if waits x.1 a then 0 else 1 := by split <;> rfl
  dsimp only
  rw [List.length_append, hlen]
  omega

/-- **A well-founded measure**: where every action that does not wait takes it down, and one that waits leaves it or
takes it down, all actions of an infinite run wait from some point on. -/
theorem eventually_waits {β : Type} {r : β → β → Prop} (hr : WellFounded r) {P : σ → Prop} {waits : σ → α → Bool}
    {m : σ → β} (hP : ∀ {s a s'}, step s a = some s' → P s → P s')
    (hm : ∀ {s a s'}, step s a = some s' → P s → r (m s') (m s) ∨ m s' = m s ∧ waits s a = true)
    {f : Nat → σ} {acts : Nat → α} (h0 : P (f 0)) (hrun : ∀ n, step (f n) (acts n) = some (f (n + 1))) :
    ∃ n, ∀ k, n ≤ k → waits (f k) (acts k) = true := by
  have hall : ∀ n, P (f n) := fun n => by
    induction n with
    | zero => exact h0
    | succ n ih => exact hP (hrun n) ih
  have hdown : ∀ b n, m (f n) = b → ∃ n, ∀ k, n ≤ k → waits (f k) (acts k) = true := by
    intro b
    induction b using hr.induction with
    | h b ih =>
      intro n hn
      by_cases hwait : ∀ k, n ≤ k → m (f (k + 1)) = m (f k) ∧ waits (f k) (acts k) = true
      · exact ⟨n, fun k hk => (hwait k hk).2⟩
      · -- up to the first action that takes it down, the measure is `b`
        have hfirst : ∃ k, m (f (n + k)) = b ∧ r (m (f (n + k + 1))) b := by
          refine Classical.byContradiction (fun hnone => hwait (fun k hk => ?_))
          have hnot : ∀ k, m (f (n + k)) = b → ¬ r (m (f (n + k + 1))) b := fun k heq hless => hnone ⟨k, heq, hless⟩
          have hsame : ∀ k, m (f (n + k)) = b := fun k => by
            induction k with
            | zero => exact hn
            | succ k ihk =>
              rcases hm (hrun (n + k)) (hall _) with hless | ⟨heq, -⟩
              · exact absurd (ihk ▸ hless) (hnot k ihk)
              · exact heq.trans ihk
          obtain ⟨j, rfl⟩ := Nat.exists_eq_add_of_le hk
          exact (hm (hrun (n + j)) (hall _)).resolve_left (fun hless => hnot j (hsame j) (hsame j ▸ hless))
        obtain ⟨k, -, hless⟩ := hfirst
        exact ih _ hless (n + k + 1) rfl
  exact hdown _ 0 rfl

/-- **A simulation**: a system whose every action does an action of another one, or nothing there, goes where the other
one can go. -/
theorem Reach.simulates {τ β : Type} {step' : τ → β → Option τ} (f : σ → τ)
    (hstep : ∀ {s a s'}, step s a = some s' → f s' = f s ∨ Next step' (f s) (f s')) {s s' : σ} (h : Reach step s s') :
    Reach step' (f s) (f s') := by
  induction h with
  | refl => exact .refl
  | tail _ hd ih =>
    obtain ⟨a, ha⟩ := hd
    rcases hstep ha with hsame | hnext
    · rwa [hsame]
    · exact ih.tail hnext

theorem Reach.lifts {τ β : Type} {step' : τ → β → Option τ} (f : τ → σ)
    (hlift : ∀ {t a s'}, step (f t) a = some s' → ∃ t', Next step' t t' ∧ f t' = s') {s s' : σ} (h : Reach step s s')
    {t : τ} (ht : f t = s) : ∃ t', Reach step' t t' ∧ f t' = s' := by
  induction h with
  | refl => exact ⟨t, .refl, ht⟩
  | tail _ hd ih =>
    obtain ⟨a, ha⟩ := hd
    obtain ⟨t₁, hreach, rfl⟩ := ih
    obtain ⟨t₂, hnext, rfl⟩ := hlift ha
    exact ⟨t₂, hreach.tail hnext, rfl⟩

/-- **What no action changes from a state in `P`** stays the same along an interleaving that keeps to `P`, `Q` being an
invariant. -/
theorem Reach.const {β : Type} {P Q : σ → Prop} (f : σ → β) (hQ : ∀ {s a s'}, step s a = some s' → Q s → Q s')
    (hstep : ∀ {s a s'}, step s a = some s' → Q s → P s → f s' = f s) {s s' : σ} (hs : Q s)
    (h : Relation.ReflTransGen (fun s s' => Next step s s' ∧ P s ∧ P s') s s') : f s' = f s := by
  have hboth : f s' = f s ∧ Q s' := by
    induction h with
    | refl => exact ⟨rfl, hs⟩
    | tail _ hd ih =>
      obtain ⟨⟨a, ha⟩, hP, -⟩ := hd
      exact ⟨(hstep ha ih.2 hP).trans ih.1, hQ ha ih.2⟩
  exact hboth.1

end System
