import Mathlib.Data.List.Basic
/-!
# Component — what one component of a system sees of a history

A history is a list of labelled steps, each with the state it leads to.  Some of the labels are a component's own: a
request to it and its answer.  If the component's part of the state moves only with its own labels, and then as a
function of the request, then what it sees in two histories with the same requests is the same, whatever happens in
between.
-/
namespace Component

variable {σ Λ L α ω : Type}

/-- The labelled steps taken from a state, each with the state after it. -/
inductive History (step : σ → Λ → σ → Prop) : σ → List (Λ × σ) → Prop where
  | nil (s : σ) : History step s []
  | cons {s s' : σ} {a : Λ} {h : List (Λ × σ)} (first : step s a s') (rest : History step s' h) :
      History step s ((a, s') :: h)

def final (s : σ) : List (Λ × σ) → σ
  | [] => s
  | (_, s') :: h => final s' h

/-- What the component sees: its requests, its answers and its part of the state after each. -/
def seen (mine : Λ → Option (α × ω)) (proj : σ → L) (h : List (Λ × σ)) : List (α × ω × L) :=
  h.filterMap (fun e => (mine e.1).map (fun q => (q.1, q.2, proj e.2)))

def lastSeen (l : L) : List (α × ω × L) → L
  | [] => l
  | (_, _, l') :: v => lastSeen l' v

/-- The component's own steps account for what it sees. -/
inductive Explains (step : L → α → ω → L → Prop) : L → List (α × ω × L) → Prop where
  | nil (l : L) : Explains step l []
  | cons {l l' : L} {a : α} {o : ω} {v : List (α × ω × L)} (first : step l a o l') (rest : Explains step l' v) :
    Explains step l ((a, o, l') :: v)

/-- **A history projected**: the component's steps account for what it sees of it. -/
theorem History.explains {step : σ → Λ → σ → Prop} {lstep : L → α → ω → L → Prop} {mine : Λ → Option (α × ω)}
    {proj : σ → L} {ok : σ → Prop}
    (hmine : ∀ {s a s' r o}, step s a s' → ok s' → mine a = some (r, o) → lstep (proj s) r o (proj s'))
    (hothers : ∀ {s a s'}, step s a s' → ok s' → mine a = none → proj s' = proj s) {s : σ} {h : List (Λ × σ)}
    (hist : History step s h) (hok : ∀ e ∈ h, ok e.2) : Explains lstep (proj s) (seen mine proj h) := by
  induction hist with
  | nil s => exact .nil _
  | @cons s s' a h first rest ih =>
    obtain ⟨hfirst, hrest⟩ := List.forall_mem_cons.1 hok
    have hsees := ih hrest
    cases ha : mine a with
    | none =>
      rw [hothers first hfirst ha] at hsees
      simpa [seen, ha] using hsees
    | some q =>
      have hseen : seen mine proj ((a, s') :: h) = (q.1, q.2, proj s') :: seen mine proj h := by simp [seen, ha]
      rw [hseen]
      exact .cons (hmine first hfirst ha) hsees

theorem History.lastSeen_eq {step : σ → Λ → σ → Prop} {mine : Λ → Option (α × ω)} {proj : σ → L} {ok : σ → Prop}
    (hothers : ∀ {s a s'}, step s a s' → ok s' → mine a = none → proj s' = proj s) {s : σ} {h : List (Λ × σ)}
    (hist : History step s h) (hok : ∀ e ∈ h, ok e.2) : proj (final s h) = lastSeen (proj s) (seen mine proj h) := by
  induction hist with
  | nil s => rfl
  | @cons s s' a h first rest ih =>
    obtain ⟨hfirst, hrest⟩ := List.forall_mem_cons.1 hok
    refine (ih hrest).trans ?_
    cases ha : mine a with
    | none =>
      rw [hothers first hfirst ha]
      simp [seen, ha]
    | some q => simp [seen, ha, lastSeen]

/-- **The same requests are answered the same way**, if the component's steps are a function of the request. -/
theorem Explains.eq {step : L → α → ω → L → Prop}
    (hfun : ∀ {l a o l' o' l''}, step l a o l' → step l a o' l'' → o = o' ∧ l' = l'') {l : L} {v : List (α × ω × L)}
    (h : Explains step l v) : ∀ {v' : List (α × ω × L)}, Explains step l v' →
      v.map (fun q => q.1) = v'.map (fun q => q.1) →
      v = v' := by
  induction h with
  | nil l =>
    intro v' h' hreq
    cases h' with
    | nil => rfl
    | cons first rest => simp at hreq
  | @cons l l' a o v first rest ih =>
    intro v' h' hreq
    cases h' with
    | nil => simp at hreq
    | @cons _ l'' a' o' v' first' rest' =>
      simp only [List.map_cons, List.cons.injEq] at hreq
      obtain ⟨rfl, hreq⟩ := hreq
      obtain ⟨rfl, rfl⟩ := hfun first first'
      rw [ih rest' hreq]

end Component
