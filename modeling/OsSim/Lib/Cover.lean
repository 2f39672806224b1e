import Mathlib.Data.List.Basic
import Mathlib.Data.List.Range
import Mathlib.Logic.Function.Basic
/-!
# Cover — pieces that share no point

A list of pieces, each with the points it holds.  No two pieces share a point just where no point is held twice, and
being counted, the points can be followed through a change of the list: a piece cut in two, moved to another list, or
replaced in a table.
-/
namespace Cover

variable {ρ β : Type} (holds : ρ → β → Prop) [∀ r b, Decidable (holds r b)]

def one (r : ρ) (b : β) : Nat := if holds r b then 1 else 0

def count : List ρ → β → Nat
  | [], _ => 0
  | r :: l, b => one holds r b + count l b

def Apart (l : List ρ) : Prop := ∀ b, count holds l b ≤ 1

@[simp] theorem count_nil (b : β) : count holds [] b = 0 := rfl

@[simp] theorem count_cons (r : ρ) (l : List ρ) (b : β) :
    count holds (r :: l) b = one holds r b + count holds l b := rfl

@[simp] theorem count_append (b : β) : ∀ l l' : List ρ, count holds (l ++ l') b = count holds l b + count holds l' b
  | [], l' => (Nat.zero_add _).symm
  | r :: l, l' => by rw [List.cons_append, count_cons, count_cons, count_append b l l', Nat.add_assoc]

theorem one_le (r : ρ) (b : β) : one holds r b ≤ 1 := by
  unfold one
  split <;> decide

theorem one_of {r : ρ} {b : β} (h : holds r b) : one holds r b = 1 := if_pos h

theorem one_of_not {r : ρ} {b : β} (h : ¬ holds r b) : one holds r b = 0 := if_neg h

theorem count_pos {l : List ρ} {r : ρ} {b : β} (hr : r ∈ l) (h : holds r b) : 1 ≤ count holds l b := by
  induction l with
  | nil => cases hr
  | cons x l ih =>
    rw [count_cons]
    rcases List.mem_cons.1 hr with rfl | hr
    · rw [one_of holds h]
      exact Nat.le_add_right _ _
    · exact Nat.le_trans (ih hr) (Nat.le_add_left _ _)

theorem count_eq_zero {l : List ρ} {b : β} (h : ∀ r ∈ l, ¬ holds r b) : count holds l b = 0 := by
  induction l with
  | nil => rfl
  | cons x l ih =>
    rw [count_cons, one_of_not holds (h x (by simp)), ih (fun r hr => h r (List.mem_cons_of_mem _ hr))]

theorem Apart.pairwise {l : List ρ} (h : Apart holds l) :
    l.Pairwise (fun x y => ∀ b, ¬ (holds x b ∧ holds y b)) := by
  induction l with
  | nil => exact List.Pairwise.nil
  | cons x l ih =>
    refine List.pairwise_cons.2 ⟨fun y hy b hb => ?_, ih (fun b => Nat.le_trans (Nat.le_add_left _ _) (h b))⟩
    have htwice := h b
    rw [count_cons, one_of holds hb.1] at htwice
    have := count_pos holds hy hb.2
    omega

theorem apart_of_pairwise {l : List ρ} (h : l.Pairwise (fun x y => ∀ b, ¬ (holds x b ∧ holds y b))) :
    Apart holds l := by
  intro b
  induction l with
  | nil => exact Nat.zero_le 1
  | cons x l ih =>
    rw [List.pairwise_cons] at h
    rw [count_cons]
    by_cases hx : holds x b
    · rw [count_eq_zero holds (fun y hy hb => h.1 y hy b ⟨hx, hb⟩)]
      exact one_le holds x b
    · rw [one_of_not holds hx, Nat.zero_add]
      exact ih h.2

/-- **A piece replaced in a table** takes its points out and brings the new one's in. -/
theorem count_update (f : Nat → ρ) (i : Nat) (x : ρ) (b : β) : ∀ l : List Nat, l.Nodup → i ∈ l →
    count holds (l.map (Function.update f i x)) b + one holds (f i) b = count holds (l.map f) b + one holds x b
  | [], _, hi => by cases hi
  | j :: l, hnodup, hi => by
    rw [List.nodup_cons] at hnodup
    simp only [List.map_cons, count_cons]
    by_cases hj : j = i
    · subst hj
      have hrest : l.map (Function.update f j x) = l.map f := by
        refine List.map_congr_left (fun k hk => Function.update_of_ne ?_ x f)
        rintro rfl
        exact hnodup.1 hk
      rw [hrest, Function.update_self]
      omega
    · have ih := count_update f i x b l hnodup.2 ((List.mem_cons.1 hi).resolve_left (fun e => hj e.symm))
      rw [Function.update_of_ne hj]
      omega

end Cover
