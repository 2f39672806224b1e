import Mathlib.Data.List.Range
import Mathlib.Data.List.Count
import Mathlib.Data.List.Nodup
import Mathlib.Data.List.Perm.Subperm
import Mathlib.Logic.Function.Basic
/-!
# Family — members spread over numbered lists

Queues by priority, what each thread holds: a family of lists, one for each number below a bound.  When one list of the
family changes, the members of all of them change by what that list gained and lost.
-/
namespace Family

variable {α : Type}

def all (n : Nat) (f : Nat → List α) : List α := (List.range n).flatMap f

theorem mem_all {n : Nat} {f : Nat → List α} {a : α} : a ∈ all n f ↔ ∃ i < n, a ∈ f i := by
  simp [all, List.mem_flatMap]

theorem flatMap_update (f : Nat → List α) (i : Nat) (l : List α) : ∀ is : List Nat, is.Nodup → i ∈ is →
    (is.flatMap (Function.update f i l) ++ f i).Perm (is.flatMap f ++ l)
  | [], _, hi => by cases hi
  | j :: is, hnodup, hi => by
    classical
    rw [List.nodup_cons] at hnodup
    rw [List.perm_iff_count]
    intro a
    by_cases hj : j = i
    · subst hj
      have hrest : is.flatMap (Function.update f j l) = is.flatMap f := by
        refine List.flatMap_congr (fun k hk => ?_)
        have hkj : k ≠ j := fun e => hnodup.1 (e ▸ hk)
        rw [Function.update_of_ne hkj]
      simp only [List.flatMap_cons, hrest, Function.update_self, List.count_append]
      omega
    · have ih := (flatMap_update f i l is hnodup.2 ((List.mem_cons.1 hi).resolve_left (fun e => hj e.symm))).count_eq a
      simp only [List.flatMap_cons, Function.update_of_ne hj, List.count_append] at ih ⊢
      omega

theorem all_update {n i : Nat} (hi : i < n) (f : Nat → List α) (l : List α) :
    (all n (Function.update f i l) ++ f i).Perm (all n f ++ l) :=
  flatMap_update f i l _ List.nodup_range (List.mem_range.2 hi)

theorem count_all_update [DecidableEq α] {n i : Nat} (hi : i < n) (f : Nat → List α) (l : List α) (a : α) :
    (all n (Function.update f i l)).count a + (f i).count a = (all n f).count a + l.count a := by
  have := (all_update hi f l).count_eq a
  simpa only [List.count_append] using this

theorem length_all_update {n i : Nat} (hi : i < n) (f : Nat → List α) (l : List α) :
    (all n (Function.update f i l)).length + (f i).length = (all n f).length + l.length := by
  have := (all_update hi f l).length_eq
  simpa only [List.length_append] using this

theorem all_eq_nil {n : Nat} {f : Nat → List α} : all n f = [] ↔ ∀ i < n, f i = [] := by
  simp [all, List.flatMap_eq_nil_iff]

/-- **A full list**: `n` different numbers below `n` are all of them. -/
theorem mem_of_full {l : List Nat} {n : Nat} (hnodup : l.Nodup) (hlt : ∀ a ∈ l, a < n) (hlen : n ≤ l.length) {a : Nat}
    (ha : a < n) : a ∈ l := by
  have hsub : l.Subperm (List.range n) := hnodup.subperm (fun a ha => List.mem_range.2 (hlt a ha))
  have hperm : l.Perm (List.range n) := hsub.perm_of_length_le (by simpa using hlen)
  exact hperm.mem_iff.2 (List.mem_range.2 ha)

end Family
