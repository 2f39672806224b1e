import Mathlib.Data.List.Nodup
import Mathlib.Logic.Function.Basic
/-!
# Pool — numbered resources, each free or owned

A pool of the resources `0 .. n - 1` is a free list and a partial map from owners to resources.  It is in order when
every resource is in exactly one place: on the free list, once, or with one owner.  Taking from the free list and giving
back to it keep the pool in order; nothing else needs to be known of how resources are used.
-/
namespace Pool

variable {ι : Type}

/-- **Every resource is in exactly one place.** -/
structure InOrder (n : Nat) (free : List Nat) (owned : ι → Option Nat) : Prop where
  nodup : free.Nodup
  free_lt : ∀ x ∈ free, x < n
  owned_lt : ∀ {i x}, owned i = some x → x < n
  not_free : ∀ {i x}, owned i = some x → x ∉ free
  inj : ∀ {i j x}, owned i = some x → owned j = some x → i = j
  cover : ∀ x < n, x ∈ free ∨ ∃ i, owned i = some x

namespace InOrder

variable {n : Nat} {free : List Nat} {owned owned' : ι → Option Nat} {x : Nat}

theorem initial (hfree : free.Perm (List.range n)) (hnone : ∀ i, owned i = none) : InOrder n free owned where
  nodup := hfree.nodup_iff.2 List.nodup_range
  free_lt x hx := List.mem_range.1 (hfree.mem_iff.1 hx)
  owned_lt h := by simp [hnone] at h
  not_free h := by simp [hnone] at h
  inj h := by simp [hnone] at h
  cover x hx := Or.inl (hfree.mem_iff.2 (List.mem_range.2 hx))

theorem perm (h : InOrder n free owned) {free' : List Nat} (hperm : free.Perm free') : InOrder n free' owned where
  nodup := hperm.nodup_iff.1 h.nodup
  free_lt x hx := h.free_lt x (hperm.mem_iff.2 hx)
  owned_lt := h.owned_lt
  not_free hi hx := h.not_free hi (hperm.mem_iff.2 hx)
  inj := h.inj
  cover x hx := (h.cover x hx).imp_left hperm.mem_iff.1

theorem take (h : InOrder n (x :: free) owned) (i : ι) (hi : owned i = none) (hx : owned' i = some x)
    (hne : ∀ j, j ≠ i → owned' j = owned j) : InOrder n free owned' where
  nodup := (List.nodup_cons.1 h.nodup).2
  free_lt y hy := h.free_lt y (List.mem_cons_of_mem _ hy)
  owned_lt {j y} hj := by
    by_cases hji : j = i
    · subst hji
      rw [hx] at hj
      cases hj
      exact h.free_lt x (by simp)
    · exact h.owned_lt ((hne j hji).symm.trans hj)
  not_free {j y} hj hy := by
    by_cases hji : j = i
    · subst hji
      rw [hx] at hj
      cases hj
      exact (List.nodup_cons.1 h.nodup).1 hy
    · exact h.not_free ((hne j hji).symm.trans hj) (List.mem_cons_of_mem _ hy)
  inj {j k y} hj hk := by
    -- an owner other than `i` holds what it held, which was not free
    have hother : ∀ l, l ≠ i → owned' l ≠ some x := fun l hl hlx =>
      h.not_free ((hne l hl).symm.trans hlx) (by simp)
    by_cases hji : j = i <;> by_cases hki : k = i
    · rw [hji, hki]
    · subst hji
      rw [hx] at hj
      cases hj
      exact absurd hk (hother k hki)
    · subst hki
      rw [hx] at hk
      cases hk
      exact absurd hj (hother j hji)
    · exact h.inj ((hne j hji).symm.trans hj) ((hne k hki).symm.trans hk)
  cover y hy := by
    rcases h.cover y hy with hmem | ⟨j, hj⟩
    · rcases List.mem_cons.1 hmem with rfl | hmem
      · exact Or.inr ⟨i, hx⟩
      · exact Or.inl hmem
    · have hji : j ≠ i := by
        rintro rfl
        rw [hi] at hj
        cases hj
      exact Or.inr ⟨j, (hne j hji).trans hj⟩

theorem release (h : InOrder n free owned) (i : ι) (hi : owned i = some x) (hx : owned' i = none)
    (hne : ∀ j, j ≠ i → owned' j = owned j) : InOrder n (x :: free) owned' := by
  have hold : ∀ {j y}, owned' j = some y → j ≠ i ∧ owned j = some y := fun {j y} hj => by
    have hji : j ≠ i := by
      rintro rfl
      rw [hx] at hj
      cases hj
    exact ⟨hji, (hne j hji).symm.trans hj⟩
  exact {
    nodup := List.nodup_cons.2 ⟨h.not_free hi, h.nodup⟩
    free_lt := fun y hy => (List.mem_cons.1 hy).elim (fun hyx => hyx ▸ h.owned_lt hi) (h.free_lt y)
    owned_lt := fun hj => h.owned_lt (hold hj).2
    not_free := fun {j y} hj hy => by
      rcases List.mem_cons.1 hy with rfl | hy
      · exact (hold hj).1 (h.inj (hold hj).2 hi)
      · exact h.not_free (hold hj).2 hy
    inj := fun hj hk => h.inj (hold hj).2 (hold hk).2
    cover := fun y hy => by
      rcases h.cover y hy with hmem | ⟨j, hj⟩
      · exact Or.inl (List.mem_cons_of_mem _ hmem)
      · by_cases hji : j = i
        · subst hji
          rw [hi] at hj
          cases hj
          exact Or.inl (by simp)
        · exact Or.inr ⟨j, (hne j hji).trans hj⟩ }

/-- **One place**: free exactly once and owned by nobody, or not free and owned by exactly one. -/
theorem one_place (h : InOrder n free owned) (hx : x < n) :
    (free.count x = 1 ∧ ∀ i, owned i ≠ some x) ∨ (x ∉ free ∧ ∃! i, owned i = some x) := by
  rcases h.cover x hx with hmem | ⟨i, hi⟩
  · exact Or.inl ⟨List.count_eq_one_of_mem h.nodup hmem, fun i hi => h.not_free hi hmem⟩
  · exact Or.inr ⟨h.not_free hi, i, hi, fun j hj => h.inj hj hi⟩

end InOrder

end Pool
