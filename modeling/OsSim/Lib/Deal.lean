import Mathlib.Data.List.Nodup
import Mathlib.Data.List.Perm.Subperm
/-!
# Deal — one pack, dealt between a table and several hands

Cards have a key, and no key lies twice: not on the table, not in a hand, not on the table and in a hand, not in two
hands.  A hand may take from the table, put back, drop, and turn a card over; the others are not looked at.
-/

/-- **No key lies twice**, on the table or in the hands. -/
structure Deal {α κ ι : Type} (key : α → κ) (table : List α) (hand : ι → List α) : Prop where
  nodup : ∀ i, ((table ++ hand i).map key).Nodup
  apart : ∀ i j, i ≠ j → ∀ x ∈ hand i, ∀ y ∈ hand j, key x ≠ key y

namespace Deal

variable {α κ ι : Type} {key : α → κ} {table : List α} {hand hand' : ι → List α}

theorem off_table (h : Deal key table hand) {i : ι} {x y : α} (hx : x ∈ hand i) (hy : y ∈ table) : key x ≠ key y := by
  have hnodup := h.nodup i
  rw [List.map_append, List.nodup_append] at hnodup
  exact (hnodup.2.2 (key y) (List.mem_map_of_mem hy) (key x) (List.mem_map_of_mem hx)).symm

/-- **What a hand and the table exchange**, dropping what they like. -/
theorem exchange (h : Deal key table hand) {i : ι} {c : List α}
    (hsub : ((c ++ hand' i).map key).Subperm ((table ++ hand i).map key)) (hne : ∀ j, j ≠ i → hand' j = hand j) :
    Deal key c hand' := by
  have hnodup : ((c ++ hand' i).map key).Nodup := by
    obtain ⟨l, hperm, hl⟩ := hsub
    exact hperm.nodup_iff.1 (hl.nodup (h.nodup i))
  have hother : ∀ x ∈ c ++ hand' i, ∀ j, j ≠ i → ∀ y ∈ hand j, key x ≠ key y := by
    intro x hx j hj y hy hkey
    obtain ⟨x', hx', hkey'⟩ := List.mem_map.1 (hsub.subset (List.mem_map_of_mem hx))
    rcases List.mem_append.1 hx' with ht | hi
    · exact h.off_table hy ht (hkey.symm.trans hkey'.symm)
    · exact h.apart i j hj.symm x' hi y hy (hkey'.trans hkey)
  constructor
  · intro j
    by_cases hj : j = i
    · rwa [hj]
    · rw [hne j hj, List.map_append]
      rw [List.map_append] at hnodup
      have hhand := h.nodup j
      rw [List.map_append] at hhand
      refine hnodup.of_append_left.append hhand.of_append_right (fun k hk hk' => ?_)
      obtain ⟨x, hx, rfl⟩ := List.mem_map.1 hk
      obtain ⟨y, hy, hkey⟩ := List.mem_map.1 hk'
      exact hother x (List.mem_append_left _ hx) j hj y hy hkey.symm
  · intro j k hjk x hx y hy
    by_cases hj : j = i
    · subst hj
      rw [hne k hjk.symm] at hy
      exact hother x (List.mem_append_right _ hx) k hjk.symm y hy
    · rw [hne j hj] at hx
      by_cases hk : k = i
      · subst hk
        exact (hother y (List.mem_append_right _ hy) j hj x hx).symm
      · rw [hne k hk] at hy
        exact h.apart j k hjk x hx y hy

theorem lay (h : Deal key table hand) {x : α} (hx : ∀ i, ∀ y ∈ table ++ hand i, key y ≠ key x) :
    Deal key (table ++ [x]) hand where
  nodup i := by
    have hmem : key x ∉ (table ++ hand i).map key := by
      intro hmem
      obtain ⟨y, hy, hkey⟩ := List.mem_map.1 hmem
      exact hx i y hy hkey
    have hperm : (table ++ [x] ++ hand i).Perm (x :: (table ++ hand i)) := by
      rw [List.append_assoc]
      exact List.perm_middle
    exact (hperm.map key).nodup_iff.2 (List.nodup_cons.2 ⟨hmem, h.nodup i⟩)
  apart := h.apart

end Deal
