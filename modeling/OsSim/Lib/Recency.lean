import Mathlib.Data.List.Dedup
import Mathlib.Data.List.Induction
/-!
# Recency — the order of last occurrence

A history is a list, the latest at its end.  `List.dedup` keeps the last occurrence of each element, so the
duplicate-free history is the order of last occurrence; adding an element takes it out of its place and puts it at
the end, which is what a least-recently-used list does.
-/
namespace Recency

variable {α : Type} [DecidableEq α]

/-- When the element last occurred, counted from 1; 0 if it never did. -/
def lastSeen (a : α) (l : List α) : Nat := l.length - l.reverse.idxOf a

theorem lastSeen_concat (a b : α) (l : List α) :
    lastSeen a (l ++ [b]) = if a = b then l.length + 1 else lastSeen a l := by
  unfold lastSeen
  rw [List.reverse_append, List.reverse_singleton, List.singleton_append, List.length_append, List.length_singleton,
    List.idxOf_cons]
  by_cases h : a = b
  · subst h; simp
  · have : (b == a) = false := by simpa using fun e => h e.symm
    simp [h, this]

theorem lastSeen_le (a : α) (l : List α) : lastSeen a l ≤ l.length := Nat.sub_le _ _

/-- **A new occurrence goes to the end**, and the others keep their order. -/
theorem dedup_concat (a : α) : ∀ l : List α, (l ++ [a]).dedup = l.dedup.filter (fun b => b ≠ a) ++ [a]
  | [] => by simp
  | b :: l => by
    have ih := dedup_concat a l
    rw [List.cons_append]
    by_cases hb : b ∈ l
    · rw [List.dedup_cons_of_mem hb, List.dedup_cons_of_mem (List.mem_append_left _ hb), ih]
    · rw [List.dedup_cons_of_notMem hb]
      by_cases hba : b = a
      · subst hba
        rw [List.dedup_cons_of_mem (by simp), ih]
        simp
      · rw [List.dedup_cons_of_notMem (by simp [hb, hba]), ih]
        simp [hba]

/-- **An element that occurs again goes to the end**: what was in the order of last occurrence still is. -/
theorem pairwise_touch {l h : List α} (hl : l.Pairwise (fun a b => lastSeen a h < lastSeen b h)) (x : α) :
    (l.filter (fun b => b ≠ x) ++ [x]).Pairwise (fun a b => lastSeen a (h ++ [x]) < lastSeen b (h ++ [x])) := by
  have hold : ∀ a ∈ l.filter (fun b => b ≠ x), lastSeen a (h ++ [x]) = lastSeen a h := fun a ha => by
    rw [lastSeen_concat, if_neg (by simpa using (List.mem_filter.1 ha).2)]
  rw [List.pairwise_append]
  refine ⟨?_, List.pairwise_singleton _ _, fun a ha b hb => ?_⟩
  · refine List.Pairwise.imp_of_mem (fun {a b} ha hb hab => ?_) (hl.filter _)
    rwa [hold a ha, hold b hb]
  · rw [List.mem_singleton] at hb
    subst hb
    rw [hold a ha, lastSeen_concat, if_pos rfl]
    exact Nat.lt_succ_of_le (lastSeen_le a h)

theorem nodup_of_pairwise {l h : List α} (hl : l.Pairwise (fun a b => lastSeen a h < lastSeen b h)) : l.Nodup :=
  hl.imp (fun hab e => absurd hab (by rw [e]; exact Nat.lt_irrefl _))

theorem dedup_pairwise (l : List α) : l.dedup.Pairwise (fun a b => lastSeen a l < lastSeen b l) := by
  induction l using List.reverseRecOn with
  | nil => exact List.Pairwise.nil
  | append_singleton l x ih =>
    rw [dedup_concat]
    exact pairwise_touch ih x

end Recency
