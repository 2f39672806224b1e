import Mathlib.Algebra.BigOperators.Group.Finset.Basic
import Mathlib.Algebra.Order.BigOperators.Group.Finset
import Mathlib.Order.Interval.Finset.Nat
/-!
# Rounds — weighted service in rounds

Members are served one at a time, the first in the order that wants service and has turns left; member `i` has `w i`
turns in a round, and a new round begins when no member that wants service has a turn left.  Over any run no member
is served more often in a round than its weight, and a member that goes on waiting is passed over a bounded number
of times: a second round can not begin before it is served.
-/
namespace Rounds

/-- How often each member has been served in this round, and how often others have been served since it last did not
wait or was served itself. -/
structure Tally (ι : Type) where
  used : ι → Nat
  waits : ι → Nat

namespace Tally

variable {ι : Type} [DecidableEq ι]

def start : Tally ι := ⟨fun _ => 0, fun _ => 0⟩

def renew (t : Tally ι) : Tally ι := { t with used := fun _ => 0 }

def serve (t : Tally ι) (i : ι) : Tally ι :=
  { used := Function.update t.used i (t.used i + 1), waits := fun j => if j = i then 0 else t.waits j + 1 }

def watch (t : Tally ι) (busy : ι → Bool) : Tally ι := { t with waits := fun i => if busy i then t.waits i else 0 }

end Tally

section Weights

variable {ι : Type} [LinearOrder ι] (I : Finset ι) (w : ι → Nat)

def left (t : Tally ι) (j : ι) : Nat := w j - t.used j

/-- Member `i` may be served: it waits and has a turn left, and no member before it has both. -/
structure First (busy : ι → Bool) (t : Tally ι) (i : ι) : Prop where
  mem : i ∈ I
  waiting : busy i = true
  turn : t.used i < w i
  before : ∀ j ∈ I, j < i → busy j = true → w j ≤ t.used j

def Over (busy : ι → Bool) (t : Tally ι) : Prop := ∀ j ∈ I, busy j = true → w j ≤ t.used j

def others (i : ι) : Nat := ∑ j ∈ I.erase i, w j

def ahead (i : ι) : Nat := ∑ j ∈ I with j < i, w j

/-- **The invariant of member `i`**: it has been passed over in this round only, or, with its turns of this round
still to come, in the round before it and by the members before it in this one. -/
def Passed (t : Tally ι) (i : ι) : Prop :=
  t.waits i + ∑ j ∈ I.erase i, left w t j ≤ others I w i ∨
    0 < left w t i ∧ t.waits i + ∑ j ∈ I with j < i, left w t j ≤ others I w i + ahead I w i

structure Inv (busy : ι → Bool) (t : Tally ι) : Prop where
  within : ∀ j ∈ I, t.used j ≤ w j
  still : ∀ i, busy i = false → t.waits i = 0
  passed : ∀ i ∈ I, Passed I w t i

variable {I w} {busy busy' : ι → Bool} {t : Tally ι}

omit [LinearOrder ι] in
theorem left_le (j : ι) : left w t j ≤ w j := Nat.sub_le _ _

theorem passed_of_waits_zero {i : ι} (h : t.waits i = 0) : Passed I w t i := by
  refine Or.inl ?_
  rw [h, Nat.zero_add]
  exact Finset.sum_le_sum (fun j _ => left_le j)

theorem Passed.bound {i : ι} (h : Passed I w t i) : t.waits i ≤ others I w i + ahead I w i := by
  rcases h with h | ⟨-, h⟩ <;> omega

theorem Passed.mono {t' : Tally ι} {i : ι} (h : Passed I w t i) (hused : t'.used = t.used)
    (hwaits : t'.waits i ≤ t.waits i) :
    Passed I w t' i := by
  have hleft : left w t' = left w t := by
    funext j
    rw [left, left, hused]
  unfold Passed
  rw [hleft]
  exact h.imp (fun h => (Nat.add_le_add_right hwaits _).trans h) (And.imp_right (Nat.add_le_add_right hwaits _).trans)

theorem start_inv (busy : ι → Bool) : Inv I w busy .start :=
  ⟨fun _ _ => Nat.zero_le _, fun _ _ => rfl, fun _ _ => passed_of_waits_zero rfl⟩

theorem Inv.watch (h : Inv I w busy t) (busy' : ι → Bool) : Inv I w busy' (t.watch busy') := by
  refine ⟨h.within, fun i hi => ?_, fun i hi => (h.passed i hi).mono rfl ?_⟩
  · simp [Tally.watch, hi]
  · change (if _ then _ else _) ≤ _
    split
    · exact le_rfl
    · exact Nat.zero_le _

/-- **A new round** begins: member `i`, if it waits, has been passed over by the others in one round at most. -/
theorem Inv.renew (h : Inv I w busy t) (hover : Over I w busy t) (hw : ∀ i ∈ I, 0 < w i) : Inv I w busy t.renew := by
  refine ⟨fun _ _ => Nat.zero_le _, h.still, fun i hi => ?_⟩
  cases hbusy : busy i with
  | false => exact passed_of_waits_zero (h.still i hbusy)
  | true =>
    have hnone : left w t i = 0 := Nat.sub_eq_zero_of_le (hover i hi hbusy)
    rcases h.passed i hi with hp | ⟨hpos, -⟩
    · refine Or.inr ⟨by simpa [left, Tally.renew] using hw i hi, ?_⟩
      have hwaits : t.renew.waits i ≤ others I w i := (Nat.le_add_right _ _).trans hp
      exact Nat.add_le_add hwaits (Finset.sum_le_sum (fun j _ => left_le j))
    · omega

theorem sum_left_serve {s : Finset ι} {k : ι} (hk : k ∈ s) (hturn : t.used k < w k) :
    ∑ j ∈ s, left w (t.serve k) j + 1 = ∑ j ∈ s, left w t j := by
  rw [← Finset.add_sum_erase s _ hk, ← Finset.add_sum_erase s (left w t) hk]
  have hself : left w (t.serve k) k + 1 = left w t k := by
    simp only [left, Tally.serve, Function.update_self]
    omega
  have hrest : ∑ j ∈ s.erase k, left w (t.serve k) j = ∑ j ∈ s.erase k, left w t j :=
    Finset.sum_congr rfl (fun j hj => by
      simp only [left, Tally.serve, Function.update_of_ne (Finset.ne_of_mem_erase hj)])
  omega

/-- **Member `k` is served**, and waits on or not; whoever else waits with a turn left comes after it. -/
theorem Inv.serve (h : Inv I w busy t) {k : ι} (hk : First I w busy t k) (hsub : ∀ i, busy' i = true → busy i = true) :
    Inv I w busy' ((t.serve k).watch busy') := by
  refine ⟨fun j hj => ?_, fun i hi => by simp [Tally.watch, hi], fun i hi => ?_⟩
  · change (t.serve k).used j ≤ w j
    by_cases hjk : j = k
    · subst hjk
      simp only [Tally.serve, Function.update_self]
      exact hk.turn
    · simpa [Tally.serve, hjk] using h.within j hj
  · cases hbusy : busy' i with
    | false => exact passed_of_waits_zero (by simp [Tally.watch, hbusy])
    | true =>
      have hle : ((t.serve k).watch busy').waits i ≤ (t.serve k).waits i := by simp [Tally.watch, hbusy]
      suffices hserved : Passed I w (t.serve k) i from hserved.mono rfl hle
      by_cases hik : i = k
      · subst hik
        exact passed_of_waits_zero (by simp [Tally.serve])
      · have hwaits : (t.serve k).waits i = t.waits i + 1 := by simp [Tally.serve, hik]
        rcases h.passed i hi with hp | ⟨hpos, hp⟩
        · have := sum_left_serve (Finset.mem_erase.2 ⟨fun e => hik e.symm, hk.mem⟩) hk.turn
          exact Or.inl (by omega)
        · have hlt : k < i := by
            by_contra hge
            have := hk.before i hi (lt_of_le_of_ne (not_lt.1 hge) hik) (hsub i hbusy)
            simp only [left] at hpos
            omega
          have hmem : k ∈ I.filter (fun j => j < i) := Finset.mem_filter.2 ⟨hk.mem, hlt⟩
          have := sum_left_serve hmem hk.turn
          refine Or.inr ⟨?_, by omega⟩
          simpa [left, Tally.serve, hik] using hpos

end Weights

end Rounds
