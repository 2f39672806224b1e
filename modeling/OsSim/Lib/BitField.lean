import Mathlib.Logic.Basic
import Mathlib.Algebra.Group.Nat.Defs
/-!
# BitField — fields of a machine word

A field is a run of bits `lo .. hi` of a word, named by its mask.  Reading it masks and shifts down; writing it clears
the masked bits and puts the shifted value there.  Everything is read off bit by bit: `bit_get`, `bit_set`.
-/
namespace BitField

variable {w : Nat}

def mask (w hi lo : Nat) : BitVec w := (BitVec.allOnes w <<< lo) &&& (BitVec.allOnes w >>> (w - hi - 1))

def get (v m : BitVec w) (lo : Nat) : BitVec w := (v &&& m) >>> lo

def set (v x m : BitVec w) (lo : Nat) : BitVec w := (v &&& ~~~m) ||| ((x <<< lo) &&& m)

theorem bit_mask {hi lo : Nat} (h : hi < w) (i : Nat) : (mask w hi lo).getLsbD i = decide (lo ≤ i ∧ i ≤ hi) := by
  simp only [mask, BitVec.getLsbD_and, BitVec.getLsbD_shiftLeft, BitVec.getLsbD_ushiftRight, BitVec.getLsbD_allOnes]
  by_cases h1 : lo ≤ i <;> by_cases h2 : i ≤ hi
  · simp [h1, h2]; omega
  · simp [h2]; omega
  · simp [h1]
  · simp [h2]; omega

/-- **A bit of a field read** is the word's bit above the field's low end, inside the field. -/
theorem bit_get {hi lo : Nat} (h : hi < w) (v : BitVec w) (i : Nat) :
    (get v (mask w hi lo) lo).getLsbD i = (v.getLsbD (lo + i) && decide (lo + i ≤ hi)) := by
  simp [get, bit_mask h]

/-- **A bit of a word after a field is written**: the value's inside the field, the word's own outside. -/
theorem bit_set {hi lo : Nat} (h : hi < w) (v x : BitVec w) (i : Nat) :
    (set v x (mask w hi lo) lo).getLsbD i =
      if lo ≤ i ∧ i ≤ hi then x.getLsbD (i - lo) else v.getLsbD i := by
  simp only [set, BitVec.getLsbD_or, BitVec.getLsbD_and, BitVec.getLsbD_not, BitVec.getLsbD_shiftLeft, bit_mask h]
  by_cases hi' : i < w
  · by_cases h1 : lo ≤ i ∧ i ≤ hi
    · simp [h1, hi']
    · have : decide (lo ≤ i ∧ i ≤ hi) = false := by simpa using h1
      rw [if_neg h1, this]
      simp [hi']
  · have : ¬(lo ≤ i ∧ i ≤ hi) := by omega
    rw [if_neg this]
    simp [hi', BitVec.getLsbD_of_ge _ _ (Nat.le_of_not_lt hi')]

theorem get_set {hi lo : Nat} (h : hi < w) (hlo : lo ≤ hi) (v : BitVec w) (n : Nat) :
    get (set v (BitVec.ofNat w n) (mask w hi lo) lo) (mask w hi lo) lo = BitVec.ofNat w (n % 2 ^ (hi + 1 - lo)) := by
  apply BitVec.eq_of_getLsbD_eq
  intro i hi'
  rw [bit_get h, bit_set h]
  simp only [BitVec.getLsbD_ofNat, Nat.testBit_mod_two_pow]
  by_cases hb : lo + i ≤ hi
  · have h1 : lo ≤ lo + i ∧ lo + i ≤ hi := ⟨Nat.le_add_right _ _, hb⟩
    have h2 : i < hi + 1 - lo := by omega
    simp [h1, h2]
  · have h2 : ¬ i < hi + 1 - lo := by omega
    simp [hb, h2]

theorem get_set_apart {hi lo hi' lo' : Nat} (h : hi < w) (h' : hi' < w) (hapart : hi' < lo ∨ hi < lo')
    (v x : BitVec w) :
    get (set v x (mask w hi lo) lo) (mask w hi' lo') lo' = get v (mask w hi' lo') lo' := by
  apply BitVec.eq_of_getLsbD_eq
  intro i _
  rw [bit_get h', bit_get h', bit_set h]
  by_cases hb : lo' + i ≤ hi'
  · rw [if_neg (by omega)]
  · simp [hb]

theorem toNat_get {hi lo : Nat} (h : hi < w) (hlo : lo ≤ hi) (v : BitVec w) :
    (get v (mask w hi lo) lo).toNat = v.toNat / 2 ^ lo % 2 ^ (hi + 1 - lo) := by
  apply Nat.eq_of_testBit_eq
  intro i
  have hb : (get v (mask w hi lo) lo).toNat.testBit i = _ := bit_get h v i
  simp only [BitVec.getLsbD] at hb
  rw [hb, Nat.testBit_mod_two_pow, Nat.testBit_div_two_pow, Nat.add_comm i lo, Bool.and_comm]
  congr 1
  exact decide_eq_decide.2 (by omega)

end BitField
