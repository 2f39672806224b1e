import OsSim.Lib.BitField
/-!
# Pte — the page table entry and the address split (`include/bitops.h`, `include/mm.h`, `src/mm.c`)

A page table entry is a 32-bit word.  Bit 31 says the page is present, bit 30 that it is swapped out; a present page's
entry holds its frame in bits 0 .. 12, a swapped page's holds the swap device in bits 0 .. 4 and the swap frame in bits
5 .. 25.  The frame field and the two swap fields overlap, and each setter leaves the other's remaining bits behind.
-/
namespace OsSim

/-! ## `bitops.h` -/

def bit (nr : Nat) : BitVec 32 := 1#32 <<< nr

def genmask (h l : Nat) : BitVec 32 := BitField.mask 32 h l

def nbits2 (n : Nat) : Nat := if n &&& 2 ≠ 0 then 1 else 0
def nbits4 (n : Nat) : Nat := if n &&& 0xC ≠ 0 then 2 + nbits2 (n >>> 2) else nbits2 n
def nbits8 (n : Nat) : Nat := if n &&& 0xF0 ≠ 0 then 4 + nbits4 (n >>> 4) else nbits4 n
def nbits16 (n : Nat) : Nat := if n &&& 0xFF00 ≠ 0 then 8 + nbits8 (n >>> 8) else nbits8 n
def nbits32 (n : Nat) : Nat := if n &&& 0xFFFF0000 ≠ 0 then 16 + nbits16 (n >>> 16) else nbits16 n

def nbits (n : Nat) : Nat := if n = 0 then 0 else nbits32 n

def divRoundUp (n d : Nat) : Nat := (n + d - 1) / d

/-! ## `mm.h` -/

abbrev pagingCpuBusWidth : Nat := 22
abbrev pagingPagesz : Nat := 256
abbrev pagingMaxPgn : Nat := 16384

example : pagingMaxPgn = divRoundUp (bit pagingCpuBusWidth).toNat pagingPagesz := by decide

abbrev Pte := BitVec 32

def setbit (v m : Pte) : Pte := v ||| m
def clrbit (v m : Pte) : Pte := v &&& ~~~m
def setval (v value m : Pte) (offst : Nat) : Pte := BitField.set v value m offst
def getval (v m : Pte) (offst : Nat) : Pte := BitField.get v m offst

def pagingPtePresentMask : Pte := bit 31
def pagingPteSwappedMask : Pte := bit 30
def pagingPteFpnMask : Pte := genmask 12 0
def pagingPteSwptypMask : Pte := genmask 4 0
def pagingPteSwpoffMask : Pte := genmask 25 5

/-- `PAGING_PTE_PAGE_PRESENT(pte)`, as the condition it is used as -/
def Pte.present (pte : Pte) : Bool := pte &&& pagingPtePresentMask != 0#32
/-- The test of `PAGING_PTE_SWAPPED_MASK` -/
def Pte.swapped (pte : Pte) : Bool := pte &&& pagingPteSwappedMask != 0#32
def Pte.fpn (pte : Pte) : Nat := (getval pte pagingPteFpnMask 0).toNat
def Pte.swptyp (pte : Pte) : Nat := (getval pte pagingPteSwptypMask 0).toNat
def Pte.swpoff (pte : Pte) : Nat := (getval pte pagingPteSwpoffMask 5).toNat

def pagingAddrOffstHibit : Nat := nbits pagingPagesz - 1
def pagingAddrPgnLobit : Nat := nbits pagingPagesz
def pagingAddrPgnHibit : Nat := pagingCpuBusWidth - 1
def pagingAddrFpnLobit : Nat := nbits pagingPagesz

/-- `PAGING_OFFST(x)` of an address held in an `int` or an `unsigned long` -/
def pagingOffst (x : Int) : Nat := (getval (BitVec.ofInt 32 x) (genmask pagingAddrOffstHibit 0) 0).toNat
def pagingPgn (x : Int) : Nat :=
  (getval (BitVec.ofInt 32 x) (genmask pagingAddrPgnHibit pagingAddrPgnLobit) pagingAddrPgnLobit).toNat

/-! ## `mm.c`: the two setters -/

def pteSetSwap (pte : Pte) (swptyp swpoff : Nat) : Pte :=
  let pte := clrbit pte pagingPtePresentMask
  let pte := setbit pte pagingPteSwappedMask
  let pte := setval pte (BitVec.ofNat 32 swptyp) pagingPteSwptypMask 0
  setval pte (BitVec.ofNat 32 swpoff) pagingPteSwpoffMask 5

def pteSetFpn (pte : Pte) (fpn : Nat) : Pte :=
  let pte := setbit pte pagingPtePresentMask
  let pte := clrbit pte pagingPteSwappedMask
  setval pte (BitVec.ofNat 32 fpn) pagingPteFpnMask 0

/-! ## What the setters leave -/

theorem getLsbD_bit {i : Nat} (hi : i < 32) (j : Nat) : (bit i).getLsbD j = decide (j = i) := by
  unfold bit
  rw [BitVec.getLsbD_shiftLeft, BitVec.getLsbD_one]
  by_cases hj : j = i
  · subst hj; simp [hi]
  · by_cases hlt : j < i
    · simp [hlt, hj]
    · have : j - i ≠ 0 := by omega
      simp [hj, this]

theorem and_bit_ne_zero (v : BitVec 32) {i : Nat} (hi : i < 32) : (v &&& bit i != 0#32) = v.getLsbD i := by
  have hb : ∀ j, (v &&& bit i).getLsbD j = (v.getLsbD j && decide (j = i)) := fun j => by
    rw [BitVec.getLsbD_and, getLsbD_bit hi]
  cases hv : v.getLsbD i with
  | true =>
    have hne : v &&& bit i ≠ 0#32 := by
      intro h0
      have := hb i
      rw [h0, hv] at this
      simp at this
    simpa using hne
  | false =>
    have h0 : v &&& bit i = 0#32 := by
      apply BitVec.eq_of_getLsbD_eq
      intro j _
      rw [hb j]
      by_cases hj : j = i
      · subst hj; simp [hv]
      · simp [hj]
    simp [h0]

theorem Pte.present_eq (pte : Pte) : pte.present = pte.getLsbD 31 := and_bit_ne_zero pte (by decide)

theorem Pte.swapped_eq (pte : Pte) : pte.swapped = pte.getLsbD 30 := and_bit_ne_zero pte (by decide)

theorem getLsbD_setbit (v : Pte) {i : Nat} (hi : i < 32) (j : Nat) :
    (setbit v (bit i)).getLsbD j = (v.getLsbD j || decide (j = i)) := by
  rw [setbit, BitVec.getLsbD_or, getLsbD_bit hi]

theorem getLsbD_clrbit (v : Pte) {i : Nat} (hi : i < 32) (j : Nat) :
    (clrbit v (bit i)).getLsbD j = (v.getLsbD j && !decide (j = i)) := by
  rw [clrbit, BitVec.getLsbD_and, BitVec.getLsbD_not, getLsbD_bit hi]
  by_cases h : j < 32
  · simp [h]
  · simp [BitVec.getLsbD_of_ge _ _ (Nat.le_of_not_lt h)]

theorem getLsbD_setval (v x : Pte) {h l : Nat} (hh : h < 32) (i : Nat) :
    (setval v x (genmask h l) l).getLsbD i = if l ≤ i ∧ i ≤ h then x.getLsbD (i - l) else v.getLsbD i :=
  BitField.bit_set hh v x i

@[simp] theorem present_pteSetFpn (pte : Pte) (f : Nat) : (pteSetFpn pte f).present = true := by
  rw [Pte.present_eq, pteSetFpn, pagingPteFpnMask, pagingPtePresentMask, pagingPteSwappedMask]
  simp (disch := decide) only [getLsbD_setval, getLsbD_clrbit, getLsbD_setbit]
  simp

@[simp] theorem swapped_pteSetFpn (pte : Pte) (f : Nat) : (pteSetFpn pte f).swapped = false := by
  rw [Pte.swapped_eq, pteSetFpn, pagingPteFpnMask, pagingPtePresentMask, pagingPteSwappedMask]
  simp (disch := decide) only [getLsbD_setval, getLsbD_clrbit]
  simp

theorem fpn_pteSetFpn (pte : Pte) (f : Nat) : (pteSetFpn pte f).fpn = f % 8192 := by
  unfold Pte.fpn getval pteSetFpn setval pagingPteFpnMask genmask
  rw [BitField.get_set (by decide) (by decide)]
  simp only [BitVec.toNat_ofNat]
  omega

@[simp] theorem present_pteSetSwap (pte : Pte) (typ off : Nat) : (pteSetSwap pte typ off).present = false := by
  rw [Pte.present_eq, pteSetSwap, pagingPtePresentMask, pagingPteSwappedMask, pagingPteSwptypMask, pagingPteSwpoffMask]
  simp (disch := decide) only [getLsbD_setval, getLsbD_clrbit, getLsbD_setbit]
  simp

@[simp] theorem swapped_pteSetSwap (pte : Pte) (typ off : Nat) : (pteSetSwap pte typ off).swapped = true := by
  rw [Pte.swapped_eq, pteSetSwap, pagingPtePresentMask, pagingPteSwappedMask, pagingPteSwptypMask, pagingPteSwpoffMask]
  simp (disch := decide) only [getLsbD_setval, getLsbD_setbit]
  simp

theorem swpoff_pteSetSwap (pte : Pte) (typ off : Nat) : (pteSetSwap pte typ off).swpoff = off % 2097152 := by
  unfold Pte.swpoff getval pteSetSwap
  simp only []
  unfold setval pagingPteSwpoffMask genmask
  rw [BitField.get_set (by decide) (by decide)]
  simp only [BitVec.toNat_ofNat]
  omega

theorem swptyp_pteSetSwap (pte : Pte) (typ off : Nat) : (pteSetSwap pte typ off).swptyp = typ % 32 := by
  unfold Pte.swptyp getval pteSetSwap
  simp only []
  unfold setval pagingPteSwpoffMask pagingPteSwptypMask genmask
  rw [BitField.get_set_apart (by decide) (by decide) (by decide), BitField.get_set (by decide) (by decide)]
  simp only [BitVec.toNat_ofNat]
  omega

theorem fpn_lt (pte : Pte) : pte.fpn < 8192 := by
  rw [Pte.fpn, getval, pagingPteFpnMask, genmask, BitField.toNat_get (by decide) (by decide)]
  omega

/-- **The frame field of a swapped entry** is the device and the swap frame's low bits, not the swap frame. -/
theorem fpn_pteSetSwap (pte : Pte) {typ : Nat} (htyp : typ < 32) (off : Nat) :
    (pteSetSwap pte typ off).fpn = off % 256 * 32 + typ := by
  have hb : ∀ i, (getval (pteSetSwap pte typ off) pagingPteFpnMask 0).getLsbD i =
      (BitVec.ofNat 32 (off % 256 * 32 + typ)).getLsbD i := by
    intro i
    rw [getval, pagingPteFpnMask, genmask, BitField.bit_get (by decide), pteSetSwap]
    simp only [pagingPteSwpoffMask, pagingPteSwptypMask, getLsbD_setval _ _ (show 25 < 32 by decide),
      getLsbD_setval _ _ (show 4 < 32 by decide), BitVec.getLsbD_ofNat, Nat.zero_add, Nat.zero_le, true_and]
    rw [show off % 256 * 32 + typ = 2 ^ 5 * (off % 2 ^ 8) + typ by omega, Nat.testBit_two_pow_mul_add _ (by simpa)]
    by_cases h5 : i < 5
    · have h4 : i ≤ 4 := by omega
      have h12 : i < 32 ∧ i ≤ 12 := by omega
      rw [if_neg (by omega), if_pos h4]
      simp [h5, h12]
    · rw [Nat.testBit_mod_two_pow]
      by_cases h12 : i ≤ 12
      · have h1 : 5 ≤ i ∧ i ≤ 25 := by omega
        have h2 : i < 32 ∧ i - 5 < 32 ∧ i - 5 < 8 := by omega
        simp [h1, h2, h5, h12]
      · have h2 : ¬ i - 5 < 8 := by omega
        simp [h5, h12, h2]
  unfold Pte.fpn
  rw [BitVec.eq_of_getLsbD_eq (fun i _ => hb i), BitVec.toNat_ofNat]
  omega

@[simp] theorem present_zero : Pte.present 0#32 = false := by decide
@[simp] theorem swapped_zero : Pte.swapped 0#32 = false := by decide

/-! ## Addresses -/

theorem toNat_getval_ofInt (x : Int) {h l : Nat} (hh : h < 32) (hl : l ≤ h) :
    (getval (BitVec.ofInt 32 x) (genmask h l) l).toNat = (x % 4294967296).toNat / 2 ^ l % 2 ^ (h + 1 - l) := by
  rw [getval, genmask, BitField.toNat_get hh hl, BitVec.toNat_ofInt]
  rfl

theorem pagingOffst_eq (x : Int) : (pagingOffst x : Int) = x % 256 := by
  rw [pagingOffst, show pagingAddrOffstHibit = 7 by decide, toNat_getval_ofInt x (by decide) (by decide)]
  omega

theorem pagingOffst_lt (addr : Int) : pagingOffst addr < 256 := by
  have := pagingOffst_eq addr
  omega

theorem pagingPgn_eq (x : Int) : (pagingPgn x : Int) = x / 256 % 16384 := by
  rw [pagingPgn, show pagingAddrPgnHibit = 21 by decide, show pagingAddrPgnLobit = 8 by decide,
    toNat_getval_ofInt x (by decide) (by decide)]
  omega

/-- **A page number does not see the bits an `int` drops.** -/
theorem pagingPgn_congr {x y : Int} (h : x % 4294967296 = y % 4294967296) : pagingPgn x = pagingPgn y := by
  have hx := pagingPgn_eq x
  have hy := pagingPgn_eq y
  omega

theorem pagingOffst_congr {x y : Int} (h : x % 4294967296 = y % 4294967296) : pagingOffst x = pagingOffst y := by
  have hx := pagingOffst_eq x
  have hy := pagingOffst_eq y
  omega

end OsSim
