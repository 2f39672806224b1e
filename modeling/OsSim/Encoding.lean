import OsSim.Pte
/-!
# Encoding — one page table entry under both setters (`src/mm.c`, `include/mm.h`)

The frame field and the two swap fields share a word, and each setter leaves some of the other's bits behind: what
`pte_set_swap` puts in bits 13 .. 25 is still there after `pte_set_fpn`.  The setters agree on bits 30 and 31 (both
write both) and neither touches bits 26 .. 29, so after any sequence the last setter alone decides what is read, and
those four bits are the first entry's.
-/
namespace OsSim

def pagingPteReserveMask : Pte := bit 29
def pagingPteDirtyMask : Pte := bit 28

inductive PteSet where
  | fpn (fpn : Nat)
  | swap (swptyp swpoff : Nat)
  deriving DecidableEq, Repr

namespace PteSet

def InRange : PteSet → Prop
  | .fpn f => f < 8192
  | .swap typ off => typ < 32 ∧ off < 2 ^ 21

def exec (pte : Pte) : PteSet → Pte
  | .fpn f => pteSetFpn pte f
  | .swap typ off => pteSetSwap pte typ off

def run (pte : Pte) (calls : List PteSet) : Pte := calls.foldl exec pte

/-- **What the macros read of an entry** that a call wrote last. -/
def Reads (pte : Pte) : PteSet → Prop
  | .fpn f => pte.present = true ∧ pte.swapped = false ∧ pte.fpn = f
  | .swap typ off => pte.present = false ∧ pte.swapped = true ∧ pte.swptyp = typ ∧ pte.swpoff = off

instance (c : PteSet) : Decidable c.InRange := by cases c <;> unfold InRange <;> infer_instance

end PteSet

open PteSet

/-- A bit neither setter writes: above the fields and below the two flags. -/
theorem getLsbD_pteSetFpn (pte : Pte) (f : Nat) {i : Nat} (hlo : 12 < i) (hhi : i < 30) :
    (pteSetFpn pte f).getLsbD i = pte.getLsbD i := by
  rw [pteSetFpn, pagingPteFpnMask, pagingPtePresentMask, pagingPteSwappedMask]
  simp (disch := decide) only [getLsbD_setval, getLsbD_clrbit, getLsbD_setbit]
  rw [if_neg (by omega)]
  simp [show i ≠ 30 by omega, show i ≠ 31 by omega]

theorem getLsbD_pteSetSwap (pte : Pte) (typ off : Nat) {i : Nat} (hlo : 25 < i) (hhi : i < 30) :
    (pteSetSwap pte typ off).getLsbD i = pte.getLsbD i := by
  rw [pteSetSwap, pagingPtePresentMask, pagingPteSwappedMask, pagingPteSwptypMask, pagingPteSwpoffMask]
  simp (disch := decide) only [getLsbD_setval, getLsbD_clrbit, getLsbD_setbit]
  rw [if_neg (by omega), if_neg (by omega)]
  simp [show i ≠ 30 by omega, show i ≠ 31 by omega]

theorem PteSet.getLsbD_exec (c : PteSet) (pte : Pte) {i : Nat} (hlo : 25 < i) (hhi : i < 30) :
    (exec pte c).getLsbD i = pte.getLsbD i := by
  cases c with
  | fpn f => exact getLsbD_pteSetFpn pte f (by omega) hhi
  | swap typ off => exact getLsbD_pteSetSwap pte typ off hlo hhi

theorem PteSet.getLsbD_run (calls : List PteSet) (pte : Pte) {i : Nat} (hlo : 25 < i) (hhi : i < 30) :
    (run pte calls).getLsbD i = pte.getLsbD i := by
  induction calls generalizing pte with
  | nil => rfl
  | cons c calls ih =>
    have hrun : run pte (c :: calls) = run (exec pte c) calls := rfl
    rw [hrun, ih, getLsbD_exec c pte hlo hhi]

theorem PteSet.reads_exec (pte : Pte) {c : PteSet} (hc : c.InRange) : Reads (exec pte c) c := by
  cases c with
  | fpn f =>
    refine ⟨present_pteSetFpn pte f, swapped_pteSetFpn pte f, ?_⟩
    rw [exec, fpn_pteSetFpn, Nat.mod_eq_of_lt hc]
  | swap typ off =>
    refine ⟨present_pteSetSwap pte typ off, swapped_pteSetSwap pte typ off, ?_, ?_⟩
    · rw [exec, swptyp_pteSetSwap, Nat.mod_eq_of_lt hc.1]
    · rw [exec, swpoff_pteSetSwap]
      exact Nat.mod_eq_of_lt hc.2

theorem PteSet.run_concat (pte : Pte) (calls : List PteSet) (c : PteSet) :
    run pte (calls ++ [c]) = exec (run pte calls) c := by
  rw [run, List.foldl_append]
  rfl

theorem and_bit_congr {v v' : Pte} {i : Nat} (hi : i < 32) (h : v.getLsbD i = v'.getLsbD i) :
    v &&& bit i = v' &&& bit i := by
  apply BitVec.eq_of_getLsbD_eq
  intro j _
  rw [BitVec.getLsbD_and, BitVec.getLsbD_and, getLsbD_bit hi]
  by_cases hj : j = i
  · rw [hj, h]
  · simp [hj]

/-- **The encoding of an entry.**  From any word and after any sequence of calls whose arguments fit, the flags are the
last call's, its field or fields read back what it was given, and the reserved and dirty bits and bits 26 and 27 are the
first word's. -/
theorem pte_encoding (pte : Pte) (calls : List PteSet) (last : PteSet) (hcalls : ∀ c ∈ calls ++ [last], c.InRange) :
    let pte' := run pte (calls ++ [last])
    (pte'.present = true ↔ ∃ f, last = .fpn f) ∧
    (pte'.swapped = true ↔ ∃ typ off, last = .swap typ off) ∧
    (∀ f, last = .fpn f → pte'.fpn = f) ∧
    (∀ typ off, last = .swap typ off → pte'.swptyp = typ ∧ pte'.swpoff = off) ∧
    ∀ m ∈ [pagingPteReserveMask, pagingPteDirtyMask, bit 26, bit 27], pte' &&& m = pte &&& m := by
  intro pte'
  have hlast : last.InRange := hcalls last (by simp)
  have hreads : Reads pte' last := by
    rw [show pte' = exec (run pte calls) last from run_concat pte calls last]
    exact reads_exec _ hlast
  have hkept : ∀ i, 25 < i → i < 30 → pte' &&& bit i = pte &&& bit i := fun i hlo hhi =>
    and_bit_congr (by omega) (getLsbD_run _ pte hlo hhi)
  have hmasks : ∀ m ∈ [pagingPteReserveMask, pagingPteDirtyMask, bit 26, bit 27], pte' &&& m = pte &&& m := by
    simp only [List.mem_cons, List.not_mem_nil, or_false, forall_eq_or_imp, forall_eq]
    exact ⟨hkept 29 (by decide) (by decide), hkept 28 (by decide) (by decide), hkept 26 (by decide) (by decide),
      hkept 27 (by decide) (by decide)⟩
  cases last with
  | fpn f =>
    obtain ⟨hp, hs, hf⟩ := hreads
    refine ⟨by simp [hp], by simp [hs], fun g hg => ?_, fun typ off h => (nomatch h), hmasks⟩
    cases hg
    exact hf
  | swap typ off =>
    obtain ⟨hp, hs, ht, ho⟩ := hreads
    refine ⟨by simp [hp], by simp [hs], fun g h => (nomatch h), fun typ' off' h => ?_, hmasks⟩
    cases h
    exact ⟨ht, ho⟩

theorem pte_encoding_alternating :
    let pte' := run 0x3C000000#32 ([.swap 31 2097151, .fpn 5, .swap 0 7] ++ [.fpn 8191])
    (pte'.present = true ↔ ∃ f, PteSet.fpn 8191 = .fpn f) ∧
    (pte'.swapped = true ↔ ∃ typ off, PteSet.fpn 8191 = .swap typ off) ∧
    (∀ f, PteSet.fpn 8191 = .fpn f → pte'.fpn = f) ∧
    (∀ typ off, PteSet.fpn 8191 = .swap typ off → pte'.swptyp = typ ∧ pte'.swpoff = off) ∧
    ∀ m ∈ [pagingPteReserveMask, pagingPteDirtyMask, bit 26, bit 27], pte' &&& m = 0x3C000000#32 &&& m :=
  pte_encoding 0x3C000000#32 [.swap 31 2097151, .fpn 5, .swap 0 7] (.fpn 8191) (by decide)

end OsSim
