import Mathlib.Data.List.Perm.Subperm
import OsSim.Encoding
import OsSim.Machine
/-!
# Release — giving back what a process holds (`src/mm-vm.c`, `free_pcb_memph`)

`free_pcb_memph` goes along the page table and puts one frame back for each entry.  Its test is the wrong way round: the
frame field of an entry that is *not* present goes to RAM's list, the swap field of one that *is* present goes to the
swap device's, divided by the page size besides.  An entry never mapped counts as not present, and gives RAM frame 0.

So what the lists gain is what is read of each entry with the other state's decoder.  `PageKind` says what an entry is,
and the words it was written over, since the wrong decoder sees bits that the last setter left alone.
-/
namespace OsSim

open Atomic Code

/-- One turn of the loop of `free_pcb_memph`. -/
def freePcbEntry (p : Pid) (pagenum : Nat) : Code Unit := do
  let pte ← readPte ⟨p, pagenum⟩
  if !pte.present then
    let fpn := pte.fpn
    putFreefp .mram fpn
  else
    let fpn := pte.swpoff / pagingPagesz
    putFreefp .mswp fpn

def freePcbMemph (p : Pid) : Code Int := do
  Prog.loop (freePcbEntry p) 0 pagingMaxPgn
  pure 0

/-! ## What the loop puts back -/

/-- The frames that the first `n` entries of a table give to RAM's free list, the last first. -/
def ramGained (pgd : Nat → Pte) : Nat → List Nat
  | 0 => []
  | n + 1 => if (pgd n).present then ramGained pgd n else (pgd n).fpn :: ramGained pgd n

def swpGained (pgd : Nat → Pte) : Nat → List Nat
  | 0 => []
  | n + 1 => if (pgd n).present then (pgd n).swpoff / pagingPagesz :: swpGained pgd n else swpGained pgd n

def Machine.table (m : Machine) (p : Pid) : Nat → Pte := fun pagenum => m.pgd ⟨p, pagenum⟩

def Machine.givenBack (m : Machine) (p : Pid) (n : Nat) : Machine :=
  (m.setFree .mram (ramGained (m.table p) n ++ m.mram.freeFpList)).setFree .mswp
    (swpGained (m.table p) n ++ m.mswp.freeFpList)

theorem run_freePcbEntry (m : Machine) (p : Pid) (j : Nat) :
    run (freePcbEntry p j) (m.givenBack p j) = .ok (m.givenBack p (j + 1), ()) := by
  have hpte : (m.givenBack p j).pgd ⟨p, j⟩ = m.table p j := by simp [Machine.givenBack, Machine.table]
  rw [freePcbEntry, run_readPte, hpte]
  by_cases h : (m.table p j).present = true
  · simp only [h, Bool.not_true, Bool.false_eq_true, if_false, Machine.givenBack, ramGained, swpGained, if_true]
    rfl
  · simp only [Bool.not_eq_true] at h
    simp only [h, Bool.not_false, if_true, Machine.givenBack, ramGained, swpGained, Bool.false_eq_true, if_false]
    rfl

/-- **What `free_pcb_memph` does**: it gives each list the frames its loop makes up, and nothing else. -/
theorem run_freePcbMemph (m : Machine) (p : Pid) :
    run (freePcbMemph p) m = .ok (m.givenBack p pagingMaxPgn, 0) := by
  have hloop := exec_loop_eq step (m.givenBack p) (i := 0) (n := pagingMaxPgn) (fun j _ _ => run_freePcbEntry m p j)
  have h0 : m.givenBack p 0 = m := rfl
  rw [h0, Nat.zero_add] at hloop
  exact run_bind_ok.2 ⟨_, _, hloop, rfl⟩

/-! ## What a process holds -/

/-- What an entry is: never mapped, or written last by one of the setters, over the word `old`. -/
inductive PageKind where
  | unmapped
  | inRam (old : Pte) (fpn : Fin 8192)
  | inSwap (old : Pte) (swptyp : Fin 32) (swpoff : Fin 2097152)

namespace PageKind

def pte : PageKind → Pte
  | unmapped => 0#32
  | inRam old fpn => pteSetFpn old fpn
  | inSwap old swptyp swpoff => pteSetSwap old swptyp swpoff

def ramFrame : PageKind → Option Nat
  | inRam _ fpn => some fpn
  | _ => none

def swapFrame : PageKind → Option Nat
  | inSwap _ _ swpoff => some swpoff
  | _ => none

/-- What the frame field shows of a swapped entry: the swap type, and the low bits of the swap frame above it. -/
def strayFrame : PageKind → Option Nat
  | inSwap _ swptyp swpoff => some (swpoff % 256 * 32 + swptyp)
  | _ => none

/-- What is left in a present entry above the frame field: bits 13 .. 25 of the word it was written over. -/
def leftover : PageKind → Option Nat
  | inRam old _ => some (old.swpoff / 256)
  | _ => none

def isUnmapped : PageKind → Bool
  | unmapped => true
  | _ => false

end PageKind

theorem swpoff_pteSetFpn (old : Pte) (f : Nat) : (pteSetFpn old f).swpoff / 256 = old.swpoff / 256 := by
  apply Nat.eq_of_testBit_eq
  intro i
  have hbit : ∀ v : Pte, (v.swpoff / 256).testBit i = (v.getLsbD (13 + i) && decide (13 + i ≤ 25)) := fun v => by
    rw [show 256 = 2 ^ 8 by decide, Nat.testBit_div_two_pow, Nat.add_comm i 8]
    change (getval v pagingPteSwpoffMask 5).getLsbD (8 + i) = _
    rw [getval, pagingPteSwpoffMask, genmask, BitField.bit_get (by decide), show 5 + (8 + i) = 13 + i by omega]
  rw [hbit, hbit]
  by_cases h : 13 + i ≤ 25
  · rw [getLsbD_pteSetFpn old f (by omega) (by omega)]
  · simp [h]

section Table

variable (e : Nat → PageKind)

/-- What a value read off each of the first `n` entries comes to, in order. -/
def readAlong (read : PageKind → Option Nat) (n : Nat) : List Nat := (List.range n).filterMap (fun i => read (e i))

theorem readAlong_succ (read : PageKind → Option Nat) (n : Nat) :
    readAlong e read (n + 1) = readAlong e read n ++ (read (e n)).toList := by
  rw [readAlong, List.range_succ, List.filterMap_append]
  cases h : read (e n) <;> simp [readAlong, h]

def unmappedCount (n : Nat) : Nat := (List.range n).countP (fun i => (e i).isUnmapped)

theorem unmappedCount_succ (n : Nat) : unmappedCount e (n + 1) = unmappedCount e n + (e n).isUnmapped.toNat := by
  rw [unmappedCount, List.range_succ, List.countP_append]
  cases h : (e n).isUnmapped <;> simp [unmappedCount, h]

/-- **RAM gains** the stray frame fields of the swapped entries, and frame 0 for each entry never mapped. -/
theorem ramGained_perm (n : Nat) : (ramGained (fun i => (e i).pte) n).Perm
    (List.replicate (unmappedCount e n) 0 ++ readAlong e PageKind.strayFrame n) := by
  induction n with
  | zero => exact .nil
  | succ n ih =>
    rw [ramGained, readAlong_succ, unmappedCount_succ]
    cases h : e n with
    | unmapped =>
      simp only [PageKind.pte, present_zero, Bool.false_eq_true, if_false, PageKind.isUnmapped, Bool.toNat_true,
        PageKind.strayFrame, Option.toList_none, List.append_nil, List.replicate_succ, List.cons_append]
      exact .cons _ ih
    | inRam old fpn =>
      simp only [PageKind.pte, present_pteSetFpn, if_true, PageKind.isUnmapped, Bool.toNat_false, Nat.add_zero,
        PageKind.strayFrame, Option.toList_none, List.append_nil]
      exact ih
    | inSwap old typ off =>
      simp only [PageKind.pte, present_pteSetSwap, Bool.false_eq_true, if_false, PageKind.isUnmapped, Bool.toNat_false,
        Nat.add_zero, PageKind.strayFrame, Option.toList_some, fpn_pteSetSwap old typ.isLt]
      rw [← List.append_assoc]
      exact (List.Perm.cons _ ih).trans (List.perm_append_singleton _ _).symm

theorem swpGained_perm (n : Nat) :
    (swpGained (fun i => (e i).pte) n).Perm (readAlong e PageKind.leftover n) := by
  induction n with
  | zero => exact .nil
  | succ n ih =>
    rw [swpGained, readAlong_succ]
    cases h : e n with
    | unmapped =>
      simpa only [PageKind.pte, present_zero, Bool.false_eq_true, if_false, PageKind.leftover, Option.toList_none,
        List.append_nil] using ih
    | inRam old fpn =>
      simp only [PageKind.pte, present_pteSetFpn, if_true, PageKind.leftover, Option.toList_some, swpoff_pteSetFpn]
      exact (List.Perm.cons _ ih).trans (List.perm_append_singleton _ _).symm
    | inSwap old typ off =>
      simpa only [PageKind.pte, present_pteSetSwap, Bool.false_eq_true, if_false, PageKind.leftover, Option.toList_none,
        List.append_nil] using ih

/-- **The entries by kind**: as many leftovers as RAM frames, as many stray fields as swap frames, and the three kinds
make up the table. -/
theorem length_readAlong (n : Nat) :
    (readAlong e PageKind.leftover n).length = (readAlong e PageKind.ramFrame n).length ∧
    (readAlong e PageKind.strayFrame n).length = (readAlong e PageKind.swapFrame n).length ∧
    (readAlong e PageKind.ramFrame n).length + (readAlong e PageKind.swapFrame n).length + unmappedCount e n = n := by
  induction n with
  | zero => exact ⟨rfl, rfl, rfl⟩
  | succ n ih =>
    simp only [readAlong_succ, unmappedCount_succ, List.length_append]
    cases h : e n <;> simp only [PageKind.leftover, PageKind.ramFrame, PageKind.strayFrame, PageKind.swapFrame,
      PageKind.isUnmapped, Option.toList_some, Option.toList_none, List.length_singleton, List.length_nil,
      Bool.toNat_true, Bool.toNat_false] <;> omega

theorem unmappedCount_eq_zero {n : Nat} : unmappedCount e n = 0 ↔ ∀ i < n, (e i).isUnmapped = false := by
  simp [unmappedCount, List.countP_eq_zero]

end Table

/-! ## When exactly what is held is given back -/

/-- **Exactly what the process holds is given back**: RAM's list gains the frames of the present entries and the active
swap device's the swap frames of the swapped ones, each once, and neither gains anything else. -/
def ReturnsHeld (m : Machine) (p : Pid) (e : Nat → PageKind) : Prop :=
  ∃ m', run (freePcbMemph p) m = .ok (m', 0) ∧
    m'.mram.freeFpList.Perm (readAlong e PageKind.ramFrame pagingMaxPgn ++ m.mram.freeFpList) ∧
    m'.mswp.freeFpList.Perm (readAlong e PageKind.swapFrame pagingMaxPgn ++ m.mswp.freeFpList)

/-- **The coincidence it takes**: no entry is without a page; what the swapped entries show in the frame field are the
frames of the present ones; and what the present ones were left with above that field are the swap frames of the
swapped ones. -/
structure FieldsCoincide (e : Nat → PageKind) : Prop where
  mapped : ∀ i < pagingMaxPgn, (e i).isUnmapped = false
  stray : (readAlong e PageKind.strayFrame pagingMaxPgn).Perm (readAlong e PageKind.ramFrame pagingMaxPgn)
  leftover : (readAlong e PageKind.leftover pagingMaxPgn).Perm (readAlong e PageKind.swapFrame pagingMaxPgn)

section Settled

variable {m : Machine} {p : Pid} {e : Nat → PageKind}

theorem returnsHeld_iff_perm (hpgd : m.table p = fun i => (e i).pte) : ReturnsHeld m p e ↔
    (ramGained (fun i => (e i).pte) pagingMaxPgn).Perm (readAlong e PageKind.ramFrame pagingMaxPgn) ∧
      (swpGained (fun i => (e i).pte) pagingMaxPgn).Perm (readAlong e PageKind.swapFrame pagingMaxPgn) := by
  have hram : (m.givenBack p pagingMaxPgn).mram.freeFpList =
      ramGained (fun i => (e i).pte) pagingMaxPgn ++ m.mram.freeFpList := by rw [← hpgd]; rfl
  have hswp : (m.givenBack p pagingMaxPgn).mswp.freeFpList =
      swpGained (fun i => (e i).pte) pagingMaxPgn ++ m.mswp.freeFpList := by rw [← hpgd]; rfl
  unfold ReturnsHeld
  rw [run_freePcbMemph]
  constructor
  · rintro ⟨m', hrun, hr, hs⟩
    cases hrun
    rw [hram] at hr
    rw [hswp] at hs
    exact ⟨(List.perm_append_right_iff _).1 hr, (List.perm_append_right_iff _).1 hs⟩
  · rintro ⟨hr, hs⟩
    exact ⟨_, rfl, by rw [hram]; exact hr.append_right _, by rw [hswp]; exact hs.append_right _⟩

theorem returnsHeld_mapped (hpgd : m.table p = fun i => (e i).pte) (h : ReturnsHeld m p e) :
    unmappedCount e pagingMaxPgn = 0 := by
  obtain ⟨hr, hs⟩ := (returnsHeld_iff_perm hpgd).1 h
  have hrlen := ((ramGained_perm e pagingMaxPgn).symm.trans hr).length_eq
  have hslen := ((swpGained_perm e pagingMaxPgn).symm.trans hs).length_eq
  obtain ⟨hleft, hstray, -⟩ := length_readAlong e pagingMaxPgn
  -- RAM gains one frame more than it is owed for each entry never mapped
  rw [List.length_append, List.length_replicate] at hrlen
  omega

end Settled

/-- **When `free_pcb_memph` gives back what the process holds**: exactly for the tables whose fields coincide. -/
theorem freePcbMemph_returns_iff (m : Machine) (p : Pid) (e : Nat → PageKind) (hpgd : m.table p = fun i => (e i).pte) :
    ReturnsHeld m p e ↔ FieldsCoincide e := by
  rw [returnsHeld_iff_perm hpgd]
  constructor
  · intro h
    have hzero := returnsHeld_mapped hpgd ((returnsHeld_iff_perm hpgd).2 h)
    have hram := ramGained_perm e pagingMaxPgn
    rw [hzero, List.replicate_zero, List.nil_append] at hram
    exact ⟨(unmappedCount_eq_zero e).1 hzero, hram.symm.trans h.1, (swpGained_perm e pagingMaxPgn).symm.trans h.2⟩
  · intro h
    have hram := ramGained_perm e pagingMaxPgn
    rw [(unmappedCount_eq_zero e).2 h.mapped, List.replicate_zero, List.nil_append] at hram
    exact ⟨hram.trans h.stray, (swpGained_perm e pagingMaxPgn).trans h.leftover⟩

def onePageKind : Nat → PageKind
  | 0 => .inRam 0#32 5
  | _ => .unmapped

def onePage : Machine where
  mram := ⟨fun _ => 0, 2048, true, [6, 7]⟩
  mswp := ⟨fun _ => 0, 2048, true, List.range 8⟩
  idle := []
  lru := [⟨⟨0, 0⟩, 5, 0⟩]
  pgd r := (onePageKind r.pgn).pte
  mm _ := zeroMm
  trace := []

theorem freePcbMemph_returns_iff_one_page : ReturnsHeld onePage 0 onePageKind ↔ FieldsCoincide onePageKind :=
  freePcbMemph_returns_iff onePage 0 onePageKind rfl

/-- **A process with one page**: RAM gets frame 0 for each of the other entries, and frame 5 is not given back. -/
theorem freePcbMemph_one_page : ¬ ReturnsHeld onePage 0 onePageKind := by
  intro h
  have hpgd : onePage.table 0 = fun i => (onePageKind i).pte := rfl
  have hmapped := (unmappedCount_eq_zero onePageKind).1 (returnsHeld_mapped hpgd h) 1 (by decide)
  exact absurd hmapped (by decide)

/-- **Never for the tables the code builds**: where each RAM frame is held by one page and every page is swapped to the
same device, the fields cannot coincide. -/
theorem not_fieldsCoincide {e : Nat → PageKind} (hram : (readAlong e PageKind.ramFrame pagingMaxPgn).Nodup)
    (typ : Fin 32) (htyp : ∀ i < pagingMaxPgn, ∀ old swptyp swpoff, e i = .inSwap old swptyp swpoff → swptyp = typ) :
    ¬ FieldsCoincide e := by
  intro h
  obtain ⟨hleft, hstray, hall⟩ := length_readAlong e pagingMaxPgn
  have hzero := (unmappedCount_eq_zero e).2 h.mapped
  have hsame := h.leftover.length_eq
  -- half of the entries are present, but the frames they would have to hold are 256 at most
  have hsub : readAlong e PageKind.ramFrame pagingMaxPgn ⊆ (List.range 256).map (fun k => k * 32 + typ) := by
    intro x hx
    obtain ⟨i, hlt, hi⟩ := List.mem_filterMap.1 (h.stray.symm.subset hx)
    cases hk : e i with
    | inSwap old swptyp swpoff =>
      rw [hk] at hi
      cases hi
      rw [htyp i (List.mem_range.1 hlt) old swptyp swpoff hk]
      exact List.mem_map.2 ⟨swpoff % 256, List.mem_range.2 (Nat.mod_lt _ (by decide)), rfl⟩
    | unmapped => rw [hk] at hi; cases hi
    | inRam old fpn => rw [hk] at hi; cases hi
  have hle := (hram.subperm hsub).length_le
  rw [List.length_map, List.length_range] at hle
  have hsize : pagingMaxPgn = 16384 := rfl
  omega

end OsSim
