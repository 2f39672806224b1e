import OsSim.Access
/-!
# FreeList — what `get_free_vmrg_area` takes, and whether it returns

The search returns the last piece it cuts.  It takes just that piece if it cuts once, from a node that is then gone
or still of two bytes.  It returns at all only if its test stops fitting: never for one byte, and not in any run to
wait for once the test wraps round.
-/
namespace OsSim

open Atomic Code

/-! ## What is taken -/

/-- A free list of one area: its non-empty regions are in virtual memory and share no byte; an empty one may be
anywhere. -/
structure FreeList (vmaid vmemsz : Int) (l : List VmRg) : Prop where
  node : ∀ rg ∈ l, rg.Ordered vmaid
  below : ∀ rg ∈ l, rg.rgStart ≠ rg.rgEnd → rg.hi < vmemsz
  apart : l.Pairwise (fun x y => ∀ b, ¬ (x.Holds b ∧ y.Holds b))

/-- The search takes one region and loses nothing: what it leaves and what it finds. -/
def Takes (size : Int) (l : List VmRg) : List VmRg × Option VmRg → Prop
  | (l', some newrg) => newrg.len = size ∧ (∀ b, newrg.Holds b → ∃ x ∈ l, x.Holds b) ∧
      ∀ b, (∃ x ∈ l', x.Holds b) ↔ (∃ x ∈ l, x.Holds b) ∧ ¬ newrg.Holds b
  | (l', none) => (∀ x ∈ l, x.rgStart ≠ x.rgEnd → x.len < size) ∧ l' = l

/-- At most one region has room for the request, and that for no second one; and it is not just one byte longer. -/
def OneFit (size : Int) (l : List VmRg) : Prop :=
  l.Pairwise (fun x y => ¬ (size ≤ x.len ∧ size ≤ y.len)) ∧
    ∀ x ∈ l, size ≤ x.len → x.len < 2 * size ∧ x.len ≠ size + 1

namespace FreeList

variable {vmaid vmemsz size : Int} {l : List VmRg}

theorem eq_of_holds (h : FreeList vmaid vmemsz l) {x y : VmRg} {b : Int} (hx : x ∈ l) (hy : y ∈ l) (hbx : x.Holds b)
    (hby : y.Holds b) : x = y := by
  by_contra hne
  have : Std.Symm (fun x y : VmRg => ∀ b, ¬ (x.Holds b ∧ y.Holds b)) := ⟨fun _ _ hxy b hb => hxy b hb.symm⟩
  exact h.apart.forall hx hy hne b ⟨hbx, hby⟩

theorem search (h : FreeList vmaid vmemsz l) (hvm : vmemsz ≤ 4294967296) (h2 : 2 ≤ size)
    (hstraight : Straight vmaid size l) :
    ∃ fuel, getFreeVmrgArea fuel vmaid size l = some (sweep vmaid size l, lastCut vmaid size l) := by
  refine getFreeVmrgArea_sweep h2 h.node hstraight (fun rg hrg hne => ?_)
  have := h.below rg hrg hne
  unfold ulong
  omega

theorem takes (h : FreeList vmaid vmemsz l) (h2 : 2 ≤ size) (hone : OneFit size l) :
    Takes size l (sweep vmaid size l, lastCut vmaid size l) := by
  obtain ⟨hpair, hfit⟩ := hone
  cases hcut : lastCut vmaid size l with
  | none => exact ⟨fun x hx _ => lastCut_none hcut x hx, (sweep_short h.node (lastCut_none hcut)).1⟩
  | some newrg =>
    obtain ⟨w, hw, hwlen, rfl⟩ := lastCut_mem hcut
    have honly : ∀ x ∈ l, size ≤ x.len → x = w := by
      intro x hx hlen
      by_contra hne
      have : Std.Symm (fun x y : VmRg => ¬ (size ≤ x.len ∧ size ≤ y.len)) := ⟨fun _ _ hxy hb => hxy hb.symm⟩
      exact hpair.forall hx hw hne ⟨hlen, hwlen⟩
    refine ⟨?_, fun b hb => ⟨w, hw, lastPiece_holds (h.node w hw) h2 hwlen hb⟩, fun b => ?_⟩
    · rw [len_area (show (lastPiece vmaid size w).vmaid = vmaid from rfl)]
      simp only [lastPiece, along_along]
      omega
    · rw [free_sweep]
      constructor
      · rintro ⟨x, hx, -, hb⟩
        have hxb := restRg_holds (h.node x hx) h2 hb
        refine ⟨⟨x, hx, hxb⟩, fun hnew => ?_⟩
        obtain rfl := h.eq_of_holds hx hw hxb (lastPiece_holds (h.node w hw) h2 hwlen hnew)
        rw [holds_restRg (h.node x hx)] at hb
        rw [holds_lastPiece h2] at hnew
        omega
      · rintro ⟨⟨x, hx, hb⟩, hnew⟩
        have hlen := len_along (h.node x hx)
        have hxb := (holds_along (h.node x hx).area).1 hb
        refine ⟨x, hx, ?_⟩
        rw [holds_restRg (h.node x hx)]
        by_cases hroom : size ≤ x.len
        · obtain rfl := honly x hx hroom
          obtain ⟨hless, hne⟩ := hfit x hx hroom
          have hmod : x.len % size = x.len - size := by
            rw [← Int.sub_emod_right, Int.emod_eq_of_lt (by omega) (by omega)]
          rw [holds_lastPiece h2, hmod] at hnew
          rw [hmod]
          omega
        · have hmod : x.len % size = x.len := Int.emod_eq_of_lt (by omega) (by omega)
          have hne : x.len ≠ 1 := fun e => hxb.1 (by
            have := congrArg (along vmaid) (show along vmaid x.rgStart = along vmaid x.rgEnd by omega)
            simpa using this)
          rw [hmod]
          omega

theorem oneFit (h : FreeList vmaid vmemsz l) (h2 : 2 ≤ size)
    (htakes : Takes size l (sweep vmaid size l, lastCut vmaid size l)) : OneFit size l := by
  cases hcut : lastCut vmaid size l with
  | none =>
    have hshort := lastCut_none hcut
    refine ⟨h.apart.imp_of_mem (fun hx _ _ hboth => ?_), fun x hx hlen => ?_⟩
    · have := hshort _ hx
      omega
    · have := hshort x hx
      omega
  | some newrg =>
    obtain ⟨w, hw, hwlen, rfl⟩ := lastCut_mem hcut
    rw [hcut] at htakes
    obtain ⟨-, -, hfree⟩ := htakes
    -- a byte that is free and not in what is left of its region has to be in the piece found
    have hpiece : ∀ {x : VmRg} {b : Int}, x ∈ l → x.Holds b → ¬ (restRg vmaid size x).Holds b →
        x = w ∧ (lastPiece vmaid size w).Holds b := by
      intro x b hx hb hgone
      have hnew : (lastPiece vmaid size w).Holds b := by
        by_contra hnew
        obtain ⟨y, hy, -, hby⟩ := free_sweep.1 ((hfree b).2 ⟨⟨x, hx, hb⟩, hnew⟩)
        obtain rfl := h.eq_of_holds hx hy hb (restRg_holds (h.node y hy) h2 hby)
        exact hgone hby
      exact ⟨h.eq_of_holds hx hw hb (lastPiece_holds (h.node w hw) h2 hwlen hnew), hnew⟩
    have hbig : ∀ x ∈ l, size ≤ x.len → x = w ∧ x.len < 2 * size ∧ x.len ≠ size + 1 := by
      intro x hx hlen
      have hxlen := len_along (h.node x hx)
      obtain ⟨hpos, -, hle⟩ := emod_len (h.node x hx) h2
      obtain ⟨hstart, hend⟩ := holds_start (h.node x hx) (by omega)
      obtain ⟨rfl, hfirst⟩ := hpiece hx hstart (fun hb => by
        rw [holds_restRg (h.node x hx)] at hb
        omega)
      rw [holds_lastPiece h2] at hfirst
      refine ⟨rfl, by omega, fun hone => ?_⟩
      have hmod : x.len % size = 1 := by rw [hone, Int.add_emod_left, Int.emod_eq_of_lt (by omega) (by omega)]
      obtain ⟨-, hlast⟩ := hpiece hx hend (fun hb => by
        rw [holds_restRg (h.node x hx)] at hb
        exact hb.1 hmod)
      rw [holds_lastPiece h2] at hlast
      omega
    refine ⟨h.apart.imp_of_mem (fun {x y} hx hy hdis hboth => ?_), fun x hx hlen => (hbig x hx hlen).2⟩
    obtain ⟨rfl, -⟩ := hbig x hx hboth.1
    obtain ⟨rfl, -⟩ := hbig y hy hboth.2
    have hstart := (holds_start (h.node y hy) (by omega)).1
    exact hdis _ ⟨hstart, hstart⟩

/-- **What is taken as claimed is cut from a region with room**: where the search wraps round, from another one. -/
theorem room_of_takes (h : FreeList vmaid vmemsz l) (h2 : 2 ≤ size) {fuel : Nat} {l' : List VmRg} {newrg : VmRg}
    (hget : getFreeVmrgArea fuel vmaid size l = some (l', some newrg)) (htakes : Takes size l (l', some newrg)) :
    ∃ x ∈ l, size ≤ x.len := by
  obtain ⟨hlen, hfree, hleft⟩ := htakes
  have hwords := (getFreeVmrgArea_words hget (fun x hx => (h.node x hx).words)).2 newrg rfl
  obtain ⟨harea, hstays⟩ : newrg.vmaid = vmaid ∧ ∀ x ∈ l, fits vmaid size x = false → x ∈ l' := by
    obtain ⟨rg, hloop, hrg⟩ := getFreeVmrgArea_some hget
    split at hrg
    · cases hrg
    · cases hrg
      exact ⟨getFreeLoop_vmaid fuel hloop rfl,
        fun x hx hfit => getFreeLoop_stays hfit fuel hloop (fun y hy => (h.node y hy).area) hx⟩
  have hword := along_word hwords vmaid
  rw [len_area harea] at hlen
  -- of the `size` bytes found the first is so far from the end of memory that the test does not wrap round at its region
  have hfirst : newrg.Holds newrg.rgStart := by
    rw [holds_along harea]
    exact ⟨fun e => by rw [e] at hlen; omega, le_rfl, by omega⟩
  obtain ⟨x, hx, hb⟩ := hfree _ hfirst
  refine ⟨x, hx, ?_⟩
  by_contra hshort
  have hxlen := len_along (h.node x hx)
  have hxword := along_word (h.node x hx).words vmaid
  have hxb := (holds_along (h.node x hx).area).1 hb
  have hfit : fits vmaid size x = false := by
    rw [← Bool.not_eq_true, fits_along (h.node x hx).words]
    unfold ulong
    omega
  exact ((hleft _).1 ⟨x, hstays x hx hfit, hb⟩).2 hfirst

end FreeList

/-- **`get_free_vmrg_area` takes one region and loses nothing** if its test does not wrap round and it cuts once;
otherwise it does not, unless the test wraps round at some region while another has room. -/
theorem search_takes {vmaid vmemsz size : Int} {l : List VmRg} (hvm : vmemsz ≤ 4294967296) (h2 : 2 ≤ size)
    (hmax : size ≤ 2147483647) (h : FreeList vmaid vmemsz l) {fuel : Nat} {q : List VmRg × Option VmRg}
    (hget : getFreeVmrgArea fuel vmaid size l = some q) :
    (Straight vmaid size l ∧ OneFit size l → Takes size l q) ∧
      (Takes size l q → Straight vmaid size l ∧ OneFit size l ∨ ¬ Straight vmaid size l ∧ ∃ x ∈ l, size ≤ x.len) := by
  have hsearch : Straight vmaid size l → q = (sweep vmaid size l, lastCut vmaid size l) := fun hstraight => by
    obtain ⟨fuel', hget'⟩ := h.search hvm h2 hstraight
    exact getFreeVmrgArea_unique hget hget'
  refine ⟨fun ⟨hstraight, hone⟩ => hsearch hstraight ▸ h.takes h2 hone, fun htakes => ?_⟩
  by_cases hstraight : Straight vmaid size l
  · rw [hsearch hstraight] at htakes
    exact Or.inl ⟨hstraight, h.oneFit h2 htakes⟩
  · obtain ⟨l', o⟩ := q
    cases o with
    | none =>
      obtain ⟨-, rfl⟩ := htakes
      exact absurd (straight_of_not_fits h2 hmax h.node ((getFreeVmrgArea_same hget).1 rfl)) hstraight
    | some newrg => exact Or.inr ⟨hstraight, h.room_of_takes h2 hget htakes⟩

/-- A node of 300 bytes is cut three times: the first 200 bytes are neither free nor found, and neither is the last. -/
theorem search_takes_fails : FreeList 0 4096 [⟨0, 0, 299⟩] ∧
    getFreeVmrgArea 5 0 100 [⟨0, 0, 299⟩] = some ([⟨0, 299, 299⟩], some ⟨0, 200, 299⟩) ∧
    ¬ Takes 100 [⟨0, 0, 299⟩] ([⟨0, 299, 299⟩], some ⟨0, 200, 299⟩) := by
  refine ⟨⟨?_, ?_, List.pairwise_singleton _ _⟩, by decide +kernel, fun h => ?_⟩
  · simp [VmRg.Words, along, VmRg.ordered_iff]
  · simp [VmRg.hi]
  · obtain ⟨x, hx, hb⟩ := (h.2.2 0).2 (by decide)
    obtain rfl := List.mem_singleton.1 hx
    revert hb
    decide

/-- The free list the heap starts with, and one region of the size asked for. -/
theorem search_takes_exact :
    Takes 100 [⟨1, 3999, 3900⟩, ⟨1, 4095, 4095⟩] ([⟨1, 4095, 4095⟩], some ⟨1, 3999, 3900⟩) := by
  have h : FreeList 1 4096 [⟨1, 3999, 3900⟩, ⟨1, 4095, 4095⟩] := by
    refine ⟨?_, ?_, ?_⟩
    · simp [VmRg.Words, along, VmRg.ordered_iff]
    · simp [VmRg.hi]
    · simp [VmRg.Holds]
  have hget : getFreeVmrgArea 3 1 100 [⟨1, 3999, 3900⟩, ⟨1, 4095, 4095⟩] =
      some ([⟨1, 4095, 4095⟩], some ⟨1, 3999, 3900⟩) := by decide +kernel
  refine (search_takes (by decide) (by decide) (by decide) h hget).1 ⟨by decide, ?_, ?_⟩
  · simp [VmRg.len, VmRg.hi, VmRg.lo]
  · simp [VmRg.len, VmRg.hi, VmRg.lo]

end OsSim
