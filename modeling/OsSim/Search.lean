import OsSim.Lib.Cover
import OsSim.Region
import Mathlib.Algebra.Group.Int.Defs
/-!
# Search — the search of a free list (`get_free_vmrg_area`)

The loop goes on after a hit: it looks at the same node again, cuts from it as often as it can, and then cuts from
the nodes behind it.  Where its arithmetic does not wrap round, what it leaves of the list is one sweep along it,
and what it finds is the last piece cut.
-/
namespace OsSim

/-! ## Regions as pieces of memory -/

namespace VmRg

def lo (rg : VmRg) : Int := if rg.vmaid = 0 then rg.rgStart else rg.rgEnd

def hi (rg : VmRg) : Int := if rg.vmaid = 0 then rg.rgEnd else rg.rgStart

def len (rg : VmRg) : Int := rg.hi - rg.lo + 1

/-- The byte is in the region; `rg_start = rg_end` marks an empty one. -/
def Holds (rg : VmRg) (b : Int) : Prop := rg.rgStart ≠ rg.rgEnd ∧ rg.lo ≤ b ∧ b ≤ rg.hi

instance (rg : VmRg) (b : Int) : Decidable (rg.Holds b) := inferInstanceAs (Decidable (_ ∧ _))

def Words (rg : VmRg) : Prop := (0 ≤ rg.rgStart ∧ rg.rgStart < 2 ^ 64) ∧ 0 ≤ rg.rgEnd ∧ rg.rgEnd < 2 ^ 64

end VmRg

abbrev held (l : List VmRg) (b : Int) : Nat := Cover.count VmRg.Holds l b

theorem ulong_word (x : Int) : 0 ≤ ulong x ∧ ulong x < 2 ^ 64 := by
  unfold ulong
  omega

theorem cutRg_words {vmaid size : Int} {rg : VmRg} (h : rg.Words) : (cutRg vmaid size rg).Words := by
  refine ⟨h.1, ?_⟩
  unfold cutRg
  dsimp only
  split <;> exact ulong_word _

theorem shrinkRg_words {vmaid size : Int} {rg : VmRg} (h : rg.Words) : (shrinkRg vmaid size rg).Words := by
  refine ⟨?_, h.2⟩
  unfold shrinkRg
  dsimp only
  split <;> exact ulong_word _

theorem takeOver_eq {rgit nextrg : VmRg} (h : rgit.vmaid = nextrg.vmaid) :
    ({ rgit with rgStart := nextrg.rgStart, rgEnd := nextrg.rgEnd } : VmRg) = nextrg := by
  rw [h]

/-! ## What every search keeps -/

theorem getFreeLoop_words {vmaid size : Int} : ∀ (fuel : Nat) {l l' : List VmRg} {newrg newrg' : VmRg},
    getFreeLoop vmaid size fuel l newrg = some (l', newrg') → (∀ rg ∈ l, rg.Words) → newrg.Words →
    (∀ rg ∈ l', rg.Words) ∧ newrg'.Words
  | _, [], l', newrg, newrg', h, hl, hnew => by
    simp only [getFreeLoop, Option.some.injEq, Prod.mk.injEq] at h
    obtain ⟨rfl, rfl⟩ := h
    exact ⟨hl, hnew⟩
  | 0, _ :: _, _, _, _, h, _, _ => by simp [getFreeLoop] at h
  | fuel + 1, rgit :: rest, l', newrg, newrg', h, hl, hnew => by
    obtain ⟨hrgit, hrest⟩ := List.forall_mem_cons.1 hl
    rw [getFreeLoop] at h
    split at h
    · have hcut : (cutRg vmaid size rgit).Words := cutRg_words hrgit
      split at h
      · exact getFreeLoop_words fuel h (List.forall_mem_cons.2 ⟨shrinkRg_words hrgit, hrest⟩) hcut
      · split at h
        · obtain ⟨hnext, hrest'⟩ := List.forall_mem_cons.1 hrest
          exact getFreeLoop_words fuel h (List.forall_mem_cons.2 ⟨hnext, hrest'⟩) hcut
        · exact getFreeLoop_words fuel h (List.forall_mem_cons.2 ⟨⟨hrgit.2, hrgit.2⟩, hrest⟩) hcut
    · split at h
      · rename_i rest' rg hloop
        cases h
        obtain ⟨hrest', hrg⟩ := getFreeLoop_words fuel hloop hrest hnew
        exact ⟨List.forall_mem_cons.2 ⟨hrgit, hrest'⟩, hrg⟩
      · cases h

theorem getFreeVmrgArea_words {vmaid size : Int} {fuel : Nat} {l l' : List VmRg} {o : Option VmRg}
    (h : getFreeVmrgArea fuel vmaid size l = some (l', o)) (hl : ∀ rg ∈ l, rg.Words) :
    (∀ rg ∈ l', rg.Words) ∧ ∀ rg ∈ o, rg.Words := by
  obtain ⟨newrg, hloop, rfl⟩ := getFreeVmrgArea_some h
  obtain ⟨hl', hnew⟩ := getFreeLoop_words fuel hloop hl ⟨ulong_word _, ulong_word _⟩
  refine ⟨hl', fun rg hrg => ?_⟩
  split at hrg
  · cases hrg
  · cases hrg
    exact hnew

theorem getFreeLoop_mono {vmaid size : Int} : ∀ (fuel : Nat) {fuel' : Nat} {l : List VmRg} {newrg : VmRg}
    {q : List VmRg × VmRg}, getFreeLoop vmaid size fuel l newrg = some q → fuel ≤ fuel' →
      getFreeLoop vmaid size fuel' l newrg = some q
  | _, _, [], _, _, h, _ => by simpa [getFreeLoop] using h
  | 0, _, _ :: _, _, _, h, _ => by simp [getFreeLoop] at h
  | fuel + 1, 0, _ :: _, _, _, _, hle => by omega
  | fuel + 1, fuel' + 1, rgit :: rest, newrg, q, h, hle => by
    have hle' : fuel ≤ fuel' := by omega
    rw [getFreeLoop] at h ⊢
    split at h
    · rename_i hfit
      rw [if_pos hfit]
      split at h
      · rename_i hleaves
        simp only [hleaves, if_true]
        exact getFreeLoop_mono fuel h hle'
      · rename_i hleaves
        simp only [hleaves, Bool.false_eq_true, if_false]
        split at h
        · exact getFreeLoop_mono fuel h hle'
        · exact getFreeLoop_mono fuel h hle'
    · rename_i hfit
      rw [if_neg hfit]
      split at h
      · rename_i rest' rg hloop
        rw [getFreeLoop_mono fuel hloop hle']
        exact h
      · cases h

/-- **The search of a free list has one outcome**, however many turns it is given. -/
theorem getFreeVmrgArea_unique {vmaid size : Int} {fuel fuel' : Nat} {l : List VmRg} {q q' : List VmRg × Option VmRg}
    (h : getFreeVmrgArea fuel vmaid size l = some q) (h' : getFreeVmrgArea fuel' vmaid size l = some q') : q = q' := by
  have hmono : ∀ {f : Nat} {q}, getFreeVmrgArea f vmaid size l = some q → f ≤ max fuel fuel' →
      getFreeVmrgArea (max fuel fuel') vmaid size l = some q := by
    intro f q hf hle
    rw [getFreeVmrgArea] at hf ⊢
    split at hf
    · cases hf
    · rename_i l' newrg hloop
      rw [getFreeLoop_mono f hloop hle]
      exact hf
  have heq := (hmono h (le_max_left _ _)).symm.trans (hmono h' (le_max_right _ _))
  exact Option.some.inj heq

theorem getFreeLoop_stays {vmaid size : Int} {x : VmRg} (hx : fits vmaid size x = false) :
    ∀ (fuel : Nat) {l l' : List VmRg} {newrg newrg' : VmRg},
      getFreeLoop vmaid size fuel l newrg = some (l', newrg') → (∀ rg ∈ l, rg.vmaid = vmaid) → x ∈ l → x ∈ l'
  | _, [], _, _, _, _, _, hmem => by cases hmem
  | 0, _ :: _, _, _, _, h, _, _ => by simp [getFreeLoop] at h
  | fuel + 1, rgit :: rest, l', newrg, newrg', h, hvma, hmem => by
    obtain ⟨hrgit, hrest⟩ := List.forall_mem_cons.1 hvma
    rw [getFreeLoop] at h
    split at h
    · rename_i hfit
      have hmem' : x ∈ rest := by
        refine (List.mem_cons.1 hmem).resolve_left (fun e => ?_)
        rw [← e, hx] at hfit
        cases hfit
      split at h
      · exact getFreeLoop_stays hx fuel h (List.forall_mem_cons.2 ⟨hrgit, hrest⟩) (List.mem_cons_of_mem _ hmem')
      · split at h
        · rename_i nextrg rest'
          rw [takeOver_eq (hrgit.trans (hrest nextrg List.mem_cons_self).symm)] at h
          exact getFreeLoop_stays hx fuel h hrest hmem'
        · cases hmem'
    · split at h
      · rename_i rest' rg hloop
        cases h
        rcases List.mem_cons.1 hmem with rfl | hmem
        · exact List.mem_cons_self
        · exact List.mem_cons_of_mem _ (getFreeLoop_stays hx fuel hloop hrest hmem)
      · cases h

theorem getFreeLoop_vmaid {vmaid size : Int} : ∀ (fuel : Nat) {l l' : List VmRg} {newrg newrg' : VmRg},
    getFreeLoop vmaid size fuel l newrg = some (l', newrg') → newrg.vmaid = vmaid → newrg'.vmaid = vmaid
  | _, [], _, _, _, h, hnew => by
    simp only [getFreeLoop, Option.some.injEq, Prod.mk.injEq] at h
    exact h.2 ▸ hnew
  | 0, _ :: _, _, _, _, h, _ => by simp [getFreeLoop] at h
  | fuel + 1, rgit :: rest, _, _, _, h, hnew => by
    rw [getFreeLoop] at h
    split at h
    · split at h
      · exact getFreeLoop_vmaid fuel h rfl
      · split at h
        · exact getFreeLoop_vmaid fuel h rfl
        · exact getFreeLoop_vmaid fuel h rfl
    · split at h
      · rename_i hloop
        cases h
        exact getFreeLoop_vmaid fuel hloop hnew
      · cases h

/-! ## The direction of the search -/

/-- Addresses in the direction of the search: upwards on the stack, downwards on the heap. -/
def along (vmaid x : Int) : Int := if vmaid = 0 then x else 18446744073709551615 - x

@[simp] theorem along_along (vmaid x : Int) : along vmaid (along vmaid x) = x := by
  unfold along
  split <;> omega

structure VmRg.Ordered (vmaid : Int) (rg : VmRg) : Prop where
  area : rg.vmaid = vmaid
  words : rg.Words
  order : along vmaid rg.rgStart ≤ along vmaid rg.rgEnd

theorem VmRg.ordered_iff {vmaid : Int} {rg : VmRg} :
    rg.Ordered vmaid ↔ rg.vmaid = vmaid ∧ rg.Words ∧ along vmaid rg.rgStart ≤ along vmaid rg.rgEnd :=
  ⟨fun h => ⟨h.area, h.words, h.order⟩, fun ⟨harea, hwords, horder⟩ => ⟨harea, hwords, horder⟩⟩

section Nodes

variable {vmaid size : Int} {rg : VmRg}

theorem along_word (h : rg.Words) (vmaid : Int) :
    (0 ≤ along vmaid rg.rgStart ∧ along vmaid rg.rgStart < 2 ^ 64) ∧
      0 ≤ along vmaid rg.rgEnd ∧ along vmaid rg.rgEnd < 2 ^ 64 := by
  obtain ⟨⟨h0, h1⟩, h2, h3⟩ := h
  unfold along
  split <;> omega

theorem len_area (h : rg.vmaid = vmaid) : rg.len = along vmaid rg.rgEnd - along vmaid rg.rgStart + 1 := by
  rw [VmRg.len, VmRg.hi, VmRg.lo, h]
  unfold along
  split <;> omega

theorem len_along (h : rg.Ordered vmaid) : rg.len = along vmaid rg.rgEnd - along vmaid rg.rgStart + 1 := len_area h.area

theorem fits_along (h : rg.Words) :
    fits vmaid size rg = true ↔ ulong (along vmaid rg.rgStart + size - 1) ≤ along vmaid rg.rgEnd := by
  obtain ⟨⟨h0, h1⟩, h2, h3⟩ := h
  unfold fits along ulong
  split
  · rw [decide_eq_true_eq]
  · rw [decide_eq_true_eq]
    omega

theorem leaves_along (h : rg.Words) :
    leaves vmaid size rg = true ↔ ulong (along vmaid rg.rgStart + size - 1) < along vmaid rg.rgEnd := by
  obtain ⟨⟨h0, h1⟩, h2, h3⟩ := h
  unfold leaves along ulong
  split
  · rw [decide_eq_true_eq]
  · rw [decide_eq_true_eq]
    omega

theorem shrinkRg_along (h : rg.Words) :
    along vmaid (shrinkRg vmaid size rg).rgStart = ulong (along vmaid rg.rgStart + size) := by
  obtain ⟨⟨h0, h1⟩, h2, h3⟩ := h
  unfold shrinkRg along ulong
  dsimp only
  split <;> omega

end Nodes

/-! ## The sweep -/

/-- **The fit test does not wrap round** at any node the loop looks at: it cuts from a node until less than `size`
bytes are left, or, at the last node, until only `rg_end` is. -/
def Straight (vmaid size : Int) : List VmRg → Prop
  | [] => True
  | rg :: rest =>
    (if rg.len % size ≠ 0 then along vmaid rg.rgEnd - rg.len % size + size < 18446744073709551616
      else rest = [] → along vmaid rg.rgEnd + size ≤ 18446744073709551616) ∧ Straight vmaid size rest

instance (vmaid size : Int) : ∀ l : List VmRg, Decidable (Straight vmaid size l)
  | [] => isTrue trivial
  | _ :: rest =>
    have := instDecidableStraight vmaid size rest
    inferInstanceAs (Decidable (_ ∧ _))

def restRg (vmaid size : Int) (rg : VmRg) : VmRg :=
  { rg with rgStart := along vmaid (along vmaid rg.rgEnd - rg.len % size + 1) }

def lastPiece (vmaid size : Int) (rg : VmRg) : VmRg :=
  { vmaid := vmaid
    rgStart := along vmaid (along vmaid rg.rgEnd - rg.len % size - size + 1)
    rgEnd := along vmaid (along vmaid rg.rgEnd - rg.len % size) }

def sweep (vmaid size : Int) : List VmRg → List VmRg
  | [] => []
  | rg :: rest =>
    if rg.len % size ≠ 0 then restRg vmaid size rg :: sweep vmaid size rest
    else if rest.isEmpty then [{ rg with rgStart := rg.rgEnd }]
    else sweep vmaid size rest

def lastCut (vmaid size : Int) : List VmRg → Option VmRg
  | [] => none
  | rg :: rest => (lastCut vmaid size rest).or (if size ≤ rg.len then some (lastPiece vmaid size rg) else none)

section Sweep

variable {vmaid size : Int} {rg : VmRg} {rest : List VmRg}

theorem lastCut_cons_getD (h : size ≤ rg.len) (newrg : VmRg) :
    (lastCut vmaid size (rg :: rest)).getD newrg = (lastCut vmaid size rest).getD (lastPiece vmaid size rg) := by
  rw [lastCut, if_pos h]
  cases lastCut vmaid size rest <;> rfl

theorem straight_fits (h : rg.Ordered vmaid) (h2 : 2 ≤ size) (hstraight : Straight vmaid size (rg :: rest)) :
    (fits vmaid size rg = true ↔ size ≤ rg.len) ∧ (size ≤ rg.len → (leaves vmaid size rg = true ↔ size < rg.len)) := by
  have hlen := len_along h
  have horder := h.order
  have hword := along_word h.words vmaid
  have hroom : along vmaid rg.rgStart + size - 1 < 18446744073709551616 := by
    have hpos := Int.emod_nonneg rg.len (show size ≠ 0 by omega)
    have hlt := Int.emod_lt_of_pos rg.len (show 0 < size by omega)
    rcases lt_or_ge rg.len size with hless | hge
    · have hmod : rg.len % size = rg.len := Int.emod_eq_of_lt (by omega) hless
      have hnode := hstraight.1
      rw [if_pos (by omega), hmod] at hnode
      omega
    · omega
  have hend : ulong (along vmaid rg.rgStart + size - 1) = along vmaid rg.rgStart + size - 1 := by
    unfold ulong
    omega
  rw [fits_along h.words, leaves_along h.words, hend]
  omega

/-- A node that does not fit is too short, and the test does not wrap round at it. -/
theorem short_of_not_fits (h : rg.Ordered vmaid) (h2 : 2 ≤ size) (hmax : size ≤ 2147483647)
    (hfit : fits vmaid size rg = false) : rg.len < size ∧ along vmaid rg.rgStart + size - 1 < 18446744073709551616 := by
  have hlen := len_along h
  have horder := h.order
  have hword := along_word h.words vmaid
  have hgt : ¬ ulong (along vmaid rg.rgStart + size - 1) ≤ along vmaid rg.rgEnd :=
    (fits_along h.words).not.1 (by rw [hfit]; decide)
  unfold ulong at hgt
  omega

theorem straight_of_not_fits (h2 : 2 ≤ size) (hmax : size ≤ 2147483647) :
    ∀ {l : List VmRg}, (∀ x ∈ l, x.Ordered vmaid) → (∀ x ∈ l, fits vmaid size x = false) → Straight vmaid size l
  | [], _, _ => trivial
  | rg :: rest, h, hfits => by
    obtain ⟨hrg, hrest⟩ := List.forall_mem_cons.1 h
    obtain ⟨hfit, hfits'⟩ := List.forall_mem_cons.1 hfits
    obtain ⟨hshort, hwrap⟩ := short_of_not_fits hrg h2 hmax hfit
    have hlen := len_along hrg
    have horder := hrg.order
    have hmod : rg.len % size = rg.len := Int.emod_eq_of_lt (by omega) hshort
    refine ⟨?_, straight_of_not_fits h2 hmax hrest hfits'⟩
    rw [hmod, if_pos (by omega)]
    omega

theorem shrinkRg_ordered (h : rg.Ordered vmaid) (h2 : 2 ≤ size) (hlen : size < rg.len) :
    (shrinkRg vmaid size rg).Ordered vmaid ∧ (shrinkRg vmaid size rg).len = rg.len - size := by
  have hlen' := len_along h
  have hword := along_word h.words vmaid
  have hstart : along vmaid (shrinkRg vmaid size rg).rgStart = along vmaid rg.rgStart + size := by
    rw [shrinkRg_along h.words]
    unfold ulong
    omega
  have hordered : (shrinkRg vmaid size rg).Ordered vmaid := by
    refine ⟨h.area, shrinkRg_words h.words, ?_⟩
    rw [hstart]
    change _ ≤ along vmaid rg.rgEnd
    omega
  refine ⟨hordered, ?_⟩
  rw [len_along hordered, hstart]
  change along vmaid rg.rgEnd - _ + 1 = _
  omega

theorem cutRg_last (h : rg.Ordered vmaid) (hlen : size ≤ rg.len) (hlast : rg.len < 2 * size) :
    cutRg vmaid size rg = lastPiece vmaid size rg := by
  have hlen' := len_along h
  obtain ⟨⟨h0, h1⟩, h2, h3⟩ := h.words
  have hmod : rg.len % size = rg.len - size := by
    rw [← Int.sub_emod_right, Int.emod_eq_of_lt (by omega) (by omega)]
  rw [cutRg, lastPiece, hmod, VmRg.mk.injEq]
  unfold along at hlen' ⊢
  unfold ulong
  by_cases hv : vmaid = 0
  · simp only [hv, if_true] at hlen' ⊢
    refine ⟨trivial, ?_, ?_⟩ <;> omega
  · simp only [hv, if_false] at hlen' ⊢
    refine ⟨trivial, ?_, ?_⟩ <;> omega

theorem restRg_short (h : rg.Ordered vmaid) (hlen : rg.len < size) : restRg vmaid size rg = rg := by
  have hlen' := len_along h
  have horder := h.order
  have hstart : along vmaid rg.rgEnd - rg.len % size + 1 = along vmaid rg.rgStart := by
    rw [Int.emod_eq_of_lt (by omega) hlen]
    omega
  rw [restRg, hstart, along_along]

theorem getFreeLoop_short (h2 : 2 ≤ size) {newrg : VmRg} (h : rg.Ordered vmaid)
    (hstraight : Straight vmaid size (rg :: rest)) (hlen : rg.len < size)
    (hrest : ∃ fuel, getFreeLoop vmaid size fuel rest newrg =
      some (sweep vmaid size rest, (lastCut vmaid size rest).getD newrg)) :
    ∃ fuel, getFreeLoop vmaid size fuel (rg :: rest) newrg =
      some (sweep vmaid size (rg :: rest), (lastCut vmaid size (rg :: rest)).getD newrg) := by
  have hpos := len_along h
  have horder := h.order
  have hroom : ¬ size ≤ rg.len := Int.not_le.2 hlen
  have hfit : fits vmaid size rg = false := by simpa using (straight_fits h h2 hstraight).1.not.2 hroom
  have hmod : rg.len % size = rg.len := Int.emod_eq_of_lt (by omega) hlen
  obtain ⟨fuel, hloop⟩ := hrest
  refine ⟨fuel + 1, ?_⟩
  rw [getFreeLoop, if_neg (by simp [hfit]), hloop, sweep, hmod, if_pos (by omega), restRg_short h hlen, lastCut,
    if_neg hroom, Option.or_none]

/-- **A node of just the size** is taken whole: the next one is taken over into it, or it stays behind empty. -/
theorem getFreeLoop_exact (h2 : 2 ≤ size) (hvma : ∀ x ∈ rest, x.vmaid = vmaid) (newrg : VmRg) (h : rg.Ordered vmaid)
    (hstraight : Straight vmaid size (rg :: rest)) (heq : rg.len = size)
    (hrest : ∀ newrg, ∃ fuel, getFreeLoop vmaid size fuel rest newrg =
      some (sweep vmaid size rest, (lastCut vmaid size rest).getD newrg)) :
    ∃ fuel, getFreeLoop vmaid size fuel (rg :: rest) newrg =
      some (sweep vmaid size (rg :: rest), (lastCut vmaid size (rg :: rest)).getD newrg) := by
  obtain ⟨hfits, hleaves⟩ := straight_fits h h2 hstraight
  have hroom : size ≤ rg.len := heq.ge
  have hfit := hfits.2 hroom
  have hmod : rg.len % size = 0 := by rw [heq, Int.emod_self]
  have hcut : cutRg vmaid size rg = lastPiece vmaid size rg := cutRg_last h hroom (by omega)
  have hleave : leaves vmaid size rg = false := by simpa using (hleaves hroom).not.2 (by omega)
  rw [lastCut_cons_getD hroom, ← hcut]
  cases hcons : rest with
  | nil =>
    subst hcons
    have hempty : ({ rg with rgStart := rg.rgEnd } : VmRg).Ordered vmaid := ⟨h.area, ⟨h.words.2, h.words.2⟩, le_rfl⟩
    have hnone : fits vmaid size ({ rg with rgStart := rg.rgEnd } : VmRg) = false := by
      have hend := hstraight.1
      rw [hmod] at hend
      have hroom' := hend rfl
      have hword := along_word h.words vmaid
      rw [← Bool.not_eq_true, fits_along hempty.words]
      dsimp only
      unfold ulong
      omega
    refine ⟨2, ?_⟩
    simp [getFreeLoop, hfit, hleave, hnone, sweep, hmod, lastCut]
  | cons nextrg rest' =>
    rw [← hcons]
    have hnext : ({ rg with rgStart := nextrg.rgStart, rgEnd := nextrg.rgEnd } : VmRg) = nextrg :=
      takeOver_eq (h.area.trans (hvma nextrg (by rw [hcons]; exact List.mem_cons_self)).symm)
    have hsweep : sweep vmaid size (rg :: rest) = sweep vmaid size rest := by simp [sweep, hmod, hcons]
    obtain ⟨fuel, hloop⟩ := hrest (cutRg vmaid size rg)
    refine ⟨fuel + 1, ?_⟩
    rw [hsweep, ← hloop, hcons, getFreeLoop, if_pos hfit]
    simp only [hleave, Bool.false_eq_true, if_false, hnext]

/-- **A node with more room** is looked at again, shorter by one piece, with the same rest and the same last piece. -/
theorem getFreeLoop_again (h2 : 2 ≤ size) (newrg : VmRg) (h : rg.Ordered vmaid)
    (hstraight : Straight vmaid size (rg :: rest)) (hless : size < rg.len)
    (hshorter : ∃ fuel, getFreeLoop vmaid size fuel (shrinkRg vmaid size rg :: rest) (cutRg vmaid size rg) =
      some (sweep vmaid size (shrinkRg vmaid size rg :: rest),
        (lastCut vmaid size (shrinkRg vmaid size rg :: rest)).getD (cutRg vmaid size rg))) :
    ∃ fuel, getFreeLoop vmaid size fuel (rg :: rest) newrg =
      some (sweep vmaid size (rg :: rest), (lastCut vmaid size (rg :: rest)).getD newrg) := by
  obtain ⟨hfits, hleaves⟩ := straight_fits h h2 hstraight
  have hroom : size ≤ rg.len := hless.le
  have hslen := (shrinkRg_ordered h h2 hless).2
  have hmod : (shrinkRg vmaid size rg).len % size = rg.len % size := by rw [hslen, Int.sub_emod_right]
  have hend : (shrinkRg vmaid size rg).rgEnd = rg.rgEnd := rfl
  have hleft : restRg vmaid size (shrinkRg vmaid size rg) = restRg vmaid size rg := by
    rw [restRg, restRg, hmod, hend]
    rfl
  have hpiece : lastPiece vmaid size (shrinkRg vmaid size rg) = lastPiece vmaid size rg := by
    rw [lastPiece, lastPiece, hmod, hend]
  obtain ⟨fuel, hloop⟩ := hshorter
  refine ⟨fuel + 1, ?_⟩
  rw [getFreeLoop, if_pos (hfits.2 hroom)]
  simp only [(hleaves hroom).2 hless, if_true, hloop, Option.some.injEq, Prod.mk.injEq]
  refine ⟨?_, ?_⟩
  · rw [sweep, sweep, hmod, hleft]
    rfl
  · have hgo : ∀ x, (lastCut vmaid size (rg :: rest)).getD x =
        (lastCut vmaid size rest).getD (lastPiece vmaid size rg) :=
      lastCut_cons_getD hroom
    rw [hgo]
    by_cases hagain : size ≤ (shrinkRg vmaid size rg).len
    · rw [lastCut_cons_getD hagain, hpiece]
    · rw [lastCut, if_neg hagain, Option.or_none, cutRg_last h hroom (by omega)]

theorem getFreeLoop_node (h2 : 2 ≤ size) (hvma : ∀ x ∈ rest, x.vmaid = vmaid)
    (hrest : ∀ newrg, ∃ fuel, getFreeLoop vmaid size fuel rest newrg =
      some (sweep vmaid size rest, (lastCut vmaid size rest).getD newrg)) :
    ∀ (n : Nat) {rg : VmRg} (newrg : VmRg), rg.len.toNat ≤ n → rg.Ordered vmaid → Straight vmaid size (rg :: rest) →
      ∃ fuel, getFreeLoop vmaid size fuel (rg :: rest) newrg =
        some (sweep vmaid size (rg :: rest), (lastCut vmaid size (rg :: rest)).getD newrg) := by
  intro n
  induction n with
  | zero =>
    intro rg newrg hn h
    have := len_along h
    have := h.order
    omega
  | succ n ih =>
    intro rg newrg hn h hstraight
    rcases lt_trichotomy rg.len size with hlen | heq | hless
    · exact getFreeLoop_short h2 h hstraight hlen (hrest newrg)
    · exact getFreeLoop_exact h2 hvma newrg h hstraight heq hrest
    · obtain ⟨hshrink, hslen⟩ := shrinkRg_ordered h h2 hless
      have hmod : (shrinkRg vmaid size rg).len % size = rg.len % size := by rw [hslen, Int.sub_emod_right]
      have hstraight' : Straight vmaid size (shrinkRg vmaid size rg :: rest) := by
        refine ⟨?_, hstraight.2⟩
        rw [hmod]
        exact hstraight.1
      exact getFreeLoop_again h2 newrg h hstraight hless (ih (cutRg vmaid size rg) (by omega) hshrink hstraight')

/-- **The loop of `get_free_vmrg_area` is one sweep**, and ends. -/
theorem getFreeLoop_sweep (h2 : 2 ≤ size) : ∀ {l : List VmRg} (newrg : VmRg), (∀ rg ∈ l, rg.Ordered vmaid) →
    Straight vmaid size l →
      ∃ fuel, getFreeLoop vmaid size fuel l newrg = some (sweep vmaid size l, (lastCut vmaid size l).getD newrg)
  | [], newrg, _, _ => ⟨0, by simp [getFreeLoop, sweep, lastCut]⟩
  | rg :: rest, newrg, h, hstraight => by
    obtain ⟨hrg, hrest⟩ := List.forall_mem_cons.1 h
    exact getFreeLoop_node h2 (fun x hx => (hrest x hx).area) (fun newrg => getFreeLoop_sweep h2 newrg hrest hstraight.2)
      rg.len.toNat newrg le_rfl hrg hstraight

end Sweep

/-! ## What the sweep leaves -/

section Left

variable {vmaid size b : Int} {rg : VmRg} {l : List VmRg}

theorem holds_along (h : rg.vmaid = vmaid) : rg.Holds b ↔ rg.rgStart ≠ rg.rgEnd ∧
    along vmaid rg.rgStart ≤ along vmaid b ∧ along vmaid b ≤ along vmaid rg.rgEnd := by
  rw [VmRg.Holds, VmRg.hi, VmRg.lo, h]
  unfold along
  split <;> omega

theorem emod_le_self {x n : Int} (hx : 0 ≤ x) (hn : 0 < n) : x % n ≤ x := by
  rcases lt_or_ge x n with hlt | hge
  · exact (Int.emod_eq_of_lt hx hlt).le
  · exact (Int.emod_lt_of_pos x hn).le.trans hge

theorem emod_len (h : rg.Ordered vmaid) (h2 : 2 ≤ size) :
    (0 ≤ rg.len % size ∧ rg.len % size < size) ∧ rg.len % size ≤ rg.len ∧
      (size ≤ rg.len → rg.len % size ≤ rg.len - size) := by
  have hlen := len_along h
  have horder := h.order
  refine ⟨⟨Int.emod_nonneg _ (by omega), Int.emod_lt_of_pos _ (by omega)⟩, emod_le_self (by omega) (by omega),
    fun hle => ?_⟩
  rw [← Int.sub_emod_right]
  exact emod_le_self (by omega) (by omega)

theorem holds_start (h : rg.Ordered vmaid) (hlen : 2 ≤ rg.len) : rg.Holds rg.rgStart ∧ rg.Holds rg.rgEnd := by
  have hlen' := len_along h
  have hne : rg.rgStart ≠ rg.rgEnd := fun e => by
    rw [e] at hlen'
    omega
  rw [holds_along h.area, holds_along h.area]
  exact ⟨⟨hne, le_rfl, h.order⟩, hne, h.order, le_rfl⟩

theorem holds_lastPiece (h2 : 2 ≤ size) : (lastPiece vmaid size rg).Holds b ↔
    along vmaid rg.rgEnd - rg.len % size - size + 1 ≤ along vmaid b ∧
      along vmaid b ≤ along vmaid rg.rgEnd - rg.len % size := by
  have hne : (lastPiece vmaid size rg).rgStart ≠ (lastPiece vmaid size rg).rgEnd := by
    intro e
    have := congrArg (along vmaid) e
    simp only [lastPiece, along_along] at this
    omega
  rw [holds_along (show (lastPiece vmaid size rg).vmaid = vmaid from rfl), and_iff_right hne]
  simp only [lastPiece, along_along]

theorem holds_restRg (h : rg.Ordered vmaid) : (restRg vmaid size rg).Holds b ↔
    rg.len % size ≠ 1 ∧ along vmaid rg.rgEnd - rg.len % size + 1 ≤ along vmaid b ∧
      along vmaid b ≤ along vmaid rg.rgEnd := by
  have hne : (restRg vmaid size rg).rgStart ≠ (restRg vmaid size rg).rgEnd ↔ rg.len % size ≠ 1 := by
    refine not_congr ⟨fun e => ?_, fun e => ?_⟩
    · have := congrArg (along vmaid) e
      simp only [restRg, along_along] at this
      omega
    · simp [restRg, e]
  rw [holds_along (show (restRg vmaid size rg).vmaid = vmaid from h.area), hne]
  simp only [restRg, along_along]

theorem restRg_holds (h : rg.Ordered vmaid) (h2 : 2 ≤ size) (hb : (restRg vmaid size rg).Holds b) :
    rg.Holds b := by
  have hlen := len_along h
  obtain ⟨hpos, hle, -⟩ := emod_len h h2
  rw [holds_restRg h] at hb
  rw [holds_along h.area]
  refine ⟨fun e => ?_, by omega, by omega⟩
  rw [e] at hlen
  omega

theorem lastPiece_holds (h : rg.Ordered vmaid) (h2 : 2 ≤ size) (hroom : size ≤ rg.len)
    (hb : (lastPiece vmaid size rg).Holds b) : rg.Holds b := by
  have hlen := len_along h
  obtain ⟨hpos, -, hle⟩ := emod_len h h2
  have := hle hroom
  rw [holds_lastPiece h2] at hb
  rw [holds_along h.area]
  exact ⟨(holds_start h (by omega)).1.1, by omega, by omega⟩

theorem lastCut_mem {x : VmRg} : ∀ {l : List VmRg}, lastCut vmaid size l = some x →
    ∃ w ∈ l, size ≤ w.len ∧ x = lastPiece vmaid size w
  | rg :: rest, h => by
    rw [lastCut, Option.or_eq_some_iff] at h
    rcases h with h | ⟨-, h⟩
    · obtain ⟨w, hw, hlen, rfl⟩ := lastCut_mem h
      exact ⟨w, List.mem_cons_of_mem _ hw, hlen, rfl⟩
    · split at h
      · rename_i hlen
        cases h
        exact ⟨rg, List.mem_cons_self, hlen, rfl⟩
      · cases h

theorem lastCut_none : ∀ {l : List VmRg}, lastCut vmaid size l = none → ∀ x ∈ l, x.len < size
  | [], _ => fun x hx => by cases hx
  | rg :: rest, h => by
    rw [lastCut, Option.or_eq_none_iff] at h
    refine List.forall_mem_cons.2 ⟨?_, lastCut_none h.1⟩
    by_contra hlen
    rw [if_pos (by omega)] at h
    cases h.2

theorem getFreeVmrgArea_sweep (h2 : 2 ≤ size) (h : ∀ rg ∈ l, rg.Ordered vmaid) (hstraight : Straight vmaid size l)
    (hlow : ∀ rg ∈ l, rg.rgStart ≠ rg.rgEnd → rg.hi < ulong (-1)) :
    ∃ fuel, getFreeVmrgArea fuel vmaid size l = some (sweep vmaid size l, lastCut vmaid size l) := by
  obtain ⟨fuel, hloop⟩ := getFreeLoop_sweep h2 ⟨vmaid, ulong (-1), ulong (-1)⟩ h hstraight
  refine ⟨fuel, ?_⟩
  rw [getFreeVmrgArea, hloop]
  cases hcut : lastCut vmaid size l with
  | none => simp
  | some newrg =>
    obtain ⟨w, hw, hlen, rfl⟩ := lastCut_mem hcut
    have hstart : (lastPiece vmaid size w).Holds (lastPiece vmaid size w).rgStart := by
      rw [holds_lastPiece h2]
      simp only [lastPiece, along_along]
      omega
    have hin := lastPiece_holds (h w hw) h2 hlen hstart
    have hne : (lastPiece vmaid size w).rgStart ≠ ulong (-1) := by
      have := hlow w hw hin.1
      have := hin.2.2
      omega
    simp only [Option.getD_some, hne, if_false]

theorem free_sweep : (∃ x ∈ sweep vmaid size l, x.Holds b) ↔ ∃ x ∈ l, x.len % size ≠ 0 ∧
    (restRg vmaid size x).Holds b := by
  induction l with
  | nil => simp [sweep]
  | cons rg rest ih =>
    rw [sweep]
    by_cases hmod : rg.len % size = 0
    · rw [if_neg (by simpa using hmod)]
      split
      · rename_i hnil
        rw [List.isEmpty_iff.1 hnil]
        simp only [List.mem_singleton, exists_eq_left, hmod, ne_eq, not_true_eq_false, false_and, iff_false]
        exact fun hb => hb.1 rfl
      · simp only [List.mem_cons, exists_eq_or_imp, hmod, ne_eq, not_true_eq_false, false_and, false_or]
        exact ih
    · rw [if_pos hmod]
      simp only [List.mem_cons, exists_eq_or_imp, hmod, ne_eq, not_false_eq_true, true_and, ih]

theorem sweep_short : ∀ {l : List VmRg}, (∀ x ∈ l, x.Ordered vmaid) → (∀ x ∈ l, x.len < size) →
    sweep vmaid size l = l ∧ lastCut vmaid size l = none
  | [], _, _ => ⟨rfl, rfl⟩
  | rg :: rest, h, hshort => by
    obtain ⟨hrg, hrest⟩ := List.forall_mem_cons.1 h
    obtain ⟨hless, hshort'⟩ := List.forall_mem_cons.1 hshort
    obtain ⟨hsweep, hcut⟩ := sweep_short hrest hshort'
    have hlen := len_along hrg
    have horder := hrg.order
    have hmod : rg.len % size ≠ 0 := by
      rw [Int.emod_eq_of_lt (by omega) hless]
      omega
    rw [sweep, if_pos hmod, restRg_short hrg hless, hsweep, lastCut, hcut, if_neg (by omega)]
    exact ⟨rfl, rfl⟩

end Left

end OsSim
