import OsSim.Runs
import OsSim.Search
/-!
# Layout — where the regions of a process lie

Stack regions lie below the stack's break, heap regions from the heap's break up, and each break is inside its area's
end.  This much holds in every run whose requests are of at least two bytes and do not wrap round below address 0 in the
search of the heap's free list.  That no two regions share a byte needs more: that no area's end moves past the other's.
-/
namespace OsSim

/-! ## Regions as pieces of memory -/

namespace VmRg

structure Of (vmaid l h : Int) (rg : VmRg) : Prop where
  vmaid : rg.vmaid = vmaid
  order : 0 ≤ rg.lo ∧ rg.lo ≤ rg.hi ∧ rg.hi ≤ 4194304
  bytes : rg.rgStart ≠ rg.rgEnd → l ≤ rg.lo ∧ rg.hi ≤ h

theorem Of.mono {vmaid l h l' h' : Int} {rg : VmRg} (hof : rg.Of vmaid l h) (hl : l' ≤ l) (hh : h ≤ h') :
    rg.Of vmaid l' h' :=
  ⟨hof.vmaid, hof.order, fun hne => ⟨hl.trans (hof.bytes hne).1, (hof.bytes hne).2.trans hh⟩⟩

theorem Of.not_holds {vmaid l h : Int} {rg : VmRg} (hof : rg.Of vmaid l h) {b : Int} (hb : b < l ∨ h < b) :
    ¬ rg.Holds b := by
  rintro ⟨hne, hlo, hhi⟩
  have := hof.bytes hne
  omega

theorem Of.not_holds_of_le {vmaid l h : Int} {rg : VmRg} (hof : rg.Of vmaid l h) (hle : h ≤ l) (b : Int) :
    ¬ rg.Holds b := by
  rintro ⟨hne, -⟩
  have hbytes := hof.bytes hne
  have horder := hof.order
  unfold lo hi at hbytes horder
  split at hbytes <;> omega

theorem of_empty {vmaid l h x : Int} (h0 : 0 ≤ x) (hx : x ≤ 4194304) : (VmRg.mk vmaid x x).Of vmaid l h :=
  ⟨rfl, by simp [lo, hi, h0, hx], fun hne => absurd rfl hne⟩

end VmRg

/-! ## The search of a free list -/

/-- The fit test of a heap region subtracts the request from `rg_start` in `unsigned long`.  This says that it does not
wrap round at any node the loop looks at: `size` is taken off a region until less than `size` bytes are left, or, at the
last node, until only `rg_end` is. -/
def NoWrap (vmaid size : Int) : List VmRg → Prop
  | [] => True
  | rg :: rest =>
    (vmaid ≠ 0 → if rg.len % size ≠ 0 then size ≤ rg.rgEnd + rg.len % size else rest = [] → size ≤ rg.rgEnd + 1) ∧
      NoWrap vmaid size rest

instance (vmaid size : Int) : ∀ l : List VmRg, Decidable (NoWrap vmaid size l)
  | [] => isTrue trivial
  | _ :: rest =>
    have := instDecidableNoWrap vmaid size rest
    inferInstanceAs (Decidable (_ ∧ _))

section Nodes

variable {vmaid size l h : Int} {rg : VmRg}

theorem VmRg.Of.ordered (hof : rg.Of vmaid l h) : rg.Ordered vmaid := by
  have horder := hof.order
  have hlen := len_area hof.vmaid
  refine ⟨hof.vmaid, ?_, ?_⟩
  · unfold VmRg.lo VmRg.hi at horder
    unfold VmRg.Words
    split at horder <;> omega
  · rw [VmRg.len] at hlen
    omega

theorem straight_of_noWrap (h2 : 2 ≤ size) (hmax : size ≤ 2147483647) :
    ∀ {rgs : List VmRg}, (∀ rg ∈ rgs, rg.Of vmaid l h) →
    NoWrap vmaid size rgs → Straight vmaid size rgs
  | [], _, _ => trivial
  | rg :: rest, hof, hwrap => by
    obtain ⟨hrg, hrest⟩ := List.forall_mem_cons.1 hof
    refine ⟨?_, straight_of_noWrap h2 hmax hrest hwrap.2⟩
    have horder := hrg.order
    by_cases hv : vmaid = 0
    · -- a stack region ends far below the end of the words
      have hpos := Int.emod_nonneg rg.len (show size ≠ 0 by omega)
      have hend : rg.hi = rg.rgEnd := by rw [VmRg.hi, hrg.vmaid, if_pos hv]
      simp only [along, if_pos hv]
      split
      · omega
      · intro hnil
        omega
    · have hnode := hwrap.1 hv
      simp only [along, if_neg hv]
      split
      · rename_i hmod
        rw [if_pos hmod] at hnode
        omega
      · rename_i hmod
        rw [if_neg hmod] at hnode
        intro hnil
        have := hnode hnil
        omega

theorem restRg_of (hof : rg.Of vmaid l h) (h2 : 2 ≤ size) (hmod : rg.len % size ≠ 0) :
    (restRg vmaid size rg).Of vmaid l h := by
  have horder := hof.order
  have hbytes := hof.bytes
  have hvma := hof.vmaid
  obtain ⟨⟨hpos, -⟩, hle, -⟩ := emod_len hof.ordered h2
  generalize hr : rg.len % size = r at hmod hpos hle
  by_cases hv : vmaid = 0
  · subst hv
    simp only [VmRg.len, VmRg.lo, VmRg.hi, hvma, if_true] at horder hbytes hle
    refine ⟨hvma, ?_, fun hne => ?_⟩
    · simp only [restRg, along, hr, VmRg.lo, VmRg.hi, hvma, if_true]
      omega
    · simp only [restRg, along, hr, VmRg.lo, VmRg.hi, hvma, if_true] at hne ⊢
      omega
  · simp only [VmRg.len, VmRg.lo, VmRg.hi, hvma, hv, if_false] at horder hbytes hle
    refine ⟨hvma, ?_, fun hne => ?_⟩
    · simp only [restRg, along, hr, VmRg.lo, VmRg.hi, hvma, hv, if_false]
      omega
    · simp only [restRg, along, hr, VmRg.lo, VmRg.hi, hvma, hv, if_false] at hne ⊢
      omega

theorem lastPiece_of (hof : rg.Of vmaid l h) (h2 : 2 ≤ size) (hroom : size ≤ rg.len) :
    (lastPiece vmaid size rg).Of vmaid l h ∧ (lastPiece vmaid size rg).rgStart ≠ (lastPiece vmaid size rg).rgEnd := by
  have horder := hof.order
  have hbytes := hof.bytes
  have hvma := hof.vmaid
  obtain ⟨⟨hpos, -⟩, -, hle⟩ := emod_len hof.ordered h2
  have hle' := hle hroom
  generalize hr : rg.len % size = r at hpos hle'
  by_cases hv : vmaid = 0
  · subst hv
    simp only [VmRg.len, VmRg.lo, VmRg.hi, hvma, if_true] at horder hbytes hle'
    refine ⟨⟨rfl, ?_, fun _ => ?_⟩, ?_⟩ <;> simp only [lastPiece, along, hr, VmRg.lo, VmRg.hi, if_true] <;> omega
  · simp only [VmRg.len, VmRg.lo, VmRg.hi, hvma, hv, if_false] at horder hbytes hle'
    refine ⟨⟨rfl, ?_, fun _ => ?_⟩, ?_⟩ <;> simp only [lastPiece, along, hr, VmRg.lo, VmRg.hi, hv, if_false] <;> omega

theorem one_rest_last (hof : rg.Of vmaid l h) (h2 : 2 ≤ size) (hroom : size ≤ rg.len) (b : Int) :
    Cover.one VmRg.Holds (restRg vmaid size rg) b + Cover.one VmRg.Holds (lastPiece vmaid size rg) b ≤
      Cover.one VmRg.Holds rg b := by
  by_cases hrest : (restRg vmaid size rg).Holds b
  · have hpiece : ¬ (lastPiece vmaid size rg).Holds b := by
      rw [holds_restRg hof.ordered] at hrest
      rw [holds_lastPiece h2]
      omega
    rw [Cover.one_of_not _ hpiece, Cover.one_of _ (restRg_holds hof.ordered h2 hrest)]
    exact Cover.one_le _ _ _
  · rw [Cover.one_of_not _ hrest, Nat.zero_add]
    by_cases hpiece : (lastPiece vmaid size rg).Holds b
    · rw [Cover.one_of _ (lastPiece_holds hof.ordered h2 hroom hpiece)]
      exact Cover.one_le _ _ _
    · rw [Cover.one_of_not _ hpiece]
      exact Nat.zero_le _

theorem one_rest (hof : rg.Of vmaid l h) (h2 : 2 ≤ size) (b : Int) :
    Cover.one VmRg.Holds (restRg vmaid size rg) b ≤ Cover.one VmRg.Holds rg b := by
  by_cases hrest : (restRg vmaid size rg).Holds b
  · rw [Cover.one_of _ (restRg_holds hof.ordered h2 hrest)]
    exact Cover.one_le _ _ _
  · rw [Cover.one_of_not _ hrest]
    exact Nat.zero_le _

end Nodes

section Sweep

variable {vmaid size l h : Int}

theorem sweep_of (h2 : 2 ≤ size) : ∀ {rgs : List VmRg}, (∀ rg ∈ rgs, rg.Of vmaid l h) →
    ∀ rg ∈ sweep vmaid size rgs, rg.Of vmaid l h
  | [], _ => fun rg hrg => by cases hrg
  | rg :: rest, hof => by
    obtain ⟨hrg, hrest⟩ := List.forall_mem_cons.1 hof
    have ih := sweep_of h2 hrest
    rw [sweep]
    split
    · rename_i hmod
      exact List.forall_mem_cons.2 ⟨restRg_of hrg h2 hmod, ih⟩
    · split
      · have horder := hrg.order
        have hempty : ({ rg with rgStart := rg.rgEnd } : VmRg).Of vmaid l h := by
          have hx : ({ rg with rgStart := rg.rgEnd } : VmRg) = ⟨vmaid, rg.rgEnd, rg.rgEnd⟩ := by rw [← hrg.vmaid]
          rw [hx]
          unfold VmRg.lo VmRg.hi at horder
          split at horder
          · exact VmRg.of_empty (by omega) (by omega)
          · exact VmRg.of_empty (by omega) (by omega)
        simpa using hempty
      · exact ih

theorem held_sweep_cons (rg : VmRg) (rest : List VmRg) (b : Int) : held (sweep vmaid size (rg :: rest)) b ≤
    Cover.one VmRg.Holds (restRg vmaid size rg) b + held (sweep vmaid size rest) b := by
  rw [sweep]
  split
  · exact le_rfl
  · split
    · have hnone : Cover.one VmRg.Holds ({ rg with rgStart := rg.rgEnd } : VmRg) b = 0 :=
        Cover.one_of_not _ (fun hh => hh.1 rfl)
      simp only [held, Cover.count_cons, Cover.count_nil, hnone]
      omega
    · omega

theorem held_sweep (h2 : 2 ≤ size) (b : Int) : ∀ {rgs : List VmRg}, (∀ rg ∈ rgs, rg.Of vmaid l h) →
    held (sweep vmaid size rgs) b ≤ held rgs b
  | [], _ => le_rfl
  | rg :: rest, hof => by
    obtain ⟨hrg, hrest⟩ := List.forall_mem_cons.1 hof
    calc held (sweep vmaid size (rg :: rest)) b
        ≤ Cover.one VmRg.Holds (restRg vmaid size rg) b + held (sweep vmaid size rest) b := held_sweep_cons rg rest b
      _ ≤ Cover.one VmRg.Holds rg b + held rest b := Nat.add_le_add (one_rest hrg h2 b) (held_sweep h2 b hrest)

theorem held_lastCut (h2 : 2 ≤ size) (b : Int) {x : VmRg} : ∀ {rgs : List VmRg}, (∀ rg ∈ rgs, rg.Of vmaid l h) →
    lastCut vmaid size rgs = some x → Cover.one VmRg.Holds x b + held (sweep vmaid size rgs) b ≤ held rgs b
  | rg :: rest, hof, hcut => by
    obtain ⟨hrg, hrest⟩ := List.forall_mem_cons.1 hof
    have hnode := @held_sweep_cons vmaid size rg rest b
    rw [lastCut, Option.or_eq_some_iff] at hcut
    rw [show held (rg :: rest) b = Cover.one VmRg.Holds rg b + held rest b from rfl]
    rcases hcut with hcut | ⟨-, hcut⟩
    · have ih := held_lastCut h2 b hrest hcut
      have hone := one_rest hrg h2 b
      omega
    · split at hcut
      · rename_i hroom
        cases hcut
        have hlast := one_rest_last hrg h2 hroom b
        have hsweep := held_sweep h2 b hrest
        omega
      · cases hcut

end Sweep

/-- **`get_free_vmrg_area`** leaves the list as it was, or cuts out of it the region it finds.  (It may cut more
than once and drop all but the last.) -/
theorem getFreeVmrgArea_cuts {vmaid size l h : Int} {fuel : Nat} {rgs rgs' : List VmRg} {o : Option VmRg}
    (h2 : 2 ≤ size) (hmax : size ≤ 2147483647) (hget : getFreeVmrgArea fuel vmaid size rgs = some (rgs', o))
    (hof : ∀ rg ∈ rgs, rg.Of vmaid l h) (hwrap : NoWrap vmaid size rgs) :
    (∀ rg ∈ rgs', rg.Of vmaid l h) ∧ (o = none ∧ rgs' = rgs ∨ ∃ rg, o = some rg ∧ rg.Of vmaid l h ∧
      rg.rgStart ≠ rg.rgEnd ∧ ∀ b, Cover.one VmRg.Holds rg b + held rgs' b ≤ held rgs b) := by
  have hordered : ∀ rg ∈ rgs, rg.Ordered vmaid := fun rg hrg => (hof rg hrg).ordered
  obtain ⟨fuel', hsweep⟩ := getFreeVmrgArea_sweep h2 hordered (straight_of_noWrap h2 hmax hof hwrap) (fun rg hrg _ => by
    have horder := (hof rg hrg).order
    unfold ulong
    omega)
  obtain ⟨rfl, rfl⟩ := Prod.mk.inj (getFreeVmrgArea_unique hget hsweep)
  refine ⟨sweep_of h2 hof, ?_⟩
  cases hcut : lastCut vmaid size rgs with
  | none => exact Or.inl ⟨rfl, (sweep_short hordered (lastCut_none hcut)).1⟩
  | some x =>
    obtain ⟨w, hw, hroom, rfl⟩ := lastCut_mem hcut
    obtain ⟨hpiece, hne⟩ := lastPiece_of (hof w hw) h2 hroom
    exact Or.inr ⟨_, rfl, hpiece, hne, fun b => held_lastCut h2 b hof hcut⟩

/-! ## The breaks and the ends of the areas -/

/-- The heap's end as `__alloc` compares it: it goes below 0 when the heap reaches address 0. -/
def heapEnd (mm : Mm) : Int := int32 mm.vma1.vmEnd

structure Bounds (v : Int) (mm : Mm) : Prop where
  vmemsz : mm.vmemsz = v
  size : 0 < v ∧ v ≤ 4194304 ∧ v % 256 = 0
  start1 : mm.vma1.vmStart = v - 1
  stack : 0 ≤ mm.vma0.sbrk ∧ mm.vma0.sbrk ≤ mm.vma0.vmEnd ∧ mm.vma0.vmEnd ≤ v
  heap : 0 ≤ mm.vma1.sbrk ∧ mm.vma1.sbrk ≤ v - 1
  limit : mm.vma1.vmEnd = ulong (heapEnd mm) ∧ -256 ≤ heapEnd mm ∧ heapEnd mm ≤ mm.vma1.sbrk
  table : ∀ i < 30, (mm.symrgtbl i).Of 0 0 (mm.vma0.sbrk - 1) ∨ (mm.symrgtbl i).Of 1 mm.vma1.sbrk (v - 1)
  free0 : ∀ rg ∈ mm.vma0.vmFreergList, rg.Of 0 0 (mm.vma0.sbrk - 1)
  free1 : ∀ rg ∈ mm.vma1.vmFreergList, rg.Of 1 mm.vma1.sbrk (v - 1)

def regions (mm : Mm) : List VmRg :=
  (List.range pagingMaxSymtblSz).map mm.symrgtbl ++ mm.vma0.vmFreergList ++ mm.vma1.vmFreergList

theorem held_setSymrg (mm : Mm) {i : Nat} (hi : i < 30) (rg : VmRg) (b : Int) :
    held (regions (mm.setSymrg i rg)) b + Cover.one VmRg.Holds (mm.symrgtbl i) b =
      held (regions mm) b + Cover.one VmRg.Holds rg b := by
  have := Cover.count_update VmRg.Holds mm.symrgtbl i rg b (List.range pagingMaxSymtblSz)
    List.nodup_range (List.mem_range.2 hi)
  simp only [regions, held, Cover.count_append, Mm.setSymrg]
  omega

theorem pagingPageAlignsz_eq {x : Int} (h0 : 0 ≤ x) (hx : x ≤ 4294967296) :
    pagingPageAlignsz x = (x + 255) / 256 * 256 := by
  unfold pagingPageAlignsz ulong
  rw [Int.emod_eq_of_lt (by omega) (by omega)]

namespace Bounds

variable {v size : Int} {mm : Mm}

theorem stackRoom (h : Bounds v mm) (h2 : 2 ≤ size) (hmax : size ≤ 2147483647)
    (hvirt : outOfVirtual mm 0 size = false) : mm.vma0.sbrk + size ≤ v := by
  have hsize := h.size
  have hstack := h.stack
  have hvirt' := of_decide_eq_false hvirt
  simp only [Mm.vma, if_true, h.vmemsz, uint32, int32] at hvirt'
  omega

theorem heapRoom (h : Bounds v mm) {vmaid : Int} (hv : vmaid ≠ 0) (h2 : 2 ≤ size) (hmax : size ≤ 2147483647)
    (hvirt : outOfVirtual mm vmaid size = false) : size ≤ mm.vma1.sbrk := by
  have hsize := h.size
  have hheap := h.heap
  rw [outOfVirtual, if_neg hv, decide_eq_false_iff_not] at hvirt
  simp only [Mm.vma, hv, if_false, int32] at hvirt
  omega

theorem cut (h : Bounds v mm) {vmaid rgid : Int} {fuel : Nat} {l : List VmRg} {o : Option VmRg}
    (hv : vmaid = 0 ∨ vmaid = 1)
    (h2 : 2 ≤ size) (hmax : size ≤ 2147483647) (hwrap : NoWrap vmaid size (mm.vma vmaid).vmFreergList)
    (hget : getFreeVmrgArea fuel vmaid size (mm.vma vmaid).vmFreergList = some (l, o)) :
    o = none ∧ mm.setFreerg vmaid l = mm ∨ ∃ rg, o = some rg ∧ rg.rgStart ≠ rg.rgEnd ∧
      (rgid < 30 → Bounds v ((mm.setFreerg vmaid l).setSymrg rgid.toNat rg)) ∧
      (∀ b, Cover.one VmRg.Holds rg b + held (regions (mm.setFreerg vmaid l)) b ≤ held (regions mm) b) ∧
      (rg.Of 0 0 (mm.vma0.sbrk - 1) ∨ rg.Of 1 mm.vma1.sbrk (v - 1)) := by
  have htable : ∀ {rg : VmRg} (i : Nat), rg.Of 0 0 (mm.vma0.sbrk - 1) ∨ rg.Of 1 mm.vma1.sbrk (v - 1) → ∀ j < 30,
      (Function.update mm.symrgtbl i rg j).Of 0 0 (mm.vma0.sbrk - 1) ∨
        (Function.update mm.symrgtbl i rg j).Of 1 mm.vma1.sbrk (v - 1) := by
    intro rg i hrg j hj
    by_cases hij : j = i
    · subst hij
      rwa [Function.update_self]
    · rw [Function.update_of_ne hij]
      exact h.table j hj
  rcases hv with rfl | rfl
  · obtain ⟨hof, ⟨rfl, rfl⟩ | ⟨rg, rfl, hrg, hne, hcount⟩⟩ := getFreeVmrgArea_cuts h2 hmax hget h.free0 hwrap
    · exact Or.inl ⟨rfl, Mm.setFreerg_self mm 0⟩
    · refine Or.inr ⟨rg, rfl, hne, fun _ => ?_, fun b => ?_, Or.inl hrg⟩
      · exact ⟨h.vmemsz, h.size, h.start1, h.stack, h.heap, h.limit, htable _ (Or.inl hrg), hof, h.free1⟩
      · have := hcount b
        simp only [regions, held, Cover.count_append, Mm.setFreerg, Mm.setVma, Mm.vma, if_true] at this ⊢
        omega
  · obtain ⟨hof, ⟨rfl, rfl⟩ | ⟨rg, rfl, hrg, hne, hcount⟩⟩ := getFreeVmrgArea_cuts h2 hmax hget h.free1 hwrap
    · exact Or.inl ⟨rfl, Mm.setFreerg_self mm 1⟩
    · refine Or.inr ⟨rg, rfl, hne, fun _ => ?_, fun b => ?_, Or.inr hrg⟩
      · exact ⟨h.vmemsz, h.size, h.start1, h.stack, h.heap, h.limit, htable _ (Or.inr hrg), h.free0, hof⟩
      · have := hcount b
        simp only [regions, held, Cover.count_append, Mm.setFreerg, Mm.setVma, Mm.vma,
          if_neg (show (1 : Int) ≠ 0 by decide)] at this ⊢
        omega

theorem uncut (h : Bounds v mm) {vmaid : Int} {fuel : Nat} {l : List VmRg} (hv : vmaid = 0 ∨ vmaid = 1)
    (h2 : 2 ≤ size) (hmax : size ≤ 2147483647) (hwrap : NoWrap vmaid size (mm.vma vmaid).vmFreergList)
    (hget : getFreeVmrgArea fuel vmaid size (mm.vma vmaid).vmFreergList = some (l, none)) :
    mm.setFreerg vmaid l = mm ∧ ∀ rg ∈ (mm.vma vmaid).vmFreergList, fits vmaid size rg = false := by
  rcases @cut v size mm h vmaid 0 fuel l none hv h2 hmax hwrap hget with ⟨-, hsame⟩ | ⟨rg, hrg, -⟩
  · refine ⟨hsame, (getFreeVmrgArea_same hget).1 ?_⟩
    have := congrArg (fun mm => (Mm.vma mm vmaid).vmFreergList) hsame
    simpa [Mm.setFreerg] using this
  · cases hrg

def brkRg (mm : Mm) (vmaid size : Int) : VmRg :=
  if vmaid = 0 then ⟨0, mm.vma0.sbrk, mm.vma0.sbrk + size - 1⟩
  else if mm.vma1.sbrk = mm.vmemsz - 1 then ⟨vmaid, mm.vma1.sbrk, mm.vma1.sbrk + 1 - size⟩
  else ⟨vmaid, mm.vma1.sbrk - 1, mm.vma1.sbrk - size⟩

def newBrk (mm : Mm) (vmaid size : Int) : Int :=
  if vmaid = 0 then mm.vma0.sbrk + size
  else if mm.vma1.sbrk = mm.vmemsz - 1 then mm.vma1.sbrk + 1 - size
  else mm.vma1.sbrk - size

def Room (mm : Mm) (vmaid size : Int) : Prop :=
  if vmaid = 0 then mm.vma0.sbrk + size ≤ mm.vma0.vmEnd else size ≤ mm.vma1.sbrk ∧ heapEnd mm ≤ mm.vma1.sbrk - size

theorem commitRegion_eq (h : Bounds v mm) {vmaid : Int} (h2 : 2 ≤ size) (hroom : Room mm vmaid size) (i : Nat) :
    commitRegion mm vmaid i size = (mm.setSymrg i (brkRg mm vmaid size)).setSbrk vmaid (newBrk mm vmaid size) := by
  have hsize := h.size
  have hstack := h.stack
  have hheap := h.heap
  by_cases hv : vmaid = 0
  · subst hv
    simp only [Room, if_true] at hroom
    have h1 : int32 mm.vma0.sbrk = mm.vma0.sbrk := by unfold int32; omega
    have h3 : int32 (mm.vma0.sbrk + size - 1) = mm.vma0.sbrk + size - 1 := by unfold int32; omega
    have h4 : int32 (mm.vma0.sbrk + size) = mm.vma0.sbrk + size := by unfold int32; omega
    have h5 : ulong mm.vma0.sbrk = mm.vma0.sbrk := by unfold ulong; omega
    have h6 : ulong (mm.vma0.sbrk + size - 1) = mm.vma0.sbrk + size - 1 := by unfold ulong; omega
    have h7 : ulong (mm.vma0.sbrk + size) = mm.vma0.sbrk + size := by unfold ulong; omega
    simp only [commitRegion, brkRg, newBrk, Mm.vma, if_true, h1, h3, h4, h5, h6, h7]
  · simp only [Room, hv, if_false] at hroom
    have h1 : int32 mm.vma1.sbrk = mm.vma1.sbrk := by unfold int32; omega
    have hfirst : uint32 mm.vma1.sbrk = uint32 (mm.vmemsz - 1) ↔ mm.vma1.sbrk = mm.vmemsz - 1 := by
      have := h.vmemsz
      unfold uint32
      omega
    by_cases hf : mm.vma1.sbrk = mm.vmemsz - 1
    · have h3 : int32 (mm.vma1.sbrk + 1 - size) = mm.vma1.sbrk + 1 - size := by unfold int32; omega
      have h5 : ulong mm.vma1.sbrk = mm.vma1.sbrk := by unfold ulong; omega
      have h6 : ulong (mm.vma1.sbrk + 1 - size) = mm.vma1.sbrk + 1 - size := by unfold ulong; omega
      simp only [commitRegion, brkRg, newBrk, Mm.vma, hv, if_false, h1, if_pos (hfirst.2 hf), if_pos hf, h3, h5, h6]
    · have h3 : int32 (mm.vma1.sbrk - 1) = mm.vma1.sbrk - 1 := by unfold int32; omega
      have h4 : int32 (mm.vma1.sbrk - size) = mm.vma1.sbrk - size := by unfold int32; omega
      have h5 : ulong (mm.vma1.sbrk - 1) = mm.vma1.sbrk - 1 := by unfold ulong; omega
      have h6 : ulong (mm.vma1.sbrk - size) = mm.vma1.sbrk - size := by unfold ulong; omega
      simp only [commitRegion, brkRg, newBrk, Mm.vma, hv, if_false, h1, if_neg (hfirst.not.2 hf), if_neg hf, h3, h4,
        h5, h6]

theorem brkRg_of (h : Bounds v mm) {vmaid : Int} (hv : vmaid = 0 ∨ vmaid = 1) (h2 : 2 ≤ size)
    (hroom : Room mm vmaid size) : (brkRg mm vmaid size).rgStart ≠ (brkRg mm vmaid size).rgEnd ∧
      if vmaid = 0 then (brkRg mm 0 size).Of 0 mm.vma0.sbrk (newBrk mm 0 size - 1)
      else (brkRg mm 1 size).Of 1 (newBrk mm 1 size) (v - 1) ∧ newBrk mm 1 size ≤ mm.vma1.sbrk ∧
        mm.vma1.sbrk - size ≤ newBrk mm 1 size ∧
        ∀ b, (brkRg mm 1 size).Holds b → b < mm.vma1.sbrk ∨ mm.vma1.sbrk = v - 1 := by
  have hsize := h.size
  have hstack := h.stack
  have hheap := h.heap
  have hmemsz := h.vmemsz
  rcases hv with rfl | rfl
  · simp only [Room, if_true] at hroom
    simp only [brkRg, newBrk, if_true]
    refine ⟨by omega, rfl, ?_, fun _ => ?_⟩ <;> simp only [VmRg.lo, VmRg.hi, if_true] <;> omega
  · simp only [Room, if_neg (show (1 : Int) ≠ 0 by decide)] at hroom
    simp only [brkRg, newBrk, if_neg (show (1 : Int) ≠ 0 by decide)]
    by_cases hf : mm.vma1.sbrk = mm.vmemsz - 1
    · simp only [if_pos hf]
      refine ⟨by omega, ⟨rfl, ?_, fun _ => ?_⟩, by omega, by omega, fun b _ => Or.inr (by omega)⟩ <;>
        simp only [VmRg.lo, VmRg.hi, if_neg (show (1 : Int) ≠ 0 by decide)] <;> omega
    · simp only [if_neg hf]
      refine ⟨by omega, ⟨rfl, ?_, fun _ => ?_⟩, by omega, by omega, fun b hb => Or.inl ?_⟩
      · simp only [VmRg.lo, VmRg.hi, if_neg (show (1 : Int) ≠ 0 by decide)]
        omega
      · simp only [VmRg.lo, VmRg.hi, if_neg (show (1 : Int) ≠ 0 by decide)]
        omega
      · have := hb.2
        simp only [VmRg.lo, VmRg.hi, if_neg (show (1 : Int) ≠ 0 by decide)] at this
        omega

theorem commit (h : Bounds v mm) {vmaid : Int} (hv : vmaid = 0 ∨ vmaid = 1) (h2 : 2 ≤ size)
    (hroom : Room mm vmaid size) (i : Nat) : Bounds v (commitRegion mm vmaid i size) := by
  rw [commitRegion_eq h h2 hroom]
  have hbrk := (brkRg_of h hv h2 hroom).2
  have hstack := h.stack
  have hheap := h.heap
  have hlimit := h.limit
  rcases hv with rfl | rfl
  · simp only [if_true] at hbrk
    simp only [Room, if_true] at hroom
    have hnew : newBrk mm 0 size = mm.vma0.sbrk + size := by simp [newBrk]
    have hle : mm.vma0.sbrk - 1 ≤ newBrk mm 0 size - 1 := by omega
    refine ⟨h.vmemsz, h.size, h.start1, ?_, h.heap, h.limit, fun j hj => ?_, fun rg hrg => ?_, h.free1⟩
    · change 0 ≤ newBrk mm 0 size ∧ newBrk mm 0 size ≤ mm.vma0.vmEnd ∧ mm.vma0.vmEnd ≤ v
      omega
    · change (Function.update mm.symrgtbl i (brkRg mm 0 size) j).Of 0 0 (newBrk mm 0 size - 1) ∨
        (Function.update mm.symrgtbl i (brkRg mm 0 size) j).Of 1 mm.vma1.sbrk (v - 1)
      by_cases hij : j = i
      · subst hij
        rw [Function.update_self]
        exact Or.inl (hbrk.mono hstack.1 le_rfl)
      · rw [Function.update_of_ne hij]
        exact (h.table j hj).imp_left (fun hof => hof.mono le_rfl hle)
    · exact (h.free0 rg hrg).mono le_rfl hle
  · simp only [if_neg (show (1 : Int) ≠ 0 by decide)] at hbrk
    simp only [Room, if_neg (show (1 : Int) ≠ 0 by decide)] at hroom
    obtain ⟨hof1, hle, hge, -⟩ := hbrk
    refine ⟨h.vmemsz, h.size, h.start1, h.stack, ?_, ?_, fun j hj => ?_, h.free0, fun rg hrg => ?_⟩
    · change 0 ≤ newBrk mm 1 size ∧ newBrk mm 1 size ≤ v - 1
      omega
    · change mm.vma1.vmEnd = ulong (heapEnd mm) ∧ -256 ≤ heapEnd mm ∧ heapEnd mm ≤ newBrk mm 1 size
      omega
    · change (Function.update mm.symrgtbl i (brkRg mm 1 size) j).Of 0 0 (mm.vma0.sbrk - 1) ∨
        (Function.update mm.symrgtbl i (brkRg mm 1 size) j).Of 1 (newBrk mm 1 size) (v - 1)
      by_cases hij : j = i
      · subst hij
        rw [Function.update_self]
        exact Or.inr hof1
      · rw [Function.update_of_ne hij]
        exact (h.table j hj).imp_right (fun hof => hof.mono hle le_rfl)
    · exact (h.free1 rg hrg).mono hle le_rfl

theorem grow (h : Bounds v mm) {vmaid : Int} (hv : vmaid = 0 ∨ vmaid = 1) (h2 : 2 ≤ size) (hmax : size ≤ 2147483647)
    (hvirt : outOfVirtual mm vmaid size = false) : Bounds v (grownMm mm vmaid size) ∧
      Room (grownMm mm vmaid size) vmaid size ∧
      if vmaid = 0 then (grownMm mm 0 size).vma0.vmEnd = (mm.vma0.sbrk + size + 255) / 256 * 256
      else heapEnd (grownMm mm 1 size) = (mm.vma1.sbrk - size + 255) / 256 * 256 - 256 := by
  have hsize := h.size
  have hstack := h.stack
  have hheap := h.heap
  rcases hv with rfl | rfl
  · have hroom := h.stackRoom h2 hmax hvirt
    have hend : newVmEnd mm 0 size = (mm.vma0.sbrk + size + 255) / 256 * 256 := by
      have hu : ulong (mm.vma0.sbrk + size) = mm.vma0.sbrk + size := by unfold ulong; omega
      rw [newVmEnd, if_pos rfl, hu, pagingPageAlignsz_eq (by omega) (by omega)]
    have hg : (grownMm mm 0 size).vma0.vmEnd = newVmEnd mm 0 size := rfl
    refine ⟨⟨h.vmemsz, h.size, h.start1, ?_, h.heap, h.limit, h.table, h.free0, h.free1⟩, ?_, ?_⟩
    · change 0 ≤ mm.vma0.sbrk ∧ mm.vma0.sbrk ≤ newVmEnd mm 0 size ∧ newVmEnd mm 0 size ≤ v
      omega
    · change mm.vma0.sbrk + size ≤ newVmEnd mm 0 size
      omega
    · rw [if_pos rfl, hg, hend]
  · have hroom := h.heapRoom (by decide) h2 hmax hvirt
    have hend : newVmEnd mm 1 size = ulong ((mm.vma1.sbrk - size + 255) / 256 * 256 - 256) := by
      have hu : ulong (mm.vma1.sbrk - size) = mm.vma1.sbrk - size := by unfold ulong; omega
      rw [newVmEnd, if_neg (by decide), hu, pagingPageAlignsz_eq (by omega) (by omega)]
    have hg : heapEnd (grownMm mm 1 size) = int32 (newVmEnd mm 1 size) := rfl
    have hlim : int32 (newVmEnd mm 1 size) = (mm.vma1.sbrk - size + 255) / 256 * 256 - 256 := by
      rw [hend]
      unfold ulong int32
      omega
    refine ⟨⟨h.vmemsz, h.size, h.start1, h.stack, h.heap, ?_, h.table, h.free0, h.free1⟩, ?_, ?_⟩
    · rw [hg, hlim]
      change newVmEnd mm 1 size = _ ∧ _ ∧ _ ≤ mm.vma1.sbrk
      exact ⟨hend, by omega, by omega⟩
    · change size ≤ mm.vma1.sbrk ∧ heapEnd (grownMm mm 1 size) ≤ mm.vma1.sbrk - size
      rw [hg, hlim]
      omega
    · rw [if_neg (by decide), hg, hlim]

theorem freed (h : Bounds v mm) {i : Nat} (hi : i < 30) (hne : (mm.symrgtbl i).rgStart ≠ (mm.symrgtbl i).rgEnd) :
    Bounds v (freedMm mm i) ∧ ∀ b, held (regions (freedMm mm i)) b = held (regions mm) b := by
  have hempty : ∀ {vmaid l h' : Int}, (mm.symrgtbl i).vmaid = vmaid →
      ({ mm.symrgtbl i with rgStart := 0, rgEnd := 0 } : VmRg).Of vmaid l h' := by
    intro vmaid l h' hvma
    rw [← hvma]
    exact VmRg.of_empty le_rfl (by decide)
  have hnone : ∀ b, Cover.one VmRg.Holds ({ mm.symrgtbl i with rgStart := 0, rgEnd := 0 } : VmRg) b = 0 :=
    fun b => Cover.one_of_not _ (fun hh => hh.1 rfl)
  have htable : ∀ j < 30, (Function.update mm.symrgtbl i { mm.symrgtbl i with rgStart := 0, rgEnd := 0 } j).Of 0 0
        (mm.vma0.sbrk - 1) ∨ (Function.update mm.symrgtbl i { mm.symrgtbl i with rgStart := 0, rgEnd := 0 } j).Of 1
        mm.vma1.sbrk (v - 1) := by
    intro j hj
    by_cases hij : j = i
    · subst hij
      rw [Function.update_self]
      exact (h.table j hi).imp (fun hof => hempty hof.vmaid) (fun hof => hempty hof.vmaid)
    · rw [Function.update_of_ne hij]
      exact h.table j hj
  have hmoved := fun b => held_setSymrg mm hi { mm.symrgtbl i with rgStart := 0, rgEnd := 0 } b
  simp only [hnone] at hmoved
  rcases h.table i hi with hof | hof
  · have horder := hof.order
    have hvma := hof.vmaid
    simp only [VmRg.lo, VmRg.hi, hvma, if_true] at horder
    have hfreed : freedMm mm i = (mm.setSymrg i { mm.symrgtbl i with rgStart := 0, rgEnd := 0 }).setFreerg 0
        (mm.symrgtbl i :: mm.vma0.vmFreergList) := by
      simp only [freedMm, hvma]
      rw [Mm.enlisted, if_neg (by omega)]
      rfl
    rw [hfreed]
    refine ⟨⟨h.vmemsz, h.size, h.start1, h.stack, h.heap, h.limit, htable, ?_, h.free1⟩, fun b => ?_⟩
    · exact List.forall_mem_cons.2 ⟨hof, h.free0⟩
    · have := hmoved b
      simp only [regions, held, Cover.count_append, Cover.count_cons, Mm.setFreerg, Mm.setVma, Mm.vma, Mm.setSymrg,
        if_true] at this ⊢
      omega
  · have horder := hof.order
    have hvma := hof.vmaid
    simp only [VmRg.lo, VmRg.hi, hvma, if_neg (show (1 : Int) ≠ 0 by decide)] at horder
    have hfreed : freedMm mm i = (mm.setSymrg i { mm.symrgtbl i with rgStart := 0, rgEnd := 0 }).setFreerg 1
        (mm.symrgtbl i :: mm.vma1.vmFreergList) := by
      simp only [freedMm, hvma]
      rw [Mm.enlisted, if_neg (by omega)]
      rfl
    rw [hfreed]
    refine ⟨⟨h.vmemsz, h.size, h.start1, h.stack, h.heap, h.limit, htable, h.free0, ?_⟩, fun b => ?_⟩
    · exact List.forall_mem_cons.2 ⟨hof, h.free1⟩
    · have := hmoved b
      simp only [regions, held, Cover.count_append, Cover.count_cons, Mm.setFreerg, Mm.setVma, Mm.vma, Mm.setSymrg,
        if_neg (show (1 : Int) ≠ 0 by decide)] at this ⊢
      omega

end Bounds

/-! ## What a call does to a process's `mm_struct` -/

inductive MmAlloc (fuel : Nat) (vmaid rgid size : Int) (mm : Mm) : Mm → Prop where
  | reused {l rg} (hid : 0 ≤ rgid ∧ rgid < 30)
      (hget : getFreeVmrgArea fuel vmaid size (mm.vma vmaid).vmFreergList = some (l, some rg)) :
      MmAlloc fuel vmaid rgid size mm ((mm.setFreerg vmaid l).setSymrg rgid.toNat rg)
  | refused {l} (hget : getFreeVmrgArea fuel vmaid size (mm.vma vmaid).vmFreergList = some (l, none)) :
      MmAlloc fuel vmaid rgid size mm (mm.setFreerg vmaid l)
  | fitted {l} (hid : 0 ≤ rgid ∧ rgid < 30)
      (hget : getFreeVmrgArea fuel vmaid size (mm.vma vmaid).vmFreergList = some (l, none))
      (hvirt : outOfVirtual mm vmaid size = false) (hpast : pastVmEnd mm vmaid size = false) :
      MmAlloc fuel vmaid rgid size mm (commitRegion (mm.setFreerg vmaid l) vmaid rgid.toNat size)
  | grown {l} (hid : 0 ≤ rgid ∧ rgid < 30)
      (hget : getFreeVmrgArea fuel vmaid size (mm.vma vmaid).vmFreergList = some (l, none))
      (hvirt : outOfVirtual mm vmaid size = false) (hpast : pastVmEnd mm vmaid size = true)
      (hover : overlapRefused mm vmaid size = false) :
      MmAlloc fuel vmaid rgid size mm (commitRegion (grownMm (mm.setFreerg vmaid l) vmaid size) vmaid rgid.toNat size)

theorem allocated_mm {fuel : Nat} {p : Pid} {vmaid rgid size ret : Int} {m m' : Machine}
    (h : Allocated fuel p vmaid rgid size m m' ret) :
    ∃ mm', m'.mm = Function.update m.mm p mm' ∧ MmAlloc fuel vmaid rgid size (m.mm p) mm' := by
  cases h with
  | reused hid hget hturns hret => exact ⟨_, turns_mm hturns, .reused hid hget⟩
  | refused hget hwhy => exact ⟨_, rfl, .refused hget⟩
  | fitted hid hget hvirt hpast => exact ⟨_, rfl, .fitted hid hget hvirt hpast⟩
  | grown hid hget hvirt hpast hover hmoves hmaps hother =>
    refine ⟨_, ?_, .grown hid hget hvirt hpast hover⟩
    rw [Machine.setMm_mm, moves_mm hmoves, Machine.setMm_mm, Function.update_idem]

theorem freed_mm {p : Pid} {rgid ret : Int} {m m' : Machine} (h : Freed p rgid m m' ret) :
    m'.mm = m.mm ∨ m'.mm = Function.update m.mm p (freedMm (m.mm p) rgid.toNat) ∧ 0 ≤ rgid ∧ rgid < 30 ∧
      ((m.mm p).symrgtbl rgid.toNat).rgStart ≠ ((m.mm p).symrgtbl rgid.toNat).rgEnd := by
  cases h with
  | refused => exact Or.inl rfl
  | freed hid hrg hvma hstores =>
    refine Or.inr ⟨?_, hid.1, hid.2, hrg⟩
    rw [Machine.setMm_mm, stores_mm hstores]

theorem Bounds.fit {v size vmaid : Int} {mm : Mm} (h : Bounds v mm) (hv : vmaid = 0 ∨ vmaid = 1) (h2 : 2 ≤ size)
    (hmax : size ≤ 2147483647) (hvirt : outOfVirtual mm vmaid size = false) (hpast : pastVmEnd mm vmaid size = false) :
    Bounds.Room mm vmaid size := by
  have hsize := h.size
  have hstack := h.stack
  have hheap := h.heap
  rcases hv with rfl | rfl
  · have hroom := h.stackRoom h2 hmax hvirt
    rw [pastVmEnd, if_pos rfl, decide_eq_false_iff_not] at hpast
    simp only [Mm.vma, if_true, ulong, int32] at hpast
    change mm.vma0.sbrk + size ≤ mm.vma0.vmEnd
    omega
  · have hroom := h.heapRoom (by decide) h2 hmax hvirt
    rw [pastVmEnd, if_neg (by decide), decide_eq_false_iff_not] at hpast
    simp only [Mm.vma, if_neg (show (1 : Int) ≠ 0 by decide)] at hpast
    change size ≤ mm.vma1.sbrk ∧ heapEnd mm ≤ mm.vma1.sbrk - size
    unfold heapEnd
    generalize int32 mm.vma1.vmEnd = e at *
    unfold int32 at hpast
    omega

/-! ## Runs -/

def Asks (P : Mm → Int → Int → Prop) (m : Machine) (p : Pid) (c : Call) : Prop :=
  ∀ a, c.request = some a → P (m.mm p) a.1 a.2.2

instance (P : Mm → Int → Int → Prop) [∀ mm a s, Decidable (P mm a s)] (m : Machine) (p : Pid) (c : Call) :
    Decidable (Asks P m p c) :=
  match h : c.request with
  | none => isTrue (fun a ha => by rw [h] at ha; cases ha)
  | some a => decidable_of_iff (P (m.mm p) a.1 a.2.2)
    ⟨fun hP b hb => by rw [h] at hb; cases hb; exact hP, fun hasks => hasks a h⟩

/-- **A call leaves every `mm_struct` as it was**, or allocates or frees in the caller's. -/
theorem call_mm {fuel : Nat} {p : Pid} {c : Call} {m m' : Machine} {ret : Ret}
    (h : run (c.code fuel p) m = .ok (m', ret)) :
    m'.mm = m.mm ∨
      (∃ vmaid rgid size mm', c.request = some (vmaid, rgid, size) ∧ MmAlloc fuel vmaid rgid size (m.mm p) mm' ∧
        m'.mm = Function.update m.mm p mm') ∨
      ∃ i < 30, ((m.mm p).symrgtbl i).rgStart ≠ ((m.mm p).symrgtbl i).rgEnd ∧
        m'.mm = Function.update m.mm p (freedMm (m.mm p) i) := by
  cases c with
  | pgalloc size regIndex =>
    obtain ⟨m₁, _, halloc, hret⟩ := run_bind_ok.1 h
    cases hret
    obtain ⟨mm', hmm, hstep⟩ := allocated_mm (run_alloc halloc)
    exact Or.inr (Or.inl ⟨_, _, _, mm', rfl, hstep, hmm⟩)
  | pgmalloc size regIndex =>
    obtain ⟨m₁, _, halloc, hret⟩ := run_bind_ok.1 h
    cases hret
    obtain ⟨mm', hmm, hstep⟩ := allocated_mm (run_alloc halloc)
    exact Or.inr (Or.inl ⟨_, _, _, mm', rfl, hstep, hmm⟩)
  | pgfreeData regIndex =>
    obtain ⟨m₁, _, hfree, hret⟩ := run_bind_ok.1 h
    cases hret
    rcases freed_mm (run_free hfree) with hmm | ⟨hmm, h0, h30, hne⟩
    · exact Or.inl hmm
    · exact Or.inr (Or.inr ⟨_, by omega, hne, hmm⟩)
  | pgread source offset => exact Or.inl (read_mm h)
  | pgwrite data destination offset =>
    obtain ⟨m₁, _, hwrite, hret⟩ := run_bind_ok.1 h
    cases hret
    exact Or.inl (write_mm hwrite)

/-- **What allocating and freeing keep of an `mm_struct`** holds of every process's in every run. -/
theorem run_mm (P : Mm → Int → Int → Prop) (Q : Pid → Mm → Prop)
    (halloc : ∀ {p mm fuel vmaid rgid size mm'}, vmaid = 0 ∨ vmaid = 1 → P mm vmaid size →
      MmAlloc fuel vmaid rgid size mm mm' → Q p mm → Q p mm')
    (hfree : ∀ {p mm i}, i < 30 → (mm.symrgtbl i).rgStart ≠ (mm.symrgtbl i).rgEnd → Q p mm → Q p (freedMm mm i))
    {m m' : Machine} (h : Run (Asks P) m m') (h0 : ∀ p, Q p (m.mm p)) : ∀ p, Q p (m'.mm p) := by
  induction h with
  | refl => exact h0
  | @tail m₁ m₂ _ hd ih =>
    obtain ⟨p, c, ret, hok, fuel, hrun⟩ := hd
    have hupdate : ∀ {mm'}, Q p mm' → ∀ q, Q q (Function.update m₁.mm p mm' q) := by
      intro mm' hmm' q
      by_cases hq : q = p
      · subst hq
        rwa [Function.update_self]
      · rw [Function.update_of_ne hq]
        exact ih q
    rcases call_mm hrun with hmm | ⟨vmaid, rgid, size, mm', hreq, hstep, hmm⟩ | ⟨i, hi, hne, hmm⟩
    · rw [hmm]
      exact ih
    · rw [hmm]
      exact hupdate (halloc (request_vmaid hreq) (hok _ hreq) hstep (ih p))
    · rw [hmm]
      exact hupdate (hfree hi hne (ih p))

theorem request_size {c : Call} {a : Int × Int × Int} (h : c.request = some a) :
    -2147483648 ≤ a.2.2 ∧ a.2.2 < 2147483648 := by
  have hint : ∀ x : BitVec 32, -2147483648 ≤ x.toInt ∧ x.toInt < 2147483648 := fun x => ⟨x.le_toInt, x.toInt_lt⟩
  cases c <;> cases h
  · exact hint _
  · exact hint _

theorem run_mm_any (Q : Pid → Mm → Prop)
    (halloc : ∀ {p mm fuel vmaid rgid size mm'}, vmaid = 0 ∨ vmaid = 1 → -2147483648 ≤ size ∧ size < 2147483648 →
      MmAlloc fuel vmaid rgid size mm mm' → Q p mm → Q p mm')
    (hfree : ∀ {p mm i}, i < 30 → (mm.symrgtbl i).rgStart ≠ (mm.symrgtbl i).rgEnd → Q p mm → Q p (freedMm mm i))
    {m m' : Machine} (h : Run anyCall m m') (h0 : ∀ p, Q p (m.mm p)) : ∀ p, Q p (m'.mm p) := by
  have hany : Run (Asks (fun _ _ size => -2147483648 ≤ size ∧ size < 2147483648)) m m' :=
    Relation.ReflTransGen.mono (fun _ _ ⟨p, c, ret, _, hrun⟩ => ⟨p, c, ret, fun _ ha => request_size ha, hrun⟩) _ _ h
  exact run_mm _ Q halloc hfree hany h0

theorem initMm_vma1 {v : Int} (hv : 0 < v ∧ v ≤ 4194304) :
    (initMm zeroMm v).vma1 = ⟨v - 1, v - 1, v - 1, [⟨1, v - 1, v - 1⟩]⟩ := by
  have h1 : uint32 (v - 1) = v - 1 := by unfold uint32; omega
  have h2 : int32 (v - 1) = v - 1 := by unfold int32; omega
  have h3 : ulong (v - 1) = v - 1 := by unfold ulong; omega
  simp only [initMm, initVmRg, h1, h2, h3, zeroMm]

theorem bounds_initMm {v : Int} (hv : 0 < v ∧ v ≤ 4194304 ∧ v % 256 = 0) : Bounds v (initMm zeroMm v) := by
  have hvma1 := initMm_vma1 ⟨hv.1, hv.2.1⟩
  have hvma0 : (initMm zeroMm v).vma0 = ⟨0, 0, 0, [⟨0, 0, 0⟩]⟩ := rfl
  have hend : heapEnd (initMm zeroMm v) = v - 1 := by
    simp only [heapEnd, hvma1, int32]
    omega
  refine ⟨rfl, hv, by rw [hvma1], ?_, ?_, ?_, fun i _ => Or.inl (VmRg.of_empty le_rfl (by decide)), ?_, ?_⟩
  · rw [hvma0]
    exact ⟨le_rfl, le_rfl, hv.1.le⟩
  · simp only [hvma1]
    omega
  · simp only [hend, hvma1, ulong]
    omega
  · rw [hvma0]
    simpa using VmRg.of_empty le_rfl (by decide)
  · rw [hvma1]
    simpa using VmRg.of_empty (by omega) (by omega)

end OsSim
