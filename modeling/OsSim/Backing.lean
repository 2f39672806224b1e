import OsSim.Layout
/-!
# Backing — every allocated byte is in a mapped page

Where an area grows, `inc_vma_limit` counts the pages to map in one way and sets the area's end in another.  On the
stack the two agree.  On the heap they agree unless the break moved by the size is on a page boundary, where the end
comes to lie one page below the last page mapped; the first heap region, which starts at the top byte itself, has
one more such case.
-/
namespace OsSim

def Pte.Mapped (pte : Pte) : Prop := pte.present = true ∨ pte.swapped = true

/-- The `n` pages from the top of virtual memory down. -/
def topPages (v : Int) (n : Nat) : List Nat := (List.range n).map (fun k : Nat => (v / 256 - 1 - k).toNat)

theorem range_vmapPages (n : Nat) : ∀ k, (List.range n ++ vmapPages 0 n k).Perm (List.range (n + k))
  | 0 => by simp [vmapPages]
  | k + 1 => by
    have hpage : ((n : Int) + k).toNat = n + k := by omega
    rw [vmapPages, if_pos rfl, hpage, ← Nat.add_assoc, List.range_succ]
    exact List.perm_middle.trans ((List.perm_append_singleton _ _).symm.trans ((range_vmapPages n k).append_right _))

theorem topPages_vmapPages (v : Int) (n : Nat) :
    ∀ k, (topPages v n ++ vmapPages 1 (v / 256 - 1 - n) k).Perm (topPages v (n + k))
  | 0 => by simp [vmapPages]
  | k + 1 => by
    have hpage : v / 256 - 1 - n - k = v / 256 - 1 - ((n + k : Nat) : Int) := by omega
    have hnew : topPages v (n + k + 1) = topPages v (n + k) ++ [(v / 256 - 1 - ((n + k : Nat) : Int)).toNat] := by
      simp only [topPages, List.range_succ, List.map_append, List.map_singleton]
    rw [vmapPages, if_neg (by decide), hpage, ← Nat.add_assoc, hnew]
    exact List.perm_middle.trans
      ((List.perm_append_singleton _ _).symm.trans ((topPages_vmapPages v n k).append_right _))

/-- **The ends of the areas count the pages mapped** in them. -/
structure Backing (v : Int) (mm : Mm) (stackMaps heapMaps : List Nat) : Prop where
  bounds : Bounds v mm
  stack : ∃ n : Nat, stackMaps.Perm (List.range n) ∧ mm.vma0.vmEnd = 256 * n
  heap : ∃ n : Nat, heapMaps.Perm (topPages v n) ∧ mm.vma1.vmEnd = if n = 0 then v - 1 else v - 256 * n

/-- What a request must be like to keep the ends right: of 2 to `vmemsz` bytes, searching the free list without wrapping
round and, if nothing there fits and the heap grows, ending off a page boundary, and for the first region ending off a
boundary counted from `vmemsz` too. -/
def KeepsBacked (mm : Mm) (vmaid size : Int) : Prop :=
  2 ≤ size ∧ size ≤ mm.vmemsz ∧ NoWrap vmaid size (mm.vma vmaid).vmFreergList ∧
    (vmaid ≠ 0 → (∀ rg ∈ (mm.vma vmaid).vmFreergList, fits vmaid size rg = false) →
      outOfVirtual mm vmaid size = false → pastVmEnd mm vmaid size = true → overlapRefused mm vmaid size = false →
        (mm.vma1.sbrk - size) % 256 ≠ 0 ∧ (mm.vma1.vmEnd = mm.vma1.vmStart → size % 256 ≠ 0))

namespace Backing

variable {v size : Int} {mm : Mm} {stackMaps heapMaps : List Nat}

theorem heapEnd_eq (h : Backing v mm stackMaps heapMaps) : heapEnd mm = mm.vma1.vmEnd := by
  obtain ⟨n, -, hn⟩ := h.heap
  have hsize := h.bounds.size
  have hlimit := h.bounds.limit
  have hheap := h.bounds.heap
  have hu : 0 ≤ ulong (heapEnd mm) := Int.emod_nonneg _ (by decide)
  unfold heapEnd int32 at *
  split at hn <;> omega

theorem growStack (h : Backing v mm stackMaps heapMaps) (h2 : 2 ≤ size) (hmax : size ≤ 2147483647)
    (hvirt : outOfVirtual mm 0 size = false) (hpast : pastVmEnd mm 0 size = true) :
    Backing v (grownMm mm 0 size)
      (stackMaps ++ vmapPages 0 (mapPgn mm 0 (int32 mm.vma0.vmEnd)) (incNumpage mm 0 size).toNat) heapMaps := by
  obtain ⟨n, hmaps, hend⟩ := h.stack
  obtain ⟨hbounds, -, hnew⟩ := h.bounds.grow (Or.inl rfl) h2 hmax hvirt
  rw [if_pos rfl] at hnew
  have hsize := h.bounds.size
  have hstack := h.bounds.stack
  have hroom := h.bounds.stackRoom h2 hmax hvirt
  have hpast' : mm.vma0.vmEnd < mm.vma0.sbrk + size := by
    rw [pastVmEnd, if_pos rfl, decide_eq_true_iff] at hpast
    simp only [Mm.vma, if_true, ulong, int32] at hpast
    omega
  have hcount : incNumpage mm 0 size = (size - (mm.vma0.vmEnd - mm.vma0.sbrk) + 255) / 256 := by
    have hu : ulong (size - (mm.vma0.vmEnd - mm.vma0.sbrk)) = size - (mm.vma0.vmEnd - mm.vma0.sbrk) := by
      unfold ulong
      omega
    simp only [incNumpage, incAmt, Mm.vma, if_true, hu]
    rw [pagingPageAlignsz_eq (by omega) (by omega)]
    have hi : int32 ((size - (mm.vma0.vmEnd - mm.vma0.sbrk) + 255) / 256 * 256) =
        (size - (mm.vma0.vmEnd - mm.vma0.sbrk) + 255) / 256 * 256 := by
      unfold int32
      omega
    rw [hi, Int.tdiv_eq_ediv_of_nonneg (by omega)]
    omega
  have hpgn : mapPgn mm 0 (int32 mm.vma0.vmEnd) = n := by
    rw [mapPgn, if_pos rfl, pagingPgn_eq]
    unfold int32
    omega
  refine ⟨hbounds, ⟨n + (incNumpage mm 0 size).toNat, ?_, ?_⟩, h.heap⟩
  · rw [hpgn]
    exact (hmaps.append_right _).trans (range_vmapPages n _)
  · rw [hnew, hcount]
    push_cast
    omega

/-- **Growing the heap** off a page boundary maps the pages down to its new end. -/
theorem growHeap (h : Backing v mm stackMaps heapMaps) (h2 : 2 ≤ size) (hmax : size ≤ 2147483647)
    (hvirt : outOfVirtual mm 1 size = false) (hpast : pastVmEnd mm 1 size = true)
    (hoff : (mm.vma1.sbrk - size) % 256 ≠ 0) (hfirst : mm.vma1.vmEnd = mm.vma1.vmStart → size % 256 ≠ 0) :
    Backing v (grownMm mm 1 size) stackMaps
      (heapMaps ++ vmapPages 1 (mapPgn mm 1 (int32 mm.vma1.vmEnd)) (incNumpage mm 1 size).toNat) := by
  obtain ⟨n, hmaps, hend⟩ := h.heap
  obtain ⟨hbounds, -, hnew⟩ := h.bounds.grow (Or.inr rfl) h2 hmax hvirt
  rw [if_neg (by decide)] at hnew
  have hsize := h.bounds.size
  have hheap := h.bounds.heap
  have hlimit := h.bounds.limit
  have hstart := h.bounds.start1
  have hroom := h.bounds.heapRoom (by decide) h2 hmax hvirt
  have heq := h.heapEnd_eq
  have hvmemsz := h.bounds.vmemsz
  have hpast' : mm.vma1.sbrk - size < mm.vma1.vmEnd := by
    rw [pastVmEnd, if_neg (by decide), decide_eq_true_iff] at hpast
    simp only [Mm.vma, if_neg (show (1 : Int) ≠ 0 by decide)] at hpast
    change int32 (int32 mm.vma1.sbrk - size) < heapEnd mm at hpast
    rw [heq] at hpast
    unfold int32 at hpast
    omega
  have hcount : incNumpage mm 1 size = (size - (mm.vma1.sbrk - mm.vma1.vmEnd) + 255) / 256 := by
    have hu : ulong (size - (mm.vma1.sbrk - mm.vma1.vmEnd)) = size - (mm.vma1.sbrk - mm.vma1.vmEnd) := by
      unfold ulong
      omega
    simp only [incNumpage, incAmt, Mm.vma, if_neg (show (1 : Int) ≠ 0 by decide), hu]
    rw [pagingPageAlignsz_eq (by omega) (by omega)]
    have hi : int32 ((size - (mm.vma1.sbrk - mm.vma1.vmEnd) + 255) / 256 * 256) =
        (size - (mm.vma1.sbrk - mm.vma1.vmEnd) + 255) / 256 * 256 := by
      unfold int32
      omega
    rw [hi, Int.tdiv_eq_ediv_of_nonneg (by omega)]
    omega
  have hnewEnd : (grownMm mm 1 size).vma1.vmEnd = (mm.vma1.sbrk - size + 255) / 256 * 256 - 256 := by
    have := hbounds.limit.1
    rw [hnew] at this
    rw [this]
    unfold ulong
    omega
  have hpgn : mapPgn mm 1 (int32 mm.vma1.vmEnd) = v / 256 - 1 - n := by
    have hi : int32 mm.vma1.vmEnd = mm.vma1.vmEnd := heq
    rw [mapPgn, if_neg (by decide), hi, hvmemsz]
    by_cases hn : n = 0
    · rw [if_pos hn] at hend
      rw [if_pos (by rw [hend]), pagingPgn_eq, hend, hn]
      omega
    · rw [if_neg hn] at hend
      rw [if_neg (by unfold uint32; omega), pagingPgn_eq, hend]
      unfold int32
      omega
  refine ⟨hbounds, h.stack, n + (incNumpage mm 1 size).toNat, ?_, ?_⟩
  · rw [hpgn]
    exact (hmaps.append_right _).trans (topPages_vmapPages v n _)
  · rw [hnewEnd, hcount, if_neg (by omega)]
    push_cast
    by_cases hn : n = 0
    · rw [if_pos hn] at hend
      have := hfirst (hend.trans hstart.symm)
      omega
    · rw [if_neg hn] at hend
      omega

theorem congr (h : Backing v mm stackMaps heapMaps) {mm' : Mm} (hbounds : Bounds v mm')
    (h0 : mm'.vma0.vmEnd = mm.vma0.vmEnd) (h1 : mm'.vma1.vmEnd = mm.vma1.vmEnd) : Backing v mm' stackMaps heapMaps :=
  ⟨hbounds, h0 ▸ h.stack, h1 ▸ h.heap⟩

theorem commit (h : Backing v mm stackMaps heapMaps) {vmaid : Int} (hv : vmaid = 0 ∨ vmaid = 1) (h2 : 2 ≤ size)
    (hroom : Bounds.Room mm vmaid size) (i : Nat) : Backing v (commitRegion mm vmaid i size) stackMaps heapMaps := by
  have hbounds := h.bounds.commit hv h2 hroom i
  have hcommit := h.bounds.commitRegion_eq h2 hroom i
  rcases hv with rfl | rfl
  · exact h.congr hbounds (by rw [hcommit]; rfl) (by rw [hcommit]; rfl)
  · exact h.congr hbounds (by rw [hcommit]; rfl) (by rw [hcommit]; rfl)

theorem freed (h : Backing v mm stackMaps heapMaps) {i : Nat} (hi : i < 30)
    (hne : (mm.symrgtbl i).rgStart ≠ (mm.symrgtbl i).rgEnd) : Backing v (freedMm mm i) stackMaps heapMaps := by
  have hends : (freedMm mm i).vma0.vmEnd = mm.vma0.vmEnd ∧ (freedMm mm i).vma1.vmEnd = mm.vma1.vmEnd := by
    unfold freedMm Mm.enlisted
    dsimp only
    split
    · exact ⟨rfl, rfl⟩
    · unfold Mm.setFreerg Mm.setVma Mm.vma
      split <;> exact ⟨rfl, rfl⟩
  exact h.congr (h.bounds.freed hi hne).1 hends.1 hends.2

theorem live (h : Backing v mm stackMaps heapMaps) {i : Nat} (hi : i < 30) {b : Int} (hb : (mm.symrgtbl i).Holds b) :
    pagingPgn b ∈ stackMaps ∨ pagingPgn b ∈ heapMaps := by
  have hsize := h.bounds.size
  have hpgn := pagingPgn_eq b
  have hin := hb.2
  rcases h.bounds.table i hi with hof | hof
  · obtain ⟨n, hmaps, hend⟩ := h.stack
    have hbytes := hof.bytes hb.1
    have hstack := h.bounds.stack
    refine Or.inl (hmaps.mem_iff.2 (List.mem_range.2 ?_))
    omega
  · obtain ⟨n, hmaps, hend⟩ := h.heap
    have hbytes := hof.bytes hb.1
    have hlimit := h.bounds.limit
    have heq := h.heapEnd_eq
    have hheap := h.bounds.heap
    refine Or.inr (hmaps.mem_iff.2 (List.mem_map.2 ?_))
    by_cases hn : n = 0
    · rw [if_pos hn] at hend
      exact absurd hb (hof.not_holds_of_le (by omega) b)
    · rw [if_neg hn] at hend
      exact ⟨(v / 256 - 1 - b / 256).toNat, List.mem_range.2 (by omega), by omega⟩

end Backing

/-! ## Runs -/

theorem act_mapped {a b : List Nat × Machine} (h : Act a b)
    (ha : ∀ p vmaid, ∀ k ∈ mapsOf p vmaid a.2.trace, (a.2.pgd ⟨p, k⟩).Mapped) :
    ∀ p vmaid, ∀ k ∈ mapsOf p vmaid b.2.trace, (b.2.pgd ⟨p, k⟩).Mapped := by
  have hfpn : ∀ {pgd : PteRef → Pte} {r x : PteRef} {pte : Pte} {f : Nat}, (pgd x).Mapped →
      (Function.update pgd r (pteSetFpn pte f) x).Mapped := by
    intro pgd r x pte f hx
    by_cases hxr : x = r
    · subst hxr
      exact Or.inl (by simp)
    · rwa [Function.update_of_ne hxr]
  have hswap : ∀ {pgd : PteRef → Pte} {r x : PteRef} {pte : Pte} {typ s : Nat}, (pgd x).Mapped →
      (Function.update pgd r (pteSetSwap pte typ s) x).Mapped := by
    intro pgd r x pte typ s hx
    by_cases hxr : x = r
    · subst hxr
      exact Or.inr (by simp)
    · rwa [Function.update_of_ne hxr]
  intro p vmaid k hk
  cases h with
  | store hstored =>
    obtain ⟨-, mp, -, rfl⟩ := hstored
    simpa using ha p vmaid k (by simpa using hk)
  | setMm m q mm => exact ha p vmaid k hk
  | move hmove =>
    cases hmove with
    | take hfree => simpa using ha p vmaid k (by simpa using hk)
    | evict hfree hlru hs =>
      have hold := ha p vmaid k (by simpa [Machine.evicted] using hk)
      simpa [Machine.evicted] using hswap hold
    | map r a =>
      dsimp only at hk ⊢
      rw [Machine.placed_pgd]
      rw [mapsOf_placed, List.mem_append] at hk
      rcases hk with hk | hk
      · exact hfpn (ha p vmaid k hk)
      · split at hk
        · rename_i hr
          rw [List.mem_singleton] at hk
          rw [hk, ← hr.1]
          exact Or.inl (by simp)
        · cases hk
    | fill r hfree hpte =>
      have hold := ha p vmaid k (by simpa [Machine.placed, Machine.referenced, mapsOf_append, mapsOf] using hk)
      simpa [Machine.placed, Machine.referenced] using hfpn hold
    | replace r hlru hs hpte =>
      have hold := ha p vmaid k
        (by simpa [Machine.placed, Machine.referenced, Machine.evicted, mapsOf_append, mapsOf] using hk)
      simpa [Machine.placed, Machine.referenced, Machine.evicted] using hfpn (hswap hold)
    | touch r hpte => exact ha p vmaid k (by simpa [Machine.referenced, mapsOf_append, mapsOf] using hk)
    | revisit r old hpte hf hlru hwho => exact ha p vmaid k (by simpa [mapsOf_append, mapsOf] using hk)
    | retouch r hlru hwho => exact ha p vmaid k hk
    | ask j => exact ha p vmaid k (by simpa [mapsOf_append, mapsOf] using hk)
    | lose hlru hs => exact ha p vmaid k (by simpa [mapsOf_append, mapsOf] using hk)
    | loseNone hlru hs => exact ha p vmaid k (by simpa [mapsOf_append, mapsOf] using hk)

theorem mapsOf_stores {p : Pid} {vmaid : Int} {S : PteRef → Int → Nat → Prop} {m m' : Machine} (h : Stores S m m') :
    mapsOf p vmaid m'.trace = mapsOf p vmaid m.trace := by
  induction h with
  | refl => rfl
  | tail _ hd ih =>
    rcases hd with hturn | ⟨r, a, off, x, -, -, mp, -, rfl⟩
    · rw [mapsOf_turn hturn, ih]
    · rw [← ih]
      simp

def AllBacked (v : Pid → Int) (m : Machine) : Prop :=
  ∀ p, Backing (v p) (m.mm p) (mapsOf p 0 m.trace) (mapsOf p 1 m.trace)

theorem AllBacked.update {v : Pid → Int} {m m' : Machine} (h : AllBacked v m) {p : Pid} {mm' : Mm}
    (hmm : m'.mm = Function.update m.mm p mm')
    (hmaps : ∀ q vmaid, q ≠ p → mapsOf q vmaid m'.trace = mapsOf q vmaid m.trace)
    (hp : Backing (v p) mm' (mapsOf p 0 m'.trace) (mapsOf p 1 m'.trace)) : AllBacked v m' := by
  intro q
  rw [hmm]
  by_cases hq : q = p
  · subst hq
    rwa [Function.update_self]
  · rw [Function.update_of_ne hq, hmaps q 0 hq, hmaps q 1 hq]
    exact h q

theorem AllBacked.alloc {v : Pid → Int} {m m' : Machine} (h : AllBacked v m) {fuel : Nat} {p : Pid}
    {vmaid rgid size ret : Int} (hv : vmaid = 0 ∨ vmaid = 1) (hkeep : KeepsBacked (m.mm p) vmaid size)
    (halloc : Allocated fuel p vmaid rgid size m m' ret) (hret : ret = 0) : AllBacked v m' := by
  obtain ⟨h2, hle, hwrap, hoff⟩ := hkeep
  have hmax : size ≤ 2147483647 := by
    have := (h p).bounds.size
    rw [(h p).bounds.vmemsz] at hle
    omega
  have hnone : ∀ {l : List VmRg}, getFreeVmrgArea fuel vmaid size ((m.mm p).vma vmaid).vmFreergList = some (l, none) →
      (m.mm p).setFreerg vmaid l = m.mm p ∧ ∀ rg ∈ ((m.mm p).vma vmaid).vmFreergList, fits vmaid size rg = false :=
    fun hget => Bounds.uncut (h p).bounds hv h2 hmax hwrap hget
  cases halloc with
  | @reused l rg m' ret hid hget hturns hret' =>
    rcases @Bounds.cut (v p) size (m.mm p) (h p).bounds vmaid rgid fuel l _ hv h2 hmax hwrap hget with ⟨hrg, -⟩ |
      ⟨rg', hrg, hne, hbounds, -, -⟩
    · cases hrg
    · cases hrg
      refine h.update (turns_mm hturns) (fun q a _ => (mapsOf_turns hturns).trans rfl) ?_
      rw [mapsOf_turns hturns, mapsOf_turns hturns, Machine.setMm_trace]
      rcases hv with rfl | rfl <;> exact (h p).congr (hbounds hid.2) rfl rfl
  | refused hget hwhy => cases hret
  | fitted hid hget hvirt hpast =>
    rw [(hnone hget).1]
    exact h.update rfl (fun q a _ => rfl) ((h p).commit hv h2 ((h p).bounds.fit hv h2 hmax hvirt hpast) _)
  | @grown l m₂ hid hget hvirt hpast hover hmoves hmaps hother =>
    rw [(hnone hget).1] at hmoves ⊢
    have hroom := ((h p).bounds.grow hv h2 hmax hvirt).2.1
    have hmm : m₂.mm = Function.update m.mm p (grownMm (m.mm p) vmaid size) := moves_mm hmoves
    refine h.update (by rw [Machine.setMm_mm, hmm, Function.update_idem]) (fun q a hq => hother q a (fun e => hq e.1)) ?_
    · rcases hv with rfl | rfl
      · have hheap : mapsOf p 1 m₂.trace = mapsOf p 1 m.trace := hother p 1 (fun e => absurd e.2 (by decide))
        rw [Machine.setMm_trace, hmaps, hheap]
        exact ((h p).growStack h2 hmax hvirt hpast).commit (Or.inl rfl) h2 hroom _
      · have hstack : mapsOf p 0 m₂.trace = mapsOf p 0 m.trace := hother p 0 (fun e => absurd e.2 (by decide))
        obtain ⟨hoff1, hfirst⟩ := hoff (by decide) (hnone hget).2 hvirt hpast hover
        rw [Machine.setMm_trace, hmaps, hstack]
        exact ((h p).growHeap h2 hmax hvirt hpast hoff1 hfirst).commit (Or.inr rfl) h2 hroom _

theorem okStep_backed {v : Pid → Int} {m m' : Machine} (h : OkStep (Asks KeepsBacked) m m') (hall : AllBacked v m) :
    AllBacked v m' := by
  obtain ⟨p, c, ret, hok, ⟨fuel, hrun⟩, hret⟩ := h
  have hsame : m'.mm = m.mm → (∀ q a, mapsOf q a m'.trace = mapsOf q a m.trace) → AllBacked v m' := by
    intro hmm hmaps q
    rw [hmm, hmaps, hmaps]
    exact hall q
  cases c with
  | pgalloc size regIndex =>
    obtain ⟨m₁, _, halloc, hr⟩ := run_bind_ok.1 hrun
    cases hr
    exact hall.alloc (Or.inl rfl) (hok _ rfl) (run_alloc halloc) hret
  | pgmalloc size regIndex =>
    obtain ⟨m₁, _, halloc, hr⟩ := run_bind_ok.1 hrun
    cases hr
    exact hall.alloc (Or.inr rfl) (hok _ rfl) (run_alloc halloc) hret
  | pgfreeData regIndex =>
    obtain ⟨m₁, _, hfree, hr⟩ := run_bind_ok.1 hrun
    cases hr
    cases run_free hfree with
    | refused => cases hret
    | freed hid hrg hvma hstores =>
      refine hall.update (by rw [Machine.setMm_mm, stores_mm hstores])
        (fun q a _ => (mapsOf_stores hstores : mapsOf q a _ = _)) ?_
      · rw [Machine.setMm_trace, mapsOf_stores hstores, mapsOf_stores hstores]
        exact (hall p).freed (by omega) hrg
  | pgread source offset =>
    rcases run_read hrun with ⟨-, rfl⟩ | ⟨-, -, m₁, hturn, hturn', -⟩
    · exact hall
    · exact hsame (hturn'.mm_eq.trans hturn.mm_eq) (fun q a => (mapsOf_turn hturn').trans (mapsOf_turn hturn))
  | pgwrite data destination offset =>
    obtain ⟨m₁, _, hwrite, hr⟩ := run_bind_ok.1 hrun
    cases hr
    rcases run_write hwrite with ⟨-, rfl⟩ | ⟨-, -, m₁, m₂, hturn, hturn', hstore⟩
    · exact hall
    · have hmid : m₂.mm = m₁.mm ∧ m₂.trace = m₁.trace := by
        rcases hstore with ⟨-, mp, -, rfl⟩ | ⟨rfl, -⟩
        · simp
        · exact ⟨rfl, rfl⟩
      refine hsame (hturn'.mm_eq.trans (hmid.1.trans hturn.mm_eq)) (fun q a => ?_)
      rw [mapsOf_turn hturn', hmid.2, mapsOf_turn hturn]

instance (mm : Mm) (vmaid size : Int) : Decidable (KeepsBacked mm vmaid size) := by
  unfold KeepsBacked
  infer_instance

instance (pte : Pte) : Decidable pte.Mapped := inferInstanceAs (Decidable (_ ∨ _))

/-- **Every byte allocated is in a mapped page**, and the ends of the areas count the pages mapped, in any run of
successful calls whose allocations keep the ends right. -/
theorem bytes_backed {v : Pid → Int} {m₀ m : Machine} (hv : ∀ p, 0 < v p ∧ v p ≤ 4194304 ∧ v p % 256 = 0)
    (hboot : Booted m₀) (hinit : ∀ p, m₀.mm p = initMm zeroMm (v p)) (hrun : OkRun (Asks KeepsBacked) m₀ m) (p : Pid) :
    (∀ i < 30, ∀ b, ((m.mm p).symrgtbl i).Holds b → (m.pgd ⟨p, pagingPgn b⟩).Mapped) ∧
      (∃ n : Nat, (mapsOf p 0 m.trace).Perm (List.range n) ∧ (m.mm p).vma0.vmEnd = 256 * n) ∧
      ∃ n : Nat, (mapsOf p 1 m.trace).Perm (topPages (v p) n) ∧
        (m.mm p).vma1.vmEnd = if n = 0 then v p - 1 else v p - 256 * n := by
  have h0 : AllBacked v m₀ := by
    intro q
    rw [hinit q, hboot.trace]
    refine ⟨bounds_initMm (hv q), ⟨0, by simp [mapsOf], rfl⟩, 0, by simp [mapsOf, topPages], ?_⟩
    rw [initMm_vma1 ⟨(hv q).1, (hv q).2.1⟩]
    rfl
  have hall : AllBacked v m := by
    induction hrun with
    | refl => exact h0
    | tail _ hd ih => exact okStep_backed hd ih
  have hmapped : ∀ p vmaid, ∀ k ∈ mapsOf p vmaid m.trace, (m.pgd ⟨p, k⟩).Mapped :=
    run_keeps_machine (fun m => ∀ p vmaid, ∀ k ∈ mapsOf p vmaid m.trace, (m.pgd ⟨p, k⟩).Mapped) act_mapped
      (run_of_okRun hrun) (by simp [hboot.trace, mapsOf])
  refine ⟨fun i hi b hb => ?_, (hall p).stack, (hall p).heap⟩
  rcases (hall p).live hi hb with hmem | hmem
  · exact hmapped p 0 _ hmem
  · exact hmapped p 1 _ hmem

/-- 1024 bytes of virtual memory: a page of heap, then 100 bytes of heap. -/
def pageBelow : List (Pid × Call) := [(0, .pgmalloc 256 0), (0, .pgmalloc 100 1)]

/-- **One page is mapped and the heap's end moves by two**: the second region lies in a page that was never mapped. -/
theorem bytes_backed_fails : ∃ m rets,
    runCalls (fun _ _ _ => true) 10 pageBelow (boot 4096 4096 1024) = some (m, rets) ∧
    OkRun anyCall (boot 4096 4096 1024) m ∧ (m.mm 0).symrgtbl 1 = ⟨1, 767, 668⟩ ∧ ((m.mm 0).symrgtbl 1).Holds 700 ∧
    ¬ (m.pgd ⟨0, pagingPgn 700⟩).Mapped ∧ mapsOf 0 1 m.trace = [3] ∧ (m.mm 0).vma1.vmEnd = 512 := by
  have hsome : (runCalls (fun _ _ _ => true) 10 pageBelow (boot 4096 4096 1024)).any
      (fun q => (∀ ret ∈ q.2, ret.1 = 0) ∧ (q.1.mm 0).symrgtbl 1 = ⟨1, 767, 668⟩ ∧ ((q.1.mm 0).symrgtbl 1).Holds 700 ∧
        ¬ (q.1.pgd ⟨0, pagingPgn 700⟩).Mapped ∧ mapsOf 0 1 q.1.trace = [3] ∧ (q.1.mm 0).vma1.vmEnd = 512) = true := by
    decide +kernel
  obtain ⟨⟨m, rets⟩, hm, hq⟩ := (Option.any_eq_true _ _).1 hsome
  simp only [decide_eq_true_iff] at hq
  exact ⟨m, rets, hm, okRun_of_runCalls (fun _ _ _ _ => trivial) _ hm hq.1, hq.2⟩

/-- Stack and heap in use in pages 0 and 2 to 3, one region freed. -/
theorem bytes_backed_both : ∃ m, OkRun (Asks KeepsBacked) (boot 4096 4096 1024) m ∧
    ((m.mm 0).symrgtbl 2).Holds 700 ∧ (m.pgd ⟨0, pagingPgn 700⟩).Mapped := by
  have hsome : (runCalls (fun m p c => Asks KeepsBacked m p c) 10 [(0, .pgalloc 150 0), (0, .pgmalloc 200 1),
      (0, .pgfreeData 0), (0, .pgmalloc 300 2)] (boot 4096 4096 1024)).any
      (fun q => (∀ ret ∈ q.2, ret.1 = 0) ∧ ((q.1.mm 0).symrgtbl 2).Holds 700) = true := by
    decide +kernel
  obtain ⟨⟨m, rets⟩, hm, hq⟩ := (Option.any_eq_true _ _).1 hsome
  simp only [decide_eq_true_iff] at hq
  have hrun : OkRun (Asks KeepsBacked) (boot 4096 4096 1024) m :=
    okRun_of_runCalls (fun _ _ _ h => of_decide_eq_true h) _ hm hq.1
  exact ⟨m, hrun, hq.2, (@bytes_backed (fun _ => 1024) _ _ (fun _ => by decide) (booted_boot 4096 4096 1024)
    (fun _ => rfl) hrun 0).1 2 (by decide) 700 hq.2⟩

end OsSim
