import OsSim.Runs
import Mathlib.Data.List.Perm.Basic
import Mathlib.Data.List.Nodup
/-!
# Frames — who owns a RAM frame

Three structures speak of a frame: the free list, the LRU list and the page tables.  Between acts every frame is in
exactly one place (free, under one LRU node, or held by an allocation under way), and every present page has the node of
its frame pointing to it.  A page mapped a second time leaves its first node behind, so a node need not point to a page
that still has its frame.
-/
namespace OsSim

/-- **Every frame has one place, every present page its node.**  The state is a machine and the frames held. -/
structure FrameInv (n : Nat) (s : List Nat × Machine) : Prop where
  frames : (s.2.mram.freeFpList ++ s.2.lru.map (·.fpn) ++ s.1).Perm (List.range n)
  owner : ∀ r, (s.2.pgd r).present = true → ∃ node ∈ s.2.lru, node.pte = r ∧ node.fpn = (s.2.pgd r).fpn

namespace FrameInv

variable {n : Nat} {held : List Nat} {m m' : Machine}

theorem congr (h : FrameInv n (held, m)) (hfree : m'.mram.freeFpList = m.mram.freeFpList) (hlru : m'.lru = m.lru)
    (hpgd : m'.pgd = m.pgd) : FrameInv n (held, m') := by
  constructor
  · simpa only [hfree, hlru] using h.frames
  · simpa only [hlru, hpgd] using h.owner

theorem reorder (h : FrameInv n (held, m)) {l : List LruNode} (hl : l.Perm m.lru) : FrameInv n (held, m.setLru l) := by
  constructor
  · exact (((hl.map _).append_left _).append_right _).trans h.frames
  · intro r hr
    obtain ⟨node, hmem, hnode⟩ := h.owner r hr
    exact ⟨node, hl.mem_iff.2 hmem, hnode⟩

theorem nodup (h : FrameInv n (held, m)) : (m.mram.freeFpList ++ m.lru.map (·.fpn) ++ held).Nodup :=
  h.frames.nodup_iff.2 List.nodup_range

theorem lru_nodup (h : FrameInv n (held, m)) : (m.lru.map (·.fpn)).Nodup :=
  (List.nodup_append.1 (List.nodup_append.1 h.nodup).1).2.1

theorem fpn_mem (h : FrameInv n (held, m)) {r : PteRef} (hr : (m.pgd r).present = true) :
    (m.pgd r).fpn ∈ m.lru.map (·.fpn) := by
  obtain ⟨node, hmem, -, hf⟩ := h.owner r hr
  exact List.mem_map.2 ⟨node, hmem, hf⟩

theorem node_pte (h : FrameInv n (held, m)) {r : PteRef} (hr : (m.pgd r).present = true) {node : LruNode}
    (hmem : node ∈ m.lru) (hf : node.fpn = (m.pgd r).fpn) : node.pte = r := by
  obtain ⟨node', hmem', hr', hf'⟩ := h.owner r hr
  have : node = node' := List.inj_on_of_nodup_map h.lru_nodup hmem hmem' (hf.trans hf'.symm)
  rw [this, hr']

theorem fpn_inj (h : FrameInv n (held, m)) {r r' : PteRef} (hr : (m.pgd r).present = true)
    (hr' : (m.pgd r').present = true) (hf : (m.pgd r).fpn = (m.pgd r').fpn) : r = r' := by
  obtain ⟨node, hmem, hpte, hfpn⟩ := h.owner r hr
  rw [← hpte]
  exact h.node_pte hr' hmem (hfpn.trans hf)

/-! ## What each piece of a move keeps -/

theorem take (h : FrameInv n (held, m)) {f : Nat} {rest : List Nat} (hfree : m.mram.freeFpList = f :: rest) :
    FrameInv n (f :: held, m.setFree .mram rest) := by
  constructor
  · have hp := h.frames
    simp only [hfree, List.cons_append] at hp
    simp only [Machine.setFree_mram_mram, Machine.setFree_lru]
    exact List.perm_middle.trans hp
  · simpa using h.owner

/-- **A victim leaves its node for the hands of the evictor**; its page is not present any more. -/
theorem evicted (h : FrameInv n (held, m)) {v : LruNode} {lru : List LruNode} (hlru : m.lru = v :: lru) (s : Nat)
    (rest : List Nat) : FrameInv n (v.fpn :: held, m.evicted v lru s rest) := by
  constructor
  · have hp := h.frames
    have hfree : (m.evicted v lru s rest).mram.freeFpList = m.mram.freeFpList := rfl
    have hl : (m.evicted v lru s rest).lru = lru := by simp [Machine.evicted]
    simp only [hfree, hl]
    simp only [hlru, List.map_cons] at hp
    refine List.Perm.trans ?_ hp
    refine List.perm_middle.trans ?_
    rw [List.append_assoc, List.append_assoc, List.cons_append]
    exact List.perm_middle.symm
  · intro r hr
    have hne : r ≠ v.pte := by
      rintro rfl
      simp [Machine.evicted] at hr
    have hpgd : (m.evicted v lru s rest).pgd r = m.pgd r := by simp [Machine.evicted, hne]
    have hl : (m.evicted v lru s rest).lru = lru := by simp [Machine.evicted]
    simp only [hpgd] at hr
    obtain ⟨node, hmem, hpte, hf⟩ := h.owner r hr
    simp only [hpgd, hl]
    refine ⟨node, ?_, hpte, hf⟩
    rw [hlru, List.mem_cons] at hmem
    rcases hmem with rfl | hmem
    · exact absurd hpte.symm hne
    · exact hmem

/-- **A held frame goes under a page**, with a node of its own at the tail. -/
theorem placed (h : FrameInv n (f :: held, m)) (hn : n ≤ 8192) (r : PteRef) (e : Event) :
    FrameInv n (held, m.placed r f e) := by
  have hlt : f < n := by
    have : f ∈ List.range n := h.frames.mem_iff.1 (by simp)
    simpa using this
  have hfpn : (pteSetFpn (m.pgd r) f).fpn = f := by
    rw [fpn_pteSetFpn, Nat.mod_eq_of_lt (by omega)]
  have hnot : f ∉ m.lru.map (·.fpn) := by
    intro hmem
    exact (List.nodup_append.1 h.nodup).2.2 f (List.mem_append_right _ hmem) f (by simp) rfl
  have hl := Machine.placed_lru r e hnot (by omega)
  have hpgd : (m.placed r f e).pgd = Function.update m.pgd r (pteSetFpn (m.pgd r) f) := by
    simp [Machine.placed, Machine.referenced]
  have hfree : (m.placed r f e).mram.freeFpList = m.mram.freeFpList := by
    simp [Machine.placed, Machine.referenced]
  constructor
  · simp only [hl, hfree, List.map_append, List.map_cons, List.map_nil]
    simpa only [List.append_assoc, List.cons_append, List.nil_append] using h.frames
  · intro r' hr'
    simp only [hl, hpgd, List.mem_append, List.mem_singleton] at hr' ⊢
    by_cases hrr : r' = r
    · subst hrr
      exact ⟨_, Or.inr rfl, rfl, by simp [hfpn]⟩
    · rw [Function.update_of_ne hrr] at hr' ⊢
      obtain ⟨node, hmem, hnode⟩ := h.owner r' hr'
      exact ⟨node, Or.inl hmem, hnode⟩

theorem move (h : FrameInv n (held, m)) (hn : n ≤ 8192) {held' : List Nat} (hmove : Move held m held' m') :
    FrameInv n (held', m') ∨ Event.outOfSwap ∈ m'.trace ∧ m'.mswp.freeFpList = [] := by
  cases hmove with
  | take hfree => exact Or.inl (h.take hfree)
  | evict hfree hlru hs => exact Or.inl (h.evicted hlru _ _)
  | map r vmaid => exact Or.inl (h.placed hn r _)
  | fill r hfree hpte =>
    refine Or.inl ?_
    exact ((h.take hfree).congr (Machine.copyPage_freeFpList _ _ _ _ _ .mram) (by simp) (by simp)).placed hn r _
  | @replace _ _ _ _ s rest r hlru hs hpte =>
    refine Or.inl (((h.evicted hlru s rest).congr ?_ ?_ ?_).placed hn r _)
    · exact Machine.copyPage_freeFpList _ _ _ _ _ .mram
    · simp
    · simp
  | touch r hpte =>
    have hmem := h.fpn_mem hpte
    have hl : (m.addLru r).lru = Lru.moveToTail (m.pgd r).fpn m.lru := Lru.addLruPage_of_mem hmem
    refine Or.inl ((h.reorder ?_).congr rfl rfl rfl)
    rw [hl]
    exact Lru.moveToTail_perm _ _
  | revisit r old hpte hf hlru hwho =>
    exact Or.inl ((h.reorder (Lru.moveToTail_perm old.fpn m.lru)).congr rfl rfl rfl)
  | retouch r hlru hwho => exact Or.inl (h.reorder (Lru.moveToTail_perm _ _))
  | ask k => exact Or.inl (h.congr rfl rfl rfl)
  | lose hlru hs => exact Or.inr ⟨by simp, hs⟩
  | loseNone hlru hs => exact Or.inr ⟨by simp, hs⟩

theorem act {a b : List Nat × Machine} (hn : n ≤ 8192) (hact : Act a b) (hswp : Event.outOfSwap ∉ b.2.trace)
    (h : FrameInv n a) : FrameInv n b := by
  cases hact with
  | move hmove => exact (h.move hn hmove).resolve_right (fun hout => hswp hout.1)
  | store hstored =>
    obtain ⟨-, mp, hwrite, rfl⟩ := hstored
    refine h.congr ?_ (by simp) (by simp)
    exact memphyWrite_freeFpList hwrite
  | setMm m p mm => exact h.congr rfl rfl rfl

end FrameInv

theorem Booted.frames {n : Nat} {m : Machine} (h : Booted m) (hfree : m.mram.freeFpList.Perm (List.range n)) :
    FrameInv n ([], m) where
  frames := by simpa [h.lru] using hfree
  owner r hr := by simp [h.pgd r] at hr

end OsSim
