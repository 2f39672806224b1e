import OsSim.Lib.Pool
import OsSim.Frames
/-!
# Swap — who owns a swap frame

A page that goes out takes a frame of the active swap device and remembers it in its entry (`PAGING_SWPOFF`); when
it comes back the frame should return to the free list.  `pg_getpage` and `__alloc` give back the frame they read
from the entry with `PAGING_PTE_FPN`, whose bits are the device and the low bits of the swap frame: the right frame
only where the two fields agree, as for swap frame 0.
-/
namespace OsSim

def swapOwned (pgd : PteRef → Pte) (r : PteRef) : Option Nat := if (pgd r).swapped then some (pgd r).swpoff else none

/-- **Each node's page is present and has the node's frame.** -/
structure NodeInv (m : Machine) : Prop where
  nodup : (m.lru.map (·.fpn)).Nodup
  present : ∀ node ∈ m.lru, (m.pgd node.pte).present = true
  fpn : ∀ node ∈ m.lru, (m.pgd node.pte).fpn = node.fpn

namespace NodeInv

variable {m m' : Machine}

theorem congr (h : NodeInv m) (hlru : m'.lru = m.lru) (hpgd : m'.pgd = m.pgd) : NodeInv m' := by
  constructor
  · rw [hlru]; exact h.nodup
  · rw [hlru, hpgd]; exact h.present
  · rw [hlru, hpgd]; exact h.fpn

theorem reorder (h : NodeInv m) {l : List LruNode} (hl : l.Perm m.lru) : NodeInv (m.setLru l) where
  nodup := (hl.map _).nodup_iff.2 h.nodup
  present node hmem := h.present node (hl.mem_iff.1 hmem)
  fpn node hmem := h.fpn node (hl.mem_iff.1 hmem)

theorem addLru (h : NodeInv m) {r : PteRef} (hr : (m.pgd r).present = true) : NodeInv (m.addLru r) := by
  by_cases hmem : (m.pgd r).fpn ∈ m.lru.map (·.fpn)
  · refine h.reorder ?_
    have hl : Lru.addLruPage m.lru ⟨r, (m.pgd r).fpn, r.pgn⟩ = Lru.moveToTail (m.pgd r).fpn m.lru :=
      Lru.addLruPage_of_mem hmem
    rw [hl]
    exact Lru.moveToTail_perm _ _
  · have hl : (m.addLru r).lru = m.lru ++ [⟨r, (m.pgd r).fpn, r.pgn⟩] := Lru.addLruPage_of_not_mem hmem
    constructor
    · rw [hl, List.map_append, List.nodup_append]
      refine ⟨h.nodup, by simp, fun a ha b hb => ?_⟩
      rw [List.map_cons, List.map_nil, List.mem_singleton] at hb
      have hb' : b = (m.pgd r).fpn := hb
      rintro rfl
      exact hmem (hb' ▸ ha)
    · intro node hnode
      rw [hl, List.mem_append, List.mem_singleton] at hnode
      rcases hnode with hnode | rfl
      · exact h.present node hnode
      · exact hr
    · intro node hnode
      rw [hl, List.mem_append, List.mem_singleton] at hnode
      rcases hnode with hnode | rfl
      · exact h.fpn node hnode
      · rfl

theorem pte_ne (h : NodeInv m) {r : PteRef} (hr : (m.pgd r).present = false) : ∀ node ∈ m.lru, node.pte ≠ r := by
  rintro node hmem rfl
  rw [h.present node hmem] at hr
  cases hr

theorem evicted (h : NodeInv m) {v : LruNode} {lru : List LruNode} (hlru : m.lru = v :: lru) (s : Nat)
    (rest : List Nat) : NodeInv (m.evicted v lru s rest) := by
  have hl : (m.evicted v lru s rest).lru = lru := by simp [Machine.evicted]
  have hnodup : v.fpn ∉ lru.map (·.fpn) ∧ (lru.map (·.fpn)).Nodup := by
    have := h.nodup
    rwa [hlru, List.map_cons, List.nodup_cons] at this
  have hmem : ∀ node ∈ lru, node ∈ m.lru := fun node hnode => hlru ▸ List.mem_cons_of_mem _ hnode
  have hv : v ∈ m.lru := by simp [hlru]
  have hpgd : ∀ node ∈ lru, (m.evicted v lru s rest).pgd node.pte = m.pgd node.pte := by
    intro node hnode
    have hne : node.pte ≠ v.pte := fun e => by
      refine hnodup.1 (List.mem_map.2 ⟨node, hnode, ?_⟩)
      rw [← h.fpn node (hmem node hnode), e, h.fpn v hv]
    simp [Machine.evicted, hne]
  constructor
  · rw [hl]; exact hnodup.2
  · intro node hnode
    rw [hl] at hnode
    rw [hpgd node hnode]
    exact h.present node (hmem node hnode)
  · intro node hnode
    rw [hl] at hnode
    rw [hpgd node hnode]
    exact h.fpn node (hmem node hnode)

theorem placed (h : NodeInv m) {r : PteRef} (hr : (m.pgd r).present = false) (f : Nat) (e : Event) :
    NodeInv (m.placed r f e) := by
  have hset : NodeInv (m.setPte r (pteSetFpn (m.pgd r) f)) := by
    have hpgd : ∀ node ∈ m.lru, (m.setPte r (pteSetFpn (m.pgd r) f)).pgd node.pte = m.pgd node.pte := fun node hnode =>
      Function.update_of_ne (h.pte_ne hr node hnode) _ _
    exact ⟨h.nodup, fun node hnode => by rw [hpgd node hnode]; exact h.present node hnode,
      fun node hnode => by rw [hpgd node hnode]; exact h.fpn node hnode⟩
  exact (hset.addLru (by simp)).congr rfl rfl

end NodeInv

structure SwapInv (ns : Nat) (m : Machine) : Prop where
  nodes : NodeInv m
  pool : Pool.InOrder ns m.mswp.freeFpList (swapOwned m.pgd)
  /-- No page is both present and swapped. -/
  excl : ∀ r, (m.pgd r).swapped = true → (m.pgd r).present = false
  /-- A page goes out only when RAM is full, and RAM stays full. -/
  full : ∀ r, (m.pgd r).swapped = true → m.mram.freeFpList = []

namespace SwapInv

variable {ns : Nat} {m m' : Machine}

theorem congr (h : SwapInv ns m) (hlru : m'.lru = m.lru) (hpgd : m'.pgd = m.pgd)
    (hswp : m'.mswp.freeFpList = m.mswp.freeFpList)
    (hram : m.mram.freeFpList = [] → m'.mram.freeFpList = []) : SwapInv ns m' where
  nodes := h.nodes.congr hlru hpgd
  pool := by rw [hswp, hpgd]; exact h.pool
  excl := by rw [hpgd]; exact h.excl
  full r hr := hram (h.full r (by rwa [hpgd] at hr))

theorem reorder (h : SwapInv ns m) {l : List LruNode} (hl : l.Perm m.lru) : SwapInv ns (m.setLru l) where
  nodes := h.nodes.reorder hl
  pool := h.pool
  excl := h.excl
  full := h.full

/-- **A victim takes the first free swap frame**, where RAM is full. -/
theorem evicted (h : SwapInv ns m) (hns : ns ≤ 2097152) (hram : m.mram.freeFpList = []) {v : LruNode}
    {lru : List LruNode} (hlru : m.lru = v :: lru) {s : Nat} {rest : List Nat}
    (hswp : m.mswp.freeFpList = s :: rest) : SwapInv ns (m.evicted v lru s rest) := by
  have hpool := h.pool
  rw [hswp] at hpool
  have hv : (m.pgd v.pte).present = true := h.nodes.present v (by simp [hlru])
  have hvswap : (m.pgd v.pte).swapped = false := by
    by_contra hne
    rw [h.excl v.pte (by simpa using hne)] at hv
    cases hv
  have hoff : (pteSetSwap (m.pgd v.pte) indexOfActiveMswp s).swpoff = s := by
    have := hpool.free_lt s (by simp)
    rw [swpoff_pteSetSwap, Nat.mod_eq_of_lt (by omega)]
  have hpgd : (m.evicted v lru s rest).pgd =
      Function.update m.pgd v.pte (pteSetSwap (m.pgd v.pte) indexOfActiveMswp s) := by
    simp [Machine.evicted]
  have hfree : (m.evicted v lru s rest).mswp.freeFpList = rest := by
    refine Eq.trans ?_ ((m.setLru lru).setFree_freeFpList .mswp rest)
    exact Machine.copyPage_freeFpList _ _ _ _ _ .mswp
  refine ⟨h.nodes.evicted hlru s rest, ?_, fun r hr => ?_, fun r _ => hram⟩
  · rw [hfree]
    refine hpool.take v.pte ?_ ?_ (fun r hr => ?_)
    · simp [swapOwned, hvswap]
    · simp [swapOwned, hpgd, hoff]
    · simp [swapOwned, hpgd, hr]
  · by_cases hrv : r = v.pte
    · subst hrv; simp [hpgd]
    · rw [hpgd, Function.update_of_ne hrv] at hr ⊢
      exact h.excl r hr

theorem placed (h : SwapInv ns m) {r : PteRef} (hr : (m.pgd r).present = false) (hs : (m.pgd r).swapped = false)
    (f : Nat) (e : Event) : SwapInv ns (m.placed r f e) := by
  have hpgd : (m.placed r f e).pgd = Function.update m.pgd r (pteSetFpn (m.pgd r) f) := by
    simp [Machine.placed, Machine.referenced]
  have hfree : (m.placed r f e).mswp.freeFpList = m.mswp.freeFpList := by simp [Machine.placed, Machine.referenced]
  have hram : (m.placed r f e).mram.freeFpList = m.mram.freeFpList := by simp [Machine.placed, Machine.referenced]
  have hswap : ∀ r', ((m.placed r f e).pgd r').swapped = true → r' ≠ r ∧ (m.pgd r').swapped = true := by
    intro r' hr'
    rw [hpgd] at hr'
    by_cases hrr : r' = r
    · subst hrr; simp at hr'
    · rw [Function.update_of_ne hrr] at hr'
      exact ⟨hrr, hr'⟩
  refine ⟨h.nodes.placed hr f e, ?_, fun r' hr' => ?_, fun r' hr' => ?_⟩
  · have hsame : swapOwned (m.placed r f e).pgd = swapOwned m.pgd := by
      funext r'
      rw [hpgd]
      by_cases hrr : r' = r
      · subst hrr; simp [swapOwned, hs]
      · simp [swapOwned, hrr]
    rw [hfree, hsame]
    exact h.pool
  · obtain ⟨hrr, hsw⟩ := hswap r' hr'
    rw [hpgd, Function.update_of_ne hrr]
    exact h.excl r' hsw
  · rw [hram]
    exact h.full r' (hswap r' hr').2

theorem returned (h : SwapInv ns m) (r : PteRef) (hs : (m.pgd r).swapped = true) (f : Nat) (e : Event) :
    SwapInv ns ((m.setFree .mswp ((m.pgd r).swpoff :: m.mswp.freeFpList)).placed r f e) := by
  have hpgd : ((m.setFree .mswp ((m.pgd r).swpoff :: m.mswp.freeFpList)).placed r f e).pgd =
      Function.update m.pgd r (pteSetFpn (m.pgd r) f) := by
    simp [Machine.placed, Machine.referenced]
  have hfree : ((m.setFree .mswp ((m.pgd r).swpoff :: m.mswp.freeFpList)).placed r f e).mswp.freeFpList =
      (m.pgd r).swpoff :: m.mswp.freeFpList := by
    simp [Machine.placed, Machine.referenced]
  have hram : ((m.setFree .mswp ((m.pgd r).swpoff :: m.mswp.freeFpList)).placed r f e).mram.freeFpList =
      m.mram.freeFpList := by
    simp [Machine.placed, Machine.referenced]
  have hnodes : NodeInv (m.setFree .mswp ((m.pgd r).swpoff :: m.mswp.freeFpList)) := h.nodes.congr rfl rfl
  refine ⟨hnodes.placed (h.excl r hs) f e, ?_, fun r' hr' => ?_, fun r' _ => ?_⟩
  · rw [hfree]
    refine h.pool.release r ?_ ?_ (fun r' hr' => ?_)
    · simp [swapOwned, hs]
    · simp [swapOwned, hpgd]
    · simp [swapOwned, hpgd, hr']
  · rw [hpgd] at hr' ⊢
    by_cases hrr : r' = r
    · subst hrr; simp at hr'
    · rw [Function.update_of_ne hrr] at hr' ⊢
      exact h.excl r' hr'
  · rw [hram]
    exact h.full r hs

end SwapInv

/-- What the history may record for swap frames to stay in order: a page newly mapped was neither present nor
swapped out; a page brought into a victim's frame was swapped out, to the swap frame its frame field names; swap
never ran out. -/
def SwapFine : Event → Prop
  | .mapped _ _ old => old.present = false ∧ old.swapped = false
  | .replaced _ old => old.swapped = true ∧ old.fpn = old.swpoff
  | .outOfSwap => False
  | _ => True

instance : DecidablePred SwapFine
  | .mapped _ _ old => inferInstanceAs (Decidable (old.present = false ∧ old.swapped = false))
  | .replaced _ old => inferInstanceAs (Decidable (old.swapped = true ∧ old.fpn = old.swpoff))
  | .outOfSwap => instDecidableFalse
  | .reference _ | .filled _ _ | .reused _ _ _ | .mapRam _ | .emptyVictim => instDecidableTrue

theorem SwapInv.move {ns : Nat} {held held' : List Nat} {m m' : Machine} (h : SwapInv ns m) (hns : ns ≤ 2097152)
    (hmove : Move held m held' m') (hfine : ∀ e ∈ m'.trace, SwapFine e) : SwapInv ns m' := by
  cases hmove with
  | take hfree => exact h.congr rfl rfl rfl (fun hnil => by rw [hfree] at hnil; cases hnil)
  | evict hfree hlru hs => exact h.evicted hns hfree hlru hs
  | @map _ _ f r vmaid =>
    obtain ⟨hpres, hswap⟩ := hfine (.mapped r vmaid (m.pgd r)) (by simp [Machine.placed, Machine.referenced])
    exact h.placed hpres hswap f _
  | @fill _ _ f rest r hfree hpte =>
    -- RAM is not full, so no page is out
    have hswap : (m.pgd r).swapped = false := by
      by_contra hne
      have := h.full r (by simpa using hne)
      rw [hfree] at this
      cases this
    have h₁ : SwapInv ns ((m.setFree .mram rest).copyPage .mswp (m.pgd r).fpn .mram f) := by
      refine h.congr (by simp) (by simp) ?_ (fun hnil => by rw [hfree] at hnil; cases hnil)
      exact Machine.copyPage_freeFpList _ _ _ _ _ .mswp
    exact h₁.placed (by simpa using hpte) (by simpa using hswap) f _
  | @replace _ _ v lru s rest r hlru hs hpte =>
    obtain ⟨hswap, hoff⟩ := hfine (.replaced r (m.pgd r)) (by simp [Machine.placed, Machine.referenced])
    have hne : r ≠ v.pte := fun e => h.nodes.pte_ne hpte v (by simp [hlru]) e.symm
    have h₁ : SwapInv ns ((m.evicted v lru s rest).copyPage .mswp (m.pgd r).fpn .mram v.fpn) := by
      refine (h.evicted hns (h.full r hswap) hlru hs).congr (by simp) (by simp) ?_ ?_
      · exact Machine.copyPage_freeFpList _ _ _ _ _ .mswp
      · exact (Machine.copyPage_freeFpList _ _ _ _ _ .mram).trans
    have hpgd : ((m.evicted v lru s rest).copyPage .mswp (m.pgd r).fpn .mram v.fpn).pgd r = m.pgd r := by
      simp [Machine.evicted, hne]
    have hfree : ((m.evicted v lru s rest).copyPage .mswp (m.pgd r).fpn .mram v.fpn).mswp.freeFpList = rest := by
      refine (Machine.copyPage_freeFpList _ _ _ _ _ .mswp).trans ?_
      refine Eq.trans ?_ ((m.setLru lru).setFree_freeFpList .mswp rest)
      exact Machine.copyPage_freeFpList _ _ _ _ _ .mswp
    have h₂ := h₁.returned r (by rw [hpgd]; exact hswap) v.fpn (.replaced r (m.pgd r))
    rw [hpgd, hfree, ← hoff] at h₂
    exact h₂
  | touch r hpte =>
    exact ⟨(h.nodes.addLru hpte).congr rfl rfl, h.pool, h.excl, h.full⟩
  | revisit r old hpte hf hlru hwho => exact (h.reorder (Lru.moveToTail_perm old.fpn m.lru)).congr rfl rfl rfl id
  | retouch r hlru hwho => exact h.reorder (Lru.moveToTail_perm _ _)
  | ask k => exact h.congr rfl rfl rfl id
  | lose hlru hs => exact (hfine .outOfSwap (by simp)).elim
  | loseNone hlru hs => exact (hfine .outOfSwap (by simp)).elim

theorem SwapInv.act {ns : Nat} {a b : List Nat × Machine} (hns : ns ≤ 2097152) (hact : Act a b)
    (hfine : ∀ e ∈ b.2.trace, SwapFine e) (h : SwapInv ns a.2) : SwapInv ns b.2 := by
  cases hact with
  | move hmove => exact h.move hns hmove hfine
  | store hstored =>
    obtain ⟨-, mp, hwrite, rfl⟩ := hstored
    refine h.congr (by simp) (by simp) rfl (fun hnil => ?_)
    exact (memphyWrite_freeFpList hwrite).trans hnil
  | setMm m p mm => exact h.congr rfl rfl rfl id

theorem Booted.swap {ns : Nat} {m : Machine} (h : Booted m) (hfree : m.mswp.freeFpList.Perm (List.range ns)) :
    SwapInv ns m where
  nodes := ⟨by simp [h.lru], by simp [h.lru], by simp [h.lru]⟩
  pool := .initial hfree (fun r => by simp [swapOwned, h.pgd])
  excl r hr := by simp [h.pgd] at hr
  full r hr := by simp [h.pgd] at hr

/-- **Each frame of the active swap** is free once or owned by one page that is swapped out, never both and never
neither; and a swapped page is not present. -/
def SwapConserved (ns : Nat) (m : Machine) : Prop :=
  (∀ s < ns, (m.mswp.freeFpList.count s = 1 ∧ ∀ r, (m.pgd r).swapped = true → (m.pgd r).swpoff ≠ s) ∨
      (m.mswp.freeFpList.count s = 0 ∧
        ∃! r, (m.pgd r).swapped = true ∧ (m.pgd r).present = false ∧ (m.pgd r).swpoff = s)) ∧
    (∀ s ∈ m.mswp.freeFpList, s < ns) ∧
      ∀ r, (m.pgd r).swapped = true → (m.pgd r).present = false ∧ (m.pgd r).swpoff < ns

theorem SwapInv.conserved {ns : Nat} {m : Machine} (h : SwapInv ns m) : SwapConserved ns m := by
  have howned : ∀ {r s}, swapOwned m.pgd r = some s ↔ (m.pgd r).swapped = true ∧ (m.pgd r).swpoff = s := by
    intro r s
    unfold swapOwned
    by_cases hs : (m.pgd r).swapped = true <;> simp [hs]
  refine ⟨fun s hs => ?_, h.pool.free_lt, fun r hr => ⟨h.excl r hr, h.pool.owned_lt (howned.2 ⟨hr, rfl⟩)⟩⟩
  rcases h.pool.one_place hs with ⟨hcount, hnone⟩ | ⟨hfree, r, hr, huniq⟩
  · exact Or.inl ⟨hcount, fun r hr hoff => hnone r (howned.2 ⟨hr, hoff⟩)⟩
  · obtain ⟨hswap, hoff⟩ := howned.1 hr
    exact Or.inr ⟨List.count_eq_zero.2 hfree, r, ⟨hswap, h.excl r hswap, hoff⟩,
      fun r' hr' => huniq r' (howned.2 ⟨hr'.1, hr'.2.2⟩)⟩

/-- **Swap frames are conserved** in every run in which each page brought back by replacement is in the swap frame its
frame field names, and each page newly mapped is new. -/
theorem swap_conserved {ns : Nat} {ok : Machine → Pid → Call → Prop} {m₀ m : Machine} (hns : ns ≤ 2097152)
    (hboot : Booted m₀) (hfree : m₀.mswp.freeFpList.Perm (List.range ns)) (hrun : Run ok m₀ m)
    (hfine : ∀ e ∈ m.trace, SwapFine e) : SwapConserved ns m := by
  have hinv : SwapInv ns m := run_keeps SwapFine (fun s => SwapInv ns s.2)
    (fun hact hfine h => h.act hns hact hfine) hrun hfine (hboot.swap hfree)
  exact hinv.conserved

/-- One process, two frames of RAM, four pages of 256 bytes: page 1 goes out to swap frame 1. -/
def fourPages : List (Pid × Call) :=
  [(0, .pgalloc 256 0), (0, .pgalloc 256 1), (0, .pgalloc 256 2), (0, .pgalloc 256 3)]

/-- **Page 1 is read back from swap frame 1**: frame 32, which is its frame field, goes on the free list a second
time. -/
theorem swap_conserved_fails : ∃ m rets, runCalls (fun _ _ _ => true) 10 (fourPages ++ [(0, .pgread 1 0)])
      (boot 512 16384 4096) = some (m, rets) ∧ Run anyCall (boot 512 16384 4096) m ∧ (∀ ret ∈ rets, ret.1 = 0) ∧
    Event.outOfSwap ∉ m.trace ∧ ¬ SwapConserved 64 m := by
  have hsome : (runCalls (fun _ _ _ => true) 10 (fourPages ++ [(0, .pgread 1 0)]) (boot 512 16384 4096)).any
      (fun q => (∀ ret ∈ q.2, ret.1 = 0) ∧ Event.outOfSwap ∉ q.1.trace ∧ q.1.mswp.freeFpList.count 32 = 2) = true := by
    decide +kernel
  obtain ⟨⟨m, rets⟩, hm, hq⟩ := (Option.any_eq_true _ _).1 hsome
  simp only [decide_eq_true_iff] at hq
  refine ⟨m, rets, hm, run_of_runCalls (fun _ _ _ _ => trivial) _ hm, hq.1, hq.2.1, fun hcons => ?_⟩
  rcases hcons.1 32 (by decide) with ⟨hone, -⟩ | ⟨hzero, -⟩
  · rw [hq.2.2] at hone; cases hone
  · rw [hq.2.2] at hzero; cases hzero

/-- Page 0 goes out to swap frame 0 and comes back. -/
theorem swap_conserved_frameZero : ∃ m, Run anyCall (boot 512 16384 4096) m ∧ Event.replaced ⟨0, 0⟩
    (pteSetSwap 0x80000000#32 0 0) ∈ m.trace ∧
    SwapConserved 64 m := by
  have hsome : (runCalls (fun _ _ _ => true) 10 [(0, .pgalloc 256 0), (0, .pgalloc 512 1), (0, .pgread 0 0)]
      (boot 512 16384 4096)).any
      (fun q => Event.replaced ⟨0, 0⟩ (pteSetSwap 0x80000000#32 0 0) ∈ q.1.trace ∧
        ∀ e ∈ q.1.trace, SwapFine e) = true := by
    decide +kernel
  obtain ⟨⟨m, rets⟩, hm, hq⟩ := (Option.any_eq_true _ _).1 hsome
  simp only [decide_eq_true_iff] at hq
  have hrun : Run anyCall (boot 512 16384 4096) m := run_of_runCalls (fun _ _ _ _ => trivial) _ hm
  refine ⟨m, hrun, hq.1, swap_conserved (by decide) (booted_boot 512 16384 4096) ?_ hrun hq.2⟩
  rw [show (boot 512 16384 4096).mswp.freeFpList = List.range 64 from rfl]

end OsSim
