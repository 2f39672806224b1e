import OsSim.Lib.Heap
import OsSim.Lru
/-!
# LruLinks — the LRU list as it lies in memory (`src/mm-vm.c`, `LRU`)

`Lru` has the list as the list of its nodes.  Here it is what the code works on: nodes in memory with a link each
way, and the two pointers `lru_head` and `lru_tail`.  The three operations follow and redirect these pointers, with
a case each for a node at the head, at the tail, alone and in between.  `Rep` says which nodes are on the list;
under it each operation does what its namesake in `Lru` does (`updateLruLst_rep`, `addLruPage_rep`,
`findLruVictimPage_rep`).

The nodes are never freed.  `LRU_lock` is taken first and released on every path, so an operation is one step.
-/
namespace OsSim

open Heap Linked

structure LruCell where
  lruNext : Option Nat
  lruPre : Option Nat
  pte : PteRef
  fpn : Nat
  pgn : Nat

def LruCell.node (c : LruCell) : LruNode := ⟨c.pte, c.fpn, c.pgn⟩

structure LruHeap where
  mem : Mem LruCell
  lruHead : Option Nat
  lruTail : Option Nat

namespace LruHeap

/-! ## The operations -/

def setNext (s : LruHeap) (p v : Option Nat) : Except Wild LruHeap :=
  (s.mem.store p (fun c => { c with lruNext := v })).map (fun mem => { s with mem := mem })

def setPre (s : LruHeap) (p v : Option Nat) : Except Wild LruHeap :=
  (s.mem.store p (fun c => { c with lruPre := v })).map (fun mem => { s with mem := mem })

def linkTail (s : LruHeap) (p : Option Nat) : Except Wild LruHeap := do
  let s ← s.setNext s.lruTail p
  let s ← s.setPre p s.lruTail
  let s ← s.setNext p none
  return { s with lruTail := p }

/-- The node that `update_LRU_lst` or `add_LRU_page` found is unlinked and linked behind `lru_tail`. -/
def moveNode (s : LruHeap) (p : Option Nat) : Except Wild LruHeap := do
  if p = s.lruHead then
    if s.lruHead = s.lruTail then return s
    let c ← s.mem.load s.lruHead
    let s := { s with lruHead := c.lruNext }
    let s ← s.setPre s.lruHead none
    s.linkTail p
  else if p = s.lruTail then return s
  else
    let c ← s.mem.load p
    let s ← s.setNext c.lruPre c.lruNext
    let c ← s.mem.load p
    let s ← s.setPre c.lruNext c.lruPre
    s.linkTail p

/-- The walk of `update_LRU_lst` is at the last node, or at one with the frame number. -/
def stopsUpdate (fpn : Nat) (m : Mem LruCell) (p : Option Nat) : Except Wild Bool := do
  let c ← m.load p
  return c.lruNext = none || c.fpn = fpn

/-- The walk of `add_LRU_page` is past the last node, or at one with the frame number. -/
def stopsAdd (fpn : Nat) (m : Mem LruCell) (p : Option Nat) : Except Wild Bool := do
  if p = none then return true
  let c ← m.load p
  return c.fpn = fpn

/-- `update_LRU_lst` on an entry with this frame field -/
def updateLruLst (s : LruHeap) (fpn : Nat) : Except Wild LruHeap := do
  let p ← s.mem.walk (·.lruNext) (stopsUpdate fpn) (s.mem.live.length + 1) s.lruHead
  s.moveNode p

/-- `add_LRU_page`: `malloc` returns the block `tmp`, which holds `junk`. -/
def addLruPage (s : LruHeap) (pte : PteRef) (entry : Pte) (pgn : Nat) (tmp : Nat) (junk : LruCell) :
    Except Wild LruHeap := do
  let s := { s with mem := s.mem.malloc tmp { junk with pte := pte, fpn := entry.fpn, pgn := pgn } }
  if s.lruHead = none then
    let s := { s with lruHead := some tmp }
    let s := { s with lruTail := s.lruHead }
    let s ← s.setPre (some tmp) none
    s.setNext (some tmp) none
  else
    match ← s.mem.walk (·.lruNext) (stopsAdd entry.fpn) (s.mem.live.length + 1) s.lruHead with
    | some p => s.moveNode (some p)
    | none => s.linkTail (some tmp)

/-- `find_LRU_victim_page`: the node the outputs are taken from, or `none` for the return of -1. -/
def findLruVictimPage (s : LruHeap) : Except Wild (LruHeap × Option LruNode) := do
  if s.lruHead = none then return (s, none)
  let temp := s.lruHead
  let c ← s.mem.load temp
  if s.lruHead = s.lruTail then return ({ s with lruHead := none, lruTail := none }, some c.node)
  let s := { s with lruHead := c.lruNext }
  let s ← if s.lruHead ≠ none then s.setPre s.lruHead none else pure s
  let s ← s.setNext temp none
  return (s, some c.node)

/-! ## The links, as maps -/

def next (s : LruHeap) (a : Nat) : Option Nat := (s.mem.cell a).lruNext
def pre (s : LruHeap) (a : Nat) : Option Nat := (s.mem.cell a).lruPre
def node (s : LruHeap) (a : Nat) : LruNode := (s.mem.cell a).node

def withNext (s : LruHeap) (a : Nat) (v : Option Nat) : LruHeap :=
  { s with mem := { s.mem with cell := Function.update s.mem.cell a { s.mem.cell a with lruNext := v } } }

def withPre (s : LruHeap) (a : Nat) (v : Option Nat) : LruHeap :=
  { s with mem := { s.mem with cell := Function.update s.mem.cell a { s.mem.cell a with lruPre := v } } }

section Fields

variable (s : LruHeap) (a : Nat) (v : Option Nat)

@[simp] theorem withNext_live : (s.withNext a v).mem.live = s.mem.live := rfl
@[simp] theorem withPre_live : (s.withPre a v).mem.live = s.mem.live := rfl
@[simp] theorem withNext_head : (s.withNext a v).lruHead = s.lruHead := rfl
@[simp] theorem withPre_head : (s.withPre a v).lruHead = s.lruHead := rfl
@[simp] theorem withNext_tail : (s.withNext a v).lruTail = s.lruTail := rfl
@[simp] theorem withPre_tail : (s.withPre a v).lruTail = s.lruTail := rfl

@[simp] theorem withNext_next : (s.withNext a v).next = Function.update s.next a v := by
  funext b
  by_cases h : b = a
  · subst h; simp [withNext, next]
  · simp [withNext, next, h]

@[simp] theorem withPre_pre : (s.withPre a v).pre = Function.update s.pre a v := by
  funext b
  by_cases h : b = a
  · subst h; simp [withPre, pre]
  · simp [withPre, pre, h]

@[simp] theorem withNext_pre : (s.withNext a v).pre = s.pre := by
  funext b
  by_cases h : b = a
  · subst h; simp [withNext, pre]
  · simp [withNext, pre, h]

@[simp] theorem withPre_next : (s.withPre a v).next = s.next := by
  funext b
  by_cases h : b = a
  · subst h; simp [withPre, next]
  · simp [withPre, next, h]

@[simp] theorem withNext_node : (s.withNext a v).node = s.node := by
  funext b
  by_cases h : b = a
  · subst h; simp [withNext, node, LruCell.node]
  · simp [withNext, node, h]

@[simp] theorem withPre_node : (s.withPre a v).node = s.node := by
  funext b
  by_cases h : b = a
  · subst h; simp [withPre, node, LruCell.node]
  · simp [withPre, node, h]

variable {s a}

theorem setNext_live (h : a ∈ s.mem.live) : s.setNext (some a) v = .ok (s.withNext a v) := by
  rw [setNext, Mem.store_live h]
  rfl

theorem setPre_live (h : a ∈ s.mem.live) : s.setPre (some a) v = .ok (s.withPre a v) := by
  rw [setPre, Mem.store_live h]
  rfl

end Fields

/-! ## The list in memory -/

/-- **The nodes `as` are the list**: doubly linked from `lru_head` to `lru_tail`, all of them live. -/
structure Rep (s : LruHeap) (as : List Nat) : Prop where
  linked : Doubly s.next s.pre s.lruHead s.lruTail as
  live : ∀ a ∈ as, a ∈ s.mem.live

def nodes (s : LruHeap) (as : List Nat) : List LruNode := as.map s.node

section Links

variable {s : LruHeap} {as bs : List Nat} {a b c : Nat}

theorem Rep.chain (h : s.Rep as) : s.mem.Chain (·.lruNext) s.lruHead as := ⟨h.linked.forth, h.live⟩

theorem linkTail_rep (h : s.Rep as) (hne : as ≠ []) (ha : a ∉ as) (hlive : a ∈ s.mem.live) :
    ∃ s', s.linkTail (some a) = .ok s' ∧ s'.Rep (as ++ [a]) ∧ s'.node = s.node ∧ s'.mem.live = s.mem.live := by
  obtain ⟨as, b, rfl⟩ := (List.eq_nil_or_concat' as).resolve_left hne
  have htail : s.lruTail = some b := by rw [h.linked.tail_eq, List.getLast?_concat]
  have hb : b ∈ s.mem.live := h.live b (by simp)
  refine ⟨{ ((s.withNext b (some a)).withPre a s.lruTail).withNext a none with lruTail := some a }, ?_, ⟨?_, ?_⟩, ?_, rfl⟩
  · have h2 : a ∈ (s.withNext b (some a)).mem.live := hlive
    have h3 : a ∈ ((s.withNext b (some a)).withPre a (some b)).mem.live := hlive
    simp only [linkTail, htail, setNext_live _ hb, withNext_tail, bind, Except.bind, setPre_live _ h2, setNext_live _ h3]
    rfl
  · have hdoubly := h.linked.pushBack ha htail
    have hn : (((s.withNext b (some a)).withPre a s.lruTail).withNext a none).next =
        Function.update (Function.update s.next b (some a)) a none := by simp
    have hp : (((s.withNext b (some a)).withPre a s.lruTail).withNext a none).pre =
        Function.update s.pre a s.lruTail := by
      simp
    rw [← hn, ← hp] at hdoubly
    exact hdoubly
  · intro x hx
    rcases List.mem_append.1 hx with hx | hx
    · exact h.live x hx
    · rw [List.mem_singleton.1 hx]
      exact hlive
  · change (((s.withNext b (some a)).withPre a s.lruTail).withNext a none).node = s.node
    simp

theorem Rep.dropHead_rep (h : s.Rep (a :: b :: as)) :
    { s.withPre b none with lruHead := some b }.Rep (b :: as) := by
  refine ⟨?_, fun x hx => h.live x (List.mem_cons_of_mem a hx)⟩
  have hdoubly := h.linked.popFront
  have hn := withPre_next s b none
  have hp := withPre_pre s b none
  rw [← hn, ← hp] at hdoubly
  exact hdoubly

theorem Rep.cutOut_rep (h : s.Rep (as ++ b :: a :: c :: bs)) :
    ((s.withNext b (some c)).withPre c (some b)).Rep (as ++ b :: c :: bs) := by
  refine ⟨?_, fun x hx => h.live x ?_⟩
  · have hdoubly := h.linked.unlink
    have hn : ((s.withNext b (some c)).withPre c (some b)).next = Function.update s.next b (some c) := by simp
    have hp : ((s.withNext b (some c)).withPre c (some b)).pre = Function.update s.pre c (some b) := by simp
    rw [← hn, ← hp] at hdoubly
    exact hdoubly
  · simp only [List.mem_append, List.mem_cons] at hx ⊢
    rcases hx with hx | hx | hx | hx <;> simp [hx]

theorem Rep.head_ne_tail (h : s.Rep (a :: (as ++ [b]))) : s.lruHead ≠ s.lruTail := by
  have hlast : s.lruTail = some b := by rw [h.linked.tail_eq, ← List.cons_append, List.getLast?_concat]
  rw [h.linked.head_eq, hlast]
  intro e
  obtain rfl : a = b := Option.some.inj e
  exact (List.nodup_cons.1 h.linked.nodup).1 (by simp)

/-- **The node found goes behind the others**, from wherever it is. -/
theorem moveNode_rep (h : s.Rep (as ++ a :: bs)) :
    ∃ s', s.moveNode (some a) = .ok s' ∧ s'.Rep (as ++ bs ++ [a]) ∧ s'.node = s.node ∧ s'.mem.live = s.mem.live := by
  have hlive : a ∈ s.mem.live := h.live a (by simp)
  have hnot : a ∉ as ++ bs := (List.nodup_cons.1 (List.nodup_middle.1 h.linked.nodup)).1
  rcases List.eq_nil_or_concat' as with rfl | ⟨as, b, rfl⟩
  · have hhead : s.lruHead = some a := h.linked.head_eq
    rcases List.eq_nil_or_concat' bs with rfl | ⟨bs, t, rfl⟩
    · -- alone: the list stays
      have htail : s.lruTail = some a := h.linked.tail_eq
      refine ⟨s, ?_, h, rfl, rfl⟩
      rw [moveNode, if_pos hhead.symm, if_pos (hhead.trans htail.symm)]
      rfl
    · -- at the head
      have hne : s.lruHead ≠ s.lruTail := h.head_ne_tail
      obtain ⟨c, cs, hcs⟩ : ∃ c cs, bs ++ [t] = c :: cs := List.exists_cons_of_ne_nil (by simp)
      rw [hcs] at h hnot ⊢
      have hc : c ∈ s.mem.live := h.live c (by simp)
      have hnext : (s.mem.cell a).lruNext = some c := h.linked.forth.2.1
      obtain ⟨s', hs', hrep, hnode, hlive'⟩ := linkTail_rep h.dropHead_rep (List.cons_ne_nil c cs) hnot hlive
      refine ⟨s', ?_, hrep, hnode.trans (withPre_node s c none), hlive'⟩
      rw [moveNode, if_pos hhead.symm, if_neg hne, hhead, Mem.load_live hlive]
      simp only [bind, Except.bind, hnext]
      have hset : { s with lruHead := some c }.setPre (some c) none =
          .ok ({ s with lruHead := some c }.withPre c none) := setPre_live none hc
      rw [hset]
      exact hs'
  · have hmid : s.Rep (as ++ b :: a :: bs) := by rwa [List.append_assoc] at h
    have hhead : some a ≠ s.lruHead := by
      intro e
      rw [h.linked.head_eq, List.head?_append_of_ne_nil _ (by simp)] at e
      exact hnot (List.mem_append_left _ (List.mem_of_head? e.symm))
    cases bs with
    | nil =>
      -- at the tail: the list stays
      have htail : s.lruTail = some a := by rw [h.linked.tail_eq, List.getLast?_concat]
      refine ⟨s, ?_, by simpa using h, rfl, rfl⟩
      rw [moveNode, if_neg hhead, if_pos htail.symm]
      rfl
    | cons c bs =>
      -- in between
      obtain ⟨hnb, hpa⟩ := hmid.linked.neighbours
      have hmid' : s.Rep ((as ++ [b]) ++ a :: c :: bs) := h
      obtain ⟨hna, hpc⟩ := hmid'.linked.neighbours
      have hb : b ∈ s.mem.live := h.live b (by simp)
      have hc : c ∈ s.mem.live := h.live c (by simp)
      have hab : a ≠ b := fun e => hnot (by simp [e])
      have htail : some a ≠ s.lruTail := by
        intro e
        rw [h.linked.tail_eq, List.getLast?_append_of_ne_nil _ (by simp), List.getLast?_cons_cons] at e
        exact hnot (List.mem_append_right _ (List.mem_of_getLast? e.symm))
      have hnot' : a ∉ as ++ b :: c :: bs := by simpa using hnot
      obtain ⟨s', hs', hrep, hnode, hlive'⟩ := linkTail_rep hmid.cutOut_rep (by simp) hnot' hlive
      refine ⟨s', ?_, ?_, hnode.trans (by simp), hlive'⟩
      · rw [moveNode, if_neg hhead, if_neg htail, Mem.load_live hlive]
        have hpre : (s.mem.cell a).lruPre = some b := hpa
        have hnext : (s.mem.cell a).lruNext = some c := hna
        have hload : (s.withNext b (some c)).mem.load (some a) = .ok (s.mem.cell a) := by
          have hsame : (s.withNext b (some c)).mem.cell a = s.mem.cell a := Function.update_of_ne hab _ _
          rw [Mem.load_live (show a ∈ (s.withNext b (some c)).mem.live from hlive), hsame]
        have hset : (s.withNext b (some c)).setPre (some c) (some b) =
          .ok ((s.withNext b (some c)).withPre c (some b)) := setPre_live (some b) hc
        simp only [bind, Except.bind, hpre, hnext, setNext_live (some c) hb, hload, hset]
        exact hs'
      · rwa [List.append_assoc as [b], List.singleton_append]

end Links

/-! ## What each operation does to the list -/

section Operations

variable {s : LruHeap} {as : List Nat}

/-- Where a walk for a frame number is over: at the first node with it, or at the last node. -/
theorem split_at_frame (f : Nat) : ∀ {as : List Nat}, as ≠ [] → ∃ x a y, as = x ++ a :: y ∧
    (∀ b ∈ x, (s.node b).fpn ≠ f) ∧ ((s.node a).fpn = f ∨ y = [])
  | [], h => absurd rfl h
  | [a], _ => ⟨[], a, [], rfl, fun b hb => (nomatch hb), Or.inr rfl⟩
  | a :: b :: as, _ => by
    by_cases ha : (s.node a).fpn = f
    · exact ⟨[], a, b :: as, rfl, fun b hb => (nomatch hb), Or.inl ha⟩
    · obtain ⟨x, c, y, heq, hx, hc⟩ := split_at_frame f (List.cons_ne_nil b as)
      exact ⟨a :: x, c, y, by rw [heq]; rfl, List.forall_mem_cons.2 ⟨ha, hx⟩, hc⟩

theorem frames_notMem {f : Nat} {x : List Nat} (h : ∀ b ∈ x, (s.node b).fpn ≠ f) : f ∉ (s.nodes x).map (·.fpn) := by
  intro hm
  simp only [nodes, List.map_map, List.mem_map, Function.comp] at hm
  obtain ⟨b, hb, e⟩ := hm
  exact h b hb e

theorem stopsUpdate_live {a : Nat} (ha : a ∈ s.mem.live) (fpn : Nat) :
    stopsUpdate fpn s.mem (some a) = .ok (decide (s.next a = none) || decide ((s.node a).fpn = fpn)) := by
  simp only [stopsUpdate, Mem.load_live ha, bind, Except.bind]
  rfl

theorem stopsAdd_live {a : Nat} (ha : a ∈ s.mem.live) (fpn : Nat) :
    stopsAdd fpn s.mem (some a) = .ok (decide ((s.node a).fpn = fpn)) := by
  simp only [stopsAdd, Mem.load_live ha, bind, Except.bind]
  rfl

theorem walk_listed {x y : List Nat} {a : Nat} {fpn : Nat} (h : s.Rep (x ++ a :: y))
    (hx : ∀ b ∈ x, (s.node b).fpn ≠ fpn) (ha : (s.node a).fpn = fpn) :
    s.mem.walk (·.lruNext) (stopsAdd fpn) (s.mem.live.length + 1) s.lruHead = .ok (some a) := by
  have hstop : stopsAdd fpn s.mem (some a) = .ok true := by
    rw [stopsAdd_live (h.live a (by simp))]
    simp [ha]
  have hpass : ∀ b ∈ x, b ∈ s.mem.live ∧ stopsAdd fpn s.mem (some b) = .ok false := fun b hb => by
    have hblive := h.live b (List.mem_append_left _ hb)
    refine ⟨hblive, ?_⟩
    rw [stopsAdd_live hblive]
    simp [hx b hb]
  have hlen := h.chain.length_le
  rw [List.length_append] at hlen
  exact Mem.walk_seg hstop (seg_append_cons.1 h.linked.forth).1 hpass (by omega)

theorem walk_unlisted {fpn : Nat} (h : s.Rep as) (hf : fpn ∉ (s.nodes as).map (·.fpn)) :
    s.mem.walk (·.lruNext) (stopsAdd fpn) (s.mem.live.length + 1) s.lruHead = .ok none := by
  have hpass : ∀ b ∈ as, b ∈ s.mem.live ∧ stopsAdd fpn s.mem (some b) = .ok false := fun b hb => by
    have hfpn : (s.node b).fpn ≠ fpn := fun e => hf (List.mem_map.2 ⟨s.node b, List.mem_map.2 ⟨b, hb, rfl⟩, e⟩)
    refine ⟨h.live b hb, ?_⟩
    rw [stopsAdd_live (h.live b hb)]
    simp [hfpn]
  exact Mem.walk_seg rfl h.linked.forth hpass (Nat.lt_succ_of_le h.chain.length_le)

theorem nodes_moved {x y : List Nat} {a : Nat} {fpn : Nat} (hx : ∀ b ∈ x, (s.node b).fpn ≠ fpn)
    (ha : (s.node a).fpn = fpn) : s.nodes (x ++ y ++ [a]) = Lru.moveToTail fpn (s.nodes (x ++ a :: y)) := by
  have hparts : s.nodes (x ++ a :: y) = s.nodes x ++ s.node a :: s.nodes y := by simp [nodes]
  rw [hparts, Lru.moveToTail_append ha (frames_notMem hx)]
  simp [nodes]

/-- **`update_LRU_lst`** on a list that is not empty. -/
theorem updateLruLst_rep (h : s.Rep as) (hne : as ≠ []) (fpn : Nat) : ∃ s' as', s.updateLruLst fpn = .ok s' ∧
    s'.Rep as' ∧ s'.nodes as' = Lru.moveToTail fpn (s.nodes as) ∧ s'.mem.live = s.mem.live := by
  obtain ⟨x, a, y, rfl, hx, ha⟩ := @split_at_frame s fpn as hne
  have hlive : a ∈ s.mem.live := h.live a (by simp)
  have hstop : stopsUpdate fpn s.mem (some a) = .ok true := by
    rw [stopsUpdate_live hlive]
    rcases ha with ha | rfl
    · simp [ha]
    · simp [h.linked.next_tail]
  have hpass : ∀ b ∈ x, b ∈ s.mem.live ∧ stopsUpdate fpn s.mem (some b) = .ok false := by
    intro b hb
    have hblive := h.live b (List.mem_append_left _ hb)
    obtain ⟨u, v, rfl⟩ := List.append_of_mem hb
    -- a node before the one found is not the last
    obtain ⟨c, hc⟩ : ∃ c, s.next b = some c := by
      have hlinked := h.linked
      rw [List.append_assoc, List.cons_append] at hlinked
      obtain ⟨c, w, hcw⟩ : ∃ c w, v ++ a :: y = c :: w := List.exists_cons_of_ne_nil (by simp)
      rw [hcw] at hlinked
      exact ⟨c, hlinked.neighbours.1⟩
    refine ⟨hblive, ?_⟩
    rw [stopsUpdate_live hblive]
    simp [hc, hx b hb]
  have hlen : x.length < s.mem.live.length + 1 := by
    have := h.chain.length_le
    rw [List.length_append] at this
    omega
  have hwalk := Mem.walk_seg hstop (seg_append_cons.1 h.linked.forth).1 hpass hlen
  obtain ⟨s', hs', hrep, hnode, hlive'⟩ := moveNode_rep h
  refine ⟨s', x ++ y ++ [a], ?_, hrep, ?_, hlive'⟩
  · rw [updateLruLst, hwalk]
    exact hs'
  · rw [nodes, hnode]
    change s.nodes (x ++ y ++ [a]) = Lru.moveToTail fpn (s.nodes (x ++ a :: y))
    by_cases hf : (s.node a).fpn = fpn
    · exact nodes_moved hx hf
    · obtain rfl := ha.resolve_left hf
      rw [Lru.moveToTail_of_not_mem (frames_notMem (fun b hb => ?_))]
      · simp [nodes]
      · rcases List.mem_append.1 hb with hb | hb
        · exact hx b hb
        · rw [List.mem_singleton.1 hb]
          exact hf

theorem Rep.malloc (h : s.Rep as) {tmp : Nat} (hfresh : tmp ∉ s.mem.live) (c : LruCell) :
    { s with mem := s.mem.malloc tmp c }.Rep as ∧ { s with mem := s.mem.malloc tmp c }.nodes as = s.nodes as := by
  have hcell : ∀ a ∈ as, (s.mem.malloc tmp c).cell a = s.mem.cell a := fun a ha =>
    Mem.malloc_of_ne (h.chain.ne_of_fresh hfresh a ha) c
  refine ⟨⟨h.linked.congr (fun a ha => ?_) (fun a ha => ?_), fun a ha => List.mem_cons_of_mem tmp (h.live a ha)⟩, ?_⟩
  · exact congrArg LruCell.lruNext (hcell a ha)
  · exact congrArg LruCell.lruPre (hcell a ha)
  · exact List.map_congr_left (fun a ha => congrArg LruCell.node (hcell a ha))

theorem firstNode_rep {tmp : Nat} (hlive : tmp ∈ s.mem.live) :
    ∃ s', (do
        let s ← { s with lruHead := some tmp, lruTail := some tmp }.setPre (some tmp) none
        s.setNext (some tmp) none) = Except.ok s' ∧ s'.Rep [tmp] ∧ s'.nodes [tmp] = [s.node tmp] ∧
      s'.mem.live = s.mem.live := by
  refine ⟨({ s with lruHead := some tmp, lruTail := some tmp }.withPre tmp none).withNext tmp none, ?_,
    ⟨⟨⟨rfl, ?_⟩, ⟨rfl, ?_⟩⟩, ?_⟩, ?_, rfl⟩
  · have h1 : tmp ∈ { s with lruHead := some tmp, lruTail := some tmp }.mem.live := hlive
    have h2 : tmp ∈ ({ s with lruHead := some tmp, lruTail := some tmp }.withPre tmp none).mem.live := hlive
    simp only [bind, Except.bind, setPre_live none h1, setNext_live none h2]
  · rw [withNext_next]
    exact Function.update_self _ _ _
  · rw [withNext_pre, withPre_pre]
    exact Function.update_self _ _ _
  · exact fun b hb => by rw [List.mem_singleton.1 hb]; exact hlive
  · rw [nodes, withNext_node, withPre_node]
    rfl

/-- **`add_LRU_page`**, whatever the block `malloc` returned held, and whatever the entry. -/
theorem addLruPage_rep (h : s.Rep as) (pte : PteRef) (entry : Pte) (pgn : Nat) {tmp : Nat} (hfresh : tmp ∉ s.mem.live)
    (junk : LruCell) : ∃ s' as', s.addLruPage pte entry pgn tmp junk = .ok s' ∧ s'.Rep as' ∧
      s'.nodes as' = Lru.addLruPage (s.nodes as) ⟨pte, entry.fpn, pgn⟩ ∧ s'.mem.live = tmp :: s.mem.live := by
  obtain ⟨hrep, hnodes⟩ := h.malloc hfresh { junk with pte := pte, fpn := entry.fpn, pgn := pgn }
  have hhead : s.lruHead = none ↔ as = [] := h.linked.forth.eq_none
  have htmp : tmp ∉ as := fun hm => hfresh (h.live tmp hm)
  have hnew : { s with mem := s.mem.malloc tmp { junk with pte := pte, fpn := entry.fpn, pgn := pgn } }.node tmp =
      ⟨pte, entry.fpn, pgn⟩ := by simp [node, LruCell.node]
  unfold addLruPage
  generalize hs₀ : { s with mem := s.mem.malloc tmp { junk with pte := pte, fpn := entry.fpn, pgn := pgn } } = s₀ at *
  have hhead₀ : s₀.lruHead = s.lruHead := by rw [← hs₀]
  have hlive₀ : s₀.mem.live = tmp :: s.mem.live := by rw [← hs₀]; rfl
  have htmp₀ : tmp ∈ s₀.mem.live := by rw [hlive₀]; exact List.mem_cons_self
  rw [← hnodes, ← hlive₀]
  simp only [hhead₀]
  by_cases hnil : as = []
  · subst hnil
    rw [if_pos (hhead.2 rfl)]
    obtain ⟨s', hs', hrep', hfirst, hlive'⟩ := firstNode_rep htmp₀
    refine ⟨s', [tmp], hs', hrep', ?_, hlive'⟩
    rw [hfirst, hnew]
    rfl
  · rw [if_neg (fun e => hnil (hhead.1 e))]
    by_cases hf : entry.fpn ∈ (s₀.nodes as).map (·.fpn)
    · -- the frame is listed: the walk is over at its node
      obtain ⟨x, a, y, rfl, hx, ha⟩ := @split_at_frame s₀ entry.fpn as hnil
      have hfpn : (s₀.node a).fpn = entry.fpn := by
        rcases ha with ha | rfl
        · exact ha
        · rw [nodes, List.map_append, List.map_append, List.mem_append] at hf
          rcases hf with hf | hf
          · exact absurd hf (frames_notMem hx)
          · exact (List.mem_singleton.1 hf).symm
      have hwalk := walk_listed hrep hx hfpn
      rw [hhead₀] at hwalk
      obtain ⟨s', hs', hrep', hnode, hlive'⟩ := moveNode_rep hrep
      refine ⟨s', x ++ y ++ [a], ?_, hrep', ?_, hlive'⟩
      · simp only [bind, Except.bind, hwalk]
        exact hs'
      · rw [nodes, hnode, Lru.addLruPage_of_mem hf]
        exact nodes_moved hx hfpn
    · -- the frame is not listed: the walk runs off the end
      have hwalk := walk_unlisted hrep hf
      rw [hhead₀] at hwalk
      obtain ⟨s', hs', hrep', hnode, hlive'⟩ := linkTail_rep hrep hnil htmp htmp₀
      refine ⟨s', as ++ [tmp], ?_, hrep', ?_, hlive'⟩
      · simp only [bind, Except.bind, hwalk]
        exact hs'
      · rw [nodes, hnode, Lru.addLruPage_of_not_mem hf, List.map_append, List.map_singleton, hnew]
        rfl

/-- **`find_LRU_victim_page`** takes the first node off. -/
theorem findLruVictimPage_rep (h : s.Rep as) : ∃ s' as',
    s.findLruVictimPage = .ok (s', (Lru.findLruVictimPage (s.nodes as)).2) ∧ s'.Rep as' ∧
      s'.nodes as' = (Lru.findLruVictimPage (s.nodes as)).1 ∧ s'.mem.live = s.mem.live := by
  match as, h with
  | [], h =>
    have hhead : s.lruHead = none := h.linked.head_eq
    exact ⟨s, [], by rw [findLruVictimPage, if_pos hhead]; rfl, h, rfl, rfl⟩
  | [a], h =>
    have hhead : s.lruHead = some a := h.linked.head_eq
    have htail : s.lruTail = some a := h.linked.tail_eq
    have hlive : a ∈ s.mem.live := h.live a (by simp)
    refine ⟨{ s with lruHead := none, lruTail := none }, [], ?_, ⟨.empty _ _, fun b hb => nomatch hb⟩, rfl, rfl⟩
    simp only [findLruVictimPage, hhead, htail, reduceCtorEq, if_false, Mem.load_live hlive, bind, Except.bind, if_true]
    rfl
  | a :: b :: as, h =>
    have hhead : s.lruHead = some a := h.linked.head_eq
    have hne : s.lruHead ≠ s.lruTail := by
      obtain ⟨l, t, hl⟩ := (List.eq_nil_or_concat' (b :: as)).resolve_left (List.cons_ne_nil b as)
      rw [hl] at h
      exact h.head_ne_tail
    rw [hhead] at hne
    have hlive : a ∈ s.mem.live := h.live a (by simp)
    have hb : b ∈ s.mem.live := h.live b (by simp)
    have hnot : a ∉ b :: as := (List.nodup_cons.1 h.linked.nodup).1
    have hnext : (s.mem.cell a).lruNext = some b := h.linked.forth.2.1
    have hdrop := h.dropHead_rep
    refine ⟨({ s.withPre b none with lruHead := some b }).withNext a none, b :: as, ?_, ⟨?_, hdrop.live⟩, ?_, rfl⟩
    · have hset : { s with lruHead := some b }.setPre (some b) none =
        .ok ({ s with lruHead := some b }.withPre b none) := setPre_live none hb
      have hset' : ({ s with lruHead := some b }.withPre b none).setNext (some a) none =
        .ok (({ s with lruHead := some b }.withPre b none).withNext a none) := setNext_live none hlive
      simp only [findLruVictimPage, hhead, reduceCtorEq, if_false, Mem.load_live hlive, bind, Except.bind, hne, hnext,
        ne_eq, not_false_eq_true, if_true, hset, hset']
      rfl
    · refine hdrop.linked.congr (fun c hc => ?_) (fun c _ => ?_)
      · rw [withNext_next]
        exact Function.update_of_ne (fun e : c = a => hnot (e ▸ hc)) _ _
      · rw [withNext_pre]
    · rw [nodes, withNext_node]
      change (b :: as).map (s.withPre b none).node = _
      rw [withPre_node]
      rfl

end Operations

end LruHeap

end OsSim
