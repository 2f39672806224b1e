import OsSim.Lib.Recency
import OsSim.LruLinks
/-!
# LruQueue — what the LRU list is for (`src/mm-vm.c`, `LRU`)

The list is a queue of frames by recency: a frame goes to the end when it is added, and when its entry is updated
while it is listed; the victim is the one at the front.  `LruRun` is any sequence of the three calls on the list in
memory, from an empty one; what is on the list after it, and in which order, is read off the calls (`NotTaken`,
`touches`).
-/
namespace OsSim

open Heap Linked Recency

/-! ## The frames of the list -/

namespace Lru

variable {l : List LruNode} {f : Nat}

theorem frames_moveToTail (hnodup : (l.map (·.fpn)).Nodup) (hf : f ∈ l.map (·.fpn)) :
    (moveToTail f l).map (·.fpn) = (l.map (·.fpn)).filter (fun g => g ≠ f) ++ [f] := by
  obtain ⟨p, hp, rfl⟩ := List.mem_map.1 hf
  obtain ⟨a, b, rfl⟩ := List.append_of_mem hp
  rw [List.map_append, List.map_cons] at hnodup
  have hnot := (List.nodup_cons.1 (List.nodup_middle.1 hnodup)).1
  rw [List.mem_append, not_or] at hnot
  have hkeep : ∀ {c : List Nat}, p.fpn ∉ c → c.filter (fun g => g ≠ p.fpn) = c := fun hc =>
    List.filter_eq_self.2 (fun g hg => by simpa using fun e : g = p.fpn => hc (e ▸ hg))
  have hothers : ((a ++ p :: b).map (·.fpn)).filter (fun g => g ≠ p.fpn) = a.map (·.fpn) ++ b.map (·.fpn) := by
    rw [List.map_append, List.map_cons, List.filter_append, hkeep hnot.1, List.filter_cons_of_neg (by simp), hkeep hnot.2]
  rw [moveToTail_append rfl hnot.1, hothers, List.map_append, List.map_append]
  rfl

theorem frames_addLruPage (hnodup : (l.map (·.fpn)).Nodup) (n : LruNode) :
    (addLruPage l n).map (·.fpn) = (l.map (·.fpn)).filter (fun g => g ≠ n.fpn) ++ [n.fpn] := by
  by_cases hf : n.fpn ∈ l.map (·.fpn)
  · rw [addLruPage_of_mem hf, frames_moveToTail hnodup hf]
  · have hkeep : (l.map (·.fpn)).filter (fun g => g ≠ n.fpn) = l.map (·.fpn) :=
      List.filter_eq_self.2 (fun g hg => by simpa using fun e : g = n.fpn => hf (e ▸ hg))
    rw [addLruPage_of_not_mem hf, hkeep, List.map_append]
    rfl

end Lru

namespace LruHeap

def frames (s : LruHeap) (as : List Nat) : List Nat := (s.nodes as).map (·.fpn)

/-- **The structure is well formed**: both ends null or both set, the head without a predecessor and the tail without a
successor, the tail reached from the head along `as`, each link of `as` inverse to the other, no node met twice. -/
structure WellFormed (s : LruHeap) (as : List Nat) : Prop where
  ends : s.lruHead = none ∧ s.lruTail = none ∨ s.lruHead ≠ none ∧ s.lruTail ≠ none
  first : ∀ a, s.lruHead = some a → s.pre a = none
  last : ∀ a, s.lruTail = some a → s.next a = none
  reached : Seg s.next s.lruHead as none ∧ s.lruTail = as.getLast?
  inverse : ∀ a ∈ as, ∀ b, s.next a = some b ↔ b ∈ as ∧ s.pre b = some a
  acyclic : as.Nodup

theorem Rep.wellFormed {s : LruHeap} {as : List Nat} (h : s.Rep as) : s.WellFormed as where
  ends := by
    have hhead := h.linked.forth.eq_none
    have htail := h.linked.back.eq_none
    rw [List.reverse_eq_nil_iff] at htail
    by_cases hnil : as = []
    · exact Or.inl ⟨hhead.2 hnil, htail.2 hnil⟩
    · exact Or.inr ⟨fun e => hnil (hhead.1 e), fun e => hnil (htail.1 e)⟩
  first a ha := by
    cases as with
    | nil => rw [h.linked.head_eq] at ha; cases ha
    | cons b as =>
      have hb : s.lruHead = some b := h.linked.head_eq
      obtain rfl : b = a := Option.some.inj (hb.symm.trans ha)
      exact h.linked.pre_head
  last a ha := by
    rcases List.eq_nil_or_concat' as with rfl | ⟨as, b, rfl⟩
    · rw [h.linked.tail_eq] at ha; cases ha
    · have hb : s.lruTail = some b := by rw [h.linked.tail_eq, List.getLast?_concat]
      obtain rfl : b = a := Option.some.inj (hb.symm.trans ha)
      exact h.linked.next_tail
  reached := ⟨h.linked.forth, h.linked.tail_eq⟩
  inverse _ ha _ := h.linked.inverse ha
  acyclic := h.linked.nodup

def Listed (s : LruHeap) (f : Nat) : Prop := ∃ as, Seg s.next s.lruHead as none ∧ f ∈ s.frames as

end LruHeap

open LruHeap

/-- A call and what it was about: the frame of the entry passed, or the frame of the node returned. -/
inductive LruCall where
  | add (f : Nat)
  | update (f : Nat)
  | updateOther (f : Nat)
  | find (o : Option Nat)

/-- The frames touched, in order: a frame is touched when a page in it is added, and when an entry with it is updated
while it is listed. -/
def touches (calls : List LruCall) : List Nat := calls.filterMap fun
  | .add f | .update f => some f
  | .updateOther _ | .find _ => none

def NotTaken (f : Nat) (calls : List LruCall) : Prop :=
  ∃ pre post, calls = pre ++ .add f :: post ∧ .find (some f) ∉ post

/-- **Any sequence of calls** from an empty list, on any memory.  `update_LRU_lst` is called on lists that are not
empty; `malloc` returns a block that is not in use. -/
inductive LruRun : LruHeap → List LruCall → Prop where
  | empty (mem : Mem LruCell) : LruRun ⟨mem, none, none⟩ []
  | add {s s' calls} (pte : PteRef) (entry : Pte) (pgn tmp : Nat) (junk : LruCell) (hrun : LruRun s calls)
      (hfresh : tmp ∉ s.mem.live) (hcall : s.addLruPage pte entry pgn tmp junk = .ok s') :
      LruRun s' (calls ++ [.add entry.fpn])
  | update {s s' calls} (entry : Pte) (hrun : LruRun s calls) (hne : s.lruHead ≠ none) (hin : s.Listed entry.fpn)
      (hcall : s.updateLruLst entry.fpn = .ok s') : LruRun s' (calls ++ [.update entry.fpn])
  | updateOther {s s' calls} (entry : Pte) (hrun : LruRun s calls) (hne : s.lruHead ≠ none)
      (hnot : ¬ s.Listed entry.fpn) (hcall : s.updateLruLst entry.fpn = .ok s') :
      LruRun s' (calls ++ [.updateOther entry.fpn])
  | find {s s' calls o} (hrun : LruRun s calls) (hcall : s.findLruVictimPage = .ok (s', o)) :
      LruRun s' (calls ++ [.find (o.map (·.fpn))])

section Calls

variable {calls : List LruCall} {f : Nat}

theorem notTaken_concat {c : LruCall} :
    NotTaken f (calls ++ [c]) ↔ c = .add f ∨ NotTaken f calls ∧ c ≠ .find (some f) := by
  constructor
  · rintro ⟨pre, post, heq, hpost⟩
    rcases List.eq_nil_or_concat' post with rfl | ⟨post, d, rfl⟩
    · exact Or.inl (List.append_inj_right' heq rfl |> List.singleton_inj.1)
    · rw [← List.cons_append, ← List.append_assoc] at heq
      obtain ⟨rfl, hd⟩ := List.append_inj' heq rfl
      obtain rfl := List.singleton_inj.1 hd
      rw [List.mem_append, not_or, List.mem_singleton] at hpost
      exact Or.inr ⟨⟨pre, post, rfl, hpost.1⟩, fun e => hpost.2 e.symm⟩
  · rintro (rfl | ⟨⟨pre, post, rfl, hpost⟩, hc⟩)
    · exact ⟨calls, [], rfl, List.not_mem_nil⟩
    · refine ⟨pre, post ++ [c], by rw [List.append_assoc, List.cons_append], ?_⟩
      rw [List.mem_append, not_or, List.mem_singleton]
      exact ⟨hpost, fun e => hc e.symm⟩

@[simp] theorem touches_add : touches (calls ++ [.add f]) = touches calls ++ [f] := by
  rw [touches, List.filterMap_append]
  rfl

@[simp] theorem touches_update : touches (calls ++ [.update f]) = touches calls ++ [f] := by
  rw [touches, List.filterMap_append]
  rfl

@[simp] theorem touches_updateOther : touches (calls ++ [.updateOther f]) = touches calls := by
  rw [touches, List.filterMap_append]
  exact List.append_nil _

@[simp] theorem touches_find {o : Option Nat} : touches (calls ++ [.find o]) = touches calls := by
  rw [touches, List.filterMap_append]
  exact List.append_nil _

end Calls

structure LruInv (s : LruHeap) (calls : List LruCall) (as : List Nat) : Prop where
  rep : s.Rep as
  order : (s.frames as).Pairwise (fun f g => lastSeen f (touches calls) < lastSeen g (touches calls))
  kept : ∀ f, f ∈ s.frames as ↔ NotTaken f calls

namespace LruInv

variable {s s' : LruHeap} {calls : List LruCall} {as : List Nat}

theorem nodup (h : LruInv s calls as) : (s.frames as).Nodup := nodup_of_pairwise h.order

theorem listed_iff (h : LruInv s calls as) (f : Nat) : s.Listed f ↔ f ∈ s.frames as := by
  constructor
  · rintro ⟨bs, hbs, hf⟩
    rwa [hbs.unique h.rep.linked.forth] at hf
  · exact fun hf => ⟨as, h.rep.linked.forth, hf⟩

theorem ne_nil (h : LruInv s calls as) (hne : s.lruHead ≠ none) : as ≠ [] := fun e =>
  hne (h.rep.linked.forth.eq_none.2 e)

/-! What each of the three calls does to the frames. -/

theorem addLruPage_frames (h : LruInv s calls as) (pte : PteRef) (entry : Pte) (pgn : Nat) {tmp : Nat}
    (junk : LruCell) (hfresh : tmp ∉ s.mem.live) : ∃ s' as', s.addLruPage pte entry pgn tmp junk = .ok s' ∧ s'.Rep as' ∧
      s'.frames as' = (s.frames as).filter (fun g => g ≠ entry.fpn) ++ [entry.fpn] := by
  obtain ⟨s', as', hadd, hrep, hnodes, -⟩ := addLruPage_rep h.rep pte entry pgn hfresh junk
  refine ⟨s', as', hadd, hrep, ?_⟩
  rw [frames, hnodes, Lru.frames_addLruPage h.nodup]
  rfl

theorem updateLruLst_frames (h : LruInv s calls as) (hne : s.lruHead ≠ none) (f : Nat) :
    ∃ s' as', s.updateLruLst f = .ok s' ∧ s'.Rep as' ∧
      s'.frames as' = if f ∈ s.frames as then (s.frames as).filter (fun g => g ≠ f) ++ [f] else s.frames as := by
  obtain ⟨s', as', hup, hrep, hnodes, -⟩ := updateLruLst_rep h.rep (h.ne_nil hne) f
  refine ⟨s', as', hup, hrep, ?_⟩
  rw [frames, hnodes]
  split
  · rename_i hf
    rw [Lru.frames_moveToTail h.nodup hf]
    rfl
  · rename_i hf
    rw [Lru.moveToTail_of_not_mem hf]
    rfl

theorem findLruVictimPage_nodes (h : LruInv s calls as) : ∃ s' as',
    s.findLruVictimPage = .ok (s', (s.nodes as).head?) ∧ s'.Rep as' ∧ s'.nodes as' = (s.nodes as).tail := by
  obtain ⟨s', as', hfind, hrep, hnodes, -⟩ := findLruVictimPage_rep h.rep
  refine ⟨s', as', ?_, hrep, ?_⟩
  · rw [hfind]
    cases s.nodes as <;> rfl
  · rw [hnodes]
    cases s.nodes as <;> rfl

/-- A frame touched goes behind the others, whichever call touches it. -/
theorem touch (h : LruInv s calls as) {as' : List Nat} {f : Nat} {c : LruCall} (hrep : s'.Rep as')
    (hframes : s'.frames as' = (s.frames as).filter (fun g => g ≠ f) ++ [f])
    (htouches : touches (calls ++ [c]) = touches calls ++ [f]) (hf : NotTaken f (calls ++ [c]))
    (hothers : ∀ g, g ≠ f → (NotTaken g (calls ++ [c]) ↔ NotTaken g calls)) : LruInv s' (calls ++ [c]) as' where
  rep := hrep
  order := by
    rw [hframes, htouches]
    exact pairwise_touch h.order f
  kept g := by
    by_cases hg : g = f
    · subst hg
      simpa [hframes] using hf
    · rw [hothers g hg, ← h.kept g, hframes]
      simp [hg]

theorem add (h : LruInv s calls as) {pte : PteRef} {entry : Pte} {pgn tmp : Nat} {junk : LruCell}
    (hfresh : tmp ∉ s.mem.live) (hcall : s.addLruPage pte entry pgn tmp junk = .ok s') :
    ∃ as', LruInv s' (calls ++ [.add entry.fpn]) as' := by
  obtain ⟨s₁, as', hadd, hrep, hframes⟩ := h.addLruPage_frames pte entry pgn junk hfresh
  obtain rfl : s₁ = s' := Except.ok.inj (hadd.symm.trans hcall)
  refine ⟨as', h.touch hrep hframes touches_add (notTaken_concat.2 (Or.inl rfl)) (fun g hg => ?_)⟩
  rw [notTaken_concat]
  simp [Ne.symm hg]

theorem update (h : LruInv s calls as) {entry : Pte} (hne : s.lruHead ≠ none) (hin : s.Listed entry.fpn)
    (hcall : s.updateLruLst entry.fpn = .ok s') : ∃ as', LruInv s' (calls ++ [.update entry.fpn]) as' := by
  obtain ⟨s₁, as', hup, hrep, hframes⟩ := h.updateLruLst_frames hne entry.fpn
  obtain rfl : s₁ = s' := Except.ok.inj (hup.symm.trans hcall)
  have hmem := (h.listed_iff _).1 hin
  rw [if_pos hmem] at hframes
  refine ⟨as', h.touch hrep hframes touches_update ?_ (fun g _ => ?_)⟩
  · rw [notTaken_concat]
    simpa using (h.kept _).1 hmem
  · rw [notTaken_concat]
    simp

theorem updateOther (h : LruInv s calls as) {entry : Pte} (hne : s.lruHead ≠ none) (hnot : ¬ s.Listed entry.fpn)
    (hcall : s.updateLruLst entry.fpn = .ok s') : ∃ as', LruInv s' (calls ++ [.updateOther entry.fpn]) as' := by
  obtain ⟨s₁, as', hup, hrep, hframes⟩ := h.updateLruLst_frames hne entry.fpn
  obtain rfl : s₁ = s' := Except.ok.inj (hup.symm.trans hcall)
  rw [if_neg (fun hf => hnot ((h.listed_iff _).2 hf))] at hframes
  refine ⟨as', hrep, ?_, fun f => ?_⟩
  · rw [hframes, touches_updateOther]
    exact h.order
  · rw [hframes, h.kept f, notTaken_concat]
    simp

theorem find (h : LruInv s calls as) {o : Option LruNode} (hcall : s.findLruVictimPage = .ok (s', o)) :
    ∃ as', LruInv s' (calls ++ [.find (o.map (·.fpn))]) as' := by
  obtain ⟨s₁, as', hfind, hrep, hnodes⟩ := h.findLruVictimPage_nodes
  obtain ⟨rfl, rfl⟩ := Prod.mk.inj (Except.ok.inj (hfind.symm.trans hcall))
  have htail : s₁.frames as' = (s.frames as).tail := by rw [frames, hnodes, List.map_tail, frames]
  refine ⟨as', hrep, ?_, fun f => ?_⟩
  · rw [htail, touches_find]
    exact h.order.sublist (List.tail_sublist _)
  · -- the frame at the front is the one no longer kept
    have hnodup := h.nodup
    rw [htail, notTaken_concat, ← h.kept f]
    unfold frames at hnodup ⊢
    generalize s.nodes as = l at hnodup ⊢
    cases l with
    | nil => simp
    | cons n l =>
      have hn : n.fpn ∉ l.map (·.fpn) := (List.nodup_cons.1 hnodup).1
      simp only [List.map_cons, List.tail_cons, List.head?_cons, Option.map_some, List.mem_cons, reduceCtorEq, false_or,
        ne_eq, LruCall.find.injEq, Option.some.injEq]
      constructor
      · exact fun hf => ⟨Or.inr hf, fun e => hn (e ▸ hf)⟩
      · rintro ⟨rfl | hf, hne⟩
        · exact absurd rfl hne
        · exact hf

end LruInv

theorem lruRun_inv {s : LruHeap} {calls : List LruCall} (h : LruRun s calls) : ∃ as, LruInv s calls as := by
  induction h with
  | empty mem =>
    refine ⟨[], ⟨.empty _ _, fun a ha => nomatch ha⟩, .nil, fun f => ⟨fun hf => (nomatch hf), ?_⟩⟩
    rintro ⟨pre, post, heq, -⟩
    simp at heq
  | add pte entry pgn tmp junk _ hfresh hcall ih =>
    obtain ⟨as, hinv⟩ := ih
    exact hinv.add hfresh hcall
  | update entry _ hne hin hcall ih =>
    obtain ⟨as, hinv⟩ := ih
    exact hinv.update hne hin hcall
  | updateOther entry _ hne hnot hcall ih =>
    obtain ⟨as, hinv⟩ := ih
    exact hinv.updateOther hne hnot hcall
  | find _ hcall ih =>
    obtain ⟨as, hinv⟩ := ih
    exact hinv.find hcall

/-- **The LRU list is a recency queue.**  After any sequence of calls the structure is well formed; the frames listed
are those that were added and not taken since, no frame number twice, and from head to tail in the order they were last
touched.  Whatever call comes next returns and leaves a well-formed structure: `add_LRU_page` puts its frame behind
the others, `update_LRU_lst` too if it is listed and else changes nothing, and `find_LRU_victim_page` removes and
returns the node at the front, or returns -1, exactly where there is none. -/
theorem lru_recency_queue {s : LruHeap} {calls : List LruCall} (h : LruRun s calls) : ∃ as,
    s.WellFormed as ∧ (s.frames as).Nodup ∧ (∀ f, f ∈ s.frames as ↔ NotTaken f calls) ∧
    (s.frames as).Pairwise (fun f g => lastSeen f (touches calls) < lastSeen g (touches calls)) ∧
    (∀ (pte : PteRef) (entry : Pte) (pgn tmp : Nat) (junk : LruCell), tmp ∉ s.mem.live →
      ∃ s' as', s.addLruPage pte entry pgn tmp junk = .ok s' ∧ s'.WellFormed as' ∧
        s'.frames as' = (s.frames as).filter (fun g => g ≠ entry.fpn) ++ [entry.fpn]) ∧
    (s.lruHead ≠ none → ∀ entry : Pte, ∃ s' as', s.updateLruLst entry.fpn = .ok s' ∧ s'.WellFormed as' ∧
      s'.frames as' = if entry.fpn ∈ s.frames as then (s.frames as).filter (fun g => g ≠ entry.fpn) ++ [entry.fpn]
        else s.frames as) ∧
    ∃ s' as', s.findLruVictimPage = .ok (s', (s.nodes as).head?) ∧ s'.WellFormed as' ∧
      s'.nodes as' = (s.nodes as).tail ∧ (s.lruHead = none ↔ (s.nodes as).head? = none) := by
  obtain ⟨as, hinv⟩ := lruRun_inv h
  refine ⟨as, hinv.rep.wellFormed, hinv.nodup, hinv.kept, hinv.order, fun pte entry pgn tmp junk hfresh => ?_,
    fun hne entry => ?_, ?_⟩
  · obtain ⟨s', as', hadd, hrep, hframes⟩ := hinv.addLruPage_frames pte entry pgn junk hfresh
    exact ⟨s', as', hadd, hrep.wellFormed, hframes⟩
  · obtain ⟨s', as', hup, hrep, hframes⟩ := hinv.updateLruLst_frames hne entry.fpn
    exact ⟨s', as', hup, hrep.wellFormed, hframes⟩
  · obtain ⟨s', as', hfind, hrep, hnodes⟩ := hinv.findLruVictimPage_nodes
    have hempty : s.lruHead = none ↔ (s.nodes as).head? = none := by
      rw [hinv.rep.linked.forth.eq_none, List.head?_eq_none_iff, nodes, List.map_eq_nil_iff]
    exact ⟨s', as', hfind, hrep.wellFormed, hnodes, hempty⟩

/-- Frames 5 and 3 added, 5 updated, and the one at the front taken: 5 is listed. -/
theorem lru_recency_queue_taken : ∃ s, LruRun s [.add 5, .add 3, .update 5, .find (some 3)] ∧ ∃ as,
    s.WellFormed as ∧ (s.frames as).Nodup ∧
    (∀ f, f ∈ s.frames as ↔ NotTaken f [.add 5, .add 3, .update 5, .find (some 3)]) ∧
    (s.frames as).Pairwise (fun f g => lastSeen f (touches [.add 5, .add 3, .update 5, .find (some 3)]) <
      lastSeen g (touches [.add 5, .add 3, .update 5, .find (some 3)])) ∧
    (∀ (pte : PteRef) (entry : Pte) (pgn tmp : Nat) (junk : LruCell), tmp ∉ s.mem.live →
      ∃ s' as', s.addLruPage pte entry pgn tmp junk = .ok s' ∧ s'.WellFormed as' ∧
        s'.frames as' = (s.frames as).filter (fun g => g ≠ entry.fpn) ++ [entry.fpn]) ∧
    (s.lruHead ≠ none → ∀ entry : Pte, ∃ s' as', s.updateLruLst entry.fpn = .ok s' ∧ s'.WellFormed as' ∧
      s'.frames as' = if entry.fpn ∈ s.frames as then (s.frames as).filter (fun g => g ≠ entry.fpn) ++ [entry.fpn]
        else s.frames as) ∧
    ∃ s' as', s.findLruVictimPage = .ok (s', (s.nodes as).head?) ∧ s'.WellFormed as' ∧
      s'.nodes as' = (s.nodes as).tail ∧ (s.lruHead = none ↔ (s.nodes as).head? = none) := by
  let junk : LruCell := ⟨some 7, some 9, ⟨0, 0⟩, 0, 0⟩
  let s₀ : LruHeap := ⟨⟨fun _ => junk, []⟩, none, none⟩
  obtain ⟨s₁, hs₁⟩ : ∃ s₁, s₀.addLruPage ⟨0, 0⟩ (pteSetFpn 0#32 5) 0 100 junk = .ok s₁ := ⟨_, rfl⟩
  obtain ⟨s₂, hs₂⟩ : ∃ s₂, s₁.addLruPage ⟨0, 1⟩ (pteSetFpn 0#32 3) 1 200 junk = .ok s₂ := by cases hs₁; exact ⟨_, rfl⟩
  obtain ⟨s₃, hs₃⟩ : ∃ s₃, s₂.updateLruLst (pteSetFpn 0#32 5 : Pte).fpn = .ok s₃ := by
    cases hs₁
    cases hs₂
    exact ⟨_, rfl⟩
  obtain ⟨s₄, hs₄⟩ : ∃ s₄, s₃.findLruVictimPage = .ok (s₄, some ⟨⟨0, 1⟩, (pteSetFpn 0#32 3 : Pte).fpn, 1⟩) := by
    cases hs₁
    cases hs₂
    cases hs₃
    exact ⟨_, rfl⟩
  have hrun₁ : LruRun s₁ [.add 5] := .add ⟨0, 0⟩ (pteSetFpn 0#32 5) 0 100 junk (.empty _) (by decide) hs₁
  have hrun₂ : LruRun s₂ [.add 5, .add 3] :=
    .add ⟨0, 1⟩ (pteSetFpn 0#32 3) 1 200 junk hrun₁ (by cases hs₁; decide) hs₂
  have hhead : s₂.lruHead ≠ none := by cases hs₁; cases hs₂; decide
  have hin : s₂.Listed (pteSetFpn 0#32 5 : Pte).fpn := by
    cases hs₁
    cases hs₂
    exact ⟨[100, 200], ⟨rfl, rfl, rfl⟩, by decide⟩
  have hrun₃ : LruRun s₃ [.add 5, .add 3, .update 5] := .update (pteSetFpn 0#32 5) hrun₂ hhead hin hs₃
  have hrun₄ : LruRun s₄ [.add 5, .add 3, .update 5, .find (some 3)] := .find hrun₃ hs₄
  exact ⟨s₄, hrun₄, lru_recency_queue hrun₄⟩

end OsSim
