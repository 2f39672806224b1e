import Mathlib.Logic.Function.Basic
import Mathlib.Data.List.Nodup
/-!
# Linked — lists threaded through memory

Nodes are addresses, and a link is a map from a node to the next one, if there is one.  `Seg next p l q` says that
following `next` from `p` meets the nodes `l` in order and then is at `q`; a list that ends is a segment to `none`.
Such a list has no node twice, and every edit is one link redirected: `Seg.relink` says what the list is then. A
doubly linked list (`Doubly`) is two of these, one along each link, in opposite orders; its edits are the edits of
both.
-/
namespace Linked

variable {α : Type}

def Seg (next : α → Option α) : Option α → List α → Option α → Prop
  | p, [], q => p = q
  | p, a :: l, q => p = some a ∧ Seg next (next a) l q

section Seg

variable {next next' : α → Option α} {p q r : Option α} {l l' : List α} {a b : α}

@[simp] theorem seg_nil : Seg next p [] q ↔ p = q := Iff.rfl

@[simp] theorem seg_cons : Seg next p (a :: l) q ↔ p = some a ∧ Seg next (next a) l q := Iff.rfl

theorem seg_append : Seg next p (l ++ l') q ↔ ∃ r, Seg next p l r ∧ Seg next r l' q := by
  induction l generalizing p with
  | nil => simp
  | cons a l ih => simp [ih, and_assoc]

theorem seg_append_cons : Seg next p (l ++ a :: l') q ↔ Seg next p l (some a) ∧ Seg next (some a) (a :: l') q := by
  rw [seg_append]
  constructor
  · rintro ⟨r, hl, rfl, hrest⟩
    exact ⟨hl, rfl, hrest⟩
  · rintro ⟨hl, hrest⟩
    exact ⟨_, hl, hrest⟩

theorem Seg.congr (h : Seg next p l q) (hsame : ∀ a ∈ l, next' a = next a) : Seg next' p l q := by
  induction l generalizing p with
  | nil => exact h
  | cons a l ih =>
    refine ⟨h.1, ?_⟩
    rw [hsame a List.mem_cons_self]
    exact ih h.2 (fun b hb => hsame b (List.mem_cons_of_mem a hb))

theorem Seg.unique (h : Seg next p l none) (h' : Seg next p l' none) : l = l' := by
  induction l generalizing p l' with
  | nil =>
    cases l' with
    | nil => rfl
    | cons b l' => exact absurd (h.symm.trans h'.1) (by simp)
  | cons a l ih =>
    cases l' with
    | nil => exact absurd (h'.symm.trans h.1) (by simp)
    | cons b l' =>
      obtain rfl : a = b := Option.some.inj (h.1.symm.trans h'.1)
      rw [ih h.2 h'.2]

/-- **A list that ends has no cycle.** -/
theorem Seg.nodup (h : Seg next p l none) : l.Nodup := by
  induction l generalizing p with
  | nil => exact List.nodup_nil
  | cons a l ih =>
    refine List.nodup_cons.2 ⟨fun ha => ?_, ih h.2⟩
    -- met again, the node would start the list and a shorter one
    obtain ⟨x, y, rfl⟩ := List.append_of_mem ha
    have hlater : Seg next (some a) (a :: y) none := (seg_append_cons.1 h.2).2
    have hself : Seg next (some a) (a :: (x ++ a :: y)) none := ⟨rfl, h.2⟩
    have := congrArg List.length (hself.unique hlater)
    simp at this
    omega

theorem Seg.eq_none (h : Seg next p l none) : p = none ↔ l = [] := by
  cases l with
  | nil => exact ⟨fun _ => rfl, fun _ => h⟩
  | cons a l => rw [h.1]; simp

theorem Seg.head (h : Seg next p l none) : p = l.head? := by
  cases l with
  | nil => exact h
  | cons a l => exact h.1

theorem Seg.last (h : Seg next p (l ++ [a]) q) : next a = q := (seg_append_cons.1 h).2.2

variable [DecidableEq α]

theorem Seg.update_of_notMem (h : Seg next p l q) (ha : a ∉ l) (v : Option α) :
    Seg (Function.update next a v) p l q :=
  h.congr fun b hb => Function.update_of_ne (fun e : b = a => ha (e ▸ hb)) v next

theorem Seg.relink (h : Seg next p (l ++ [b]) q) (hr : Seg next r l' none) (hl : b ∉ l) (hl' : b ∉ l') :
    Seg (Function.update next b r) p (l ++ b :: l') none := by
  refine seg_append_cons.2 ⟨(seg_append_cons.1 h).1.update_of_notMem hl r, rfl, ?_⟩
  rw [Function.update_self]
  exact hr.update_of_notMem hl' r

end Seg

/-! ## Doubly linked lists -/

/-- **Linked both ways**: `next` from the head meets the nodes, `pre` from the tail meets them backwards. -/
structure Doubly (next pre : α → Option α) (head tail : Option α) (l : List α) : Prop where
  forth : Seg next head l none
  back : Seg pre tail l.reverse none

namespace Doubly

variable {next pre : α → Option α} {head tail : Option α} {l l' : List α} {a b c : α}

theorem symm (h : Doubly next pre head tail l) : Doubly pre next tail head l.reverse :=
  ⟨h.back, by rw [List.reverse_reverse]; exact h.forth⟩

theorem nodup (h : Doubly next pre head tail l) : l.Nodup := h.forth.nodup

theorem head_eq (h : Doubly next pre head tail l) : head = l.head? := h.forth.head

theorem tail_eq (h : Doubly next pre head tail l) : tail = l.getLast? := by
  rw [h.back.head, List.head?_reverse]

theorem pre_head (h : Doubly next pre head tail (a :: l)) : pre a = none := by
  have hback := h.back
  rw [List.reverse_cons] at hback
  exact hback.last

theorem next_tail (h : Doubly next pre head tail (l ++ [a])) : next a = none := h.forth.last

theorem neighbours (h : Doubly next pre head tail (l ++ a :: b :: l')) : next a = some b ∧ pre b = some a := by
  refine ⟨(seg_append_cons.1 h.forth).2.2.1, ?_⟩
  have hback := h.back
  rw [show (l ++ a :: b :: l').reverse = l'.reverse ++ b :: a :: l.reverse by simp] at hback
  exact (seg_append_cons.1 hback).2.2.1

theorem inverse (h : Doubly next pre head tail l) {x y : α} (hx : x ∈ l) :
    next x = some y ↔ y ∈ l ∧ pre y = some x := by
  have hforth : ∀ {next pre : α → Option α} {head tail : Option α} {l : List α} {x y : α},
      Doubly next pre head tail l → x ∈ l → next x = some y → y ∈ l ∧ pre y = some x := by
    intro next pre head tail l x y h hx hy
    obtain ⟨u, v, rfl⟩ := List.append_of_mem hx
    cases v with
    | nil => exact absurd (h.next_tail.symm.trans hy) (by simp)
    | cons z v =>
      obtain ⟨hz, hpz⟩ := h.neighbours
      obtain rfl : z = y := Option.some.inj (hz.symm.trans hy)
      exact ⟨by simp, hpz⟩
  constructor
  · exact hforth h hx
  · rintro ⟨hy, hpre⟩
    exact (hforth h.symm (List.mem_reverse.2 hy) hpre).2

theorem congr {next' pre' : α → Option α} (h : Doubly next pre head tail l) (hn : ∀ a ∈ l, next' a = next a)
    (hp : ∀ a ∈ l, pre' a = pre a) : Doubly next' pre' head tail l :=
  ⟨h.forth.congr hn, h.back.congr (fun a ha => hp a (List.mem_reverse.1 ha))⟩

theorem empty (next pre : α → Option α) : Doubly next pre none none ([] : List α) := ⟨rfl, rfl⟩

variable [DecidableEq α]

theorem popFront (h : Doubly next pre head tail (a :: b :: l)) :
    Doubly next (Function.update pre b none) (some b) tail (b :: l) := by
  refine ⟨⟨rfl, h.forth.2.2⟩, ?_⟩
  have hnodup := h.back.nodup
  have hback := h.back
  rw [show (a :: b :: l).reverse = l.reverse ++ b :: [a] by simp] at hback hnodup
  rw [List.reverse_cons]
  have hb : b ∉ l.reverse := fun hm => by
    have := (List.nodup_append.1 hnodup).2.2 b hm b (by simp)
    exact this rfl
  have hone : Seg pre tail (l.reverse ++ [b]) (some a) :=
    seg_append_cons.2 ⟨(seg_append_cons.1 hback).1, rfl, (seg_append_cons.1 hback).2.2.1⟩
  have hend : Seg pre none [] none := rfl
  exact hone.relink hend hb (List.not_mem_nil)

theorem pushBack (h : Doubly next pre head tail l) (ha : a ∉ l) (hb : tail = some b) :
    Doubly (Function.update (Function.update next b (some a)) a none) (Function.update pre a tail) head (some a)
      (l ++ [a]) := by
  obtain ⟨l, rfl⟩ : ∃ x, l = x ++ [b] := by
    have := h.tail_eq
    rw [hb] at this
    exact (List.getLast?_eq_some_iff.1 this.symm)
  have hne : a ≠ b := fun e => ha (by simp [e])
  have hnodup := h.nodup
  have hbl : b ∉ l := fun hm => (List.nodup_append.1 hnodup).2.2 b hm b (by simp) rfl
  constructor
  · have hlast : Seg (Function.update next a none) (some a) [a] none := ⟨rfl, Function.update_self _ _ _⟩
    have hforth := (h.forth.update_of_notMem ha none).relink hlast hbl (by simpa using hne.symm)
    rw [Function.update_comm hne] at hforth
    rw [List.append_assoc]
    exact hforth
  · rw [List.reverse_append, List.reverse_singleton, List.singleton_append]
    refine ⟨rfl, ?_⟩
    rw [Function.update_self]
    exact h.back.update_of_notMem (fun hm => ha (List.mem_reverse.1 hm)) tail

/-- **A node between two others is taken out.** -/
theorem unlink (h : Doubly next pre head tail (l ++ b :: a :: c :: l')) :
    Doubly (Function.update next b (some c)) (Function.update pre c (some b)) head tail (l ++ b :: c :: l') := by
  have hcut : ∀ {next pre : α → Option α} {head tail : Option α} {l l' : List α} {a b c : α},
      Doubly next pre head tail (l ++ b :: a :: c :: l') →
        Seg (Function.update next b (some c)) head (l ++ b :: c :: l') none := by
    intro next pre head tail l l' a b c h
    have hnodup := h.nodup
    have hto : Seg next head (l ++ [b]) (some a) :=
      seg_append_cons.2 ⟨(seg_append_cons.1 h.forth).1, rfl, (seg_append_cons.1 h.forth).2.2.1⟩
    have hfrom : Seg next (some c) (c :: l') none := by
      rw [show l ++ b :: a :: c :: l' = (l ++ [b, a]) ++ c :: l' by simp] at h
      exact (seg_append_cons.1 h.forth).2
    refine hto.relink hfrom (fun hm => ?_) (fun hm => ?_)
    · exact (List.nodup_append.1 hnodup).2.2 b hm b (by simp) rfl
    · have hbl := (List.nodup_cons.1 (List.nodup_append.1 hnodup).2.1).1
      exact hbl (List.mem_cons_of_mem a hm)
  refine ⟨hcut h, ?_⟩
  have hsymm := h.symm
  rw [show (l ++ b :: a :: c :: l').reverse = l'.reverse ++ c :: a :: b :: l.reverse by simp] at hsymm
  rw [show (l ++ b :: c :: l').reverse = l'.reverse ++ c :: b :: l.reverse by simp]
  exact hcut hsymm

end Doubly

end Linked
