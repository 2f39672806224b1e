import Mathlib.Data.List.Perm.Subperm
import OsSim.Lib.Linked
/-!
# Heap — memory in blocks of one type

Blocks of memory that `malloc` handed out and `free` has not taken back are live; only a live block can be read or
written through a pointer.  What `malloc` returns holds whatever it held (`junk`), and where it is nobody says: the
address is an argument, and that it is not live already is the caller's premise.

A walk along pointers has no bound of its own.  One that is longer than the number of live blocks has met a block twice,
and so never ends (`endless`).

`Chain` is a list that lies in memory, singly linked; a node put in front, the first one freed and the last one cut
off and freed leave such a list.  `Own` is one with all the other live blocks, its frame: an edit of the list that hands
out or frees nothing else leaves every list in the frame as it was.
-/
namespace Heap

inductive Wild where
  /-- The null pointer followed. -/
  | null
  /-- A pointer to no live block followed. -/
  | dead
  /-- A walk that does not end. -/
  | endless
  deriving DecidableEq, Repr

structure Mem (C : Type) where
  cell : Nat → C
  live : List Nat

namespace Mem

variable {C : Type} (m : Mem C)

def load : Option Nat → Except Wild C
  | none => .error .null
  | some a => if a ∈ m.live then .ok (m.cell a) else .error .dead

def store (p : Option Nat) (f : C → C) : Except Wild (Mem C) :=
  match p with
  | none => .error .null
  | some a => if a ∈ m.live then .ok { m with cell := Function.update m.cell a (f (m.cell a)) } else .error .dead

def malloc (a : Nat) (junk : C) : Mem C := ⟨Function.update m.cell a junk, a :: m.live⟩

def free (a : Nat) : Mem C := { m with live := m.live.filter (fun b => b ≠ a) }

/-- The walk from `p` along `next`, until `stop` holds of the pointer. -/
def walk (next : C → Option Nat) (stop : Mem C → Option Nat → Except Wild Bool) :
    Nat → Option Nat → Except Wild (Option Nat)
  | 0, _ => .error .endless
  | fuel + 1, p => do
    if ← stop m p then return p
    let c ← m.load p
    walk next stop fuel (next c)

variable {m} {a : Nat}

theorem load_live (h : a ∈ m.live) : m.load (some a) = .ok (m.cell a) := if_pos h

theorem store_live (h : a ∈ m.live) (f : C → C) :
    m.store (some a) f = .ok { m with cell := Function.update m.cell a (f (m.cell a)) } := if_pos h

@[simp] theorem malloc_live (c : C) : (m.malloc a c).live = a :: m.live := rfl

@[simp] theorem malloc_self (c : C) : (m.malloc a c).cell a = c := by simp [malloc]

theorem malloc_of_ne {b : Nat} (h : b ≠ a) (c : C) : (m.malloc a c).cell b = m.cell b := by simp [malloc, h]

@[simp] theorem store_malloc (c : C) (f : C → C) : (m.malloc a c).store (some a) f = .ok (m.malloc a (f c)) := by
  simp [store, malloc]

/-- **A walk along nodes it does not stop at** ends where they end, if it stops there. -/
theorem walk_seg {next : C → Option Nat} {stop : Mem C → Option Nat → Except Wild Bool} {q : Option Nat}
    (hq : stop m q = .ok true) : ∀ {l : List Nat} {p : Option Nat} {fuel : Nat},
    Linked.Seg (fun a => next (m.cell a)) p l q → (∀ a ∈ l, a ∈ m.live ∧ stop m (some a) = .ok false) →
      l.length < fuel → walk m next stop fuel p = .ok q
  | _, _, 0, _, _, hlen => absurd hlen (Nat.not_lt_zero _)
  | [], p, fuel + 1, hseg, _, _ => by
    obtain rfl : p = q := hseg
    rw [walk, hq]
    rfl
  | a :: l, p, fuel + 1, hseg, hpass, hlen => by
    obtain ⟨rfl, hrest⟩ := hseg
    obtain ⟨hlive, hgo⟩ := hpass a List.mem_cons_self
    have ih := walk_seg hq hrest (fun b hb => hpass b (List.mem_cons_of_mem a hb)) (Nat.lt_of_succ_lt_succ hlen)
    rw [walk, hgo, load_live hlive]
    exact ih

/-! ## Lists in memory -/

/-- **The nodes `as` are a list**: met from `p` along `next`, up to the null pointer, all of them live. -/
structure Chain (m : Mem C) (next : C → Option Nat) (p : Option Nat) (as : List Nat) : Prop where
  linked : Linked.Seg (fun a => next (m.cell a)) p as none
  live : ∀ a ∈ as, a ∈ m.live

namespace Chain

variable {next : C → Option Nat} {p : Option Nat} {as : List Nat} {b : Nat}

theorem length_le (h : m.Chain next p as) : as.length ≤ m.live.length :=
  (List.Nodup.subperm h.linked.nodup (fun a ha => h.live a ha)).length_le

theorem ne_of_fresh (h : m.Chain next p as) (hfresh : a ∉ m.live) : ∀ x ∈ as, x ≠ a := fun x hx e =>
  hfresh (e ▸ h.live x hx)

theorem push (h : m.Chain next p as) (hfresh : a ∉ m.live) {c : C} (hc : next c = p) :
    (m.malloc a c).Chain next (some a) (a :: as) := by
  have hrest : Linked.Seg (fun x => next ((m.malloc a c).cell x)) p as none :=
    h.linked.congr (fun x hx => congrArg next (malloc_of_ne (h.ne_of_fresh hfresh x hx) c))
  have hhead : next ((m.malloc a c).cell a) = p := (congrArg next (malloc_self c)).trans hc
  rw [← hhead] at hrest
  exact ⟨⟨rfl, hrest⟩, List.forall_mem_cons.2 ⟨List.mem_cons_self, fun x hx => List.mem_cons_of_mem a (h.live x hx)⟩⟩

theorem pop (h : m.Chain next p (a :: as)) : (m.free a).Chain next (next (m.cell a)) as := by
  refine ⟨h.linked.2, fun x hx => ?_⟩
  have hne : x ≠ a := fun e => (List.nodup_cons.1 h.linked.nodup).1 (e ▸ hx)
  exact List.mem_filter.2 ⟨h.live x (List.mem_cons_of_mem a hx), by simpa using hne⟩

/-- **The last node cut off** by the link before it, **and freed.** -/
theorem cutLast (h : m.Chain next p (as ++ [b] ++ [a])) {c : C} (hc : next c = none) :
    ({ m with cell := Function.update m.cell b c }.free a).Chain next p (as ++ [b]) := by
  obtain ⟨hinit, -, hlast⟩ := List.nodup_append.1 h.linked.nodup
  have ha : a ∉ as ++ [b] := fun hm => hlast a hm a (by simp) rfl
  have hb : b ∉ as := fun hm => (List.nodup_append.1 hinit).2.2 b hm b (by simp) rfl
  have hother : ∀ x ∈ as, Function.update m.cell b c x = m.cell x := fun x hx =>
    Function.update_of_ne (fun e : x = b => hb (e ▸ hx)) c m.cell
  have hself : Function.update m.cell b c b = c := Function.update_self b c m.cell
  have hlinked := h.linked
  rw [List.append_assoc] at hlinked
  refine ⟨Linked.seg_append_cons.2 ⟨?_, rfl, ?_⟩, fun x hx => ?_⟩
  · exact (Linked.seg_append_cons.1 hlinked).1.congr (fun x hx => congrArg next (hother x hx))
  · exact (congrArg next hself).trans hc
  · exact List.mem_filter.2 ⟨h.live x (List.mem_append_left _ hx), by simpa using fun e : x = a => ha (e ▸ hx)⟩

end Chain

/-! ## A list and the other blocks -/

/-- **The nodes `as` are a list, and `rest` are the other live blocks.** -/
structure Own (m : Mem C) (next : C → Option Nat) (p : Option Nat) (as rest : List Nat) : Prop where
  linked : Linked.Seg (fun a => next (m.cell a)) p as none
  all : m.live.Perm (as ++ rest)
  once : m.live.Nodup

namespace Own

variable {next : C → Option Nat} {p q : Option Nat} {as bs rest rest' : List Nat} {b : Nat} {m' : Mem C}

theorem live (h : m.Own next p as rest) : ∀ a ∈ as, a ∈ m.live := fun _ ha =>
  h.all.mem_iff.2 (List.mem_append_left _ ha)

theorem live_rest (h : m.Own next p as rest) : ∀ a ∈ rest, a ∈ m.live := fun _ ha =>
  h.all.mem_iff.2 (List.mem_append_right _ ha)

theorem nodup (h : m.Own next p as rest) : (as ++ rest).Nodup := h.all.nodup_iff.1 h.once

theorem apart (h : m.Own next p as rest) (ha : a ∈ as) : a ∉ rest := fun hr =>
  (List.nodup_append.1 h.nodup).2.2 a ha a hr rfl

theorem perm (h : m.Own next p as rest) (hrest : rest.Perm rest') : m.Own next p as rest' :=
  ⟨h.linked, h.all.trans (hrest.append_left as), h.once⟩

theorem tail (h : m.Own next p (a :: as) rest) : m.Own next (next (m.cell a)) as (a :: rest) :=
  ⟨h.linked.2, h.all.trans List.perm_middle.symm, h.once⟩

theorem cons (h : m.Own next (next (m.cell a)) as (a :: rest)) : m.Own next (some a) (a :: as) rest :=
  ⟨⟨rfl, h.linked⟩, h.all.trans List.perm_middle, h.once⟩

/-- **A list in the frame** is as it was after an edit that keeps the frame's cells. -/
theorem other (hq : m.Own next q bs (as ++ rest')) (hrest : rest.Perm (bs ++ rest')) {as' : List Nat} {p' : Option Nat}
    (h' : m'.Own next p' as' rest) (hcell : ∀ b ∈ rest, m'.cell b = m.cell b) : m'.Own next q bs (as' ++ rest') := by
  have hmem : ∀ b ∈ bs, b ∈ rest := fun b hb => hrest.mem_iff.2 (List.mem_append_left _ hb)
  refine ⟨hq.linked.congr (fun b hb => congrArg next (hcell b (hmem b hb))), ?_, h'.once⟩
  exact (h'.all.trans (hrest.append_left as')).trans (List.perm_append_comm_assoc as' bs rest')

theorem push (h : m.Own next p as rest) (hfresh : a ∉ m.live) {c : C} (hc : next c = p) :
    (m.malloc a c).Own next (some a) (a :: as) rest := by
  have hchain : m.Chain next p as := ⟨h.linked, h.live⟩
  exact ⟨(hchain.push hfresh hc).linked, h.all.cons a, List.nodup_cons.2 ⟨hfresh, h.once⟩⟩

theorem malloc (h : m.Own next p as rest) (hfresh : a ∉ m.live) (c : C) : (m.malloc a c).Own next p as (a :: rest) := by
  have hne : ∀ x ∈ as, x ≠ a := fun x hx e => hfresh (e ▸ h.live x hx)
  refine ⟨h.linked.congr (fun x hx => congrArg next (malloc_of_ne (hne x hx) c)), ?_, ?_⟩
  · exact (h.all.cons a).trans List.perm_middle.symm
  · exact List.nodup_cons.2 ⟨hfresh, h.once⟩

theorem write (h : m.Own next p as rest) (ha : a ∈ as) {c : C} (hc : next c = next (m.cell a)) :
    Own { m with cell := Function.update m.cell a c } next p as rest := by
  refine ⟨h.linked.congr (fun x _ => ?_), h.all, h.once⟩
  by_cases hx : x = a
  · subst hx
    exact (congrArg next (Function.update_self x c m.cell)).trans hc
  · exact congrArg next (Function.update_of_ne hx c m.cell)

end Own

end Mem

end Heap
