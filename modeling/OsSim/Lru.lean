import OsSim.Pte
/-!
# Lru — the list of resident pages (`src/mm-vm.c`, `LRU`)

The doubly linked list from `lru_head` to `lru_tail`, as the list of its nodes in that order.  A node points to the page
table entry it was added for and remembers the frame number the entry held then; all three operations look a page up
by that number.
-/
namespace OsSim

abbrev Pid := Nat

/-- A `uint32_t *` into a process's page table. -/
structure PteRef where
  pid : Pid
  pgn : Nat
  deriving DecidableEq, Repr

structure LruNode where
  pte : PteRef
  fpn : Nat
  pgn : Nat
  deriving DecidableEq, Repr

namespace Lru

/-- The first node with the frame number is unlinked and linked again behind the tail.  With no such node the walk ends
at the tail, which stays where it is. -/
def moveToTail (fpn : Nat) : List LruNode → List LruNode
  | [] => []
  | p :: rest => if p.fpn = fpn then rest ++ [p] else p :: moveToTail fpn rest

/-- `update_LRU_lst` on an entry with this frame field: the walk starts by following `lru_head`, so there is none on an
empty list. -/
def updateLruLst (lru : List LruNode) (fpn : Nat) : Option (List LruNode) :=
  match lru with
  | [] => none
  | _ :: _ => some (moveToTail fpn lru)

def addLruPage (lru : List LruNode) (tmp : LruNode) : List LruNode :=
  if lru.any (fun p => p.fpn = tmp.fpn) then moveToTail tmp.fpn lru else lru ++ [tmp]

/-- `find_LRU_victim_page`: `none` is the return of -1, which leaves the outputs unset. -/
def findLruVictimPage (lru : List LruNode) : List LruNode × Option LruNode :=
  match lru with
  | [] => ([], none)
  | temp :: rest => (rest, some temp)

/-! ## What the operations keep -/

theorem moveToTail_perm (f : Nat) : ∀ l : List LruNode, (moveToTail f l).Perm l
  | [] => .nil
  | p :: rest => by
    unfold moveToTail
    split
    · exact List.perm_append_singleton p rest
    · exact (moveToTail_perm f rest).cons p

theorem moveToTail_of_not_mem {f : Nat} : ∀ {l : List LruNode}, f ∉ l.map (·.fpn) → moveToTail f l = l
  | [], _ => rfl
  | p :: rest, h => by
    rw [List.map_cons, List.mem_cons, not_or] at h
    rw [moveToTail, if_neg (fun e => h.1 e.symm), moveToTail_of_not_mem h.2]

/-- **A listed frame goes behind all the others**, whose order stays. -/
theorem moveToTail_append {f : Nat} {a b : List LruNode} {p : LruNode} (hp : p.fpn = f) (ha : f ∉ a.map (·.fpn)) :
    moveToTail f (a ++ p :: b) = a ++ b ++ [p] := by
  induction a with
  | nil => simp [moveToTail, hp]
  | cons q a ih =>
    rw [List.map_cons, List.mem_cons, not_or] at ha
    rw [List.cons_append, moveToTail, if_neg (fun e => ha.1 e.symm), ih ha.2]
    simp

theorem addLruPage_of_mem {l : List LruNode} {n : LruNode} (h : n.fpn ∈ l.map (·.fpn)) :
    addLruPage l n = moveToTail n.fpn l := by
  rw [addLruPage, if_pos]
  obtain ⟨p, hp, e⟩ := List.mem_map.1 h
  exact List.any_eq_true.2 ⟨p, hp, by simpa using e⟩

theorem addLruPage_of_not_mem {l : List LruNode} {n : LruNode} (h : n.fpn ∉ l.map (·.fpn)) :
    addLruPage l n = l ++ [n] := by
  rw [addLruPage, if_neg]
  intro hany
  obtain ⟨p, hp, e⟩ := List.any_eq_true.1 hany
  exact h (List.mem_map.2 ⟨p, hp, by simpa using e⟩)

theorem moveToTail_last {f : Nat} {a : List LruNode} {p : LruNode} (hp : p.fpn = f) (ha : f ∉ a.map (·.fpn)) :
    moveToTail f (a ++ [p]) = a ++ [p] := by
  rw [moveToTail_append hp ha, List.append_nil]

theorem addLruPage_tail (l : List LruNode) (n : LruNode) : ∃ a p, addLruPage l n = a ++ [p] ∧ p.fpn = n.fpn := by
  by_cases h : n.fpn ∈ l.map (·.fpn)
  · have hsplit : ∀ l : List LruNode, n.fpn ∈ l.map (·.fpn) → ∃ a p, moveToTail n.fpn l = a ++ [p] ∧ p.fpn = n.fpn := by
      intro l
      induction l with
      | nil => intro hmem; cases hmem
      | cons q l ih =>
        intro hmem
        rw [moveToTail]
        by_cases hq : q.fpn = n.fpn
        · rw [if_pos hq]
          exact ⟨l, q, rfl, hq⟩
        · rw [List.map_cons, List.mem_cons] at hmem
          obtain ⟨a, p, hap, hp⟩ := ih (hmem.resolve_left (fun e => hq e.symm))
          rw [if_neg hq, hap]
          exact ⟨q :: a, p, rfl, hp⟩
    rw [addLruPage_of_mem h]
    exact hsplit l h
  · exact ⟨l, n, addLruPage_of_not_mem h, rfl⟩

theorem moveToTail_ne_nil {f : Nat} {l : List LruNode} (h : l ≠ []) : moveToTail f l ≠ [] := fun e =>
  h (List.perm_nil.1 (e ▸ moveToTail_perm f l).symm)

theorem addLruPage_ne_nil (l : List LruNode) (n : LruNode) : addLruPage l n ≠ [] := by
  unfold addLruPage
  split
  · rename_i hany
    obtain ⟨p, hp, -⟩ := List.any_eq_true.1 hany
    exact moveToTail_ne_nil (List.ne_nil_of_mem hp)
  · simp

end Lru

end OsSim
