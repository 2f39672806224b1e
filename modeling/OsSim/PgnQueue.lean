import OsSim.FifoPaging
import OsSim.Lib.Heap
/-!
# PgnQueue — a process's list of pages as it lies in memory (`src/mm.c`, `src/mm-vm.c`)

`FifoPaging` has `fifo_pgn` as the list of its page numbers.  Here it is what the code works on: nodes in memory, each
with the pointer to the next.  `enlist_pgn_node` links a new node in front; `find_victim_page` walks to the last node,
with a second pointer one node behind, which is not set where the first node is the last.  `Rep` says which nodes are on
the list; under it the two do what their namesakes in `FifoPaging` do, and the list is a queue.
-/
namespace OsSim

open Heap Linked

namespace FifoBuild

structure PgnCell where
  pgn : Int
  pgNext : Option Nat

structure PgnHeap where
  mem : Mem PgnCell
  fifoPgn : Option Nat

namespace PgnHeap

/-- `enlist_pgn_node`: `malloc` returns the block `pnode`. -/
def enlistPgnNode (s : PgnHeap) (pgn : Int) (pnode : Nat) : PgnHeap :=
  ⟨s.mem.malloc pnode ⟨pgn, s.fifoPgn⟩, some pnode⟩

/-- The loop of `find_victim_page`, from `pg` on: `prev_Page` and `pg` at its end. -/
def lastNode (m : Mem PgnCell) : Nat → Option Nat → Nat → Except Wild (Option Nat × Nat)
  | 0, _, _ => .error .endless
  | fuel + 1, prevPage, pg => do
    let c ← m.load (some pg)
    match c.pgNext with
    | none => return (prevPage, pg)
    | some next => lastNode m fuel (some pg) next

/-- `find_victim_page`: the page, or `none` for the return of -1, which leaves the output unset; `prevPage` is what the
local variable holds before it is set. -/
def findVictimPage (s : PgnHeap) (prevPage : Option Nat) : Except Wild (PgnHeap × Option Int) :=
  match s.fifoPgn with
  | none => .ok (s, none)
  | some pg => do
    let c ← s.mem.load (some pg)
    if c.pgNext = none then return (⟨s.mem.free pg, none⟩, some c.pgn)
    let (prevPage, pg) ← lastNode s.mem (s.mem.live.length + 1) prevPage pg
    let c ← s.mem.load (some pg)
    let mem ← s.mem.store prevPage (fun c => { c with pgNext := none })
    return ({ s with mem := mem.free pg }, some c.pgn)

/-! ## The list in memory -/

def page (s : PgnHeap) (a : Nat) : Int := (s.mem.cell a).pgn

def pages (s : PgnHeap) (as : List Nat) : List Int := as.map s.page

def Rep (s : PgnHeap) (as : List Nat) : Prop := s.mem.Chain (·.pgNext) s.fifoPgn as

section Operations

variable {s : PgnHeap} {as : List Nat} {a : Nat}

theorem enlistPgnNode_rep (h : s.Rep as) (pgn : Int) {pnode : Nat} (hfresh : pnode ∉ s.mem.live) :
    (s.enlistPgnNode pgn pnode).Rep (pnode :: as) ∧
      (s.enlistPgnNode pgn pnode).pages (pnode :: as) = pgn :: s.pages as := by
  have hpage : ∀ x ∈ as, (s.enlistPgnNode pgn pnode).page x = s.page x := fun x hx =>
    congrArg PgnCell.pgn (Mem.malloc_of_ne (h.ne_of_fresh hfresh x hx) _)
  refine ⟨h.push hfresh rfl, ?_⟩
  rw [pages, List.map_cons, List.map_congr_left hpage]
  simp [enlistPgnNode, page, pages]

theorem lastNode_seg {m : Mem PgnCell} : ∀ {as : List Nat} {pg a fuel : Nat} {prevPage : Option Nat},
    Seg (fun x => (m.cell x).pgNext) (some pg) (as ++ [a]) none → (∀ x ∈ as ++ [a], x ∈ m.live) → as.length < fuel →
      lastNode m fuel prevPage pg = .ok (as.getLast?.or prevPage, a)
  | _, _, _, 0, _, _, _, hlen => absurd hlen (Nat.not_lt_zero _)
  | [], pg, a, fuel + 1, prevPage, hseg, hlive, _ => by
    obtain ⟨hpg, hend⟩ := hseg
    obtain rfl : pg = a := Option.some.inj hpg
    have hnext : (m.cell pg).pgNext = none := hend
    simp only [lastNode, Mem.load_live (hlive pg (by simp)), bind, Except.bind, hnext]
    rfl
  | b :: as, pg, a, fuel + 1, prevPage, hseg, hlive, hlen => by
    obtain ⟨hpg, hrest⟩ : some pg = some b ∧ Seg (fun x => (m.cell x).pgNext) (m.cell b).pgNext (as ++ [a]) none := hseg
    obtain rfl : pg = b := Option.some.inj hpg
    obtain ⟨next, hnext⟩ : ∃ next, (m.cell pg).pgNext = some next := by
      cases as with
      | nil => exact ⟨a, hrest.1⟩
      | cons c as => exact ⟨c, hrest.1⟩
    rw [hnext] at hrest
    have ih := @lastNode_seg m as next a fuel (some pg) hrest (fun x hx => hlive x (List.mem_cons_of_mem pg hx))
      (Nat.lt_of_succ_lt_succ hlen)
    simp only [lastNode, Mem.load_live (hlive pg (by simp)), bind, Except.bind, hnext, ih, List.getLast?_cons]
    cases as.getLast? <;> rfl

theorem findVictimPage_nil (h : s.Rep []) (prevPage : Option Nat) : s.findVictimPage prevPage = .ok (s, none) := by
  have hnull : s.fifoPgn = none := h.linked
  rw [findVictimPage, hnull]

theorem findVictimPage_rep (h : s.Rep (as ++ [a])) (prevPage : Option Nat) :
    ∃ s', s.findVictimPage prevPage = .ok (s', some (s.page a)) ∧ s'.Rep as ∧ s'.pages as = s.pages as ∧
      s'.mem.live = s.mem.live.filter (fun x => x ≠ a) := by
  have ha : a ∈ s.mem.live := h.live a (by simp)
  cases as with
  | nil =>
    obtain ⟨hhead, hend⟩ : s.fifoPgn = some a ∧ (s.mem.cell a).pgNext = none := h.linked
    refine ⟨⟨s.mem.free a, none⟩, ?_, ⟨rfl, fun x hx => nomatch hx⟩, rfl, rfl⟩
    simp only [findVictimPage, hhead, Mem.load_live ha, bind, Except.bind, hend, if_true]
    rfl
  | cons b bs =>
    have hhead : s.fifoPgn = some b := h.linked.1
    have hnext : (s.mem.cell b).pgNext ≠ none := fun e => by
      have hrest : (s.mem.cell b).pgNext = none ↔ bs ++ [a] = [] := h.linked.2.eq_none
      exact absurd (hrest.1 e) (by simp)
    have hlen : (b :: bs).length < s.mem.live.length + 1 := by
      have := h.length_le
      rw [List.length_append] at this
      omega
    have hseg := h.linked
    rw [hhead] at hseg
    obtain ⟨cs, d, hcs⟩ := (List.eq_nil_or_concat' (b :: bs)).resolve_left (List.cons_ne_nil b bs)
    rw [hcs] at h hseg hlen ⊢
    have hloop := @lastNode_seg s.mem (cs ++ [d]) b a (s.mem.live.length + 1) prevPage hseg h.live hlen
    rw [List.getLast?_concat] at hloop
    have hd : d ∈ s.mem.live := h.live d (by simp)
    let mem : Mem PgnCell :=
      { s.mem with cell := Function.update s.mem.cell d { s.mem.cell d with pgNext := none } }
    have hpage : ∀ x, (mem.cell x).pgn = s.page x := by
      intro x
      by_cases hx : x = d
      · subst hx; simp [mem, page]
      · simp [mem, page, hx]
    refine ⟨{ s with mem := mem.free a }, ?_, h.cutLast rfl, List.map_congr_left (fun x _ => hpage x), rfl⟩
    simp only [findVictimPage, hhead, Mem.load_live (h.live b (by rw [← hcs]; simp)), bind, Except.bind, hnext, if_false,
      hloop, Mem.load_live ha, Option.some_or, Mem.store_live hd]
    rfl

end Operations

/-! ## The list of `FifoPaging` -/

section Simulation

variable {s : PgnHeap} {m : Machine} {f : Fifo} {p : Pid}

def Lists (s : PgnHeap) (l : List Nat) : Prop := ∃ as, s.Rep as ∧ s.pages as = l.map Int.ofNat

theorem enlistPgnNode_lists (h : s.Lists (f.fifoPgn p)) (pgn : Nat) {pnode : Nat} (hfresh : pnode ∉ s.mem.live) :
    ∃ f', fifoStep (.enlistPgnNode p pgn) (m, f) = .ok ((m, f'), ()) ∧
      (s.enlistPgnNode pgn pnode).Lists (f'.fifoPgn p) := by
  obtain ⟨as, hrep, hpages⟩ := h
  obtain ⟨hrep', hpages'⟩ := enlistPgnNode_rep hrep pgn hfresh
  refine ⟨{ f with fifoPgn := Function.update f.fifoPgn p (pgn :: f.fifoPgn p) }, rfl, pnode :: as, hrep', ?_⟩
  simp only [hpages', hpages, Function.update_self]
  rfl

/-- **The list that the code walks to the end is the list `lastPage` takes the last page off.** -/
theorem findVictimPage_lists (h : s.Lists (f.fifoPgn p)) (prevPage : Option Nat) :
    ∃ s' f' o, s.findVictimPage prevPage = .ok (s', o.map Int.ofNat) ∧
      fifoStep (.findVictimPage p) (m, f) = .ok ((m, f'), o) ∧ s'.Lists (f'.fifoPgn p) := by
  obtain ⟨as, hrep, hpages⟩ := h
  rcases List.eq_nil_or_concat' (f.fifoPgn p) with hl | ⟨l, v, hl⟩
  · rw [hl, List.map_nil, pages, List.map_eq_nil_iff] at hpages
    subst hpages
    refine ⟨s, f, none, findVictimPage_nil hrep prevPage, ?_, [], hrep, by rw [hl]; rfl⟩
    simp only [fifoStep, hl, lastPage]
  · rw [hl, List.map_append, List.map_singleton, pages, List.map_eq_append_iff] at hpages
    obtain ⟨bs, cs, rfl, hbs, hcs⟩ := hpages
    obtain ⟨a, rfl, ha⟩ := List.map_eq_singleton_iff.1 hcs
    obtain ⟨s', hfind, hrep', hpages', -⟩ := findVictimPage_rep hrep prevPage
    refine ⟨s', { f with fifoPgn := Function.update f.fifoPgn p l }, some v, by rw [hfind, ha]; rfl, ?_, bs, hrep', ?_⟩
    · simp only [fifoStep, hl, lastPage_eq]
    · rw [hpages', pages]
      simpa only [Function.update_self] using hbs

end Simulation

end PgnHeap

/-! ## The queue -/

open PgnHeap

/-- **Any sequence of calls** on the list of `s₀`, with the pages enlisted and the pages returned, each in order:
`malloc` returns a block that is not in use. -/
inductive PgnRun (s₀ : PgnHeap) : PgnHeap → List Int → List Int → Prop where
  | start : PgnRun s₀ s₀ [] []
  | enlist {s enlisted returned} (pgn : Int) (pnode : Nat) (hrun : PgnRun s₀ s enlisted returned)
      (hfresh : pnode ∉ s.mem.live) : PgnRun s₀ (s.enlistPgnNode pgn pnode) (enlisted ++ [pgn]) returned
  | find {s s' enlisted returned retpgn} (prevPage : Option Nat) (hrun : PgnRun s₀ s enlisted returned)
      (hcall : s.findVictimPage prevPage = .ok (s', some retpgn)) : PgnRun s₀ s' enlisted (returned ++ [retpgn])
  | exhausted {s s' enlisted returned} (prevPage : Option Nat) (hrun : PgnRun s₀ s enlisted returned)
      (hcall : s.findVictimPage prevPage = .ok (s', none)) : PgnRun s₀ s' enlisted returned

/-- **What every call keeps**, for a list with the nodes `as`, where the pages `put` went in and `returned` came out. -/
structure PgnInv (s : PgnHeap) (as : List Nat) (put returned : List Int) : Prop where
  rep : s.Rep as
  /-- What came out is what went in first; the rest is on the list, from its last node to its first. -/
  order : put = returned ++ (s.pages as).reverse

/-- **The queue law**: what came out is what went in first, and each call that may follow does to the list what it
should. -/
structure FifoLaw (s : PgnHeap) (as : List Nat) (put returned : List Int) : Prop extends PgnInv s as put returned where
  enlists : ∀ pgn pnode, pnode ∉ s.mem.live → (s.enlistPgnNode pgn pnode).Rep (pnode :: as) ∧
    (s.enlistPgnNode pgn pnode).pages (pnode :: as) = pgn :: s.pages as
  /-- The last node is returned, taken off and freed; the others stay on the list, with their pages. -/
  takes : ∀ bs a prevPage, as = bs ++ [a] → ∃ s', s.findVictimPage prevPage = .ok (s', some (s.page a)) ∧ s'.Rep bs ∧
    s'.pages bs = s.pages bs ∧ s'.mem.live = s.mem.live.filter (fun x => x ≠ a)
  empty : ∀ prevPage, s.findVictimPage prevPage = .ok (s, none) ↔ as = []

namespace PgnInv

variable {s s' : PgnHeap} {as : List Nat} {put returned : List Int} {prevPage : Option Nat}

theorem enlist (h : PgnInv s as put returned) (pgn : Int) {pnode : Nat} (hfresh : pnode ∉ s.mem.live) :
    PgnInv (s.enlistPgnNode pgn pnode) (pnode :: as) (put ++ [pgn]) returned := by
  obtain ⟨hrep, hpages⟩ := enlistPgnNode_rep h.rep pgn hfresh
  refine ⟨hrep, ?_⟩
  rw [hpages, List.reverse_cons, h.order, List.append_assoc]

theorem find (h : PgnInv s as put returned) {retpgn : Int}
    (hcall : s.findVictimPage prevPage = .ok (s', some retpgn)) : ∃ as', PgnInv s' as' put (returned ++ [retpgn]) := by
  rcases List.eq_nil_or_concat' as with rfl | ⟨as, a, rfl⟩
  · rw [findVictimPage_nil h.rep] at hcall
    cases hcall
  · obtain ⟨s₁, hfind, hrep, hpages, -⟩ := findVictimPage_rep h.rep prevPage
    rw [hfind] at hcall
    cases hcall
    refine ⟨as, hrep, ?_⟩
    rw [h.order, hpages, pages, List.map_append, List.reverse_append, List.append_assoc]
    rfl

theorem exhausted (h : PgnInv s as put returned) (hcall : s.findVictimPage prevPage = .ok (s', none)) :
    PgnInv s' as put returned := by
  rcases List.eq_nil_or_concat' as with rfl | ⟨as, a, rfl⟩
  · rw [findVictimPage_nil h.rep] at hcall
    cases hcall
    exact h
  · obtain ⟨s₁, hfind, -⟩ := findVictimPage_rep h.rep prevPage
    rw [hfind] at hcall
    cases hcall

theorem law (h : PgnInv s as put returned) : FifoLaw s as put returned where
  toPgnInv := h
  enlists pgn _ hfresh := enlistPgnNode_rep h.rep pgn hfresh
  takes bs a prevPage has := by
    subst has
    exact findVictimPage_rep h.rep prevPage
  empty prevPage := by
    refine ⟨fun hcall => ?_, fun hnil => ?_⟩
    · by_contra hne
      obtain ⟨bs, a, rfl⟩ := (List.eq_nil_or_concat' as).resolve_left hne
      obtain ⟨s', hfind, -⟩ := findVictimPage_rep h.rep prevPage
      rw [hfind] at hcall
      cases hcall
    · subst hnil
      exact findVictimPage_nil h.rep prevPage

end PgnInv

theorem pgnRun_inv {s₀ s : PgnHeap} {as₀ : List Nat} {enlisted returned : List Int} (h₀ : s₀.Rep as₀)
    (h : PgnRun s₀ s enlisted returned) : ∃ as, PgnInv s as ((s₀.pages as₀).reverse ++ enlisted) returned := by
  induction h with
  | start => exact ⟨as₀, h₀, by rw [List.append_nil, List.nil_append]⟩
  | enlist pgn pnode _ hfresh ih =>
    obtain ⟨as, hinv⟩ := ih
    rw [← List.append_assoc]
    exact ⟨_, hinv.enlist pgn hfresh⟩
  | find _ _ hcall ih =>
    obtain ⟨as, hinv⟩ := ih
    exact hinv.find hcall
  | exhausted _ _ hcall ih =>
    obtain ⟨as, hinv⟩ := ih
    exact ⟨as, hinv.exhausted hcall⟩

/-- **A process's list of pages is a queue**, whatever was on it at the start and in whatever order the calls come:
pages come out in the order they went in. -/
theorem fifoPgn_queue {s₀ s : PgnHeap} {as₀ : List Nat} {enlisted returned : List Int} (h₀ : s₀.Rep as₀)
    (h : PgnRun s₀ s enlisted returned) : ∃ as, FifoLaw s as ((s₀.pages as₀).reverse ++ enlisted) returned := by
  obtain ⟨as, hinv⟩ := pgnRun_inv h₀ h
  exact ⟨as, hinv.law⟩

/-- Pages 7 and 3 on the list, 5 put in front of them, and the last taken off. -/
theorem fifoPgn_queue_three : ∃ s₀ s, s₀.Rep [10, 20] ∧ PgnRun s₀ s [5] [3] ∧ ∃ as, FifoLaw s as [3, 7, 5] [3] := by
  let s₀ : PgnHeap := ⟨⟨fun a => if a = 10 then ⟨7, some 20⟩ else ⟨3, none⟩, [10, 20]⟩, some 10⟩
  have hrep : s₀.Rep [10, 20] := ⟨⟨rfl, rfl, rfl⟩, fun a ha => ha⟩
  obtain ⟨s, hs⟩ : ∃ s, (s₀.enlistPgnNode 5 30).findVictimPage (some 99) = .ok (s, some 3) := ⟨_, rfl⟩
  have hrun : PgnRun s₀ s [5] [3] := .find (some 99) (.enlist 5 30 .start (by decide)) hs
  exact ⟨s₀, s, hrep, hrun, fifoPgn_queue hrep hrun⟩

end FifoBuild

end OsSim
