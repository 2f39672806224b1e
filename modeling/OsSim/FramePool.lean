import Mathlib.Data.List.Perm.Subperm
import OsSim.Lib.Heap
import OsSim.Memphy
/-!
# FramePool — the free list of a device as it lies in memory (`src/mm-memphy.c`)

`Memphy` has the free list as the list of its frame numbers.  Here it is what the code works on: nodes in memory,
each with the pointer to the next.  `MEMPHY_format` takes the first node apart from the loop that adds the others:
the loop sets the link of a node when it adds the next one and clears the new one's, but nothing clears the first
one's.  So on a device of one frame the list goes on with what the memory of that node held before.

Where it does not, the list and the frames handed out share out the frames of the device, whatever is got and put back.
-/
namespace OsSim

open Heap Linked

structure FramePhy where
  fpn : Nat
  fpNext : Option Nat

structure FrameHeap where
  mem : Mem FramePhy
  freeFpList : Option Nat

namespace FrameHeap

/-- The loop of `MEMPHY_format`, with so many turns to go; `blk iter` is the block that `malloc` returns for the frame
`iter`, and what it holds. -/
def formatLoop (blk : Nat → Nat × FramePhy) : Nat → Nat → Mem FramePhy → Option Nat → Except Wild (Mem FramePhy)
  | 0, _, m, _ => .ok m
  | n + 1, iter, m, fst => do
    let newfst := (blk iter).1
    let m := m.malloc newfst { (blk iter).2 with fpn := iter, fpNext := none }
    let m ← m.store fst (fun c => { c with fpNext := some newfst })
    formatLoop blk n (iter + 1) m (some newfst)

def memphyFormat (s : FrameHeap) (maxsz pagesz : Nat) (blk : Nat → Nat × FramePhy) : Except Wild (FrameHeap × Int) := do
  let numfp := maxsz / pagesz
  if numfp = 0 then return (s, -1)
  let fst := (blk 0).1
  let m := s.mem.malloc fst { (blk 0).2 with fpn := 0 }
  let m ← formatLoop blk (numfp - 1) 1 m (some fst)
  return (⟨m, some fst⟩, 0)

/-- `MEMPHY_get_freefp`: the frame, or `none` for the return of -1. -/
def getFreefp (s : FrameHeap) : Except Wild (FrameHeap × Option Nat) :=
  match s.freeFpList with
  | none => .ok (s, none)
  | some fp => do
    let c ← s.mem.load (some fp)
    return (⟨s.mem.free fp, c.fpNext⟩, some c.fpn)

/-- `MEMPHY_put_freefp`: `malloc` returns the block `newnode`. -/
def putFreefp (s : FrameHeap) (fpn : Nat) (newnode : Nat) : FrameHeap :=
  let fp := s.freeFpList
  ⟨s.mem.malloc newnode ⟨fpn, fp⟩, some newnode⟩

/-! ## The list in memory -/

def next (s : FrameHeap) (a : Nat) : Option Nat := (s.mem.cell a).fpNext

def frames (s : FrameHeap) (as : List Nat) : List Nat := as.map (fun a => (s.mem.cell a).fpn)

/-- **The nodes `as` are the free list**, all of them live. -/
structure Rep (s : FrameHeap) (as : List Nat) : Prop where
  linked : Seg s.next s.freeFpList as none
  live : ∀ a ∈ as, a ∈ s.mem.live

section Formatted

variable {blk : Nat → Nat × FramePhy}

def added (blk : Nat → Nat × FramePhy) (iter n : Nat) : List Nat := (List.range' iter n).map (fun i => (blk i).1)

theorem formatTurn_seg {p q : Option Nat} {m : Mem FramePhy} {l : List Nat} {a b : Nat} (iter : Nat) (node : FramePhy)
    (hseg : Seg (fun x => (m.cell x).fpNext) p (l ++ [b]) q) (hlive : ∀ x ∈ l ++ [b], x ∈ m.live) (hb : b ∉ l)
    (ha : a ∉ m.live) :
    ∃ m₂, (m.malloc a { node with fpn := iter, fpNext := none }).store (some b) (fun c => { c with fpNext := some a }) =
        .ok m₂ ∧ Seg (fun x => (m₂.cell x).fpNext) p (l ++ [b] ++ [a]) none ∧
      (l ++ [b] ++ [a]).map (fun x => (m₂.cell x).fpn) = (l ++ [b]).map (fun x => (m.cell x).fpn) ++ [iter] ∧
      m₂.live = a :: m.live := by
  have hal : a ∉ l ++ [b] := fun hm => ha (hlive a hm)
  have hab : b ≠ a := fun e => hal (by simp [e])
  let m₁ := m.malloc a { node with fpn := iter, fpNext := none }
  let m₂ : Mem FramePhy := { m₁ with cell := Function.update m₁.cell b { m₁.cell b with fpNext := some a } }
  have hnext : (fun x => (m₂.cell x).fpNext) =
      Function.update (Function.update (fun x => (m.cell x).fpNext) a none) b (some a) := by
    funext x
    by_cases hxb : x = b
    · subst hxb; simp [m₂]
    · by_cases hxa : x = a
      · subst hxa; simp [m₂, m₁, hxb]
      · simp [m₂, m₁, hxb, hxa, Mem.malloc_of_ne hxa]
  have hfpn : ∀ x ∈ l ++ [b], (m₂.cell x).fpn = (m.cell x).fpn := by
    intro x hx
    have hxa : x ≠ a := fun e => hal (e ▸ hx)
    by_cases hxb : x = b
    · subst hxb; simp [m₂, m₁, Mem.malloc_of_ne hxa]
    · simp [m₂, m₁, hxb, Mem.malloc_of_ne hxa]
  have hfpna : (m₂.cell a).fpn = iter := by simp [m₂, m₁, hab.symm]
  refine ⟨m₂, Mem.store_live (List.mem_cons_of_mem a (hlive b (by simp))) _, ?_, ?_, rfl⟩
  · rw [hnext, List.append_assoc]
    have hlast : Seg (Function.update (fun x => (m.cell x).fpNext) a none) (some a) [a] none :=
      ⟨rfl, Function.update_self _ _ _⟩
    exact (hseg.update_of_notMem hal none).relink hlast hb (by simpa using hab)
  · rw [List.map_append, List.map_congr_left hfpn, List.map_singleton, hfpna]

theorem formatLoop_seg {p q : Option Nat} : ∀ (n iter : Nat) {m : Mem FramePhy} {l : List Nat} {b : Nat},
    Seg (fun a => (m.cell a).fpNext) p (l ++ [b]) q → (∀ a ∈ l ++ [b], a ∈ m.live) → b ∉ l →
    (∀ i, iter ≤ i → i < iter + n → (blk i).1 ∉ m.live) →
    (∀ i j, iter ≤ i → i < iter + n → iter ≤ j → j < iter + n → (blk i).1 = (blk j).1 → i = j) →
    ∃ m', formatLoop blk n iter m (some b) = .ok m' ∧
      Seg (fun a => (m'.cell a).fpNext) p (l ++ [b] ++ added blk iter n) (if n = 0 then q else none) ∧
      (l ++ [b] ++ added blk iter n).map (fun a => (m'.cell a).fpn) =
        (l ++ [b]).map (fun a => (m.cell a).fpn) ++ List.range' iter n ∧
      ∀ a ∈ l ++ [b] ++ added blk iter n, a ∈ m'.live
  | 0, iter, m, l, b, hseg, hlive, _, _, _ =>
    ⟨m, rfl, by simpa [added] using hseg, by simp [added], by simpa [added] using hlive⟩
  | n + 1, iter, m, l, b, hseg, hlive, hb, hfresh, hdist => by
    generalize hnew : (blk iter).1 = a
    have ha : a ∉ m.live := by rw [← hnew]; exact hfresh iter (Nat.le_refl _) (by omega)
    obtain ⟨m₂, hstore, hseg₂, hfpn₂, hlive₂⟩ := formatTurn_seg iter (blk iter).2 hseg hlive hb ha
    have hall : ∀ x ∈ l ++ [b] ++ [a], x ∈ m₂.live := by
      intro x hx
      rw [hlive₂]
      rcases List.mem_append.1 hx with hx | hx
      · exact List.mem_cons_of_mem a (hlive x hx)
      · rw [List.mem_singleton.1 hx]
        exact List.mem_cons_self
    obtain ⟨m', hloop, hseg', hframes, hlive'⟩ := formatLoop_seg n (iter + 1) hseg₂ hall
      (fun hm => ha (hlive a hm))
      (fun i hi hn hm => by
        rw [hlive₂] at hm
        rcases List.mem_cons.1 hm with hm | hm
        · have := hdist i iter (by omega) (by omega) (Nat.le_refl _) (by omega) (hm.trans hnew.symm)
          omega
        · exact hfresh i (by omega) (by omega) hm)
      (fun i j hi hn hj hn' => hdist i j (by omega) (by omega) (by omega) (by omega))
    have hadded : added blk iter (n + 1) = a :: added blk (iter + 1) n := by
      rw [added, List.range'_succ, List.map_cons, hnew]
      rfl
    have hassoc : l ++ [b] ++ added blk iter (n + 1) = l ++ [b] ++ [a] ++ added blk (iter + 1) n := by
      rw [hadded]
      simp
    refine ⟨m', ?_, ?_, ?_, by rw [hassoc]; exact hlive'⟩
    · simp only [formatLoop, hnew, bind, Except.bind]
      rw [hstore]
      exact hloop
    · rw [hassoc, if_neg (Nat.succ_ne_zero n)]
      simpa using hseg'
    · rw [hassoc, hframes, hfpn₂, List.range'_succ, List.append_assoc]
      rfl

/-- **What `MEMPHY_format` leaves** on a device of at least one frame: a node for each frame in order; after the
last one the list ends, but where the last is also the first it goes on with what its memory held. -/
theorem memphyFormat_seg (s : FrameHeap) {maxsz : Nat} (hsize : 256 ≤ maxsz)
    (hfresh : ∀ i < maxsz / 256, (blk i).1 ∉ s.mem.live)
    (hdist : ∀ i j, i < maxsz / 256 → j < maxsz / 256 → (blk i).1 = (blk j).1 → i = j) :
    ∃ s' as, s.memphyFormat maxsz 256 blk = .ok (s', 0) ∧
      Seg s'.next s'.freeFpList as (if maxsz / 256 = 1 then (blk 0).2.fpNext else none) ∧
      s'.frames as = List.range (maxsz / 256) ∧ ∀ a ∈ as, a ∈ s'.mem.live := by
  obtain ⟨n, hn⟩ : ∃ n, maxsz / 256 = n + 1 := ⟨maxsz / 256 - 1, by omega⟩
  rw [hn] at hfresh hdist
  let m := s.mem.malloc (blk 0).1 { (blk 0).2 with fpn := 0 }
  have hseg : Seg (fun a => (m.cell a).fpNext) (some (blk 0).1) ([] ++ [(blk 0).1]) (blk 0).2.fpNext :=
    ⟨rfl, by simp [m]⟩
  obtain ⟨m', hloop, hseg', hframes, hlive⟩ := @formatLoop_seg blk _ _ n 1 m [] (blk 0).1 hseg
    (fun a ha => by
      rw [List.nil_append, List.mem_singleton] at ha
      rw [ha]
      exact List.mem_cons_self)
    (List.not_mem_nil)
    (fun i hi hin hm => by
      rcases List.mem_cons.1 hm with hm | hm
      · have := hdist i 0 (by omega) (by omega) hm
        omega
      · exact hfresh i (by omega) hm)
    (fun i j hi hin hj hjn => hdist i j (by omega) (by omega))
  refine ⟨⟨m', some (blk 0).1⟩, [] ++ [(blk 0).1] ++ added blk 1 n, ?_, ?_, ?_, hlive⟩
  · simp only [memphyFormat, hn, Nat.succ_ne_zero, if_false, Nat.add_sub_cancel, bind, Except.bind]
    rw [hloop]
    rfl
  · simp only [hn, Nat.add_eq_right]
    exact hseg'
  · rw [frames, hframes, hn, List.range_eq_range', List.range'_succ]
    simp [m]

end Formatted

section Operations

variable {s : FrameHeap} {as : List Nat}

theorem rep_iff : s.Rep as ↔ s.mem.Chain (·.fpNext) s.freeFpList as :=
  ⟨fun h => ⟨h.linked, h.live⟩, fun h => ⟨h.linked, h.live⟩⟩

theorem Rep.eq_nil (h : s.Rep as) : s.freeFpList = none ↔ as = [] := h.linked.eq_none

theorem getFreefp_rep (h : s.Rep as) : ∃ s' as', s.getFreefp = .ok (s', (s.frames as).head?) ∧ s'.Rep as' ∧
    s'.frames as' = (s.frames as).tail ∧ (as = [] → s' = s) := by
  cases as with
  | nil =>
    refine ⟨s, [], ?_, h, rfl, fun _ => rfl⟩
    rw [getFreefp, h.eq_nil.2 rfl]
    rfl
  | cons a as =>
    have hhead : s.freeFpList = some a := h.linked.1
    refine ⟨⟨s.mem.free a, s.next a⟩, as, ?_, rep_iff.2 (rep_iff.1 h).pop, rfl, fun e => nomatch e⟩
    simp only [getFreefp, hhead, Mem.load_live (h.live a List.mem_cons_self), bind, Except.bind]
    rfl

theorem putFreefp_rep (h : s.Rep as) (fpn : Nat) {newnode : Nat} (hfresh : newnode ∉ s.mem.live) :
    (s.putFreefp fpn newnode).Rep (newnode :: as) ∧ (s.putFreefp fpn newnode).frames (newnode :: as) =
      fpn :: s.frames as := by
  have hchain := rep_iff.1 h
  have hcell : ∀ a ∈ as, (s.putFreefp fpn newnode).mem.cell a = s.mem.cell a := fun a ha =>
    Mem.malloc_of_ne (hchain.ne_of_fresh hfresh a ha) _
  refine ⟨rep_iff.2 (hchain.push hfresh rfl), ?_⟩
  rw [frames, List.map_cons, List.map_congr_left (fun a ha => congrArg FramePhy.fpn (hcell a ha))]
  simp [putFreefp, frames]

/-- **On a list that ends the two are `memphyGetFreefp` and `memphyPutFreefp`.** -/
theorem getFreefp_memphy (h : s.Rep as) (mp : Memphy) (hmp : mp.freeFpList = s.frames as) : ∃ s' as',
    s.getFreefp = .ok (s', (memphyGetFreefp mp).2) ∧ s'.Rep as' ∧
      (memphyGetFreefp mp).1.freeFpList = s'.frames as' := by
  obtain ⟨s', as', hget, hrep, hframes, -⟩ := getFreefp_rep h
  refine ⟨s', as', ?_, hrep, ?_⟩
  · rw [hget, memphyGetFreefp, hmp]
    cases s.frames as <;> rfl
  · rw [hframes, memphyGetFreefp, hmp]
    cases hl : s.frames as with
    | nil => exact hmp.trans hl
    | cons f l => rfl

theorem putFreefp_memphy (h : s.Rep as) (mp : Memphy) (hmp : mp.freeFpList = s.frames as) (fpn : Nat) {newnode : Nat}
    (hfresh : newnode ∉ s.mem.live) : ∃ as', (s.putFreefp fpn newnode).Rep as' ∧
      (memphyPutFreefp mp fpn).freeFpList = (s.putFreefp fpn newnode).frames as' := by
  obtain ⟨hrep, hframes⟩ := putFreefp_rep h fpn hfresh
  exact ⟨_, hrep, by rw [hframes, memphyPutFreefp, hmp]⟩

end Operations

end FrameHeap

/-! ## The pool -/

open FrameHeap

/-- **Any sequence of gets and puts** from the state `s₀`, with the frames handed out: only a frame that is handed
out is put back, and `malloc` returns a block that is not in use. -/
inductive PoolRun (s₀ : FrameHeap) : FrameHeap → List Nat → Prop where
  | start : PoolRun s₀ s₀ []
  | get {s s' out fpn} (hrun : PoolRun s₀ s out) (hcall : s.getFreefp = .ok (s', some fpn)) : PoolRun s₀ s' (fpn :: out)
  | exhausted {s s' out} (hrun : PoolRun s₀ s out) (hcall : s.getFreefp = .ok (s', none)) : PoolRun s₀ s' out
  | put {s out} (fpn newnode : Nat) (hrun : PoolRun s₀ s out) (hout : fpn ∈ out) (hfresh : newnode ∉ s.mem.live) :
      PoolRun s₀ (s.putFreefp fpn newnode) (out.erase fpn)

/-- **The pool law**, for `n` frames with `out` handed out: what is handed out is in range and handed out once; the
free list holds each of the remaining frames once and nothing else; and a get returns -1, and changes nothing,
exactly when all are handed out, and else a frame in range that is not. -/
structure PoolLaw (n : Nat) (s : FrameHeap) (out : List Nat) : Prop where
  inRange : ∀ f ∈ out, f < n
  once : out.Nodup
  free : ∃ as, s.Rep as ∧ (s.frames as).Nodup ∧ ∀ f, f ∈ s.frames as ↔ f < n ∧ f ∉ out
  exhausted : s.getFreefp = .ok (s, none) ↔ out.length = n
  handsOut : out.length ≠ n → ∃ s' f, s.getFreefp = .ok (s', some f) ∧ f < n ∧ f ∉ out

/-- **The invariant**: the free list and the frames handed out together are the frames of the device. -/
def PoolInv (n : Nat) (s : FrameHeap) (out : List Nat) : Prop :=
  ∃ as, s.Rep as ∧ (s.frames as ++ out).Perm (List.range n)

namespace PoolInv

variable {n : Nat} {s s' : FrameHeap} {out : List Nat}

theorem get (h : PoolInv n s out) {fpn : Nat} (hcall : s.getFreefp = .ok (s', some fpn)) :
    PoolInv n s' (fpn :: out) := by
  obtain ⟨as, hrep, hperm⟩ := h
  obtain ⟨s₁, as', hget, hrep', hframes, -⟩ := getFreefp_rep hrep
  obtain ⟨rfl, hhead⟩ := Prod.mk.inj (Except.ok.inj (hget.symm.trans hcall))
  obtain ⟨l, hl⟩ := List.head?_eq_some_iff.1 hhead
  refine ⟨as', hrep', ?_⟩
  rw [hframes, hl, List.tail_cons]
  rw [hl, List.cons_append] at hperm
  exact List.perm_middle.trans hperm

theorem exhausted (h : PoolInv n s out) (hcall : s.getFreefp = .ok (s', none)) : PoolInv n s' out := by
  obtain ⟨as, hrep, hperm⟩ := h
  obtain ⟨s₁, as', hget, hrep', hframes, -⟩ := getFreefp_rep hrep
  obtain ⟨rfl, hhead⟩ := Prod.mk.inj (Except.ok.inj (hget.symm.trans hcall))
  refine ⟨as', hrep', ?_⟩
  rw [List.head?_eq_none_iff] at hhead
  rw [hframes, hhead]
  rwa [hhead] at hperm

theorem put (h : PoolInv n s out) {fpn newnode : Nat} (hout : fpn ∈ out) (hfresh : newnode ∉ s.mem.live) :
    PoolInv n (s.putFreefp fpn newnode) (out.erase fpn) := by
  obtain ⟨as, hrep, hperm⟩ := h
  obtain ⟨hrep', hframes⟩ := putFreefp_rep hrep fpn hfresh
  refine ⟨_, hrep', ?_⟩
  rw [hframes, List.cons_append]
  exact (List.perm_middle.symm.trans (List.Perm.append_left _ (List.perm_cons_erase hout).symm)).trans hperm

theorem law (h : PoolInv n s out) : PoolLaw n s out := by
  obtain ⟨as, hrep, hperm⟩ := h
  have hnodup : (s.frames as ++ out).Nodup := hperm.nodup_iff.2 List.nodup_range
  obtain ⟨hfree, honce, hapart⟩ := List.nodup_append.1 hnodup
  have hmem : ∀ f, f ∈ s.frames as ∨ f ∈ out ↔ f < n := fun f => by
    rw [← List.mem_append, hperm.mem_iff, List.mem_range]
  have hlist : ∀ f, f ∈ s.frames as ↔ f < n ∧ f ∉ out := fun f =>
    ⟨fun hf => ⟨(hmem f).1 (Or.inl hf), fun hout => hapart f hf f hout rfl⟩,
      fun hf => ((hmem f).2 hf.1).resolve_right hf.2⟩
  have hlen : (s.frames as).length + out.length = n := by
    have := hperm.length_eq
    rwa [List.length_append, List.length_range] at this
  obtain ⟨s', as', hget, -, -, hsame⟩ := getFreefp_rep hrep
  have hnil : s.frames as = [] ↔ as = [] := List.map_eq_nil_iff
  refine ⟨fun f hf => (hmem f).1 (Or.inr hf), honce, ⟨as, hrep, hfree, hlist⟩, ⟨fun hcall => ?_, fun hall => ?_⟩,
    fun hsome => ?_⟩
  · have hhead := (Prod.mk.inj (Except.ok.inj (hget.symm.trans hcall))).2
    rw [List.head?_eq_none_iff.1 hhead] at hlen
    simpa using hlen
  · have hempty : s.frames as = [] := List.eq_nil_of_length_eq_zero (by omega)
    rw [hget, hempty, hsame (hnil.1 hempty)]
    rfl
  · obtain ⟨f, l, hl⟩ : ∃ f l, s.frames as = f :: l := List.exists_cons_of_ne_nil (fun e => hsome (by
      rw [e] at hlen
      simpa using hlen))
    refine ⟨s', f, by rw [hget, hl]; rfl, (hlist f).1 (by rw [hl]; exact List.mem_cons_self)⟩

end PoolInv

theorem poolRun_inv {n : Nat} {s₀ s : FrameHeap} {out : List Nat} (h₀ : PoolInv n s₀ []) (h : PoolRun s₀ s out) :
    PoolInv n s out := by
  induction h with
  | start => exact h₀
  | get _ hcall ih => exact ih.get hcall
  | exhausted _ hcall ih => exact ih.exhausted hcall
  | put fpn newnode _ hout hfresh ih => exact ih.put hout hfresh

/-- **When the pool hands out each frame once**: on a device of two frames or more, and on a device of one frame exactly
if the memory of its node held a null link. -/
theorem framePool_law_iff (s : FrameHeap) (maxSize : Nat) (blk : Nat → Nat × FramePhy) (hsize : 256 ≤ maxSize)
    (hfresh : ∀ i < maxSize / 256, (blk i).1 ∉ s.mem.live)
    (hdist : ∀ i j, i < maxSize / 256 → j < maxSize / 256 → (blk i).1 = (blk j).1 → i = j) :
    ∃ s₀, s.memphyFormat maxSize pagingPagesz blk = .ok (s₀, 0) ∧
      ((∀ s' out, PoolRun s₀ s' out → PoolLaw (maxSize / 256) s' out) ↔ 512 ≤ maxSize ∨ (blk 0).2.fpNext = none) := by
  obtain ⟨s₀, as, hformat, hseg, hframes, hlive⟩ := memphyFormat_seg s hsize hfresh hdist
  refine ⟨s₀, hformat, fun hlaw => ?_, fun hcond s' out hrun => ?_⟩
  · -- at the start already the list has to end after the one frame
    by_contra hnot
    rw [not_or] at hnot
    have hone : maxSize / 256 = 1 := by omega
    obtain ⟨bs, hrep, hnodup, hmem⟩ := (hlaw s₀ [] .start).free
    rw [if_pos hone] at hseg
    have hasone : as.length = 1 := by
      have := congrArg List.length hframes
      rwa [frames, List.length_map, List.length_range, hone] at this
    have hbsone : bs.length ≤ 1 := by
      have hsub : s₀.frames bs ⊆ [0] := fun f hf => by
        have := ((hmem f).1 hf).1
        rw [hone] at this
        exact List.mem_singleton.2 (by omega)
      have := (List.Nodup.subperm hnodup hsub).length_le
      rwa [frames, List.length_map] at this
    obtain ⟨a, rfl⟩ := List.length_eq_one_iff.1 hasone
    cases bs with
    | nil => exact absurd (hseg.1.symm.trans hrep.linked) (by simp)
    | cons b bs =>
      obtain rfl : bs = [] := List.eq_nil_of_length_eq_zero (by simpa using hbsone)
      obtain rfl : a = b := Option.some.inj (hseg.1.symm.trans hrep.linked.1)
      exact hnot.2 (hseg.2.symm.trans hrep.linked.2)
  · have hend : (if maxSize / 256 = 1 then (blk 0).2.fpNext else none) = none := by
      rcases hcond with hcond | hcond
      · exact if_neg (by omega)
      · rw [hcond]
        exact ite_self _
    rw [hend] at hseg
    exact (poolRun_inv ⟨as, ⟨hseg, hlive⟩, by rw [hframes, List.append_nil]⟩ hrun).law

/-- A device of three frames, on memory full of stale links. -/
theorem framePool_law_iff_three : ∃ s₀, FrameHeap.memphyFormat ⟨⟨fun _ => ⟨9, some 9⟩, []⟩, some 4⟩ 800 pagingPagesz
      (fun i => (10 * i, ⟨9, some 9⟩)) = .ok (s₀, 0) ∧
    ((∀ s' out, PoolRun s₀ s' out → PoolLaw (800 / 256) s' out) ↔
      512 ≤ 800 ∨ ((fun i => (10 * i, ⟨9, some 9⟩) : Nat → Nat × FramePhy) 0).2.fpNext = none) :=
  framePool_law_iff ⟨⟨fun _ => ⟨9, some 9⟩, []⟩, some 4⟩ 800 (fun i => (10 * i, ⟨9, some 9⟩)) (by decide) (by simp)
    (fun i j _ _ h => by
      have h10 : 10 * i = 10 * j := h
      omega)

/-- **A device of one frame whose node held a link** to itself: the first get returns frame 0, and leaves the list
with the node it freed, so that the second one follows a pointer to freed memory. -/
theorem framePool_law_fails : ∃ s₀ s₁,
    FrameHeap.memphyFormat ⟨⟨fun _ => ⟨0, none⟩, []⟩, none⟩ 256 pagingPagesz (fun _ => (10, ⟨0, some 10⟩)) =
      .ok (s₀, 0) ∧
      s₀.getFreefp = .ok (s₁, some 0) ∧ s₁.getFreefp = .error .dead ∧ PoolRun s₀ s₁ [0] ∧ ¬ PoolLaw 1 s₁ [0] := by
  obtain ⟨s₀, hs₀⟩ : ∃ s₀, FrameHeap.memphyFormat ⟨⟨fun _ => ⟨0, none⟩, []⟩, none⟩ 256 pagingPagesz
      (fun _ => (10, ⟨0, some 10⟩)) = .ok (s₀, 0) := ⟨_, rfl⟩
  obtain ⟨s₁, hs₁⟩ : ∃ s₁, s₀.getFreefp = .ok (s₁, some 0) := by cases hs₀; exact ⟨_, rfl⟩
  have hdead : s₁.getFreefp = .error .dead := by cases hs₀; cases hs₁; rfl
  refine ⟨s₀, s₁, hs₀, hs₁, hdead, .get .start hs₁, fun hlaw => ?_⟩
  have hnone := hlaw.exhausted.2 rfl
  rw [hdead] at hnone
  cases hnone

end OsSim
