import OsSim.FifoPaging
import OsSim.Mapping
/-!
# SwapPlaces — where a page is read back from, in the build without `LRU`

A page that goes out leaves its swap frame's number in its entry; `pg_getpage` takes what it finds there for the
frame, reads it and puts it back on the free list.  While no frame in use is free and no two pages have one, a
page's bytes stay where they were copied.  `pg_getpage` writes the frame, `alloc_pages_range` 256 times it, and only
of frame 0 is that the same.
-/
namespace OsSim

open Atomic Code

namespace FifoBuild

abbrev frun {α : Type} (c : FifoCode α) (x : Machine × Fifo) : Except Fault ((Machine × Fifo) × α) :=
  exec (Interp.sum step fifoStep) c x

theorem frun_bind_ok {α β : Type} {c : FifoCode α} {k : α → FifoCode β} {x x' : Machine × Fifo} {b : β} :
    frun (c >>= k) x = .ok (x', b) ↔ ∃ x₁ a, frun c x = .ok (x₁, a) ∧ frun (k a) x₁ = .ok (x', b) :=
  exec_bind_ok _

theorem frun_bind_eq {α β : Type} {c : FifoCode α} {k : α → FifoCode β} {x x' : Machine × Fifo} {a : α}
    (h : frun c x = .ok (x', a)) : frun (c >>= k) x = frun (k a) x' := by
  rw [frun, exec_bind, show exec (Interp.sum step fifoStep) c x = _ from h]

section Steps

variable {α β : Type} (m : Machine) (f : Fifo)

theorem frun_lift {c : Code α} {x : Machine × Fifo} {a : α} (h : frun (liftM c) (m, f) = .ok (x, a)) :
    ∃ m', run c m = .ok (m', a) ∧ x = (m', f) :=
  exec_inl_ok step fifoStep h

theorem frun_lift_bind_ok {c : Code α} {k : α → FifoCode β} {x : Machine × Fifo} {b : β}
    (h : frun (liftM c >>= k) (m, f) = .ok (x, b)) : ∃ m₁ a, run c m = .ok (m₁, a) ∧ frun (k a)
    (m₁, f) = .ok (x, b) := by
  obtain ⟨x₁, a, hlift, hrest⟩ := frun_bind_ok.1 h
  obtain ⟨m₁, hrun, rfl⟩ := frun_lift m f hlift
  exact ⟨m₁, a, hrun, hrest⟩

theorem frun_lift_bind {c : Code α} {k : α → FifoCode β} {m' : Machine} {a : α} (h : run c m = .ok (m', a)) :
    frun (liftM c >>= k) (m, f) = frun (k a) (m', f) := by
  refine frun_bind_eq ?_
  change exec (Interp.sum step fifoStep) c.inl (m, f) = _
  rw [exec_inl, show exec step c m = _ from h]
  rfl

@[simp] theorem frun_pure (a : α) : frun (pure a) (m, f) = .ok ((m, f), a) := rfl

@[simp] theorem frun_lock (l : MemInUse) (k : Unit → FifoCode α) : frun (liftM (lock l) >>= k) (m, f) = frun (k ())
    (m, f) :=
  rfl

@[simp] theorem frun_unlock (l : MemInUse) (k : Unit → FifoCode α) :
    frun (liftM (unlock l) >>= k) (m, f) = frun (k ()) (m, f) := rfl

@[simp] theorem frun_readPte (r : PteRef) (k : Pte → FifoCode α) :
    frun (liftM (readPte r) >>= k) (m, f) = frun (k (m.pgd r)) (m, f) := rfl

@[simp] theorem frun_getMm (p : Pid) (k : Mm → FifoCode α) : frun (liftM (getMm p) >>= k) (m, f) = frun (k (m.mm p))
    (m, f) :=
  rfl

@[simp] theorem frun_setMm (p : Pid) (mm : Mm) (k : Unit → FifoCode α) :
    frun (liftM (setMm p mm) >>= k) (m, f) = frun (k ()) (m.setMm p mm, f) := rfl

@[simp] theorem frun_setFpn (r : PteRef) (fpn : Nat) (k : Pte → FifoCode α) :
    frun (liftM (setFpn r fpn) >>= k) (m, f) = frun (k (m.pgd r)) (m.setPte r (pteSetFpn (m.pgd r) fpn), f) := rfl

@[simp] theorem frun_putFreefp (d : Dev) (fpn : Nat) (k : Unit → FifoCode α) :
    frun (liftM (putFreefp d fpn) >>= k) (m, f) = frun (k ()) (m.setFree d (fpn :: (m.dev d).freeFpList), f) := rfl

@[simp] theorem frun_enlistPgnNode (p : Pid) (pgn : Nat) (k : Unit → FifoCode α) :
    frun (enlistPgnNode p pgn >>= k) (m, f) =
      frun (k ()) (m, { f with fifoPgn := Function.update f.fifoPgn p (pgn :: f.fifoPgn p) }) := rfl

@[simp] theorem frun_note (e : Event) (k : Unit → FifoCode α) :
    frun (note e >>= k) (m, f) = frun (k ()) (m, { f with trace := f.trace ++ [e] }) := rfl

@[simp] theorem frun_noteEvicted (r : PteRef) (swpfpn : Nat) (k : Unit → FifoCode α) :
    frun (noteEvicted r swpfpn >>= k) (m, f) =
      frun (k ()) (m, { f with trace := f.trace ++ [.evicted r swpfpn (pageBytes m r)] }) := rfl

theorem frun_getFreefp_nil {d : Dev} {k : Option Nat → FifoCode α} (h : (m.dev d).freeFpList = []) :
    frun (liftM (getFreefp d) >>= k) (m, f) = frun (k none) (m, f) :=
  frun_lift_bind m f (run_getFreefp_nil m d (f := pure) h)

theorem frun_getFreefp_cons {d : Dev} {k : Option Nat → FifoCode α} {x : Nat} {l : List Nat}
    (h : (m.dev d).freeFpList = x :: l) :
    frun (liftM (getFreefp d) >>= k) (m, f) = frun (k (some x)) (m.setFree d l, f) :=
  frun_lift_bind m f (run_getFreefp_cons m d (f := pure) h)

theorem frun_findVictimPage_nil {p : Pid} {k : Option Nat → FifoCode α} (h : f.fifoPgn p = []) :
    frun (findVictimPage p >>= k) (m, f) = frun (k none) (m, f) := by
  have hstep : fifoStep (.findVictimPage p) (m, f) = .ok ((m, f), none) := by
    simp only [fifoStep, h, lastPage]
  exact frun_bind_eq ((exec_perform _ _ _).trans hstep)

theorem frun_findVictimPage_last {p : Pid} {k : Option Nat → FifoCode α} {l : List Nat} {v : Nat}
    (h : f.fifoPgn p = l ++ [v]) :
    frun (findVictimPage p >>= k) (m, f) =
      frun (k (some v)) (m, { f with fifoPgn := Function.update f.fifoPgn p l }) := by
  have hstep : fifoStep (.findVictimPage p) (m, f) =
      .ok ((m, { f with fifoPgn := Function.update f.fifoPgn p l }), some v) := by
    simp only [fifoStep, h, lastPage_eq]
  exact frun_bind_eq ((exec_perform _ _ _).trans hstep)

end Steps

/-! ## A page goes out -/

/-- The machine after the page `r` has gone out to the swap frame `s`, with `off` in its entry. -/
def outTo (m : Machine) (r : PteRef) (s off : Nat) (rest : List Nat) : Machine :=
  ((m.setFree .mswp rest).copyPage .mram (m.pgd r).fpn .mswp s).setPte r (pteSetSwap (m.pgd r) indexOfActiveMswp off)

def outFifo (m : Machine) (f : Fifo) (r : PteRef) (s : Nat) (l : List Nat) : Fifo :=
  ⟨Function.update f.fifoPgn r.pid l, f.trace ++ [.evicted r s (pageBytes m r)]⟩

inductive Replaced (p : Pid) (swpoff : Nat → Nat) (m : Machine) (f : Fifo) :
    Except Int Nat → Machine × Fifo → Prop where
  | noVictim (hlist : f.fifoPgn p = []) : Replaced p swpoff m f (.error (-1)) (m, f)
  | out {l v s rest} (hlist : f.fifoPgn p = l ++ [v]) (hswp : m.mswp.freeFpList = s :: rest) :
      Replaced p swpoff m f (.ok (m.pgd ⟨p, v⟩).fpn) (outTo m ⟨p, v⟩ s (swpoff s) rest, outFifo m f ⟨p, v⟩ s l)

theorem run_freeSwapFrame {m m' : Machine} {o : Option Nat} (h : run freeSwapFrame m = .ok (m', o)) :
    ∃ s rest, m.mswp.freeFpList = s :: rest ∧ o = some s ∧ m' = m.setFree .mswp rest := by
  cases hswp : m.mswp.freeFpList with
  | nil =>
    rw [freeSwapFrame, run_getFreefp_nil m .mswp hswp] at h
    cases h
  | cons s rest =>
    rw [freeSwapFrame, run_getFreefp_cons m .mswp hswp] at h
    cases h
    exact ⟨s, rest, rfl, rfl, rfl⟩

theorem frun_swapOut {r : PteRef} {fpn s off : Nat} {m : Machine} {f : Fifo} {x : Machine × Fifo} {u : Unit}
    (h : frun (swapOut r fpn s off) (m, f) = .ok (x, u)) :
    x = ((m.copyPage .mram fpn .mswp s).setPte r (pteSetSwap (m.pgd r) indexOfActiveMswp off),
      { f with trace := f.trace ++ [.evicted r s (pageBytes m r)] }) := by
  rw [swapOut, frun_noteEvicted] at h
  obtain ⟨m₁, _, hcopy, h⟩ := frun_lift_bind_ok _ _ h
  rw [run_swapCpPage (by decide) hcopy] at h
  obtain ⟨m₂, hset, rfl⟩ := frun_lift _ _ h
  cases hset
  simp

theorem frun_replacePage {p : Pid} {swpoff : Nat → Nat} {m : Machine} {f : Fifo} {x : Machine × Fifo}
    {o : Except Int Nat} (h : frun (replacePage p swpoff) (m, f) = .ok (x, o)) : Replaced p swpoff m f o x := by
  rw [replacePage] at h
  rcases List.eq_nil_or_concat (f.fifoPgn p) with hlist | ⟨l, v, hlist⟩
  · rw [frun_findVictimPage_nil m f hlist] at h
    cases h
    exact .noVictim hlist
  · rw [List.concat_eq_append] at hlist
    rw [frun_findVictimPage_last m f hlist] at h
    dsimp only at h
    rw [frun_readPte] at h
    obtain ⟨m₁, o₁, hframe, h⟩ := frun_lift_bind_ok _ _ h
    obtain ⟨s, rest, hswp, rfl, rfl⟩ := run_freeSwapFrame hframe
    obtain ⟨x₂, _, hout, h⟩ := frun_bind_ok.1 h
    rw [frun_swapOut hout] at h
    cases h
    simp only [Machine.setFree_pgd]
    exact .out hlist hswp

/-! ## The law -/

def Event.Returns (r : PteRef) : Event → Prop
  | .evicted _ _ _ => False
  | .broughtIn q => q = r

def Event.Overwrites (s : Nat) : Event → Prop
  | .evicted _ s' _ => s' = s
  | _ => False

def swapBytes (m : Machine) (s : Nat) : List (Option Byte) := (List.range 256).map (fun j => some (m.mswp.page s j))

/-- **The page would be read from the swap frame `s`**, and the frame holds these bytes. -/
structure InSwap (m : Machine) (r : PteRef) (s : Nat) (bytes : List (Option Byte)) : Prop where
  present : (m.pgd r).present = false
  swapped : (m.pgd r).swapped = true
  swptyp : (m.pgd r).swptyp = 0
  swpoff : (m.pgd r).swpoff = s
  bytes : swapBytes m s = bytes

/-- **Every page that has gone out and not come back** would be read from the swap frame it was copied to, and the
frame holds its bytes and has not been written to since. -/
def SwapLaw (x : Machine × Fifo) : Prop :=
  ∀ pre r s bytes post, x.2.trace = pre ++ .evicted r s bytes :: post → (∀ e ∈ post, ¬ e.Returns r) →
    InSwap x.1 r s bytes ∧ ∀ e ∈ post, ¬ e.Overwrites s

/-- **One event more**: it keeps what the pages are in, and a page that goes out is where it says. -/
theorem SwapLaw.append {m m' : Machine} {f f' : Fifo} {e : Event} (h : SwapLaw (m, f))
    (htrace : f'.trace = f.trace ++ [e])
    (hold : ∀ r s bytes, InSwap m r s bytes → ¬ e.Returns r → InSwap m' r s bytes ∧ ¬ e.Overwrites s)
    (hnew : ∀ r s bytes, e = .evicted r s bytes → InSwap m' r s bytes) : SwapLaw (m', f') := by
  intro pre r s bytes post hsplit hstay
  rw [htrace] at hsplit
  rcases List.eq_nil_or_concat post with rfl | ⟨post', e', rfl⟩
  · obtain ⟨-, heq⟩ := List.append_inj' hsplit rfl
    refine ⟨hnew r s bytes (by simpa using heq), fun e' he' => by cases he'⟩
  · rw [List.concat_eq_append] at hsplit hstay ⊢
    have hcut : f.trace ++ [e] = (pre ++ .evicted r s bytes :: post') ++ [e'] := by rw [hsplit]; simp
    obtain ⟨hbefore, heq⟩ := List.append_inj' hcut rfl
    obtain rfl : e = e' := by simpa using heq
    obtain ⟨hin, hsince⟩ := h pre r s bytes post' hbefore (fun e' he' => hstay e' (by simp [he']))
    obtain ⟨hin', hover⟩ := hold r s bytes hin (hstay e (by simp))
    refine ⟨hin', fun e' he' => ?_⟩
    rcases List.mem_append.1 he' with he' | he'
    · exact hsince e' he'
    · rw [List.mem_singleton.1 he']
      exact hover

/-! ## The invariant -/

/-- **Every swap frame has one use**: it is free, or a page is in it; and the pages in the lists are in RAM. -/
structure Placed (n : Nat) (x : Machine × Fifo) : Prop where
  random : x.1.mswp.rdmflg = true
  free : x.1.mswp.freeFpList.Nodup ∧ ∀ s ∈ x.1.mswp.freeFpList, s < n
  one : ∀ r, (x.1.pgd r).swapped = true → (x.1.pgd r).present = false
  out : ∀ r, (x.1.pgd r).swapped = true →
    (x.1.pgd r).swptyp = 0 ∧ (x.1.pgd r).swpoff < n ∧ (x.1.pgd r).swpoff ∉ x.1.mswp.freeFpList
  inj : ∀ r q, (x.1.pgd r).swapped = true → (x.1.pgd q).swapped = true → (x.1.pgd r).swpoff = (x.1.pgd q).swpoff → r = q
  listed : ∀ p, (x.2.fifoPgn p).Nodup ∧ ∀ pgn ∈ x.2.fifoPgn p, (x.1.pgd ⟨p, pgn⟩).present = true
  law : SwapLaw x

section Keep

variable {n : Nat} {m m' : Machine} {f : Fifo}

theorem InSwap.congr {r : PteRef} {s : Nat} {bytes : List (Option Byte)} (h : InSwap m r s bytes)
    (hpgd : m'.pgd r = m.pgd r) (hpage : ∀ j < 256, m'.mswp.page s j = m.mswp.page s j) : InSwap m' r s bytes := by
  refine ⟨by rw [hpgd]; exact h.present, by rw [hpgd]; exact h.swapped, by rw [hpgd]; exact h.swptyp,
    by rw [hpgd]; exact h.swpoff, ?_⟩
  rw [← h.bytes]
  exact List.map_congr_left (fun j hj => by rw [hpage j (List.mem_range.1 hj)])

/-- **As long as the swap device is left alone and no page goes to it**, the lists and the history are all there is
to keep. -/
theorem Placed.narrow (h : Placed n (m, f)) {f' : Fifo} (hmswp : m'.mswp = m.mswp)
    (hsame : ∀ q, (m'.pgd q).swapped = true → m'.pgd q = m.pgd q)
    (hlisted : ∀ p, (f'.fifoPgn p).Nodup ∧ ∀ pgn ∈ f'.fifoPgn p, (m'.pgd ⟨p, pgn⟩).present = true)
    (hlaw : SwapLaw (m', f')) : Placed n (m', f') where
  random := by rw [hmswp]; exact h.random
  free := by rw [hmswp]; exact h.free
  one q hq := by
    have hpte := hsame q hq
    dsimp only at hq ⊢
    rw [hpte] at hq ⊢
    exact h.one q hq
  out q hq := by
    have hpte := hsame q hq
    dsimp only at hq ⊢
    rw [hpte] at hq
    rw [hpte, hmswp]
    exact h.out q hq
  inj q q' hq hq' heq := by
    have hpte := hsame q hq
    have hpte' := hsame q' hq'
    dsimp only at hq hq' heq
    rw [hpte] at hq heq
    rw [hpte'] at hq' heq
    exact h.inj q q' hq hq' heq
  listed := hlisted
  law := hlaw

theorem Placed.congr (h : Placed n (m, f)) (hmswp : m'.mswp = m.mswp) (hpgd : m'.pgd = m.pgd) : Placed n (m', f) := by
  refine h.narrow hmswp (fun q _ => by rw [hpgd]) (by rw [hpgd]; exact h.listed)
    (fun pre r s bytes post hsplit hstay => ?_)
  obtain ⟨hin, hsince⟩ := h.law pre r s bytes post hsplit hstay
  exact ⟨hin.congr (by rw [hpgd]) (fun j _ => by rw [hmswp]), hsince⟩

theorem Placed.dropped (h : Placed n (m, f)) {p : Pid} {l : List Nat} {v : Nat} (hlist : f.fifoPgn p = l ++ [v]) :
    Placed n (m, { f with fifoPgn := Function.update f.fifoPgn p l }) := by
  refine h.narrow rfl (fun _ _ => rfl) (fun q => ?_) h.law
  by_cases hq : q = p
  · subst hq
    have hlisted := h.listed q
    dsimp only at hlisted ⊢
    rw [hlist] at hlisted
    rw [Function.update_self]
    exact ⟨(List.nodup_append.1 hlisted.1).1, fun pgn hpgn => hlisted.2 pgn (by simp [hpgn])⟩
  · dsimp only
    rw [Function.update_of_ne hq]
    exact h.listed q

theorem outTo_mswp {r : PteRef} {s off : Nat} {rest : List Nat} (hrandom : m.mswp.rdmflg = true) :
    (outTo m r s off rest).mswp = { m.mswp.paste s (m.mram.page (m.pgd r).fpn) with freeFpList := rest } := by
  have hr : ((m.setFree .mswp rest).dev .mswp).rdmflg = true := hrandom
  change (if _ then _ else _ : Memphy) = _
  rw [if_pos hr]
  rfl

theorem outTo_pgd (r : PteRef) (s off : Nat) (rest : List Nat) :
    (outTo m r s off rest).pgd = Function.update m.pgd r (pteSetSwap (m.pgd r) indexOfActiveMswp off) := by
  simp [outTo]

theorem Placed.out_inSwap (h : Placed n (m, f)) {r : PteRef} (hpres : (m.pgd r).present = true) {s off : Nat}
    (hoff : off % 2097152 = s) (rest : List Nat) : InSwap (outTo m r s off rest) r s (pageBytes m r) := by
  have hmswp := @outTo_mswp m r s off rest h.random
  have hpte : (outTo m r s off rest).pgd r = pteSetSwap (m.pgd r) indexOfActiveMswp off := by
    rw [outTo_pgd, Function.update_self]
  refine ⟨by rw [hpte, present_pteSetSwap], by rw [hpte, swapped_pteSetSwap], by rw [hpte, swptyp_pteSetSwap]; rfl,
    by rw [hpte, swpoff_pteSetSwap, hoff], ?_⟩
  refine List.map_congr_left (fun j hj => ?_)
  rw [if_pos hpres, hmswp]
  exact congrArg some (((m.mswp.page_paste s s _ (List.mem_range.1 hj))).trans (if_pos rfl))

theorem Placed.victim (h : Placed n (m, f)) {p : Pid} {l : List Nat} {v : Nat} (hlist : f.fifoPgn p = l ++ [v]) :
    (m.pgd ⟨p, v⟩).present = true ∧ (m.pgd ⟨p, v⟩).swapped = false := by
  have hpres : (m.pgd ⟨p, v⟩).present = true := (h.listed p).2 v (by simp [hlist])
  refine ⟨hpres, ?_⟩
  by_contra hs
  have habsent := h.one ⟨p, v⟩ (by simpa using hs)
  rw [hpres] at habsent
  cases habsent

theorem Placed.apart (h : Placed n (m, f)) {s : Nat} {rest : List Nat} (hswp : m.mswp.freeFpList = s :: rest) :
    s < n ∧ s ∉ rest ∧ ∀ q, (m.pgd q).swapped = true → (m.pgd q).swpoff ≠ s ∧ (m.pgd q).swpoff ∉ rest := by
  have hfree := h.free
  dsimp only at hfree
  rw [hswp] at hfree
  refine ⟨hfree.2 s (by simp), (List.nodup_cons.1 hfree.1).1, fun q hq => ?_⟩
  have hout := (h.out q hq).2.2
  dsimp only at hout
  rw [hswp, List.mem_cons, not_or] at hout
  exact hout

section GoesOut

variable {p : Pid} {l : List Nat} {v s off : Nat} {rest : List Nat}

theorem Placed.outLaw (h : Placed n (m, f)) (hlist : f.fifoPgn p = l ++ [v]) (hswp : m.mswp.freeFpList = s :: rest)
    (hoff : off % 2097152 = s) : SwapLaw (outTo m ⟨p, v⟩ s off rest, outFifo m f ⟨p, v⟩ s l) := by
  obtain ⟨hpres, hin⟩ := h.victim hlist
  refine h.law.append rfl (fun q s' bytes hq _ => ?_) (fun q s' bytes heq => ?_)
  · have hqr : q ≠ ⟨p, v⟩ := by
      rintro rfl
      have hswapped := hq.swapped
      rw [hin] at hswapped
      cases hswapped
    have hne : s' ≠ s := by
      have hoff' := ((h.apart hswp).2.2 q hq.swapped).1
      rwa [hq.swpoff] at hoff'
    refine ⟨hq.congr (by rw [outTo_pgd, Function.update_of_ne hqr]) (fun j hj => ?_), fun e => hne e.symm⟩
    rw [outTo_mswp h.random]
    exact (m.mswp.page_paste s s' _ hj).trans (if_neg hne)
  · cases heq
    exact h.out_inSwap hpres hoff rest

/-- **A page that goes out** to a free swap frame, and has the frame in its entry, keeps the invariant. -/
theorem Placed.goneOut (h : Placed n (m, f)) (hlist : f.fifoPgn p = l ++ [v]) (hswp : m.mswp.freeFpList = s :: rest)
    (hoff : off % 2097152 = s) : Placed n (outTo m ⟨p, v⟩ s off rest, outFifo m f ⟨p, v⟩ s l) := by
  obtain ⟨hs, hrest, hnot⟩ := h.apart hswp
  have hself := h.out_inSwap (h.victim hlist).1 hoff rest
  have hother : ∀ q, q ≠ (⟨p, v⟩ : PteRef) → (outTo m ⟨p, v⟩ s off rest).pgd q = m.pgd q := fun q hq => by
    rw [outTo_pgd, Function.update_of_ne hq]
  have hmswp := @outTo_mswp m ⟨p, v⟩ s off rest h.random
  have hfree : (outTo m ⟨p, v⟩ s off rest).mswp.freeFpList = rest := by rw [hmswp]
  refine ⟨by rw [hmswp]; exact h.random, ?_, fun q hq => ?_, fun q hq => ?_, fun q q' hq hq' heq => ?_, fun p' => ?_,
    h.outLaw hlist hswp hoff⟩
  · have hfreeBefore := h.free
    dsimp only at hfreeBefore ⊢
    rw [hswp] at hfreeBefore
    rw [hfree]
    exact ⟨(List.nodup_cons.1 hfreeBefore.1).2, fun s' hs' => hfreeBefore.2 s' (List.mem_cons_of_mem _ hs')⟩
  · by_cases hqr : q = ⟨p, v⟩
    · rw [hqr]
      exact hself.present
    · dsimp only at hq ⊢
      rw [hother q hqr] at hq ⊢
      exact h.one q hq
  · dsimp only at hq ⊢
    rw [hfree]
    by_cases hqr : q = ⟨p, v⟩
    · rw [hqr, hself.swpoff]
      exact ⟨hself.swptyp, hs, hrest⟩
    · rw [hother q hqr] at hq ⊢
      exact ⟨(h.out q hq).1, (h.out q hq).2.1, (hnot q hq).2⟩
  · -- the frame of the page gone out was free, so no other page has it
    dsimp only at hq hq' heq
    by_cases hqr : q = ⟨p, v⟩
    · by_cases hqr' : q' = ⟨p, v⟩
      · rw [hqr, hqr']
      · rw [hqr, hself.swpoff, hother q' hqr'] at heq
        rw [hother q' hqr'] at hq'
        exact absurd heq.symm (hnot q' hq').1
    · by_cases hqr' : q' = ⟨p, v⟩
      · rw [hqr', hself.swpoff, hother q hqr] at heq
        rw [hother q hqr] at hq
        exact absurd heq (hnot q hq).1
      · rw [hother q hqr] at hq heq
        rw [hother q' hqr'] at hq' heq
        exact h.inj q q' hq hq' heq
  · obtain ⟨hnodup, hpresent⟩ := (h.dropped hlist).listed p'
    refine ⟨hnodup, fun pgn hpgn => ?_⟩
    have hne : (⟨p', pgn⟩ : PteRef) ≠ ⟨p, v⟩ := by
      intro heq
      obtain ⟨rfl, rfl⟩ := PteRef.mk.inj heq
      have hmem : pgn ∈ l := by
        have hpgn' : pgn ∈ Function.update f.fifoPgn p' l p' := hpgn
        rwa [Function.update_self] at hpgn'
      have hlisted := (h.listed p').1
      dsimp only at hlisted
      rw [hlist] at hlisted
      exact (List.nodup_append.1 hlisted).2.2 pgn hmem pgn (by simp) rfl
    dsimp only
    rw [hother _ hne]
    exact hpresent pgn hpgn

end GoesOut

theorem Placed.cameIn (h : Placed n (m, f)) {r : PteRef} (habsent : (m.pgd r).present = false) (fpn : Nat)
    {trace : List Event} (hlaw : SwapLaw (m.setPte r (pteSetFpn (m.pgd r) fpn),
      ⟨Function.update f.fifoPgn r.pid (r.pgn :: f.fifoPgn r.pid), trace⟩)) :
    Placed n (m.setPte r (pteSetFpn (m.pgd r) fpn),
      ⟨Function.update f.fifoPgn r.pid (r.pgn :: f.fifoPgn r.pid), trace⟩) := by
  have hself : (m.setPte r (pteSetFpn (m.pgd r) fpn)).pgd r = pteSetFpn (m.pgd r) fpn := by simp
  have hother : ∀ q, q ≠ r → (m.setPte r (pteSetFpn (m.pgd r) fpn)).pgd q = m.pgd q := fun q hq => by simp [hq]
  refine h.narrow rfl (fun q hq => ?_) (fun p => ?_) hlaw
  · -- a page in swap is another one
    by_cases hqr : q = r
    · rw [hqr, hself, swapped_pteSetFpn] at hq
      cases hq
    · exact hother q hqr
  · have hlisted := h.listed p
    dsimp only at hlisted ⊢
    by_cases hp : p = r.pid
    · subst hp
      have hnew : r.pgn ∉ f.fifoPgn r.pid := fun hmem => by
        have hpres := hlisted.2 r.pgn hmem
        rw [habsent] at hpres
        cases hpres
      rw [Function.update_self]
      refine ⟨List.nodup_cons.2 ⟨hnew, hlisted.1⟩, fun pgn hpgn => ?_⟩
      by_cases hr : pgn = r.pgn
      · subst hr
        rw [hself, present_pteSetFpn]
      · rw [hother _ (fun heq => hr (congrArg PteRef.pgn heq))]
        exact hlisted.2 pgn ((List.mem_cons.1 hpgn).resolve_left hr)
    · rw [Function.update_of_ne hp]
      refine ⟨hlisted.1, fun pgn hpgn => ?_⟩
      rw [hother _ (fun heq => hp (congrArg PteRef.pid heq))]
      exact hlisted.2 pgn hpgn

theorem Placed.mapped (h : Placed n (m, f)) {r : PteRef} (habsent : (m.pgd r).present = false)
    (hswapped : (m.pgd r).swapped = false) (fpn : Nat) :
    Placed n (m.setPte r (pteSetFpn (m.pgd r) fpn),
      { f with fifoPgn := Function.update f.fifoPgn r.pid (r.pgn :: f.fifoPgn r.pid) }) := by
  refine h.cameIn habsent fpn (fun pre q s bytes post hsplit hstay => ?_)
  obtain ⟨hin, hsince⟩ := h.law pre q s bytes post hsplit hstay
  have hqr : q ≠ r := by
    rintro rfl
    have hs := hin.swapped
    rw [hswapped] at hs
    cases hs
  exact ⟨hin.congr (by simp [hqr]) (fun _ _ => rfl), hsince⟩

theorem Placed.broughtIn (h : Placed n (m, f)) {r : PteRef} (habsent : (m.pgd r).present = false) (fpn : Nat) :
    Placed n (m.setPte r (pteSetFpn (m.pgd r) fpn),
      ⟨Function.update f.fifoPgn r.pid (r.pgn :: f.fifoPgn r.pid), f.trace ++ [.broughtIn r]⟩) := by
  refine h.cameIn habsent fpn (h.law.append rfl (fun q s bytes hq hstay => ?_) (fun q s bytes heq => by cases heq))
  have hqr : q ≠ r := fun heq => hstay heq.symm
  exact ⟨hq.congr (by simp [hqr]) (fun _ _ => rfl), id⟩

theorem Placed.freed (h : Placed n (m, f)) {s : Nat} (hs : s < n) (hfree : s ∉ m.mswp.freeFpList)
    (hnone : ∀ q, (m.pgd q).swapped = true → (m.pgd q).swpoff ≠ s) :
    Placed n (m.setFree .mswp (s :: m.mswp.freeFpList), f) := by
  refine ⟨h.random, ⟨List.nodup_cons.2 ⟨hfree, h.free.1⟩, List.forall_mem_cons.2 ⟨hs, h.free.2⟩⟩, h.one, fun q hq => ?_,
    h.inj, h.listed, fun pre q s' bytes post hsplit hstay => ?_⟩
  · obtain ⟨htyp, hlt, hout⟩ := h.out q hq
    exact ⟨htyp, hlt, List.not_mem_cons_of_ne_of_not_mem (hnone q hq) hout⟩
  · obtain ⟨hin, hsince⟩ := h.law pre q s' bytes post hsplit hstay
    exact ⟨hin.congr rfl (fun _ _ => rfl), hsince⟩

end Keep

/-! ## `pg_getpage` -/

/-- The page has been mapped: it is in RAM or in swap. -/
def Homed (m : Machine) (r : PteRef) : Prop := (m.pgd r).present = true ∨ (m.pgd r).swapped = true

instance (m : Machine) (r : PteRef) : Decidable (Homed m r) := inferInstanceAs (Decidable (_ ∨ _))

theorem not_homed {m : Machine} {r : PteRef} : ¬ Homed m r ↔ (m.pgd r).present = false ∧ (m.pgd r).swapped = false := by
  simp [Homed]

theorem Homed.setFpn {m : Machine} {q : PteRef} (h : Homed m q) (r : PteRef) (fpn : Nat) :
    Homed (m.setPte r (pteSetFpn (m.pgd r) fpn)) q := by
  by_cases hqr : q = r
  · subst hqr
    exact Or.inl (by simp)
  · unfold Homed at h ⊢
    simpa [hqr] using h

structure Kept (n : Nat) (x x' : Machine × Fifo) : Prop where
  placed : Placed n x'
  mm : x'.1.mm = x.1.mm
  homed : ∀ r, Homed x.1 r → Homed x'.1 r

structure Found (n : Nat) (x x' : Machine × Fifo) : Prop extends Kept n x x' where
  absent : ∀ r, (x.1.pgd r).present = false → x'.1.pgd r = x.1.pgd r

theorem Kept.refl {n : Nat} {x : Machine × Fifo} (h : Placed n x) : Kept n x x := ⟨h, rfl, fun _ hr => hr⟩

theorem Kept.trans {n : Nat} {x y z : Machine × Fifo} (h : Kept n x y) (h' : Kept n y z) : Kept n x z :=
  ⟨h'.placed, h'.mm.trans h.mm, fun r hr => h'.homed r (h.homed r hr)⟩

theorem Found.trans {n : Nat} {x y z : Machine × Fifo} (h : Found n x y) (h' : Found n y z) : Found n x z := by
  refine ⟨h.toKept.trans h'.toKept, fun r hr => ?_⟩
  have hy := h.absent r hr
  rw [h'.absent r (by rw [hy]; exact hr), hy]

theorem Found.congr {n : Nat} {m m' : Machine} {f : Fifo} (h : Placed n (m, f)) (hmswp : m'.mswp = m.mswp)
    (hpgd : m'.pgd = m.pgd) (hmm : m'.mm = m.mm) : Found n (m, f) (m', f) where
  placed := h.congr hmswp hpgd
  mm := hmm
  homed r hr := by unfold Homed; rw [hpgd]; exact hr
  absent r _ := by rw [hpgd]

/-- **A replacement is a search**, if the entry of the page that goes out gets the frame it goes to. -/
theorem Replaced.found {n : Nat} {p : Pid} {swpoff : Nat → Nat} {m : Machine} {f : Fifo} {o : Except Int Nat}
    {x' : Machine × Fifo} (h : Replaced p swpoff m f o x') (hplaced : Placed n (m, f))
    (hoff : ∀ s rest, m.mswp.freeFpList = s :: rest → swpoff s % 2097152 = s) : Found n (m, f) x' := by
  cases h with
  | noVictim hlist => exact .congr hplaced rfl rfl rfl
  | @out l v s rest hlist hswp =>
    have hpres := (hplaced.victim hlist).1
    have hpgd := @outTo_pgd m ⟨p, v⟩ s (swpoff s) rest
    refine ⟨⟨hplaced.goneOut hlist hswp (hoff s rest hswp), by simp [outTo], fun r hr => ?_⟩, fun r hr => ?_⟩
    · by_cases hrv : r = ⟨p, v⟩
      · subst hrv
        refine Or.inr ?_
        dsimp only
        rw [hpgd, Function.update_self, swapped_pteSetSwap]
      · unfold Homed at hr ⊢
        dsimp only at hr ⊢
        rw [hpgd, Function.update_of_ne hrv]
        exact hr
    · have hrv : r ≠ ⟨p, v⟩ := by
        rintro rfl
        dsimp only at hr
        rw [hpres] at hr
        cases hr
      dsimp only
      rw [hpgd, Function.update_of_ne hrv]

section Getpage

variable {n : Nat} {m : Machine} {f : Fifo} {x' : Machine × Fifo}

theorem frun_pgFrame {p : Pid} {o : Option Nat} (hplaced : Placed n (m, f)) (hn : n ≤ 2097152)
    (h : frun (pgFrame p) (m, f) = .ok (x', o)) : Found n (m, f) x' := by
  rw [pgFrame] at h
  cases hfree : m.mram.freeFpList with
  | cons g rest =>
    rw [frun_getFreefp_cons m f (d := .mram) hfree] at h
    cases h
    exact .congr hplaced rfl rfl rfl
  | nil =>
    rw [frun_getFreefp_nil m f (d := .mram) hfree] at h
    obtain ⟨x₁, o₁, hrep, h⟩ := frun_bind_ok.1 h
    have hfound := (frun_replacePage hrep).found hplaced (fun s rest hswp => by
      have hlt := hplaced.free.2 s (by simp [hswp])
      exact Nat.mod_eq_of_lt (by omega))
    have hx : x' = x₁ := by
      cases o₁ with
      | ok g => cases h; rfl
      | error ret =>
        dsimp only at h
        split at h <;> cases h <;> rfl
    rw [hx]
    exact hfound

theorem Kept.broughtIn (hplaced : Placed n (m, f)) {r : PteRef} (habsent : (m.pgd r).present = false)
    (hswapped : (m.pgd r).swapped = true) (fpn : Nat) :
    Kept n (m, f) (((m.copyPage .mswp (m.pgd r).swpoff .mram fpn).setFree .mswp
        ((m.pgd r).swpoff :: m.mswp.freeFpList)).setPte r (pteSetFpn (m.pgd r) fpn),
      ⟨Function.update f.fifoPgn r.pid (r.pgn :: f.fifoPgn r.pid), f.trace ++ [.broughtIn r]⟩) := by
  obtain ⟨-, hlt, hfree⟩ := hplaced.out r hswapped
  have hcopied : Placed n (m.copyPage .mswp (m.pgd r).swpoff .mram fpn, f) := hplaced.congr rfl (by simp)
  have hcame := hcopied.broughtIn (r := r) (by simpa using habsent) fpn
  -- no page is left in the frame
  have hnone : ∀ q,
      (((m.copyPage .mswp (m.pgd r).swpoff .mram fpn).setPte r (pteSetFpn (m.pgd r) fpn)).pgd q).swapped = true →
      (((m.copyPage .mswp (m.pgd r).swpoff .mram fpn).setPte r (pteSetFpn (m.pgd r) fpn)).pgd q).swpoff ≠
        (m.pgd r).swpoff := by
    intro q hq heq
    simp only [Machine.setPte_pgd, Machine.copyPage_pgd] at hq heq
    by_cases hqr : q = r
    · rw [hqr, Function.update_self, swapped_pteSetFpn] at hq
      cases hq
    · rw [Function.update_of_ne hqr] at hq heq
      exact hqr (hplaced.inj q r hq hswapped heq)
  simp only [Machine.copyPage_pgd] at hcame
  have hput := hcame.freed hlt hfree hnone
  rw [Machine.setFree_setPte] at hput
  refine ⟨hput, by simp, fun q hq => ?_⟩
  have hset := Homed.setFpn hq r fpn
  unfold Homed at hset ⊢
  simpa using hset

theorem frun_pgBringIn {r : PteRef} {o : Option Nat} (hplaced : Placed n (m, f)) (hn : n ≤ 2097152)
    (habsent : (m.pgd r).present = false) (hswapped : (m.pgd r).swapped = true)
    (h : frun (pgBringIn r (m.pgd r)) (m, f) = .ok (x', o)) : Kept n (m, f) x' := by
  rw [pgBringIn] at h
  obtain ⟨⟨m₁, f₁⟩, o₁, hframe, h⟩ := frun_bind_ok.1 h
  have hfound := frun_pgFrame hplaced hn hframe
  have hpte : m₁.pgd r = m.pgd r := hfound.absent r habsent
  cases o₁ with
  | none =>
    cases h
    exact hfound.toKept
  | some vicfpn =>
    obtain ⟨m₂, dev, hdev, h⟩ := frun_lift_bind_ok _ _ h
    rw [mswpAt, if_pos (hplaced.out r hswapped).1] at hdev
    cases hdev
    obtain ⟨m₃, _, hcopy, h⟩ := frun_lift_bind_ok _ _ h
    rw [run_swapCpPage (by decide) hcopy] at h
    simp only [frun_putFreefp, frun_setFpn, frun_enlistPgnNode, frun_note, frun_unlock, frun_pure, Machine.setFree_pgd,
      Machine.copyPage_pgd, Machine.copyPage_freeFpList] at h
    have hbrought := Kept.broughtIn hfound.placed (by rw [hpte]; exact habsent) (by rw [hpte]; exact hswapped) vicfpn
    rw [hpte] at h hbrought
    cases h
    exact hfound.toKept.trans hbrought

/-- **`pg_getpage` on a mapped page** leaves every page that is out where it is read back from. -/
theorem frun_pgGetpage {r : PteRef} {o : Option Nat} (hplaced : Placed n (m, f)) (hn : n ≤ 2097152) (hr : Homed m r)
    (h : frun (pgGetpage r) (m, f) = .ok (x', o)) : Kept n (m, f) x' := by
  rw [pgGetpage, frun_lock, frun_readPte] at h
  split at h
  · cases h
    exact .refl hplaced
  · rename_i hpres
    exact frun_pgBringIn hplaced hn (by simpa using hpres) (hr.resolve_left hpres) h

theorem frun_pgSetval {p : Pid} {addr vmaid ret : Int} {value : Byte} (hplaced : Placed n (m, f)) (hn : n ≤ 2097152)
    (hr : Homed m ⟨p, pagingPgn addr⟩) (h : frun (pgSetval p addr value vmaid) (m, f) = .ok (x', ret)) :
    Kept n (m, f) x' := by
  rw [pgSetval] at h
  obtain ⟨⟨m₁, f₁⟩, o, hget, h⟩ := frun_bind_ok.1 h
  have hkept := frun_pgGetpage hplaced hn hr hget
  cases o with
  | none =>
    cases h
    exact hkept
  | some fpn =>
    obtain ⟨m₂, _, hstore, h⟩ := frun_lift_bind_ok _ _ h
    cases h
    obtain ⟨m₃, _, hstep, hret⟩ := run_op_ok.1 hstore
    cases hret
    obtain ⟨mp, -, heq⟩ := map_ok hstep
    cases heq
    have hstored : Found n (m₁, f₁) (m₁.setDev .mram mp, f₁) := .congr hkept.placed rfl rfl rfl
    exact hkept.trans hstored.toKept

theorem frun_pgGetval {p : Pid} {addr vmaid : Int} {o : Option Byte} (hplaced : Placed n (m, f)) (hn : n ≤ 2097152)
    (hr : Homed m ⟨p, pagingPgn addr⟩) (h : frun (pgGetval p addr vmaid) (m, f) = .ok (x', o)) : Kept n (m, f) x' := by
  rw [pgGetval] at h
  obtain ⟨⟨m₁, f₁⟩, o₁, hget, h⟩ := frun_bind_ok.1 h
  have hkept := frun_pgGetpage hplaced hn hr hget
  cases o₁ with
  | none =>
    cases h
    exact hkept
  | some fpn =>
    obtain ⟨m₂, hload, rfl⟩ := frun_lift _ _ h
    obtain ⟨m₃, b, hstep, hret⟩ := run_op_ok.1 hload
    cases hret
    obtain ⟨b', -, heq⟩ := map_ok hstep
    cases heq
    exact hkept

end Getpage

end FifoBuild

end OsSim
