import OsSim.Runs
import Mathlib.Data.List.Nodup
/-!
# Mapping — `vm_map_ram` maps fresh frames and saves every victim

`alloc_pages_range` empties RAM's free list first and then evicts from the head of the LRU list; `vmap_page_range`
puts the frames found under the pages asked for, the last one found first.  `MapReady` says what the state must be
for that to go through, `Mapped` what it leaves.
-/
namespace OsSim

open Atomic Code

/-- The page that `vmap_page_range` reaches with `pgit = i`. -/
def mapPage (p : Pid) (vmaid pgn : Int) (i : Nat) : PteRef := ⟨p, (if vmaid = 0 then pgn + i else pgn - i).toNat⟩

def InTable (vmaid pgn : Int) (n : Nat) : Prop :=
  ∀ i < n, 0 ≤ (if vmaid = 0 then pgn + i else pgn - i) ∧ (if vmaid = 0 then pgn + i else pgn - i) < 16384

/-- The nodes of `n` pages mapped to the frames `fs`, in the order `vmap_page_range` adds them. -/
def mapNodes (p : Pid) (vmaid pgn : Int) (n : Nat) (fs : List Nat) : List LruNode :=
  (List.range n).reverse.map (fun i => ⟨mapPage p vmaid pgn i, fs.getD i 0, (mapPage p vmaid pgn i).pgn⟩)

namespace Machine

def evictions (m : Machine) (k : Nat) : Nat := k - m.mram.freeFpList.length

def victims (m : Machine) (k : Nat) : List LruNode := m.lru.take (m.evictions k)

def homes (m : Machine) (k : Nat) : List Nat := m.mswp.freeFpList.take (m.evictions k)

/-- The RAM frames found, in order: from the free list, then from the head of the LRU list. -/
def taken (m : Machine) (k : Nat) : List Nat := m.mram.freeFpList.take k ++ (m.victims k).map (·.fpn)

end Machine

/-- What `vm_map_ram` needs to map `k` pages from page `pgn` on.  Both devices are random access, as `os.c` makes
them. -/
structure MapReady (m : Machine) (p : Pid) (vmaid pgn : Int) (k : Nat) : Prop where
  ramRandom : m.mram.rdmflg = true
  ramFrames : m.mram.maxsz / 256 ≤ 8192
  swpRandom : m.mswp.rdmflg = true
  swpFrames : m.mswp.maxsz / 256 ≤ 2097152
  frame_lt : ∀ f ∈ m.mram.freeFpList ++ m.lru.map (·.fpn), f < m.mram.maxsz / 256
  nodup : (m.mram.freeFpList ++ m.lru.map (·.fpn)).Nodup
  /-- Nodes of different frames then point to different entries. -/
  node : ∀ v ∈ m.lru, (m.pgd v.pte).present = true ∧ (m.pgd v.pte).fpn = v.fpn
  inTable : InTable vmaid pgn k
  absent : ∀ i < k, (m.pgd (mapPage p vmaid pgn i)).present = false
  enough : k ≤ m.mram.freeFpList.length + m.lru.length
  swpEnough : m.evictions k ≤ m.mswp.freeFpList.length
  homes_nodup : (m.homes k).Nodup
  homes_lt : ∀ s ∈ m.homes k, s < m.mswp.maxsz / 256

structure Mapped (m : Machine) (p : Pid) (vmaid pgn : Int) (k : Nat) (m' : Machine) : Prop where
  page : ∀ i f, (m.taken k)[i]? = some f →
    (m'.pgd (mapPage p vmaid pgn i)).present = true ∧ (m'.pgd (mapPage p vmaid pgn i)).fpn = f
  victim : ∀ (j : Nat) (v : LruNode) (s : Nat), (m.victims k)[j]? = some v → (m.homes k)[j]? = some s →
    (m'.pgd v.pte).present = false ∧ (m'.pgd v.pte).swapped = true ∧ (m'.pgd v.pte).swptyp = 0 ∧
      (m'.pgd v.pte).swpoff = s ∧ ∀ b < 256, m'.mswp.page (m'.pgd v.pte).swpoff b = m.mram.page v.fpn b
  other : ∀ r, (∀ i < k, r ≠ mapPage p vmaid pgn i) → (∀ v ∈ m.victims k, r ≠ v.pte) → m'.pgd r = m.pgd r
  ram : m'.mram = { m.mram with freeFpList := m.mram.freeFpList.drop k }
  swpFree : m'.mswp.freeFpList = m.mswp.freeFpList.drop (m.evictions k)
  swpBytes : ∀ a, a / 256 ∉ m.homes k → m'.mswp.storage a = m.mswp.storage a
  /-- The nodes of the pages mapped are behind all others, the last page's first. -/
  lru : m'.lru = m.lru.drop (m.evictions k) ++ mapNodes p vmaid pgn k (m.taken k)

/-! ## `__swap_cp_page` ends -/

theorem run_swapCpPage_ok {m : Machine} {src dst : Dev} (hne : src ≠ dst) {srcfpn dstfpn : Nat}
    (hsrc : (m.dev src).rdmflg = true) (hdst : (m.dev dst).rdmflg = true) (hs : srcfpn < (m.dev src).maxsz / 256)
    (hd : dstfpn < (m.dev dst).maxsz / 256) :
    run (swapCpPage src srcfpn dst dstfpn) m = .ok (m.copyPage src srcfpn dst dstfpn, ()) := by
  -- no cell of the page is outside either device
  have hcell : ∀ j < 256, ∃ m',
      run (swapCpCell src srcfpn dst dstfpn j) (copiedTo m src srcfpn dst dstfpn j) = .ok (m', ()) := by
    intro j hj
    have hread : memphyRead (m.dev src) (srcfpn * 256 + j) = .ok (some ((m.dev src).storage (srcfpn * 256 + j))) := by
      rw [memphyRead, if_pos hsrc, if_pos (by omega)]
    have hwrite : ∃ mp, memphyWrite (pasteTo (m.dev dst) dstfpn ((m.dev src).page srcfpn) j) (dstfpn * 256 + j)
        ((m.dev src).storage (srcfpn * 256 + j)) = .ok mp := by
      have hlt : dstfpn * 256 + j < (pasteTo (m.dev dst) dstfpn ((m.dev src).page srcfpn) j).maxsz := by
        change dstfpn * 256 + j < (m.dev dst).maxsz
        omega
      rw [memphyWrite,
        if_pos (show (pasteTo (m.dev dst) dstfpn ((m.dev src).page srcfpn) j).rdmflg = true from hdst), if_pos hlt]
      exact ⟨_, rfl⟩
    obtain ⟨mp, hwrite⟩ := hwrite
    simp only [swapCpCell, Code.read, Code.write, Prog.op_bind, Prog.ret_bind, run, exec_op, step, copiedTo,
      Machine.dev_setDev_of_ne _ _ hne, Machine.dev_setDev, hread, if_pos hdst, Except.map, hwrite]
    exact ⟨_, rfl⟩
  cases hrun : run (swapCpPage src srcfpn dst dstfpn) m with
  | ok q =>
    obtain ⟨m', u⟩ := q
    rw [run_swapCpPage hne hrun]
  | error e =>
    have h0 : m = copiedTo m src srcfpn dst dstfpn 0 := by simp [copiedTo, pasteTo_zero]
    obtain ⟨j, m₁, -, hj, rfl, he⟩ := exec_loop_error step (fun j s => s = copiedTo m src srcfpn dst dstfpn j)
      (fun j s₁ s₂ _ _ hj hs => run_swapCpCell hne (by rw [← hj]; exact hs)) h0 hrun
    obtain ⟨m', hok⟩ := hcell j (by simpa using hj)
    cases hok.symm.trans he

/-! ## `alloc_pages_range` -/

theorem run_allocPagesRange_take : ∀ (fs : List Nat) {m : Machine} {rest : List Nat} (n : Nat) (frmLst : List Nat),
    m.mram.freeFpList = fs ++ rest →
      run (allocPagesRange (fs.length + n) frmLst) m =
        run (allocPagesRange n (fs.reverse ++ frmLst)) (m.setFree .mram rest)
  | [], m, rest, n, frmLst, h => by
    have hm : m.setFree .mram rest = m := by
      rw [← show m.mram.freeFpList = rest from h]
      rfl
    rw [hm, List.length_nil, Nat.zero_add]
    rfl
  | f :: fs, m, rest, n, frmLst, h => by
    have hrest := @run_allocPagesRange_take fs (m.setFree .mram (fs ++ rest)) rest n (f :: frmLst) rfl
    have hfree : (m.dev .mram).freeFpList = f :: (fs ++ rest) := h
    rw [List.length_cons, Nat.add_right_comm, allocPagesRange, run_getFreefp_cons m .mram hfree]
    refine hrest.trans ?_
    simp only [List.reverse_cons, List.append_assoc, List.singleton_append]
    rfl

structure Saved (m : Machine) (vs : List LruNode) (ss : List Nat) (m' : Machine) : Prop where
  mram : m'.mram = m.mram
  mm : m'.mm = m.mm
  maxsz : m'.mswp.maxsz = m.mswp.maxsz
  random : m'.mswp.rdmflg = m.mswp.rdmflg
  victim : ∀ (j : Nat) (v : LruNode) (s : Nat), vs[j]? = some v → ss[j]? = some s →
    m'.pgd v.pte = pteSetSwap (m.pgd v.pte) indexOfActiveMswp s ∧ ∀ b < 256, m'.mswp.page s b = m.mram.page v.fpn b
  other : ∀ r, (∀ v ∈ vs, r ≠ v.pte) → m'.pgd r = m.pgd r
  bytes : ∀ a, a / 256 ∉ ss → m'.mswp.storage a = m.mswp.storage a

theorem Saved.cons {m m' : Machine} {v : LruNode} {vs lru : List LruNode} {s : Nat} {ss rest : List Nat}
    (hrandom : m.mswp.rdmflg = true) (h : Saved (m.evicted v lru s rest) vs ss m') (hv : ∀ w ∈ vs, w.pte ≠ v.pte)
    (hs : s ∉ ss) : Saved m (v :: vs) (s :: ss) m' := by
  have hmswp := Machine.evicted_mswp hrandom v lru s rest
  have hpage : ∀ b < 256, (m.evicted v lru s rest).mswp.page s b = m.mram.page v.fpn b := by
    intro b hb
    rw [hmswp]
    exact (m.mswp.page_paste s s _ hb).trans (if_pos rfl)
  have hpgd : ∀ r, r ≠ v.pte → (m.evicted v lru s rest).pgd r = m.pgd r := by
    intro r hr
    simp [Machine.evicted, hr]
  refine ⟨h.mram, h.mm, ?_, ?_, ?_, ?_, ?_⟩
  · rw [h.maxsz, hmswp]
    rfl
  · rw [h.random, hmswp]
    rfl
  · intro j w t hw ht
    cases j with
    | zero =>
      cases hw
      cases ht
      constructor
      · rw [h.other _ (fun w hw e => hv w hw e.symm)]
        simp [Machine.evicted]
      · intro b hb
        rw [← hpage b hb]
        exact h.bytes _ (by rwa [show (s * 256 + b) / 256 = s by omega])
    | succ j =>
      obtain ⟨hpte, hbytes⟩ := h.victim j w t hw ht
      rw [hpgd _ (hv w (List.mem_of_getElem? hw))] at hpte
      exact ⟨hpte, hbytes⟩
  · intro r hr
    rw [h.other r (fun w hw => hr w (List.mem_cons_of_mem _ hw)), hpgd r (hr v (by simp))]
  · intro a ha
    rw [List.mem_cons, not_or] at ha
    rw [h.bytes a ha.2, hmswp]
    exact if_neg ha.1

/-- **Frames from the LRU list** come once the free list is empty; every victim is saved. -/
theorem run_allocPagesRange_evict : ∀ (vs : List LruNode) (ss : List Nat) {m : Machine} {lru : List LruNode}
    {rest : List Nat} (frmLst : List Nat), vs.length = ss.length → (vs ≠ [] → m.mram.freeFpList = []) →
      m.lru = vs ++ lru →
      m.mswp.freeFpList = ss ++ rest → m.mram.rdmflg = true → m.mswp.rdmflg = true →
      (∀ v ∈ vs, v.fpn < m.mram.maxsz / 256) → (∀ s ∈ ss, s < m.mswp.maxsz / 256) → (vs.map (·.pte)).Nodup → ss.Nodup →
      ∃ m', run (allocPagesRange vs.length frmLst) m = .ok (m', some ((vs.map (·.fpn)).reverse ++ frmLst)) ∧
        m'.lru = lru ∧ m'.mswp.freeFpList = rest ∧ Saved m vs ss m'
  | [], [], m, lru, rest, frmLst, _, _, hlru, hswp, _, _, _, _, _, _ =>
    ⟨m, rfl, hlru, hswp, rfl, rfl, rfl, rfl, by simp, fun _ _ => rfl, fun _ _ => rfl⟩
  | v :: vs, s :: ss, m, lru, rest, frmLst, hlen, hfree, hlru, hswp, hram, hrandom, hv, hs, hpte, hnd => by
    have hfree := hfree (by simp)
    have hlru : m.lru = v :: (vs ++ lru) := hlru
    have hswp : m.mswp.freeFpList = s :: (ss ++ rest) := hswp
    have hmswp := Machine.evicted_mswp hrandom v (vs ++ lru) s (ss ++ rest)
    have hcopy := @run_swapCpPage_ok ((m.setLru (vs ++ lru)).setFree .mswp (ss ++ rest)) .mram .mswp (by decide) v.fpn s
      hram hrandom (hv v (by simp)) (hs s (by simp))
    have hpte' := List.nodup_cons.1 hpte
    have hnd' := List.nodup_cons.1 hnd
    obtain ⟨m', hrun, hlru', hswp', hsaved⟩ := @run_allocPagesRange_evict vs ss
      (m.evicted v (vs ++ lru) s (ss ++ rest)) lru rest
      (v.fpn :: frmLst) (by simpa using hlen) (fun _ => hfree) (by simp [Machine.evicted]) (by rw [hmswp]) hram
      (by rw [hmswp]; exact hrandom) (fun w hw => hv w (List.mem_cons_of_mem _ hw))
      (fun t ht => by rw [hmswp]; exact hs t (List.mem_cons_of_mem _ ht)) hpte'.2 hnd'.2
    refine ⟨m', ?_, hlru', hswp', hsaved.cons hrandom ?_ hnd'.1⟩
    · rw [List.length_cons, allocPagesRange, run_getFreefp_nil m .mram hfree]
      simp only [run_findLru_cons m hlru]
      rw [run_getFreefp_cons (m.setLru (vs ++ lru)) .mswp hswp]
      simp only [theVictim, run_pure_bind]
      refine run_bind_ok.2 ⟨_, _, hcopy, ?_⟩
      rw [run_setSwap]
      simp only [List.map_cons, List.reverse_cons, List.append_assoc, List.singleton_append]
      exact hrun
    · intro w hw e
      exact hpte'.1 (List.mem_map.2 ⟨w, hw, e⟩)

/-! ## `vmap_page_range` -/

theorem mapPage_inj {p : Pid} {vmaid pgn : Int} {n i j : Nat} (hin : InTable vmaid pgn n) (hi : i < n) (hj : j < n)
    (h : mapPage p vmaid pgn i = mapPage p vmaid pgn j) : i = j := by
  have hpgn : (if vmaid = 0 then pgn + i else pgn - i).toNat = (if vmaid = 0 then pgn + j else pgn - j).toNat :=
    congrArg PteRef.pgn h
  have hi := hin i hi
  have hj := hin j hj
  split at hpgn <;> simp_all <;> omega

theorem mapNodes_concat (p : Pid) (vmaid pgn : Int) {n : Nat} {fs : List Nat} (f : Nat) (hlen : fs.length = n) :
    mapNodes p vmaid pgn (n + 1) (fs ++ [f]) =
      ⟨mapPage p vmaid pgn n, f, (mapPage p vmaid pgn n).pgn⟩ :: mapNodes p vmaid pgn n fs := by
  rw [mapNodes, mapNodes, List.range_succ, List.reverse_append, List.reverse_singleton, List.singleton_append,
    List.map_cons]
  congr 1
  · simp [← hlen]
  · refine List.map_congr_left (fun i hi => ?_)
    have hi : i < n := by simpa using hi
    rw [List.getD_eq_getElem?_getD, List.getD_eq_getElem?_getD, List.getElem?_append_left (by omega)]

/-- **`vmap_page_range`** puts the `i`-th frame from the end of its list under the `i`-th page. -/
theorem run_vmapLoop_ok {p : Pid} {vmaid pgn : Int} : ∀ (n : Nat) {m : Machine} {frames : List Nat}, frames.length = n →
    InTable vmaid pgn n → (m.lru.map (·.fpn) ++ frames).Nodup → (∀ f ∈ frames, f < 8192) →
      ∃ m', run (vmapLoop p vmaid pgn n frames) m = .ok (m', 0) ∧
        (∀ i f, frames.reverse[i]? = some f →
          m'.pgd (mapPage p vmaid pgn i) = pteSetFpn (m.pgd (mapPage p vmaid pgn i)) f) ∧
        (∀ r, (∀ i < n, r ≠ mapPage p vmaid pgn i) → m'.pgd r = m.pgd r) ∧ m'.mram = m.mram ∧ m'.mswp = m.mswp ∧
        m'.lru = m.lru ++ mapNodes p vmaid pgn n frames.reverse
  | 0, m, [], _, _, _, _ => ⟨m, rfl, by simp, fun _ _ => rfl, rfl, rfl, by simp [mapNodes]⟩
  | n + 1, m, f :: frames, hlen, hin, hnd, hlt => by
    have hlen : frames.length = n := by simpa using hlen
    have hnd' := List.nodup_cons.1 (List.perm_middle.nodup_iff.1 hnd)
    have hnot : f ∉ m.lru.map (·.fpn) := fun hmem => hnd'.1 (List.mem_append_left _ hmem)
    have hin' : InTable vmaid pgn n := fun i hi => hin i (by omega)
    let r := mapPage p vmaid pgn n
    let m₁ := m.placed r f (.mapped r vmaid (m.pgd r))
    have hlru : m₁.lru = m.lru ++ [⟨r, f, r.pgn⟩] := Machine.placed_lru r _ hnot (hlt f (by simp))
    have hpgd : m₁.pgd = Function.update m.pgd r (pteSetFpn (m.pgd r) f) := Machine.placed_pgd m r f _
    have hne : ∀ i < n, mapPage p vmaid pgn i ≠ r := by
      intro i hi e
      have := mapPage_inj hin (by omega) (by omega) e
      omega
    obtain ⟨m', hrun, hpages, hother, hram, hswp, hlru'⟩ := @run_vmapLoop_ok p vmaid pgn n m₁ frames hlen hin'
      (by rw [hlru, List.map_append, List.append_assoc]; exact hnd) (fun g hg => hlt g (List.mem_cons_of_mem _ hg))
    refine ⟨m', ?_, ?_, ?_, hram, hswp, ?_⟩
    · refine run_bind_ok.2 ⟨m, r, ?_, hrun⟩
      have hb := hin n (by omega)
      rw [pgdAt, if_pos (by exact hb)]
      rfl
    · intro i g hg
      rw [List.reverse_cons] at hg
      rcases Nat.lt_or_ge i n with hi | hi
      · rw [List.getElem?_append_left (by simpa [hlen] using hi)] at hg
        rw [hpages i g hg, hpgd, Function.update_of_ne (hne i hi)]
      · obtain ⟨hi', hg⟩ := List.getElem?_eq_some_iff.1 hg
        have hin : i = n := by
          simp only [List.length_append, List.length_reverse, List.length_singleton, hlen] at hi'
          omega
        subst hin
        have hg : f = g := by simpa [List.getElem_append_right, hlen] using hg
        rw [hother r (fun i hi e => hne i hi e.symm), hpgd, Function.update_self, hg]
    · intro r' hr'
      rw [hother r' (fun i hi => hr' i (by omega)), hpgd, Function.update_of_ne (hr' n (by omega))]
    · rw [hlru', hlru, List.reverse_cons, mapNodes_concat p vmaid pgn f (by simpa using hlen), List.append_assoc]
      rfl

/-! ## `vm_map_ram` -/

namespace MapReady

variable {m : Machine} {p : Pid} {vmaid pgn : Int} {k : Nat}

theorem length_victims (h : MapReady m p vmaid pgn k) : (m.victims k).length = m.evictions k := by
  have henough := h.enough
  rw [Machine.victims, List.length_take]
  simp only [Machine.evictions]
  omega

theorem length_homes (h : MapReady m p vmaid pgn k) : (m.homes k).length = m.evictions k := by
  rw [Machine.homes, List.length_take]
  exact Nat.min_eq_left h.swpEnough

theorem length_taken (h : MapReady m p vmaid pgn k) : (m.taken k).length = k := by
  rw [Machine.taken, List.length_append, List.length_map, h.length_victims, List.length_take, Machine.evictions]
  omega

theorem nodup_taken (h : MapReady m p vmaid pgn k) :
    ((m.lru.drop (m.evictions k)).map (·.fpn) ++ m.taken k).Nodup := by
  have hlru : m.lru.map (·.fpn) = (m.victims k).map (·.fpn) ++ (m.lru.drop (m.evictions k)).map (·.fpn) := by
    rw [Machine.victims, ← List.map_append, List.take_append_drop]
  have hnd := h.nodup
  rw [hlru, ← List.append_assoc] at hnd
  have htaken : (m.taken k ++ (m.lru.drop (m.evictions k)).map (·.fpn)).Nodup :=
    hnd.sublist (((List.take_sublist k _).append_right _).append_right _)
  exact (List.perm_append_comm.nodup_iff).1 htaken

theorem taken_lt (h : MapReady m p vmaid pgn k) : ∀ f ∈ m.taken k, f < 8192 := by
  intro f hf
  have hmem : f ∈ m.mram.freeFpList ++ m.lru.map (·.fpn) :=
    ((List.take_sublist k _).append ((List.take_sublist _ m.lru).map _)).subset hf
  exact Nat.lt_of_lt_of_le (h.frame_lt f hmem) h.ramFrames

theorem victim_mem {v : LruNode} (hv : v ∈ m.victims k) : v ∈ m.lru := (List.take_sublist _ _).subset hv

theorem nodup_pte (h : MapReady m p vmaid pgn k) : ((m.victims k).map (·.pte)).Nodup := by
  have hfpn : (m.lru.map (·.pte)).map (fun r => (m.pgd r).fpn) = m.lru.map (·.fpn) := by
    rw [List.map_map]
    exact List.map_congr_left (fun v hv => (h.node v hv).2)
  have hnd : ((m.lru.map (·.pte)).map (fun r => (m.pgd r).fpn)).Nodup := by
    rw [hfpn]
    exact (List.nodup_append.1 h.nodup).2.1
  exact (List.Nodup.of_map _ hnd).sublist ((List.take_sublist _ _).map _)

theorem run_allocPagesRange_ok (h : MapReady m p vmaid pgn k) :
    ∃ m', run (allocPagesRange k []) m = .ok (m', some (m.taken k).reverse) ∧ m'.lru = m.lru.drop (m.evictions k) ∧
      m'.mswp.freeFpList = m.mswp.freeFpList.drop (m.evictions k) ∧
      Saved (m.setFree .mram (m.mram.freeFpList.drop k)) (m.victims k) (m.homes k) m' := by
  have hsplit : k = (m.mram.freeFpList.take k).length + (m.victims k).length := by
    rw [h.length_victims, List.length_take, Machine.evictions]
    omega
  -- a victim is wanted when the free list is used up
  have hfree : m.victims k ≠ [] → m.mram.freeFpList.drop k = [] := by
    intro hv
    have hpos := List.length_pos_iff.2 hv
    rw [h.length_victims, Machine.evictions] at hpos
    exact List.drop_eq_nil_of_le (by omega)
  obtain ⟨m', hrun, hlru, hswp, hsaved⟩ := @run_allocPagesRange_evict (m.victims k) (m.homes k)
    (m.setFree .mram (m.mram.freeFpList.drop k)) (m.lru.drop (m.evictions k)) (m.mswp.freeFpList.drop (m.evictions k))
    ((m.mram.freeFpList.take k).reverse ++ []) (h.length_victims.trans h.length_homes.symm) hfree
    (List.take_append_drop _ _).symm (List.take_append_drop _ _).symm h.ramRandom h.swpRandom
    (fun v hv => h.frame_lt _ (List.mem_append_right _ (List.mem_map.2 ⟨v, victim_mem hv, rfl⟩))) h.homes_lt h.nodup_pte
    h.homes_nodup
  refine ⟨m', ?_, hlru, hswp, hsaved⟩
  conv_lhs => rw [hsplit]
  rw [run_allocPagesRange_take (m.mram.freeFpList.take k) _ _ (List.take_append_drop _ _).symm, hrun, List.append_nil,
    Machine.taken, List.reverse_append]

theorem noted (h : MapReady m p vmaid pgn k) (e : Event) : MapReady (m.noted e) p vmaid pgn k := { h with }

end MapReady

/-- **`vm_map_ram` maps fresh frames and saves every victim.** -/
theorem vmMapRam_maps {m : Machine} {p : Pid} {vmaid mapstart incpgnum : Int}
    (h : MapReady m p vmaid (mapPgn (m.mm p) vmaid mapstart) incpgnum.toNat) :
    ∃ m', run (vmMapRam p vmaid mapstart incpgnum) m = .ok (m', 0) ∧ (m.taken incpgnum.toNat).length = incpgnum.toNat ∧
      (m.taken incpgnum.toNat).Nodup ∧ Mapped m p vmaid (mapPgn (m.mm p) vmaid mapstart) incpgnum.toNat m' := by
  obtain ⟨m₁, halloc, hlru₁, hswp₁, hsaved⟩ := (h.noted (.mapRam incpgnum)).run_allocPagesRange_ok
  have hnd : (m₁.lru.map (·.fpn) ++ (m.taken incpgnum.toNat).reverse).Nodup := by
    rw [hlru₁]
    exact (List.Perm.nodup_iff ((List.reverse_perm _).append_left _)).2 h.nodup_taken
  obtain ⟨m₂, hmap, hpages, hother, hram₂, hmswp₂, hlru₂⟩ := @run_vmapLoop_ok p vmaid (mapPgn (m.mm p) vmaid mapstart)
    incpgnum.toNat m₁ (m.taken incpgnum.toNat).reverse (by rw [List.length_reverse, h.length_taken]) h.inTable hnd
    (fun f hf => h.taken_lt f (List.mem_reverse.1 hf))
  rw [List.reverse_reverse] at hpages hlru₂
  refine ⟨m₂, ?_, h.length_taken, (List.nodup_append.1 h.nodup_taken).2.1, ?_, ?_, ?_, ?_, ?_, ?_, ?_⟩
  · rw [vmMapRam, run_lock, run_note]
    refine run_bind_ok.2 ⟨_, _, halloc, ?_⟩
    rw [run_getMm, hsaved.mm]
    exact run_bind_ok.2 ⟨_, _, hmap, rfl⟩
  · intro i f hf
    rw [hpages i f hf]
    exact ⟨present_pteSetFpn _ _, (fpn_pteSetFpn _ _).trans (Nat.mod_eq_of_lt (h.taken_lt f (List.mem_of_getElem? hf)))⟩
  · intro j v s hv hs
    have hpte : m₂.pgd v.pte = pteSetSwap (m.pgd v.pte) indexOfActiveMswp s := by
      rw [hother, (hsaved.victim j v s hv hs).1]
      · rfl
      · intro i hi e
        have hpres := (h.node v (MapReady.victim_mem (List.mem_of_getElem? hv))).1
        rw [e, h.absent i hi] at hpres
        cases hpres
    have hlt : s < 2097152 := Nat.lt_of_lt_of_le (h.homes_lt s (List.mem_of_getElem? hs)) h.swpFrames
    have hoff : (m₂.pgd v.pte).swpoff = s := by
      rw [hpte, swpoff_pteSetSwap, Nat.mod_eq_of_lt hlt]
    refine ⟨?_, ?_, ?_, hoff, fun b hb => ?_⟩
    · rw [hpte, present_pteSetSwap]
    · rw [hpte, swapped_pteSetSwap]
    · rw [hpte, swptyp_pteSetSwap]
      rfl
    · rw [hoff, hmswp₂]
      exact (hsaved.victim j v s hv hs).2 b hb
  · intro r hpage hvictim
    rw [hother r hpage, hsaved.other r hvictim]
    rfl
  · rw [hram₂, hsaved.mram]
    rfl
  · rw [hmswp₂, hswp₁]
    rfl
  · intro a ha
    rw [hmswp₂, hsaved.bytes a ha]
    rfl
  · rw [hlru₂, hlru₁]
    rfl

/-- One frame free and one under page 0: two pages more. -/
theorem vmMapRam_maps_halfFull : ∃ m', run (vmMapRam 0 0 256 2)
      (((boot 512 16384 4096).setFree .mram [1]).placed ⟨0, 0⟩ 0 (.mapped ⟨0, 0⟩ 0 0)) = .ok (m', 0) ∧
    (m'.pgd ⟨0, 1⟩).fpn = 1 ∧ (m'.pgd ⟨0, 2⟩).fpn = 0 ∧ (m'.pgd ⟨0, 0⟩).swpoff = 0 := by
  obtain ⟨m', hrun, -, -, hmapped⟩ := @vmMapRam_maps
    (((boot 512 16384 4096).setFree .mram [1]).placed ⟨0, 0⟩ 0 (.mapped ⟨0, 0⟩ 0 0)) 0 0 256 2
    { ramRandom := rfl
      ramFrames := by decide
      swpRandom := rfl
      swpFrames := by decide
      frame_lt := by decide
      nodup := by decide
      node := by decide
      inTable := by unfold InTable; decide
      absent := by decide
      enough := by decide
      swpEnough := by decide
      homes_nodup := by decide
      homes_lt := by decide }
  exact ⟨m', hrun, (hmapped.page 0 1 (by decide)).2, (hmapped.page 1 0 (by decide)).2,
    (hmapped.victim 0 ⟨⟨0, 0⟩, 0, 0⟩ 0 (by decide) (by decide)).2.2.2.1⟩

end OsSim
