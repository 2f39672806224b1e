import OsSim.Lib.Recency
import OsSim.Swap
/-!
# Recency — the LRU list and the order of last reference

The list from `lru_head` to `lru_tail` is to hold the present pages in the order of their last reference.  Its two
functions look a page up by frame number.  `__alloc`, where it reuses a region, hands `update_LRU_lst` the entry it
saved before the page was brought in: the frame field of a swapped entry, which may be any other page's frame.
-/
namespace OsSim

def references (trace : List Event) : List PteRef :=
  trace.filterMap (fun e => match e with
    | .reference r => some r
    | _ => none)

def recent (m : Machine) : List PteRef := (references m.trace).dedup.filter (fun r => (m.pgd r).present)

theorem references_append (a b : List Event) : references (a ++ b) = references a ++ references b :=
  List.filterMap_append

theorem recent_nodup (m : Machine) : (recent m).Nodup := (List.nodup_dedup _).filter _

theorem recent_reference {m m' : Machine} {r : PteRef} (hr : (m.pgd r).present = true) (hpgd : m'.pgd = m.pgd)
    (htr : references m'.trace = references m.trace ++ [r]) :
    recent m' = (recent m).filter (fun r' => r' ≠ r) ++ [r] := by
  unfold recent
  rw [htr, hpgd, Recency.dedup_concat, List.filter_append, List.filter_filter, List.filter_filter]
  congr 1
  · exact List.filter_congr (fun r' _ => Bool.and_comm _ _)
  · simp [hr]

theorem recent_placed {m : Machine} {r : PteRef} (hr : (m.pgd r).present = false) (f : Nat) {e : Event}
    (he : references [e] = []) : recent (m.placed r f e) = recent m ++ [r] := by
  have htrace : (m.placed r f e).trace = m.trace ++ ([e] ++ [.reference r]) := by
    simp [Machine.placed, Machine.referenced]
  have htr : references (m.placed r f e).trace = references m.trace ++ [r] := by
    rw [htrace, references_append, references_append, he]
    rfl
  have hpgd : (m.placed r f e).pgd = Function.update m.pgd r (pteSetFpn (m.pgd r) f) := by
    simp [Machine.placed, Machine.referenced]
  unfold recent
  rw [htr, hpgd, Recency.dedup_concat, List.filter_append, List.filter_filter]
  congr 1
  · refine List.filter_congr (fun r' _ => ?_)
    by_cases hrr : r' = r
    · subst hrr; simp [hr]
    · simp [hrr]
  · simp

theorem recent_evicted {m m' : Machine} {r : PteRef} {pte : Pte} (hpte : pte.present = false)
    (hpgd : m'.pgd = Function.update m.pgd r pte) (htr : m'.trace = m.trace) :
    recent m' = (recent m).filter (fun r' => r' ≠ r) := by
  unfold recent
  rw [htr, hpgd, List.filter_filter]
  refine List.filter_congr (fun r' _ => ?_)
  by_cases hrr : r' = r
  · subst hrr; simp [hpte]
  · simp [hrr]

theorem filter_ne_of_notMem {r : PteRef} {l : List PteRef} (h : r ∉ l) : l.filter (fun r' => r' ≠ r) = l :=
  List.filter_eq_self.2 (fun r' hr' => by
    have hne : r' ≠ r := fun e => h (e ▸ hr')
    simpa using hne)

theorem filter_ne_mid {r : PteRef} {a b : List PteRef} (h : (a ++ r :: b).Nodup) :
    (a ++ r :: b).filter (fun r' => r' ≠ r) = a ++ b := by
  have hnot : r ∉ a ++ b := (List.nodup_cons.1 (List.nodup_middle.1 h)).1
  rw [List.mem_append, not_or] at hnot
  rw [List.filter_append, List.filter_cons_of_neg (by simp), filter_ne_of_notMem hnot.1, filter_ne_of_notMem hnot.2]

structure RecencyInv (n : Nat) (s : List Nat × Machine) : Prop where
  frames : FrameInv n s
  order : s.2.lru.map (·.pte) = recent s.2

namespace RecencyInv

variable {n f : Nat} {held : List Nat} {m m' : Machine}

theorem pte_nodup (h : RecencyInv n (held, m)) : (m.lru.map (·.pte)).Nodup := h.order ▸ recent_nodup m

theorem node (h : RecencyInv n (held, m)) {node : LruNode} (hmem : node ∈ m.lru) :
    (m.pgd node.pte).present = true ∧ (m.pgd node.pte).fpn = node.fpn := by
  have hrec : node.pte ∈ recent m := h.order ▸ List.mem_map.2 ⟨node, hmem, rfl⟩
  have hpres : (m.pgd node.pte).present = true := (List.mem_filter.1 hrec).2
  obtain ⟨node', hmem', hpte, hfpn⟩ := h.frames.owner node.pte hpres
  have : node' = node := List.inj_on_of_nodup_map h.pte_nodup hmem' hmem hpte
  subst this
  exact ⟨hpres, hfpn.symm⟩

theorem moveToTail_order (h : RecencyInv n (held, m)) {r : PteRef} (hr : (m.pgd r).present = true) :
    (Lru.moveToTail (m.pgd r).fpn m.lru).map (·.pte) = (recent m).filter (fun r' => r' ≠ r) ++ [r] := by
  obtain ⟨node, hmem, hpte, hfpn⟩ := h.frames.owner r hr
  obtain ⟨a, b, hab⟩ := List.append_of_mem hmem
  have hnodup := h.frames.lru_nodup
  rw [hab, List.map_append, List.map_cons, List.nodup_middle, List.nodup_cons, List.mem_append, not_or] at hnodup
  have hpn := h.pte_nodup
  rw [hab, List.map_append, List.map_cons, hpte] at hpn
  rw [← h.order, hab, Lru.moveToTail_append hfpn (hfpn ▸ hnodup.1.1)]
  simp only [List.map_append, List.map_cons, List.map_nil, hpte]
  rw [filter_ne_mid hpn]

theorem atTail (h : RecencyInv n (held, m)) {r : PteRef} (hr : (m.pgd r).present = true) (htail : AtTail m r) :
    m.lru.map (·.pte) = (recent m).filter (fun r' => r' ≠ r) ++ [r] ∧
      Lru.moveToTail (m.pgd r).fpn m.lru = m.lru := by
  obtain ⟨l, node, hl, hfpn⟩ := htail
  have hpte : node.pte = r := h.frames.node_pte hr (by simp [hl]) hfpn
  have hpn := h.pte_nodup
  have hnodup := h.frames.lru_nodup
  rw [hl, List.map_append, List.map_singleton] at hpn hnodup
  rw [hpte] at hpn
  constructor
  · rw [← h.order, hl, List.map_append, List.map_singleton, hpte, filter_ne_mid hpn, List.append_nil]
  · rw [hl, Lru.moveToTail_last hfpn]
    rw [← hfpn]
    exact fun hmem => (List.nodup_append.1 hnodup).2.2 _ hmem _ (by simp) rfl

theorem placed (h : RecencyInv n (f :: held, m)) (hn : n ≤ 8192) {r : PteRef} (hr : (m.pgd r).present = false)
    {e : Event} (he : references [e] = []) : RecencyInv n (held, m.placed r f e) := by
  refine ⟨h.frames.placed hn r e, ?_⟩
  have hnot : f ∉ m.lru.map (·.fpn) := by
    intro hmem
    exact (List.nodup_append.1 h.frames.nodup).2.2 f (List.mem_append_right _ hmem) f (by simp) rfl
  have hlt : f < n := by simpa using h.frames.frames.mem_iff.1 (show f ∈ _ ++ f :: held by simp)
  have hfpn : (pteSetFpn (m.pgd r) f).fpn = f := by rw [fpn_pteSetFpn, Nat.mod_eq_of_lt (by omega)]
  have hl := Machine.placed_lru r e hnot (by omega)
  rw [hl, recent_placed hr f he, List.map_append, List.map_singleton, h.order]

theorem evicted (h : RecencyInv n (held, m)) {v : LruNode} {lru : List LruNode} (hlru : m.lru = v :: lru) (s : Nat)
    (rest : List Nat) : RecencyInv n (v.fpn :: held, m.evicted v lru s rest) := by
  refine ⟨h.frames.evicted hlru s rest, ?_⟩
  have hl : (m.evicted v lru s rest).lru = lru := by simp [Machine.evicted]
  have hrec : recent (m.evicted v lru s rest) = (recent m).filter (fun r' => r' ≠ v.pte) :=
    recent_evicted (present_pteSetSwap (m.pgd v.pte) indexOfActiveMswp s) (by simp [Machine.evicted])
      (by simp [Machine.evicted])
  have hpn := h.pte_nodup
  rw [hlru, List.map_cons] at hpn
  rw [hl, hrec, ← h.order, hlru, List.map_cons]
  exact (@filter_ne_mid v.pte [] _ hpn).symm

theorem congr (h : RecencyInv n (held, m)) (hfree : m'.mram.freeFpList = m.mram.freeFpList) (hlru : m'.lru = m.lru)
    (hpgd : m'.pgd = m.pgd) (htr : references m'.trace = references m.trace) : RecencyInv n (held, m') := by
  refine ⟨h.frames.congr hfree hlru hpgd, ?_⟩
  have hrec : recent m' = recent m := by rw [recent, htr, hpgd, recent]
  rw [hlru, hrec]
  exact h.order

end RecencyInv

/-- What the history may record for the list to stay in order: where `__alloc` visits a page, the entry it saved names
the frame the page has, or no frame at all; a page newly mapped was not present; swap never ran out. -/
def RecencyFine (n : Nat) : Event → Prop
  | .reused _ old f => old.fpn = f ∨ n ≤ old.fpn
  | .mapped _ _ old => old.present = false
  | .outOfSwap => False
  | _ => True

instance (n : Nat) : DecidablePred (RecencyFine n)
  | .reused _ old f => inferInstanceAs (Decidable (old.fpn = f ∨ n ≤ old.fpn))
  | .mapped _ _ old => inferInstanceAs (Decidable (old.present = false))
  | .outOfSwap => instDecidableFalse
  | .reference _ | .filled _ _ | .replaced _ _ | .mapRam _ | .emptyVictim => instDecidableTrue

theorem RecencyInv.move {n : Nat} {held held' : List Nat} {m m' : Machine} (h : RecencyInv n (held, m))
    (hn : n ≤ 8192) (hmove : Move held m held' m') (hfine : ∀ e ∈ m'.trace, RecencyFine n e) :
    RecencyInv n (held', m') := by
  have hframes : FrameInv n (held', m') :=
    (h.frames.move hn hmove).resolve_right (fun hout => hfine .outOfSwap hout.1)
  cases hmove with
  | take hfree => exact ⟨hframes, by simpa [recent] using h.order⟩
  | evict hfree hlru hs => exact h.evicted hlru _ _
  | map r vmaid =>
    have hold : (m.pgd r).present = false :=
      hfine (.mapped r vmaid (m.pgd r)) (by simp [Machine.placed, Machine.referenced])
    exact h.placed hn hold rfl
  | @fill _ _ f rest r hfree hpte =>
    have h₁ : RecencyInv n (f :: held, (m.setFree .mram rest).copyPage .mswp (m.pgd r).fpn .mram f) :=
      ⟨(h.frames.take hfree).congr (Machine.copyPage_freeFpList _ _ _ _ _ .mram) (by simp) (by simp),
        by simpa [recent] using h.order⟩
    exact h₁.placed hn (by simpa using hpte) rfl
  | @replace _ _ v lru s rest r hlru hs hpte =>
    have hne : r ≠ v.pte := by
      rintro rfl
      rw [(h.node (show v ∈ m.lru by simp [hlru])).1] at hpte
      cases hpte
    have h₁ : RecencyInv n (v.fpn :: held,
        ((m.evicted v lru s rest).copyPage .mswp (m.pgd r).fpn .mram v.fpn).setFree .mswp ((m.pgd r).fpn :: rest)) := by
      refine (h.evicted hlru s rest).congr ?_ (by simp) (by simp) (by simp)
      exact Machine.copyPage_freeFpList _ _ _ _ _ .mram
    exact h₁.placed hn (by simpa [Machine.evicted, hne] using hpte) rfl
  | touch r hpte =>
    refine ⟨hframes, ?_⟩
    have hl : (m.referenced r).lru = Lru.moveToTail (m.pgd r).fpn m.lru :=
      Lru.addLruPage_of_mem (h.frames.fpn_mem hpte)
    have hrec : recent (m.referenced r) = (recent m).filter (fun r' => r' ≠ r) ++ [r] :=
      recent_reference hpte rfl (by simp [Machine.referenced, references])
    rw [hl, h.moveToTail_order hpte, hrec]
  | @revisit _ _ f r old hpte hf hlru hwho =>
    refine ⟨hframes, ?_⟩
    have hrec : recent (((m.setLru (Lru.moveToTail old.fpn m.lru)).noted (.reused r old f)).noted (.reference r)) =
        (recent m).filter (fun r' => r' ≠ r) ++ [r] :=
      recent_reference hpte rfl (by simp [references])
    rw [hrec]
    change (Lru.moveToTail old.fpn m.lru).map (·.pte) = _
    rcases hfine (.reused r old f) (by simp) with hsame | hover
    · have hfpn : old.fpn = (m.pgd r).fpn := by
        rw [hf, ← hsame, Nat.mod_eq_of_lt (fpn_lt old)]
      rw [hfpn]
      exact h.moveToTail_order hpte
    · rcases hwho with rfl | htail
      · exact h.moveToTail_order hpte
      · -- no node has the frame, so the page stays at the tail
        rw [Lru.moveToTail_of_not_mem (fun hmem => ?_)]
        · exact (h.atTail hpte htail).1
        · have : old.fpn < n := by
            simpa using h.frames.frames.mem_iff.1 (List.mem_append_left _ (List.mem_append_right _ hmem))
          omega
  | retouch r hlru hwho =>
    rcases hwho with ⟨hpte, htail⟩ | hout
    · refine h.congr rfl ?_ rfl rfl
      exact (h.atTail hpte htail).2
    · exact (hfine .outOfSwap hout).elim
  | ask k => exact h.congr rfl rfl rfl (by simp [references])
  | lose hlru hs => exact (hfine .outOfSwap (by simp)).elim
  | loseNone hlru hs => exact (hfine .outOfSwap (by simp)).elim

theorem RecencyInv.act {n : Nat} {a b : List Nat × Machine} (hn : n ≤ 8192) (hact : Act a b)
    (hfine : ∀ e ∈ b.2.trace, RecencyFine n e) (h : RecencyInv n a) : RecencyInv n b := by
  cases hact with
  | move hmove => exact h.move hn hmove hfine
  | store hstored =>
    obtain ⟨-, mp, hwrite, rfl⟩ := hstored
    refine h.congr ?_ (by simp) (by simp) rfl
    exact memphyWrite_freeFpList hwrite
  | setMm m p mm => exact h.congr rfl rfl rfl rfl

theorem Booted.recency {n : Nat} {m : Machine} (h : Booted m) (hfree : m.mram.freeFpList.Perm (List.range n)) :
    RecencyInv n ([], m) := ⟨h.frames hfree, by simp [recent, references, h.lru, h.trace]⟩

def lastReference (m : Machine) (r : PteRef) : Nat := Recency.lastSeen r (references m.trace)

/-- **The list from `lru_head` to `lru_tail`** has the frames of the present pages, each once, in the order of their
last reference. -/
structure LruOrdered (m : Machine) : Prop where
  nodup : (m.lru.map (·.fpn)).Nodup
  present : ∀ node ∈ m.lru, (m.pgd node.pte).present = true ∧ (m.pgd node.pte).fpn = node.fpn
  listed : ∀ r, (m.pgd r).present = true → ∃ node ∈ m.lru, node.pte = r ∧ node.fpn = (m.pgd r).fpn
  order : (m.lru.map (·.pte)).Pairwise (fun r r' => lastReference m r < lastReference m r')

theorem RecencyInv.ordered {n : Nat} {s : List Nat × Machine} (h : RecencyInv n s) : LruOrdered s.2 where
  nodup := h.frames.lru_nodup
  present _ hmem := h.node hmem
  listed := h.frames.owner
  order := by
    rw [h.order]
    exact (Recency.dedup_pairwise (references s.2.trace)).filter _

/-- **The node a search for a victim takes** is that of the present page referenced longest ago. -/
def TakesOldest (m : Machine) : Prop :=
  ∀ v lru, Lru.findLruVictimPage m.lru = (lru, some v) → (m.pgd v.pte).present = true ∧
    ∀ r, (m.pgd r).present = true → r ≠ v.pte → lastReference m v.pte < lastReference m r

theorem LruOrdered.takesOldest {m : Machine} (h : LruOrdered m) : TakesOldest m := by
  intro v lru hv
  cases hl : m.lru with
  | nil => rw [hl] at hv; cases hv
  | cons node rest =>
    rw [hl] at hv
    cases hv
    refine ⟨(h.present v (by simp [hl])).1, fun r hr hne => ?_⟩
    obtain ⟨node, hmem, hpte, -⟩ := h.listed r hr
    have horder := h.order
    rw [hl, List.map_cons, List.pairwise_cons] at horder
    rw [hl, List.mem_cons] at hmem
    rcases hmem with rfl | hmem
    · exact absurd hpte.symm hne
    · exact horder.1 r (List.mem_map.2 ⟨node, hmem, hpte⟩)

/-- **Replacement is least recently used** in every run in which the entries `__alloc` saves do not name another page's
frame and pages newly mapped are new: the list is in order between calls, and at every act of a further call the victim
to be taken is the oldest page. -/
theorem lru_ordered {n : Nat} {ok : Machine → Pid → Call → Prop} {m₀ m : Machine} (hn : n ≤ 8192) (hboot : Booted m₀)
    (hfree : m₀.mram.freeFpList.Perm (List.range n)) (hrun : Run ok m₀ m) (hfine : ∀ e ∈ m.trace, RecencyFine n e) :
    LruOrdered m ∧ ∀ m', CallStep ok m m' → (∀ e ∈ m'.trace, RecencyFine n e) →
      Relation.ReflTransGen (fun a b => Act a b ∧ TakesOldest a.2) ([], m) ([], m') ∧ LruOrdered m' := by
  have hinv : RecencyInv n ([], m) := run_keeps (RecencyFine n) (RecencyInv n)
    (fun hact hfine h => h.act hn hact hfine) hrun hfine (hboot.recency hfree)
  refine ⟨hinv.ordered, fun m' hstep hfine' => ?_⟩
  have hkeep : ∀ b, Acts ([], m) b → (∀ e ∈ b.2.trace, RecencyFine n e) →
      Relation.ReflTransGen (fun a b => Act a b ∧ TakesOldest a.2) ([], m) b ∧ RecencyInv n b := by
    intro b hb
    induction hb with
    | refl => exact fun _ => ⟨.refl, hinv⟩
    | tail _ hd ih =>
      intro hfineb
      obtain ⟨hpath, hinvb⟩ := ih (fun e he => hfineb e (hd.trace_prefix.subset he))
      exact ⟨hpath.tail ⟨hd, hinvb.ordered.takesOldest⟩, hinvb.act hn hd hfineb⟩
  obtain ⟨hpath, hinv'⟩ := hkeep _ (callStep_acts hstep) hfine'
  exact ⟨hpath, hinv'.ordered⟩

/-- Three frames, three pages; page 0 is freed, goes out to swap frame 0, and its region is allocated again. -/
def staleFrame : List (Pid × Call) :=
  [(0, .pgalloc 256 0), (0, .pgalloc 256 1), (0, .pgalloc 256 2), (0, .pgfreeData 0), (0, .pgread 1 0),
    (0, .pgread 2 0), (0, .pgalloc 300 3), (0, .pgalloc 256 4)]

/-- **The entry saved says frame 0**, which page 3 has by now: page 3 moves behind page 0, the page just referenced. -/
theorem lru_ordered_fails : ∃ m rets,
    runCalls (fun _ _ _ => true) 10 staleFrame (boot 768 16384 4096) = some (m, rets) ∧
    Run anyCall (boot 768 16384 4096) m ∧ (∀ ret ∈ rets, ret.1 = 0) ∧ Event.outOfSwap ∉ m.trace ∧ ¬ LruOrdered m := by
  have hsome : (runCalls (fun _ _ _ => true) 10 staleFrame (boot 768 16384 4096)).any
      (fun q => (∀ ret ∈ q.2, ret.1 = 0) ∧ Event.outOfSwap ∉ q.1.trace ∧
        ¬ (q.1.lru.map (·.pte)).Pairwise (fun r r' => lastReference q.1 r < lastReference q.1 r')) = true := by
    decide +kernel
  obtain ⟨⟨m, rets⟩, hm, hq⟩ := (Option.any_eq_true _ _).1 hsome
  simp only [decide_eq_true_iff] at hq
  exact ⟨m, rets, hm, run_of_runCalls (fun _ _ _ _ => trivial) _ hm, hq.1, hq.2.1, fun hord => hq.2.2 hord.order⟩

/-- Page 0 allocated again while it is still in its frame; pages 1 and 2 are evicted next, in this order. -/
theorem lru_ordered_reused : ∃ m, Run anyCall (boot 768 16384 4096) m ∧
    m.lru.map (·.pte) = [⟨0, 0⟩, ⟨0, 4⟩, ⟨0, 3⟩] ∧ LruOrdered m := by
  have hsome : (runCalls (fun _ _ _ => true) 10 [(0, .pgalloc 256 0), (0, .pgalloc 256 1), (0, .pgalloc 256 2),
      (0, .pgfreeData 0), (0, .pgalloc 256 4), (0, .pgalloc 300 3)] (boot 768 16384 4096)).any
      (fun q => q.1.lru.map (·.pte) = [⟨0, 0⟩, ⟨0, 4⟩, ⟨0, 3⟩] ∧ ∀ e ∈ q.1.trace, RecencyFine 3 e) = true := by
    decide +kernel
  obtain ⟨⟨m, rets⟩, hm, hq⟩ := (Option.any_eq_true _ _).1 hsome
  simp only [decide_eq_true_iff] at hq
  have hrun : Run anyCall (boot 768 16384 4096) m := run_of_runCalls (fun _ _ _ _ => trivial) _ hm
  refine ⟨m, hrun, hq.1, (lru_ordered (by decide) (booted_boot 768 16384 4096) ?_ hrun hq.2).1⟩
  rw [show (boot 768 16384 4096).mram.freeFpList = List.range 3 from rfl]

end OsSim
