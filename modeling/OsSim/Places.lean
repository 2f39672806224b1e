import OsSim.Lib.Deal
import OsSim.Hand
import OsSim.Confined
/-!
# Places — where the frames are while several CPUs are at work

A RAM frame is free, under a node of the LRU list, or in the hand of one CPU.  Whatever one CPU may do keeps it so,
and keeps the page another CPU has in hand where it is, as long as no page is evicted by one CPU while another has
it in hand.
-/
namespace OsSim

open Atomic Code Prog

/-- A frame's place: free or taken, or under a node of the LRU list. -/
structure Slot where
  frame : Nat
  page : Option PteRef

def LruNode.slot (v : LruNode) : Slot := ⟨v.fpn, some v.pte⟩

def bareSlot (f : Nat) : Slot := ⟨f, none⟩

def Machine.slots (m : Machine) : List Slot := m.mram.freeFpList.map bareSlot ++ m.lru.map (·.slot)

def Hand.slots (g : Hand) : List Slot := g.frames.map bareSlot ++ (g.victim.map (·.slot)).toList

theorem Hand.slots_drop (g : Hand) : ({ g with victim := none } : Hand).slots.Subperm g.slots := by
  refine List.Sublist.subperm ?_
  simp [Hand.slots]

/-- The operation leaves the page tables and the frames' places as they are, up to the order of the lists. -/
def Op.still : Op → Prop
  | .getFreefp .mram | .putFreefp .mram _ | .findLruVictimPage | .addLruPage _ | .setSwap _ _ _ | .setFpn _ _ => False
  | _ => True

theorem Machine.slots_congr {m m' : Machine} (hfree : m'.mram.freeFpList = m.mram.freeFpList)
    (hlru : m'.lru.Perm m.lru) :
    m'.slots.Perm m.slots := by
  unfold Machine.slots
  rw [hfree]
  exact (hlru.map _).append_left _

theorem memphyWrite_setDev {m : Machine} {d : Dev} {mp : Memphy} {addr : Nat} {v : Byte}
    (h : memphyWrite (m.dev d) addr v = .ok mp) : (m.setDev d mp).slots.Perm m.slots := by
  refine Machine.slots_congr ?_ (by simp)
  cases d with
  | mram => exact memphyWrite_freeFpList h
  | mswp => rfl

theorem step_still {o : Op} {m m' : Machine} {a : o.Res} (ho : o.still) (h : step o m = .ok (m', a)) :
    m'.pgd = m.pgd ∧ m'.slots.Perm m.slots := by
  refine ⟨?_, ?_⟩
  · rcases step_pgd h with hpgd | ⟨r, t, s, rfl, -⟩ | ⟨r, f, rfl, -⟩
    · exact hpgd
    · cases ho
    · cases ho
  · cases o with
    | findLruVictimPage | addLruPage r | setSwap r t s | setFpn r f => cases ho
    | getFreefp d | putFreefp d f =>
      cases d with
      | mram => cases ho
      | mswp =>
        cases h
        exact Machine.slots_congr rfl (by simp)
    | read d addr | load r addr =>
      obtain ⟨b, -, heq⟩ := map_ok h
      cases heq
      exact .refl _
    | write d addr v | store r addr v =>
      obtain ⟨mp, hmp, heq⟩ := map_ok h
      cases heq
      exact memphyWrite_setDev hmp
    | updateLruLst ptr =>
      rw [step] at h
      split at h
      · cases h
      · rename_i lru hlru
        cases h
        refine Machine.slots_congr rfl ?_
        cases hl : m.lru with
        | nil => rw [hl] at hlru; cases hlru
        | cons v rest =>
          rw [hl] at hlru
          cases hlru
          exact Lru.moveToTail_perm _ _
    | fault f => cases h
    | lock l | unlock l | readPte r | getMm p | setMm p mm | note e =>
      cases h
      exact .refl _

/-- The page in hand is the process's own and in RAM, in the frame its entry was read to hold. -/
def Hand.Pins (p : Pid) (m : Machine) (g : Hand) : Prop :=
  ∀ r, g.page = some r → r.pid = p ∧ (m.pgd r).present = true ∧ ∀ f, g.fpn = some f → (m.pgd r).fpn = f

/-- **Every frame is in one place**, and a page in RAM has its frame to itself. -/
structure Placed {Cpu : Type} (proc : Cpu → Pid) (hand : Cpu → Hand) (m : Machine) : Prop where
  deal : Deal Slot.frame m.slots (fun i => (hand i).slots)
  small : ∀ i, ∀ s ∈ m.slots ++ (hand i).slots, s.frame < 8192
  owner : ∀ i, ∀ s ∈ m.slots ++ (hand i).slots, ∀ r, (m.pgd r).present = true → (m.pgd r).fpn = s.frame → s.page = some r
  inj : ∀ r r', (m.pgd r).present = true → (m.pgd r').present = true → (m.pgd r).fpn = (m.pgd r').fpn → r = r'
  pins : ∀ i, (hand i).Pins (proc i) m

namespace Placed

variable {Cpu : Type} {proc : Cpu → Pid} {hand : Cpu → Hand} {m m' : Machine} {i : Cpu} {g : Hand}

/-- **The page in hand is listed**, its frame's node being on no list and in no hand. -/
theorem list (h : Placed proc hand m) (hpgd : m'.pgd = m.pgd) {r : PteRef} (hr : (m.pgd r).present = true)
    (hslots : m'.slots = m.slots ++ [⟨(m.pgd r).fpn, some r⟩])
    (hnew : ∀ j, ∀ s ∈ m.slots ++ (hand j).slots, s.frame ≠ (m.pgd r).fpn) : Placed proc hand m' where
  deal := by
    rw [hslots]
    exact h.deal.lay hnew
  small := by
    intro j s hs
    rw [hslots] at hs
    simp only [List.append_assoc, List.mem_append, List.mem_singleton] at hs
    rcases hs with hm | rfl | hh
    · exact h.small j s (List.mem_append_left _ hm)
    · exact fpn_lt _
    · exact h.small j s (List.mem_append_right _ hh)
  owner := by
    intro j s hs q hq hf
    rw [hpgd] at hq hf
    rw [hslots] at hs
    simp only [List.append_assoc, List.mem_append, List.mem_singleton] at hs
    rcases hs with hm | rfl | hh
    · exact h.owner j s (List.mem_append_left _ hm) q hq hf
    · rw [h.inj q r hq hr hf]
    · exact h.owner j s (List.mem_append_right _ hh) q hq hf
  inj := by
    rw [hpgd]
    exact h.inj
  pins := by
    unfold Hand.Pins
    rw [hpgd]
    exact h.pins

theorem inj_setPte (h : Placed proc hand m) {r : PteRef} {pte : Pte}
    (hfree : ∀ q, (m.pgd q).present = true → (m.pgd q).fpn ≠ pte.fpn) (q q' : PteRef)
    (hq : ((m.setPte r pte).pgd q).present = true) (hq' : ((m.setPte r pte).pgd q').present = true)
    (hqf : ((m.setPte r pte).pgd q).fpn = ((m.setPte r pte).pgd q').fpn) : q = q' := by
  rw [Machine.setPte_pgd] at hq hq' hqf
  by_cases hqr : q = r <;> by_cases hqr' : q' = r
  · rw [hqr, hqr']
  · subst hqr
    rw [Function.update_of_ne hqr'] at hq' hqf
    rw [Function.update_self] at hqf
    exact absurd hqf.symm (hfree q' hq')
  · subst hqr'
    rw [Function.update_of_ne hqr] at hq hqf
    rw [Function.update_self] at hqf
    exact absurd hqf (hfree q hq)
  · rw [Function.update_of_ne hqr] at hq hqf
    rw [Function.update_of_ne hqr'] at hq' hqf
    exact h.inj q q' hq hq' hqf

variable [DecidableEq Cpu]

theorem update_pins (h : Placed proc hand m) (hpgd : ∀ j, j ≠ i → ∀ r, (hand j).page = some r → m'.pgd r = m.pgd r)
    (hg : g.Pins (proc i) m') : ∀ j, (Function.update hand i g j).Pins (proc j) m' := by
  intro j
  by_cases hj : j = i
  · subst hj
    rwa [Function.update_self]
  · rw [Function.update_of_ne hj]
    intro r hr
    rw [hpgd j hj r hr]
    exact h.pins j r hr

/-- What holds of every slot of CPU `i` and of the slots of the others that were there. -/
theorem update_slots {P : Slot → Prop} (hi : ∀ s ∈ m'.slots ++ g.slots, P s)
    (hother : ∀ j, j ≠ i → ∀ s ∈ (hand j).slots, P s) :
    ∀ j, ∀ s ∈ m'.slots ++ (Function.update hand i g j).slots, P s := by
  intro j s hs
  by_cases hj : j = i
  · subst hj
    rw [Function.update_self] at hs
    exact hi s hs
  · rw [Function.update_of_ne hj] at hs
    rcases List.mem_append.1 hs with hm | hh
    · exact hi s (List.mem_append_left _ hm)
    · exact hother j hj s hh

/-- **Frames change places** between the machine and one CPU's hand, no entry being written. -/
theorem exchange (h : Placed proc hand m) (hpgd : m'.pgd = m.pgd)
    (hsub : (m'.slots ++ g.slots).Subperm (m.slots ++ (hand i).slots)) (hg : g.Pins (proc i) m) :
    Placed proc (Function.update hand i g) m' where
  deal := by
    refine h.deal.exchange (i := i) ?_ (fun j hj => by rw [Function.update_of_ne hj])
    rw [Function.update_self]
    obtain ⟨l, hperm, hl⟩ := hsub
    exact ⟨l.map _, hperm.map _, hl.map _⟩
  small := update_slots (fun s hs => h.small i s (hsub.subset hs))
    (fun j _ s hs => h.small j s (List.mem_append_right _ hs))
  owner := by
    rw [hpgd]
    exact update_slots (fun s hs => h.owner i s (hsub.subset hs))
      (fun j _ s hs => h.owner j s (List.mem_append_right _ hs))
  inj := by
    rw [hpgd]
    exact h.inj
  pins := by
    refine h.update_pins (fun _ _ _ _ => by rw [hpgd]) ?_
    unfold Hand.Pins
    rw [hpgd]
    exact hg

/-- **A victim's page is marked swapped out**: the frame is in the evictor's hand alone. -/
theorem mark (h : Placed proc hand m) {v : LruNode} {pte : Pte} (hv : (hand i).victim = some v)
    (hpte : pte.present = false) (hother : ∀ j, j ≠ i → (hand j).page ≠ some v.pte)
    (hframes : g.frames = v.fpn :: (hand i).frames) (hvic : g.victim = none) (hpage : g.page = none) :
    Placed proc (Function.update hand i g) (m.setPte v.pte pte) := by
  have hold : (hand i).slots = (hand i).frames.map bareSlot ++ [v.slot] := by rw [Hand.slots, hv]; rfl
  have hnew : g.slots = bareSlot v.fpn :: (hand i).frames.map bareSlot := by rw [Hand.slots, hframes, hvic]; simp
  have hvmem : v.slot ∈ m.slots ++ (hand i).slots := by simp [hold]
  have hgone : ∀ q, ((m.setPte v.pte pte).pgd q).present = true → q ≠ v.pte ∧ (m.setPte v.pte pte).pgd q = m.pgd q := by
    intro q hq
    by_cases hqv : q = v.pte
    · subst hqv
      simp [hpte] at hq
    · exact ⟨hqv, by simp [hqv]⟩
  have hmem : ∀ s ∈ m.slots ++ g.slots, s = bareSlot v.fpn ∨ s ∈ m.slots ++ (hand i).slots := by
    intro s hs
    rw [hnew] at hs
    rw [hold]
    simp only [List.mem_append, List.mem_cons] at hs ⊢
    tauto
  constructor
  · refine h.deal.exchange (i := i) ?_ (fun j hj => by rw [Function.update_of_ne hj])
    rw [Function.update_self, hold, hnew]
    have hperm : (v.slot :: (hand i).frames.map bareSlot).Perm ((hand i).frames.map bareSlot ++ [v.slot]) :=
      (List.perm_append_singleton _ _).symm
    have hmap : ((m.setPte v.pte pte).slots ++ bareSlot v.fpn :: (hand i).frames.map bareSlot).map Slot.frame =
        (m.slots ++ v.slot :: (hand i).frames.map bareSlot).map Slot.frame := by
      simp only [List.map_append, List.map_cons]
      rfl
    rw [hmap]
    exact ((hperm.append_left m.slots).map Slot.frame).subperm
  · refine update_slots (fun s hs => ?_) (fun j _ s hs => h.small j s (List.mem_append_right _ hs))
    rcases hmem s hs with rfl | hs
    · exact h.small i v.slot hvmem
    · exact h.small i s hs
  · refine update_slots (fun s hs q hq hf => ?_) (fun j _ s hs q hq hf => ?_)
    · obtain ⟨hne, hsame⟩ := hgone q hq
      rw [hsame] at hq hf
      rcases hmem s hs with rfl | hs
      · exact absurd (Option.some.inj (h.owner i _ hvmem q hq hf)).symm hne
      · exact h.owner i s hs q hq hf
    · obtain ⟨-, hsame⟩ := hgone q hq
      rw [hsame] at hq hf
      exact h.owner j s (List.mem_append_right _ hs) q hq hf
  · intro q q' hq hq' hf
    obtain ⟨-, hsame⟩ := hgone q hq
    obtain ⟨-, hsame'⟩ := hgone q' hq'
    rw [hsame] at hq hf
    rw [hsame'] at hq' hf
    exact h.inj q q' hq hq' hf
  · refine h.update_pins (fun j hj q hq => ?_) (fun q hq => ?_)
    · have hqv : q ≠ v.pte := fun e => hother j hj (e ▸ hq)
      simp [hqv]
    · rw [hpage] at hq
      cases hq

/-- **A frame in hand goes under a page** of the CPU's own process. -/
theorem place (h : Placed proc hand m) (hproc : Function.Injective proc) {r : PteRef} {f : Nat} (hr : r.pid = proc i)
    (hf : f ∈ (hand i).frames) (hframes : g.frames = (hand i).frames.erase f) (hvic : g.victim = (hand i).victim)
    (hpage : g.page = some r) (hfpn : g.fpn = none) :
    Placed proc (Function.update hand i g) (m.setPte r (pteSetFpn (m.pgd r) f)) := by
  have hperm : (m.slots ++ (hand i).slots).Perm (bareSlot f :: (m.slots ++ g.slots)) := by
    have hfr : ((hand i).frames.map bareSlot).Perm (bareSlot f :: g.frames.map bareSlot) := by
      rw [hframes]
      exact (List.perm_cons_erase hf).map bareSlot
    rw [Hand.slots, Hand.slots, hvic]
    exact ((hfr.append_right _).append_left m.slots).trans List.perm_middle
  have hfmem : bareSlot f ∈ m.slots ++ (hand i).slots := hperm.mem_iff.2 List.mem_cons_self
  have hsub : ∀ s ∈ m.slots ++ g.slots, s ∈ m.slots ++ (hand i).slots :=
    fun s hs => hperm.mem_iff.2 (List.mem_cons_of_mem _ hs)
  have hlt : f < 8192 := h.small i _ hfmem
  have hentry : (pteSetFpn (m.pgd r) f : Pte).fpn = f := (fpn_pteSetFpn _ _).trans (Nat.mod_eq_of_lt hlt)
  have hself : ((m.setPte r (pteSetFpn (m.pgd r) f)).pgd r).fpn = f := by
    rw [Machine.setPte_pgd, Function.update_self, hentry]
  -- no slot that stays has the frame
  have hnoti : ∀ s ∈ m.slots ++ g.slots, s.frame ≠ f := by
    intro s hs hsf
    have hnd := ((hperm.map Slot.frame).nodup_iff).1 (h.deal.nodup i)
    rw [List.map_cons, List.nodup_cons] at hnd
    exact hnd.1 (List.mem_map.2 ⟨s, hs, hsf⟩)
  have hfhand : bareSlot f ∈ (hand i).slots := List.mem_append_left _ (List.mem_map_of_mem hf)
  have hnotj : ∀ j, j ≠ i → ∀ s ∈ (hand j).slots, s.frame ≠ f := fun j hj s hs =>
    (h.deal.apart i j hj.symm _ hfhand s hs).symm
  have hkeep : ∀ s i', s ∈ m.slots ++ (hand i').slots → s.frame ≠ f → ∀ q,
      ((m.setPte r (pteSetFpn (m.pgd r) f)).pgd q).present = true →
      ((m.setPte r (pteSetFpn (m.pgd r) f)).pgd q).fpn = s.frame → s.page = some q := by
    intro s i' hs hsf q hq hqf
    by_cases hqr : q = r
    · subst hqr
      rw [hself] at hqf
      exact absurd hqf.symm hsf
    · rw [Machine.setPte_pgd, Function.update_of_ne hqr] at hq hqf
      exact h.owner i' s hs q hq hqf
  -- no page in RAM had the frame
  have hfree : ∀ q, (m.pgd q).present = true → (m.pgd q).fpn ≠ f := fun q hq hqf => by
    have := h.owner i _ hfmem q hq hqf
    cases this
  constructor
  · refine h.deal.exchange (i := i) ?_ (fun j hj => by rw [Function.update_of_ne hj])
    rw [Function.update_self]
    exact (List.Sublist.subperm (List.sublist_cons_self _ _)).trans (hperm.map Slot.frame).symm.subperm
  · exact update_slots (fun s hs => h.small i s (hsub s hs)) (fun j _ s hs => h.small j s (List.mem_append_right _ hs))
  · exact update_slots (fun s hs => hkeep s i (hsub s hs) (hnoti s hs))
      (fun j hj s hs => hkeep s j (List.mem_append_right _ hs) (hnotj j hj s hs))
  · exact h.inj_setPte (fun q hq hqf => hfree q hq (hqf.trans hentry))
  · refine h.update_pins (fun j hj q hq => ?_) (fun q hq => ?_)
    · have hqr : q ≠ r := fun e => hj (hproc ((h.pins j q hq).1.symm.trans (e ▸ hr)))
      simp [hqr]
    · rw [hpage] at hq
      cases hq
      refine ⟨hr, by simp, fun f' hf' => ?_⟩
      rw [hfpn] at hf'
      cases hf'

/-! ### What each operation does -/

theorem take (h : Placed proc hand m) {f : Nat} {rest : List Nat} (hfree : m.mram.freeFpList = f :: rest)
    (hframes : g.frames = f :: (hand i).frames) (hvic : g.victim = (hand i).victim) (hg : g.Pins (proc i) m) :
    Placed proc (Function.update hand i g) (m.setFree .mram rest) := by
  refine h.exchange (by simp) (List.Perm.subperm ?_) hg
  have hm : m.slots = bareSlot f :: (m.setFree .mram rest).slots := by simp [Machine.slots, hfree]
  have hh : g.slots = bareSlot f :: (hand i).slots := by simp [Hand.slots, hframes, hvic]
  rw [hm, hh, List.cons_append]
  exact List.perm_middle

theorem pop (h : Placed proc hand m) {v : LruNode} {lru : List LruNode} (hlru : m.lru = v :: lru)
    (hframes : g.frames = (hand i).frames) (hvic : g.victim = some v) (hg : g.Pins (proc i) m) :
    Placed proc (Function.update hand i g) (m.setLru lru) := by
  refine h.exchange rfl ?_ hg
  have hm : m.slots.Perm (v.slot :: (m.setLru lru).slots) := by
    simp only [Machine.slots, hlru, List.map_cons]
    exact List.perm_middle
  have hh : g.slots.Perm (v.slot :: (hand i).frames.map bareSlot) := by
    simp only [Hand.slots, hframes, hvic, Option.map_some, Option.toList_some]
    exact List.perm_append_singleton _ _
  have hperm : ((m.setLru lru).slots ++ g.slots).Perm (m.slots ++ (hand i).frames.map bareSlot) :=
    ((hh.append_left _).trans List.perm_middle).trans (hm.symm.append_right _)
  exact hperm.subperm.trans ((List.sublist_append_left _ _).append_left _).subperm

theorem add (h : Placed proc hand m) {r : PteRef} (hpage : (hand i).page = some r) (hnone : (hand i).victim = none)
    (hclear : Clear hand) : Placed proc hand (m.addLru r) := by
  obtain ⟨-, hpres, -⟩ := h.pins i r hpage
  have hslots : ∀ l : List LruNode, l.Perm m.lru → (m.setLru l).slots.Perm m.slots := fun l hl =>
    (hl.map _).append_left _
  by_cases hmem : (m.pgd r).fpn ∈ m.lru.map (·.fpn)
  · have hl : (Lru.addLruPage m.lru ⟨r, (m.pgd r).fpn, r.pgn⟩).Perm m.lru := by
      rw [Lru.addLruPage_of_mem hmem]
      exact Lru.moveToTail_perm _ _
    have hadd : Placed proc (Function.update hand i (hand i)) (m.addLru r) :=
      h.exchange rfl ((hslots _ hl).append_right _).subperm (h.pins i)
    rwa [Function.update_eq_self] at hadd
  · have hl : Lru.addLruPage m.lru ⟨r, (m.pgd r).fpn, r.pgn⟩ = m.lru ++ [⟨r, (m.pgd r).fpn, r.pgn⟩] :=
      Lru.addLruPage_of_not_mem hmem
    refine h.list rfl hpres ?_ (fun j s hs hf => ?_)
    · simp [Machine.slots, Machine.addLru, hl, LruNode.slot]
    · have hown := h.owner j s hs r hpres hf.symm
      simp only [Machine.slots, Hand.slots, List.mem_append, List.mem_map, Option.mem_toList,
        Option.map_eq_some_iff] at hs
      rcases hs with (⟨f, -, rfl⟩ | ⟨v, hv, rfl⟩) | (⟨f, -, rfl⟩ | ⟨v, hv, rfl⟩)
      · cases hown
      · exact hmem (List.mem_map.2 ⟨v, hv, hf⟩)
      · cases hown
      · -- another CPU has the node: the page is being evicted while in hand
        by_cases hj : j = i
        · rw [hj, hnone] at hv
          cases hv
        · have hpte : v.pte = r := Option.some.inj hown
          exact hclear i j (fun e => hj e.symm) v hv (by rw [hpage, hpte])

theorem still (h : Placed proc hand m) {o : Op} {a : o.Res} (hstep : step o m = .ok (m', a)) (ho : o.still)
    (hslots : g.slots.Subperm (hand i).slots) (hg : g.Pins (proc i) m) : Placed proc (Function.update hand i g) m' := by
  obtain ⟨hpgd, hperm⟩ := step_still ho hstep
  exact h.exchange hpgd (hperm.subperm.append hslots) hg

theorem pins_none {g : Hand} {p : Pid} (hg : g.page = none) : g.Pins p m := fun r hr => by
  rw [hg] at hr
  cases hr

theorem step_getFreefp (h : Placed proc hand m) {d : Dev} {a : (Op.getFreefp d).Res}
    (hstep : step (.getFreefp d) m = .ok (m', a)) :
    Placed proc (Function.update hand i ((hand i).next (.getFreefp d) a)) m' := by
  have hpins := h.pins i
  cases d with
  | mswp => exact h.still hstep trivial (.refl _) hpins
  | mram =>
    have hok : Except.ok (m.setDev .mram (memphyGetFreefp m.mram).1, (memphyGetFreefp m.mram).2) =
      Except.ok (m', a) := hstep
    cases hfree : m.mram.freeFpList with
    | nil =>
      have hget : memphyGetFreefp m.mram = (m.mram, none) := by rw [memphyGetFreefp, hfree]
      rw [hget] at hok
      cases hok
      exact h.exchange rfl (.refl _) hpins
    | cons f rest =>
      have hget : memphyGetFreefp m.mram = ({ m.mram with freeFpList := rest }, some f) := by
        rw [memphyGetFreefp, hfree]
      rw [hget] at hok
      cases hok
      exact h.take hfree rfl rfl hpins

theorem step_findLruVictimPage (h : Placed proc hand m) {a : Op.findLruVictimPage.Res}
    (hstep : step .findLruVictimPage m = .ok (m', a)) :
    Placed proc (Function.update hand i ((hand i).next .findLruVictimPage a)) m' := by
  rw [step] at hstep
  cases hlru : m.lru with
  | nil =>
    rw [hlru] at hstep
    cases hstep
    exact h.exchange rfl (List.Subperm.append (.refl _) (Hand.slots_drop _)) (h.pins i)
  | cons v lru =>
    rw [hlru] at hstep
    cases hstep
    exact h.pop hlru rfl rfl (h.pins i)

theorem step_addLruPage (h : Placed proc hand m) (hclear : Clear hand) {r : PteRef} (hpage : (hand i).page = some r)
    (hvictim : (hand i).victim = none) :
    Placed proc (Function.update hand i ((hand i).next (.addLruPage r) ())) (m.addLru r) := by
  have hadd := (h.add hpage hvictim hclear).exchange (i := i) (g := (hand i).next (.addLruPage r) ()) rfl
  rw [Hand.next_addLruPage] at hadd ⊢
  refine hadd ?_ ?_
  · split <;> exact .refl _
  · split
    · exact h.pins i
    · exact pins_none rfl

/-- The page of an entry read is in hand if it is there already or is found in RAM. -/
theorem step_readPte (h : Placed proc hand m) {r : PteRef} (hmay : r.pid = proc i) :
    Placed proc (Function.update hand i ((hand i).next (.readPte r) (m.pgd r))) m := by
  have hstep : step (.readPte r) m = .ok (m, m.pgd r) := rfl
  refine h.still hstep trivial ?_ ?_ <;> rw [Hand.next_readPte]
  · split
    · split <;> exact .refl _
    · exact .refl _
  · split
    · split
      · rename_i hfound
        intro q hq
        cases hq
        exact ⟨hmay, hfound.elim (fun hpage => (h.pins i r hpage).2.1) id, fun f hf => Option.some.inj hf⟩
      · exact pins_none rfl
    · exact h.pins i

theorem step_note (h : Placed proc hand m) (e : Event) :
    Placed proc (Function.update hand i ((hand i).next (.note e) ())) (m.noted e) := by
  have hstep : step (.note e) m = .ok (m.noted e, ()) := rfl
  refine h.still hstep trivial ?_ ?_
  · cases e with
    | outOfSwap => exact Hand.slots_drop _
    | _ => exact .refl _
  · cases e <;> exact h.pins i

/-- **What a CPU may do keeps every frame in one place**, no page being evicted while in hand. -/
theorem step (h : Placed proc hand m) (hproc : Function.Injective proc) (hclear : Clear hand) {o : Op} {a : o.Res}
    (hmay : (hand i).may (proc i) o) (hstep : OsSim.step o m = .ok (m', a)) :
    Placed proc (Function.update hand i ((hand i).next o a)) m' := by
  cases o with
  | getFreefp d => exact h.step_getFreefp hstep
  | findLruVictimPage => exact h.step_findLruVictimPage hstep
  | addLruPage r =>
    cases hstep
    exact h.step_addLruPage hclear hmay.1 hmay.2
  | setSwap r swptyp swpoff =>
    obtain ⟨hpage, v, hv, rfl⟩ := hmay
    cases hstep
    refine h.mark hv (by simp) (fun j hj => hclear j i hj v hv) ?_ rfl hpage
    simp [Hand.next, hv]
  | setFpn r f =>
    cases hstep
    exact h.place hproc hmay.2 hmay.1 rfl rfl rfl rfl
  | putFreefp d f =>
    cases d with
    | mram => exact absurd hmay id
    | mswp => exact h.still hstep trivial (.refl _) (h.pins i)
  | readPte r =>
    cases hstep
    exact h.step_readPte hmay
  | store r addr v | load r addr => exact h.still hstep trivial (.refl _) (pins_none rfl)
  | note e =>
    cases hstep
    exact h.step_note e
  | lock l | unlock l =>
    refine h.still hstep trivial ?_ ?_
    · cases l <;> exact .refl _
    · cases l <;> exact h.pins i
  | read d addr | write d addr v | updateLruLst ptr | getMm p | setMm p mm | fault f =>
    exact h.still hstep trivial (.refl _) (h.pins i)

theorem empty (h : Placed proc hand m) : Placed proc (Function.update hand i Hand.empty) m := by
  refine h.exchange rfl (List.Sublist.subperm ?_) (fun r hr => by cases hr)
  simp [Hand.slots, Hand.holding]

end Placed

theorem Booted.placed {Cpu : Type} {n : Nat} {m : Machine} (h : Booted m) (hn : n ≤ 8192)
    (hfree : m.mram.freeFpList.Perm (List.range n)) (proc : Cpu → Pid) : Placed proc (fun _ => Hand.empty) m := by
  have hslots : m.slots ++ Hand.empty.slots = m.mram.freeFpList.map bareSlot := by
    simp [Machine.slots, Hand.slots, Hand.holding, h.lru]
  have hframes : (m.mram.freeFpList.map bareSlot).map Slot.frame = m.mram.freeFpList := by
    simp [Function.comp_def, bareSlot]
  have hpgd : ∀ r, (m.pgd r).present ≠ true := fun r => by simp [h.pgd r]
  constructor
  · constructor
    · intro i
      simp only [hslots, hframes]
      exact hfree.nodup_iff.2 List.nodup_range
    · intro i j _ s hs
      simp [Hand.slots, Hand.holding] at hs
  · intro i s hs
    simp only [hslots, List.mem_map] at hs
    obtain ⟨f, hf, rfl⟩ := hs
    have hlt := List.mem_range.1 (hfree.mem_iff.1 hf)
    exact Nat.lt_of_lt_of_le hlt hn
  · exact fun i s hs r hr => absurd hr (hpgd r)
  · exact fun r r' hr => absurd hr (hpgd r)
  · exact fun i r hr => by cases hr

end OsSim
