import OsSim.Lib.Threads
import OsSim.Vm
/-!
# Hand — what a CPU is in the middle of

Between the operations of the paging code a CPU has frames in hand that it took and has not placed, a victim it took off
the LRU list and has not marked, a page it found in RAM or brought in and has not yet accessed.  Each function is read
off once for what it may do with these.
-/
namespace OsSim

open Atomic Code Prog

structure Hand where
  /-- RAM frames taken off the free list or from a victim, and under no page yet. -/
  frames : List Nat
  /-- The node `find_LRU_victim_page` took off the list, until its page is marked swapped out. -/
  victim : Option LruNode
  /-- The page `pg_getpage` found in RAM or brought in, until its byte is stored or read; a page mapped or brought in by
  `__alloc`, until it is listed. -/
  page : Option PteRef
  /-- The frame `pg_getpage` read off the page's entry. -/
  fpn : Option Nat
  /-- The CPU holds `MEM_in_use` of `mm-vm.c`. -/
  locked : Bool

namespace Hand

def holding (frames : List Nat) : Hand := ⟨frames, none, none, none, false⟩

abbrev empty : Hand := holding []

def may (p : Pid) (g : Hand) : Op → Prop
  | .putFreefp .mram _ => False
  | .setSwap r _ _ => g.page = none ∧ ∃ v, g.victim = some v ∧ v.pte = r
  | .setFpn r f => f ∈ g.frames ∧ r.pid = p
  | .addLruPage r => g.page = some r ∧ g.victim = none
  | .readPte r => r.pid = p
  | .store r addr _ => g.page = some r ∧ g.fpn = some (addr / pagingPagesz) ∧ g.victim = none
  | _ => True

def put (g : Hand) (page : Option PteRef) (fpn : Option Nat) : Hand := { g with page := page, fpn := fpn }

def next (g : Hand) : (o : Op) → o.Res → Hand
  | .lock .mmVm, _ => { g with locked := true }
  | .unlock .mmVm, _ => { g with locked := false }
  | .getFreefp .mram, some f => { g with frames := f :: g.frames }
  | .findLruVictimPage, v => { g with victim := v }
  | .note .outOfSwap, _ => { g with victim := none }
  | .setSwap _ _ _, _ => { g with frames := (g.victim.map (·.fpn)).toList ++ g.frames, victim := none }
  | .setFpn r f, _ => { g.put (some r) none with frames := g.frames.erase f }
  | .addLruPage _, _ => if g.locked then g else g.put none none
  -- read under the mutex, the entry is the one `pg_getpage` goes by
  | .readPte r, pte =>
    if g.locked then
      if g.page = some r ∨ pte.present then g.put (some r) (some pte.fpn) else g.put none none
    else g
  | .store _ _ _, _ | .load _ _, _ => g.put none none
  | _, _ => g

theorem next_addLruPage (g : Hand) (r : PteRef) :
    g.next (.addLruPage r) () = if g.locked then g else g.put none none := rfl

theorem next_readPte (g : Hand) (r : PteRef) (pte : Pte) :
    g.next (.readPte r) pte =
      if g.locked then
        if g.page = some r ∨ pte.present then g.put (some r) (some pte.fpn) else g.put none none
      else g := rfl

end Hand

/-- **No page is evicted by one CPU while another has it in hand**: from `find_LRU_victim_page` until `pte_set_swap`, no
other CPU is between finding the page in RAM, or bringing it in, and accessing it. -/
def Clear {Cpu : Type} (hand : Cpu → Hand) : Prop :=
  ∀ i j, i ≠ j → ∀ v ∈ (hand j).victim, (hand i).page ≠ some v.pte

instance {n : Nat} (hand : Fin n → Hand) : Decidable (Clear hand) :=
  inferInstanceAs (Decidable (∀ i j, i ≠ j → ∀ v ∈ (hand j).victim, (hand i).page ≠ some v.pte))

abbrev handRule (p : Pid) : Discipline memSig Hand := ⟨Hand.may p, Hand.next⟩

/-- The program, with `g` in hand, does what a CPU of process `p` may, and ends in `Q`. -/
abbrev Handles (p : Pid) {α : Type} (Q : Hand → α → Prop) (c : Code α) (g : Hand) : Prop := c.Obeys (handRule p) Q g

def Op.aside : Op → Prop
  | .lock .mm | .unlock .mm | .getFreefp .mswp | .putFreefp .mswp _ | .read _ _ | .write _ _ _
  | .updateLruLst _ | .getMm _ | .setMm _ _ | .fault _ => True
  | .note e => e ≠ .outOfSwap
  | _ => False

theorem Op.aside_next {p : Pid} {g : Hand} {o : Op} (h : o.aside) : g.may p o ∧ ∀ r, g.next o r = g := by
  cases o with
  | lock l | unlock l => cases l <;> first | exact ⟨trivial, fun _ => rfl⟩ | exact absurd h id
  | getFreefp d | putFreefp d f => cases d <;> first | exact ⟨trivial, fun _ => rfl⟩ | exact absurd h id
  | note e => cases e <;> first | exact ⟨trivial, fun _ => rfl⟩ | exact absurd rfl h
  | read d a | write d a b | updateLruLst r | getMm q | setMm q mm | fault f => exact ⟨trivial, fun _ => rfl⟩
  | store r a b | load r a | findLruVictimPage | addLruPage r | readPte r | setSwap r t s | setFpn r f =>
    exact absurd h id

section Handles

variable {p : Pid} {α β : Type} {g : Hand}

theorem handles_aside {c : Code α} {Q : α → Prop} (hc : c.Within Op.aside Q) :
    Handles p (fun g' a => g' = g ∧ Q a) c g := by
  refine hc.obeys (fun g' => g' = g) (fun g' o hg ho => ?_) rfl
  subst hg
  exact Op.aside_next ho

theorem handles_op {o : Op} {f : o.Res → Code β} {R : Hand → β → Prop} (ho : g.may p o)
    (hf : ∀ a, Handles p R (f a) (g.next o a)) : Handles p R (.op o .ret >>= f) g :=
  ⟨ho, hf⟩

theorem handles_bind {c : Code α} {f : α → Code β} {Q : α → Prop} {R : Hand → β → Prop} (hc : c.Within Op.aside Q)
    (hf : ∀ a, Q a → Handles p R (f a) g) : Handles p R (c >>= f) g := by
  refine Obeys.bind (handles_aside hc) (fun g' a h => ?_)
  obtain ⟨rfl, ha⟩ := h
  exact hf a ha

/-! ### The parts that do nothing with the hand -/

theorem aside_op {o : Op} {f : o.Res → Code β} {Q : β → Prop} (ho : o.aside) (hf : ∀ a, (f a).Within Op.aside Q) :
    ((.op o .ret : Code o.Res) >>= f).Within Op.aside Q :=
  ⟨ho, hf⟩

theorem aside_swapCpPage (src : Dev) (srcfpn : Nat) (dst : Dev) (dstfpn : Nat) :
    (swapCpPage src srcfpn dst dstfpn).Within Op.aside (fun _ => True) := by
  unfold swapCpPage
  refine Within.loop (fun j => ?_) _ _
  refine @aside_op _ (.read src _) _ _ trivial (fun data => ?_)
  cases data with
  | none => exact ⟨trivial, fun e => nomatch e⟩
  | some data => exact ⟨trivial, fun _ => trivial⟩

theorem aside_theVictim (vic : Option LruNode) : (theVictim vic).Within Op.aside (fun v => vic = some v) := by
  cases vic with
  | none => exact ⟨trivial, fun e => nomatch e⟩
  | some v => rfl

theorem aside_pgdAt (i : Int) : (pgdAt p i).Within Op.aside (fun r => r.pid = p) := by
  unfold pgdAt
  split
  · rfl
  · exact ⟨trivial, fun e => nomatch e⟩

theorem aside_symrgAt (rgid : Int) : (symrgAt rgid).Within Op.aside (fun _ => True) := by
  unfold symrgAt
  split
  · trivial
  · exact ⟨trivial, fun e => nomatch e⟩

theorem aside_getSymrgByid (mm : Mm) (rgid : Int) : (getSymrgByid mm rgid).Within Op.aside (fun _ => True) := by
  unfold getSymrgByid
  split
  · exact ⟨trivial, fun e => nomatch e⟩
  · split
    · exact ⟨trivial, fun e => nomatch e⟩
    · trivial

theorem aside_accessRg (rgid offset : Int) : (accessRg p rgid offset).Within Op.aside (fun _ => True) := by
  refine aside_op trivial (fun mm => (aside_getSymrgByid _ _).bind (fun q _ => ?_))
  dsimp only
  split
  · trivial
  · split
    · trivial
    · split <;> trivial

/-! ### `pg_getpage` -/

def Hand.online (r : PteRef) (fpn : Option Nat) : Hand := ⟨[], none, some r, fpn, true⟩

def Hand.found (r : PteRef) (fpn : Nat) : Hand := ⟨[], none, some r, some fpn, false⟩

theorem handles_pgReplace {r : PteRef} (hr : r.pid = p) (pte : Pte) :
    Handles p (fun g b => g = if b then Hand.online r none else Hand.empty) (pgReplace r pte)
      ⟨[], none, none, none, true⟩ := by
  refine handles_op trivial (fun vic => handles_op trivial (fun swpfpn => ?_))
  cases swpfpn with
  | none => exact handles_op trivial (fun _ => handles_op trivial (fun _ => rfl))
  | some swpfpn =>
    refine handles_bind (aside_theVictim vic) (fun v hv => handles_bind (aside_swapCpPage _ _ _ _) (fun _ _ => ?_))
    subst hv
    refine handles_bind (aside_swapCpPage _ _ _ _) (fun _ _ => handles_op ⟨rfl, v, rfl, rfl⟩ (fun _ => ?_))
    refine handles_op ⟨List.mem_singleton_self v.fpn, hr⟩ (fun _ => handles_op trivial (fun _ => ?_))
    refine handles_op trivial (fun _ => ?_)
    simp [Handles, Obeys, Hand.next, Hand.put, Hand.online]

theorem handles_pgBringIn {r : PteRef} (hr : r.pid = p) (pte : Pte) :
    Handles p (fun g b => g = if b then Hand.online r none else Hand.empty) (pgBringIn r pte)
      ⟨[], none, none, none, true⟩ := by
  refine handles_op trivial (fun fpn => ?_)
  cases fpn with
  | none => exact handles_pgReplace hr pte
  | some fpn =>
    refine handles_bind (aside_swapCpPage _ _ _ _) (fun _ _ => handles_op ⟨List.mem_singleton_self fpn, hr⟩ (fun _ => ?_))
    refine handles_op trivial (fun _ => ?_)
    simp [Handles, Obeys, Hand.next, Hand.put, Hand.online]

/-- **`pg_getpage`** ends with the page in hand, and the frame it read off the entry. -/
theorem handles_pgGetpage {r : PteRef} (hr : r.pid = p) :
    Handles p (fun g o => match o with
      | some fpn => g = Hand.found r fpn
      | none => g = Hand.empty) (pgGetpage r) Hand.empty := by
  have hend : ∀ (online : Bool) (g : Hand),
      (∃ fpn, g = if online then Hand.online r fpn else Hand.empty) →
      Handles p (fun g o => match o with
        | some fpn => g = Hand.found r fpn
        | none => g = Hand.empty) (if online then do
          addLruPage r
          note (.reference r)
          let pte ← readPte r
          unlock .mmVm
          pure (some pte.fpn)
        else pure none) g := by
    rintro online g ⟨fpn, rfl⟩
    cases online with
    | false => rfl
    | true =>
      refine handles_op ⟨rfl, rfl⟩ (fun _ => handles_op trivial (fun _ => handles_op hr (fun pte => ?_)))
      refine handles_op trivial (fun _ => ?_)
      simp [Handles, Obeys, Hand.next, Hand.put, Hand.online, Hand.found]
  refine handles_op trivial (fun _ => handles_op hr (fun pte => ?_))
  dsimp only
  split
  · rename_i hpres
    exact hend true _ ⟨some pte.fpn, by simp [Hand.next, Hand.put, Hand.holding, Hand.online, hpres]⟩
  · rename_i hpres
    have hg : (Hand.next (Hand.next Hand.empty (.lock .mmVm) ()) (.readPte r) pte) = ⟨[], none, none, none, true⟩ := by
      simp [Hand.next, Hand.put, Hand.holding, hpres]
    rw [hg]
    exact Obeys.bind (handles_pgBringIn hr pte) (fun g online hg => hend online g ⟨none, hg⟩)

theorem phyaddr_div (vmaid : Int) (fpn : Nat) {off : Nat} (hoff : off < 256) :
    phyaddr vmaid fpn off / pagingPagesz = fpn := by
  have hin := inPage_lt vmaid hoff
  rw [phyaddr_eq, pagingPagesz]
  omega

theorem handles_pgSetval (addr : Int) (v : Byte) (vmaid : Int) :
    Handles p (fun g _ => g = Hand.empty) (pgSetval p addr v vmaid) Hand.empty := by
  refine Obeys.bind (handles_pgGetpage rfl) (fun g o hg => ?_)
  cases o with
  | none => exact hg
  | some fpn =>
    cases hg
    refine handles_op ⟨rfl, ?_, rfl⟩ (fun _ => rfl)
    rw [phyaddr_div vmaid fpn (pagingOffst_lt addr)]
    rfl

theorem handles_pgGetval (addr vmaid : Int) :
    Handles p (fun g _ => g = Hand.empty) (pgGetval p addr vmaid) Hand.empty := by
  refine Obeys.bind (handles_pgGetpage rfl) (fun g o hg => ?_)
  cases o with
  | none => exact hg
  | some fpn =>
    cases hg
    exact ⟨trivial, fun _ => rfl⟩

/-! ### `vm_map_ram` -/

theorem handles_allocPagesRange : ∀ (n : Nat) (frmLst : List Nat),
    Handles p (fun g o => ∀ l, o = some l → g = Hand.holding l) (allocPagesRange n frmLst) (Hand.holding frmLst)
  | 0, frmLst => by
    intro l hl
    cases hl
    rfl
  | n + 1, frmLst => by
    refine handles_op trivial (fun fpn => ?_)
    cases fpn with
    | some fpn => exact handles_allocPagesRange n (fpn :: frmLst)
    | none =>
      refine handles_op trivial (fun vic => handles_op trivial (fun swpfpn => ?_))
      cases swpfpn with
      | none => exact ⟨trivial, fun e => nomatch e⟩
      | some swpfpn =>
        refine handles_bind (aside_theVictim vic) (fun v hv => handles_bind (aside_swapCpPage _ _ _ _) (fun _ _ => ?_))
        subst hv
        exact handles_op ⟨rfl, v, rfl, rfl⟩ (fun _ => handles_allocPagesRange n (v.fpn :: frmLst))

theorem handles_vmapLoop (vmaid pgn : Int) : ∀ (n : Nat) (frames : List Nat),
    Handles p (fun _ _ => True) (vmapLoop p vmaid pgn n frames) (Hand.holding frames)
  | 0, _ => trivial
  | _ + 1, [] => trivial
  | n + 1, fpn :: frames => by
    refine handles_bind (aside_pgdAt _) (fun r hr => handles_op ⟨List.mem_cons_self, hr⟩ (fun _ => ?_))
    refine handles_op ⟨rfl, rfl⟩ (fun _ => handles_op trivial (fun _ => handles_op trivial (fun _ => ?_)))
    have := handles_vmapLoop vmaid pgn n frames
    simpa [Hand.next, Hand.put, Hand.holding] using this

theorem handles_done {c : Code α} (hc : c.Within Op.aside (fun _ => True)) : Handles p (fun _ _ => True) c g :=
  (handles_aside hc).mono (fun _ _ _ => trivial)

theorem handles_vmMapRam (vmaid mapstart k : Int) :
    Handles p (fun _ _ => True) (vmMapRam p vmaid mapstart k) Hand.empty := by
  refine handles_op trivial (fun _ => handles_op trivial (fun _ => ?_))
  refine Obeys.bind (handles_allocPagesRange _ []) (fun g o hg => ?_)
  cases o with
  | none => exact handles_done (aside_op trivial (fun _ => trivial))
  | some frmLst =>
    cases hg frmLst rfl
    refine handles_op trivial (fun mm => Obeys.bind (handles_vmapLoop _ _ _ _) (fun g _ _ => ?_))
    exact handles_done (aside_op trivial (fun _ => trivial))

/-! ### `__alloc` -/

theorem handles_reuseSwapIn {r : PteRef} (hr : r.pid = p) (pte : Pte) :
    Handles p (fun g _ => g = Hand.empty) (reuseSwapIn r pte) Hand.empty := by
  refine handles_op trivial (fun vic => handles_op trivial (fun swpfpn => ?_))
  cases swpfpn with
  | none => exact handles_op trivial (fun _ => rfl)
  | some swpfpn =>
    refine handles_bind (aside_theVictim vic) (fun v hv => handles_bind (aside_swapCpPage _ _ _ _) (fun _ _ => ?_))
    subst hv
    refine handles_op ⟨rfl, v, rfl, rfl⟩ (fun _ => handles_bind (aside_swapCpPage _ _ _ _) (fun _ _ => ?_))
    refine handles_op ⟨List.mem_singleton_self v.fpn, hr⟩ (fun _ => handles_op ⟨rfl, rfl⟩ (fun _ => ?_))
    refine handles_op trivial (fun _ => handles_op trivial (fun _ => handles_op trivial (fun _ => ?_)))
    simp [Handles, Obeys, Hand.next, Hand.put, Hand.holding]

theorem handles_reusePage {r : PteRef} (hr : r.pid = p) :
    Handles p (fun g _ => g = Hand.empty) (reusePage r) Hand.empty := by
  refine handles_op hr (fun pte => ?_)
  have hframe : Handles p (fun g _ => g = Hand.empty)
      (if pte.present then pure (some pte.fpn) else reuseSwapIn r pte) Hand.empty := by
    split
    · rfl
    · exact handles_reuseSwapIn hr pte
  refine Obeys.bind hframe (fun g o hg => ?_)
  subst hg
  cases o with
  | none => rfl
  | some fpn => exact handles_op trivial (fun _ => handles_op trivial (fun _ => handles_op trivial (fun _ => rfl)))

theorem handles_reuseLoop (vmaid last : Int) : ∀ (fuel : Nat) (i : Int),
    Handles p (fun _ _ => True) (reuseLoop p vmaid last fuel i) Hand.empty
  | 0, _ => ⟨trivial, fun e => nomatch e⟩
  | fuel + 1, i => by
    unfold reuseLoop
    split
    · trivial
    · refine handles_bind (aside_pgdAt i) (fun r hr => Obeys.bind (handles_reusePage hr) (fun g b hg => ?_))
      subst hg
      cases b with
      | false => trivial
      | true => exact handles_reuseLoop vmaid last fuel _

theorem handles_incVmaLimit (vmaid size : Int) : Handles p (fun _ _ => True) (incVmaLimit p vmaid size) Hand.empty := by
  refine handles_op trivial (fun mm => ?_)
  dsimp only
  split
  · trivial
  · refine handles_op trivial (fun _ => Obeys.bind (handles_vmMapRam _ _ _) (fun g ret _ => ?_))
    split
    · exact handles_done (aside_op trivial (fun _ => aside_op trivial (fun _ => trivial)))
    · trivial

theorem handles_alloc (fuel : Nat) (vmaid rgid size : Int) :
    Handles p (fun _ _ => True) (alloc fuel p vmaid rgid size) Hand.empty := by
  refine handles_op trivial (fun mm => ?_)
  split
  · exact ⟨trivial, fun e => nomatch e⟩
  · exact handles_bind (aside_symrgAt rgid) (fun i _ => handles_op trivial (fun _ => handles_reuseLoop _ _ _ _))
  · refine handles_op trivial (fun _ => handles_op trivial (fun mm => ?_))
    split
    · trivial
    · have hend : ∀ ret : Int, (if ret < 0 then pure (-1) else do
          let i ← symrgAt rgid
          let mm ← getMm p
          setMm p (commitRegion mm vmaid i size)
          pure (0 : Int) : Code Int).Within Op.aside (fun _ => True) := by
        intro ret
        split
        · trivial
        · exact (aside_symrgAt rgid).bind (fun i _ => aside_op trivial (fun _ => aside_op trivial (fun _ => trivial)))
      dsimp only
      split
      · exact Obeys.bind (handles_incVmaLimit _ _) (fun g ret _ => handles_done (hend ret))
      · exact handles_done (hend 0)

/-! ### The calls -/

theorem handles_free (rgid : Int) : Handles p (fun _ _ => True) (free p rgid) Hand.empty := by
  refine handles_op trivial (fun mm => ?_)
  split
  · trivial
  · refine handles_bind (aside_getSymrgByid _ _) (fun q _ => ?_)
    dsimp only
    split
    · trivial
    · refine Obeys.bind (Obeys.loop (fun g => g = Hand.empty) (fun k g hg => ?_) _ _ _ rfl) (fun g _ hg => ?_)
      · subst hg
        exact Obeys.bind (handles_pgSetval _ _ _) (fun g _ hg => hg)
      · refine handles_done (aside_op trivial (fun mm => ?_))
        split
        · exact ⟨trivial, fun e => nomatch e⟩
        · exact aside_op trivial (fun _ => trivial)

theorem handles_read (rgid offset : Int) : Handles p (fun _ _ => True) (read p rgid offset) Hand.empty := by
  refine handles_bind (aside_accessRg _ _) (fun o _ => ?_)
  cases o with
  | none => trivial
  | some rg => exact Obeys.bind (handles_pgGetval _ _) (fun g _ _ => handles_done (aside_op trivial (fun _ => trivial)))

theorem handles_write (rgid offset : Int) (v : Byte) :
    Handles p (fun _ _ => True) (write p rgid offset v) Hand.empty := by
  refine handles_bind (aside_accessRg _ _) (fun o _ => ?_)
  cases o with
  | none => trivial
  | some rg => exact Obeys.bind (handles_pgSetval _ _ _) (fun g _ _ => handles_done (aside_op trivial (fun _ => trivial)))

/-- **A call of process `p`** does what a CPU of process `p` may. -/
theorem handles_call (fuel : Nat) (c : Call) : Handles p (fun _ _ => True) (c.code fuel p) Hand.empty := by
  cases c with
  | pgalloc size regIndex | pgmalloc size regIndex => exact Obeys.bind (handles_alloc _ _ _ _) (fun _ _ _ => trivial)
  | pgfreeData regIndex => exact Obeys.bind (handles_free _) (fun _ _ _ => trivial)
  | pgread source offset => exact handles_read _ _
  | pgwrite data destination offset => exact Obeys.bind (handles_write _ _ _) (fun _ _ _ => trivial)

end Handles

end OsSim
