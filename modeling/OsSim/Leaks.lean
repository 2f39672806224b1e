import OsSim.Confined
import OsSim.Lib.Pool
import Mathlib.Data.List.Perm.Subperm
/-!
# Leaks — RAM frames over the life of the system

Processes are loaded, call the memory functions and finish.  A finished process's `pcb_t` is freed and nothing else
is: `free_pcb_memph` is never called.  What does not lose frames: every call, failing or not, as long as it maps pages
that were not present; a process that finishes with no page in RAM.
-/
namespace OsSim

open Atomic Code

/-! ## Every frame is free or under one page -/

def Machine.frameOf (m : Machine) (r : PteRef) : Option Nat := if (m.pgd r).present then some (m.pgd r).fpn else none

theorem Machine.frameOf_some {m : Machine} {r : PteRef} {f : Nat} :
    m.frameOf r = some f ↔ (m.pgd r).present = true ∧ (m.pgd r).fpn = f := by
  unfold Machine.frameOf
  split <;> simp_all

theorem Machine.frameOf_none {m : Machine} {r : PteRef} : m.frameOf r = none ↔ (m.pgd r).present = false := by
  unfold Machine.frameOf
  split <;> simp_all

theorem Machine.frameOf_congr {m m' : Machine} {r : PteRef} (h : m'.pgd r = m.pgd r) : m'.frameOf r = m.frameOf r := by
  rw [Machine.frameOf, Machine.frameOf, h]

/-- **Every frame not held is free or under one page**, and the nodes of the LRU list, one a frame, are of pages in
RAM. -/
structure Owned (n : Nat) (s : List Nat × Machine) : Prop where
  pool : Pool.InOrder n (s.2.mram.freeFpList ++ s.1) s.2.frameOf
  node : ∀ v ∈ s.2.lru, s.2.frameOf v.pte = some v.fpn
  nodup : (s.2.lru.map (·.fpn)).Nodup

def Event.mapsFresh : Event → Prop
  | .mapped _ _ old => old.present = false
  | _ => True

instance : DecidablePred Event.mapsFresh
  | .mapped _ _ old => inferInstanceAs (Decidable (old.present = false))
  | .reference _ | .filled _ _ | .replaced _ _ | .reused _ _ _ | .mapRam _ | .outOfSwap | .emptyVictim =>
    instDecidableTrue

namespace Owned

variable {n : Nat} {held : List Nat} {m m' : Machine}

theorem congr (h : Owned n (held, m)) (hfree : m'.mram.freeFpList = m.mram.freeFpList) (hlru : m'.lru = m.lru)
    (hpgd : m'.pgd = m.pgd) : Owned n (held, m') := by
  have hframe : m'.frameOf = m.frameOf := funext (fun r => Machine.frameOf_congr (congrFun hpgd r))
  constructor
  · simpa only [hfree, hframe] using h.pool
  · simpa only [hlru, hframe] using h.node
  · simpa only [hlru] using h.nodup

theorem relist (h : Owned n (held, m)) {l : List LruNode} (hl : l.Subperm m.lru) : Owned n (held, m.setLru l) where
  pool := h.pool
  node v hv := h.node v (hl.subset hv)
  nodup := by
    obtain ⟨l', hperm, hsub⟩ := hl
    exact ((hperm.map _).nodup_iff).1 (h.nodup.sublist (hsub.map _))

theorem take (h : Owned n (held, m)) {f : Nat} {rest : List Nat} (hfree : m.mram.freeFpList = f :: rest) :
    Owned n (f :: held, m.setFree .mram rest) where
  pool := by
    have hpool := h.pool
    simp only [hfree] at hpool
    exact hpool.perm List.perm_middle.symm
  node := h.node
  nodup := h.nodup

theorem evicted (h : Owned n (held, m)) {v : LruNode} {lru : List LruNode} (hlru : m.lru = v :: lru) (s : Nat)
    (rest : List Nat) : Owned n (v.fpn :: held, m.evicted v lru s rest) := by
  have hl : (m.evicted v lru s rest).lru = lru := by simp [Machine.evicted]
  have hpgd : ∀ r, r ≠ v.pte → (m.evicted v lru s rest).frameOf r = m.frameOf r := by
    intro r hr
    exact Machine.frameOf_congr (by simp [Machine.evicted, hr])
  have hv := h.node v (by rw [hlru]; exact List.mem_cons_self)
  have hnd := h.nodup
  simp only [hlru, List.map_cons, List.nodup_cons] at hnd
  constructor
  · have hgone : (m.evicted v lru s rest).frameOf v.pte = none := Machine.frameOf_none.2 (by simp [Machine.evicted])
    exact (h.pool.release v.pte hv hgone (fun r hr => hpgd r hr)).perm List.perm_middle.symm
  · intro w hw
    simp only [hl] at hw
    have hw' := h.node w (by rw [hlru]; exact List.mem_cons_of_mem _ hw)
    rwa [hpgd]
    intro e
    rw [e] at hw'
    exact hnd.1 (List.mem_map.2 ⟨w, hw, Option.some.inj (hw'.symm.trans hv)⟩)
  · simpa only [hl] using hnd.2

theorem placed (h : Owned n (f :: held, m)) (hn : n ≤ 8192) {r : PteRef} (hr : (m.pgd r).present = false) (e : Event) :
    Owned n (held, m.placed r f e) := by
  have hlt : f < n := h.pool.free_lt f (by simp)
  have hnot : f ∉ m.lru.map (·.fpn) := by
    intro hmem
    obtain ⟨v, hv, hf⟩ := List.mem_map.1 hmem
    exact h.pool.not_free (h.node v hv) (by simp [hf])
  have hl := Machine.placed_lru r e hnot (by omega)
  have hpgd := Machine.placed_pgd m r f e
  have hself : (m.placed r f e).frameOf r = some f := by
    rw [Machine.frameOf_some, hpgd, Function.update_self, fpn_pteSetFpn]
    exact ⟨present_pteSetFpn _ _, Nat.mod_eq_of_lt (by omega)⟩
  have hother : ∀ q, q ≠ r → (m.placed r f e).frameOf q = m.frameOf q := by
    intro q hq
    exact Machine.frameOf_congr (by rw [hpgd, Function.update_of_ne hq])
  constructor
  · exact (h.pool.perm List.perm_middle).take r (Machine.frameOf_none.2 hr) hself hother
  · intro v hv
    simp only [hl, List.mem_append, List.mem_singleton] at hv
    rcases hv with hv | rfl
    · have hv' := h.node v hv
      rw [hother v.pte, hv']
      intro he
      rw [he, Machine.frameOf_none.2 hr] at hv'
      cases hv'
    · exact hself
  · simpa [hl] using List.Nodup.concat hnot h.nodup

theorem touched (h : Owned n (held, m)) {r : PteRef} (hr : (m.pgd r).present = true) :
    Owned n (held, m.referenced r) := by
  by_cases hmem : (m.pgd r).fpn ∈ m.lru.map (·.fpn)
  · have hl : (m.addLru r).lru = Lru.moveToTail (m.pgd r).fpn m.lru := Lru.addLruPage_of_mem hmem
    refine (@relist _ _ _ h (m.addLru r).lru ?_).congr rfl rfl rfl
    rw [hl]
    exact (Lru.moveToTail_perm _ _).subperm
  · have hl : (m.referenced r).lru = m.lru ++ [⟨r, (m.pgd r).fpn, r.pgn⟩] := Lru.addLruPage_of_not_mem hmem
    constructor
    · exact h.pool
    · intro v hv
      simp only [hl, List.mem_append, List.mem_singleton] at hv
      rcases hv with hv | rfl
      · exact h.node v hv
      · exact Machine.frameOf_some.2 ⟨hr, rfl⟩
    · simpa [hl] using List.Nodup.concat hmem h.nodup

/-- **Every move keeps the frames owned**, if it maps no page that is in RAM. -/
theorem move (h : Owned n (held, m)) (hn : n ≤ 8192) {held' : List Nat} (hmove : Move held m held' m')
    (hfresh : ∀ e ∈ m'.trace, e.mapsFresh) : Owned n (held', m') := by
  cases hmove with
  | take hfree => exact h.take hfree
  | evict hfree hlru hs => exact h.evicted hlru _ _
  | map r vmaid =>
    exact h.placed hn (hfresh (.mapped r vmaid (m.pgd r)) (by simp [Machine.placed, Machine.referenced])) _
  | fill r hfree hpte =>
    refine Owned.placed ((h.take hfree).congr (Machine.copyPage_freeFpList _ _ _ _ _ .mram) (by simp) (by simp)) hn ?_ _
    simpa using hpte
  | @replace _ _ v lru s rest r hlru hs hpte =>
    refine ((h.evicted hlru s rest).congr ?_ ?_ ?_).placed hn ?_ _
    · exact Machine.copyPage_freeFpList _ _ _ _ _ .mram
    · simp
    · simp
    · -- the victim's page is not the one brought in, and is not in RAM any more
      by_cases hr : r = v.pte
      · simp [Machine.evicted, hr]
      · simpa [Machine.evicted, hr] using hpte
  | touch r hpte => exact h.touched hpte
  | revisit r old hpte hf hlru hwho =>
    exact (h.relist (Lru.moveToTail_perm old.fpn m.lru).subperm).congr rfl rfl rfl
  | retouch r hlru hwho => exact h.relist (Lru.moveToTail_perm _ _).subperm
  | ask k => exact h.congr rfl rfl rfl
  | @lose _ _ v lru hlru hs =>
    have hsub : lru.Subperm m.lru := by
      rw [hlru]
      exact (List.sublist_cons_self v lru).subperm
    exact (h.relist hsub).congr rfl rfl rfl
  | loseNone hlru hs => exact h.congr rfl rfl rfl

end Owned

/-! ## A call -/

theorem Owned.call {n : Nat} {m m' : Machine} {p : Pid} {c : Call} {ret : Ret} (h : Owned n ([], m)) (hn : n ≤ 8192)
    (hcall : Completes m p c ret m') (hfresh : ∀ e ∈ m'.trace, e.mapsFresh) : Owned n ([], m') := by
  obtain ⟨fuel, hrun⟩ := hcall
  refine acts_keep Event.mapsFresh (Owned n) ?_ (call_acts hrun) hfresh h
  intro a b hact hfresh ha
  cases hact with
  | move hmove => exact ha.move hn hmove hfresh
  | store hstored =>
    obtain ⟨-, mp, hwrite, rfl⟩ := hstored
    exact ha.congr (memphyWrite_freeFpList hwrite) (by simp) (by simp)
  | setMm m p mm => exact ha.congr rfl rfl rfl

/-! ## The life of the system -/

structure Life where
  machine : Machine
  live : List Pid
  availPid : Pid

inductive LifeAct where
  /-- `load` and `init_mm`, with what the memory for the page table and the `mm_struct` holds. -/
  | load (table : Nat → Pte) (junk : Mm) (vmemsz : Int)
  | call (p : Pid) (c : Call)
  | finish (p : Pid)

def Machine.loaded (m : Machine) (p : Pid) (table : Nat → Pte) (mm : Mm) : Machine :=
  { m with pgd := fun r => if r.pid = p then table r.pgn else m.pgd r, mm := Function.update m.mm p mm }

/-- A process is loaded, calls, or finishes; of a process that finishes, the `pcb_t` is freed. -/
inductive LifeStep : Life → LifeAct → Life → Prop where
  | load (s : Life) (table : Nat → Pte) (junk : Mm) (vmemsz : Int) :
      LifeStep s (.load table junk vmemsz)
        ⟨s.machine.loaded s.availPid table (initMm junk vmemsz), s.availPid :: s.live, s.availPid + 1⟩
  | call {s p c ret m'} (hlive : p ∈ s.live) (h : Completes s.machine p c ret m') :
      LifeStep s (.call p c) { s with machine := m' }
  | finish {s p} (hlive : p ∈ s.live) : LifeStep s (.finish p) { s with live := s.live.filter (fun q => q ≠ p) }

abbrev LifeRun (ok : Life → LifeAct → Prop) : Life → Life → Prop :=
  Relation.ReflTransGen (fun s s' => ∃ a, ok s a ∧ LifeStep s a s')

/-- The page's entry is present, holds the frame, and is of a process loaded and not finished. -/
def Life.Holds (s : Life) (r : PteRef) (f : Nat) : Prop := r.pid ∈ s.live ∧ s.machine.frameOf r = some f

/-- **No frame is lost**: each is free once, or held by one page of a live process. -/
def Life.NoLeak (n : Nat) (s : Life) : Prop :=
  ∀ f < n, (s.machine.mram.freeFpList.count f = 1 ∧ ∀ r, ¬s.Holds r f) ∨
    (f ∉ s.machine.mram.freeFpList ∧ ∃! r, s.Holds r f)

/-- The steps that lose no frame: a page table on memory without a present bit, any call, and a process that finishes
with no page in RAM. -/
def Tidy (s : Life) : LifeAct → Prop
  | .load table _ _ => ∀ i, (table i).present = false
  | .call _ _ => True
  | .finish p => ∀ i, (s.machine.pgd ⟨p, i⟩).present = false

structure Life.Kept (n : Nat) (s : Life) : Prop where
  owned : Owned n ([], s.machine)
  live : ∀ r, (s.machine.pgd r).present = true → r.pid ∈ s.live
  loaded : ∀ p ∈ s.live, p < s.availPid

theorem Life.Kept.noLeak {n : Nat} {s : Life} (h : s.Kept n) : s.NoLeak n := by
  intro f hf
  have hpool := h.owned.pool
  simp only [List.append_nil] at hpool
  rcases hpool.one_place hf with ⟨hone, hno⟩ | ⟨hnot, r, hr, huniq⟩
  · exact Or.inl ⟨hone, fun r hr => hno r hr.2⟩
  · exact Or.inr ⟨hnot, r, ⟨h.live r (Machine.frameOf_some.1 hr).1, hr⟩, fun q hq => huniq q hq.2⟩

theorem lifeStep_trace {s s' : Life} {a : LifeAct} (h : LifeStep s a s') : s.machine.trace <+: s'.machine.trace := by
  cases h with
  | load table junk vmemsz => exact List.prefix_refl _
  | @call p c ret m' hlive hcall =>
    obtain ⟨fuel, hrun⟩ := hcall
    exact acts_trace (call_acts hrun)
  | finish hlive => exact List.prefix_refl _

theorem Life.Kept.step {n : Nat} {s s' : Life} {a : LifeAct} (h : s.Kept n) (hn : n ≤ 8192) (htidy : Tidy s a)
    (hstep : LifeStep s a s') (hfresh : ∀ e ∈ s'.machine.trace, e.mapsFresh) : s'.Kept n := by
  cases hstep with
  | load table junk vmemsz =>
    -- the new process has nothing in RAM, before its table is there and after
    have hnew : ∀ r : PteRef, r.pid = s.availPid → s.machine.frameOf r = none := by
      intro r hr
      rw [Machine.frameOf_none]
      by_contra hpres
      have hlt := h.loaded r.pid (h.live r (by simpa using hpres))
      rw [hr] at hlt
      exact Nat.lt_irrefl _ hlt
    have hframe : (s.machine.loaded s.availPid table (initMm junk vmemsz)).frameOf = s.machine.frameOf := by
      funext r
      by_cases hr : r.pid = s.availPid
      · rw [hnew r hr, Machine.frameOf_none]
        simpa [Machine.loaded, hr] using htidy r.pgn
      · exact Machine.frameOf_congr (by simp [Machine.loaded, hr])
    constructor
    · constructor
      · change Pool.InOrder n (s.machine.mram.freeFpList ++ []) (s.machine.loaded _ _ _).frameOf
        rw [hframe]
        exact h.owned.pool
      · intro v hv
        rw [hframe]
        exact h.owned.node v hv
      · exact h.owned.nodup
    · intro r hr
      have hr' : s.machine.frameOf r ≠ none := by
        rw [← hframe]
        intro hnone
        rw [Machine.frameOf_none.1 hnone] at hr
        cases hr
      refine List.mem_cons_of_mem _ (h.live r ?_)
      by_contra hpres
      exact hr' (Machine.frameOf_none.2 (by simpa using hpres))
    · intro p hp
      rcases List.mem_cons.1 hp with rfl | hp
      · exact Nat.lt_succ_self _
      · exact Nat.lt_succ_of_lt (h.loaded p hp)
  | @call p c ret m' hlive hcall =>
    refine ⟨h.owned.call hn hcall hfresh, fun r hr => ?_, h.loaded⟩
    by_cases hp : r.pid = p
    · rw [hp]
      exact hlive
    · exact h.live r (completes_present hcall hp hr)
  | @finish p hlive =>
    refine ⟨h.owned, fun r hr => List.mem_filter.2 ⟨h.live r hr, ?_⟩, fun q hq => h.loaded q (List.mem_filter.1 hq).1⟩
    have hne : r.pid ≠ p := by
      rintro rfl
      rw [htidy r.pgn] at hr
      cases hr
    simpa using hne

/-- **No RAM frame leaks in a tidy life**, whose mappings are all of pages that were not in RAM; when no process is
left, every frame is free. -/
theorem no_leak {n : Nat} {m₀ : Machine} {availPid : Pid} {s : Life} (hn : n ≤ 8192) (hboot : Booted m₀)
    (hfree : m₀.mram.freeFpList.Perm (List.range n)) (hrun : LifeRun Tidy ⟨m₀, [], availPid⟩ s)
    (hfresh : ∀ e ∈ s.machine.trace, e.mapsFresh) :
    s.NoLeak n ∧ (s.live = [] → ∀ f < n, s.machine.mram.freeFpList.count f = 1) := by
  have hkept : s.Kept n := by
    induction hrun with
    | refl =>
      have hnone : ∀ r, m₀.frameOf r = none := fun r => Machine.frameOf_none.2 (by rw [hboot.pgd r]; rfl)
      refine ⟨⟨?_, ?_, ?_⟩, ?_, ?_⟩
      · simpa using Pool.InOrder.initial hfree hnone
      · simp [hboot.lru]
      · simp [hboot.lru]
      · intro r hr
        rw [hboot.pgd r] at hr
        cases hr
      · simp
    | tail _ hd ih =>
      obtain ⟨a, htidy, hstep⟩ := hd
      exact (ih (fun e he => hfresh e ((lifeStep_trace hstep).subset he))).step hn htidy hstep hfresh
  refine ⟨hkept.noLeak, fun hnil f hf => ?_⟩
  rcases hkept.noLeak f hf with ⟨hone, -⟩ | ⟨-, r, ⟨hlive, -⟩, -⟩
  · exact hone
  · rw [hnil] at hlive
    cases hlive

/-- **A process that finishes takes its frames along**: one page allocated, and frame 0 is nowhere. -/
theorem no_leak_fails : ∃ s, LifeRun (fun _ _ => True) ⟨boot 512 16384 4096, [], 1⟩ s ∧ s.live = [] ∧ ¬ s.NoLeak 2 := by
  let m₁ := (boot 512 16384 4096).loaded 1 (fun _ => 0) (initMm zeroMm 4096)
  have hsome : (run ((Call.pgalloc 256 0).code 10 1) m₁).toOption.any (fun q => q.1.mram.freeFpList = [1]) = true := by
    decide +kernel
  obtain ⟨⟨m, ret⟩, hm, hq⟩ := (Option.any_eq_true _ _).1 hsome
  simp only [decide_eq_true_iff] at hq
  have hcall : Completes m₁ 1 (.pgalloc 256 0) ret m := ⟨10, run_of_toOption hm⟩
  refine ⟨⟨m, [], 2⟩, ?_, rfl, fun hno => ?_⟩
  · refine .head ⟨_, trivial, .load _ (fun _ => 0) zeroMm 4096⟩ (.head ⟨_, trivial, .call (by simp) hcall⟩ ?_)
    exact .single ⟨.finish 1, trivial, .finish (by simp)⟩
  · rcases hno 0 (by decide) with ⟨hone, -⟩ | ⟨-, r, ⟨hlive, -⟩, -⟩
    · rw [hq] at hone
      cases hone
    · cases hlive

/-- Two processes loaded, the first allocates, the second finishes. -/
theorem no_leak_oneLeft : ∃ s, LifeRun Tidy ⟨boot 512 16384 4096, [], 1⟩ s ∧ s.live = [1] ∧ s.NoLeak 2 := by
  let m₁ := (boot 512 16384 4096).loaded 1 (fun _ => 0) (initMm zeroMm 4096)
  let m₂ := m₁.loaded 2 (fun _ => 0) (initMm zeroMm 4096)
  have hsome : (run ((Call.pgalloc 256 0).code 10 1) m₂).toOption.any (fun q => ∀ e ∈ q.1.trace, e.mapsFresh) = true := by
    decide +kernel
  obtain ⟨⟨m, ret⟩, hm, hq⟩ := (Option.any_eq_true _ _).1 hsome
  simp only [decide_eq_true_iff] at hq
  have hcall : Completes m₂ 1 (.pgalloc 256 0) ret m := ⟨10, run_of_toOption hm⟩
  -- the first process's call has brought in none of the second's pages
  have hout : ∀ i, (m.pgd ⟨2, i⟩).present = false := by
    intro i
    by_contra hpres
    have hpres' := @completes_present _ _ _ _ _ hcall ⟨2, i⟩ (show (2 : Nat) ≠ 1 by decide) (by simpa using hpres)
    rw [show m₂.pgd ⟨2, i⟩ = 0#32 from rfl, present_zero] at hpres'
    cases hpres'
  have hclear : ∀ s : Life, Tidy s (.load (fun _ => 0) zeroMm 4096) := fun _ _ => present_zero
  have hload₁ : LifeStep ⟨boot 512 16384 4096, [], 1⟩ (.load (fun _ => 0) zeroMm 4096) ⟨m₁, [1], 2⟩ := .load _ _ _ _
  have hload₂ : LifeStep ⟨m₁, [1], 2⟩ (.load (fun _ => 0) zeroMm 4096) ⟨m₂, [2, 1], 3⟩ := .load _ _ _ _
  have hstep : LifeStep ⟨m₂, [2, 1], 3⟩ (.call 1 (.pgalloc 256 0)) ⟨m, [2, 1], 3⟩ := .call (by simp) hcall
  have hfinish : LifeStep ⟨m, [2, 1], 3⟩ (.finish 2) ⟨m, [1], 3⟩ := .finish (by simp)
  have hrun : LifeRun Tidy ⟨boot 512 16384 4096, [], 1⟩ ⟨m, [1], 3⟩ :=
    .head ⟨_, hclear _, hload₁⟩ (.head ⟨_, hclear _, hload₂⟩
      (.head ⟨.call 1 (.pgalloc 256 0), trivial, hstep⟩ (.single ⟨.finish 2, hout, hfinish⟩)))
  exact ⟨_, hrun, rfl, (no_leak (by decide) (booted_boot 512 16384 4096)
    (by rw [show (boot 512 16384 4096).mram.freeFpList = List.range 2 from rfl]) hrun hq).1⟩

end OsSim
