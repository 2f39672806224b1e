import OsSim.Access
import OsSim.Lib.Component
/-!
# Requests — a process's virtual layout follows from its own requests

Frames, swap space and the LRU list are shared, but while there is enough of them no call tells from its `mm_struct`
what other processes do.  `Mm.Call` says what each call makes of the caller's `mm_struct` alone; every run, seen
from one process, is a run of these.
-/
namespace OsSim

open Atomic Code Component

/-! ## What a call makes of the caller's `mm_struct` -/

namespace Mm

def allocated (mm : Mm) (vmaid rgid size : Int) (l : List VmRg) : Option VmRg → Int × Mm
  | some rg => (0, (mm.setFreerg vmaid l).setSymrg rgid.toNat rg)
  | none =>
    if outOfVirtual mm vmaid size ∨ pastVmEnd mm vmaid size ∧ overlapRefused mm vmaid size then (-1, mm.setFreerg vmaid l)
    else if pastVmEnd mm vmaid size then
      (0, commitRegion (grownMm (mm.setFreerg vmaid l) vmaid size) vmaid rgid.toNat size)
    else (0, commitRegion (mm.setFreerg vmaid l) vmaid rgid.toNat size)

def freed (mm : Mm) (rgid : Int) : Int × Mm :=
  if (0 ≤ rgid ∧ rgid < 30) ∧ (mm.symrgtbl rgid.toNat).rgStart ≠ (mm.symrgtbl rgid.toNat).rgEnd then
    (0, freedMm mm rgid.toNat)
  else (-1, mm)

def accessed (mm : Mm) (rgid offset : Int) : Int × Mm := if Accessible mm rgid offset then (0, mm) else (-1, mm)

def Answers (mm : Mm) : Call → Int × Mm → Prop
  | .pgalloc size regIndex, q => ∃ fuel l o, getFreeVmrgArea fuel 0 size.toInt (mm.vma 0).vmFreergList = some (l, o) ∧
      q = mm.allocated 0 regIndex.toInt size.toInt l o
  | .pgmalloc size regIndex, q => ∃ fuel l o, getFreeVmrgArea fuel 1 size.toInt (mm.vma 1).vmFreergList = some (l, o) ∧
      q = mm.allocated 1 regIndex.toInt size.toInt l o
  | .pgfreeData regIndex, q => q = mm.freed regIndex.toInt
  | .pgread source offset, q => q = mm.accessed source.toInt offset.toInt
  | .pgwrite _ destination offset, q => q = mm.accessed destination.toInt offset.toInt

theorem Answers.unique {mm : Mm} {c : Call} {q q' : Int × Mm} (h : mm.Answers c q) (h' : mm.Answers c q') : q = q' := by
  cases c with
  | pgalloc size regIndex | pgmalloc size regIndex =>
    obtain ⟨fuel, l, o, hget, rfl⟩ := h
    obtain ⟨fuel', l', o', hget', rfl⟩ := h'
    cases getFreeVmrgArea_unique hget hget'
    rfl
  | pgfreeData regIndex | pgread source offset | pgwrite data destination offset => exact h.trans h'.symm

end Mm

/-! ## A call of the system is a call of its caller's -/

theorem allocated_answers {fuel : Nat} {p : Pid} {vmaid rgid size ret : Int} {m m' : Machine}
    (h : Allocated fuel p vmaid rgid size m m' ret) (hswp : Event.outOfSwap ∉ m'.trace) :
    ∃ l o, getFreeVmrgArea fuel vmaid size ((m.mm p).vma vmaid).vmFreergList = some (l, o) ∧
      (ret, m'.mm p) = (m.mm p).allocated vmaid rgid size l o := by
  cases h with
  | @reused l rg m' ret hid hget hturns hret =>
    refine ⟨l, some rg, hget, ?_⟩
    rw [turns_mm hturns, hret.resolve_right (fun hout => hswp hout.2)]
    simp [Mm.allocated, Machine.setMm_mm]
  | @refused l hget hwhy =>
    refine ⟨l, none, hget, ?_⟩
    simp [Mm.allocated, hwhy, Machine.setMm_mm]
  | @fitted l hid hget hvirt hpast =>
    refine ⟨l, none, hget, ?_⟩
    simp [Mm.allocated, hvirt, hpast, Machine.setMm_mm]
  | @grown l m₂ hid hget hvirt hpast hover hmoves hmaps hother =>
    refine ⟨l, none, hget, ?_⟩
    simp [Mm.allocated, hvirt, hpast, hover, Machine.setMm_mm]

theorem freed_answers {p : Pid} {rgid ret : Int} {m m' : Machine} (h : Freed p rgid m m' ret) :
    (ret, m'.mm p) = (m.mm p).freed rgid := by
  cases h with
  | refused hwhy =>
    rw [Mm.freed, if_neg (fun h => h.2 (hwhy h.1))]
  | freed hid hrg hvma hstores =>
    rw [Mm.freed, if_pos ⟨hid, hrg⟩, Machine.setMm_mm, Function.update_self]

theorem run_access {α : Type} {p : Pid} {rgid offset : Int} {m m' : Machine} {refusal a : α} {access : VmRg → Code α}
    (h : run (accessRg p rgid offset >>= fun o => match o with | none => pure refusal | some currg => access currg) m =
      .ok (m', a)) :
    ¬ Accessible (m.mm p) rgid offset ∧ a = refusal ∧ m' = m ∨
      Accessible (m.mm p) rgid offset ∧ ∃ rg, run (access rg) m = .ok (m', a) := by
  obtain ⟨m₁, o, hchecks, h⟩ := run_bind_ok.1 h
  by_cases hid : 0 ≤ rgid ∧ rgid < 30
  · rw [run_accessRg_eq offset m hid] at hchecks
    split at hchecks
    · rename_i hno
      cases hchecks
      cases h
      refine Or.inl ⟨fun hacc => ?_, rfl, rfl⟩
      rcases hno with hvma | hempty | hout
      · exact hacc.2.2.1 hvma
      · exact hacc.2.2.2.1 hempty
      · rw [hacc.2.2.2.2] at hout
        cases hout
    · rename_i hno
      cases hchecks
      simp only [not_or] at hno
      exact Or.inr ⟨⟨hid.1, hid.2, hno.1, hno.2.1, by simpa using hno.2.2⟩, _, h⟩
  · obtain ⟨e, he⟩ := @run_accessRg_fault p rgid offset m hid
    rw [he] at hchecks
    cases hchecks

/-- **A completed call answers its caller** as `Mm.Answers` says, and leaves the other processes' `mm_struct`s alone. -/
theorem completes_answers {m m' : Machine} {p : Pid} {c : Call} {ret : Ret} (h : Completes m p c ret m')
    (hswp : Event.outOfSwap ∉ m'.trace) : (m.mm p).Answers c (ret.1, m'.mm p) ∧ ∀ q, q ≠ p → m'.mm q = m.mm q := by
  obtain ⟨fuel, hrun⟩ := h
  constructor
  · cases c with
    | pgalloc size regIndex | pgmalloc size regIndex =>
      obtain ⟨m₁, r, halloc, hret⟩ := run_bind_ok.1 hrun
      cases hret
      obtain ⟨l, o, hget, heq⟩ := allocated_answers (run_alloc halloc) hswp
      exact ⟨fuel, l, o, hget, heq⟩
    | pgfreeData regIndex =>
      obtain ⟨m₁, r, hfree, hret⟩ := run_bind_ok.1 hrun
      cases hret
      exact freed_answers (run_free hfree)
    | pgread source offset =>
      change (ret.1, m'.mm p) = (m.mm p).accessed source.toInt offset.toInt
      rw [read_mm hrun, Mm.accessed]
      rcases @run_access _ _ _ _ _ _ (-1, none) _ (readAccess p offset.toInt) hrun with ⟨hno, rfl, -⟩ | ⟨hacc, rg, hread⟩
      · rw [if_neg hno]
      · obtain ⟨m₁, data, -, hread⟩ := run_bind_ok.1 hread
        obtain ⟨m₂, u, -, hread⟩ := run_bind_ok.1 hread
        cases hread
        rw [if_pos hacc]
    | pgwrite data destination offset =>
      obtain ⟨m₁, r, hwrite, hret⟩ := run_bind_ok.1 hrun
      cases hret
      change (r, m'.mm p) = (m.mm p).accessed destination.toInt offset.toInt
      rw [write_mm hwrite, Mm.accessed]
      rcases @run_access _ _ _ _ _ _ (-1) _ (writeAccess p offset.toInt data) hwrite with ⟨hno, rfl, -⟩ |
        ⟨hacc, rg, hwrote⟩
      · rw [if_neg hno]
      · obtain ⟨m₁, _, -, hwrote⟩ := run_bind_ok.1 hwrote
        obtain ⟨m₂, u, -, hwrote⟩ := run_bind_ok.1 hwrote
        cases hwrote
        rw [if_pos hacc]
  · intro q hq
    rcases call_mm hrun with hmm | ⟨vmaid, rgid, size, mm', -, -, hmm⟩ | ⟨i, -, -, hmm⟩
    · rw [hmm]
    · rw [hmm, Function.update_of_ne hq]
    · rw [hmm, Function.update_of_ne hq]

theorem free_accepted {m m' : Machine} {p : Pid} {regIndex : BitVec 32} {ret : Ret}
    (h : Completes m p (.pgfreeData regIndex) ret m') (hret : ret.1 = 0) (hswp : Event.outOfSwap ∉ m'.trace) :
    ((0 ≤ regIndex.toInt ∧ regIndex.toInt < 30) ∧
        ((m.mm p).symrgtbl regIndex.toInt.toNat).rgStart ≠ ((m.mm p).symrgtbl regIndex.toInt.toNat).rgEnd) ∧
      m'.mm p = freedMm (m.mm p) regIndex.toInt.toNat := by
  have hanswers : (ret.1, m'.mm p) = (m.mm p).freed regIndex.toInt := (completes_answers h hswp).1
  rw [hret, Mm.freed] at hanswers
  split at hanswers
  · rename_i hcond
    exact ⟨hcond, congrArg Prod.snd hanswers⟩
  · exact absurd (congrArg Prod.fst hanswers) (show (0 : Int) ≠ -1 by decide)

/-! ## Two histories -/

structure Done where
  caller : Pid
  call : Call
  ret : Ret

abbrev Calls : Machine → List (Done × Machine) → Prop :=
  History (fun m d m' => Completes m d.caller d.call d.ret m')

def callsOf (p : Pid) (h : List (Done × Machine)) : List Call :=
  (h.filter (fun e => e.1.caller = p)).map (fun e => e.1.call)

/-- What process `p` has to go by: the status of each of its calls and its `mm_struct` after it. -/
def layoutsOf (p : Pid) (h : List (Done × Machine)) : List (Int × Mm) :=
  (h.filter (fun e => e.1.caller = p)).map (fun e => (e.1.ret.1, e.2.mm p))

def callBy (p : Pid) (d : Done) : Option (Call × Int) := if d.caller = p then some (d.call, d.ret.1) else none

theorem seen_callBy (p : Pid) (h : List (Done × Machine)) :
    (seen (callBy p) (fun m => m.mm p) h).map (fun q => q.1) = callsOf p h ∧
      (seen (callBy p) (fun m => m.mm p) h).map (fun q => q.2) = layoutsOf p h := by
  induction h with
  | nil => exact ⟨rfl, rfl⟩
  | cons e h ih =>
    by_cases hp : e.1.caller = p
    · simpa [seen, callsOf, layoutsOf, callBy, hp] using ih
    · simpa [seen, callsOf, layoutsOf, callBy, hp] using ih

theorem callBy_none {p : Pid} {m m' : Machine} {d : Done} (hstep : Completes m d.caller d.call d.ret m')
    (hok : Event.outOfSwap ∉ m'.trace) (hmine : callBy p d = none) : m'.mm p = m.mm p := by
  unfold callBy at hmine
  split at hmine
  · cases hmine
  · rename_i hp
    exact (completes_answers hstep hok).2 p (fun e => hp e.symm)

/-- **What a process sees follows from its own requests**: each call's status and the `mm_struct` after it. -/
theorem seen_own {p : Pid} {m₁ m₂ : Machine} {h₁ h₂ : List (Done × Machine)} (hist₁ : Calls m₁ h₁) (hist₂ : Calls m₂ h₂)
    (hmm : m₁.mm p = m₂.mm p) (hswp₁ : ∀ e ∈ h₁, Event.outOfSwap ∉ e.2.trace)
    (hswp₂ : ∀ e ∈ h₂, Event.outOfSwap ∉ e.2.trace) (hcalls : callsOf p h₁ = callsOf p h₂) :
    seen (callBy p) (fun m => m.mm p) h₁ = seen (callBy p) (fun m => m.mm p) h₂ := by
  have hexplains : ∀ {m : Machine} {h : List (Done × Machine)}, Calls m h → (∀ e ∈ h, Event.outOfSwap ∉ e.2.trace) →
      Explains (fun mm c status mm' => Mm.Answers mm c (status, mm')) (m.mm p) (seen (callBy p) (fun m => m.mm p) h) := by
    intro m h hist hswp
    refine @History.explains _ _ _ _ _ _ _ (callBy p) (fun m => m.mm p)
      (fun m => Event.outOfSwap ∉ m.trace) ?_ callBy_none _ _
      hist hswp
    intro m d m' c status hstep hok hmine
    unfold callBy at hmine
    split at hmine
    · rename_i hp
      cases hmine
      rw [← hp]
      exact (completes_answers hstep hok).1
    · cases hmine
  have hsecond := hexplains hist₂ hswp₂
  rw [← hmm] at hsecond
  have hfun : ∀ {mm c status mm' status' mm''}, Mm.Answers mm c (status, mm') → Mm.Answers mm c (status', mm'') →
      status = status' ∧ mm' = mm'' := fun ha hb => Prod.mk.inj (ha.unique hb)
  have hreq := (seen_callBy p h₁).1.trans (hcalls.trans (seen_callBy p h₂).1.symm)
  exact @Explains.eq _ _ _ (fun mm c status mm' => Mm.Answers mm c (status, mm')) hfun _ _
    (hexplains hist₁ hswp₁) _ hsecond hreq

/-- **A process's virtual layout depends only on its own requests.**  In two histories that start from the same
`mm_struct` of process `p`, in which `p` makes the same calls and swap space never runs out, every call of `p`
returns the same status and leaves the same `mm_struct`: its regions, both areas and both free lists. -/
theorem layout_own {p : Pid} {m₁ m₂ : Machine} {h₁ h₂ : List (Done × Machine)} (hist₁ : Calls m₁ h₁)
    (hist₂ : Calls m₂ h₂) (hmm : m₁.mm p = m₂.mm p) (hswp₁ : ∀ e ∈ h₁, Event.outOfSwap ∉ e.2.trace)
    (hswp₂ : ∀ e ∈ h₂, Event.outOfSwap ∉ e.2.trace)
    (hcalls : callsOf p h₁ = callsOf p h₂) : layoutsOf p h₁ = layoutsOf p h₂ := by
  rw [← (seen_callBy p h₁).2, ← (seen_callBy p h₂).2, seen_own hist₁ hist₂ hmm hswp₁ hswp₂ hcalls]

theorem calls_trace {m : Machine} {h : List (Done × Machine)} (hist : Calls m h) : m.trace <+: (final m h).trace := by
  induction hist with
  | nil m => exact List.prefix_refl _
  | cons first rest ih =>
    have hstep : CallStep anyCall _ _ := ⟨_, _, _, trivial, first⟩
    exact (callStep_trace hstep).trans ih

theorem calls_before {m : Machine} {h : List (Done × Machine)} (hist : Calls m h) :
    ∀ e ∈ h, e.2.trace <+: (final m h).trace := by
  induction hist with
  | nil m => simp
  | cons first rest ih => exact List.forall_mem_cons.2 ⟨calls_trace rest, ih⟩

def requests (h : List (Done × Machine)) : List (Pid × Call) := h.map (fun e => (e.1.caller, e.1.call))

theorem calls_of_runCalls {fuel : Nat} : ∀ (cs : List (Pid × Call)) {m m' : Machine} {rets : List Ret},
    runCalls (fun _ _ _ => true) fuel cs m = some (m', rets) → ∃ h, Calls m h ∧ requests h = cs ∧ final m h = m'
  | [], m, m', rets, h => by
    cases h
    exact ⟨[], .nil m, rfl, rfl⟩
  | (p, c) :: cs, m, m', rets, h => by
    rw [runCalls] at h
    split at h
    · rename_i m₁ ret _ hrun
      obtain ⟨⟨m₂, rets'⟩, hrest, heq⟩ := Option.map_eq_some_iff.1 h
      cases heq
      obtain ⟨h, hhist, hcs, hfinal⟩ := calls_of_runCalls cs hrest
      exact ⟨(⟨p, c, ret⟩, m₁) :: h, .cons ⟨fuel, hrun⟩ hhist, congrArg _ hcs, hfinal⟩
    · cases h

theorem callsOf_requests (p : Pid) (h : List (Done × Machine)) :
    callsOf p h = ((requests h).filter (fun q => q.1 = p)).map (fun q => q.2) := by
  simp [callsOf, requests, List.filter_map, Function.comp_def]

/-- Process 0 alone, and with process 1 taking its frames in between. -/
theorem layout_own_crowded : ∃ h₁ h₂, Calls (boot 512 16384 4096) h₁ ∧ Calls (boot 512 16384 4096) h₂ ∧ h₁.length = 3 ∧
    h₂.length = 6 ∧ layoutsOf 0 h₁ = layoutsOf 0 h₂ := by
  have hsome : ∀ cs : List (Pid × Call), (runCalls (fun _ _ _ => true) 10 cs (boot 512 16384 4096)).any
      (fun q => Event.outOfSwap ∉ q.1.trace) = true → ∃ h, Calls (boot 512 16384 4096) h ∧
        requests h = cs ∧ ∀ e ∈ h, Event.outOfSwap ∉ e.2.trace := by
    intro cs hcs
    obtain ⟨⟨m, rets⟩, hm, hq⟩ := (Option.any_eq_true _ _).1 hcs
    obtain ⟨h, hhist, hreq, rfl⟩ := calls_of_runCalls cs hm
    exact ⟨h, hhist, hreq, fun e he hout => of_decide_eq_true hq ((calls_before hhist e he).subset hout)⟩
  obtain ⟨h₁, hhist₁, hreq₁, hswp₁⟩ := hsome [(0, .pgalloc 300 0), (0, .pgmalloc 100 1), (0, .pgfreeData 1)]
    (by decide +kernel)
  obtain ⟨h₂, hhist₂, hreq₂, hswp₂⟩ := hsome [(1, .pgalloc 300 0), (0, .pgalloc 300 0), (1, .pgwrite 5 0 2),
    (0, .pgmalloc 100 1), (1, .pgalloc 400 1), (0, .pgfreeData 1)] (by decide +kernel)
  have hcalls : callsOf 0 h₁ = callsOf 0 h₂ := by
    rw [callsOf_requests, callsOf_requests, hreq₁, hreq₂]
    decide
  refine ⟨h₁, h₂, hhist₁, hhist₂, ?_, ?_, layout_own hhist₁ hhist₂ rfl hswp₁ hswp₂ hcalls⟩
  · simpa [requests] using congrArg List.length hreq₁
  · simpa [requests] using congrArg List.length hreq₂

end OsSim
