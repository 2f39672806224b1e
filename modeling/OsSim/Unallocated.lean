import OsSim.Readback
/-!
# Unallocated — the region ids a process has not allocated

`init_mm` leaves the table of regions as `malloc` returned it.  An id whose entry says an empty region is refused by
`__read`, `__write` and `__free`; one whose entry holds anything else is a region to them.  An allocation also sets its
id's entry before it walks along the pages of the free region it was given, and leaves it set when the walk fails.
-/
namespace OsSim

open Atomic Code

def Call.uses : Call → Option Int
  | .pgfreeData regIndex => some regIndex.toInt
  | .pgread source _ => some source.toInt
  | .pgwrite _ destination _ => some destination.toInt
  | _ => none

/-- **The region id is of no use** to the process: reading, writing or freeing it returns -1 and changes nothing. -/
def Unusable (p : Pid) (i : Nat) (m : Machine) : Prop :=
  ∀ (fuel : Nat) (c : Call), c.uses = some (i : Int) → run (c.code fuel p) m = .ok (m, (-1, none))

def Unallocated (p : Pid) (i : Nat) (m m' : Machine) : Prop :=
  ∃ q c ret, Completes m q c ret m' ∧ (q = p → ∀ vmaid size, c.request = some (vmaid, (i : Int), size) → ret.1 ≠ 0)

/-- If the call requests region `i` for `p`, the free list has nothing for it, or a region that counts as empty. -/
def FindsNothing (p : Pid) (i : Nat) (m : Machine) (q : Pid) (c : Call) : Prop :=
  q = p → ∀ vmaid size, c.request = some (vmaid, (i : Int), size) → ∀ fuel l rg,
    getFreeVmrgArea fuel vmaid size ((m.mm p).vma vmaid).vmFreergList = some (l, some rg) → rg.rgStart = rg.rgEnd

def Withheld (p : Pid) (i : Nat) (m m' : Machine) : Prop :=
  ∃ q c ret, Completes m q c ret m' ∧ (q = p → ∀ vmaid size, c.request = some (vmaid, (i : Int), size) → ret.1 ≠ 0) ∧
    FindsNothing p i m q c

/-- **The ids of no use** are those whose entry says an empty region. -/
theorem unusable_iff {p : Pid} {i : Nat} (hi : i < 30) {m : Machine} :
    Unusable p i m ↔ ((m.mm p).symrgtbl i).rgStart = ((m.mm p).symrgtbl i).rgEnd := by
  constructor
  · intro h
    have hint : (BitVec.ofNat 32 i).toInt = i := by
      rw [BitVec.toInt_eq_toNat_cond, BitVec.toNat_ofNat]
      omega
    have hfree := h 0 (.pgfreeData (BitVec.ofNat 32 i)) (congrArg some hint)
    obtain ⟨m₁, r, hcallee, hret⟩ := run_bind_ok.1 hfree
    cases hret
    rw [hint] at hcallee
    have hrefused : ∀ {m' ret}, Freed p i m m' ret → ret = -1 →
        ((m.mm p).symrgtbl i).rgStart = ((m.mm p).symrgtbl i).rgEnd := by
      intro m' ret hfreed hret
      cases hfreed with
      | refused hwhy => exact hwhy (by omega)
      | freed hid hrg hvma hstores => cases hret
    exact hrefused (run_free hcallee) rfl
  · intro hempty fuel c huses
    have haccess : ∀ offset, run (accessRg p i offset) m = .ok (m, none) := by
      intro offset
      have hid : 0 ≤ (i : Int) ∧ (i : Int) < 30 := by omega
      rw [run_accessRg_eq offset m hid, Int.toNat_natCast, if_pos (Or.inr (Or.inl hempty))]
    cases c with
    | pgalloc size regIndex | pgmalloc size regIndex => cases huses
    | pgfreeData regIndex =>
      have hid : regIndex.toInt = i := Option.some.inj huses
      refine run_bind_ok.2 ⟨m, -1, run_free_empty (by omega) ?_, rfl⟩
      rw [hid]
      exact hempty
    | pgread source offset =>
      have hid : source.toInt = i := Option.some.inj huses
      refine run_bind_ok.2 ⟨m, none, ?_, rfl⟩
      rw [hid]
      exact haccess _
    | pgwrite data destination offset =>
      have hid : destination.toInt = i := Option.some.inj huses
      refine run_bind_ok.2 ⟨m, -1, run_bind_ok.2 ⟨m, none, ?_, rfl⟩, rfl⟩
      rw [hid]
      exact haccess _

theorem withheld_empty {p : Pid} {i : Nat} {m m' : Machine} (h : Withheld p i m m') (hi : i < 30)
    (hempty : ((m.mm p).symrgtbl i).rgStart = ((m.mm p).symrgtbl i).rgEnd) :
    ((m'.mm p).symrgtbl i).rgStart = ((m'.mm p).symrgtbl i).rgEnd := by
  obtain ⟨q, c, ret, hcall, hfails, hnothing⟩ := h
  by_cases hq : q = p
  · subst hq
    have htakes : ret.1 = 0 → ¬c.takes i := by
      rintro h0 (⟨vmaid, rgid, size, hreq, rfl⟩ | ⟨regIndex, rfl, hreg⟩)
      · exact hfails rfl _ _ hreq h0
      · -- freeing the region is refused
        obtain ⟨fuel, hrun⟩ := hcall
        rw [(unusable_iff hi).2 hempty fuel (.pgfreeData regIndex) (congrArg some hreg)] at hrun
        cases hrun
        cases h0
    rcases symrgtbl_call_or hcall htakes with hsame | ⟨-, -, fuel, vmaid, size, l, rg, hreq, hget, heq⟩
    · rw [hsame]
      exact hempty
    · rw [heq]
      exact hnothing rfl _ _ hreq _ _ _ hget
  · obtain ⟨fuel, hrun⟩ := hcall
    have hother : m'.mm p = m.mm p := by
      rcases call_mm hrun with hmm | ⟨_, _, _, mm', -, -, hmm⟩ | ⟨_, -, -, hmm⟩
      · rw [hmm]
      · rw [hmm, Function.update_of_ne (Ne.symm hq)]
      · rw [hmm, Function.update_of_ne (Ne.symm hq)]
    rw [hother]
    exact hempty

/-- **The region ids a process has not allocated are of no use to it**, in every run in which no free region is
found for them, if and only if their entries were empty in the memory that `malloc` returned. -/
theorem unallocated_unusable {p : Pid} {junk : Mm} {vmemsz : Int} {m₀ : Machine} (hinit : m₀.mm p = initMm junk vmemsz)
    {i : Nat} (hi : i < 30) :
    (∀ m, Relation.ReflTransGen (Withheld p i) m₀ m → Unusable p i m) ↔
      (junk.symrgtbl i).rgStart = (junk.symrgtbl i).rgEnd := by
  have hentry : (m₀.mm p).symrgtbl i = junk.symrgtbl i := by
    rw [hinit]
    rfl
  rw [← hentry]
  constructor
  · intro h
    exact (unusable_iff hi).1 (h m₀ .refl)
  · intro hempty m hrun
    rw [unusable_iff hi]
    induction hrun with
    | refl => exact hempty
    | tail _ hstep ih => exact withheld_empty hstep hi ih

/-- A process whose `symrgtbl` lies in memory that was in use before. -/
def staleMm : Mm := { zeroMm with symrgtbl := fun _ => ⟨0, 0, 100⟩ }

/-- Four pages are allocated, which takes the frames of both devices; region 0, whose page is swapped out, is freed. -/
def swappedFree : List (Pid × Call) :=
  [(0, .pgalloc 256 0), (0, .pgalloc 256 1), (0, .pgalloc 256 2), (0, .pgalloc 256 3), (0, .pgfreeData 0)]

/-- **Region 5, never allocated**: on stale memory a `__write` and a `__read` of it go through; and after an
allocation that was given region 0's page, and ran out of swap, `__free` goes through. -/
theorem unallocated_unusable_fails :
    (¬ Unusable 0 5 ((boot 512 512 4096).setMm 0 (initMm staleMm 4096)) ∧
      ∃ m, runCalls (fun _ _ _ => true) 10 [(0, .pgwrite 7 5 3), (0, .pgread 5 3)]
        ((boot 512 512 4096).setMm 0 (initMm staleMm 4096)) = some (m, [(0, none), (0, some 7)])) ∧
    ∃ m, Relation.ReflTransGen (Unallocated 0 5) (boot 512 512 4096) m ∧ ¬ Unusable 0 5 m := by
  refine ⟨⟨?_, ?_⟩, ?_⟩
  · rw [unusable_iff (by decide)]
    decide
  · have hsome : (runCalls (fun _ _ _ => true) 10 [(0, .pgwrite 7 5 3), (0, .pgread 5 3)]
        ((boot 512 512 4096).setMm 0 (initMm staleMm 4096))).any (fun q => q.2 = [(0, none), (0, some 7)]) = true := by
      decide +kernel
    obtain ⟨⟨m, rets⟩, hm, hq⟩ := (Option.any_eq_true _ _).1 hsome
    obtain rfl : rets = _ := of_decide_eq_true hq
    exact ⟨m, hm⟩
  · have hsome : (runCalls (fun _ _ c => c.request.all (fun a => a.2.1 ≠ 5)) 10 swappedFree (boot 512 512 4096)).any
        (fun q => (run (Call.code 10 0 (.pgalloc 200 5)) q.1).toOption.any (fun a =>
          a.2 = (-3000, none) ∧ (a.1.mm 0).symrgtbl 5 = ⟨0, 0, 199⟩) = true) = true := by
      decide +kernel
    obtain ⟨⟨m, rets⟩, hm, hq⟩ := (Option.any_eq_true _ _).1 hsome
    obtain ⟨⟨m', ret⟩, hrun, ha⟩ := (Option.any_eq_true _ _).1 (of_decide_eq_true hq)
    obtain ⟨rfl, hrg⟩ : ret = (-3000, none) ∧ _ := of_decide_eq_true ha
    have hother : Run (fun _ _ c => ∀ vmaid size, c.request ≠ some (vmaid, 5, size)) (boot 512 512 4096) m :=
      run_of_runCalls (fun _ _ c h vmaid size hreq => by simp [hreq] at h) _ hm
    have hlast : Unallocated 0 5 m m' :=
      ⟨0, _, _, ⟨10, run_of_toOption hrun⟩, fun _ _ _ _ => by decide⟩
    have hsteps : Relation.ReflTransGen (Unallocated 0 5) (boot 512 512 4096) m := by
      refine hother.lift id ?_
      rintro m₁ m₂ ⟨q, c, ret', hok, hcall⟩
      exact ⟨q, c, ret', hcall, fun _ vmaid size hreq => absurd hreq (hok vmaid size)⟩
    refine ⟨m', hsteps.tail hlast, ?_⟩
    rw [unusable_iff (by decide), hrg]
    decide

/-- Region 1 after region 0 is allocated, on zeroed memory. -/
theorem unallocated_unusable_zero : ∃ m, CallStep anyCall (boot 512 512 4096) m ∧ ((m.mm 0).symrgtbl 0).rgEnd = 99 ∧
    Unusable 0 1 m := by
  have hsome : (run (Call.code 10 0 (.pgalloc 100 0)) (boot 512 512 4096)).toOption.any (fun a =>
      ((a.1.mm 0).symrgtbl 0).rgEnd = 99) = true := by
    decide +kernel
  obtain ⟨⟨m, ret⟩, hrun, ha⟩ := (Option.any_eq_true _ _).1 hsome
  have hcall : Completes (boot 512 512 4096) 0 (.pgalloc 100 0) ret m := ⟨10, run_of_toOption hrun⟩
  have hother : ∀ vmaid size, (Call.pgalloc 100 0).request ≠ some (vmaid, ((1 : Nat) : Int), size) := by
    rintro vmaid size h
    cases h
  refine ⟨m, ⟨0, _, ret, trivial, hcall⟩, of_decide_eq_true ha, ?_⟩
  exact (@unallocated_unusable 0 zeroMm 4096 (boot 512 512 4096) rfl 1 (by decide)).2 rfl m
    (.single ⟨0, _, ret, hcall, fun _ vmaid size h => absurd h (hother vmaid size),
      fun _ vmaid size h => absurd h (hother vmaid size)⟩)

end OsSim
