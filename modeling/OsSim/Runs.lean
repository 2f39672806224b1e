import OsSim.Calls
/-!
# Runs — completed calls of any processes, one after the other

A run starts from a machine that has just been booted and takes any completed call of any process at each step.  A call
is a row of acts; what every act keeps holds between calls in every run.  Conditions on a run are of two kinds: on the
state before a call (`ok`), and on what the history records during it.
-/
namespace OsSim

open Atomic Code

/-! ## The acts of a call -/

/-- A move of the paging code, a byte stored, or a process's `mm_struct` updated. -/
inductive Act : List Nat × Machine → List Nat × Machine → Prop where
  | move {held m held' m'} (h : Move held m held' m') : Act (held, m) (held', m')
  | store {held m m' r vmaid off v} (h : Stored r vmaid off v m m') : Act (held, m) (held, m')
  | setMm {held} (m : Machine) (p : Pid) (mm : Mm) : Act (held, m) (held, m.setMm p mm)

abbrev Acts : List Nat × Machine → List Nat × Machine → Prop := Relation.ReflTransGen Act

theorem moves_acts {held m held' m'} (h : Moves held m held' m') : Acts (held, m) (held', m') :=
  h.lift id (fun _ _ => .move)

theorem turns_acts {m m'} (h : Turns m m') : Acts ([], m) ([], m') :=
  h.lift (fun m => ([], m)) (fun _ _ => .move)

theorem stores_acts {S : PteRef → Int → Nat → Prop} {m m'} (h : Stores S m m') : Acts ([], m) ([], m') := by
  refine h.lift (fun m => ([], m)) (fun a b hab => ?_)
  rcases hab with hturn | ⟨r, vmaid, off, v, -, hstored⟩
  · exact .move hturn
  · exact .store hstored

theorem Act.trace_prefix {a b : List Nat × Machine} (h : Act a b) : a.2.trace <+: b.2.trace := by
  cases h with
  | move h => cases h <;> simp [Machine.placed, Machine.referenced, Machine.evicted]
  | store h => obtain ⟨-, mp, -, rfl⟩ := h; simp
  | setMm m p mm => simp

theorem Move.trace_mem {held held' : List Nat} {m m' : Machine} (h : Move held m held' m') {e : Event}
    (he : e ∈ m.trace) :
    e ∈ m'.trace := by
  have hgrows := Act.trace_prefix (.move h)
  exact hgrows.subset he

theorem acts_trace {a b : List Nat × Machine} (h : Acts a b) : a.2.trace <+: b.2.trace := by
  induction h with
  | refl => exact List.prefix_refl _
  | tail _ hd ih => exact ih.trans hd.trace_prefix

theorem allocated_acts {fuel : Nat} {p : Pid} {vmaid rgid size ret : Int} {m m' : Machine}
    (h : Allocated fuel p vmaid rgid size m m' ret) : Acts ([], m) ([], m') := by
  cases h with
  | reused hid hget hturns hret => exact .head (.setMm m p _) (turns_acts hturns)
  | refused hget hwhy => exact .single (.setMm m p _)
  | fitted hid hget hvirt hpast => exact .single (.setMm m p _)
  | grown hid hget hvirt hpast hover hmoves hmaps hother =>
    exact .head (.setMm m p _) ((moves_acts hmoves).tail (.setMm _ p _))

theorem freed_acts {p : Pid} {rgid ret : Int} {m m' : Machine} (h : Freed p rgid m m' ret) :
    Acts ([], m) ([], m') := by
  cases h with
  | refused => exact .refl
  | freed hid hrg hvma hstores => exact (stores_acts hstores).tail (.setMm _ p _)

/-- **A completed call is a row of acts**, and leaves no frame held. -/
theorem call_acts {fuel : Nat} {p : Pid} {c : Call} {m m' : Machine} {ret : Ret}
    (h : run (c.code fuel p) m = .ok (m', ret)) : Acts ([], m) ([], m') := by
  cases c with
  | pgalloc size regIndex | pgmalloc size regIndex =>
    obtain ⟨m₁, _, halloc, hret⟩ := run_bind_ok.1 h
    cases hret
    exact allocated_acts (run_alloc halloc)
  | pgfreeData regIndex =>
    obtain ⟨m₁, _, hfree, hret⟩ := run_bind_ok.1 h
    cases hret
    exact freed_acts (run_free hfree)
  | pgread source offset =>
    rcases run_read h with ⟨-, rfl⟩ | ⟨-, -, m₁, hturn, hturn', -⟩
    · exact .refl
    · exact .head (.move hturn) (.single (.move hturn'))
  | pgwrite data destination offset =>
    obtain ⟨m₁, _, hwrite, hret⟩ := run_bind_ok.1 h
    cases hret
    rcases run_write hwrite with ⟨-, rfl⟩ | ⟨-, -, m₁, m₂, hturn, hturn', hstore⟩
    · exact .refl
    · rcases hstore with hstored | ⟨rfl, -⟩
      · exact .head (.move hturn) (.head (.store hstored) (.single (.move hturn')))
      · exact .head (.move hturn) (.single (.move hturn'))

/-! ## Runs -/

/-- A machine that has just been booted: zeroed page tables, an empty LRU list, random access devices, and every process
as `init_mm` sets it up on the memory its `mm_struct` came with. -/
structure Booted (m : Machine) : Prop where
  pgd : ∀ r, m.pgd r = 0#32
  lru : m.lru = []
  trace : m.trace = []
  mram : m.mram.rdmflg = true
  mswp : m.mswp.rdmflg = true
  mm : ∀ p, ∃ junk, m.mm p = initMm junk (m.mm p).vmemsz

/-- The call of process `p` completes: it is given enough turns, and nothing it does is undefined. -/
def Completes (m : Machine) (p : Pid) (c : Call) (ret : Ret) (m' : Machine) : Prop :=
  ∃ fuel, run (c.code fuel p) m = .ok (m', ret)

def CallStep (ok : Machine → Pid → Call → Prop) (m m' : Machine) : Prop :=
  ∃ p c ret, ok m p c ∧ Completes m p c ret m'

/-- Completed calls of any processes, in any order. -/
abbrev Run (ok : Machine → Pid → Call → Prop) : Machine → Machine → Prop := Relation.ReflTransGen (CallStep ok)

def anyCall (_ : Machine) (_ : Pid) (_ : Call) : Prop := True

theorem callStep_acts {ok : Machine → Pid → Call → Prop} {m m' : Machine} (h : CallStep ok m m') :
    Acts ([], m) ([], m') := by
  obtain ⟨p, c, ret, -, fuel, hrun⟩ := h
  exact call_acts hrun

theorem callStep_trace {ok : Machine → Pid → Call → Prop} {m m' : Machine} (h : CallStep ok m m') :
    m.trace <+: m'.trace := acts_trace (callStep_acts h)

theorem run_trace {ok : Machine → Pid → Call → Prop} {m m' : Machine} (h : Run ok m m') : m.trace <+: m'.trace := by
  induction h with
  | refl => exact List.prefix_refl _
  | tail _ hd ih => exact ih.trans (callStep_trace hd)

/-- **What every act keeps holds through a row of acts**, as long as the history is as `fine` asks. -/
theorem acts_keep (fine : Event → Prop) (P : List Nat × Machine → Prop)
    (hact : ∀ {a b}, Act a b → (∀ e ∈ b.2.trace, fine e) → P a → P b) {a b : List Nat × Machine} (h : Acts a b)
    (hfine : ∀ e ∈ b.2.trace, fine e) (ha : P a) : P b := by
  induction h with
  | refl => exact ha
  | tail hab hd ih => exact hact hd hfine (ih (fun e he => hfine e (hd.trace_prefix.subset he)))

/-- **What every act keeps holds between calls in every run** whose history is as `fine` asks. -/
theorem run_keeps {ok : Machine → Pid → Call → Prop} (fine : Event → Prop) (P : List Nat × Machine → Prop)
    (hact : ∀ {a b}, Act a b → (∀ e ∈ b.2.trace, fine e) → P a → P b) {m m' : Machine}
    (h : Run ok m m') (hfine : ∀ e ∈ m'.trace, fine e) (h0 : P ([], m)) : P ([], m') := by
  induction h with
  | refl => exact h0
  | tail _ hd ih =>
    have hpre := ih (fun e he => hfine e ((callStep_trace hd).subset he))
    exact acts_keep fine P hact (callStep_acts hd) hfine hpre

def OkStep (ok : Machine → Pid → Call → Prop) (m m' : Machine) : Prop :=
  ∃ p c ret, ok m p c ∧ Completes m p c ret m' ∧ ret.1 = 0

abbrev OkRun (ok : Machine → Pid → Call → Prop) : Machine → Machine → Prop := Relation.ReflTransGen (OkStep ok)

theorem run_of_okRun {ok : Machine → Pid → Call → Prop} {m m' : Machine} (h : OkRun ok m m') : Run ok m m' :=
  Relation.ReflTransGen.mono (fun _ _ ⟨p, c, ret, hok, hrun, _⟩ => ⟨p, c, ret, hok, hrun⟩) _ _ h

theorem run_keeps_machine {ok : Machine → Pid → Call → Prop} (P : Machine → Prop)
    (hact : ∀ {a b : List Nat × Machine}, Act a b → P a.2 → P b.2) {m m' : Machine} (h : Run ok m m') (h0 : P m) :
    P m' :=
  run_keeps (fun _ => True) (fun s => P s.2) (fun hab _ => hact hab) h (fun _ _ => trivial) h0

/-! ## Runs computed -/

/-- The machine `main` of `os.c` sets up: RAM and one swap device of the given sizes, the other three unused, and a
virtual memory of `vmemsz` bytes for every process. -/
def boot (memramsz memswpsz : Nat) (vmemsz : Int) : Machine :=
  { mram := initMemphy (fun _ => 0) [] memramsz 1
    mswp := initMemphy (fun _ => 0) [] memswpsz 1
    idle := List.replicate 3 (initMemphy (fun _ => 0) [] 0 1)
    lru := []
    pgd := fun _ => 0
    mm := fun _ => initMm zeroMm vmemsz
    trace := [] }

theorem initMemphy_rdmflg (bytes : Nat → Byte) (junk : List Nat) (size : Nat) :
    (initMemphy bytes junk size 1).rdmflg = true := by
  unfold initMemphy memphyFormat
  split <;> rfl

theorem initMemphy_freeFpList (bytes : Nat → Byte) (junk : List Nat) {n : Nat} (hn : 2 ≤ n) :
    (initMemphy bytes junk (n * 256) 1).freeFpList = List.range n := by
  have hdiv : n * 256 / pagingPagesz = n := Nat.mul_div_cancel n (by decide)
  unfold initMemphy memphyFormat
  simp only [hdiv]
  split
  · omega
  · omega
  · rfl

theorem initMemphy_free (n : Nat) (hn : 2 ≤ n) :
    (initMemphy (fun _ => 0) [] (n * 256) 1).freeFpList.Perm (List.range n) := by
  rw [initMemphy_freeFpList _ _ hn]

theorem booted_boot (memramsz memswpsz : Nat) (vmemsz : Int) : Booted (boot memramsz memswpsz vmemsz) where
  pgd _ := rfl
  lru := rfl
  trace := rfl
  mram := initMemphy_rdmflg _ _ _
  mswp := initMemphy_rdmflg _ _ _
  mm _ := ⟨zeroMm, rfl⟩

/-- The calls made in turn, each if `ok` allows it and if it completes within `fuel` turns: the last state and what the
calls returned. -/
def runCalls (ok : Machine → Pid → Call → Bool) (fuel : Nat) : List (Pid × Call) → Machine → Option (Machine × List Ret)
  | [], m => some (m, [])
  | (p, c) :: cs, m =>
    match ok m p c, run (c.code fuel p) m with
    | true, .ok (m', ret) => (runCalls ok fuel cs m').map (fun q => (q.1, ret :: q.2))
    | _, _ => none

theorem run_of_runCalls {okb : Machine → Pid → Call → Bool} {ok : Machine → Pid → Call → Prop} {fuel : Nat}
    (hok : ∀ m p c, okb m p c = true → ok m p c) : ∀ (cs : List (Pid × Call)) {m m' : Machine} {rets : List Ret},
      runCalls okb fuel cs m = some (m', rets) → Run ok m m'
  | [], m, m', rets, h => by
    cases h
    exact .refl
  | (p, c) :: cs, m, m', rets, h => by
    rw [runCalls] at h
    split at h
    · rename_i m₁ ret hokb hrun
      obtain ⟨⟨m₂, rets'⟩, hrest, heq⟩ := Option.map_eq_some_iff.1 h
      cases heq
      exact .head ⟨p, c, ret, hok m p c hokb, fuel, hrun⟩ (run_of_runCalls hok cs hrest)
    · cases h

theorem okRun_of_runCalls {okb : Machine → Pid → Call → Bool} {ok : Machine → Pid → Call → Prop} {fuel : Nat}
    (hok : ∀ m p c, okb m p c = true → ok m p c) : ∀ (cs : List (Pid × Call)) {m m' : Machine} {rets : List Ret},
      runCalls okb fuel cs m = some (m', rets) → (∀ ret ∈ rets, ret.1 = 0) → OkRun ok m m'
  | [], m, m', rets, h, _ => by
    cases h
    exact .refl
  | (p, c) :: cs, m, m', rets, h, hrets => by
    rw [runCalls] at h
    split at h
    · rename_i m₁ ret hokb hrun
      obtain ⟨⟨m₂, rets'⟩, hrest, heq⟩ := Option.map_eq_some_iff.1 h
      cases heq
      rw [List.forall_mem_cons] at hrets
      exact .head ⟨p, c, ret, hok m p c hokb, ⟨fuel, hrun⟩, hrets.1⟩ (okRun_of_runCalls hok cs hrest hrets.2)
    · cases h

theorem run_of_toOption {α : Type} {c : Code α} {m : Machine} {a : Machine × α} (h : (run c m).toOption = some a) :
    run c m = .ok a := by
  cases hr : run c m with
  | error e => rw [hr] at h; cases h
  | ok b => rw [hr] at h; cases h; rfl

end OsSim
