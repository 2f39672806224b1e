import OsSim.Queue
/-!
# Fifo — each priority is served in the order of arrival

Along a run the arrays of `Queue` are compared with two histories: what `add_proc` and `put_proc` put in each queue,
and what `get_proc` returned, with the queue that became shorter by it.
-/
namespace OsSim

open System

def Queues.shorter (s s' : Queues) : Option Nat :=
  (List.range maxPrio).find? (fun i => decide ((s'.mlqReadyQueue i).size < (s.mlqReadyQueue i).size))

/-- The queues and, for the history, what was put in each and what was returned from which. -/
structure Traffic where
  queues : Queues
  enqueued : Nat → List Nat
  returned : List (Option Nat × Nat)

namespace Traffic

def start (s : Queues) : Traffic := ⟨s.initScheduler, fun _ => [], []⟩

/-- `get_mlq_proc` is given the two turns that suffice for its loop. -/
def step (t : Traffic) : MlqAct → Option Traffic
  | .add prio proc | .put prio proc => (t.queues.putMlqProc prio proc).map (fun s =>
      { t with queues := s, enqueued := Function.update t.enqueued prio (t.enqueued prio ++ [proc]) })
  | .get => (Queues.getMlqProc 2 t.queues).map (fun q =>
      match q.2 with
      | none => { t with queues := q.1 }
      | some proc => { t with queues := q.1, returned := t.returned ++ [(t.queues.shorter q.1, proc)] })

def dispatched (t : Traffic) (i : Nat) : List Nat := (t.returned.filter (fun e => decide (e.1 = some i))).map Prod.snd

/-- **What was put in a queue** is what was returned from it, and then what it holds. -/
structure Inv (t : Traffic) : Prop where
  source : ∀ e ∈ t.returned, ∃ i < maxPrio, e.1 = some i
  order : ∀ i < maxPrio, t.enqueued i = t.dispatched i ++ (t.queues.mlqReadyQueue i).contents

theorem start_inv (s : Queues) : (start s).Inv :=
  ⟨fun e he => (List.not_mem_nil he).elim, fun i _ => by
    simp [start, dispatched, Queues.initScheduler, Queues.initSlot, QueueT.cleared, QueueT.contents]⟩

theorem shorter_of_serves {s s₁ s' : Queues} {i : Nat} {r : Option Nat} (hsame : s₁.mlqReadyQueue = s.mlqReadyQueue)
    (h : s₁.Serves i s' r) (hi : i < maxPrio) : s.shorter s' = some i := by
  obtain ⟨p, -, hfront⟩ := h.front
  have hlen := congrArg List.length hfront
  rw [List.length_cons, QueueT.length_contents, QueueT.length_contents] at hlen
  refine List.find?_range_eq_some.2 ⟨?_, List.mem_range.2 hi, fun j hj => ?_⟩
  · rw [← hsame, decide_eq_true_iff]
    omega
  · rw [h.others j (by omega), hsame]
    simp

section Step

variable {t t' : Traffic}

theorem get_cases (h : t.step .get = some t') : t' = t ∨ ∃ i < maxPrio, ∃ p, t'.returned = t.returned ++ [(some i, p)] ∧
    t'.enqueued = t.enqueued ∧ (t.queues.mlqReadyQueue i).contents = p :: (t'.queues.mlqReadyQueue i).contents ∧
      ∀ j ≠ i, t'.queues.mlqReadyQueue j = t.queues.mlqReadyQueue j := by
  rw [step, Queues.getMlqProc_eq t.queues 0] at h
  cases hchosen : t.queues.lists.chosen with
  | none =>
    rw [hchosen] at h
    cases h
    exact Or.inl rfl
  | some i =>
    rw [hchosen] at h
    have hsame := t.queues.renewed_mlqReadyQueue
    have hfind := Mlq.chosen_some hchosen
    rw [← Queues.renewed_lists] at hfind
    obtain ⟨hi, hne⟩ := Mlq.find_some hfind
    have hserves := Queues.take_serves hne
    obtain ⟨p, hp, hfront⟩ := hserves.front
    simp only [Option.map_some, hp, Option.some.injEq] at h
    subst h
    rw [hsame] at hfront
    refine Or.inr ⟨i, hi, p, ?_, rfl, hfront, fun j hj => ?_⟩
    · rw [shorter_of_serves hsame hserves hi]
    · rw [← hsame]
      exact hserves.others j hj

theorem put_cases {prio proc : Nat} (h : (t.queues.putMlqProc prio proc).map (fun s =>
      { t with queues := s, enqueued := Function.update t.enqueued prio (t.enqueued prio ++ [proc]) }) = some t') :
    t'.returned = t.returned ∧ t'.enqueued = Function.update t.enqueued prio (t.enqueued prio ++ [proc]) ∧
      (t'.queues.mlqReadyQueue prio).contents = (t.queues.mlqReadyQueue prio).contents ++ [proc] ∧
        ∀ j ≠ prio, t'.queues.mlqReadyQueue j = t.queues.mlqReadyQueue j := by
  obtain ⟨s, hput, rfl⟩ := Option.map_eq_some_iff.1 h
  unfold Queues.putMlqProc at hput
  split at hput
  · obtain ⟨q, hq, rfl⟩ := Option.map_eq_some_iff.1 hput
    refine ⟨rfl, rfl, ?_, fun j hj => Function.update_of_ne hj _ _⟩
    rw [← QueueT.enqueue_some hq]
    exact congrArg QueueT.contents (Function.update_self _ _ _)
  · cases hput

theorem dispatched_append (i j p : Nat) (h : t'.returned = t.returned ++ [(some i, p)]) :
    t'.dispatched j = if j = i then t.dispatched j ++ [p] else t.dispatched j := by
  rw [dispatched, h, List.filter_append, List.map_append]
  by_cases hji : j = i
  · subst hji
    simp [dispatched]
  · have hij : i ≠ j := fun e => hji e.symm
    simp [dispatched, hji, hij]

theorem Inv.put (h : t.Inv) {prio proc : Nat} (hret : t'.returned = t.returned)
    (henq : t'.enqueued = Function.update t.enqueued prio (t.enqueued prio ++ [proc]))
    (hcontents : (t'.queues.mlqReadyQueue prio).contents = (t.queues.mlqReadyQueue prio).contents ++ [proc])
    (hother : ∀ j ≠ prio, t'.queues.mlqReadyQueue j = t.queues.mlqReadyQueue j) : t'.Inv := by
  refine ⟨by rw [hret]; exact h.source, fun j hj => ?_⟩
  have horder := h.order j hj
  rw [dispatched, hret, henq]
  by_cases hjp : j = prio
  · subst hjp
    rw [Function.update_self, hcontents, horder, List.append_assoc]
    rfl
  · rw [Function.update_of_ne hjp, hother j hjp]
    exact horder

theorem Inv.get (h : t.Inv) {i p : Nat} (hi : i < maxPrio) (hret : t'.returned = t.returned ++ [(some i, p)])
    (henq : t'.enqueued = t.enqueued)
    (hfront : (t.queues.mlqReadyQueue i).contents = p :: (t'.queues.mlqReadyQueue i).contents)
    (hother : ∀ j ≠ i, t'.queues.mlqReadyQueue j = t.queues.mlqReadyQueue j) : t'.Inv := by
  constructor
  · intro e he
    rw [hret] at he
    rcases List.mem_append.1 he with he | he
    · exact h.source e he
    · obtain rfl := List.mem_singleton.1 he
      exact ⟨i, hi, rfl⟩
  · intro j hj
    have horder := h.order j hj
    rw [henq, dispatched_append i j p hret]
    by_cases hji : j = i
    · subst hji
      rw [if_pos rfl, horder, hfront, List.append_assoc]
      rfl
    · rw [if_neg hji, hother j hji]
      exact horder

theorem step_inv {a : MlqAct} (hstep : t.step a = some t') (h : t.Inv) : t'.Inv := by
  cases a with
  | add prio proc | put prio proc =>
    obtain ⟨hret, henq, hcontents, hother⟩ := put_cases hstep
    exact h.put hret henq hcontents hother
  | get =>
    rcases get_cases hstep with rfl | ⟨i, hi, p, hret, henq, hfront, hother⟩
    · exact h
    · exact h.get hi hret henq hfront hother

theorem step_other {a : MlqAct} (hstep : t.step a = some t') {i : Nat} (henq : t'.enqueued i = t.enqueued i)
    (hdis : t'.dispatched i = t.dispatched i) : t'.queues.mlqReadyQueue i = t.queues.mlqReadyQueue i := by
  cases a with
  | add prio proc | put prio proc =>
    obtain ⟨-, hput, -, hother⟩ := put_cases hstep
    refine hother i (fun e => ?_)
    subst e
    rw [hput, Function.update_self] at henq
    simpa using congrArg List.length henq
  | get =>
    rcases get_cases hstep with rfl | ⟨j, -, p, hret, -, -, hother⟩
    · rfl
    · refine hother i (fun e => ?_)
      subst e
      rw [dispatched_append i i p hret, if_pos rfl] at hdis
      simpa using congrArg List.length hdis

end Step

/-- **First in, first out.**  In every run from `init_scheduler`, what `get_proc` has returned from a queue is the
beginning of what was put in it, and the queue's array holds the rest, both in order; whatever it returned came from
one of the queues; and no call changes a queue it neither puts in nor returns from. -/
theorem first_in_first_out {s : Queues} {t : Traffic} (h : Reach step (start s) t) :
    (∀ e ∈ t.returned, ∃ i < maxPrio, e.1 = some i) ∧
      (∀ i < maxPrio, t.dispatched i <+: t.enqueued i ∧
        t.enqueued i = t.dispatched i ++ (t.queues.mlqReadyQueue i).contents) ∧
      ∀ a t', t.step a = some t' → ∀ i, t'.enqueued i = t.enqueued i → t'.dispatched i = t.dispatched i →
        t'.queues.mlqReadyQueue i = t.queues.mlqReadyQueue i := by
  have hinv : t.Inv := h.inv (start_inv s) (fun ha ht => step_inv ha ht)
  refine ⟨hinv.source, fun i hi => ⟨⟨_, (hinv.order i hi).symm⟩, hinv.order i hi⟩, ?_⟩
  exact fun a t' hstep i henq hdis => step_other hstep henq hdis

/-- Two processes of priority 139 take turns, one of priority 130 between. -/
theorem first_in_first_out_turns : ∃ t, Reach step (start Queues.usedUp) t ∧
    t.returned = [(some 139, 7), (some 130, 3), (some 139, 4)] ∧
    t.enqueued 139 = [7, 4] ++ (t.queues.mlqReadyQueue 139).contents := by
  have hsome : (runActions step [.add 139 7, .add 139 4, .get, .put 139 7, .add 130 3, .get, .get]
      (start Queues.usedUp)).any
      (fun t => t.returned = [(some 139, 7), (some 130, 3), (some 139, 4)]) = true := by
    decide +kernel
  obtain ⟨t, ht, hq⟩ := (Option.any_eq_true _ _).1 hsome
  have hreturned : t.returned = [(some 139, 7), (some 130, 3), (some 139, 4)] := of_decide_eq_true hq
  have hreach := reach_of_runActions _ ht
  refine ⟨t, hreach, hreturned, ?_⟩
  have horder := ((first_in_first_out hreach).2.1 139 (by decide)).2
  rwa [dispatched, hreturned] at horder

end Traffic

end OsSim
