import OsSim.FreeList
/-!
# Ends — when the search of a free list returns

At each look at a node the search's test is one piece further on.  The loop leaves the node when the test reaches
`rg_end`. The last node has to be passed: a hit there leaves it with its last byte, and the loop looks at it again.
-/
namespace OsSim

open Atomic Code

/-! ## Where the test is -/

/-- The last byte of piece `k` of those of `size` bytes from `s` on, counted from 0 and round the end of memory. -/
def mark (size s : Int) (k : Nat) : Int := ulong (s + (k + 1) * size - 1)

/-- The first of these bytes that is not before `e` is as `Q` says. -/
def FirstMark (size s e : Int) (Q : Int → Prop) : Prop := ∃ k, Q (mark size s k) ∧ ∀ j < k, mark size s j < e

/-- Every node but the last is reached or passed, and the last one is passed, at once or once it is one byte long. -/
def Ends (vmaid size : Int) : List VmRg → Prop
  | [] => True
  | rg :: rest =>
    let e := along vmaid rg.rgEnd
    (FirstMark size (along vmaid rg.rgStart) e (fun x => e < x) ∨
      FirstMark size (along vmaid rg.rgStart) e (fun x => x = e) ∧ (rest = [] → FirstMark size e e (fun x => e < x))) ∧
    Ends vmaid size rest

section Marks

variable {size s e : Int} {Q : Int → Prop}

theorem mark_zero : mark size s 0 = ulong (s + size - 1) := by
  rw [mark]
  congr 1
  simp

theorem mark_succ (k : Nat) : mark size (ulong (s + size)) k = mark size s (k + 1) := by
  have hsum : s + ((k + 1 : Nat) + 1 : Int) * size - 1 = s + size + ((k + 1) * size - 1) := by
    rw [Int.add_mul, Int.one_mul, Int.natCast_succ]
    omega
  have hpiece : ulong (s + size) + (k + 1) * size - 1 = ulong (s + size) + ((k + 1) * size - 1) := by omega
  rw [mark, mark, hsum, hpiece]
  exact Int.emod_add_emod _ _ _

theorem firstMark_of_lt (h : mark size s 0 < e) (hQ : ∀ x, Q x → e ≤ x) :
    FirstMark size s e Q ↔ FirstMark size (ulong (s + size)) e Q := by
  constructor
  · rintro ⟨k, hk, hbefore⟩
    cases k with
    | zero => exact absurd (hQ _ hk) (by omega)
    | succ k =>
      refine ⟨k, by rwa [mark_succ], fun j hj => ?_⟩
      rw [mark_succ]
      exact hbefore _ (by omega)
  · rintro ⟨k, hk, hbefore⟩
    refine ⟨k + 1, by rwa [← mark_succ], fun j hj => ?_⟩
    cases j with
    | zero => exact h
    | succ j =>
      rw [← mark_succ]
      exact hbefore _ (by omega)

theorem firstMark_zero (h : Q (mark size s 0)) : FirstMark size s e Q := ⟨0, h, fun _ hj => absurd hj (Nat.not_lt_zero _)⟩

end Marks

/-! ## The loop -/

section Loop

variable {vmaid size : Int} {rg : VmRg} {rest : List VmRg}

theorem ends_of_loop : ∀ (fuel : Nat) {l : List VmRg} {newrg : VmRg} {q : List VmRg × VmRg},
    getFreeLoop vmaid size fuel l newrg = some q → (∀ rg ∈ l, rg.Words) → Ends vmaid size l
  | _, [], _, _, _, _ => trivial
  | 0, _ :: _, _, _, h, _ => by simp [getFreeLoop] at h
  | fuel + 1, rg :: rest, newrg, q, h, hwords => by
    obtain ⟨hrg, hrest⟩ := List.forall_mem_cons.1 hwords
    rw [getFreeLoop] at h
    split at h
    · rename_i hfit
      have hreach := (fits_along hrg).1 hfit
      rw [← mark_zero] at hreach
      split at h
      · rename_i hleaves
        have hless := (leaves_along hrg).1 hleaves
        rw [← mark_zero] at hless
        obtain ⟨hnode, hends⟩ := ends_of_loop fuel h (List.forall_mem_cons.2 ⟨shrinkRg_words hrg, hrest⟩)
        rw [shrinkRg_along hrg] at hnode
        rw [Ends, firstMark_of_lt hless (fun x hx => hx.le), firstMark_of_lt hless (fun x hx => hx.ge)]
        exact ⟨hnode, hends⟩
      · rename_i hleaves
        have hhit : mark size (along vmaid rg.rgStart) 0 = along vmaid rg.rgEnd := by
          rw [leaves_along hrg, ← mark_zero] at hleaves
          omega
        split at h
        · rename_i nextrg rest'
          obtain ⟨hnext, hrest'⟩ := List.forall_mem_cons.1 hrest
          have hnext' : ({ rg with rgStart := nextrg.rgStart, rgEnd := nextrg.rgEnd } : VmRg).Words := hnext
          have hends := ends_of_loop fuel h (List.forall_mem_cons.2 ⟨hnext', hrest'⟩)
          exact ⟨Or.inr ⟨firstMark_zero hhit, fun hnil => by cases hnil⟩, hends⟩
        · obtain ⟨hnode, -⟩ := ends_of_loop fuel h (List.forall_mem_cons.2 ⟨⟨hrg.2, hrg.2⟩, hrest⟩)
          refine ⟨Or.inr ⟨firstMark_zero hhit, fun _ => ?_⟩, trivial⟩
          rcases hnode with hpast | ⟨-, hpast⟩
          · exact hpast
          · exact hpast rfl
    · rename_i hfit
      rw [fits_along hrg, ← mark_zero] at hfit
      split at h
      · rename_i hloop
        exact ⟨Or.inl (firstMark_zero (by omega)), ends_of_loop fuel hloop hrest⟩
      · cases h

theorem loop_firstMark {Q : Int → Prop} {e : Int}
    (hdone : ∀ (rg : VmRg) (newrg : VmRg), rg.Words → along vmaid rg.rgEnd = e →
      Q (mark size (along vmaid rg.rgStart) 0) →
      ∃ fuel q, getFreeLoop vmaid size fuel (rg :: rest) newrg = some q) :
    ∀ (k : Nat) (rg newrg : VmRg), rg.Words → along vmaid rg.rgEnd = e → Q (mark size (along vmaid rg.rgStart) k) →
      (∀ j < k, mark size (along vmaid rg.rgStart) j < e) →
        ∃ fuel q, getFreeLoop vmaid size fuel (rg :: rest) newrg = some q := by
  intro k
  induction k with
  | zero => exact fun rg newrg hrg hend hk _ => hdone rg newrg hrg hend hk
  | succ k ih =>
    intro rg newrg hrg hend hk hbefore
    have hless := hbefore 0 (by omega)
    rw [mark_zero, ← hend] at hless
    have hstart : along vmaid (shrinkRg vmaid size rg).rgStart = ulong (along vmaid rg.rgStart + size) :=
      shrinkRg_along hrg
    obtain ⟨fuel, q, hloop⟩ := ih (shrinkRg vmaid size rg) (cutRg vmaid size rg) (shrinkRg_words hrg) hend
      (by rwa [hstart, mark_succ]) (fun j hj => by
        rw [hstart, mark_succ]
        exact hbefore _ (by omega))
    refine ⟨fuel + 1, q, ?_⟩
    rw [getFreeLoop, if_pos ((fits_along hrg).2 hless.le)]
    simp only [(leaves_along hrg).2 hless, if_true, hloop]

theorem loop_of_ends : ∀ {l : List VmRg} (newrg : VmRg), Ends vmaid size l → (∀ rg ∈ l, rg.Words) →
    ∃ fuel q, getFreeLoop vmaid size fuel l newrg = some q
  | [], newrg, _, _ => ⟨0, _, by rw [getFreeLoop]⟩
  | rg :: rest, newrg, ⟨hnode, hends⟩, hwords => by
    obtain ⟨hrg, hrest⟩ := List.forall_mem_cons.1 hwords
    have hpass : ∀ (rg newrg : VmRg), rg.Words →
        along vmaid rg.rgEnd < mark size (along vmaid rg.rgStart) 0 →
          ∃ fuel q, getFreeLoop vmaid size fuel (rg :: rest) newrg = some q := by
      intro rg newrg hrg hpast
      obtain ⟨fuel, q, hloop⟩ := loop_of_ends newrg hends hrest
      rw [mark_zero] at hpast
      refine ⟨fuel + 1, (rg :: q.1, q.2), ?_⟩
      rw [getFreeLoop, if_neg (by rw [fits_along hrg]; omega), hloop]
    rcases hnode with ⟨k, hk, hbefore⟩ | ⟨⟨k, hk, hbefore⟩, hlast⟩
    · exact loop_firstMark (Q := fun x => along vmaid rg.rgEnd < x)
        (fun rg' newrg' hrg' hend hpast => hpass rg' newrg' hrg' (by rwa [hend])) k rg newrg hrg rfl hk hbefore
    · refine loop_firstMark (Q := fun x => x = along vmaid rg.rgEnd)
        (fun rg' newrg' hrg' hend hhit => ?_) k rg newrg hrg rfl hk hbefore
      rw [mark_zero, ← hend] at hhit
      have hfit : fits vmaid size rg' = true := (fits_along hrg').2 hhit.le
      have hleaves : leaves vmaid size rg' = false := by
        rw [← Bool.not_eq_true, leaves_along hrg']
        omega
      cases rest with
      | nil =>
        obtain ⟨j, hj, hjbefore⟩ := hlast rfl
        rw [← hend] at hj hjbefore
        obtain ⟨fuel, q, hloop⟩ := loop_firstMark (Q := fun x => along vmaid rg'.rgEnd < x)
          (fun rg newrg hrg hend hpast => hpass rg newrg hrg (by rwa [hend])) j { rg' with rgStart := rg'.rgEnd }
          (cutRg vmaid size rg') ⟨hrg'.2, hrg'.2⟩ rfl hj hjbefore
        refine ⟨fuel + 1, q, ?_⟩
        rw [getFreeLoop, if_pos hfit]
        simp only [hleaves, Bool.false_eq_true, if_false, hloop]
      | cons nextrg rest' =>
        obtain ⟨hnext, hrest'⟩ := List.forall_mem_cons.1 hrest
        obtain ⟨fuel, q, hloop⟩ := loop_of_ends
          (l := { rg' with rgStart := nextrg.rgStart, rgEnd := nextrg.rgEnd } :: rest')
          (cutRg vmaid size rg') hends (List.forall_mem_cons.2 ⟨hnext, hrest'⟩)
        refine ⟨fuel + 1, q, ?_⟩
        rw [getFreeLoop, if_pos hfit]
        simp only [hleaves, Bool.false_eq_true, if_false, hloop]
termination_by l => l.length

end Loop

/-- **The search of a free list returns** if and only if it passes the last node. -/
theorem getFreeVmrgArea_returns_iff {vmaid size : Int} {l : List VmRg} (h : ∀ rg ∈ l, rg.Words) :
    (∃ fuel q, getFreeVmrgArea fuel vmaid size l = some q) ↔ Ends vmaid size l := by
  constructor
  · rintro ⟨fuel, ⟨l', o⟩, hget⟩
    obtain ⟨newrg, hloop, -⟩ := getFreeVmrgArea_some hget
    exact ends_of_loop fuel hloop h
  · intro hends
    obtain ⟨fuel, ⟨l', newrg⟩, hloop⟩ := loop_of_ends ⟨vmaid, ulong (-1), ulong (-1)⟩ hends h
    refine ⟨fuel, ?_⟩
    rw [getFreeVmrgArea, hloop]
    dsimp only
    split <;> exact ⟨_, rfl⟩

/-- **A request of two bytes or more** whose test does not wrap round. -/
theorem ends_of_straight {vmaid size : Int} {l : List VmRg} (h : ∀ rg ∈ l, rg.Ordered vmaid) (h2 : 2 ≤ size)
    (hstraight : Straight vmaid size l) : Ends vmaid size l := by
  obtain ⟨fuel, hloop⟩ := getFreeLoop_sweep h2 ⟨vmaid, ulong (-1), ulong (-1)⟩ h hstraight
  exact ends_of_loop fuel hloop (fun rg hrg => (h rg hrg).words)

/-- **A request of one byte** comes to `rg_end` of the last node, again and again. -/
theorem not_ends_one {vmaid : Int} : ∀ {l : List VmRg}, l ≠ [] → (∀ rg ∈ l, rg.Ordered vmaid) → ¬ Ends vmaid 1 l
  | [], hne, _ => absurd rfl hne
  | [rg], _, h => by
    obtain hrg : rg.Ordered vmaid := h rg List.mem_cons_self
    have hword := along_word hrg.words vmaid
    have hnever : ∀ s, 0 ≤ s → s ≤ along vmaid rg.rgEnd →
        ¬ FirstMark 1 s (along vmaid rg.rgEnd) (fun x => along vmaid rg.rgEnd < x) := by
      rintro s hs0 hs ⟨k, hk, hbefore⟩
      have hmark : ∀ j : Nat, s + j ≤ along vmaid rg.rgEnd → mark 1 s j = s + j := by
        intro j hj
        unfold mark ulong
        omega
      rcases Nat.lt_or_ge (along vmaid rg.rgEnd - s).toNat k with hlt | hge
      · have hhit := hbefore _ hlt
        rw [hmark _ (by omega)] at hhit
        omega
      · rw [hmark k (by omega)] at hk
        omega
    rintro ⟨hpast | ⟨-, hpast⟩, -⟩
    · exact hnever _ hword.1.1 hrg.order hpast
    · exact hnever _ hword.2.1 le_rfl (hpast rfl)
  | rg :: nextrg :: rest, _, h => fun ⟨_, hends⟩ =>
    not_ends_one (List.cons_ne_nil _ _) (fun x hx => h x (List.mem_cons_of_mem _ hx)) hends

/-! ## The lists of a process -/

/-- A free list as a process has it: a node at least, and each with its start before its end. -/
def FreeNodes (vmaid : Int) (l : List VmRg) : Prop := l ≠ [] ∧ ∀ rg ∈ l, rg.Ordered vmaid

theorem getFreeLoop_freeNodes {vmaid size : Int} : ∀ (fuel : Nat) {l l' : List VmRg} {newrg newrg' : VmRg},
    getFreeLoop vmaid size fuel l newrg = some (l', newrg') → (l ≠ [] → l' ≠ []) ∧
      ((∀ rg ∈ l, rg.Ordered vmaid) → ∀ rg ∈ l', rg.Ordered vmaid)
  | _, [], _, _, _, h => by
    simp only [getFreeLoop, Option.some.injEq, Prod.mk.injEq] at h
    obtain ⟨rfl, -⟩ := h
    exact ⟨id, id⟩
  | 0, _ :: _, _, _, _, h => by simp [getFreeLoop] at h
  | fuel + 1, rg :: rest, l', newrg, newrg', h => by
    rw [getFreeLoop] at h
    split at h
    · rename_i hfit
      split at h
      · rename_i hleaves
        obtain ⟨hne, hkeep⟩ := getFreeLoop_freeNodes fuel h
        refine ⟨fun _ => hne (List.cons_ne_nil _ _), fun hall => hkeep ?_⟩
        obtain ⟨hrg, hrest⟩ := List.forall_mem_cons.1 hall
        refine List.forall_mem_cons.2 ⟨⟨hrg.area, shrinkRg_words hrg.words, ?_⟩, hrest⟩
        have hless := (leaves_along hrg.words).1 hleaves
        have hword := along_word hrg.words vmaid
        rw [shrinkRg_along hrg.words]
        change _ ≤ along vmaid rg.rgEnd
        unfold ulong at hless ⊢
        omega
      · split at h
        · rename_i nextrg rest'
          obtain ⟨hne, hkeep⟩ := getFreeLoop_freeNodes fuel h
          refine ⟨fun _ => hne (List.cons_ne_nil _ _), fun hall => hkeep ?_⟩
          obtain ⟨hrg, hrest⟩ := List.forall_mem_cons.1 hall
          rwa [takeOver_eq (hrg.area.trans (hrest nextrg List.mem_cons_self).area.symm)]
        · obtain ⟨hne, hkeep⟩ := getFreeLoop_freeNodes fuel h
          refine ⟨fun _ => hne (List.cons_ne_nil _ _), fun hall => hkeep ?_⟩
          have hrg := hall rg List.mem_cons_self
          exact List.forall_mem_cons.2 ⟨⟨hrg.area, ⟨hrg.words.2, hrg.words.2⟩, le_rfl⟩, fun _ hx => by cases hx⟩
    · split at h
      · rename_i rest' rg' hloop
        cases h
        refine ⟨fun _ => List.cons_ne_nil _ _, fun hall => ?_⟩
        obtain ⟨hrg, hrest⟩ := List.forall_mem_cons.1 hall
        exact List.forall_mem_cons.2 ⟨hrg, (getFreeLoop_freeNodes fuel hloop).2 hrest⟩
      · cases h

/-- The regions of a process are each of one of the two areas, and so are the nodes of its free lists. -/
structure Mm.Tidy (mm : Mm) : Prop where
  symrgtbl : ∀ i, ((mm.symrgtbl i).vmaid = 0 ∨ (mm.symrgtbl i).vmaid = 1) ∧ (mm.symrgtbl i).Words
  free0 : FreeNodes 0 mm.vma0.vmFreergList
  free1 : FreeNodes 1 mm.vma1.vmFreergList

theorem tidy_iff {mm : Mm} : mm.Tidy ↔ mm.Has (fun rg => (rg.vmaid = 0 ∨ rg.vmaid = 1) ∧ rg.Words) FreeNodes :=
  ⟨fun h => ⟨h.symrgtbl, h.free0, h.free1⟩, fun h => ⟨h.symrgtbl, h.free0, h.free1⟩⟩

theorem tidy_kept : Kept (fun rg => (rg.vmaid = 0 ∨ rg.vmaid = 1) ∧ rg.Words) FreeNodes where
  search := by
    rintro fuel vmaid size l l' o hv hget ⟨hne, hnodes⟩
    have hwords := (getFreeVmrgArea_words hget (fun rg hrg => (hnodes rg hrg).words)).2
    obtain ⟨newrg, hloop, ho⟩ := getFreeVmrgArea_some hget
    obtain ⟨hne', hkeep⟩ := getFreeLoop_freeNodes fuel hloop
    refine ⟨⟨hne' hne, hkeep hnodes⟩, fun rg hrg => ⟨?_, hwords rg hrg⟩⟩
    rw [ho] at hrg
    split at hrg
    · cases hrg
    · cases hrg
      rw [getFreeLoop_vmaid fuel hloop rfl]
      exact hv
  atBrk := fun hv _ _ => ⟨hv, ulong_word _, ulong_word _⟩
  emptied := fun hrg => ⟨hrg.1, zero_words _⟩
  enlisted := by
    rintro rg l ⟨harea, hwords⟩ hguard hl
    rw [vmaOf_of harea] at hl ⊢
    refine ⟨List.cons_ne_nil _ _, List.forall_mem_cons.2 ⟨⟨rfl, hwords, ?_⟩, hl.2⟩⟩
    rcases harea with hv | hv
    · rw [hv] at hguard ⊢
      unfold along
      simp only [if_true]
      omega
    · rw [hv] at hguard ⊢
      unfold along
      simp only [if_neg (show (1 : Int) ≠ 0 by decide)]
      omega

namespace Mm.Tidy

variable {mm : Mm}

theorem free (h : mm.Tidy) {vmaid : Int} (hv : vmaid = 0 ∨ vmaid = 1) :
    FreeNodes vmaid (mm.vma vmaid).vmFreergList := (tidy_iff.1 h).free hv

theorem init (vmemsz : Int) : (initMm zeroMm vmemsz).Tidy := by
  refine ⟨fun i => ⟨Or.inl rfl, words_zeroMm.symrgtbl i⟩, ⟨List.cons_ne_nil _ _, ?_⟩, ⟨List.cons_ne_nil _ _, ?_⟩⟩
  · exact List.forall_mem_cons.2 ⟨⟨rfl, ⟨ulong_word _, ulong_word _⟩, le_rfl⟩, fun _ hx => by cases hx⟩
  · exact List.forall_mem_cons.2 ⟨⟨rfl, ⟨ulong_word _, ulong_word _⟩, le_rfl⟩, fun _ hx => by cases hx⟩

end Mm.Tidy

theorem run_tidy {m₀ m : Machine} (h : Run anyCall m₀ m) (h0 : ∀ p, (m₀.mm p).Tidy) (p : Pid) : (m.mm p).Tidy :=
  tidy_iff.2 (tidy_kept.run h (fun p => tidy_iff.1 (h0 p)) p)

/-- **The search returns**, in every state reached, if and only if the request is of two bytes or more and the
search passes the last node. -/
theorem search_returns {vmemsz : Pid → Int} {m₀ m : Machine} (h0 : ∀ p, m₀.mm p = initMm zeroMm (vmemsz p))
    (hrun : Run anyCall m₀ m) (p : Pid) {vmaid size : Int} (hv : vmaid = 0 ∨ vmaid = 1) (h1 : 1 ≤ size) :
    (∃ fuel q, getFreeVmrgArea fuel vmaid size ((m.mm p).vma vmaid).vmFreergList = some q) ↔
      2 ≤ size ∧ Ends vmaid size ((m.mm p).vma vmaid).vmFreergList := by
  obtain ⟨hne, hnodes⟩ := (run_tidy hrun (fun p => h0 p ▸ Mm.Tidy.init _) p).free hv
  rw [getFreeVmrgArea_returns_iff (fun rg hrg => (hnodes rg hrg).words)]
  refine ⟨fun hends => ⟨?_, hends⟩, fun h => h.2⟩
  by_contra hlt
  obtain rfl : size = 1 := by omega
  exact not_ends_one hne hnodes hends

/-- The search for one byte in the list a process starts with. -/
theorem search_returns_fails :
    ¬ ∃ fuel q, getFreeVmrgArea fuel 0 1 (((boot 512 512 4096).mm 0).vma 0).vmFreergList = some q := by
  obtain ⟨hne, hnodes⟩ := (Mm.Tidy.init 4096).free (Or.inl rfl)
  intro hreturns
  exact not_ends_one hne hnodes ((getFreeVmrgArea_returns_iff (fun rg hrg => (hnodes rg hrg).words)).1 hreturns)

/-- The search for 100 bytes when a region of 300 has been freed. -/
theorem search_returns_freed : ∃ m, Run anyCall (boot 512 512 4096) m ∧
    ((m.mm 0).vma 0).vmFreergList = [⟨0, 0, 299⟩, ⟨0, 0, 0⟩] ∧
    ∃ fuel q, getFreeVmrgArea fuel 0 100 ((m.mm 0).vma 0).vmFreergList = some q := by
  have hsome : (runCalls (fun _ _ _ => true) 10 [(0, .pgalloc 300 0), (0, .pgfreeData 0)] (boot 512 512 4096)).any
      (fun q => ((q.1.mm 0).vma 0).vmFreergList = [⟨0, 0, 299⟩, ⟨0, 0, 0⟩]) = true := by
    decide +kernel
  obtain ⟨⟨m, rets⟩, hm, hq⟩ := (Option.any_eq_true _ _).1 hsome
  have hlist : ((m.mm 0).vma 0).vmFreergList = [⟨0, 0, 299⟩, ⟨0, 0, 0⟩] := of_decide_eq_true hq
  have hrun : Run anyCall (boot 512 512 4096) m := run_of_runCalls (fun _ _ _ _ => trivial) _ hm
  have h0 : ∀ p, (boot 512 512 4096).mm p = initMm zeroMm ((fun _ => 4096) p) := fun _ => rfl
  have hends : Ends 0 100 ((m.mm 0).vma 0).vmFreergList := by
    rw [hlist]
    -- the third piece ends with the region
    exact ⟨Or.inr ⟨⟨2, by decide, by decide⟩, fun h => by cases h⟩, Or.inl (firstMark_zero (by decide)), trivial⟩
  exact ⟨m, hrun, hlist, (search_returns h0 hrun 0 (Or.inl rfl) (by decide)).2 ⟨by decide, hends⟩⟩

end OsSim
