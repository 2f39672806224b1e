import OsSim.Moves
import OsSim.Vm
/-!
# Calls — what a completed call has done

Each call of `Vm` is read off once: the outcomes it can have, each with the state it leaves (`Allocated`, `Freed`,
`Accessed`).  The properties of a process's own memory go by cases on these; the properties of the shared structures go
by the steps a call is made of (`Act`): moves of the paging code, a byte stored, a process's `mm_struct` updated.
-/
namespace OsSim

open Atomic Code

/-- A byte of a page, where the page is now: in its RAM frame, in its swap frame, or nowhere. -/
def Machine.pageByte (m : Machine) (r : PteRef) (j : Nat) : Option Byte :=
  if (m.pgd r).present then some (m.mram.page (m.pgd r).fpn j)
  else if (m.pgd r).swapped then some (m.mswp.page (m.pgd r).swpoff j)
  else none

/-! ## A byte stored, a byte read -/

def Stored (r : PteRef) (vmaid : Int) (off : Nat) (v : Byte) (m m' : Machine) : Prop :=
  (m.pgd r).present = true ∧
    ∃ mp, memphyWrite m.mram (phyaddr vmaid (m.pgd r).fpn off) v = .ok mp ∧ m' = m.setDev .mram mp

theorem atTail_stored {r : PteRef} {vmaid : Int} {off : Nat} {v : Byte} {m m' : Machine}
    (h : Stored r vmaid off v m m') (htail : AtTail m r) : (m'.pgd r).present = true ∧ AtTail m' r := by
  obtain ⟨hpres, mp, -, rfl⟩ := h
  exact ⟨hpres, htail⟩

theorem run_pgSetval {p : Pid} {addr : Int} {v : Byte} {vmaid : Int} {m m' : Machine} {ret : Int}
    (h : run (pgSetval p addr v vmaid) m = .ok (m', ret)) :
    (ret = 0 ∧ ∃ m₁, Turn m m₁ ∧ AtTail m₁ ⟨p, pagingPgn addr⟩ ∧
        Stored ⟨p, pagingPgn addr⟩ vmaid (pagingOffst addr) v m₁ m') ∨
      (ret = -1 ∧ Turn m m' ∧ Event.outOfSwap ∈ m'.trace) := by
  obtain ⟨m₁, o, hget, h⟩ := run_bind_ok.1 h
  rcases run_pgGetpage hget with ⟨rfl, hturn, hpres, htail⟩ | ⟨rfl, hturn, hswp⟩
  · obtain ⟨m₂, _, hstore, h⟩ := run_bind_ok.1 h
    cases h
    obtain ⟨m₃, _, hstep, hret⟩ := run_op_ok.1 hstore
    cases hret
    refine Or.inl ⟨rfl, m₁, hturn, htail, hpres, ?_⟩
    obtain ⟨mp, hwrite, heq⟩ := map_ok hstep
    cases heq
    exact ⟨mp, hwrite, rfl⟩
  · cases h
    exact Or.inr ⟨rfl, hturn, hswp⟩

theorem run_pgGetval {p : Pid} {addr : Int} {vmaid : Int} {m m' : Machine} {o : Option Byte}
    (h : run (pgGetval p addr vmaid) m = .ok (m', o)) :
    Turn m m' ∧
      (AtTail m' ⟨p, pagingPgn addr⟩ ∧ (m'.pgd ⟨p, pagingPgn addr⟩).present = true ∧
          memphyRead m'.mram (phyaddr vmaid (m'.pgd ⟨p, pagingPgn addr⟩).fpn (pagingOffst addr)) = .ok o ∨
        Event.outOfSwap ∈ m'.trace) := by
  obtain ⟨m₁, o', hget, h⟩ := run_bind_ok.1 h
  rcases run_pgGetpage hget with ⟨rfl, hturn, hpres, htail⟩ | ⟨rfl, hturn, hswp⟩
  · obtain ⟨m₃, b, hstep, hret⟩ := run_op_ok.1 h
    cases hret
    obtain ⟨b, hread, heq⟩ := map_ok hstep
    cases heq
    exact ⟨hturn, Or.inl ⟨htail, hpres, hread⟩⟩
  · cases h
    exact ⟨hturn, Or.inr hswp⟩

/-! ## `__alloc`: a region reused -/

abbrev Turns : Machine → Machine → Prop := Relation.ReflTransGen Turn

theorem turns_mm {m m' : Machine} (h : Turns m m') : m'.mm = m.mm := by
  induction h with
  | refl => rfl
  | tail _ hd ih => rw [hd.mm_eq, ih]

theorem mapsOf_turn {p : Pid} {vmaid : Int} {m m' : Machine} (h : Turn m m') :
    mapsOf p vmaid m'.trace = mapsOf p vmaid m.trace := by
  cases h <;> simp [Machine.placed, Machine.referenced, Machine.addLru, Machine.evicted, mapsOf_append, mapsOf]

theorem mapsOf_turns {p : Pid} {vmaid : Int} {m m' : Machine} (h : Turns m m') :
    mapsOf p vmaid m'.trace = mapsOf p vmaid m.trace := by
  induction h with
  | refl => rfl
  | tail _ hd ih => rw [mapsOf_turn hd, ih]

section Reuse

variable {m m' : Machine} {r : PteRef}

theorem run_reuseSwapIn {o : Option Nat} (hpte : (m.pgd r).present = false)
    (h : run (reuseSwapIn r (m.pgd r)) m = .ok (m', o)) :
    (∃ f, o = some f ∧ Turn m m' ∧ (m'.pgd r).present = true ∧ (m'.pgd r).fpn = f % 8192 ∧ AtTail m' r) ∨
      (o = none ∧ Turn m m' ∧ Event.outOfSwap ∈ m'.trace) := by
  rw [reuseSwapIn] at h
  obtain ⟨vic, swpfpn, m₀, htaken, h⟩ := run_victimAndFrame h
  cases htaken with
  | neither hlru hswp =>
    cases h
    exact Or.inr ⟨rfl, .loseNone hlru hswp, by simp⟩
  | noVictim hlru hswp => cases h
  | noFrame hlru hswp =>
    cases h
    exact Or.inr ⟨rfl, .lose hlru hswp, by simp⟩
  | both hlru hswp =>
    simp only [theVictim, run_pure_bind] at h
    obtain ⟨m₁, _, hout, h⟩ := run_bind_ok.1 h
    rw [run_swapCpPage (by decide) hout, run_setSwap] at h
    obtain ⟨m₂, _, hin, h⟩ := run_bind_ok.1 h
    rw [run_swapCpPage (by decide) hin] at h
    simp only [run_setFpn, run_addLruPage, run_putFreefp, run_note, run_pure, Machine.setFree_addLru,
      Machine.setFree_setPte, Machine.setPte_dev, Machine.addLru_dev, Machine.copyPage_setPte,
      Machine.copyPage_freeFpList, Machine.setFree_freeFpList] at h
    have hmove : Turn m _ := .replace r hlru hswp hpte
    simp only [Machine.evicted, Machine.placed, Machine.referenced, Machine.copyPage_setPte, Machine.setFree_setPte,
      Machine.addLru_noted] at hmove
    cases h
    exact Or.inl ⟨_, rfl, hmove, by simp, by simp [fpn_pteSetFpn], atTail_referenced _ r⟩

theorem run_reusePage {b : Bool} (h : run (reusePage r) m = .ok (m', b)) :
    (b = true ∧ Turns m m' ∧ m'.lru ≠ []) ∨ (b = false ∧ Turns m m' ∧ Event.outOfSwap ∈ m'.trace) := by
  rw [reusePage, run_readPte] at h
  -- once the page is present, the rest is the visit
  have hvisit : ∀ {m₁ : Machine} {f : Nat}, (m₁.pgd r).present = true → (m₁.pgd r).fpn = f % 8192 →
      (m.pgd r = m₁.pgd r ∨ AtTail m₁ r) → run (do
        Code.updateLruLst (.copy (m.pgd r))
        Code.note (.reused r (m.pgd r) f)
        Code.note (.reference r)
        pure true) m₁ = .ok (m', b) → b = true ∧ Turn m₁ m' ∧ m'.lru ≠ [] := by
    intro m₁ f hpres hf hwho hrun
    by_cases hlru : m₁.lru = []
    · rw [run_updateLruLst_nil m₁ hlru] at hrun
      cases hrun
    · rw [run_updateLruLst m₁ hlru] at hrun
      cases hrun
      exact ⟨rfl, .revisit r (m.pgd r) hpres hf hlru hwho, Lru.moveToTail_ne_nil hlru⟩
  by_cases hpte : (m.pgd r).present = true
  · simp only [hpte, if_true, run_pure_bind] at h
    obtain ⟨rfl, hturn, hne⟩ := hvisit hpte (Nat.mod_eq_of_lt (fpn_lt _)).symm (Or.inl rfl) h
    exact Or.inl ⟨rfl, .single hturn, hne⟩
  · have hpte' : (m.pgd r).present = false := by simpa using hpte
    simp only [hpte', Bool.false_eq_true, if_false] at h
    obtain ⟨m₁, o, hin, h⟩ := run_bind_ok.1 h
    rcases run_reuseSwapIn hpte' hin with ⟨f, rfl, hturn, hpres, hf, htail⟩ | ⟨rfl, hturn, hswp⟩
    · obtain ⟨rfl, hturn', hne⟩ := hvisit hpres hf (Or.inr htail) h
      exact Or.inl ⟨rfl, .head hturn (.single hturn'), hne⟩
    · cases h
      exact Or.inr ⟨rfl, .single hturn, hswp⟩

theorem run_reuseLoop {p : Pid} {vmaid last : Int} : ∀ (fuel : Nat) {m : Machine} {i ret : Int},
    run (reuseLoop p vmaid last fuel i) m = .ok (m', ret) →
      Turns m m' ∧ (ret = 0 ∨ ret = -3000 ∧ Event.outOfSwap ∈ m'.trace)
  | 0, m, i, ret, h => by cases h
  | fuel + 1, m, i, ret, h => by
    rw [reuseLoop] at h
    split at h
    · cases h
      exact ⟨.refl, Or.inl rfl⟩
    · obtain ⟨m₁, r, hr, h⟩ := run_bind_ok.1 h
      obtain ⟨m₂, b, hpage, hloop⟩ := run_bind_ok.1 h
      obtain ⟨rfl, -, -⟩ := run_pgdAt hr
      rcases run_reusePage hpage with ⟨rfl, hturns, -⟩ | ⟨rfl, hturns, hswp⟩
      · obtain ⟨hrest, hret⟩ := run_reuseLoop fuel hloop
        exact ⟨hturns.trans hrest, hret⟩
      · cases hloop
        exact ⟨hturns, Or.inr ⟨rfl, hswp⟩⟩

end Reuse

/-! ## `__alloc`: the outcomes -/

def grownMm (mm : Mm) (vmaid size : Int) : Mm := mm.setVmEnd vmaid (newVmEnd mm vmaid size)

/-- **What a completed `__alloc` has done**, by how it went. -/
inductive Allocated (fuel : Nat) (p : Pid) (vmaid rgid size : Int) (m : Machine) : Machine → Int → Prop where
  /-- A free region had room. -/
  | reused {l rg m' ret} (hid : 0 ≤ rgid ∧ rgid < 30)
      (hget : getFreeVmrgArea fuel vmaid size ((m.mm p).vma vmaid).vmFreergList = some (l, some rg))
      (hturns : Turns (m.setMm p (((m.mm p).setFreerg vmaid l).setSymrg rgid.toNat rg)) m')
      (hret : ret = 0 ∨ ret = -3000 ∧ Event.outOfSwap ∈ m'.trace) :
      Allocated fuel p vmaid rgid size m m' ret
  /-- Out of virtual memory, or the areas would overlap. -/
  | refused {l} (hget : getFreeVmrgArea fuel vmaid size ((m.mm p).vma vmaid).vmFreergList = some (l, none))
      (hwhy : outOfVirtual (m.mm p) vmaid size = true ∨
        pastVmEnd (m.mm p) vmaid size = true ∧ overlapRefused (m.mm p) vmaid size = true) :
      Allocated fuel p vmaid rgid size m (m.setMm p ((m.mm p).setFreerg vmaid l)) (-1)
  /-- The area had room at its break. -/
  | fitted {l} (hid : 0 ≤ rgid ∧ rgid < 30)
      (hget : getFreeVmrgArea fuel vmaid size ((m.mm p).vma vmaid).vmFreergList = some (l, none))
      (hvirt : outOfVirtual (m.mm p) vmaid size = false) (hpast : pastVmEnd (m.mm p) vmaid size = false) :
      Allocated fuel p vmaid rgid size m
        (m.setMm p (commitRegion ((m.mm p).setFreerg vmaid l) vmaid rgid.toNat size)) 0
  /-- The area grew, and its new pages were mapped. -/
  | grown {l m₂} (hid : 0 ≤ rgid ∧ rgid < 30)
      (hget : getFreeVmrgArea fuel vmaid size ((m.mm p).vma vmaid).vmFreergList = some (l, none))
      (hvirt : outOfVirtual (m.mm p) vmaid size = false) (hpast : pastVmEnd (m.mm p) vmaid size = true)
      (hover : overlapRefused (m.mm p) vmaid size = false)
      (hmoves : Moves [] (m.setMm p (grownMm ((m.mm p).setFreerg vmaid l) vmaid size)) [] m₂)
      (hmaps : mapsOf p vmaid m₂.trace = mapsOf p vmaid m.trace ++
        vmapPages vmaid (mapPgn (m.mm p) vmaid (int32 ((m.mm p).vma vmaid).vmEnd)) (incNumpage (m.mm p) vmaid size).toNat)
      (hother : ∀ p' vmaid', ¬(p' = p ∧ vmaid' = vmaid) → mapsOf p' vmaid' m₂.trace = mapsOf p' vmaid' m.trace) :
      Allocated fuel p vmaid rgid size m
        (m₂.setMm p (commitRegion (grownMm ((m.mm p).setFreerg vmaid l) vmaid size) vmaid rgid.toNat size)) 0

theorem run_symrgAt {rgid : Int} {m m' : Machine} {i : Nat} (h : run (symrgAt rgid) m = .ok (m', i)) :
    m' = m ∧ i = rgid.toNat ∧ 0 ≤ rgid ∧ rgid < 30 := by
  unfold symrgAt at h
  split at h
  · rename_i hid
    cases h
    exact ⟨rfl, rfl, hid⟩
  · cases h

theorem run_incVmaLimit {p : Pid} {vmaid size : Int} {m m' : Machine} {ret : Int}
    (h : run (incVmaLimit p vmaid size) m = .ok (m', ret)) :
    (ret = -1 ∧ m' = m ∧ overlapRefused (m.mm p) vmaid size = true) ∨
      (ret = 0 ∧ overlapRefused (m.mm p) vmaid size = false ∧
        Moves [] (m.setMm p (grownMm (m.mm p) vmaid size)) [] m' ∧
        mapsOf p vmaid m'.trace = mapsOf p vmaid m.trace ++
          vmapPages vmaid (mapPgn (m.mm p) vmaid (int32 ((m.mm p).vma vmaid).vmEnd))
            (incNumpage (m.mm p) vmaid size).toNat ∧
        ∀ p' vmaid', ¬(p' = p ∧ vmaid' = vmaid) → mapsOf p' vmaid' m'.trace = mapsOf p' vmaid' m.trace) := by
  rw [incVmaLimit, run_getMm] at h
  by_cases hover : overlapRefused (m.mm p) vmaid size = true
  · rw [if_pos hover] at h
    cases h
    exact Or.inl ⟨rfl, rfl, hover⟩
  · have hover' : overlapRefused (m.mm p) vmaid size = false := by simpa using hover
    rw [if_neg hover, run_setMm] at h
    obtain ⟨m₂, ret', hmap, h⟩ := run_bind_ok.1 h
    obtain ⟨rfl, hms, hmaps, hother⟩ := run_vmMapRam hmap
    cases h
    refine Or.inr ⟨rfl, hover', hms, ?_, hother⟩
    simpa [mapPgn] using hmaps

theorem run_alloc {fuel : Nat} {p : Pid} {vmaid rgid size : Int} {m m' : Machine} {ret : Int}
    (h : run (alloc fuel p vmaid rgid size) m = .ok (m', ret)) : Allocated fuel p vmaid rgid size m m' ret := by
  rw [alloc, run_getMm] at h
  split at h
  · cases h
  · rename_i l rg hget
    obtain ⟨m₁, i, hi, h⟩ := run_bind_ok.1 h
    obtain ⟨rfl, rfl, hid⟩ := run_symrgAt hi
    rw [run_setMm] at h
    obtain ⟨hturns, hret⟩ := run_reuseLoop _ h
    exact .reused hid hget hturns hret
  · rename_i l hget
    rw [run_setMm, allocAtBrk, run_getMm] at h
    simp only [Machine.setMm_mm, Function.update_self, outOfVirtual_setFreerg, pastVmEnd_setFreerg] at h
    split at h
    · rename_i hvirt
      cases h
      exact .refused hget (Or.inl hvirt)
    · rename_i hvirt
      have hvirt' : outOfVirtual (m.mm p) vmaid size = false := by simpa using hvirt
      by_cases hpast : pastVmEnd (m.mm p) vmaid size = true
      · simp only [hpast, if_true] at h
        obtain ⟨m₁, ret', hinc, h⟩ := run_bind_ok.1 h
        have hcases := run_incVmaLimit hinc
        simp only [Machine.setMm_mm, Function.update_self, Machine.setMm_setMm, overlapRefused_setFreerg,
          incNumpage_setFreerg, vmEnd_setFreerg, Machine.setMm_trace] at hcases
        rcases hcases with ⟨rfl, rfl, hover⟩ | ⟨rfl, hover, hms, hmaps, hother⟩
        · cases h
          exact .refused hget (Or.inr ⟨hpast, hover⟩)
        · obtain ⟨m₂, i, hi, h⟩ := run_bind_ok.1 h
          obtain ⟨rfl, rfl, hid⟩ := run_symrgAt hi
          simp only [run_getMm, run_setMm, run_pure] at h
          cases h
          rw [moves_mm hms]
          simp only [Machine.setMm_mm, Function.update_self]
          exact .grown hid hget hvirt' hpast hover hms (by simpa [mapPgn] using hmaps) hother
      · have hpast' : pastVmEnd (m.mm p) vmaid size = false := by simpa using hpast
        simp only [hpast', Bool.false_eq_true, if_false, run_pure_bind] at h
        obtain ⟨m₂, i, hi, h⟩ := run_bind_ok.1 h
        obtain ⟨rfl, rfl, hid⟩ := run_symrgAt hi
        simp only [run_getMm, run_setMm, run_pure, Machine.setMm_mm, Function.update_self, Machine.setMm_setMm] at h
        cases h
        exact .fitted hid hget hvirt' hpast'

/-! ## `__free`, `__read`, `__write`: the outcomes -/

def StoreStep (S : PteRef → Int → Nat → Prop) (m m' : Machine) : Prop :=
  Turn m m' ∨ ∃ r vmaid off v, S r vmaid off ∧ Stored r vmaid off v m m'

abbrev Stores (S : PteRef → Int → Nat → Prop) : Machine → Machine → Prop := Relation.ReflTransGen (StoreStep S)

theorem stored_mm {r : PteRef} {vmaid : Int} {off : Nat} {v : Byte} {m m' : Machine} (h : Stored r vmaid off v m m') :
    m'.mm = m.mm := by
  obtain ⟨-, mp, -, rfl⟩ := h
  exact m.setDev_mm .mram mp

theorem stores_mm {S : PteRef → Int → Nat → Prop} {m m' : Machine} (h : Stores S m m') : m'.mm = m.mm := by
  induction h with
  | refl => rfl
  | tail _ hd ih =>
    rcases hd with hturn | ⟨r, vmaid, off, v, -, hstored⟩
    · rw [hturn.mm_eq, ih]
    · rw [stored_mm hstored, ih]

def wipes (p : Pid) (rg : VmRg) (r : PteRef) (vmaid : Int) (off : Nat) : Prop :=
  vmaid = rg.vmaid ∧ ∃ k : Nat, k < (rg.rgEnd - rg.rgStart).toNat ∧
    r = ⟨p, pagingPgn (rg.rgStart + k)⟩ ∧ off = pagingOffst (rg.rgStart + k)

def freedMm (mm : Mm) (i : Nat) : Mm :=
  let rg := mm.symrgtbl i
  (mm.setSymrg i { rg with rgStart := 0, rgEnd := 0 }).enlisted rg.vmaid rg

/-- **What a completed `__free` has done.** -/
inductive Freed (p : Pid) (rgid : Int) (m : Machine) : Machine → Int → Prop where
  | refused (hwhy : 0 ≤ rgid ∧ rgid < 30 →
      ((m.mm p).symrgtbl rgid.toNat).rgStart = ((m.mm p).symrgtbl rgid.toNat).rgEnd) : Freed p rgid m m (-1)
  | freed {m₁} (hid : 0 ≤ rgid ∧ rgid < 30)
      (hrg : ((m.mm p).symrgtbl rgid.toNat).rgStart ≠ ((m.mm p).symrgtbl rgid.toNat).rgEnd)
      (hvma : getVmaByNum (m.mm p) ((m.mm p).symrgtbl rgid.toNat).vmaid ≠ none)
      (hstores : Stores (wipes p ((m.mm p).symrgtbl rgid.toNat)) m m₁) :
      Freed p rgid m (m₁.setMm p (freedMm (m.mm p) rgid.toNat)) 0

theorem run_getSymrgByid {mm : Mm} {rgid : Int} {m m' : Machine} {i : Nat × VmRg}
    (h : run (getSymrgByid mm rgid) m = .ok (m', i)) :
    m' = m ∧ i = (rgid.toNat, mm.symrgtbl rgid.toNat) ∧ 0 ≤ rgid ∧ rgid < 30 := by
  unfold getSymrgByid at h
  split at h
  · cases h
  · split at h
    · cases h
    · cases h
      refine ⟨rfl, rfl, ?_⟩
      simp only [pagingMaxSymtblSz] at *
      omega

/-- **`enlist_vm_freerg_list` was given an area** if the code went on after it. -/
theorem run_enlisted {α : Type} {mm : Mm} {vmaid : Int} {rg : VmRg} {k : Mm → Code α} {m m' : Machine} {a : α}
    (h : run (match enlistVmFreergList mm vmaid rg with | none => Code.fault .nullPointer | some mm' => k mm') m =
      .ok (m', a)) : getVmaByNum mm vmaid ≠ none ∧ run (k (mm.enlisted vmaid rg)) m = .ok (m', a) := by
  rw [enlistVmFreergList] at h
  cases hvma : getVmaByNum mm vmaid with
  | none =>
    rw [hvma] at h
    cases h
  | some vma =>
    rw [hvma] at h
    exact ⟨Option.some_ne_none vma, h⟩

theorem run_free {p : Pid} {rgid : Int} {m m' : Machine} {ret : Int} (h : run (free p rgid) m = .ok (m', ret)) :
    Freed p rgid m m' ret := by
  rw [free, run_getMm] at h
  split at h
  · rename_i hid
    cases h
    refine .refused (fun hid' => ?_)
    simp only [pagingMaxSymtblSz] at hid
    omega
  · obtain ⟨m₀, ⟨i, rg⟩, hsym, h⟩ := run_bind_ok.1 h
    obtain ⟨rfl, hi, hid⟩ := run_getSymrgByid hsym
    cases hi
    dsimp only at h
    split at h
    · rename_i hrg
      cases h
      exact .refused (fun _ => hrg)
    · rename_i hrg
      obtain ⟨m₁, _, hloop, h⟩ := run_bind_ok.1 h
      have hstores : Stores (wipes p ((m₀.mm p).symrgtbl rgid.toNat)) m₀ m₁ := by
        refine exec_loop_ok step (fun _ s => Stores (wipes p ((m₀.mm p).symrgtbl rgid.toNat)) m₀ s) ?_ .refl hloop
        intro k s₁ s₂ _ hk hs hturn
        obtain ⟨s₃, ret', hset, hret⟩ := run_bind_ok.1 hturn
        cases hret
        refine hs.trans ?_
        rcases run_pgSetval hset with ⟨-, s₄, hturn', -, hstored⟩ | ⟨-, hturn', -⟩
        · refine .head (Or.inl hturn') (.single (Or.inr ⟨_, _, _, _, ⟨rfl, k, by omega, ?_, ?_⟩, hstored⟩))
          · rw [pagingPgn_congr (int32_emod _)]
          · rw [pagingOffst_congr (int32_emod _)]
        · exact .single (Or.inl hturn')
      rw [run_getMm, stores_mm hstores] at h
      obtain ⟨hvma, h⟩ := run_enlisted h
      cases h
      exact .freed hid hrg hvma hstores

def Accessible (mm : Mm) (rgid offset : Int) : Prop :=
  0 ≤ rgid ∧ rgid < 30 ∧ getVmaByNum mm (mm.symrgtbl rgid.toNat).vmaid ≠ none ∧
    (mm.symrgtbl rgid.toNat).rgStart ≠ (mm.symrgtbl rgid.toNat).rgEnd ∧
    outOfRg (mm.symrgtbl rgid.toNat) offset = false

instance (mm : Mm) (rgid offset : Int) : Decidable (Accessible mm rgid offset) := inferInstanceAs (Decidable (_ ∧ _))

def accessPage (p : Pid) (mm : Mm) (rgid offset : Int) : PteRef :=
  ⟨p, pagingPgn (rgAddr (mm.symrgtbl rgid.toNat) offset)⟩

def accessOff (mm : Mm) (rgid offset : Int) : Nat := pagingOffst (rgAddr (mm.symrgtbl rgid.toNat) offset)

theorem run_accessRg {p : Pid} {rgid offset : Int} {m m' : Machine} {o : Option VmRg}
    (h : run (accessRg p rgid offset) m = .ok (m', o)) :
    m' = m ∧ (o = none ∨ o = some ((m.mm p).symrgtbl rgid.toNat) ∧ Accessible (m.mm p) rgid offset) := by
  rw [accessRg, run_getMm] at h
  obtain ⟨m₀, ⟨i, rg⟩, hsym, h⟩ := run_bind_ok.1 h
  obtain ⟨rfl, hi, hid, hid'⟩ := run_getSymrgByid hsym
  cases hi
  dsimp only at h
  split at h
  · cases h; exact ⟨rfl, Or.inl rfl⟩
  · split at h
    · cases h; exact ⟨rfl, Or.inl rfl⟩
    · split at h
      · cases h; exact ⟨rfl, Or.inl rfl⟩
      · rename_i hvma hrg hout
        cases h
        exact ⟨rfl, Or.inr ⟨rfl, hid, hid', hvma, hrg, by simpa using hout⟩⟩

theorem run_retouch {α : Type} {r : PteRef} {a b : α} {m m' : Machine}
    (hwho : (m.pgd r).present = true ∧ AtTail m r ∨ Event.outOfSwap ∈ m.trace)
    (h : run (do Code.updateLruLst (.entry r); pure a) m = .ok (m', b)) :
    b = a ∧ m' = m.setLru (Lru.moveToTail (m.pgd r).fpn m.lru) ∧ Turn m m' := by
  by_cases hlru : m.lru = []
  · rw [run_updateLruLst_nil m hlru] at h
    cases h
  · rw [run_updateLruLst m hlru] at h
    cases h
    exact ⟨rfl, rfl, .retouch r hlru hwho⟩

theorem run_read {p : Pid} {rgid offset : Int} {m m' : Machine} {ret : Ret}
    (h : run (read p rgid offset) m = .ok (m', ret)) :
    (ret = (-1, none) ∧ m' = m) ∨
      (ret.1 = 0 ∧ Accessible (m.mm p) rgid offset ∧ ∃ m₁, Turn m m₁ ∧ Turn m₁ m' ∧
        ((m₁.pgd (accessPage p (m.mm p) rgid offset)).present = true ∧
            memphyRead m₁.mram (phyaddr ((m.mm p).symrgtbl rgid.toNat).vmaid
              (m₁.pgd (accessPage p (m.mm p) rgid offset)).fpn (accessOff (m.mm p) rgid offset)) = .ok ret.2 ∨
          Event.outOfSwap ∈ m₁.trace)) := by
  obtain ⟨m₀, o, hacc, h⟩ := run_bind_ok.1 h
  obtain ⟨rfl, rfl | ⟨rfl, haccess⟩⟩ := run_accessRg hacc
  · cases h
    exact Or.inl ⟨rfl, rfl⟩
  · obtain ⟨m₁, data, hget, h⟩ := run_bind_ok.1 h
    obtain ⟨hturn, hdata⟩ := run_pgGetval hget
    rw [pagingPgn_congr (int32_emod _), pagingOffst_congr (int32_emod _)] at hdata
    obtain ⟨rfl, -, hturn'⟩ := run_retouch (hdata.imp_left fun hd => ⟨hd.2.1, hd.1⟩) h
    exact Or.inr ⟨rfl, haccess, m₁, hturn, hturn', hdata.imp_left And.right⟩

theorem run_write {p : Pid} {rgid offset : Int} {v : Byte} {m m' : Machine} {ret : Int}
    (h : run (write p rgid offset v) m = .ok (m', ret)) :
    (ret = -1 ∧ m' = m) ∨
      (ret = 0 ∧ Accessible (m.mm p) rgid offset ∧ ∃ m₁ m₂, Turn m m₁ ∧ Turn m₂ m' ∧
        (Stored (accessPage p (m.mm p) rgid offset) (if ((m.mm p).symrgtbl rgid.toNat).vmaid = 0 then 0 else 1)
            (accessOff (m.mm p) rgid offset) v m₁ m₂ ∨
          m₂ = m₁ ∧ Event.outOfSwap ∈ m₁.trace)) := by
  obtain ⟨m₀, o, hacc, h⟩ := run_bind_ok.1 h
  obtain ⟨rfl, rfl | ⟨rfl, haccess⟩⟩ := run_accessRg hacc
  · cases h
    exact Or.inl ⟨rfl, rfl⟩
  · obtain ⟨m₂, ret', hset, h⟩ := run_bind_ok.1 h
    rcases run_pgSetval hset with ⟨-, m₁, hturn, htail, hstored⟩ | ⟨-, hturn, hswp⟩
    · rw [pagingPgn_congr (int32_emod _)] at htail hstored
      rw [pagingOffst_congr (int32_emod _)] at hstored
      obtain ⟨rfl, -, hturn'⟩ := run_retouch (Or.inl (atTail_stored hstored htail)) h
      exact Or.inr ⟨rfl, haccess, m₁, m₂, hturn, hturn', Or.inl hstored⟩
    · obtain ⟨rfl, -, hturn'⟩ := run_retouch (Or.inr hswp) h
      exact Or.inr ⟨rfl, haccess, m₂, m₂, hturn, hturn', Or.inr ⟨rfl, hswp⟩⟩

theorem read_mm {p : Pid} {rgid offset : Int} {m m' : Machine} {ret : Ret}
    (h : run (read p rgid offset) m = .ok (m', ret)) :
    m'.mm = m.mm := by
  rcases run_read h with ⟨-, rfl⟩ | ⟨-, -, m₁, hturn, hturn', -⟩
  · rfl
  · exact hturn'.mm_eq.trans hturn.mm_eq

theorem write_mm {p : Pid} {rgid offset : Int} {v : Byte} {m m' : Machine} {ret : Int}
    (h : run (write p rgid offset v) m = .ok (m', ret)) : m'.mm = m.mm := by
  rcases run_write h with ⟨-, rfl⟩ | ⟨-, -, m₁, m₂, hturn, hturn', hstore⟩
  · rfl
  · have hmid : m₂.mm = m₁.mm := by
      rcases hstore with hstored | ⟨rfl, -⟩
      · exact stored_mm hstored
      · rfl
    exact hturn'.mm_eq.trans (hmid.trans hturn.mm_eq)

end OsSim
