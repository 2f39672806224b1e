import OsSim.Mutexes
import OsSim.Requests
/-!
# Isolation — in the simulator a process's layout follows from its own program

`Requests` shows it of calls that do not overlap.  Here the calls are made an operation at a time, among those of all
the other CPUs, and each process is moved from CPU to CPU.
-/
namespace OsSim

open Atomic Code Prog System

/-! ## What a call makes of its caller's `mm_struct`, an operation at a time -/

def Op.offMm : Op → Prop
  | .getMm _ | .setMm _ _ => False
  | _ => True

def Op.ownMm (p : Pid) : Op → Prop
  | .getMm q | .setMm q _ => q = p
  | _ => True

/-- What an operation of process `p` does to its `mm_struct`. -/
def mmStep : Mm → (o : Op) → o.Res → Mm → Prop
  | mm, .getMm _, r, mm' => r = mm ∧ mm' = mm
  | _, .setMm _ v, _, mm' => mm' = v
  | mm, _, _, mm' => mm' = mm

/-- The program of process `p`, begun with an `mm_struct`, ends in `Q`. -/
abbrev OnMm (p : Pid) {α : Type} (Q : Mm → α → Prop) (c : Code α) (mm : Mm) : Prop :=
  c.Follows mmStep (Op.ownMm p) Q mm

theorem Op.offMm_step {p : Pid} {o : Op} (ho : o.offMm) :
    o.ownMm p ∧ ∀ {mm mm' : Mm} {r : o.Res}, mmStep mm o r mm' → mm' = mm := by
  cases o with
  | getMm q => exact absurd ho id
  | setMm q mm => exact absurd ho id
  | _ => exact ⟨trivial, fun h => h⟩

theorem step_offMm {o : Op} {m m' : Machine} {r : o.Res} (ho : o.offMm) (h : OsSim.step o m = .ok (m', r)) :
    m'.mm = m.mm := by
  cases o with
  | getMm q | setMm q mm => exact absurd ho id
  | lock l | unlock l | readPte q | addLruPage q | setSwap q t f | setFpn q f | note e =>
    cases h
    rfl
  | getFreefp d | putFreefp d f =>
    cases h
    exact m.setDev_mm d _
  | read d a | load q a =>
    obtain ⟨b, -, heq⟩ := map_ok h
    cases heq
    rfl
  | write d a b =>
    obtain ⟨mp, -, heq⟩ := map_ok h
    cases heq
    exact m.setDev_mm d _
  | store q a b =>
    obtain ⟨mp, -, heq⟩ := map_ok h
    cases heq
    rfl
  | findLruVictimPage | updateLruLst ptr =>
    simp only [OsSim.step] at h
    split at h <;> cases h
    all_goals rfl
  | fault f => cases h

/-- **An operation of process `p`** does to its `mm_struct` what `mmStep` says, and nothing to the others. -/
theorem step_ownMm {p : Pid} {o : Op} {m m' : Machine} {r : o.Res} (hown : o.ownMm p)
    (h : OsSim.step o m = .ok (m', r)) : mmStep (m.mm p) o r (m'.mm p) ∧ ∀ q, q ≠ p → m'.mm q = m.mm q := by
  cases o with
  | getMm q =>
    obtain rfl : q = p := hown
    cases h
    exact ⟨⟨rfl, rfl⟩, fun _ _ => rfl⟩
  | setMm q mm =>
    obtain rfl : q = p := hown
    cases h
    exact ⟨Function.update_self .., fun _ hq => Function.update_of_ne hq ..⟩
  | _ =>
    have hmm := step_offMm (by trivial) h
    exact ⟨congrFun hmm p, fun q _ => congrFun hmm q⟩

/-! ### The parts that are on no `mm_struct` -/

section Off

variable {α β : Type} {p : Pid}

theorem off_op {o : Op} {f : o.Res → Code β} {Q : β → Prop} (ho : o.offMm) (hf : ∀ a, (f a).Within Op.offMm Q) :
    ((.op o .ret : Code o.Res) >>= f).Within Op.offMm Q :=
  ⟨ho, hf⟩

theorem off_fault {e : Fault} {Q : α → Prop} : (fault e : Code α).Within Op.offMm Q :=
  ⟨trivial, fun e => nomatch e⟩

theorem off_swapCpPage (src : Dev) (srcfpn : Nat) (dst : Dev) (dstfpn : Nat) :
    (swapCpPage src srcfpn dst dstfpn).Within Op.offMm (fun _ => True) := by
  unfold swapCpPage
  refine Within.loop (fun j => ?_) _ _
  refine @off_op _ (.read src _) _ _ trivial (fun data => ?_)
  cases data with
  | none => exact off_fault
  | some data => exact ⟨trivial, fun _ => trivial⟩

theorem off_theVictim (vic : Option LruNode) : (theVictim vic).Within Op.offMm (fun _ => True) := by
  cases vic with
  | none => exact off_fault
  | some v => trivial

theorem off_pgdAt (i : Int) : (pgdAt p i).Within Op.offMm (fun _ => True) := by
  unfold pgdAt
  split
  · trivial
  · exact off_fault

theorem off_symrgAt (rgid : Int) : (symrgAt rgid).Within Op.offMm (fun i => i = rgid.toNat) := by
  unfold symrgAt
  split
  · rfl
  · exact off_fault

theorem off_getSymrgByid (mm : Mm) (rgid : Int) : (getSymrgByid mm rgid).Within Op.offMm
    (fun q => q = (rgid.toNat, mm.symrgtbl rgid.toNat) ∧ 0 ≤ rgid ∧ rgid < 30) := by
  unfold getSymrgByid
  split
  · exact off_fault
  · split
    · exact off_fault
    · refine ⟨rfl, ?_⟩
      simp only [pagingMaxSymtblSz] at *
      omega

theorem off_pgReplace (r : PteRef) (pte : Pte) : (pgReplace r pte).Within Op.offMm (fun _ => True) := by
  refine off_op trivial (fun vic => off_op trivial (fun swpfpn => ?_))
  cases swpfpn with
  | none => exact off_op trivial (fun _ => off_op trivial (fun _ => trivial))
  | some swpfpn =>
    refine (off_theVictim vic).bind (fun v _ => (off_swapCpPage _ _ _ _).bind (fun _ _ => ?_))
    refine (off_swapCpPage _ _ _ _).bind (fun _ _ => off_op trivial (fun _ => off_op trivial (fun _ => ?_)))
    exact off_op trivial (fun _ => off_op trivial (fun _ => trivial))

theorem off_pgGetpage (r : PteRef) : (pgGetpage r).Within Op.offMm (fun _ => True) := by
  have hend : ∀ online : Bool, (if online then do
      addLruPage r
      note (.reference r)
      let pte ← readPte r
      unlock .mmVm
      pure (some pte.fpn)
    else pure none : Code (Option Nat)).Within Op.offMm (fun _ => True) := by
    intro online
    cases online with
    | false => trivial
    | true =>
      refine off_op trivial (fun _ => off_op trivial (fun _ => ?_))
      exact off_op trivial (fun _ => off_op trivial (fun _ => trivial))
  have hbring : ∀ pte : Pte, (pgBringIn r pte).Within Op.offMm (fun _ => True) := by
    intro pte
    refine off_op trivial (fun fpn => ?_)
    cases fpn with
    | none => exact off_pgReplace r pte
    | some fpn =>
      refine (off_swapCpPage _ _ _ _).bind (fun _ _ => ?_)
      exact off_op trivial (fun _ => off_op trivial (fun _ => trivial))
  refine off_op trivial (fun _ => off_op trivial (fun pte => ?_))
  dsimp only
  split
  · exact hend true
  · exact (hbring pte).bind (fun online _ => hend online)

theorem off_pgSetval (addr : Int) (v : Byte) (vmaid : Int) :
    (pgSetval p addr v vmaid).Within Op.offMm (fun _ => True) := by
  refine (off_pgGetpage _).bind (fun o _ => ?_)
  cases o with
  | none => trivial
  | some fpn => exact off_op trivial (fun _ => trivial)

theorem off_pgGetval (addr vmaid : Int) : (pgGetval p addr vmaid).Within Op.offMm (fun _ => True) := by
  refine (off_pgGetpage _).bind (fun o _ => ?_)
  cases o with
  | none => trivial
  | some fpn => exact ⟨trivial, fun _ => trivial⟩

theorem off_vmapLoop (vmaid pgn : Int) : ∀ (n : Nat) (frames : List Nat),
    (vmapLoop p vmaid pgn n frames).Within Op.offMm (fun _ => True)
  | 0, _ => trivial
  | _ + 1, [] => trivial
  | n + 1, fpn :: frames => by
    refine (off_pgdAt _).bind (fun r _ => off_op trivial (fun _ => off_op trivial (fun _ => ?_)))
    exact off_op trivial (fun _ => off_op trivial (fun _ => off_vmapLoop vmaid pgn n frames))

theorem off_reuseSwapIn (r : PteRef) (pte : Pte) : (reuseSwapIn r pte).Within Op.offMm (fun _ => True) := by
  refine off_op trivial (fun vic => off_op trivial (fun swpfpn => ?_))
  cases swpfpn with
  | none => exact off_op trivial (fun _ => trivial)
  | some swpfpn =>
    refine (off_theVictim vic).bind (fun v _ => (off_swapCpPage _ _ _ _).bind (fun _ _ => ?_))
    refine off_op trivial (fun _ => (off_swapCpPage _ _ _ _).bind (fun _ _ => off_op trivial (fun _ => ?_)))
    exact off_op trivial (fun _ => off_op trivial (fun _ => off_op trivial (fun _ => off_op trivial (fun _ => trivial))))

theorem off_reusePage (r : PteRef) : (reusePage r).Within Op.offMm (fun _ => True) := by
  refine off_op trivial (fun pte => ?_)
  have hframe : (if pte.present then pure (some pte.fpn) else reuseSwapIn r pte).Within Op.offMm (fun _ => True) := by
    split
    · trivial
    · exact off_reuseSwapIn r pte
  refine hframe.bind (fun o _ => ?_)
  cases o with
  | none => trivial
  | some fpn => exact off_op trivial (fun _ => off_op trivial (fun _ => off_op trivial (fun _ => trivial)))

theorem off_reuseLoop (vmaid last : Int) : ∀ (fuel : Nat) (i : Int),
    (reuseLoop p vmaid last fuel i).Within Op.offMm (fun _ => True)
  | 0, _ => off_fault
  | fuel + 1, i => by
    unfold reuseLoop
    split
    · trivial
    · refine (off_pgdAt i).bind (fun r _ => (off_reusePage r).bind (fun b _ => ?_))
      cases b with
      | false => trivial
      | true => exact off_reuseLoop vmaid last fuel _

end Off

/-! ### The calls -/

section On

variable {α β : Type} {p : Pid} {mm : Mm} {R : Mm → β → Prop}

theorem on_off {c : Code α} {Q : α → Prop} (hc : c.Within Op.offMm Q) : OnMm p (fun mm' a => mm' = mm ∧ Q a) c mm :=
  hc.follows (fun _ ho => (Op.offMm_step ho).1) (fun _ _ _ ho h => (Op.offMm_step (p := p) ho).2 h)

theorem on_bind {c : Code α} {f : α → Code β} {Q : α → Prop} (hc : c.Within Op.offMm Q)
    (hf : ∀ a, Q a → OnMm p R (f a) mm) : OnMm p R (c >>= f) mm := by
  refine Follows.bind (on_off hc) (fun mm' a h => ?_)
  obtain ⟨rfl, ha⟩ := h
  exact hf a ha

theorem on_op {o : Op} {f : o.Res → Code β} (ho : o.offMm) (hf : ∀ a, OnMm p R (f a) mm) :
    OnMm p R (.op o .ret >>= f) mm :=
  @on_bind _ _ p mm R (.op o .ret) f (fun _ => True) ⟨ho, fun _ => trivial⟩ (fun a _ => hf a)

theorem on_getMm {f : Mm → Code β} (hf : OnMm p R (f mm) mm) : OnMm p R (getMm p >>= f) mm := by
  refine ⟨rfl, fun r mm' h => ?_⟩
  obtain ⟨rfl, rfl⟩ := h
  exact hf

theorem on_setMm {v : Mm} {f : Unit → Code β} (hf : OnMm p R (f ()) v) : OnMm p R (setMm p v >>= f) mm := by
  refine ⟨rfl, fun r mm' h => ?_⟩
  obtain rfl : mm' = v := h
  exact hf

theorem on_allocPagesRange : ∀ (n : Nat) (frmLst : List Nat),
    OnMm p (fun mm' o => mm' = mm ∧ o ≠ none) (allocPagesRange n frmLst) mm
  | 0, frmLst => ⟨rfl, Option.some_ne_none _⟩
  | n + 1, frmLst => by
    refine on_op trivial (fun fpn => ?_)
    cases fpn with
    | some fpn => exact on_allocPagesRange n (fpn :: frmLst)
    | none =>
      refine on_op trivial (fun vic => on_op trivial (fun swpfpn => ?_))
      cases swpfpn with
      | none => exact ⟨trivial, fun e => nomatch e⟩
      | some swpfpn =>
        refine on_bind (off_theVictim vic) (fun v _ => on_bind (off_swapCpPage _ _ _ _) (fun _ _ => ?_))
        exact on_op trivial (fun _ => on_allocPagesRange n (v.fpn :: frmLst))

theorem on_vmMapRam (vmaid mapstart k : Int) :
    OnMm p (fun mm' ret => mm' = mm ∧ ret = 0) (vmMapRam p vmaid mapstart k) mm := by
  refine on_op trivial (fun _ => on_op trivial (fun _ => Follows.bind (on_allocPagesRange _ []) (fun mm' o h => ?_)))
  obtain ⟨rfl, ho⟩ := h
  cases o with
  | none => exact absurd rfl ho
  | some frmLst =>
    exact on_getMm (on_bind (off_vmapLoop _ _ _ _) (fun _ _ => on_op trivial (fun _ => ⟨rfl, rfl⟩)))

theorem on_incVmaLimit (vmaid size : Int) : OnMm p
    (fun mm' ret => overlapRefused mm vmaid size = true ∧ mm' = mm ∧ ret = -1 ∨
      overlapRefused mm vmaid size = false ∧ mm' = grownMm mm vmaid size ∧ ret = 0) (incVmaLimit p vmaid size) mm := by
  refine on_getMm ?_
  dsimp only
  split
  · rename_i hover
    exact Or.inl ⟨hover, rfl, rfl⟩
  · rename_i hover
    refine on_setMm (Follows.bind (on_vmMapRam _ _ _) (fun mm' ret h => ?_))
    obtain ⟨rfl, rfl⟩ := h
    exact Or.inr ⟨by simpa using hover, rfl, rfl⟩

theorem on_alloc (fuel : Nat) (vmaid rgid size : Int) : OnMm p
    (fun mm' _ => ∃ l o, getFreeVmrgArea fuel vmaid size (mm.vma vmaid).vmFreergList = some (l, o) ∧
      mm' = (mm.allocated vmaid rgid size l o).2) (alloc fuel p vmaid rgid size) mm := by
  refine on_getMm ?_
  split
  · exact ⟨trivial, fun e => nomatch e⟩
  · rename_i l rg hget
    refine on_bind (off_symrgAt rgid) (fun i hi => on_setMm ((on_off (off_reuseLoop _ _ _ _)).mono (fun mm' ret h => ?_)))
    obtain ⟨rfl, -⟩ := h
    exact ⟨l, some rg, hget, by rw [hi]; rfl⟩
  · rename_i l hget
    have hcommit : ∀ mm', (mm.allocated vmaid rgid size l none).2 = commitRegion mm' vmaid rgid.toNat size →
        OnMm p (fun mm' _ => ∃ l o, getFreeVmrgArea fuel vmaid size (mm.vma vmaid).vmFreergList = some (l, o) ∧
          mm' = (mm.allocated vmaid rgid size l o).2) (do
            let i ← symrgAt rgid
            let mm ← getMm p
            setMm p (commitRegion mm vmaid i size)
            pure (0 : Int)) mm' := by
      intro mm' heq
      refine on_bind (off_symrgAt rgid) (fun i hi => on_getMm (on_setMm ?_))
      subst hi
      exact ⟨l, none, hget, heq.symm⟩
    refine on_setMm (on_getMm ?_)
    simp only [outOfVirtual_setFreerg, pastVmEnd_setFreerg]
    split
    · rename_i hvirt
      exact ⟨l, none, hget, by simp [Mm.allocated, hvirt]⟩
    · rename_i hvirt
      split
      · rename_i hpast
        refine Follows.bind (on_incVmaLimit _ _) (fun mm' ret h => ?_)
        rw [overlapRefused_setFreerg] at h
        rcases h with ⟨hover, rfl, rfl⟩ | ⟨hover, rfl, rfl⟩
        · exact ⟨l, none, hget, by simp [Mm.allocated, hpast, hover]⟩
        · exact hcommit _ (by simp [Mm.allocated, hvirt, hpast, hover])
      · rename_i hpast
        exact hcommit _ (by simp [Mm.allocated, hvirt, hpast])

/-- `__free` follows no pointer it should not: the id is not the one that `get_symrg_byid` lets through past the table's
end, and a region that is not empty is of an area. -/
def Mm.FreeMeans (mm : Mm) (rgid : Int) : Prop :=
  rgid ≠ 30 ∧ (0 ≤ rgid → rgid < 30 → (mm.symrgtbl rgid.toNat).rgStart ≠ (mm.symrgtbl rgid.toNat).rgEnd →
    getVmaByNum mm (mm.symrgtbl rgid.toNat).vmaid ≠ none)

theorem on_free (rgid : Int) :
    OnMm p (fun mm' ret => mm.FreeMeans rgid ∧ (ret, mm') = mm.freed rgid) (free p rgid) mm := by
  refine on_getMm ?_
  split
  · rename_i hid
    simp only [pagingMaxSymtblSz] at hid
    have hno : ¬ ((0 ≤ rgid ∧ rgid < 30) ∧
        (mm.symrgtbl rgid.toNat).rgStart ≠ (mm.symrgtbl rgid.toNat).rgEnd) := by omega
    change mm.FreeMeans rgid ∧ (-1, mm) = mm.freed rgid
    rw [Mm.freed, if_neg hno]
    exact ⟨⟨by omega, by omega⟩, rfl⟩
  · refine on_bind (off_getSymrgByid _ _) (fun q hq => ?_)
    obtain ⟨rfl, hid⟩ := hq
    dsimp only
    split
    · rename_i hempty
      change mm.FreeMeans rgid ∧ (-1, mm) = mm.freed rgid
      rw [Mm.freed, if_neg (fun h => h.2 hempty)]
      exact ⟨⟨by omega, fun _ _ hne => absurd hempty hne⟩, rfl⟩
    · rename_i hrg
      have hstore : ∀ k : Nat, (do
          let _ ← pgSetval p (int32 ((mm.symrgtbl rgid.toNat).rgStart + k)) 0 (mm.symrgtbl rgid.toNat).vmaid :
            Code Unit).Within Op.offMm (fun _ => True) := fun k => Within.bind (off_pgSetval _ _ _) (fun _ _ => trivial)
      refine on_bind (Within.loop hstore _ _) (fun _ _ => ?_)
      refine on_getMm ?_
      rw [enlistVmFreergList, getVmaByNum_setSymrg]
      cases hvma : getVmaByNum mm (mm.symrgtbl rgid.toNat).vmaid with
      | none => exact ⟨trivial, fun e => e.elim⟩
      | some vma =>
        refine on_setMm ?_
        change mm.FreeMeans rgid ∧ (0, freedMm mm rgid.toNat) = mm.freed rgid
        rw [Mm.freed, if_pos ⟨hid, hrg⟩]
        exact ⟨⟨by omega, fun _ _ _ => by simp [hvma]⟩, rfl⟩

theorem on_accessRg (rgid offset : Int) :
    OnMm p (fun mm' o => mm' = mm ∧ rgid ≠ 30 ∧ (o ≠ none ↔ Accessible mm rgid offset)) (accessRg p rgid offset) mm := by
  refine on_getMm (on_bind (off_getSymrgByid _ _) (fun q hq => ?_))
  obtain ⟨rfl, hid, hid'⟩ := hq
  have hne : rgid ≠ 30 := by omega
  dsimp only
  split
  · rename_i hvma
    exact ⟨rfl, hne, by simp [Accessible, hvma]⟩
  · rename_i hvma
    split
    · rename_i hempty
      exact ⟨rfl, hne, by simp [Accessible, hempty]⟩
    · rename_i hempty
      split
      · rename_i hout
        exact ⟨rfl, hne, by simp [Accessible, hout]⟩
      · rename_i hout
        exact ⟨rfl, hne, by simp [Accessible, hid, hid', hvma, hempty, hout]⟩

theorem on_read (rgid offset : Int) :
    OnMm p (fun mm' ret => rgid ≠ 30 ∧ (ret.1, mm') = mm.accessed rgid offset) (read p rgid offset) mm := by
  refine Follows.bind (on_accessRg rgid offset) (fun mm' o h => ?_)
  obtain ⟨rfl, hne, ho⟩ := h
  cases o with
  | none =>
    change rgid ≠ 30 ∧ (-1, mm') = mm'.accessed rgid offset
    rw [Mm.accessed, if_neg (fun hacc => ho.2 hacc rfl)]
    exact ⟨hne, rfl⟩
  | some rg =>
    refine on_bind (off_pgGetval _ _) (fun data _ => on_op trivial (fun _ => ?_))
    change rgid ≠ 30 ∧ (0, mm') = mm'.accessed rgid offset
    rw [Mm.accessed, if_pos (ho.1 (Option.some_ne_none _))]
    exact ⟨hne, rfl⟩

theorem on_write (rgid offset : Int) (v : Byte) :
    OnMm p (fun mm' ret => rgid ≠ 30 ∧ (ret, mm') = mm.accessed rgid offset) (write p rgid offset v) mm := by
  refine Follows.bind (on_accessRg rgid offset) (fun mm' o h => ?_)
  obtain ⟨rfl, hne, ho⟩ := h
  cases o with
  | none =>
    change rgid ≠ 30 ∧ (-1, mm') = mm'.accessed rgid offset
    rw [Mm.accessed, if_neg (fun hacc => ho.2 hacc rfl)]
    exact ⟨hne, rfl⟩
  | some rg =>
    refine on_bind (off_pgSetval _ _ _) (fun _ _ => on_op trivial (fun _ => ?_))
    change rgid ≠ 30 ∧ (0, mm') = mm'.accessed rgid offset
    rw [Mm.accessed, if_pos (ho.1 (Option.some_ne_none _))]
    exact ⟨hne, rfl⟩

def Call.Means (mm : Mm) : Call → Prop
  | .pgfreeData regIndex => mm.FreeMeans regIndex.toInt
  | .pgread source _ => source.toInt ≠ 30
  | .pgwrite _ destination _ => destination.toInt ≠ 30
  | _ => True

/-- **A call leaves its caller's `mm_struct`** as `Mm.Answers` says, an operation at a time. -/
theorem on_call (fuel : Nat) (c : Call) :
    OnMm p (fun mm' _ => c.Means mm ∧ ∃ status, mm.Answers c (status, mm')) (c.code fuel p) mm := by
  cases c with
  | pgalloc size regIndex | pgmalloc size regIndex =>
    refine Follows.bind (on_alloc fuel _ _ _) (fun mm' ret h => ?_)
    obtain ⟨l, o, hget, heq⟩ := h
    exact ⟨trivial, _, fuel, l, o, hget, Prod.ext rfl heq⟩
  | pgfreeData regIndex => exact Follows.bind (on_free _) (fun mm' ret h => ⟨h.1, ret, h.2⟩)
  | pgread source offset => exact (on_read _ _).mono (fun mm' ret h => ⟨h.1, ret.1, h.2⟩)
  | pgwrite data destination offset => exact Follows.bind (on_write _ _ _) (fun mm' ret h => ⟨h.1, ret, h.2⟩)

end On

/-! ## What a program makes of its process's `mm_struct` -/

def Inst.call (ins : Inst) : Option Call :=
  match ins.opcode with
  | .calc => none
  | .alloc => some (.pgalloc ins.arg0.toBitVec ins.arg1.toBitVec)
  | .malloc => some (.pgmalloc ins.arg0.toBitVec ins.arg1.toBitVec)
  | .free => some (.pgfreeData ins.arg0.toBitVec)
  | .read => some (.pgread ins.arg0.toBitVec ins.arg1.toBitVec)
  | .write => some (.pgwrite (ins.arg0.toBitVec.setWidth 8) ins.arg1.toBitVec ins.arg2.toBitVec)

namespace Mm

def Executes (mm : Mm) (ins : Inst) (mm' : Mm) : Prop :=
  match ins.call with
  | none => mm' = mm
  | some c => c.Means mm ∧ ∃ status, mm.Answers c (status, mm')

def Performs : Mm → List Inst → Mm → Prop
  | mm, [], mm' => mm' = mm
  | mm, ins :: l, mm' => ∃ mm₁, mm.Executes ins mm₁ ∧ mm₁.Performs l mm'

theorem Executes.unique {mm mm₁ mm₂ : Mm} {ins : Inst} (h₁ : mm.Executes ins mm₁) (h₂ : mm.Executes ins mm₂) :
    mm₁ = mm₂ := by
  unfold Executes at h₁ h₂
  cases hcall : ins.call with
  | none =>
    rw [hcall] at h₁ h₂
    exact h₁.trans h₂.symm
  | some c =>
    rw [hcall] at h₁ h₂
    obtain ⟨-, status₁, h₁⟩ := h₁
    obtain ⟨-, status₂, h₂⟩ := h₂
    exact congrArg Prod.snd (h₁.unique h₂)

theorem Performs.unique : ∀ {l : List Inst} {mm mm₁ mm₂ : Mm}, mm.Performs l mm₁ → mm.Performs l mm₂ → mm₁ = mm₂
  | [], _, _, _, h₁, h₂ => h₁.trans h₂.symm
  | _ :: _, _, _, _, ⟨_, hfirst₁, hrest₁⟩, ⟨_, hfirst₂, hrest₂⟩ => by
    cases hfirst₁.unique hfirst₂
    exact hrest₁.unique hrest₂

theorem Performs.next : ∀ {l : List Inst} {mm mm₁ mm₂ : Mm} {ins : Inst}, mm.Performs l mm₁ → mm₁.Executes ins mm₂ →
    mm.Performs (l ++ [ins]) mm₂
  | [], _, _, _, _, h, hexec => by
    cases h
    exact ⟨_, hexec, rfl⟩
  | _ :: _, _, _, _, _, ⟨mm', hfirst, hrest⟩, hexec => ⟨mm', hfirst, hrest.next hexec⟩

end Mm

theorem on_execInst {p : Pid} {mm : Mm} (turns : Nat) (ins : Inst) :
    OnMm p (fun mm' _ => mm.Executes ins mm') (execInst turns p ins) mm := by
  have hcall : ∀ {c : Call} {f : Ret → Code Int}, ins.call = some c → (∀ r, ∃ a, f r = .ret a) →
      OnMm p (fun mm' _ => mm.Executes ins mm') (c.code turns p >>= f) mm := by
    intro c f hc hf
    refine Follows.bind (on_call turns c) (fun mm' ret h => ?_)
    obtain ⟨a, ha⟩ := hf ret
    rw [ha]
    change mm.Executes ins mm'
    rw [Mm.Executes, hc]
    exact h
  unfold execInst
  split <;> rename_i hop
  · change mm.Executes ins mm
    simp [Mm.Executes, Inst.call, hop]
  · exact hcall (by simp only [Inst.call, hop]) (fun r => ⟨_, rfl⟩)
  · exact hcall (by simp only [Inst.call, hop]) (fun r => ⟨_, rfl⟩)
  · exact hcall (by simp only [Inst.call, hop]) (fun r => ⟨_, rfl⟩)
  · exact hcall (c := .pgread _ _) (by simp only [Inst.call, hop]) (fun r => ⟨_, rfl⟩)
  · exact hcall (by simp only [Inst.call, hop]) (fun r => ⟨_, rfl⟩)

theorem on_cpuRun {mm mm₀ : Mm} (turns : Nat) (proc : CpuPcb) (h : mm₀.Performs (proc.text.take proc.pc) mm) :
    OnMm proc.pid (fun mm' _ => mm₀.Performs
        (proc.text.take (if proc.pc < proc.text.length then proc.pc + 1 else proc.pc)) mm')
      (cpuRun turns proc) mm := by
  cases hins : proc.text[proc.pc]? with
  | none =>
    have hlen := List.getElem?_eq_none_iff.1 hins
    simp only [cpuRun, hins, if_neg (Nat.not_lt.2 hlen)]
    exact h
  | some ins =>
    obtain ⟨hlen, hget⟩ := List.getElem?_eq_some_iff.1 hins
    simp only [cpuRun, hins, if_pos hlen]
    refine Follows.bind (on_execInst turns ins) (fun mm' stat hexec => ?_)
    change mm₀.Performs (proc.text.take (proc.pc + 1)) mm'
    rw [List.take_add_one, hins]
    exact h.next hexec

/-! ## Every process's `mm_struct`, whatever the interleaving -/

namespace Sim

/-- **Every process's `mm_struct`** is what the instructions before its program counter make of the first one; and a CPU
in the last of them will leave it so. -/
structure Own (w : Workload) (m : Machine) (x : Sim) : Prop where
  idle : ∀ p, ¬ Running x p →
    (m.mm (pidOf p)).Performs ((w.text p).take (x.os.pcb p).pc) (x.shared.machine.mm (pidOf p))
  busy : ∀ i p, unreturned (x.prog i) = true → (x.os.cpu i).proc = some p →
    OnMm (pidOf p) (fun mm' _ => (m.mm (pidOf p)).Performs ((w.text p).take (x.os.pcb p).pc) mm') (x.prog i)
      (x.shared.machine.mm (pidOf p))

section Own

variable {w : Workload} {m : Machine} {x y : Sim}

theorem start_own (w : Workload) (m : Machine) : Own w m (start m) :=
  ⟨fun _ _ => rfl, fun _ _ h => nomatch h⟩

theorem Own.elsewhere (h : Own w m x) {os : Os} {hand : Nat → Hand} (hos : Elsewhere w x os) :
    Own w m { x with os := os, hand := hand } := by
  refine ⟨fun p hp => ?_, fun i p hi hp => ?_⟩
  · rw [hos.running] at hp
    simp only [hos.pc]
    exact h.idle p hp
  · have hold : (x.os.cpu i).proc = some p := by rwa [← hos.cpu i (Or.inl hi)]
    simp only [hos.pc]
    exact h.busy i p hi hold

theorem Own.operates (h : Own w m x) (hinv : Inv w x) {i : Nat} {o : Op} {k : o.Res → Code (CpuPcb × Int)}
    {s : Shared Nat} {r : o.Res} {hand : Nat → Hand} {log : List RunEvent} (hprog : x.prog i = .op o k)
    (hact : cpuAct i o x.shared = some (s, r)) :
    Own w m ⟨x.os, s, Function.update x.prog i (k r), hand, log⟩ := by
  obtain ⟨hi, -, p, hp, -⟩ := hinv.inRun i (by rw [hprog]; rfl)
  have hrest := h.busy i p (by rw [hprog]; rfl) hp
  rw [hprog] at hrest
  obtain ⟨hmm, hothers⟩ := step_ownMm hrest.1 (cpuAct_step hact)
  have hnext := hrest.2 r _ hmm
  have hother : ∀ q, q ≠ p → s.machine.mm (pidOf q) = x.shared.machine.mm (pidOf q) := fun q hq =>
    hothers (pidOf q) (fun e => hq (Nat.succ.inj e))
  refine ⟨fun q hq => ?_, fun j q hj hq => ?_⟩
  · by_cases hqp : q = p
    · subst hqp
      -- no operation is left
      cases hk : k r with
      | ret a =>
        rw [hk] at hnext
        exact hnext
      | op o' k' => exact absurd ⟨i, by simp [hk, unreturned], hp⟩ hq
    · have hne : (x.os.cpu i).proc ≠ some q := fun e => hqp (Option.some.inj (e.symm.trans hp))
      have hsame := running_other (x := x) (y := ⟨x.os, s, Function.update x.prog i (k r), hand, log⟩) (i := i)
        (fun j hj => Function.update_of_ne hj _ _) (fun _ _ => rfl) hne hne
      simp only [hother q hqp]
      exact h.idle q (fun hrun => hq (hsame.2 hrun))
  · by_cases hji : j = i
    · subst hji
      obtain rfl : p = q := Option.some.inj (hp.symm.trans hq)
      simpa using hnext
    · simp only [Function.update_of_ne hji] at hj ⊢
      have hqp : q ≠ p := fun e => hinv.os.holder_unique (hinv.inRun j hj).1 hi hji (e ▸ hq) hp
      simp only [hother q hqp]
      exact h.busy j q hj hq

theorem Own.calls (h : Own w m x) (hinv : Inv w x) {i p : Nat} {os : Os} {hand : Nat → Hand} {log : List RunEvent}
    (turns : Nat) (hi : i < w.numCpus) (hback : unreturned (x.prog i) = false) (hpc : (x.os.cpu i).pc = .run)
    (hp : (x.os.cpu i).proc = some p) (hstep : x.os.cpuRoutine w.config i = some os) :
    Own w m ⟨os, x.shared, Function.update x.prog i (cpuRun turns (pcb w x.os p)), hand, log⟩ := by
  obtain ⟨hcpu, hpcb, hpcp⟩ := cpuRoutine_run hstep hpc hp
  have hother : ∀ j, j ≠ i → os.cpu j = x.os.cpu j := fun j hj => by rw [hcpu, Os.setCpu_of_ne _ _ hj]
  have hself : (os.cpu i).proc = some p := by simp [hcpu, hp]
  have hidle : ¬ Running x p := fun hrun => by simp [(hinv.running_unique hi hp).1 hrun] at hback
  have hrun : OnMm (pidOf p) (fun mm' _ => (m.mm (pidOf p)).Performs ((w.text p).take (os.pcb p).pc) mm')
      (cpuRun turns (pcb w x.os p)) (x.shared.machine.mm (pidOf p)) := by
    rw [hpcp]
    exact on_cpuRun turns (pcb w x.os p) (h.idle p hidle)
  refine ⟨fun q hq => ?_, fun j q hj hq => ?_⟩
  · by_cases hqp : q = p
    · subst hqp
      cases hk : cpuRun turns (pcb w x.os q) with
      | ret a =>
        rw [hk] at hrun
        exact hrun
      | op o k => exact absurd ⟨i, by simp [hk, unreturned], hself⟩ hq
    · have hne : some p ≠ some q := fun e => hqp (Option.some.inj e).symm
      have hsame := running_other (x := x)
        (y := ⟨os, x.shared, Function.update x.prog i (cpuRun turns (pcb w x.os p)), hand, log⟩) (i := i)
        (fun j hj => Function.update_of_ne hj _ _) hother (by rw [hp]; exact hne) (by simp only [hself]; exact hne)
      simp only [hpcb q hqp]
      exact h.idle q (fun hrun => hq (hsame.2 hrun))
  · by_cases hji : j = i
    · subst hji
      obtain rfl : p = q := Option.some.inj (hself.symm.trans hq)
      simpa using hrun
    · simp only [Function.update_of_ne hji, hother j hji] at hj hq ⊢
      have hqp : q ≠ p := fun e => hinv.os.holder_unique (hinv.inRun j hj).1 hi hji (e ▸ hq) hp
      simp only [hpcb q hqp]
      exact h.busy j q hj hq

theorem step_own (hnum : 1 ≤ w.numCpus) {a : SimAct} (hstep : step w x a = some y) (hinv : Inv w x)
    (h : Own w m x) : Own w m y := by
  have hos := (step_inv hnum hstep hinv).os
  cases step_cases hstep with
  | operates hi hprog hact => exact h.operates hinv hprog hact
  | calls turns hi hback hpc hp hrun => exact h.calls hinv turns hi hback hpc hp hrun
  | goes hi hback hpc hrun => exact h.elsewhere (Inv.goes_elsewhere hos hi hback hpc hrun)
  | loader hld => exact h.elsewhere (hinv.loader_elsewhere hos hld)
  | timer ht => exact h.elsewhere (Inv.timer_elsewhere hos ht)

theorem reach_own (hnum : 1 ≤ w.numCpus) (h : Reach (step w) (start m) x) : Inv w x ∧ Own w m x :=
  h.inv (P := fun x => Inv w x ∧ Own w m x) ⟨start_inv w m, start_own w m⟩
    (fun ha hs => ⟨step_inv hnum ha hs.1, step_own hnum ha hs.1 hs.2⟩)

end Own

/-- **A process's virtual layout is made by its own program.**  Take two runs, of any workloads on any machines, with
any number of CPUs and in any interleaving, and in each a process, the two with the same program and the same
`mm_struct` to begin with.  Whenever both have executed as many instructions, none being under way, their `mm_struct`s
are the same: the regions, both areas and their free lists, whatever the other processes do. -/
theorem layout_isolated {w w' : Workload} (hnum : 1 ≤ w.numCpus) (hnum' : 1 ≤ w'.numCpus) {m m' : Machine} {x x' : Sim}
    (h : Reach (step w) (start m) x) (h' : Reach (step w') (start m') x') {p p' : Nat} (htext : w.text p = w'.text p')
    (hmm : m.mm (pidOf p) = m'.mm (pidOf p')) (hpc : (x.os.pcb p).pc = (x'.os.pcb p').pc) (hp : ¬ Running x p)
    (hp' : ¬ Running x' p') :
    x.shared.machine.mm (pidOf p) = x'.shared.machine.mm (pidOf p') := by
  have hmade := (reach_own hnum h).2.idle p hp
  have hmade' := (reach_own hnum' h').2.idle p' hp'
  rw [← htext, ← hmm, ← hpc] at hmade'
  exact hmade.unique hmade'

/-- The first process of `bothAlloc`, on a smaller machine of its own. -/
def oneAlloc : Workload := ⟨1, 1, 1, fun _ => 0, fun _ => 0, fun _ => [⟨.calc, 0, 0, 0⟩, ⟨.alloc, 100, 0, 0⟩]⟩

/-- Alone, and with the other process in the middle of its `alloc`. -/
theorem layout_isolated_oneAlloc : ∃ x y, Reach (step oneAlloc) (start (boot 512 1024 1024)) x ∧
    Reach (step bothAlloc) (start (boot 1024 1024 1024)) y ∧ unreturned (y.prog 1) = true ∧
    ((x.shared.machine.mm 1).symrgtbl 0).rgEnd = 99 ∧ x.shared.machine.mm 1 = y.shared.machine.mm 1 := by
  have hsome : (runActions (step oneAlloc) (repeated [(4, .loader), (4, .cpu 0 5), (7, .timer), (3, .loader),
    (21, .cpu 0 5)])
        (start (boot 512 1024 1024))).any (fun x => ((x.os.cpu 0).proc = some 0 ∧ unreturned (x.prog 0) = false) ∧
          (x.os.pcb 0).pc = 2 ∧ ((x.shared.machine.mm 1).symrgtbl 0).rgEnd = 99) = true := by
    decide +kernel
  have hsome' : (runActions (step bothAlloc) (repeated [(4, .loader), (5, .cpu 0 5), (4, .cpu 1 5), (9, .timer),
    (6, .loader), (12, .cpu 0 5), (9, .cpu 1 5), (8, .cpu 0 5)])
          (start (boot 1024 1024 1024))).any (fun y => ((y.os.cpu 0).proc = some 0 ∧ unreturned (y.prog 0) = false) ∧
            (y.os.pcb 0).pc = 2 ∧ unreturned (y.prog 1) = true) = true := by
    decide +kernel
  have hidle : ∀ {w : Workload} {x : Sim}, 1 ≤ w.numCpus → Inv w x → (x.os.cpu 0).proc = some 0 →
      unreturned (x.prog 0) = false → ¬ Running x 0 := fun hnum hinv hp hback hrun => by
    rw [(hinv.running_unique hnum hp).1 hrun] at hback
    cases hback
  obtain ⟨x, hx, hq⟩ := (Option.any_eq_true _ _).1 hsome
  obtain ⟨y, hy, hq'⟩ := (Option.any_eq_true _ _).1 hsome'
  obtain ⟨⟨hp, hback⟩, hpc, hend⟩ := of_decide_eq_true hq
  obtain ⟨⟨hp', hback'⟩, hpc', hother⟩ := of_decide_eq_true hq'
  have hreach := reach_of_runActions _ hx
  have hreach' := reach_of_runActions _ hy
  have hrunning := hidle (by decide) (reach_own (by decide) hreach).1 hp hback
  have hrunning' := hidle (by decide) (reach_own (by decide) hreach').1 hp' hback'
  exact ⟨x, y, hreach, hreach', hother, hend, layout_isolated (by decide) (by decide) hreach hreach' rfl rfl
    (hpc.trans hpc'.symm) hrunning hrunning'⟩

end Sim

end OsSim
