import OsSim.SwapPlaces
/-!
# SwapRuns — runs of the build without `LRU`

`InPlace` is what it takes for the invariant of `SwapPlaces` to last through a call: a request evicts to swap frame
0 only and maps pages for the first time, and every other call asks for pages that have been mapped.
-/
namespace OsSim

open Atomic Code

namespace FifoBuild

/-! ## `__alloc` -/

section Alloc

variable {n : Nat} {p : Pid}

/-- **`alloc_pages_range`** looks for frames, as long as it evicts to swap frame 0 only. -/
theorem frun_allocPagesRange : ∀ (k : Nat) {m : Machine} {f : Fifo} {x' : Machine × Fifo} {frmLst : List Nat}
    {o : Option (List Nat)}, Placed n (m, f) → (∀ s ∈ m.homes k, s = 0) →
      frun (allocPagesRange p k frmLst) (m, f) = .ok (x', o) → Found n (m, f) x'
  | 0, m, f, x', frmLst, o, hplaced, _, h => by
    cases h
    exact .congr hplaced rfl rfl rfl
  | k + 1, m, f, x', frmLst, o, hplaced, hhomes, h => by
    rw [allocPagesRange] at h
    cases hfree : m.mram.freeFpList with
    | cons g rest =>
      rw [frun_getFreefp_cons m f (d := .mram) hfree] at h
      have htook : Found n (m, f) (m.setFree .mram rest, f) := .congr hplaced rfl rfl rfl
      have hsame : (m.setFree .mram rest).homes k = m.homes (k + 1) := by
        simp [Machine.homes, Machine.evictions, hfree]
      exact htook.trans (frun_allocPagesRange k htook.placed (by rw [hsame]; exact hhomes) h)
    | nil =>
      rw [frun_getFreefp_nil m f (d := .mram) hfree] at h
      have hall : m.homes (k + 1) = m.mswp.freeFpList.take (k + 1) := by
        simp [Machine.homes, Machine.evictions, hfree]
      rw [hall] at hhomes
      obtain ⟨x₁, o₁, hrep, h⟩ := frun_bind_ok.1 h
      have hreplaced := frun_replacePage hrep
      have hfound := hreplaced.found hplaced (fun s rest hswp => by
        rw [hhomes s (by simp [hswp])]
        rfl)
      cases hreplaced with
      | noVictim hlist =>
        cases h
        exact hfound
      | @out l v s rest hlist hswp =>
        refine hfound.trans (frun_allocPagesRange k hfound.placed (fun s' hs' => hhomes s' ?_) h)
        -- the frames after the first
        rw [hswp, List.take_succ_cons]
        refine List.mem_cons_of_mem _ ?_
        rw [Machine.homes, outTo_mswp hplaced.random] at hs'
        exact (List.take_subset_take_left _ (Nat.sub_le k _)) hs'

theorem frun_vmapLoop {vmaid pgn : Int} : ∀ (k : Nat) {m : Machine} {f : Fifo} {x' : Machine × Fifo} {frames : List Nat}
    {ret : Int}, Placed n (m, f) →
      (∀ i < k, 0 ≤ (if vmaid = 0 then pgn + i else pgn - i) → ¬ Homed m (mapPage p vmaid pgn i)) →
      frun (vmapLoop p vmaid pgn k frames) (m, f) = .ok (x', ret) → Kept n (m, f) x'
  | 0, m, f, x', frames, ret, hplaced, _, h => by
    cases h
    exact .refl hplaced
  | k + 1, m, f, x', [], ret, hplaced, _, h => by
    cases h
    exact .refl hplaced
  | k + 1, m, f, x', g :: frames, ret, hplaced, hfresh, h => by
    obtain ⟨m₁, r, hr, h⟩ := frun_lift_bind_ok _ _ h
    obtain ⟨rfl, rfl, hge, -⟩ := run_pgdAt hr
    simp only [frun_setFpn, frun_enlistPgnNode] at h
    obtain ⟨hpres, hswapped⟩ := not_homed.1 (hfresh k (by omega) hge)
    have hmapped := hplaced.mapped hpres hswapped g
    refine Kept.trans ⟨hmapped, rfl, fun q hq => hq.setFpn _ g⟩ (frun_vmapLoop k hmapped (fun i hi hi0 => ?_) h)
    have hne : mapPage p vmaid pgn i ≠ mapPage p vmaid pgn k := fun heq => by
      have hpgn := congrArg PteRef.pgn heq
      simp only [mapPage] at hpgn
      split at * <;> omega
    rw [Homed, Machine.setPte_pgd, Function.update_of_ne hne]
    exact hfresh i (by omega) hi0

theorem frun_vmMapRam {m : Machine} {f : Fifo} {x' : Machine × Fifo} {vmaid mapstart incpgnum ret : Int}
    (hplaced : Placed n (m, f)) (hhomes : ∀ s ∈ m.homes incpgnum.toNat, s = 0)
    (hfresh : ∀ i < incpgnum.toNat, ¬ Homed m (mapPage p vmaid (mapPgn (m.mm p) vmaid mapstart) i))
    (h : frun (vmMapRam p vmaid mapstart incpgnum) (m, f) = .ok (x', ret)) : Kept n (m, f) x' := by
  rw [vmMapRam, frun_lock] at h
  obtain ⟨⟨m₁, f₁⟩, o, halloc, h⟩ := frun_bind_ok.1 h
  have hfound := frun_allocPagesRange _ hplaced hhomes halloc
  cases o with
  | none =>
    cases h
    exact hfound.toKept
  | some frmLst =>
    dsimp only at h
    rw [frun_getMm] at h
    obtain ⟨x₂, ret', hmap, h⟩ := frun_bind_ok.1 h
    cases h
    have hmm : m₁.mm = m.mm := hfound.mm
    rw [vmapPageRange, hmm] at hmap
    refine hfound.toKept.trans (frun_vmapLoop _ hfound.placed (fun i hi _ => ?_) hmap)
    have hpage := hfresh i hi
    have hsame := hfound.absent _ (not_homed.1 hpage).1
    dsimp only at hsame
    rw [mapPgn] at hpage hsame
    rw [Homed, hsame]
    exact hpage

/-- **What growing an area must be**: `alloc_pages_range` writes 256 times the frame it evicts to, right of frame 0
only; and a page mapped again while it is in RAM would be in the list twice, and go out twice. -/
def MapsInPlace (m : Machine) (p : Pid) (vmaid size : Int) : Prop :=
  (∀ s ∈ m.homes (incNumpage (m.mm p) vmaid size).toNat, s = 0) ∧ ∀ i < (incNumpage (m.mm p) vmaid size).toNat,
    ¬ Homed m (mapPage p vmaid (mapPgn (m.mm p) vmaid (int32 ((m.mm p).vma vmaid).vmEnd)) i)

instance (m : Machine) (p : Pid) (vmaid size : Int) : Decidable (MapsInPlace m p vmaid size) :=
  inferInstanceAs (Decidable (_ ∧ _))

theorem MapsInPlace.setFreerg {m : Machine} {p : Pid} {vmaid size : Int} (h : MapsInPlace m p vmaid size)
    (l : List VmRg) :
    MapsInPlace (m.setMm p ((m.mm p).setFreerg vmaid l)) p vmaid size := by
  simpa [MapsInPlace, Machine.homes, Machine.evictions, mapPgn, Homed] using h

theorem frun_incVmaLimit {m : Machine} {f : Fifo} {x' : Machine × Fifo} {vmaid size ret : Int}
    (hplaced : Placed n (m, f)) (hgrows : overlapRefused (m.mm p) vmaid size = false → MapsInPlace m p vmaid size)
    (h : frun (incVmaLimit p vmaid size) (m, f) = .ok (x', ret)) : Placed n x' := by
  rw [incVmaLimit, frun_getMm] at h
  split at h
  · cases h
    exact hplaced
  · rename_i hover
    obtain ⟨hhomes, hfresh⟩ := hgrows (by simpa using hover)
    have hset : Placed n (m.setMm p (grownMm (m.mm p) vmaid size), f) := hplaced.congr rfl rfl
    rw [frun_setMm] at h
    obtain ⟨⟨m₂, f₂⟩, ret₂, hmap, h⟩ := frun_bind_ok.1 h
    have hkept := frun_vmMapRam hset hhomes (by simpa [mapPgn, grownMm, Homed] using hfresh) hmap
    split at h
    · cases h
      exact hkept.placed.congr rfl rfl
    · cases h
      exact hkept.placed

/-- The request makes the area grow: no free region has room for it, the area's end is too near, and the other area
is not in the way. -/
def Grows (mm : Mm) (vmaid size : Int) : Prop :=
  (∃ fuel l, getFreeVmrgArea fuel vmaid size (mm.vma vmaid).vmFreergList = some (l, none)) ∧
    outOfVirtual mm vmaid size = false ∧ pastVmEnd mm vmaid size = true ∧ overlapRefused mm vmaid size = false

theorem frun_commit {x x' : Machine × Fifo} {vmaid rgid size incLimitRet ret : Int} (hplaced : Placed n x)
    (h : frun (if incLimitRet < 0 then pure (-1) else do
      let i ← symrgAt rgid
      let mm ← getMm p
      setMm p (commitRegion mm vmaid i size)
      pure (0 : Int)) x = .ok (x', ret)) : Placed n x' := by
  obtain ⟨m, f⟩ := x
  split at h
  · cases h
    exact hplaced
  · obtain ⟨m₁, i, hi, hrest⟩ := frun_lift_bind_ok _ _ h
    obtain ⟨rfl, -⟩ := run_symrgAt hi
    cases hrest
    exact hplaced.congr rfl rfl

theorem frun_alloc {fuel : Nat} {m : Machine} {f : Fifo} {x' : Machine × Fifo} {vmaid rgid size ret : Int}
    (hplaced : Placed n (m, f))
    (hgrows : Grows (m.mm p) vmaid size → MapsInPlace m p vmaid size)
    (h : frun (alloc fuel p vmaid rgid size) (m, f) = .ok (x', ret)) : Placed n x' := by
  rw [alloc, frun_getMm] at h
  split at h
  · obtain ⟨m₁, hrun, -⟩ := frun_lift _ _ h
    cases hrun
  · obtain ⟨m₁, i, hi, hrest⟩ := frun_lift_bind_ok _ _ h
    obtain ⟨rfl, -⟩ := run_symrgAt hi
    cases hrest
    exact hplaced.congr rfl rfl
  · rename_i l hget
    have hset : Placed n (m.setMm p ((m.mm p).setFreerg vmaid l), f) := hplaced.congr rfl rfl
    rw [frun_setMm, allocAtBrk, frun_getMm] at h
    simp only [Machine.setMm_mm, Function.update_self, outOfVirtual_setFreerg, pastVmEnd_setFreerg] at h
    split at h
    · cases h
      exact hset
    · rename_i hvirt
      split at h
      · rename_i hpast
        obtain ⟨x₁, ret₁, hinc, h⟩ := frun_bind_ok.1 h
        refine frun_commit (frun_incVmaLimit hset (fun hover => ?_) hinc) h
        simp only [Machine.setMm_mm, Function.update_self, overlapRefused_setFreerg] at hover
        exact (hgrows ⟨⟨fuel, l, hget⟩, by simpa using hvirt, hpast, hover⟩).setFreerg l
      · obtain ⟨x₁, ret₁, hroom, h⟩ := frun_bind_ok.1 h
        cases hroom
        exact frun_commit hset h

end Alloc

/-! ## The calls -/

def asked (mm : Mm) (p : Pid) : Call → List PteRef
  | .pgfreeData regIndex =>
    let rgnode := mm.symrgtbl regIndex.toInt.toNat
    (List.range (rgnode.rgEnd - rgnode.rgStart).toNat).map (fun k : Nat => ⟨p, pagingPgn (rgnode.rgStart + k)⟩)
  | .pgread source offset =>
    if Accessible mm source.toInt offset.toInt then [accessPage p mm source.toInt offset.toInt] else []
  | .pgwrite _ destination offset =>
    if Accessible mm destination.toInt offset.toInt then [accessPage p mm destination.toInt offset.toInt] else []
  | _ => []

/-- **What a call must be** for the pages that are out to stay where they are read back from. -/
structure InPlace (m : Machine) (p : Pid) (c : Call) : Prop where
  maps : ∀ vmaid rgid size, c.request = some (vmaid, rgid, size) → Grows (m.mm p) vmaid size → MapsInPlace m p vmaid size
  /-- The entry of a page never mapped reads as one in swap frame 0, which is put on the free list. -/
  homed : ∀ r ∈ asked (m.mm p) p c, Homed m r

section Calls

variable {n : Nat} {p : Pid} {m : Machine} {f : Fifo} {x' : Machine × Fifo}

theorem frun_free {regIndex : BitVec 32} {ret : Int} (hplaced : Placed n (m, f)) (hn : n ≤ 2097152)
    (hhomed : ∀ r ∈ asked (m.mm p) p (.pgfreeData regIndex), Homed m r)
    (h : frun (free p regIndex.toInt) (m, f) = .ok (x', ret)) : Placed n x' := by
  rw [free, frun_getMm] at h
  split at h
  · cases h
    exact hplaced
  · obtain ⟨m₁, ⟨i, rg⟩, hsym, h⟩ := frun_lift_bind_ok _ _ h
    obtain ⟨rfl, hi, -⟩ := run_getSymrgByid hsym
    cases hi
    dsimp only at h
    split at h
    · cases h
      exact hplaced
    · obtain ⟨⟨m₂, f₂⟩, _, hloop, h⟩ := frun_bind_ok.1 h
      have hkept := exec_loop_ok (Interp.sum step fifoStep) (fun _ x => Kept n (m₁, f) x)
        (fun k x₁ x₂ _ hk hx hbody => by
          obtain ⟨x₃, ret', hset, hret⟩ := frun_bind_ok.1 hbody
          cases hret
          refine hx.trans (frun_pgSetval hx.placed hn (hx.homed _ (hhomed _ ?_)) hset)
          refine List.mem_map.2 ⟨k, List.mem_range.2 (by omega), ?_⟩
          rw [pagingPgn_congr (int32_emod _)]) (.refl hplaced) hloop
      rw [frun_getMm] at h
      split at h
      · obtain ⟨_, hfault, -⟩ := frun_lift _ _ h
        cases hfault
      · rw [frun_setMm] at h
        cases h
        exact hkept.placed.congr rfl rfl

theorem frun_callCode {fuel : Nat} {c : Call} {ret : Ret} (hplaced : Placed n (m, f)) (hn : n ≤ 2097152)
    (hok : InPlace m p c) (h : frun (callCode fuel p c) (m, f) = .ok (x', ret)) : Placed n x' := by
  cases c with
  | pgalloc size regIndex | pgmalloc size regIndex =>
    obtain ⟨x₁, ret₁, halloc, hret⟩ := frun_bind_ok.1 h
    cases hret
    exact frun_alloc hplaced (hok.maps _ _ _ rfl) halloc
  | pgfreeData regIndex =>
    obtain ⟨x₁, ret₁, hfree, hret⟩ := frun_bind_ok.1 h
    cases hret
    exact frun_free hplaced hn hok.homed hfree
  | pgread source offset =>
    rw [callCode, read] at h
    obtain ⟨m₁, o, hrg, h⟩ := frun_lift_bind_ok _ _ h
    obtain ⟨rfl, rfl | ⟨rfl, hacc⟩⟩ := run_accessRg hrg
    · cases h
      exact hplaced
    · obtain ⟨x₂, data, hget, h⟩ := frun_bind_ok.1 h
      cases h
      refine (frun_pgGetval hplaced hn ?_ hget).placed
      rw [pagingPgn_congr (int32_emod _)]
      exact hok.homed _ (by simp [asked, hacc, accessPage])
  | pgwrite data destination offset =>
    obtain ⟨x₁, ret₁, hwrite, hret⟩ := frun_bind_ok.1 h
    cases hret
    rw [write] at hwrite
    obtain ⟨m₁, o, hrg, hwrite⟩ := frun_lift_bind_ok _ _ hwrite
    obtain ⟨rfl, rfl | ⟨rfl, hacc⟩⟩ := run_accessRg hrg
    · cases hwrite
      exact hplaced
    · obtain ⟨x₂, ret₂, hset, hwrite⟩ := frun_bind_ok.1 hwrite
      cases hwrite
      refine (frun_pgSetval hplaced hn ?_ hset).placed
      rw [pagingPgn_congr (int32_emod _)]
      exact hok.homed _ (by simp [asked, hacc, accessPage])

end Calls

/-! ## Runs -/

structure Start (n : Nat) (x : Machine × Fifo) : Prop where
  booted : Booted x.1
  swap : x.1.mswp.freeFpList.Perm (List.range n)
  fifo : ∀ p, x.2.fifoPgn p = []
  trace : x.2.trace = []

def OkStep (ok : Machine → Pid → Call → Prop) (x x' : Machine × Fifo) : Prop :=
  ∃ p c ret, ok x.1 p c ∧ (∃ fuel, frun (callCode fuel p c) x = .ok (x', ret)) ∧ ret.1 = 0

abbrev OkRun (ok : Machine → Pid → Call → Prop) : Machine × Fifo → Machine × Fifo → Prop :=
  Relation.ReflTransGen (OkStep ok)

theorem Start.placed {n : Nat} {x : Machine × Fifo} (h : Start n x) : Placed n x := by
  have hnone : ∀ r, (x.1.pgd r).swapped = false := fun r => by rw [h.booted.pgd]; rfl
  have hno : ∀ r, (x.1.pgd r).swapped = true → False := fun r hr => by
    rw [hnone] at hr
    cases hr
  refine ⟨h.booted.mswp, ⟨h.swap.nodup_iff.2 List.nodup_range, fun s hs => List.mem_range.1 (h.swap.mem_iff.1 hs)⟩,
    fun r hr => (hno r hr).elim, fun r hr => (hno r hr).elim, fun r _ hr => (hno r hr).elim, fun p => ?_, ?_⟩
  · rw [h.fifo]
    exact ⟨List.nodup_nil, fun _ hpgn => nomatch hpgn⟩
  · intro pre r s bytes post hsplit
    rw [h.trace] at hsplit
    exact absurd hsplit.symm (by simp)

/-- **Every page that is out is read back from the frame it was copied to**, in every state between calls, if every call
is as `InPlace` asks. -/
theorem fifo_swap_locations {n : Nat} (hn : n ≤ 2097152) {x₀ x : Machine × Fifo} (h0 : Start n x₀)
    (h : OkRun InPlace x₀ x) : SwapLaw x := by
  have hplaced : Placed n x := by
    induction h with
    | refl => exact h0.placed
    | tail _ hd ih =>
      obtain ⟨p, c, ret, hok, ⟨fuel, hrun⟩, -⟩ := hd
      exact frun_callCode ih hn hok hrun
  exact hplaced.law

/-! ## Runs computed -/

def bootFifo (memramsz memswpsz : Nat) (vmemsz : Int) : Machine × Fifo :=
  (boot memramsz memswpsz vmemsz, ⟨fun _ => [], []⟩)

theorem start_bootFifo (memramsz : Nat) {n : Nat} (hn : 2 ≤ n) (vmemsz : Int) :
    Start n (bootFifo memramsz (n * 256) vmemsz) where
  booted := booted_boot _ _ _
  swap := initMemphy_free n hn
  fifo _ := rfl
  trace := rfl

/-- The calls made in turn, each if `ok` allows it, if it completes within `fuel` turns and does not fail: the last
state. -/
def runCalls (ok : Machine → Pid → Call → Bool) (fuel : Nat) :
    List (Pid × Call) → Machine × Fifo → Option (Machine × Fifo)
  | [], x => some x
  | (p, c) :: cs, x =>
    match ok x.1 p c, frun (callCode fuel p c) x with
    | true, .ok (x', ret) => if ret.1 = 0 then runCalls ok fuel cs x' else none
    | _, _ => none

theorem okRun_of_runCalls {okb : Machine → Pid → Call → Bool} {ok : Machine → Pid → Call → Prop} {fuel : Nat}
    (hok : ∀ m p c, okb m p c = true → ok m p c) : ∀ (cs : List (Pid × Call)) {x x' : Machine × Fifo},
      runCalls okb fuel cs x = some x' → OkRun ok x x'
  | [], x, x', h => by
    cases h
    exact .refl
  | (p, c) :: cs, x, x', h => by
    rw [runCalls] at h
    split at h
    · rename_i x₁ ret hokb hrun
      split at h
      · rename_i hret
        exact .head ⟨p, c, ret, hok x.1 p c hokb, ⟨fuel, hrun⟩, hret⟩ (okRun_of_runCalls hok cs h)
      · cases h
    · cases h

def inPlace (m : Machine) (p : Pid) (c : Call) : Bool :=
  c.request.all (fun q => MapsInPlace m p q.1 q.2.2) && decide (∀ r ∈ asked (m.mm p) p c, Homed m r)

theorem inPlace_sound (m : Machine) (p : Pid) (c : Call) (h : inPlace m p c = true) : InPlace m p c := by
  obtain ⟨hreq, hasked⟩ := Bool.and_eq_true_iff.1 h
  refine ⟨fun vmaid rgid size heq _ => ?_, of_decide_eq_true hasked⟩
  rw [heq] at hreq
  exact of_decide_eq_true hreq

def zeroPage : List (Option Byte) := List.replicate 256 (some 0)

/-- Two pages fill RAM, one more sends page 1 out to swap frame 0, and reading from it sends page 0 out to swap
frame 1. -/
theorem fifo_swap_locations_twoFrames : ∃ x, OkRun InPlace (bootFifo 512 1024 4096) x ∧
    x.2.trace = [.evicted ⟨0, 1⟩ 0 zeroPage, .evicted ⟨0, 0⟩ 1 zeroPage, .broughtIn ⟨0, 1⟩] ∧
      InSwap x.1 ⟨0, 0⟩ 1 zeroPage := by
  have hsome : (runCalls inPlace 10 [(0, .pgalloc 512 0), (0, .pgalloc 256 1), (0, .pgread 0 256)]
      (bootFifo 512 1024 4096)).any (fun x =>
        x.2.trace = [.evicted ⟨0, 1⟩ 0 zeroPage, .evicted ⟨0, 0⟩ 1 zeroPage, .broughtIn ⟨0, 1⟩]) = true := by
    decide +kernel
  obtain ⟨x, hx, htrace⟩ := (Option.any_eq_true _ _).1 hsome
  have htrace := of_decide_eq_true htrace
  have hrun : OkRun InPlace (bootFifo 512 1024 4096) x := okRun_of_runCalls inPlace_sound _ hx
  have hlaw := @fifo_swap_locations 4 (by decide) _ _ (start_bootFifo 512 (by decide) 4096) hrun
  have hzero := hlaw [.evicted ⟨0, 1⟩ 0 zeroPage] ⟨0, 0⟩ 1 zeroPage [.broughtIn ⟨0, 1⟩] htrace (by simp [Event.Returns])
  exact ⟨x, hrun, htrace, hzero.1⟩

/-- **A page sent out to swap frame 1** by a request for two pages, which would be read back from frame 256. -/
theorem fifo_swap_locations_fails : ∃ x, OkRun anyCall (bootFifo 512 1024 4096) x ∧
    x.2.trace = [.evicted ⟨0, 1⟩ 0 zeroPage, .evicted ⟨0, 0⟩ 1 zeroPage] ∧ (x.1.pgd ⟨0, 0⟩).swpoff = 256 ∧
      ¬ SwapLaw x := by
  have hsome : (runCalls (fun _ _ _ => true) 10 [(0, .pgalloc 512 0), (0, .pgalloc 512 1)]
      (bootFifo 512 1024 4096)).any (fun x => x.2.trace = [.evicted ⟨0, 1⟩ 0 zeroPage, .evicted ⟨0, 0⟩ 1 zeroPage] ∧
        (x.1.pgd ⟨0, 0⟩).swpoff = 256) = true := by
    decide +kernel
  obtain ⟨x, hx, hq⟩ := (Option.any_eq_true _ _).1 hsome
  obtain ⟨htrace, hoff⟩ := of_decide_eq_true hq
  refine ⟨x, okRun_of_runCalls (fun _ _ _ _ => trivial) _ hx, htrace, hoff, fun hlaw => ?_⟩
  have hin := (hlaw [.evicted ⟨0, 1⟩ 0 zeroPage] ⟨0, 0⟩ 1 zeroPage [] htrace (fun _ he => nomatch he)).1
  have hswpoff := hin.swpoff
  rw [hoff] at hswpoff
  exact absurd hswpoff (by decide)

end FifoBuild

end OsSim
