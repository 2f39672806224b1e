import OsSim.Frames
/-!
# Victims — no search for a victim fails

`find_LRU_victim_page` is called in three places, and each goes on to use its outputs without looking at its answer.
An empty list would be used uninitialised (`Fault.noVictim`). While swap lasts the list is never empty there:
where RAM has no free frame and not all frames are held, some frame is under a node; and a region can be reused only
after some page was mapped.
-/
namespace OsSim

open Atomic Code

/-! ## Where the fault can come from -/

section Faults

variable {m : Machine} {r : PteRef}

theorem run_swapCpPage_noVictim {src dst : Dev} {srcfpn dstfpn : Nat} :
    run (swapCpPage src srcfpn dst dstfpn) m ≠ .error .noVictim := by
  intro h
  obtain ⟨j, m₁, -, -, -, hcell⟩ := exec_loop_error step (fun _ _ => True) (fun _ _ _ _ _ _ _ => trivial) trivial h
  rcases run_op_error.1 hcell with hread | ⟨m₂, data, -, hwrite⟩
  · cases memphyRead_error (map_error hread)
  · cases data with
    | none => cases hwrite
    | some b =>
      rcases run_op_error.1 hwrite with hstep | ⟨m₃, _, -, hret⟩
      · cases memphyWrite_error (map_error hstep)
      · cases hret

theorem run_pgReplace_noVictim {pte : Pte} (h : run (pgReplace r pte) m = .error .noVictim) :
    m.lru = [] ∧ m.mswp.freeFpList ≠ [] := by
  rw [pgReplace] at h
  obtain ⟨vic, swpfpn, m₀, htaken, h⟩ := run_victimAndFrame h
  cases htaken with
  | neither hlru hswp => cases h
  | noVictim hlru hswp => exact ⟨hlru, by simp [hswp]⟩
  | noFrame hlru hswp => cases h
  | both hlru hswp =>
    exfalso
    simp only [theVictim, run_pure_bind] at h
    rcases run_bind_error.1 h with h | ⟨m₁, _, -, h⟩
    · exact run_swapCpPage_noVictim h
    · rcases run_bind_error.1 h with h | ⟨m₂, _, -, h⟩
      · exact run_swapCpPage_noVictim h
      · cases h

theorem run_pgGetpage_noVictim (h : run (pgGetpage r) m = .error .noVictim) :
    m.lru = [] ∧ m.mram.freeFpList = [] ∧ m.mswp.freeFpList ≠ [] := by
  simp only [pgGetpage, run_lock, run_readPte] at h
  by_cases hpte : (m.pgd r).present = true
  · simp only [hpte, if_true, run_pure_bind] at h
    cases h
  · have hpte' : (m.pgd r).present = false := by simpa using hpte
    simp only [hpte', Bool.false_eq_true, if_false] at h
    rcases run_bind_error.1 h with hin | ⟨m₁, online, -, h⟩
    · cases hfree : m.mram.freeFpList with
      | nil =>
        rw [pgBringIn, run_getFreefp_nil m .mram hfree] at hin
        obtain ⟨hlru, hswp⟩ := run_pgReplace_noVictim hin
        exact ⟨hlru, rfl, hswp⟩
      | cons f rest =>
        rw [pgBringIn, run_getFreefp_cons m .mram hfree] at hin
        rcases run_bind_error.1 hin with hcp | ⟨m₁, _, -, hin⟩
        · exact absurd hcp run_swapCpPage_noVictim
        · cases hin
    · cases online <;> cases h

theorem run_reuseSwapIn_noVictim {pte : Pte} (h : run (reuseSwapIn r pte) m = .error .noVictim) : m.lru = [] := by
  rw [reuseSwapIn] at h
  obtain ⟨vic, swpfpn, m₀, htaken, h⟩ := run_victimAndFrame h
  cases htaken with
  | neither hlru hswp => exact hlru
  | noVictim hlru hswp => exact hlru
  | noFrame hlru hswp => cases h
  | both hlru hswp =>
    exfalso
    simp only [theVictim, run_pure_bind] at h
    rcases run_bind_error.1 h with h | ⟨m₁, _, -, h⟩
    · exact run_swapCpPage_noVictim h
    · rw [run_setSwap] at h
      rcases run_bind_error.1 h with h | ⟨m₂, _, -, h⟩
      · exact run_swapCpPage_noVictim h
      · cases h

theorem run_reusePage_noVictim (h : run (reusePage r) m = .error .noVictim) : m.lru = [] := by
  rw [reusePage, run_readPte] at h
  have hvisit : ∀ {m₁ : Machine} {f : Nat}, run (do
        Code.updateLruLst (.copy (m.pgd r))
        Code.note (.reused r (m.pgd r) f)
        Code.note (.reference r)
        pure true) m₁ ≠ .error .noVictim := by
    intro m₁ f hrun
    by_cases hlru : m₁.lru = []
    · rw [run_updateLruLst_nil m₁ hlru] at hrun
      cases hrun
    · rw [run_updateLruLst m₁ hlru] at hrun
      cases hrun
  by_cases hpte : (m.pgd r).present = true
  · simp only [hpte, if_true, run_pure_bind] at h
    exact absurd h hvisit
  · have hpte' : (m.pgd r).present = false := by simpa using hpte
    simp only [hpte', Bool.false_eq_true, if_false] at h
    rcases run_bind_error.1 h with hin | ⟨m₁, o, -, h⟩
    · exact run_reuseSwapIn_noVictim hin
    · cases o with
      | none => cases h
      | some f => exact absurd h hvisit

theorem run_reuseLoop_noVictim {p : Pid} {vmaid last : Int} : ∀ (fuel : Nat) {m : Machine} {i : Int}, m.lru ≠ [] →
    run (reuseLoop p vmaid last fuel i) m ≠ .error .noVictim
  | 0, m, i, _, h => by cases h
  | fuel + 1, m, i, hlru, h => by
    rw [reuseLoop] at h
    split at h
    · cases h
    · rcases run_bind_error.1 h with h | ⟨m₁, r, hr, h⟩
      · unfold pgdAt at h
        split at h <;> cases h
      · have hm : m₁ = m := (run_pgdAt hr).1
        rcases run_bind_error.1 h with h | ⟨m₂, b, hpage, h⟩
        · exact hlru (hm ▸ run_reusePage_noVictim h)
        · rcases run_reusePage hpage with ⟨rfl, -, hne⟩ | ⟨rfl, -, -⟩
          · exact run_reuseLoop_noVictim fuel hne h
          · cases h

theorem run_allocPagesRange_noVictim {n : Nat} : ∀ (k : Nat) {m : Machine} {frmLst : List Nat},
    FrameInv n (frmLst, m) → frmLst.length + k ≤ n → run (allocPagesRange k frmLst) m ≠ .error .noVictim
  | 0, m, frmLst, _, _, h => by cases h
  | k + 1, m, frmLst, hinv, hk, h => by
    cases hfree : m.mram.freeFpList with
    | cons f rest =>
      rw [allocPagesRange, run_getFreefp_cons m .mram hfree] at h
      exact run_allocPagesRange_noVictim k (hinv.take hfree) (by rw [List.length_cons]; omega) h
    | nil =>
      rw [allocPagesRange, run_getFreefp_nil m .mram hfree] at h
      obtain ⟨vic, swpfpn, m₀, htaken, h⟩ := run_victimAndFrame h
      -- with no node to choose all frames would be held, but too few are
      have hsome : m.lru ≠ [] := by
        intro hlru
        have hlen := hinv.frames.length_eq
        simp only [hfree, hlru, List.map_nil, List.nil_append, List.length_range] at hlen
        omega
      cases htaken with
      | neither hlru hswp => exact hsome hlru
      | noVictim hlru hswp => exact hsome hlru
      | noFrame hlru hswp => cases h
      | both hlru hswp =>
        simp only [theVictim, run_pure_bind] at h
        rcases run_bind_error.1 h with h | ⟨m₁, _, hout, h⟩
        · exact run_swapCpPage_noVictim h
        · rw [run_swapCpPage (by decide) hout] at h
          simp only [run_setSwap] at h
          exact run_allocPagesRange_noVictim k (hinv.evicted hlru _ _) (by rw [List.length_cons]; omega) h

theorem run_vmapLoop_noVictim {p : Pid} {vmaid pgn : Int} : ∀ (n : Nat) {m : Machine} {frames : List Nat},
    run (vmapLoop p vmaid pgn n frames) m ≠ .error .noVictim
  | 0, m, frames, h => by cases h
  | n + 1, m, [], h => by cases h
  | n + 1, m, f :: frames, h => by
    rcases run_bind_error.1 h with h | ⟨m₁, r, hr, h⟩
    · unfold pgdAt at h
      split at h <;> split at h <;> cases h
    · exact run_vmapLoop_noVictim n h

theorem run_vmMapRam_noVictim {n : Nat} {p : Pid} {vmaid mapstart k : Int} (hinv : FrameInv n ([], m)) (hk : k ≤ n) :
    run (vmMapRam p vmaid mapstart k) m ≠ .error .noVictim := by
  intro h
  simp only [vmMapRam, run_lock, run_note] at h
  rcases run_bind_error.1 h with h | ⟨m₁, o, halloc, h⟩
  · have hinv' : FrameInv n ([], m.noted (.mapRam k)) := hinv.congr rfl rfl rfl
    refine run_allocPagesRange_noVictim k.toNat hinv' ?_ h
    simp only [List.length_nil]
    omega
  · cases o with
    | none => cases h
    | some fs =>
      simp only [run_getMm] at h
      rcases run_bind_error.1 h with h | ⟨m₂, _, -, h⟩
      · exact run_vmapLoop_noVictim _ h
      · cases h

end Faults

/-! ## No call fails to find a victim -/

section Calls

variable {n : Nat} {m : Machine} {p : Pid}

theorem run_symrgAt_noVictim {rgid : Int} : run (symrgAt rgid) m ≠ .error .noVictim := by
  intro h
  unfold symrgAt at h
  split at h <;> cases h

/-- **`__alloc` finds its victims**: it asks for no more pages than RAM has frames, and reuses a region only if some
page is resident. -/
theorem run_alloc_noVictim {fuel : Nat} {vmaid rgid size : Int} (hinv : FrameInv n ([], m))
    (hk : incNumpage (m.mm p) vmaid size ≤ n)
    (hreuse : m.lru ≠ [] ∨ ∀ rg ∈ ((m.mm p).vma vmaid).vmFreergList, fits vmaid size rg = false) :
    run (alloc fuel p vmaid rgid size) m ≠ .error .noVictim := by
  intro h
  rw [alloc, run_getMm] at h
  split at h
  · cases h
  · rename_i l rg hget
    rcases run_bind_error.1 h with h | ⟨m₁, i, hi, h⟩
    · exact run_symrgAt_noVictim h
    · obtain ⟨rfl, -, -⟩ := run_symrgAt hi
      rw [run_setMm] at h
      rcases hreuse with hlru | hfit
      · exact run_reuseLoop_noVictim _ (by simpa using hlru) h
      · cases (getFreeVmrgArea_of_not_fits hfit hget).2
  · rename_i l hget
    rw [run_setMm, allocAtBrk, run_getMm] at h
    simp only [Machine.setMm_mm, Function.update_self, outOfVirtual_setFreerg, pastVmEnd_setFreerg] at h
    -- the region is entered in the table without a search for a victim
    have hcommit : ∀ {m₁ : Machine}, run (do
        let i ← symrgAt rgid
        let mm ← Code.getMm p
        Code.setMm p (commitRegion mm vmaid i size)
        pure 0) m₁ ≠ (.error .noVictim : Except Fault (Machine × Int)) := by
      intro m₁ h
      rcases run_bind_error.1 h with h | ⟨m₂, i, -, h⟩
      · exact run_symrgAt_noVictim h
      · cases h
    split at h
    · cases h
    · by_cases hpast : pastVmEnd (m.mm p) vmaid size = true
      · simp only [hpast, if_true] at h
        rcases run_bind_error.1 h with h | ⟨m₁, ret, -, h⟩
        · rw [incVmaLimit, run_getMm] at h
          simp only [Machine.setMm_mm, Function.update_self, incNumpage_setFreerg] at h
          split at h
          · cases h
          · rw [run_setMm] at h
            rcases run_bind_error.1 h with h | ⟨m₂, ret', -, h⟩
            · have hinv' : FrameInv n ([], (m.setMm p ((m.mm p).setFreerg vmaid l)).setMm p
                  (((m.mm p).setFreerg vmaid l).setVmEnd vmaid (newVmEnd ((m.mm p).setFreerg vmaid l) vmaid size))) :=
                hinv.congr rfl rfl rfl
              exact run_vmMapRam_noVictim hinv' hk h
            · split at h <;> cases h
        · split at h
          · cases h
          · exact hcommit h
      · have hpast' : pastVmEnd (m.mm p) vmaid size = false := by simpa using hpast
        simp only [hpast', Bool.false_eq_true, if_false, run_pure_bind] at h
        exact hcommit h

theorem run_pgGetpage_ne_noVictim {r : PteRef} (hn : 1 ≤ n)
    (hinv : FrameInv n ([], m) ∨ m.mswp.freeFpList = []) : run (pgGetpage r) m ≠ .error .noVictim := by
  intro h
  obtain ⟨hlru, hfree, hswp⟩ := run_pgGetpage_noVictim h
  rcases hinv with hinv | hnil
  · have hlen := hinv.frames.length_eq
    simp only [hfree, hlru, List.map_nil, List.nil_append, List.length_nil, List.length_range] at hlen
    omega
  · exact hswp hnil

theorem run_pgSetval_ne_noVictim {addr : Int} {v : Byte} {vmaid : Int} (hn : 1 ≤ n)
    (hinv : FrameInv n ([], m) ∨ m.mswp.freeFpList = []) : run (pgSetval p addr v vmaid) m ≠ .error .noVictim := by
  intro h
  rcases run_bind_error.1 h with h | ⟨m₁, o, -, h⟩
  · exact run_pgGetpage_ne_noVictim hn hinv h
  · cases o with
    | none => cases h
    | some fpn =>
      rcases run_op_error.1 h with hstep | ⟨m₂, _, -, h⟩
      · cases memphyWrite_error (map_error hstep)
      · cases h

theorem frames_turn (hn' : n ≤ 8192) {m' : Machine} (hturn : Turn m m')
    (hinv : FrameInv n ([], m) ∨ m.mswp.freeFpList = []) : FrameInv n ([], m') ∨ m'.mswp.freeFpList = [] := by
  rcases hinv with hinv | hnil
  · exact (hinv.move hn' hturn).imp_right And.right
  · refine Or.inr ?_
    cases hturn with
    | fill r hfree hpte => exact (Machine.copyPage_freeFpList _ _ _ _ _ .mswp).trans hnil
    | replace r hlru hs hpte => rw [hnil] at hs; cases hs
    | touch | revisit | retouch | ask | lose | loseNone => exact hnil

theorem run_free_noVictim {rgid : Int} (hn : 1 ≤ n) (hn' : n ≤ 8192) (hinv : FrameInv n ([], m)) :
    run (free p rgid) m ≠ .error .noVictim := by
  intro h
  rw [free, run_getMm] at h
  split at h
  · cases h
  · rcases run_bind_error.1 h with h | ⟨m₀, ⟨i, rg⟩, hsym, hrest⟩
    · unfold getSymrgByid at h
      split at h
      · cases h
      · split at h <;> cases h
    · obtain ⟨rfl, -, -⟩ := run_getSymrgByid hsym
      dsimp only at hrest
      split at hrest
      · cases hrest
      · rcases run_bind_error.1 hrest with hloop | ⟨m₁, _, -, hrest⟩
        · -- a page wiped may run out of swap, and the loop goes on
          have hkeep : ∀ (j : Nat) (s₁ s₂ : Machine), FrameInv n ([], s₁) ∨ s₁.mswp.freeFpList = [] →
              run (do let _ ← pgSetval p (int32 (rg.rgStart + j)) 0 rg.vmaid) s₁ = .ok (s₂, ()) →
                FrameInv n ([], s₂) ∨ s₂.mswp.freeFpList = [] := by
            intro j s₁ s₂ hs hbody
            obtain ⟨s₃, ret, hset, hret⟩ := run_bind_ok.1 hbody
            cases hret
            rcases run_pgSetval hset with ⟨-, s₄, hturn, -, -, mp, hwrite, rfl⟩ | ⟨-, hturn, -⟩
            · exact (frames_turn hn' hturn hs).imp
                (fun hf => hf.congr (memphyWrite_freeFpList hwrite) (by simp) (by simp)) id
            · exact frames_turn hn' hturn hs
          obtain ⟨j, m₁, -, -, hinv₁, hbody⟩ := exec_loop_error step
            (fun _ s => FrameInv n ([], s) ∨ s.mswp.freeFpList = []) (fun j s₁ s₂ _ _ => hkeep j s₁ s₂)
            (Or.inl hinv) hloop
          rcases run_bind_error.1 hbody with hbody | ⟨m₂, _, -, hret⟩
          · exact run_pgSetval_ne_noVictim hn hinv₁ hbody
          · cases hret
        · rw [run_getMm] at hrest
          split at hrest <;> cases hrest

theorem run_accessRg_noVictim {rgid offset : Int} : run (accessRg p rgid offset) m ≠ .error .noVictim := by
  intro h
  rw [accessRg, run_getMm] at h
  rcases run_bind_error.1 h with h | ⟨m₀, ⟨i, rg⟩, -, h⟩
  · unfold getSymrgByid at h
    split at h
    · cases h
    · split at h <;> cases h
  · dsimp only at h
    split at h
    · cases h
    · split at h
      · cases h
      · split at h <;> cases h

theorem run_updateLruLst_noVictim {α : Type} {ptr : PtePtr} {a : α} :
    run (do Code.updateLruLst ptr; pure a) m ≠ .error .noVictim := by
  intro h
  by_cases hlru : m.lru = []
  · rw [run_updateLruLst_nil m hlru] at h
    cases h
  · rw [run_updateLruLst m hlru] at h
    cases h

theorem run_read_noVictim {rgid offset : Int} (hn : 1 ≤ n) (hinv : FrameInv n ([], m)) :
    run (read p rgid offset) m ≠ .error .noVictim := by
  intro h
  rcases run_bind_error.1 h with h | ⟨m₀, o, hacc, hrest⟩
  · exact run_accessRg_noVictim h
  · obtain ⟨rfl, -⟩ := run_accessRg hacc
    cases o with
    | none => cases hrest
    | some rg =>
      rcases run_bind_error.1 hrest with h | ⟨m₁, data, -, h⟩
      · rcases run_bind_error.1 h with h | ⟨m₁, o, -, h⟩
        · exact run_pgGetpage_ne_noVictim hn (Or.inl hinv) h
        · cases o with
          | none => cases h
          | some fpn =>
            rcases run_op_error.1 h with hstep | ⟨m₂, _, -, h⟩
            · cases memphyRead_error (map_error hstep)
            · cases h
      · exact run_updateLruLst_noVictim h

theorem run_write_noVictim {rgid offset : Int} {v : Byte} (hn : 1 ≤ n) (hinv : FrameInv n ([], m)) :
    run (write p rgid offset v) m ≠ .error .noVictim := by
  intro h
  rcases run_bind_error.1 h with h | ⟨m₀, o, hacc, hrest⟩
  · exact run_accessRg_noVictim h
  · obtain ⟨rfl, -⟩ := run_accessRg hacc
    cases o with
    | none => cases hrest
    | some rg =>
      rcases run_bind_error.1 hrest with h | ⟨m₁, ret, -, h⟩
      · exact run_pgSetval_ne_noVictim hn (Or.inl hinv) h
      · exact run_updateLruLst_noVictim h

end Calls

/-! ## A region is reused only after some page was mapped -/

/-- A request of at least two bytes, of no more than the virtual memory has on the heap, and of no more pages than RAM
has frames. -/
def Reasonable (n : Nat) (m : Machine) (p : Pid) : Call → Prop
  | .pgalloc size _ => 2 ≤ size.toInt ∧ incNumpage (m.mm p) 0 size.toInt ≤ n
  | .pgmalloc size _ => 2 ≤ size.toInt ∧ size.toInt ≤ (m.mm p).vmemsz ∧ incNumpage (m.mm p) 1 size.toInt ≤ n
  | _ => True

/-- Some page is resident, or no process has any memory yet. -/
def Resident (v : Pid → Int) (m : Machine) : Prop := m.lru ≠ [] ∨ ∀ p, m.mm p = initMm zeroMm (v p)

section Fresh

variable {v size : Int} (hv : 0 < v) (hv' : v ≤ 4194304) (hs : 2 ≤ size)
include hv hv' hs

theorem initMm_not_fits {vmaid : Int} (hs' : size < 2147483648) (hheap : vmaid ≠ 0 → size ≤ v) :
    ∀ rg ∈ ((initMm zeroMm v).vma vmaid).vmFreergList, fits vmaid size rg = false := by
  intro rg hrg
  by_cases ha : vmaid = 0
  · subst ha
    simp only [initMm, Mm.vma, zeroMm, if_true, List.mem_singleton] at hrg
    subst hrg
    rw [fits, if_pos rfl, decide_eq_false_iff_not]
    simp only [initVmRg, ulong]
    omega
  · have hle := hheap ha
    simp only [initMm, Mm.vma, zeroMm, if_neg ha, List.mem_singleton] at hrg
    subst hrg
    rw [fits, if_neg ha, decide_eq_false_iff_not]
    simp only [initVmRg, ulong, int32, uint32]
    omega

theorem initMm_pastVmEnd {vmaid : Int} (hs' : size < 2147483648) (hheap : vmaid ≠ 0 → size ≤ v) :
    pastVmEnd (initMm zeroMm v) vmaid size = true := by
  by_cases ha : vmaid = 0
  · subst ha
    simp only [pastVmEnd, initMm, Mm.vma, if_true, ulong, int32, decide_eq_true_iff]
    omega
  · have hle := hheap ha
    simp only [pastVmEnd, initMm, Mm.vma, if_neg ha, ulong, int32, uint32, decide_eq_true_iff]
    omega

theorem initMm_incNumpage {vmaid : Int} (hs' : size < 2147483648) (hheap : vmaid ≠ 0 → size ≤ v)
    (hvirt : outOfVirtual (initMm zeroMm v) vmaid size = false) : 1 ≤ incNumpage (initMm zeroMm v) vmaid size := by
  have hle : size ≤ v := by
    by_cases ha : vmaid = 0
    · subst ha
      simp only [outOfVirtual, initMm, Mm.vma, if_true, uint32, int32, decide_eq_false_iff_not] at hvirt
      omega
    · exact hheap ha
  have hamt : incAmt (initMm zeroMm v) vmaid size = (size + 255) / 256 * 256 := by
    by_cases ha : vmaid = 0
    · subst ha
      simp only [incAmt, initMm, Mm.vma, if_true, pagingPageAlignsz, ulong, int32]
      omega
    · simp only [incAmt, initMm, Mm.vma, if_neg ha, pagingPageAlignsz, ulong, int32, uint32]
      omega
  rw [incNumpage, hamt, Int.mul_tdiv_cancel _ (by decide)]
  omega

end Fresh

theorem act_resident {a b : List Nat × Machine} (h : Act a b) (hswp : Event.outOfSwap ∉ b.2.trace)
    (ha : a.2.lru ≠ [] ∨ a.1 ≠ []) : b.2.lru ≠ [] ∨ b.1 ≠ [] := by
  cases h with
  | store hstored =>
    obtain ⟨-, mp, -, rfl⟩ := hstored
    exact ha.imp_left (fun hlru => by simpa using hlru)
  | setMm m p mm => exact ha
  | move hmove =>
    cases hmove with
    | take | evict => exact Or.inr (List.cons_ne_nil _ _)
    | map | fill | replace => exact Or.inl (Lru.addLruPage_ne_nil _ _)
    | touch => exact Or.inl (Lru.addLruPage_ne_nil _ _)
    | revisit r old hpte hf hlru hwho => exact Or.inl (Lru.moveToTail_ne_nil hlru)
    | retouch r hlru hwho => exact Or.inl (Lru.moveToTail_ne_nil hlru)
    | ask k => exact ha
    | lose | loseNone => simp at hswp

theorem act_maps {p : Pid} {vmaid : Int} {a b : List Nat × Machine} (h : Act a b) :
    b.2.lru ≠ [] ∨ mapsOf p vmaid b.2.trace = mapsOf p vmaid a.2.trace := by
  cases h with
  | store hstored => obtain ⟨-, mp, -, rfl⟩ := hstored; exact Or.inr (by simp)
  | setMm m p mm => exact Or.inr rfl
  | move hmove =>
    cases hmove with
    | map => exact Or.inl (Lru.addLruPage_ne_nil _ _)
    | take hfree => exact Or.inr (by simp)
    | evict hfree hlru hs => exact Or.inr (by simp [Machine.evicted])
    | fill => exact Or.inl (Lru.addLruPage_ne_nil _ _)
    | replace => exact Or.inl (Lru.addLruPage_ne_nil _ _)
    | touch => exact Or.inl (Lru.addLruPage_ne_nil _ _)
    | revisit r old hpte hf hlru hwho => exact Or.inl (Lru.moveToTail_ne_nil hlru)
    | retouch r hlru hwho => exact Or.inl (Lru.moveToTail_ne_nil hlru)
    | ask k => exact Or.inr (by simp [mapsOf_append, mapsOf])
    | lose hlru hs => exact Or.inr (by simp [mapsOf_append, mapsOf])
    | loseNone hlru hs => exact Or.inr (by simp [mapsOf_append, mapsOf])

section Resident

variable {v : Pid → Int} {n : Nat} {m m' : Machine} {p : Pid} (hv : ∀ p, 0 < v p ∧ v p ≤ 4194304)
include hv

theorem allocated_resident {fuel : Nat} {vmaid rgid size ret : Int} (hfresh : ∀ p, m.mm p = initMm zeroMm (v p))
    (hs : 2 ≤ size) (hs' : size < 2147483648) (hheap : vmaid ≠ 0 → size ≤ v p)
    (h : Allocated fuel p vmaid rgid size m m' ret) (hswp : Event.outOfSwap ∉ m'.trace) : Resident v m' := by
  have hmm := hfresh p
  have hfit := initMm_not_fits (hv p).1 (hv p).2 hs hs' hheap
  cases h with
  | reused hid hget hturns hret =>
    rw [hmm] at hget
    cases (getFreeVmrgArea_of_not_fits hfit hget).2
  | refused hget hwhy =>
    refine Or.inr (fun p' => ?_)
    rw [hmm] at hget
    rw [(getFreeVmrgArea_of_not_fits hfit hget).1, ← hmm, Mm.setFreerg_self, Machine.setMm_mm, Function.update_eq_self]
    exact hfresh p'
  | fitted hid hget hvirt hpast =>
    rw [hmm, initMm_pastVmEnd (hv p).1 (hv p).2 hs hs' hheap] at hpast
    cases hpast
  | @grown l m₂ hid hget hvirt hpast hover hmoves hmaps hother =>
    have hpos : 1 ≤ incNumpage (m.mm p) vmaid size := by
      rw [hmm] at hvirt ⊢
      exact initMm_incNumpage (hv p).1 (hv p).2 hs hs' hheap hvirt
    -- with no page resident at the end, none would have been mapped
    have hkeep : m₂.lru ≠ [] ∨ ([] : List Nat) ≠ [] ∨ mapsOf p vmaid m₂.trace = mapsOf p vmaid m.trace := by
      refine acts_keep (· ≠ .outOfSwap)
        (fun s => s.2.lru ≠ [] ∨ s.1 ≠ [] ∨ mapsOf p vmaid s.2.trace = mapsOf p vmaid m.trace)
        (fun {a b} hact hfine ha => ?_) (moves_acts hmoves) (fun e he hout => hswp (hout ▸ he)) (Or.inr (Or.inr rfl))
      have hout : Event.outOfSwap ∉ b.2.trace := fun hmem => hfine _ hmem rfl
      rcases ha with hlru | hheld | hbase
      · exact (act_resident hact hout (Or.inl hlru)).imp_right Or.inl
      · exact (act_resident hact hout (Or.inr hheld)).imp_right Or.inl
      · exact (act_maps hact).imp_right (fun hsame => Or.inr (hsame.trans hbase))
    rcases hkeep with hlru | hheld | hsame
    · exact Or.inl hlru
    · exact absurd rfl hheld
    · obtain ⟨k, hk⟩ : ∃ k, (incNumpage (m.mm p) vmaid size).toNat = k + 1 :=
        Nat.exists_eq_succ_of_ne_zero (by omega)
      simp [hmaps, hk, vmapPages] at hsame

theorem callStep_resident {ok : Machine → Pid → Call → Prop} (hok : ∀ m p c, ok m p c → Reasonable n m p c)
    (h : CallStep ok m m') (hswp : Event.outOfSwap ∉ m'.trace) (hres : Resident v m) : Resident v m' := by
  rcases hres with hlru | hfresh
  · have := acts_keep (· ≠ .outOfSwap) (fun s => s.2.lru ≠ [] ∨ s.1 ≠ [])
      (fun hact hfine => act_resident hact (fun hmem => hfine _ hmem rfl)) (callStep_acts h)
      (fun e he hout => hswp (hout ▸ he)) (Or.inl hlru)
    exact Or.inl (this.resolve_right (fun hne => hne rfl))
  · obtain ⟨p, c, ret, hcall, fuel, hrun⟩ := h
    have hreq := hok m p c hcall
    have htbl : ∀ i, (m.mm p).symrgtbl i = ⟨0, 0, 0⟩ := fun i => by rw [hfresh p]; rfl
    cases c with
    | pgalloc size regIndex =>
      obtain ⟨m₁, _, halloc, hret⟩ := run_bind_ok.1 hrun
      cases hret
      have hlt := size.toInt_lt
      exact allocated_resident hv hfresh hreq.1 (by omega) (fun hne => absurd rfl hne) (run_alloc halloc) hswp
    | pgmalloc size regIndex =>
      obtain ⟨m₁, _, halloc, hret⟩ := run_bind_ok.1 hrun
      cases hret
      have hlt := size.toInt_lt
      have hle : size.toInt ≤ v p := by
        have := hreq.2.1
        rwa [hfresh p] at this
      exact allocated_resident hv hfresh hreq.1 (by omega) (fun _ => hle) (run_alloc halloc) hswp
    | pgfreeData regIndex =>
      obtain ⟨m₁, _, hfree, hret⟩ := run_bind_ok.1 hrun
      cases hret
      cases run_free hfree with
      | refused => exact Or.inr hfresh
      | freed hid hrg hvma hstores => rw [htbl] at hrg; exact absurd rfl hrg
    | pgread source offset =>
      rcases run_read hrun with ⟨-, rfl⟩ | ⟨-, ⟨-, -, -, hrg, -⟩, -⟩
      · exact Or.inr hfresh
      · rw [htbl] at hrg; exact absurd rfl hrg
    | pgwrite data destination offset =>
      obtain ⟨m₁, _, hwrite, hret⟩ := run_bind_ok.1 hrun
      cases hret
      rcases run_write hwrite with ⟨-, rfl⟩ | ⟨-, ⟨-, -, -, hrg, -⟩, -⟩
      · exact Or.inr hfresh
      · rw [htbl] at hrg; exact absurd rfl hrg

/-- **Every run leaves a page resident**, or every process without memory. -/
theorem run_resident {ok : Machine → Pid → Call → Prop} (hok : ∀ m p c, ok m p c → Reasonable n m p c)
    (h : Run ok m m') (hswp : Event.outOfSwap ∉ m'.trace) (hres : Resident v m) : Resident v m' := by
  induction h with
  | refl => exact hres
  | tail _ hd ih =>
    exact callStep_resident hv hok hd hswp (ih (fun hout => hswp ((callStep_trace hd).subset hout)))

/-- **No call finds the LRU list empty** where the frames are in order and some page is resident, or nothing is
allocated. -/
theorem call_noVictim {c : Call} {fuel : Nat} (hn : 1 ≤ n) (hn' : n ≤ 8192) (hinv : FrameInv n ([], m))
    (hres : Resident v m) (hreq : Reasonable n m p c) : run (c.code fuel p) m ≠ .error .noVictim := by
  intro h
  cases c with
  | pgalloc size regIndex =>
    rcases run_bind_error.1 h with h | ⟨m₁, ret, -, h⟩
    · refine run_alloc_noVictim hinv hreq.2 (hres.imp_right (fun hfresh => ?_)) h
      have hlt := size.toInt_lt
      rw [hfresh p]
      exact initMm_not_fits (hv p).1 (hv p).2 hreq.1 (by omega) (fun hne => absurd rfl hne)
    · cases h
  | pgmalloc size regIndex =>
    rcases run_bind_error.1 h with h | ⟨m₁, ret, -, h⟩
    · refine run_alloc_noVictim hinv hreq.2.2 (hres.imp_right (fun hfresh => ?_)) h
      have hlt := size.toInt_lt
      have hle := hreq.2.1
      rw [hfresh p] at hle ⊢
      exact initMm_not_fits (hv p).1 (hv p).2 hreq.1 (by omega) (fun _ => hle)
    · cases h
  | pgfreeData regIndex =>
    rcases run_bind_error.1 h with h | ⟨m₁, ret, -, h⟩
    · exact run_free_noVictim hn hn' hinv h
    · cases h
  | pgread source offset => exact run_read_noVictim hn hinv h
  | pgwrite data destination offset =>
    rcases run_bind_error.1 h with h | ⟨m₁, ret, -, h⟩
    · exact run_write_noVictim hn hinv h
    · cases h

end Resident

/-! ## The frames of RAM -/

theorem act_emptyVictim {a b : List Nat × Machine} (h : Act a b)
    (ha : Event.emptyVictim ∈ a.2.trace → Event.outOfSwap ∈ a.2.trace) :
    Event.emptyVictim ∈ b.2.trace → Event.outOfSwap ∈ b.2.trace := by
  cases h with
  | store hstored => obtain ⟨-, mp, -, rfl⟩ := hstored; simpa using ha
  | setMm m p mm => exact ha
  | move hmove =>
    cases hmove with
    | lose | loseNone => intro _; simp
    | take | evict | map | fill | replace | touch | revisit | retouch | ask =>
      simpa [Machine.placed, Machine.referenced, Machine.evicted] using ha

/-- **Every RAM frame has one owner.**  Between the calls of any run in which swap lasts, every frame is free once
or under one node of the LRU list, no two present pages share a frame, and the node of a present page's frame points
to that page; so no search for a victim finds the list empty, be it in a call that completes or, where requests are
of at least two bytes and of no more pages than RAM has frames, in any other. -/
theorem frames_owned {n : Nat} {ok : Machine → Pid → Call → Prop} {m₀ m : Machine} (hn : 1 ≤ n) (hn' : n ≤ 8192)
    (hboot : Booted m₀) (hfree : m₀.mram.freeFpList.Perm (List.range n)) (hrun : Run ok m₀ m)
    (hswp : Event.outOfSwap ∉ m.trace) :
    (∀ f < n, m.mram.freeFpList.count f + (m.lru.map (·.fpn)).count f = 1) ∧
      (∀ f, f ∈ m.mram.freeFpList ∨ f ∈ m.lru.map (·.fpn) → f < n) ∧
      (∀ r r', (m.pgd r).present = true → (m.pgd r').present = true → (m.pgd r).fpn = (m.pgd r').fpn → r = r') ∧
      (∀ r, (m.pgd r).present = true →
        (∃ node ∈ m.lru, node.fpn = (m.pgd r).fpn) ∧ ∀ node ∈ m.lru, node.fpn = (m.pgd r).fpn → node.pte = r) ∧
      Event.emptyVictim ∉ m.trace ∧
      ∀ v : Pid → Int, (∀ p, 0 < v p ∧ v p ≤ 4194304) → (∀ p, m₀.mm p = initMm zeroMm (v p)) →
        (∀ m p c, ok m p c → Reasonable n m p c) →
          ∀ p c fuel, Reasonable n m p c → run (c.code fuel p) m ≠ .error .noVictim := by
  have hfine : ∀ e ∈ m.trace, e ≠ .outOfSwap := fun e he hout => hswp (hout ▸ he)
  have hinv : FrameInv n ([], m) := run_keeps (· ≠ .outOfSwap) (FrameInv n)
    (fun hact hfine h => h.act hn' hact (fun hmem => hfine _ hmem rfl)) hrun hfine (hboot.frames hfree)
  have hempty : Event.emptyVictim ∈ m.trace → Event.outOfSwap ∈ m.trace := run_keeps (· ≠ .outOfSwap)
    (fun s => Event.emptyVictim ∈ s.2.trace → Event.outOfSwap ∈ s.2.trace)
    (fun hact _ h => act_emptyVictim hact h) hrun hfine (by simp [hboot.trace])
  have hperm : (m.mram.freeFpList ++ m.lru.map (·.fpn)).Perm (List.range n) := by simpa using hinv.frames
  refine ⟨fun f hf => ?_, fun f hf => ?_, fun r r' => hinv.fpn_inj, fun r hr => ⟨?_, fun node => hinv.node_pte hr⟩,
    fun hmem => hswp (hempty hmem), fun v hv hmm hok p c fuel hreq => ?_⟩
  · rw [← List.count_append, hperm.count_eq]
    exact List.count_eq_one_of_mem List.nodup_range (List.mem_range.2 hf)
  · exact List.mem_range.1 (hperm.mem_iff.1 (List.mem_append.2 hf))
  · obtain ⟨node, hmem, -, hfpn⟩ := hinv.owner r hr
    exact ⟨node, hmem, hfpn⟩
  · exact call_noVictim hv hn hn' hinv (run_resident hv hok hrun hswp (Or.inr hmm)) hreq

/-- Two frames, three pages: every byte written, so that pages go out to swap and back. -/
theorem frames_owned_twoFrames : ∃ m, Run anyCall (boot 512 16384 4096) m ∧ m.mram.freeFpList = [] ∧
    (m.lru.map (·.fpn)).count 0 = 1 ∧ (m.lru.map (·.fpn)).count 1 = 1 := by
  have hsome : (runCalls (fun _ _ _ => true) 10 [(0, .pgalloc 300 0), (1, .pgalloc 200 0), (0, .pgwrite 5 0 0)]
      (boot 512 16384 4096)).any (fun q => q.1.mram.freeFpList = [] ∧ Event.outOfSwap ∉ q.1.trace) = true := by
    decide +kernel
  obtain ⟨⟨m, rets⟩, hm, hq⟩ := (Option.any_eq_true _ _).1 hsome
  simp only [decide_eq_true_iff] at hq
  have hrun : Run anyCall (boot 512 16384 4096) m := run_of_runCalls (fun _ _ _ _ => trivial) _ hm
  obtain ⟨hone, -⟩ := @frames_owned 2 _ _ _ (by decide) (by decide) (booted_boot 512 16384 4096)
    (by rw [show (boot 512 16384 4096).mram.freeFpList = List.range 2 from rfl]) hrun hq.2
  have h0 := hone 0 (by decide)
  have h1 := hone 1 (by decide)
  rw [hq.1] at h0 h1
  exact ⟨m, hrun, hq.1, by simpa using h0, by simpa using h1⟩

end OsSim
