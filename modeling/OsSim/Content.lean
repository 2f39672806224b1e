import OsSim.Frames
import OsSim.Swap
/-!
# Content — the bytes of a page, wherever the page is

A page that has been mapped has its bytes in a RAM frame or in a swap frame.  While every frame has one owner, in
RAM and in swap, and each page is brought back from the swap frame it is in, a move changes where pages are and no
byte of them.
-/
namespace OsSim

open Atomic Code

/-- **Every frame has one owner, in RAM and in swap**, and both devices are random access. -/
structure MemInv (n ns : Nat) (s : List Nat × Machine) : Prop where
  frames : FrameInv n s
  swap : SwapInv ns s.2
  mram : s.2.mram.rdmflg = true
  mswp : s.2.mswp.rdmflg = true

def SameBytes (m m' : Machine) : Prop :=
  ∀ (q : PteRef) (j : Nat) (x : Byte), j < 256 → m.pageByte q j = some x → m'.pageByte q j = some x

theorem SameBytes.refl (m : Machine) : SameBytes m m := fun _ _ _ _ h => h

theorem SameBytes.trans {m₁ m₂ m₃ : Machine} (h₁ : SameBytes m₁ m₂) (h₂ : SameBytes m₂ m₃) : SameBytes m₁ m₃ :=
  fun q j x hj hx => h₂ q j x hj (h₁ q j x hj hx)

theorem pageByte_present {m : Machine} {q : PteRef} (h : (m.pgd q).present = true) (j : Nat) :
    m.pageByte q j = some (m.mram.page (m.pgd q).fpn j) := by
  rw [Machine.pageByte, if_pos h]

theorem pageByte_swapped {m : Machine} {q : PteRef} (hp : (m.pgd q).present = false) (hs : (m.pgd q).swapped = true)
    (j : Nat) : m.pageByte q j = some (m.mswp.page (m.pgd q).swpoff j) := by
  rw [Machine.pageByte, if_neg (by simp [hp]), if_pos hs]

theorem pageByte_none {m : Machine} {q : PteRef} (hp : (m.pgd q).present = false) (hs : (m.pgd q).swapped = false)
    (j : Nat) : m.pageByte q j = none := by
  rw [Machine.pageByte, if_neg (by simp [hp]), if_neg (by simp [hs])]

theorem pageByte_congr {m m' : Machine} {q : PteRef} {j : Nat} (hpgd : m'.pgd q = m.pgd q)
    (hram : (m.pgd q).present = true → m'.mram.page (m.pgd q).fpn j = m.mram.page (m.pgd q).fpn j)
    (hswp : (m.pgd q).present = false → (m.pgd q).swapped = true →
      m'.mswp.page (m.pgd q).swpoff j = m.mswp.page (m.pgd q).swpoff j) : m'.pageByte q j = m.pageByte q j := by
  unfold Machine.pageByte
  rw [hpgd]
  split
  · rename_i hp
    rw [hram hp]
  · rename_i hp
    split
    · rename_i hs
      rw [hswp (by simpa using hp) hs]
    · rfl

/-! ## What each piece of a move does to the bytes -/

theorem FrameInv.held_ne {n f : Nat} {held : List Nat} {m : Machine} (h : FrameInv n (f :: held, m)) {q : PteRef}
    (hq : (m.pgd q).present = true) : (m.pgd q).fpn ≠ f := by
  intro hf
  have hmem := h.fpn_mem hq
  rw [hf] at hmem
  exact (List.nodup_append.1 h.nodup).2.2 f (List.mem_append_right _ hmem) f (by simp) rfl

theorem pageByte_placed (m : Machine) (r : PteRef) {f : Nat} (hf : f < 8192) (e : Event) (q : PteRef) (j : Nat) :
    (m.placed r f e).pageByte q j = if q = r then some (m.mram.page f j) else m.pageByte q j := by
  have hpgd := Machine.placed_pgd m r f e
  by_cases hq : q = r
  · subst hq
    have hpte : (m.placed q f e).pgd q = pteSetFpn (m.pgd q) f := by rw [hpgd, Function.update_self]
    rw [if_pos rfl, pageByte_present (by rw [hpte, present_pteSetFpn]), hpte, fpn_pteSetFpn, Nat.mod_eq_of_lt hf]
    rfl
  · rw [if_neg hq]
    exact pageByte_congr (by rw [hpgd, Function.update_of_ne hq]) (fun _ => rfl) (fun _ _ => rfl)

/-- **A frame written over** that no page has: every page keeps its bytes. -/
theorem pageByte_copyIn {m : Machine} {t f : Nat} {q : PteRef} (hq : (m.pgd q).present = true → (m.pgd q).fpn ≠ f)
    {j : Nat} (hj : j < 256) : (m.copyPage .mswp t .mram f).pageByte q j = m.pageByte q j := by
  refine pageByte_congr (by simp) (fun hp => ?_) (fun _ _ => rfl)
  change (if m.mram.rdmflg then m.mram.paste f (m.mswp.page t) else m.mram).page (m.pgd q).fpn j = _
  split
  · rw [Memphy.page_paste _ _ _ _ hj, if_neg (hq hp)]
  · rfl

theorem page_copyIn {m : Machine} (hr : m.mram.rdmflg = true) (t f : Nat) {j : Nat} (hj : j < 256) :
    (m.copyPage .mswp t .mram f).mram.page f j = m.mswp.page t j := by
  change (if m.mram.rdmflg then m.mram.paste f (m.mswp.page t) else m.mram).page f j = _
  rw [if_pos hr, Memphy.page_paste _ _ _ _ hj, if_pos rfl]

namespace MemInv

variable {n ns : Nat} {held : List Nat} {m m' : Machine}

/-- **A victim's bytes go along** to its swap frame, which was free. -/
theorem evicted_bytes (h : MemInv n ns (held, m)) (hns : ns ≤ 2097152) {v : LruNode} {lru : List LruNode}
    (hlru : m.lru = v :: lru) {s : Nat} {rest : List Nat} (hswp : m.mswp.freeFpList = s :: rest) {q : PteRef} {j : Nat}
    {x : Byte} (hj : j < 256) (hx : m.pageByte q j = some x) : (m.evicted v lru s rest).pageByte q j = some x := by
  have hv : v ∈ m.lru := by simp [hlru]
  have hs : s ∈ m.mswp.freeFpList := by simp [hswp]
  have hmswp := Machine.evicted_mswp h.mswp v lru s rest
  by_cases hq : q = v.pte
  · subst hq
    have hpte : (m.evicted v lru s rest).pgd v.pte = pteSetSwap (m.pgd v.pte) indexOfActiveMswp s := by
      simp [Machine.evicted]
    have hlt : s < 2097152 := Nat.lt_of_lt_of_le (h.swap.pool.free_lt s hs) hns
    rw [pageByte_swapped (by rw [hpte, present_pteSetSwap]) (by rw [hpte, swapped_pteSetSwap]), hpte, swpoff_pteSetSwap,
      Nat.mod_eq_of_lt hlt, hmswp]
    rw [pageByte_present (h.swap.nodes.present v hv), h.swap.nodes.fpn v hv] at hx
    exact (congrArg some ((m.mswp.page_paste s s _ hj).trans (if_pos rfl))).trans hx
  · rw [← hx]
    refine pageByte_congr (by simp [Machine.evicted, hq]) (fun _ => rfl) (fun _ hout => ?_)
    -- a page that is out has a swap frame of its own, which is not free
    have howned : swapOwned m.pgd q = some (m.pgd q).swpoff := by rw [swapOwned, if_pos hout]
    have hne : (m.pgd q).swpoff ≠ s := by
      intro hq
      exact h.swap.pool.not_free howned (by rwa [hq])
    rw [hmswp]
    exact (m.mswp.page_paste s _ _ hj).trans (if_neg hne)

theorem move_bytes (h : MemInv n ns (held, m)) (hn : n ≤ 8192) (hns : ns ≤ 2097152) {held' : List Nat}
    (hmove : Move held m held' m') (hfine : ∀ e ∈ m'.trace, SwapFine e) : SameBytes m m' := by
  intro q j x hj hx
  cases hmove with
  | take hfree => exact hx
  | evict hfree hlru hs => exact h.evicted_bytes hns hlru hs hj hx
  | @map _ _ f r vmaid =>
    have hf : f < n := List.mem_range.1 (h.frames.frames.mem_iff.1 (by simp))
    rw [pageByte_placed m r (by omega)]
    have hnew := hfine (.mapped r vmaid (m.pgd r)) (by simp [Machine.placed, Machine.referenced])
    by_cases hq : q = r
    · subst hq
      rw [pageByte_none hnew.1 hnew.2] at hx
      cases hx
    · rw [if_neg hq]
      exact hx
  | @fill _ _ f rest r hfree hpte =>
    have htaken := h.frames.take hfree
    have hf : f < n := List.mem_range.1 (h.frames.frames.mem_iff.1 (by simp [hfree]))
    rw [pageByte_placed _ r (by omega)]
    by_cases hq : q = r
    · -- while RAM has a free frame no page is out
      subst hq
      have hin : (m.pgd q).swapped = false := by
        by_contra hout
        have hfull := h.swap.full q (by simpa using hout)
        rw [hfree] at hfull
        cases hfull
      rw [pageByte_none hpte hin] at hx
      cases hx
    · rw [if_neg hq, pageByte_copyIn (fun hp => htaken.held_ne hp) hj]
      exact hx
  | @replace _ _ v lru s rest r hlru hs hpte =>
    have hevicted := h.frames.evicted hlru s rest
    have hv : v.fpn < n := List.mem_range.1 (hevicted.frames.mem_iff.1 (by simp))
    have hold := hfine (.replaced r (m.pgd r)) (by simp [Machine.placed, Machine.referenced])
    have hx' := h.evicted_bytes hns hlru hs hj hx
    rw [pageByte_placed _ r (by omega)]
    by_cases hq : q = r
    · subst hq
      rw [if_pos rfl, ← hx']
      have hne : q ≠ v.pte := fun e => h.swap.nodes.pte_ne hpte v (by simp [hlru]) e.symm
      have hpgd : (m.evicted v lru s rest).pgd q = m.pgd q := by simp [Machine.evicted, hne]
      rw [pageByte_swapped (by rw [hpgd, hpte]) (by rw [hpgd, hold.1]), hpgd, ← hold.2]
      have hr : (m.evicted v lru s rest).mram.rdmflg = true := h.mram
      exact congrArg some (page_copyIn hr (m.pgd q).fpn v.fpn hj)
    · rw [if_neg hq]
      exact (pageByte_copyIn (fun hp => hevicted.held_ne hp) hj).trans hx'
  | touch r hpte => exact hx
  | revisit r old hpte hf hlru hwho => exact hx
  | retouch r hlru hwho => exact hx
  | ask k => exact hx
  | lose hlru hs => exact hx
  | loseNone hlru hs => exact hx

end MemInv

theorem Machine.copyPage_rdmflg (m : Machine) (src dst d : Dev) (f g : Nat) :
    ((m.copyPage src f dst g).dev d).rdmflg = (m.dev d).rdmflg := by
  by_cases h : d = dst
  · subst h
    rw [Machine.copyPage, Machine.dev_setDev]
    split <;> rfl
  · rw [Machine.copyPage, Machine.dev_setDev_of_ne _ _ h]

theorem Move.rdmflg {held held' : List Nat} {m m' : Machine} (h : Move held m held' m') (d : Dev) :
    (m'.dev d).rdmflg = (m.dev d).rdmflg := by
  have hfree : ∀ (m : Machine) (e : Dev) (l : List Nat), ((m.setFree e l).dev d).rdmflg = (m.dev d).rdmflg := by
    intro m e l
    cases e <;> cases d <;> rfl
  have hplaced : ∀ (m : Machine) (r : PteRef) (f : Nat) (e : Event),
      ((m.placed r f e).dev d).rdmflg = (m.dev d).rdmflg := by
    intro m r f e
    cases d <;> rfl
  have hevicted : ∀ (m : Machine) (v : LruNode) (lru : List LruNode) (s : Nat) (rest : List Nat),
      ((m.evicted v lru s rest).dev d).rdmflg = (m.dev d).rdmflg := by
    intro m v lru s rest
    rw [Machine.evicted, Machine.setPte_dev, Machine.copyPage_rdmflg, hfree]
    cases d <;> rfl
  cases h with
  | take => exact hfree _ _ _
  | evict => exact hevicted _ _ _ _ _
  | map => exact hplaced _ _ _ _
  | fill => rw [hplaced, Machine.copyPage_rdmflg, hfree]
  | replace => rw [hplaced, hfree, Machine.copyPage_rdmflg, hevicted]
  | _ => cases d <;> rfl

namespace MemInv

variable {n ns : Nat} {held : List Nat} {m m' : Machine}

theorem move (h : MemInv n ns (held, m)) (hn : n ≤ 8192) (hns : ns ≤ 2097152) {held' : List Nat}
    (hmove : Move held m held' m') (hfine : ∀ e ∈ m'.trace, SwapFine e) : MemInv n ns (held', m') where
  frames := (h.frames.move hn hmove).resolve_right (fun hout => hfine _ hout.1)
  swap := h.swap.move hns hmove hfine
  mram := (hmove.rdmflg .mram).trans h.mram
  mswp := (hmove.rdmflg .mswp).trans h.mswp

theorem setMm (h : MemInv n ns (held, m)) (p : Pid) (mm : Mm) : MemInv n ns (held, m.setMm p mm) where
  frames := h.frames.congr rfl rfl rfl
  swap := h.swap.congr rfl rfl rfl id
  mram := h.mram
  mswp := h.mswp

end MemInv

/-! ## A byte stored -/

theorem page_update (mp : Memphy) (a : Nat) (v : Byte) (f j : Nat) :
    Memphy.page { mp with storage := Function.update mp.storage a v } f j =
      if f * 256 + j = a then v else mp.page f j := by
  simp only [Memphy.page, Function.update_apply]

theorem Stored.trace_prefix {r : PteRef} {vmaid : Int} {off : Nat} {v : Byte} {m m' : Machine}
    (h : Stored r vmaid off v m m') :
    m.trace <+: m'.trace := by
  obtain ⟨-, mp, -, rfl⟩ := h
  exact List.prefix_refl _

theorem stored_bytes {n ns : Nat} {m m' : Machine} (h : MemInv n ns ([], m)) {r : PteRef} {vmaid : Int} {off : Nat}
    {v : Byte} (hoff : off < 256) (hstored : Stored r vmaid off v m m') :
    MemInv n ns ([], m') ∧ m'.pageByte r (inPage vmaid off) = some v ∧
      ∀ (q : PteRef) (j : Nat), j < 256 → ¬(q = r ∧ j = inPage vmaid off) → m'.pageByte q j = m.pageByte q j := by
  obtain ⟨hpres, mp, hwrite, rfl⟩ := hstored
  have hin := inPage_lt vmaid hoff
  have hfree := memphyWrite_freeFpList hwrite
  rw [phyaddr_eq, memphyWrite, if_pos h.mram] at hwrite
  split at hwrite
  · cases hwrite
    have hpgd : ∀ (mp : Memphy), (m.setDev .mram mp).pgd = m.pgd := fun _ => rfl
    have hpage : ∀ (mp : Memphy), (m.setDev .mram mp).mram = mp := fun _ => rfl
    refine ⟨⟨h.frames.congr hfree rfl rfl, h.swap.congr rfl rfl rfl (fun hnil => hfree.trans hnil), h.mram, h.mswp⟩,
      ?_, ?_⟩
    · rw [pageByte_present (by rwa [hpgd]), hpgd, hpage, page_update, if_pos rfl]
    · intro q j hj hne
      refine pageByte_congr (congrFun (hpgd _) q) (fun hq => ?_) (fun _ _ => rfl)
      rw [hpage, page_update, if_neg]
      intro he
      apply hne
      have hfpn : (m.pgd q).fpn = (m.pgd r).fpn := by omega
      exact ⟨h.frames.fpn_inj hq hpres hfpn, by omega⟩
  · cases hwrite

/-! ## Rows of moves and stores -/

theorem moves_bytes {n ns : Nat} (hn : n ≤ 8192) (hns : ns ≤ 2097152) {a b : List Nat × Machine}
    (h : Relation.ReflTransGen (fun a b : List Nat × Machine => Move a.1 a.2 b.1 b.2) a b)
    (hfine : ∀ e ∈ b.2.trace, SwapFine e) (ha : MemInv n ns a) : MemInv n ns b ∧ SameBytes a.2 b.2 := by
  induction h with
  | refl => exact ⟨ha, SameBytes.refl _⟩
  | @tail b c hab hd ih =>
    have hb := ih (fun e he => hfine e (hd.trace_mem he))
    exact ⟨hb.1.move hn hns hd hfine, hb.2.trans (hb.1.move_bytes hn hns hd hfine)⟩

theorem turn_bytes {n ns : Nat} (hn : n ≤ 8192) (hns : ns ≤ 2097152) {m m' : Machine} (h : Turn m m')
    (hfine : ∀ e ∈ m'.trace, SwapFine e) (hm : MemInv n ns ([], m)) : MemInv n ns ([], m') ∧ SameBytes m m' :=
  ⟨hm.move hn hns h hfine, hm.move_bytes hn hns h hfine⟩

theorem turns_bytes {n ns : Nat} (hn : n ≤ 8192) (hns : ns ≤ 2097152) {m m' : Machine} (h : Turns m m')
    (hfine : ∀ e ∈ m'.trace, SwapFine e) (hm : MemInv n ns ([], m)) : MemInv n ns ([], m') ∧ SameBytes m m' :=
  moves_bytes hn hns (h.lift (fun m => (([] : List Nat), m)) (fun _ _ h => h)) hfine hm

theorem stores_bytes {n ns : Nat} (hn : n ≤ 8192) (hns : ns ≤ 2097152) {S : PteRef → Int → Nat → Prop} {m m' : Machine}
    (h : Stores S m m') (hfine : ∀ e ∈ m'.trace, SwapFine e) (hm : MemInv n ns ([], m))
    (hS : ∀ {r vmaid off}, S r vmaid off → off < 256) :
    MemInv n ns ([], m') ∧ ∀ (q : PteRef) (j : Nat) (x : Byte), j < 256 →
      (∀ vmaid off, S q vmaid off → j ≠ inPage vmaid off) → m.pageByte q j = some x → m'.pageByte q j = some x := by
  induction h with
  | refl => exact ⟨hm, fun _ _ _ _ _ hx => hx⟩
  | @tail m₁ m₂ hm₁ hd ih =>
    rcases hd with hturn | ⟨r, vmaid, off, v, hin, hstored⟩
    · obtain ⟨hinv, hkeep⟩ := ih (fun e he => hfine e (hturn.trace_mem he))
      obtain ⟨hinv', hsame⟩ := turn_bytes hn hns hturn hfine hinv
      exact ⟨hinv', fun q j x hj hout hx => hsame q j x hj (hkeep q j x hj hout hx)⟩
    · obtain ⟨hinv, hkeep⟩ := ih (fun e he => hfine e (hstored.trace_prefix.subset he))
      obtain ⟨hinv', -, hother⟩ := stored_bytes hinv (hS hin) hstored
      refine ⟨hinv', fun q j x hj hout hx => ?_⟩
      rw [hother q j hj]
      · exact hkeep q j x hj hout hx
      · rintro ⟨rfl, rfl⟩
        exact hout vmaid off hin rfl

theorem written_bytes {n ns : Nat} (hn : n ≤ 8192) (hns : ns ≤ 2097152) {m m₁ m₂ m' : Machine} {r : PteRef}
    {vmaid : Int}
    {off : Nat} {v : Byte} (hturn : Turn m m₁) (hstored : Stored r vmaid off v m₁ m₂) (hturn' : Turn m₂ m')
    (hfine : ∀ e ∈ m'.trace, SwapFine e) (hm : MemInv n ns ([], m)) (hoff : off < 256) :
    MemInv n ns ([], m') ∧ m'.pageByte r (inPage vmaid off) = some v ∧
      ∀ (q : PteRef) (j : Nat) (x : Byte), j < 256 → ¬(q = r ∧ j = inPage vmaid off) → m.pageByte q j = some x →
        m'.pageByte q j = some x := by
  have hfine₂ : ∀ e ∈ m₂.trace, SwapFine e := fun e he => hfine e (hturn'.trace_mem he)
  have hfine₁ : ∀ e ∈ m₁.trace, SwapFine e := fun e he => hfine₂ e (hstored.trace_prefix.subset he)
  obtain ⟨hinv₁, hsame₁⟩ := turn_bytes hn hns hturn hfine₁ hm
  obtain ⟨hinv₂, hbyte, hother⟩ := stored_bytes hinv₁ hoff hstored
  obtain ⟨hinv, hsame⟩ := turn_bytes hn hns hturn' hfine hinv₂
  refine ⟨hinv, hsame _ _ _ (inPage_lt vmaid hoff) hbyte, fun q j x hj hne hx => hsame q j x hj ?_⟩
  rw [hother q j hj hne]
  exact hsame₁ q j x hj hx

/-! ## A call -/

def Call.stores (p : Pid) (mm : Mm) (q : PteRef) (j : Nat) : Call → Prop
  | .pgfreeData regIndex => ∃ vmaid off, wipes p (mm.symrgtbl regIndex.toInt.toNat) q vmaid off ∧ j = inPage vmaid off
  | .pgwrite _ destination offset => q = accessPage p mm destination.toInt offset.toInt ∧
      j = inPage (mm.symrgtbl destination.toInt.toNat).vmaid (accessOff mm destination.toInt offset.toInt)
  | _ => False

/-- **A call keeps every page's bytes**, those it stores to apart; a successful `__write` leaves its byte. -/
theorem call_bytes {n ns : Nat} (hn : n ≤ 8192) (hns : ns ≤ 2097152) {m m' : Machine} {p : Pid} {c : Call} {ret : Ret}
    (hcall : Completes m p c ret m') (hfine : ∀ e ∈ m'.trace, SwapFine e) (hm : MemInv n ns ([], m)) :
    MemInv n ns ([], m') ∧ ∀ (q : PteRef) (j : Nat) (x : Byte), j < 256 → (ret.1 = 0 → ¬c.stores p (m.mm p) q j) →
      m.pageByte q j = some x → m'.pageByte q j = some x := by
  obtain ⟨fuel, hrun⟩ := hcall
  have halloc : ∀ {vmaid rgid size status : Int}, Allocated fuel p vmaid rgid size m m' status →
      MemInv n ns ([], m') ∧ SameBytes m m' := by
    intro vmaid rgid size status h
    cases h with
    | @reused l rg _ _ hid hget hturns hret =>
      exact @turns_bytes n ns hn hns (m.setMm p _) m' hturns hfine (hm.setMm p _)
    | refused hget hwhy => exact ⟨hm.setMm p _, SameBytes.refl _⟩
    | fitted hid hget hvirt hpast => exact ⟨hm.setMm p _, SameBytes.refl _⟩
    | grown hid hget hvirt hpast hover hmoves hmaps hother =>
      obtain ⟨hinv, hsame⟩ := moves_bytes hn hns hmoves hfine (hm.setMm p _)
      exact ⟨hinv.setMm p _, hsame⟩
  cases c with
  | pgalloc size regIndex | pgmalloc size regIndex =>
    obtain ⟨m₁, r, hcallee, hret⟩ := run_bind_ok.1 hrun
    cases hret
    obtain ⟨hinv, hsame⟩ := halloc (run_alloc hcallee)
    exact ⟨hinv, fun q j x hj _ hx => hsame q j x hj hx⟩
  | pgfreeData regIndex =>
    obtain ⟨m₁, r, hcallee, hret⟩ := run_bind_ok.1 hrun
    cases hret
    cases run_free hcallee with
    | refused hwhy => exact ⟨hm, fun q j x _ _ hx => hx⟩
    | freed hid hrg hvma hstores =>
      obtain ⟨hinv, hkeep⟩ := stores_bytes hn hns hstores hfine hm (fun h => by
        obtain ⟨-, k, -, -, rfl⟩ := h
        exact pagingOffst_lt _)
      refine ⟨hinv.setMm p _, fun q j x hj hout hx => hkeep q j x hj (fun vmaid off hw e => ?_) hx⟩
      exact hout rfl ⟨vmaid, off, hw, e⟩
  | pgread source offset =>
    rcases run_read hrun with ⟨-, rfl⟩ | ⟨-, -, m₁, hturn, hturn', -⟩
    · exact ⟨hm, fun q j x _ _ hx => hx⟩
    · obtain ⟨hinv, hsame⟩ := turns_bytes hn hns (.head hturn (.single hturn')) hfine hm
      exact ⟨hinv, fun q j x hj _ hx => hsame q j x hj hx⟩
  | pgwrite data destination offset =>
    obtain ⟨m₁, r, hcallee, hret⟩ := run_bind_ok.1 hrun
    cases hret
    rcases run_write hcallee with ⟨-, rfl⟩ | ⟨hr, -, m₁, m₂, hturn, hturn', hstored | ⟨rfl, hout⟩⟩
    · exact ⟨hm, fun q j x _ _ hx => hx⟩
    · obtain ⟨hinv, hkept, hother⟩ := written_bytes hn hns hturn hstored hturn' hfine hm (pagingOffst_lt _)
      refine ⟨hinv, fun q j x hj hout hx => hother q j x hj (fun hin => hout hr ?_) hx⟩
      rw [inPage_area] at hin
      exact hin
    · exact absurd (hfine _ (hturn'.trace_mem hout)) id

theorem write_leaves {n ns : Nat} (hn : n ≤ 8192) (hns : ns ≤ 2097152) {m m' : Machine} {p : Pid} {data : Byte}
    {destination offset : BitVec 32} {ret : Ret} (hcall : Completes m p (.pgwrite data destination offset) ret m')
    (hret : ret.1 = 0) (hfine : ∀ e ∈ m'.trace, SwapFine e) (hm : MemInv n ns ([], m)) :
    m'.pageByte (accessPage p (m.mm p) destination.toInt offset.toInt)
      (inPage ((m.mm p).symrgtbl destination.toInt.toNat).vmaid (accessOff (m.mm p) destination.toInt offset.toInt)) =
      some data := by
  obtain ⟨fuel, hrun⟩ := hcall
  obtain ⟨m₁, r, hcallee, hpure⟩ := run_bind_ok.1 hrun
  cases hpure
  rcases run_write hcallee with ⟨hr, -⟩ | ⟨-, -, m₁, m₂, hturn, hturn', hstored | ⟨rfl, hout⟩⟩
  · rw [hr] at hret
    exact absurd hret (by decide)
  · obtain ⟨-, hkept, -⟩ := written_bytes hn hns hturn hstored hturn' hfine hm (pagingOffst_lt _)
    rwa [inPage_area] at hkept
  · exact absurd (hfine _ (hturn'.trace_mem hout)) id

theorem turn_reads {n ns : Nat} (hn : n ≤ 8192) (hns : ns ≤ 2097152) {m m' : Machine} {q : PteRef} {vmaid : Int}
    {off : Nat} {o : Option Byte} (hturn : Turn m m') (hpres : (m'.pgd q).present = true)
    (hread : memphyRead m'.mram (phyaddr vmaid (m'.pgd q).fpn off) = .ok o) (hoff : off < 256)
    (hfine : ∀ e ∈ m'.trace, SwapFine e) (hm : MemInv n ns ([], m)) {x : Byte}
    (hx : m.pageByte q (inPage vmaid off) = some x) :
    o = some x := by
  obtain ⟨hinv, hsame⟩ := turn_bytes hn hns hturn hfine hm
  have hthere := hsame _ _ _ (inPage_lt _ hoff) hx
  rw [pageByte_present hpres] at hthere
  rw [memphyRead, if_pos hinv.mram, phyaddr_eq] at hread
  split at hread
  · rw [← hthere]
    exact (Except.ok.inj hread).symm
  · cases hread

theorem read_delivers {n ns : Nat} (hn : n ≤ 8192) (hns : ns ≤ 2097152) {m m' : Machine} {p : Pid}
    {source offset : BitVec 32} {ret : Ret} (hcall : Completes m p (.pgread source offset) ret m') (hret : ret.1 = 0)
    (hfine : ∀ e ∈ m'.trace, SwapFine e) (hm : MemInv n ns ([], m)) {x : Byte}
    (hx : m.pageByte (accessPage p (m.mm p) source.toInt offset.toInt)
      (inPage ((m.mm p).symrgtbl source.toInt.toNat).vmaid (accessOff (m.mm p) source.toInt offset.toInt)) = some x) :
    ret.2 = some x := by
  obtain ⟨fuel, hrun⟩ := hcall
  rcases run_read hrun with ⟨hr, -⟩ | ⟨-, -, m₁, hturn, hturn', ⟨hpres, hread⟩ | hout⟩
  · rw [hr] at hret
    exact absurd hret (by decide)
  · exact turn_reads hn hns hturn hpres hread (pagingOffst_lt _) (fun e he => hfine e (hturn'.trace_mem he)) hm hx
  · exact absurd (hfine _ (hturn'.trace_mem hout)) id

theorem free_leaves {n ns : Nat} (hn : n ≤ 8192) (hns : ns ≤ 2097152) {m m' : Machine} {p : Pid} {rgid : Int}
    (hrun : run (free p rgid) m = .ok (m', 0)) (hfine : ∀ e ∈ m'.trace, SwapFine e) (hm : MemInv n ns ([], m))
    {q : PteRef} {vmaid : Int} {off : Nat} (hw : wipes p ((m.mm p).symrgtbl rgid.toNat) q vmaid off) :
    m'.pageByte q (inPage vmaid off) = some 0 := by
  rw [free, run_getMm] at hrun
  split at hrun
  · cases hrun
  · obtain ⟨m₀, ⟨i, rg⟩, hsym, hrun⟩ := run_bind_ok.1 hrun
    obtain ⟨rfl, hi, -⟩ := run_getSymrgByid hsym
    cases hi
    dsimp only at hrun
    split at hrun
    · cases hrun
    · generalize (m₀.mm p).symrgtbl rgid.toNat = rg at hw hrun
      obtain ⟨m₁, _, hloop, hrun⟩ := run_bind_ok.1 hrun
      obtain ⟨-, hrun⟩ := run_enlisted hrun
      cases hrun
      -- after `k` turns the first `k` bytes are zero
      let zeroed (k : Nat) (s : Machine) : Prop := (∀ e ∈ s.trace, SwapFine e) → MemInv n ns ([], s) ∧
        ∀ i < k, s.pageByte ⟨p, pagingPgn (rg.rgStart + i)⟩ (inPage rg.vmaid (pagingOffst (rg.rgStart + i))) = some 0
      have hzeroed : zeroed (0 + (rg.rgEnd - rg.rgStart).toNat) m₁ := by
        refine exec_loop_ok step zeroed ?_ (fun _ => ⟨hm, by simp⟩) hloop
        intro k s₁ s₂ _ _ hs hturn hfine₂
        obtain ⟨s₃, ret, hset, hret⟩ := run_bind_ok.1 hturn
        cases hret
        rcases run_pgSetval hset with ⟨-, s₄, hturn, -, hstored⟩ | ⟨-, -, hout⟩
        · rw [pagingPgn_congr (int32_emod _), pagingOffst_congr (int32_emod _)] at hstored
          have hfine₄ : ∀ e ∈ s₄.trace, SwapFine e := fun e he => hfine₂ e (hstored.trace_prefix.subset he)
          obtain ⟨hinv, hzero⟩ := hs (fun e he => hfine₄ e (hturn.trace_mem he))
          obtain ⟨hinv₄, hsame⟩ := turn_bytes hn hns hturn hfine₄ hinv
          obtain ⟨hinv₂, hbyte, hother⟩ := stored_bytes hinv₄ (pagingOffst_lt _) hstored
          refine ⟨hinv₂, fun i hi => ?_⟩
          by_cases hcell : (⟨p, pagingPgn (rg.rgStart + i)⟩ : PteRef) = ⟨p, pagingPgn (rg.rgStart + k)⟩ ∧
              inPage rg.vmaid (pagingOffst (rg.rgStart + i)) = inPage rg.vmaid (pagingOffst (rg.rgStart + k))
          · rw [hcell.1, hcell.2]
            exact hbyte
          · rw [hother _ _ (inPage_lt _ (pagingOffst_lt _)) hcell]
            have hik : i < k := by
              rcases Nat.lt_succ_iff_lt_or_eq.1 hi with hik | rfl
              · exact hik
              · exact absurd ⟨rfl, rfl⟩ hcell
            exact hsame _ _ _ (inPage_lt _ (pagingOffst_lt _)) (hzero i hik)
        · exact absurd (hfine₂ _ hout) id
      obtain ⟨rfl, k, hk, rfl, rfl⟩ := hw
      exact (hzeroed hfine).2 k (by omega)

def Call.value : Call → Byte
  | .pgwrite data _ _ => data
  | _ => 0

theorem call_leaves {n ns : Nat} (hn : n ≤ 8192) (hns : ns ≤ 2097152) {m m' : Machine} {p : Pid} {c : Call} {ret : Ret}
    (hcall : Completes m p c ret m') (hret : ret.1 = 0) (hfine : ∀ e ∈ m'.trace, SwapFine e) (hm : MemInv n ns ([], m))
    {q : PteRef} {j : Nat} (hstores : c.stores p (m.mm p) q j) : m'.pageByte q j = some c.value := by
  cases c with
  | pgalloc size regIndex | pgmalloc size regIndex | pgread source offset => exact absurd hstores id
  | pgfreeData regIndex =>
    obtain ⟨fuel, hrun⟩ := hcall
    obtain ⟨m₁, r, hcallee, hpure⟩ := run_bind_ok.1 hrun
    cases hpure
    obtain ⟨vmaid, off, hw, rfl⟩ := hstores
    cases (show r = 0 from hret)
    exact free_leaves hn hns hcallee hfine hm hw
  | pgwrite data destination offset =>
    obtain ⟨rfl, rfl⟩ := hstores
    exact write_leaves hn hns hcall hret hfine hm

end OsSim
