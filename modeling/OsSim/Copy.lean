import OsSim.Moves
/-!
# Copy — `__swap_cp_page` on any two frames (`src/mm.c`)

The loop reads a byte and writes it at once, so where source and destination are one device it reads storage it has
already written to.  It never reads what it wrote: two frames overlap only where they are the same, and there the byte
read in a turn is one that no earlier turn has written.
-/
namespace OsSim

open Atomic Code

def Memphy.HasFrame (mp : Memphy) (fpn : Nat) : Prop := (fpn + 1) * pagingPagesz ≤ mp.maxsz

instance (mp : Memphy) (fpn : Nat) : Decidable (mp.HasFrame fpn) := inferInstanceAs (Decidable (_ ≤ _))

section Turn

variable {m : Machine} {src dst : Dev} {f g : Nat}

theorem pasteTo_apart (mp : Memphy) (bytes : Nat → Byte) {j : Nat} (hj : j < 256) (f g : Nat) :
    (pasteTo mp g bytes j).storage (f * 256 + j) = mp.storage (f * 256 + j) := by
  change (if _ then _ else _) = _
  rw [if_neg (by omega)]

/-- **The source is as it was** where a turn of the loop reads it, also on the device the loop writes to. -/
theorem copiedTo_source {j : Nat} (hj : j < 256) :
    ((copiedTo m src f dst g j).dev src).storage (f * 256 + j) = (m.dev src).page f j := by
  by_cases hdev : src = dst
  · subst hdev
    rw [copiedTo, Machine.dev_setDev]
    split
    · exact pasteTo_apart _ _ hj f g
    · rfl
  · rw [copiedTo, Machine.dev_setDev_of_ne _ _ hdev]
    rfl

theorem copiedTo_kept (d : Dev) (j : Nat) :
    ((copiedTo m src f dst g j).dev d).rdmflg = (m.dev d).rdmflg ∧
      ((copiedTo m src f dst g j).dev d).maxsz = (m.dev d).maxsz := by
  by_cases hdev : d = dst
  · subst hdev
    rw [copiedTo, Machine.dev_setDev]
    split <;> exact ⟨rfl, rfl⟩
  · rw [copiedTo, Machine.dev_setDev_of_ne _ _ hdev]
    exact ⟨rfl, rfl⟩

theorem copiedTo_write {j : Nat} (hdst : (m.dev dst).rdmflg = true) (hg : (m.dev dst).HasFrame g) (hj : j < 256) :
    step (.write dst (g * 256 + j) ((m.dev src).page f j)) (copiedTo m src f dst g j) =
      .ok (copiedTo m src f dst g (j + 1), ()) := by
  have hin : g * 256 + j < (pasteTo (m.dev dst) g ((m.dev src).page f) j).maxsz := by
    have : (g + 1) * 256 ≤ (pasteTo (m.dev dst) g ((m.dev src).page f) j).maxsz := hg
    omega
  have hr : (pasteTo (m.dev dst) g ((m.dev src).page f) j).rdmflg = true := hdst
  have hwrite : memphyWrite (pasteTo (m.dev dst) g ((m.dev src).page f) j) (g * 256 + j) ((m.dev src).page f j) =
      .ok (pasteTo (m.dev dst) g ((m.dev src).page f) (j + 1)) := by
    obtain ⟨mp, hmp⟩ : ∃ mp, memphyWrite (pasteTo (m.dev dst) g ((m.dev src).page f) j) (g * 256 + j)
        ((m.dev src).page f j) = .ok mp := ⟨_, by rw [memphyWrite, if_pos hr, if_pos hin]⟩
    rw [hmp, memphyWrite_pasteTo hdst hmp]
  simp only [step, copiedTo, if_pos hdst, Machine.dev_setDev, hwrite, Machine.setDev_setDev]
  rfl

theorem run_swapCpCell_copied (hsrc : (m.dev src).rdmflg = true) (hf : (m.dev src).HasFrame f)
    (hdst : (m.dev dst).rdmflg = true) (hg : (m.dev dst).HasFrame g) {j : Nat} (hj : j < 256) :
    run (swapCpCell src f dst g j) (copiedTo m src f dst g j) = .ok (copiedTo m src f dst g (j + 1), ()) := by
  have hin : f * 256 + j < (m.dev src).maxsz := by
    have : (f + 1) * 256 ≤ (m.dev src).maxsz := hf
    omega
  have hread : step (.read src (f * 256 + j)) (copiedTo m src f dst g j) =
      .ok (copiedTo m src f dst g j, some ((m.dev src).page f j)) := by
    obtain ⟨hflag, hsize⟩ := @copiedTo_kept m src dst f g src j
    rw [step, memphyRead, hflag, hsize, if_pos hsrc, if_pos hin, copiedTo_source hj]
    rfl
  simp only [swapCpCell, Code.read, Code.write, Prog.op_bind, Prog.ret_bind]
  exact run_op_ok.2 ⟨_, _, hread, run_op_ok.2 ⟨_, _, copiedTo_write hdst hg hj, rfl⟩⟩

end Turn

theorem run_swapCpPage_copied {m : Machine} {src dst : Dev} {f g : Nat} (hsrc : (m.dev src).rdmflg = true)
    (hf : (m.dev src).HasFrame f) (hdst : (m.dev dst).rdmflg = true) (hg : (m.dev dst).HasFrame g) :
    run (swapCpPage src f dst g) m = .ok (m.copyPage src f dst g, ()) := by
  have hloop := exec_loop_eq step (copiedTo m src f dst g) (i := 0) (n := 256)
    (fun j _ hj => run_swapCpCell_copied hsrc hf hdst hg (by omega))
  have h0 : copiedTo m src f dst g 0 = m := by simp [copiedTo, pasteTo_zero]
  have hend : copiedTo m src f dst g (0 + 256) = m.copyPage src f dst g := by
    rw [Nat.zero_add, copiedTo, pasteTo_page, Machine.copyPage]
  rwa [h0, hend] at hloop

/-- **A page copied, and nothing else.**  Between any two frames of random access devices, of two devices or of one, the
same frame or not, the copy ends; the destination frame then holds what the source frame held before, every other byte
of either device is as it was, and so is everything else of the machine. -/
theorem swapCpPage_copies (m : Machine) (src dst : Dev) (srcfpn dstfpn : Nat) (hsrc : (m.dev src).rdmflg = true)
    (hf : (m.dev src).HasFrame srcfpn) (hdst : (m.dev dst).rdmflg = true) (hg : (m.dev dst).HasFrame dstfpn) :
    ∃ m', run (swapCpPage src srcfpn dst dstfpn) m = .ok (m', ()) ∧
      (∀ j < 256, (m'.dev dst).storage (dstfpn * 256 + j) = (m.dev src).storage (srcfpn * 256 + j)) ∧
      (∀ d a, ¬(d = dst ∧ dstfpn * 256 ≤ a ∧ a < dstfpn * 256 + 256) →
        (m'.dev d).storage a = (m.dev d).storage a) ∧
      m' = m.setDev dst { m.dev dst with storage := (m'.dev dst).storage } := by
  have hcopy : m.copyPage src srcfpn dst dstfpn = m.setDev dst ((m.dev dst).paste dstfpn ((m.dev src).page srcfpn)) := by
    rw [Machine.copyPage, if_pos hdst]
  refine ⟨_, run_swapCpPage_copied hsrc hf hdst hg, fun j hj => ?_, fun d a hout => ?_, ?_⟩
  · rw [hcopy, Machine.dev_setDev]
    have hpaste := Memphy.page_paste (m.dev dst) dstfpn dstfpn ((m.dev src).page srcfpn) hj
    rwa [if_pos rfl] at hpaste
  · rw [hcopy]
    by_cases hd : d = dst
    · subst hd
      rw [Machine.dev_setDev]
      change (if _ then _ else _) = _
      rw [if_neg (fun h => hout ⟨rfl, by omega, by omega⟩)]
    · rw [Machine.dev_setDev_of_ne _ _ hd]
  · rw [hcopy, Machine.dev_setDev]
    rfl

def twoFrames : Machine where
  mram := ⟨fun a => BitVec.ofNat 8 a, 512, true, []⟩
  mswp := ⟨fun _ => 7, 512, true, []⟩
  idle := []
  lru := []
  pgd _ := 0#32
  mm _ := zeroMm
  trace := []

theorem swapCpPage_copies_onto_itself : ∃ m', run (swapCpPage .mram 1 .mram 1) twoFrames = .ok (m', ()) ∧
    (∀ j < 256, (m'.dev .mram).storage (1 * 256 + j) = (twoFrames.dev .mram).storage (1 * 256 + j)) ∧
    (∀ d a, ¬(d = Dev.mram ∧ 1 * 256 ≤ a ∧ a < 1 * 256 + 256) → (m'.dev d).storage a = (twoFrames.dev d).storage a) ∧
    m' = twoFrames.setDev .mram { twoFrames.dev .mram with storage := (m'.dev .mram).storage } :=
  swapCpPage_copies twoFrames .mram .mram 1 1 rfl (by decide) rfl (by decide)

end OsSim
