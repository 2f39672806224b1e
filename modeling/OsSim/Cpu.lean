import OsSim.Calls
import OsSim.Loader
/-!
# Cpu — the instruction cycle (`src/cpu.c`, the paging build)

`run` fetches an instruction, moves the program counter on, and hands the arguments to the memory function of the
opcode.  `pgread` is given the number of the destination register by value, and assigns the byte to that parameter: no
instruction of this build writes a register.  So after a READ that returns 0 the register holds what it held before, and
that is the byte only where it was the byte already.
-/
namespace OsSim

open Atomic Code

/-- The fields of `struct pcb_t` that `run` reads and writes. -/
structure CpuPcb where
  pid : Pid
  text : List Inst
  regs : Fin 10 → BitVec 32
  pc : Nat

/-- A `BYTE`, which is a `char` and signed, as the `addr_t` of a register. -/
def byteToReg (data : Byte) : BitVec 32 := data.signExtend 32

/-- `read`, which the build without paging calls, given what `read_mem` answered. -/
def CpuPcb.read (proc : CpuPcb) (answer : Option Byte) (destination : Fin 10) : CpuPcb × Int :=
  match answer with
  | some data => ({ proc with regs := Function.update proc.regs destination (byteToReg data) }, 0)
  | none => (proc, 1)

/-- `pgread`.  It assigns to its parameter, and the parameter is all it assigns to. -/
def pgread (p : Pid) (source offset destination : BitVec 32) : Code Int := do
  let (val, data) ← OsSim.read p source.toInt offset.toInt
  let _destination := data.elim destination byteToReg
  pure val

/-- The `switch` of `run`. -/
def execInst (fuel : Nat) (p : Pid) (ins : Inst) : Code Int :=
  let arg0 := ins.arg0.toBitVec
  let arg1 := ins.arg1.toBitVec
  let arg2 := ins.arg2.toBitVec
  match ins.opcode with
  | .calc => pure 0
  | .alloc => do return (← (Call.pgalloc arg0 arg1).code fuel p).1
  | .malloc => do return (← (Call.pgmalloc arg0 arg1).code fuel p).1
  | .free => do return (← (Call.pgfreeData arg0).code fuel p).1
  | .read => pgread p arg0 arg1 arg2
  | .write => do return (← (Call.pgwrite (arg0.setWidth 8) arg1 arg2).code fuel p).1

/-- `run` -/
def cpuRun (fuel : Nat) (proc : CpuPcb) : Code (CpuPcb × Int) :=
  match proc.text[proc.pc]? with
  | none => pure (proc, 1)
  | some ins => do
    let proc := { proc with pc := proc.pc + 1 }
    let stat ← execInst fuel proc.pid ins
    pure (proc, stat)

section Cycle

variable {fuel : Nat} {m m' : Machine} {proc proc' : CpuPcb} {stat : Int}

/-- **No instruction writes a register.** -/
theorem run_cpuRun_regs (h : run (cpuRun fuel proc) m = .ok (m', (proc', stat))) : proc'.regs = proc.regs := by
  unfold cpuRun at h
  split at h
  · cases h; rfl
  · obtain ⟨m₁, stat', -, h⟩ := run_bind_ok.1 h
    cases h
    rfl

theorem run_cpuRun_read {ins : Inst} (hins : proc.text[proc.pc]? = some ins) (hop : ins.opcode = .read)
    (h : run (cpuRun fuel proc) m = .ok (m', (proc', stat))) : ∃ data,
    run (OsSim.read proc.pid ins.arg0.toBitVec.toInt ins.arg1.toBitVec.toInt) m = .ok (m', (stat, data)) := by
  simp only [cpuRun, hins, execInst, hop, pgread] at h
  obtain ⟨m₁, stat', hpgread, h⟩ := run_bind_ok.1 h
  cases h
  obtain ⟨m₂, ⟨val, data⟩, hread, hret⟩ := run_bind_ok.1 hpgread
  cases hret
  exact ⟨data, hread⟩

end Cycle

/-! ## The byte at an address -/

/-- **The byte at place `j` of the page `r`, as memory stands**: in the page's frame; or, for a page that is not
present, in the swap frame its entry's frame field names, which `pg_getpage` copies to the first free RAM frame, or
to the victim's, after the victim's bytes went to the first free swap frame.  A frame past the frame field is
entered cut to 13 bits, so there another frame's byte is read. -/
def Machine.shownByte (m : Machine) (r : PteRef) (j : Nat) : Option Byte :=
  let pte := m.pgd r
  if pte.present then some (m.mram.page pte.fpn j)
  else
    match m.mram.freeFpList, m.lru, m.mswp.freeFpList with
    | f :: _, _, _ => some (if f < 8192 then m.mswp.page pte.fpn j else m.mram.page (f % 8192) j)
    | [], v :: _, s :: _ =>
      some (if v.fpn < 8192 then if pte.fpn = s then m.mram.page v.fpn j else m.mswp.page pte.fpn j
        else m.mram.page (v.fpn % 8192) j)
    | [], _, _ => none

/-- The byte at an offset of a region, where RAM is random access. -/
def Machine.regionByte (m : Machine) (p : Pid) (rgid offset : Int) : Option Byte :=
  let rg := (m.mm p).symrgtbl rgid.toNat
  let addr := rgAddr rg offset
  if m.mram.rdmflg then m.shownByte ⟨p, pagingPgn addr⟩ (inPage rg.vmaid (pagingOffst addr)) else none

section Shown

variable {m m' : Machine} {r : PteRef}

theorem run_swapCpPage_source {src dst : Dev} {f g : Nat} {u : Unit}
    (h : run (swapCpPage src f dst g) m = .ok (m', u)) : (m.dev src).rdmflg = true := by
  obtain ⟨m₁, _, hcell, -⟩ := run_bind_ok.1 h
  simp only [swapCpCell, Code.read, Prog.op_bind, Prog.ret_bind] at hcell
  obtain ⟨m₂, data, hread, hwrite⟩ := run_op_ok.1 hcell
  obtain ⟨b, hb, heq⟩ := map_ok hread
  cases heq
  cases data with
  | none => cases hwrite
  | some b => exact (memphyRead_ok hb).1

theorem copyPage_page {src dst : Dev} (hdst : (m.dev dst).rdmflg = true) (f g k : Nat) {j : Nat} (hj : j < 256) :
    ((m.copyPage src f dst g).dev dst).page k j = if k = g then (m.dev src).page f j else (m.dev dst).page k j := by
  rw [Machine.copyPage, Machine.dev_setDev, if_pos hdst, Memphy.page_paste _ _ _ _ hj]

theorem copyPage_mram_rdmflg (f g : Nat) : (m.copyPage .mswp f .mram g).mram.rdmflg = m.mram.rdmflg := by
  change (if _ then _ else _ : Memphy).rdmflg = _
  split <;> rfl

theorem run_pgBringIn_shown {m₁ : Machine} {b : Bool} (hpte : (m.pgd r).present = false)
    (h : run (pgBringIn r (m.pgd r)) m = .ok (m₁, b)) :
    m₁.mram.rdmflg = m.mram.rdmflg ∧ (m.mram.rdmflg = true →
      ∀ j < 256, m.shownByte r j = if b then some (m₁.mram.page (m₁.pgd r).fpn j) else none) := by
  cases hfree : m.mram.freeFpList with
  | cons f rest =>
    rw [pgBringIn, run_getFreefp_cons m .mram hfree] at h
    obtain ⟨m₂, _, hin, h⟩ := run_bind_ok.1 h
    rw [run_swapCpPage (by decide) hin] at h
    simp only [run_setFpn, run_note, run_pure] at h
    cases h
    refine ⟨copyPage_mram_rdmflg _ _, fun hram j hj => ?_⟩
    have hram' : (m.setFree .mram rest).mram.rdmflg = true := hram
    have hpage := @copyPage_page (m.setFree .mram rest) .mswp .mram hram' (m.pgd r).fpn f (f % 8192) j hj
    simp only [Machine.dev] at hpage
    simp only [Machine.shownByte, hpte, Bool.false_eq_true, if_false, hfree, if_true, Machine.noted_mram,
      Machine.setPte_mram, Machine.noted_pgd, Machine.setPte_pgd, Function.update_self, fpn_pteSetFpn]
    rw [hpage]
    by_cases hf : f < 8192
    · rw [if_pos hf, if_pos (Nat.mod_eq_of_lt hf)]
      rfl
    · rw [if_neg hf, if_neg (by omega)]
      rfl
  | nil =>
    rw [pgBringIn, run_getFreefp_nil m .mram hfree, pgReplace] at h
    obtain ⟨vic, swpfpn, m₀, htaken, h⟩ := run_victimAndFrame h
    cases htaken with
    | neither hlru hswp =>
      cases h
      exact ⟨rfl, fun _ j _ => by simp [Machine.shownByte, hpte, hfree, hlru]⟩
    | noVictim hlru hswp => cases h
    | noFrame hlru hswp =>
      cases h
      exact ⟨rfl, fun _ j _ => by simp [Machine.shownByte, hpte, hfree, hlru, hswp]⟩
    | @both v lru s rest hlru hswp =>
      simp only [theVictim, run_pure_bind] at h
      obtain ⟨m₂, _, hout, h⟩ := run_bind_ok.1 h
      obtain ⟨m₃, _, hin, h⟩ := run_bind_ok.1 h
      rw [run_swapCpPage (by decide) hout] at hin
      -- the second copy read from the swap device
      have hrand : m.mswp.rdmflg = true := by
        have hsrc := run_swapCpPage_source hin
        change (if _ then _ else _ : Memphy).rdmflg = true at hsrc
        split at hsrc <;> exact hsrc
      rw [run_swapCpPage (by decide) hin] at h
      simp only [run_setSwap, run_setFpn, run_putFreefp, run_note, run_pure] at h
      cases h
      generalize hm₄ : ((m.setLru lru).setFree .mswp rest).copyPage .mram v.fpn .mswp s = m₄
      have hram₄ : m₄.mram = m.mram := by rw [← hm₄]; rfl
      have hswp₄ : ∀ j < 256, m₄.mswp.page (m.pgd r).fpn j =
          if (m.pgd r).fpn = s then m.mram.page v.fpn j else m.mswp.page (m.pgd r).fpn j := fun j hj => by
        rw [← hm₄]
        exact @copyPage_page ((m.setLru lru).setFree .mswp rest) .mram .mswp hrand v.fpn s _ j hj
      refine ⟨(copyPage_mram_rdmflg _ _).trans (by rw [hram₄]), fun hram j hj => ?_⟩
      have hram' : m₄.mram.rdmflg = true := by rw [hram₄]; exact hram
      have hpage := @copyPage_page m₄ .mswp .mram hram' (m.pgd r).fpn v.fpn (v.fpn % 8192) j hj
      simp only [Machine.dev] at hpage
      simp only [Machine.shownByte, hpte, Bool.false_eq_true, if_false, hfree, hlru, hswp, if_true, Machine.noted_mram,
        Machine.setFree_mswp_mram, Machine.setPte_mram, Machine.noted_pgd, Machine.setFree_pgd, Machine.setPte_pgd,
        Function.update_self, fpn_pteSetFpn]
      rw [hpage, hswp₄ j hj, hram₄]
      by_cases hv : v.fpn < 8192
      · rw [if_pos hv, if_pos (Nat.mod_eq_of_lt hv)]
      · rw [if_neg hv, if_neg (by omega)]

theorem run_pgGetpage_shown {o : Option Nat} (h : run (pgGetpage r) m = .ok (m', o)) :
    m'.mram.rdmflg = m.mram.rdmflg ∧ (m.mram.rdmflg = true →
      ∀ j < 256, m.shownByte r j = o.map (fun f => m'.mram.page f j)) := by
  simp only [pgGetpage, run_lock, run_readPte] at h
  by_cases hpte : (m.pgd r).present = true
  · simp only [hpte, if_true, run_pure_bind, run_addLruPage, run_note, run_readPte, run_unlock, run_pure] at h
    cases h
    exact ⟨rfl, fun _ j _ => by simp [Machine.shownByte, hpte]⟩
  · have hpte' : (m.pgd r).present = false := by simpa using hpte
    simp only [hpte', Bool.false_eq_true, if_false] at h
    obtain ⟨m₁, online, hin, h⟩ := run_bind_ok.1 h
    obtain ⟨hflag, hshown⟩ := run_pgBringIn_shown hpte' hin
    cases online with
    | true =>
      simp only [if_true, run_addLruPage, run_note, run_readPte, run_unlock, run_pure] at h
      cases h
      exact ⟨hflag, fun hram j hj => (hshown hram j hj).trans rfl⟩
    | false =>
      simp only [Bool.false_eq_true, if_false, run_pure] at h
      cases h
      exact ⟨hflag, fun hram j hj => (hshown hram j hj).trans rfl⟩

theorem run_pgGetval_shown {p : Pid} {addr vmaid : Int} {o : Option Byte}
    (h : run (pgGetval p addr vmaid) m = .ok (m', o)) :
    o = if m.mram.rdmflg then m.shownByte ⟨p, pagingPgn addr⟩ (inPage vmaid (pagingOffst addr)) else none := by
  obtain ⟨m₁, f, hget, h⟩ := run_bind_ok.1 h
  obtain ⟨hflag, hshown⟩ := run_pgGetpage_shown hget
  have hj := inPage_lt vmaid (pagingOffst_lt addr)
  cases f with
  | none =>
    cases h
    split
    · rename_i hram
      exact (hshown hram _ hj).symm
    · rfl
  | some f =>
    obtain ⟨m₂, b, hstep, hret⟩ := run_op_ok.1 h
    cases hret
    obtain ⟨b', hread, heq⟩ := map_ok hstep
    cases heq
    rw [phyaddr_eq] at hread
    by_cases hram : m.mram.rdmflg = true
    · rw [if_pos hram, hshown hram _ hj]
      rw [memphyRead, if_pos (hflag.trans hram)] at hread
      split at hread
      · cases hread
        rfl
      · cases hread
    · rw [if_neg hram]
      rw [memphyRead, if_neg (fun h => hram (hflag.symm.trans h))] at hread
      cases hread
      rfl

/-- **The byte `__read` obtains** is the one memory shows at the region and the offset before the call. -/
theorem run_read_regionByte {p : Pid} {rgid offset : Int} {o : Option Byte}
    (h : run (OsSim.read p rgid offset) m = .ok (m', (0, o))) : o = m.regionByte p rgid offset := by
  obtain ⟨m₀, org, hacc, h⟩ := run_bind_ok.1 h
  obtain ⟨rfl, rfl | ⟨rfl, -⟩⟩ := run_accessRg hacc
  · cases h
  · obtain ⟨m₁, data, hget, h⟩ := run_bind_ok.1 h
    have hshown := run_pgGetval_shown hget
    rw [pagingPgn_congr (int32_emod _), pagingOffst_congr (int32_emod _)] at hshown
    obtain ⟨m₂, _, -, h⟩ := run_bind_ok.1 h
    cases h
    exact hshown

end Shown

/-! ## What a READ delivers -/

/-- **The byte is delivered**: `__read` obtains one, the destination register holds it afterwards, and every other
register is as it was; as `read` of the build without paging leaves them. -/
def Delivers (m : Machine) (proc : CpuPcb) (ins : Inst) (destination : Fin 10) (proc' : CpuPcb) : Prop :=
  ∃ data, (∃ m', run (OsSim.read proc.pid ins.arg0.toBitVec.toInt ins.arg1.toBitVec.toInt) m = .ok (m', (0, some data))) ∧
    proc'.regs destination = byteToReg data ∧ ∀ i, i ≠ destination → proc'.regs i = proc.regs i

theorem CpuPcb.read_delivered (proc : CpuPcb) (data : Byte) (destination : Fin 10) :
    (proc.read (some data) destination).1.regs destination = byteToReg data ∧
      ∀ i, i ≠ destination → (proc.read (some data) destination).1.regs i = proc.regs i :=
  ⟨Function.update_self _ _ _, fun _ hi => Function.update_of_ne hi _ _⟩

/-- **When a successful READ delivers its byte**: exactly when the register held that byte already. -/
theorem cpuRun_read_delivers_iff {fuel : Nat} {m m' : Machine} {proc proc' : CpuPcb} {ins : Inst}
    (hins : proc.text[proc.pc]? = some ins) (hop : ins.opcode = .read) (hdest : ins.arg2.toNat < 10)
    (hrun : run (cpuRun fuel proc) m = .ok (m', (proc', 0))) :
    Delivers m proc ins ⟨ins.arg2.toNat, hdest⟩ proc' ↔
      ∃ data, m.regionByte proc.pid ins.arg0.toBitVec.toInt ins.arg1.toBitVec.toInt = some data ∧
        proc.regs ⟨ins.arg2.toNat, hdest⟩ = byteToReg data := by
  have hregs := run_cpuRun_regs hrun
  obtain ⟨o, hread⟩ := run_cpuRun_read hins hop hrun
  have hbyte := run_read_regionByte hread
  constructor
  · rintro ⟨data, ⟨m₁, hread'⟩, hdata, -⟩
    rw [hread] at hread'
    cases hread'
    exact ⟨data, hbyte.symm, by rw [← hregs, hdata]⟩
  · rintro ⟨data, hdata, hreg⟩
    rw [← hbyte] at hdata
    subst hdata
    exact ⟨data, ⟨m', hread⟩, by rw [hregs, hreg], fun i _ => by rw [hregs]⟩

/-- A process with region 0 on its page 0, in RAM frame 0, and the byte 7 at offset 3. -/
def sevenAtThree : Machine where
  mram := ⟨fun a => if a = 3 then 7 else 0, 512, true, [1]⟩
  mswp := ⟨fun _ => 0, 512, true, [0, 1]⟩
  idle := []
  lru := [⟨⟨0, 0⟩, 0, 0⟩]
  pgd _ := pteSetFpn 0#32 0
  mm _ := { zeroMm with symrgtbl := fun _ => ⟨0, 0, 100⟩ }
  trace := []

def readThree : Inst := ⟨.read, 0, 3, 1⟩

def readsThree : CpuPcb := ⟨0, [readThree], fun _ => 0, 0⟩

theorem run_readsThree : run (cpuRun 0 readsThree) sevenAtThree =
    .ok (((sevenAtThree.referenced ⟨0, 0⟩).setLru (Lru.moveToTail 0 (sevenAtThree.referenced ⟨0, 0⟩).lru)),
      ({ readsThree with pc := 1 }, 0)) := rfl

def holdsSeven : CpuPcb := ⟨0, [readThree], fun _ => 7, 0⟩

/-- Register 1 holds 7 already. -/
theorem cpuRun_read_delivers_iff_seven : Delivers sevenAtThree holdsSeven readThree 1 { holdsSeven with pc := 1 } := by
  have hrun : run (cpuRun 0 holdsSeven) sevenAtThree =
    .ok (((sevenAtThree.referenced ⟨0, 0⟩).setLru (Lru.moveToTail 0 (sevenAtThree.referenced ⟨0, 0⟩).lru)),
      ({ holdsSeven with pc := 1 }, 0)) := rfl
  exact (@cpuRun_read_delivers_iff 0 sevenAtThree _ holdsSeven _ readThree rfl rfl (by decide) hrun).2
    ⟨7, by decide, by decide⟩

/-- **A READ of the byte 7 into register 1**, which holds 0: it returns 0, and register 1 still holds 0. -/
theorem cpuRun_read_lost : ∃ m' proc', run (cpuRun 0 readsThree) sevenAtThree = .ok (m', (proc', 0)) ∧
    proc'.regs 1 = 0 ∧ (∃ m₁, run (OsSim.read 0 0 3) sevenAtThree = .ok (m₁, (0, some 7))) ∧
    ¬ Delivers sevenAtThree readsThree readThree 1 proc' := by
  have hread : ∃ m₁, run (OsSim.read 0 0 3) sevenAtThree = .ok (m₁, (0, some 7)) := ⟨_, rfl⟩
  refine ⟨_, _, run_readsThree, rfl, hread, ?_⟩
  rintro ⟨data, ⟨m₁, hdata⟩, hreg, -⟩
  obtain ⟨m₂, hseven⟩ := hread
  have hsame : run (OsSim.read 0 0 3) sevenAtThree = .ok (m₁, (0, some data)) := hdata
  rw [hseven] at hsame
  cases hsame
  exact absurd hreg (by decide)

end OsSim
