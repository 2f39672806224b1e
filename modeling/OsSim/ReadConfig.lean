import Mathlib.Data.List.GetD
import OsSim.Loader
import OsSim.Simulator
/-!
# ReadConfig — configuration files (`src/os.c`)
`main` reads the configuration, which names the process files, and sets up the devices; the loader then opens the
process files in turn.  The globals are 0 at first.  The arrays `malloc` returns and the one on the stack have some
contents; `mem` names those that stay: where a directive of `fscanf` fails, in the storage of the devices, and in the
page tables and the region tables.
-/
namespace OsSim

open Scan

namespace ReadConfig

open Loader (Stop)

structure ProcLine where
  startTime : UInt64
  proc : List Char
  prio : UInt64

structure LdProcess where
  path : List Char
  startTime : UInt64
  prio : UInt64
  deriving DecidableEq

structure Settings where
  timeSlot : Int32
  numCpus : Int32
  numProcesses : Int32
  memramsz : Int32
  memswpsz : List Int32
  vmemsz : Int32
  deriving DecidableEq

def scanInts : Nat → List Char → List Int32 × List Char
  | 0, s => ([], s)
  | n + 1, s =>
    match scanD s with
    | (none, s) => ([], s)
    | (some v, s) => (v :: (scanInts n (skipSpace s)).1, (scanInts n (skipSpace s)).2)

/-- The loop over `memswpsz`: one call of `fscanf` for each, whatever the one before it did. -/
def scanSwaps : Nat → List Char → List Int32 × List Char
  | 0, s => ([], s)
  | n + 1, s =>
    let (v, s) := scanD s
    (v.getD 0 :: (scanSwaps n s).1, (scanSwaps n s).2)

def pagingMaxMmswp : Nat := 4

def readSettings (s : List Char) : Settings × List Char :=
  let (header, s) := scanInts 3 s
  let (ram, s) := scanInts 1 s
  let (swap, s) := scanSwaps pagingMaxMmswp s
  let (vmem, s) := scanInts 1 s
  (⟨header.getD 0 0, header.getD 1 0, header.getD 2 0, ram.getD 0 0, swap, vmem.getD 0 0⟩, skipSpace s)

/-- `fscanf` with the format of a process's line, into variables that hold `held`. -/
def scanLine (held : ProcLine) (s : List Char) : ProcLine × List Char :=
  match scanLu s with
  | (none, s) => (held, s)
  | (some startTime, s) =>
    match scanS (skipSpace s) with
    | (none, s) => ({ held with startTime := startTime }, s)
    | (some proc, s) =>
      match scanLu (skipSpace s) with
      | (none, s) => ({ held with startTime := startTime, proc := proc }, s)
      | (some prio, s) => (⟨startTime, proc, prio⟩, skipSpace s)

def inputProc : List Char := ['i', 'n', 'p', 'u', 't', '/', 'p', 'r', 'o', 'c', '/']

/-- The loop of `read_config`: `n` processes from place `i` on.  A path has room for 100 characters. -/
def readProcesses (mem : Nat → ProcLine) : Nat → Nat → List Char → Except Stop (List LdProcess)
  | 0, _, _ => .ok []
  | n + 1, i, s =>
    let (line, s) := scanLine (mem i) s
    if 100 ≤ (inputProc ++ line.proc).length then .error .overrun
    else do
      let rest ← readProcesses mem n (i + 1) s
      return ⟨inputProc ++ line.proc, line.startTime, line.prio⟩ :: rest

/-- `read_config`, of the file's text if it can be opened. -/
def readConfig (mem : Nat → ProcLine) (file : Option (List Char)) : Except Stop (Settings × List LdProcess) :=
  match file with
  | none => .error .exit
  | some s => do
    let (settings, s) := readSettings s
    let processes ← readProcesses mem settings.numProcesses.toInt.toNat 0 s
    return (settings, processes)

def loadAll (mem : Nat → Loader.Memory) (files : List Char → Option (List Char)) :
    Nat → UInt32 → List LdProcess → Except Stop (List Loader.Pcb)
  | _, _, [] => .ok []
  | i, availPid, p :: ps => do
    let (proc, availPid) ← Loader.load (mem i) availPid (files p.path)
    let rest ← loadAll mem files (i + 1) availPid ps
    return proc :: rest

/-- The number of bytes of a device; one of a negative size has none. -/
def devSize (size : Int32) : Nat := size.toInt.toNat

/-- What memory held: before `read_config` and before each `load`, in the bytes and the `free_fp_list` of each device,
and in the page tables and the `mm_struct`s. -/
structure Memory where
  line : Nat → ProcLine
  load : Nat → Loader.Memory
  storage : Nat → Nat → Byte
  freeFpList : Nat → List Nat
  pgd : PteRef → Pte
  mm : Pid → Mm

/-- `init_memphy` of RAM (device 0) or of a swap device. -/
def Memory.device (mem : Memory) (i : Nat) (size : Int32) : Memphy :=
  initMemphy (mem.storage i) (mem.freeFpList i) (devSize size) 1

/-- The machine `main` sets up, with `init_mm` for all processes. -/
def Settings.machine (g : Settings) (mem : Memory) : Machine :=
  { mram := mem.device 0 g.memramsz
    mswp := mem.device 1 (g.memswpsz.getD 0 0)
    idle := (List.range 3).map (fun sit => mem.device (sit + 2) (g.memswpsz.getD (sit + 1) 0))
    lru := []
    pgd := mem.pgd
    mm := fun p => initMm (mem.mm p) g.vmemsz.toUInt32.toNat
    trace := [] }

/-- What the threads work on.  `proc->prio` has 32 bits. -/
def Settings.workload (g : Settings) (processes : List LdProcess) (loaded : List Loader.Pcb) : Workload :=
  { timeSlot := g.timeSlot.toInt
    numCpus := g.numCpus.toInt.toNat
    numProcesses := g.numProcesses.toInt.toNat
    startTime := fun p => ((processes.map LdProcess.startTime).getD p 0).toNat
    prio := fun p => ((processes.map LdProcess.prio).getD p 0).toUInt32.toNat
    text := fun p => (loaded.map Loader.Pcb.text).getD p [] }

def input : List Char := ['i', 'n', 'p', 'u', 't', '/']

/-- `main`, with the arguments after the program's name, up to the threads; and what the loader will have loaded. -/
def main (mem : Memory) (files : List Char → Option (List Char)) (argv : List (List Char)) :
    Except Stop (Workload × Machine) :=
  match argv with
  | [arg] =>
    if 100 ≤ (input ++ arg).length then .error .overrun
    else do
      let (settings, processes) ← readConfig mem.line (files (input ++ arg))
      let loaded ← loadAll mem.load files 0 1 processes
      return (settings.workload processes loaded, settings.machine mem)
  | _ => .error .exit

/-! ## Configurations -/

structure Process where
  startTime : UInt64
  proc : List Char
  prio : UInt32
  program : Loader.Program
  word : IsWord proc
  short : proc.length < 89

def Process.words (p : Process) : List (List Char) := [ulongWord p.startTime, p.proc, ulongWord p.prio.toUInt64]

structure Configuration where
  timeSlot : Int32
  numCpus : Int32
  memramsz : Int32
  memswpsz : List Int32
  vmemsz : Int32
  processes : List Process
  swaps : memswpsz.length = pagingMaxMmswp
  fits : processes.length < 2 ^ 31

namespace Configuration

def settings (g : Configuration) : Settings :=
  ⟨g.timeSlot, g.numCpus, Int32.ofNat g.processes.length, g.memramsz, g.memswpsz, g.vmemsz⟩

def numbers (g : Configuration) : List Int32 :=
  [g.timeSlot, g.numCpus, Int32.ofNat g.processes.length, g.memramsz] ++ g.memswpsz ++ [g.vmemsz]

def words (g : Configuration) : List (List Char) := g.numbers.map intWord ++ g.processes.flatMap Process.words

def workload (g : Configuration) : Workload :=
  { timeSlot := g.timeSlot.toInt
    numCpus := g.numCpus.toInt.toNat
    numProcesses := g.processes.length
    startTime := fun p => ((g.processes.map Process.startTime).getD p 0).toNat
    prio := fun p => ((g.processes.map Process.prio).getD p 0).toNat
    text := fun p => (g.processes.map (fun p => p.program.text)).getD p [] }

open Loader (line)

def lines (g : Configuration) : List (List (List Char)) :=
  [g.timeSlot, g.numCpus, Int32.ofNat g.processes.length].map intWord ::
    (g.memramsz :: g.memswpsz ++ [g.vmemsz]).map intWord :: g.processes.map Process.words

def print (g : Configuration) : List Char := g.lines.flatMap line

theorem spells_lines : ∀ {ls : List (List (List Char))}, (∀ ws ∈ ls, ∀ w ∈ ws, IsWord w) →
    Spells ls.flatten (ls.flatMap line)
  | [], _ => .nil (fun c hc => by cases hc)
  | _ :: _, h => by
    rw [List.forall_mem_cons] at h
    exact Loader.spells_line (spells_lines h.2) h.1

theorem isWord_intWord {as : List Int32} {w : List Char} (h : w ∈ as.map intWord) : IsWord w := by
  obtain ⟨a, -, rfl⟩ := List.mem_map.1 h
  exact isWord_numeral _ _

theorem isWord_words {p : Process} {w : List Char} (h : w ∈ p.words) : IsWord w := by
  simp only [Process.words, List.mem_cons, List.not_mem_nil, or_false] at h
  rcases h with rfl | rfl | rfl
  · exact isWord_numeral _ _
  · exact p.word
  · exact isWord_numeral _ _

theorem spells_print (g : Configuration) : Spells g.words g.print := by
  have hflat : g.lines.flatten = g.words := by simp [lines, words, numbers, List.flatMap]
  rw [← hflat]
  refine spells_lines (fun ws hws w hw => ?_)
  rcases List.mem_cons.1 hws with rfl | hws
  · exact isWord_intWord hw
  · rcases List.mem_cons.1 hws with rfl | hws
    · exact isWord_intWord hw
    · obtain ⟨p, -, rfl⟩ := List.mem_map.1 hws
      exact isWord_words hw

end Configuration

/-! ## The numbers before the lines -/

section Numbers

variable {words : List (List Char)} {as : List Int32} {s : List Char}

/-- **Numbers are stored** as long as the text has some, and the format stops at a word that is none. -/
theorem scanInts_next : ∀ (n : Nat) {as : List Int32} {s : List Char}, Spells (as.map intWord ++ words) s →
    (as.length < n → ∀ w ∈ words.head?, NotNumber w) →
    ∃ s', scanInts n s = (as.take n, s') ∧ Spells ((as.drop n).map intWord ++ words) s'
  | 0, as, s, h, _ => ⟨s, rfl, h⟩
  | n + 1, as, s, h, hstop => by
    obtain ⟨t, hscan, ht⟩ := scanD_next h (fun hnil => hstop (by simp [hnil]))
    cases as with
    | nil => exact ⟨t, by rw [scanInts, hscan]; rfl, ht⟩
    | cons a as =>
      obtain ⟨s', hrest, hs'⟩ := scanInts_next n ht.skip (fun hlt => hstop (Nat.succ_lt_succ hlt))
      refine ⟨s', ?_, hs'⟩
      rw [scanInts, hscan]
      simp only [List.head?_cons, hrest, List.take_succ_cons, List.tail_cons]

theorem scanSwaps_next : ∀ (n : Nat) {as : List Int32} {s : List Char}, Spells (as.map intWord ++ words) s →
    (as.length < n → ∀ w ∈ words.head?, NotNumber w) →
    ∃ s', scanSwaps n s = ((List.range n).map (fun i => as.getD i 0), s') ∧
      Spells ((as.drop n).map intWord ++ words) s'
  | 0, as, s, h, _ => ⟨s, rfl, h⟩
  | n + 1, as, s, h, hstop => by
    obtain ⟨t, hscan, ht⟩ := scanD_next h (fun hnil => hstop (by simp [hnil]))
    obtain ⟨s', hrest, hs'⟩ := scanSwaps_next n ht (fun hlt => hstop (by rw [List.length_tail] at hlt; omega))
    refine ⟨s', ?_, by simpa using hs'⟩
    rw [scanSwaps, hscan]
    simp only [hrest, List.range_succ_eq_map, List.map_cons, List.map_map]
    cases as <;> rfl

def Settings.ofNumbers (as : List Int32) : Settings :=
  ⟨as.getD 0 0, as.getD 1 0, as.getD 2 0, as.getD 3 0, (List.range pagingMaxMmswp).map (fun i => as.getD (4 + i) 0),
    as.getD 8 0⟩

/-- **The settings read** are the numbers at the head of the file, at most nine. -/
theorem readSettings_next (h : Spells (as.map intWord ++ words) s)
    (hstop : as.length < 9 → ∀ w ∈ words.head?, NotNumber w) :
    ∃ s', readSettings s = (.ofNumbers as, s') ∧ Spells ((as.drop 9).map intWord ++ words) s' := by
  have hleft : ∀ n k, n + k ≤ 9 → (as.drop n).length < k → ∀ w ∈ words.head?, NotNumber w := fun n k hn hlt =>
    hstop (by rw [List.length_drop] at hlt; omega)
  obtain ⟨s₁, hheader, h₁⟩ := scanInts_next 3 h (hleft 0 3 (by decide))
  obtain ⟨s₂, hram, h₂⟩ := scanInts_next 1 h₁ (hleft 3 1 (by decide))
  rw [List.drop_drop] at h₂
  obtain ⟨s₃, hswap, h₃⟩ := scanSwaps_next pagingMaxMmswp h₂ (hleft 4 pagingMaxMmswp (by decide))
  rw [List.drop_drop] at h₃
  obtain ⟨s₄, hvmem, h₄⟩ := scanInts_next 1 h₃ (hleft 8 1 (by decide))
  rw [List.drop_drop] at h₄
  refine ⟨skipSpace s₄, ?_, h₄.skip⟩
  simp only [readSettings, hheader, hram, hswap, hvmem, Settings.ofNumbers]
  simp [List.getD_eq_getElem?_getD, pagingMaxMmswp]

end Numbers

/-! ## The lines of the processes -/

section Lines

variable {words : List (List Char)} {s : List Char}

theorem scanLine_words (held : ProcLine) {p : Process} (h : Spells (p.words ++ words) s) :
    ∃ s', scanLine held s = (⟨p.startTime, p.proc, p.prio.toUInt64⟩, s') ∧ Spells words s' := by
  obtain ⟨s₁, hstart, h₁⟩ := scanLu_ulong h
  obtain ⟨s₂, hproc, h₂⟩ := scanS_word h₁.skip
  obtain ⟨s₃, hprio, h₃⟩ := scanLu_ulong h₂.skip
  exact ⟨skipSpace s₃, by simp only [scanLine, hstart, hproc, hprio], h₃.skip⟩

def Process.ld (p : Process) : LdProcess := ⟨inputProc ++ p.proc, p.startTime, p.prio.toUInt64⟩

theorem readProcesses_words (mem : Nat → ProcLine) : ∀ (ps : List Process) (i : Nat) {s : List Char},
    Spells (ps.flatMap Process.words) s → readProcesses mem ps.length i s = .ok (ps.map Process.ld)
  | [], _, _, _ => rfl
  | p :: ps, i, s, h => by
    obtain ⟨s', hline, hs'⟩ := scanLine_words (mem i) h
    have hshort := p.short
    have hroom : ¬ 100 ≤ (inputProc ++ p.proc).length := by
      simp only [inputProc, List.length_append, List.length_cons, List.length_nil]
      omega
    rw [List.length_cons, readProcesses, hline]
    simp only [if_neg hroom, readProcesses_words mem ps (i + 1) hs']
    rfl

end Lines

/-! ## What a file sets up -/

section Files

variable {mem : Memory} {files : List Char → Option (List Char)}

theorem settings_ofNumbers (g : Configuration) : Settings.ofNumbers g.numbers = g.settings := by
  obtain ⟨a, b, c, d, hswaps⟩ : ∃ a b c d, g.memswpsz = [a, b, c, d] := by
    match hm : g.memswpsz, g.swaps with
    | [a, b, c, d], _ => exact ⟨a, b, c, d, rfl⟩
  simp [Settings.ofNumbers, Configuration.settings, Configuration.numbers, hswaps, pagingMaxMmswp, List.range_succ]

theorem length_numbers (g : Configuration) : g.numbers.length = 9 := by
  simp [Configuration.numbers, g.swaps, pagingMaxMmswp]

theorem toNat_numProcesses (g : Configuration) : g.settings.numProcesses.toInt.toNat = g.processes.length := by
  have hlt := g.fits
  rw [Configuration.settings, Int32.toInt_ofNat_of_lt hlt, Int.toNat_natCast]

theorem readConfig_words (held : Nat → ProcLine) (g : Configuration) {file : List Char} (h : Spells g.words file) :
    readConfig held (some file) = .ok (g.settings, g.processes.map Process.ld) := by
  have hnine := length_numbers g
  obtain ⟨s', hsettings, hs'⟩ := readSettings_next h (fun hlt => by omega)
  rw [settings_ofNumbers] at hsettings
  rw [List.drop_of_length_le (by omega), List.map_nil, List.nil_append] at hs'
  simp only [readConfig, hsettings, toNat_numProcesses, readProcesses_words held g.processes 0 hs']
  rfl

theorem load_program (held : Loader.Memory) (availPid : UInt32) (p : Loader.Program) {file : List Char}
    (h : Spells p.words file) : ∃ proc, Loader.load held availPid (some file) = .ok (proc, availPid + 1) ∧
      proc.text.map (fun inst => (inst.opcode, inst.args)) = p.text.map (fun inst => (inst.opcode, inst.args)) := by
  have hsize : p.text.length < 2 ^ 64 := Nat.lt_trans p.fits (by decide)
  have hpriority : p.priority.toNat < 2 ^ 64 := Nat.lt_trans p.priority.toNat_lt (by decide)
  obtain ⟨s₁, hfirst, h₁⟩ := fscanf_number hpriority [.space, .u] h
  obtain ⟨s₂, hsecond, h₂⟩ := fscanf_number hsize [] h₁.skip
  have hheader : fscanf [.u, .space, .u] file = ([p.priority, UInt32.ofNat p.text.length], s₂) := by
    rw [hfirst, fscanf, hsecond, UInt32.ofNat_toNat]
    rfl
  have hlen : (UInt32.ofNat p.text.length).toNat = p.text.length := by
    simpa using Nat.mod_eq_of_lt p.fits
  obtain ⟨read, hread, hsame⟩ := Loader.readText_spells held p.text 0 held.opcode h₂
  refine ⟨⟨availPid, p.priority, 0, 1024, UInt32.ofNat p.text.length, read⟩, ?_, hsame⟩
  simp only [Loader.load, hheader, List.getD_cons_zero, List.getD_cons_succ, hlen]
  rw [hread]
  rfl

theorem loadAll_words (load : Nat → Loader.Memory) : ∀ (ps : List Process) (i : Nat) (availPid : UInt32),
    (∀ p ∈ ps, ∃ file, files (inputProc ++ p.proc) = some file ∧ Spells p.program.words file) →
    ∃ loaded, loadAll load files i availPid (ps.map Process.ld) = .ok loaded ∧
      loaded.map (fun proc => proc.text.map (fun inst => (inst.opcode, inst.args))) =
        ps.map (fun p => p.program.text.map (fun inst => (inst.opcode, inst.args)))
  | [], _, _, _ => ⟨[], rfl, rfl⟩
  | p :: ps, i, availPid, h => by
    obtain ⟨file, hfile, hspells⟩ := h p List.mem_cons_self
    obtain ⟨proc, hload, htext⟩ := load_program (load i) availPid p.program hspells
    obtain ⟨loaded, hrest, hsame⟩ :=
      loadAll_words load ps (i + 1) (availPid + 1) (fun q hq => h q (List.mem_cons_of_mem p hq))
    refine ⟨proc :: loaded, ?_, by rw [List.map_cons, List.map_cons, htext, hsame]⟩
    simp only [List.map_cons, loadAll, Process.ld, hfile, hload]
    change (do let rest ← loadAll load files (i + 1) (availPid + 1) (ps.map Process.ld); _) = _
    rw [hrest]
    rfl

/-- **`main` sets up what its files say.**  Whatever memory held, from files that spell a configuration and the programs
of its processes `main` and the loader get the workload of that configuration and a machine with its devices. -/
theorem main_spells (mem : Memory) (g : Configuration) {arg : List Char} (hroom : (input ++ arg).length < 100)
    (hconf : ∃ file, files (input ++ arg) = some file ∧ Spells g.words file)
    (hproc : ∀ p ∈ g.processes, ∃ file, files (inputProc ++ p.proc) = some file ∧ Spells p.program.words file) :
    ∃ w, main mem files [arg] = .ok (w, g.settings.machine mem) ∧ w.config = g.workload.config ∧
      ∀ p, (w.text p).map (fun inst => (inst.opcode, inst.args)) =
        (g.workload.text p).map (fun inst => (inst.opcode, inst.args)) := by
  obtain ⟨file, hfile, hspells⟩ := hconf
  obtain ⟨loaded, hload, htext⟩ := loadAll_words mem.load g.processes 0 1 hproc
  have hsame : ∀ p, ((g.settings.workload (g.processes.map Process.ld) loaded).text p).map
      (fun inst => (inst.opcode, inst.args)) = (g.workload.text p).map (fun inst => (inst.opcode, inst.args)) := by
    intro p
    have hmap : ∀ l : List (List Inst), (l.getD p []).map (fun inst => (inst.opcode, inst.args)) =
        (l.map (List.map (fun inst => (inst.opcode, inst.args)))).getD p [] := fun l => (List.getD_map l [] _).symm
    change ((loaded.map Loader.Pcb.text).getD p []).map _ =
      ((g.processes.map (fun p => p.program.text)).getD p []).map _
    rw [hmap, hmap, List.map_map, List.map_map]
    exact congrArg (fun l => l.getD p []) htext
  refine ⟨g.settings.workload (g.processes.map Process.ld) loaded, ?_, ?_, hsame⟩
  · simp only [main, if_neg (Nat.not_le.2 hroom), hfile, readConfig_words mem.line g hspells]
    change (do let loaded ← loadAll mem.load files 0 1 (g.processes.map Process.ld); _) = _
    rw [hload]
    rfl
  · have hsize : ∀ p, ((g.settings.workload (g.processes.map Process.ld) loaded).text p).length =
        (g.workload.text p).length := fun p => by simpa using congrArg List.length (hsame p)
    have hstart : (g.processes.map Process.ld).map LdProcess.startTime = g.processes.map Process.startTime := by
      rw [List.map_map]
      rfl
    have hprio : ∀ p : Nat, (((g.processes.map Process.ld).map LdProcess.prio).getD p 0).toUInt32.toNat =
        ((g.processes.map Process.prio).getD p 0).toNat := by
      intro p
      simp only [List.getD_eq_getElem?_getD, List.getElem?_map]
      cases g.processes[p]? with
      | none => rfl
      | some q => exact congrArg UInt32.toNat (UInt32.toUInt32_toUInt64 q.prio)
    unfold Workload.config
    simp only [hsize]
    simp only [Settings.workload, Configuration.workload, hstart, hprio, toNat_numProcesses]
    rfl

def twoProcesses : Configuration where
  timeSlot := 6
  numCpus := 2
  memramsz := 1048576
  memswpsz := [16777216, 0, 0, 0]
  vmemsz := 3145728
  processes := [
    ⟨0, ['p', '0', 's'], 0, ⟨1, [⟨.calc, 5, 5, 5⟩, ⟨.alloc, 300, 0, 5⟩], by decide⟩,
      ⟨by decide, by simp [isSpace]⟩, by decide⟩,
    ⟨2, ['p', '1', 's'], 15, ⟨1, [⟨.calc, 5, 5, 5⟩], by decide⟩, ⟨by decide, by simp [isSpace]⟩, by decide⟩]
  swaps := rfl
  fits := by decide

def twoFiles (path : List Char) : Option (List Char) :=
  if path = "input/os".toList then some "6 2 2\n1048576 16777216 0 0 0 3145728\n0 p0s 0\n2 p1s 15\n".toList
  else if path = "input/proc/p0s".toList then some "1 2\ncalc\nalloc 300 0\n".toList
  else if path = "input/proc/p1s".toList then some "1 1\ncalc\n".toList
  else none

def usedMemory : Memory :=
  { line := fun _ => ⟨7, ['x'], 7⟩
    load := fun _ => ⟨7, 7, fun _ => ⟨.read, 9, 9, 9⟩, []⟩
    storage := fun _ _ => 7
    freeFpList := fun _ => [7]
    pgd := fun _ => 7
    mm := fun _ => { zeroMm with symrgtbl := fun _ => ⟨7, 7, 7⟩ } }

/-- The three swap devices of size 0 have the list that memory held. -/
theorem main_spells_twoProcesses : ∃ w m,
    main usedMemory twoFiles ["os".toList] = .ok (w, m) ∧
    (m.mram.maxsz = 1048576 ∧ m.mswp.freeFpList = List.range 65536 ∧ m.idle.map Memphy.freeFpList = [[7], [7], [7]]) ∧
    w.numCpus = 2 ∧ w.startTime 1 = 2 ∧ w.prio 1 = 15 ∧ (w.text 0).length = 2 := by
  have hproc : ∀ p ∈ twoProcesses.processes, twoFiles (inputProc ++ p.proc) = some p.program.print := by
    decide +kernel
  obtain ⟨w, hmain, hconfig, -⟩ := @main_spells twoFiles usedMemory twoProcesses "os".toList (by decide)
    ⟨twoProcesses.print, by decide +kernel, twoProcesses.spells_print⟩
    (fun p hp => ⟨p.program.print, hproc p hp, Loader.spells_print _⟩)
  have hswap : (twoProcesses.settings.machine usedMemory).mswp.freeFpList = List.range 65536 :=
    initMemphy_freeFpList (fun _ => 7) [7] (n := 65536) (by decide)
  refine ⟨w, _, hmain, ⟨rfl, hswap, rfl⟩, congrArg Config.numCpus hconfig, ?_, ?_, ?_⟩
  · exact congrArg (fun c => c.startTime 1) hconfig
  · exact congrArg (fun c => c.prio 1) hconfig
  · exact congrArg (fun c => c.size 0) hconfig

end Files

end ReadConfig

end OsSim
