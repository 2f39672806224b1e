import OsSim.Lib.Scan
/-!
# Loader — process files (`src/loader.c`)

A process file holds the priority and the number of instructions, then the instructions, an opcode and its arguments
each. What `malloc` returns and what is on the stack has some contents; `Memory` names those that `load` may leave
as they were.
-/
namespace OsSim

open Scan

inductive Opcode where
  | calc
  | alloc
  | malloc
  | free
  | read
  | write
  deriving DecidableEq

def Opcode.opt : Opcode → List Char
  | .calc => ['c', 'a', 'l', 'c']
  | .alloc => ['a', 'l', 'l', 'o', 'c']
  | .malloc => ['m', 'a', 'l', 'l', 'o', 'c']
  | .free => ['f', 'r', 'e', 'e']
  | .read => ['r', 'e', 'a', 'd']
  | .write => ['w', 'r', 'i', 't', 'e']

structure Inst where
  opcode : Opcode
  arg0 : UInt32
  arg1 : UInt32
  arg2 : UInt32
  deriving DecidableEq

def Inst.args (inst : Inst) : List UInt32 :=
  match inst.opcode with
  | .calc => []
  | .alloc | .malloc => [inst.arg0, inst.arg1]
  | .free => [inst.arg0]
  | .read | .write => [inst.arg0, inst.arg1, inst.arg2]

def Opcode.arity : Opcode → Nat
  | .calc => 0
  | .alloc | .malloc => 2
  | .free => 1
  | .read | .write => 3

namespace Loader

/-- What `load` sets in `struct pcb_t`; the code segment's `size` and `text` are among it. -/
structure Pcb where
  pid : UInt32
  priority : UInt32
  pc : UInt32
  bp : UInt32
  size : UInt32
  text : List Inst

structure Memory where
  priority : UInt32
  size : UInt32
  text : Nat → Inst
  opcode : List Char

inductive Stop where
  /-- `exit(1)` -/
  | exit
  /-- A word too long for `opcode`. -/
  | overrun
  deriving DecidableEq

def getOpcode (opt : List Char) : Except Stop Opcode :=
  if opt = Opcode.calc.opt then .ok .calc
  else if opt = Opcode.alloc.opt then .ok .alloc
  else if opt = Opcode.malloc.opt then .ok .malloc
  else if opt = Opcode.free.opt then .ok .free
  else if opt = Opcode.read.opt then .ok .read
  else if opt = Opcode.write.opt then .ok .write
  else .error .exit

def setArgs (inst : Inst) : List UInt32 → Inst
  | [] => inst
  | [a] => { inst with arg0 := a }
  | [a, b] => { inst with arg0 := a, arg1 := b }
  | a :: b :: c :: _ => { inst with arg0 := a, arg1 := b, arg2 := c }

/-- The `switch` of `load`.  `MALLOC` has no `break` and reads on as `FREE`. -/
def readArgs (inst : Inst) (s : List Char) : Inst × List Char :=
  match inst.opcode with
  | .calc => (inst, s)
  | .alloc =>
    let (args, s) := fscanf [.u, .space, .u, .space] s
    (setArgs inst args, s)
  | .malloc =>
    let (args, s) := fscanf [.u, .space, .u, .space] s
    let (more, s) := fscanf [.u, .space] s
    (setArgs (setArgs inst args) more, s)
  | .free =>
    let (args, s) := fscanf [.u, .space] s
    (setArgs inst args, s)
  | .read | .write =>
    let (args, s) := fscanf [.u, .space, .u, .space, .u, .space] s
    (setArgs inst args, s)

/-- The loop of `load`: `n` instructions from place `i` on.  Where no word is left, `opcode` stays as it was. -/
def readText (mem : Memory) : Nat → Nat → List Char → List Char → Except Stop (List Inst)
  | 0, _, _, _ => .ok []
  | n + 1, i, opcode, s => do
    let (word, s) := scanS s
    let opcode := word.getD opcode
    if 10 ≤ opcode.length then .error .overrun
    else
      let op ← getOpcode opcode
      let (inst, s) := readArgs { mem.text i with opcode := op } s
      let rest ← readText mem n (i + 1) opcode s
      return inst :: rest

/-- `load`, of the file's text if it can be opened; with the `avail_pid` it leaves. -/
def load (mem : Memory) (availPid : UInt32) (file : Option (List Char)) : Except Stop (Pcb × UInt32) :=
  match file with
  | none => .error .exit
  | some s => do
    let (header, s) := fscanf [.u, .space, .u] s
    let priority := header.getD 0 mem.priority
    let size := header.getD 1 mem.size
    let text ← readText mem size.toNat 0 mem.opcode s
    return (⟨availPid, priority, 0, 1024, size, text⟩, availPid + 1)

/-! ## Process files -/

/-- A program: its size is a 32-bit number. -/
structure Program where
  priority : UInt32
  text : List Inst
  fits : text.length < 2 ^ 32

def number (n : UInt32) : List Char := Nat.toDigits 10 n.toNat

def instWords (inst : Inst) : List (List Char) := inst.opcode.opt :: inst.args.map number

def Program.words (p : Program) : List (List Char) :=
  number p.priority :: Nat.toDigits 10 p.text.length :: p.text.flatMap instWords

def line : List (List Char) → List Char
  | [] => ['\n']
  | [w] => w ++ ['\n']
  | w :: ws => w ++ ' ' :: line ws

def Program.print (p : Program) : List Char :=
  line [number p.priority, Nat.toDigits 10 p.text.length] ++ p.text.flatMap (fun inst => line (instWords inst))

theorem isWord_opt (op : Opcode) : IsWord op.opt := by
  cases op <;> exact ⟨by simp [Opcode.opt], by simp [Opcode.opt, isSpace]⟩

theorem notNumber_opt (op : Opcode) : NotNumber op.opt := by
  cases op <;> exact ⟨isWord_opt _, by simp [Opcode.opt]⟩

theorem isWord_instWords {inst : Inst} {w : List Char} (h : w ∈ instWords inst) : IsWord w := by
  rcases List.mem_cons.1 h with rfl | h
  · exact isWord_opt _
  · obtain ⟨a, -, rfl⟩ := List.mem_map.1 h
    exact isWord_toDigits _

theorem spells_line {words : List (List Char)} {s : List Char} (hs : Spells words s) :
    ∀ {ws : List (List Char)}, (∀ w ∈ ws, IsWord w) → Spells (ws ++ words) (line ws ++ s)
  | [], _ => @Spells.after words ['\n'] s (by simp [Blank, isSpace]) hs
  | [w], hw => by simpa [line] using hs.word (hw w List.mem_cons_self) (by decide : isSpace '\n' = true)
  | w :: v :: ws, hw => by
    have ih := spells_line hs (fun u hu => hw u (List.mem_cons_of_mem w hu))
    simpa [line] using ih.word (hw w List.mem_cons_self) (by decide : isSpace ' ' = true)

/-- **What is printed spells the program.** -/
theorem spells_print (p : Program) : Spells p.words p.print := by
  have htext : Spells (p.text.flatMap instWords) (p.text.flatMap (fun inst => line (instWords inst))) := by
    induction p.text with
    | nil => exact .nil (fun c hc => by cases hc)
    | cons inst text ih =>
      rw [List.flatMap_cons, List.flatMap_cons]
      exact spells_line ih (fun w => isWord_instWords)
  refine @spells_line _ _ htext [number p.priority, Nat.toDigits 10 p.text.length] (fun w hw => ?_)
  rcases List.mem_cons.1 hw with rfl | hw
  · exact isWord_toDigits _
  · obtain rfl := List.mem_singleton.1 hw
    exact isWord_toDigits _

/-! ## Loading undoes printing -/

section Read

variable {words : List (List Char)} {s : List Char}

/-- **The arguments read** are those that stand in the text, if all of them do and no number follows. -/
theorem readArgs_complete {inst : Inst} {rest : List Char} {args : List UInt32}
    (hscan : fscanf (numbers inst.opcode.arity) s = (args, rest)) (hall : args.length = inst.opcode.arity)
    (hno : (scanU rest).1 = none) : (readArgs inst s).1.opcode = inst.opcode ∧ (readArgs inst s).1.args = args := by
  match hop : inst.opcode with
  | .calc =>
    rw [hop] at hall
    obtain rfl := List.length_eq_zero_iff.1 hall
    exact ⟨by simp [readArgs, hop], by simp [readArgs, Inst.args, hop]⟩
  | .alloc =>
    rw [hop] at hscan hall
    obtain ⟨x, y, rfl⟩ := List.length_eq_two.1 hall
    have hfmt : fscanf [.u, .space, .u, .space] s = ([x, y], rest) := hscan
    exact ⟨by simp [readArgs, hop, hfmt, setArgs], by simp [readArgs, Inst.args, hop, hfmt, setArgs]⟩
  | .malloc =>
    rw [hop] at hscan hall
    obtain ⟨x, y, rfl⟩ := List.length_eq_two.1 hall
    have hfmt : fscanf [.u, .space, .u, .space] s = ([x, y], rest) := hscan
    have hmore := fscanf_stop [.space] hno
    exact ⟨by simp [readArgs, hop, hfmt, hmore, setArgs], by simp [readArgs, Inst.args, hop, hfmt, hmore, setArgs]⟩
  | .free =>
    rw [hop] at hscan hall
    obtain ⟨x, rfl⟩ := List.length_eq_one_iff.1 hall
    have hfmt : fscanf [.u, .space] s = ([x], rest) := hscan
    exact ⟨by simp [readArgs, hop, hfmt, setArgs], by simp [readArgs, Inst.args, hop, hfmt, setArgs]⟩
  | .read | .write =>
    rw [hop] at hscan hall
    obtain ⟨x, y, z, rfl⟩ := List.length_eq_three.1 hall
    have hfmt : fscanf [.u, .space, .u, .space, .u, .space] s = ([x, y, z], rest) := hscan
    exact ⟨by simp [readArgs, hop, hfmt, setArgs], by simp [readArgs, Inst.args, hop, hfmt, setArgs]⟩

theorem readArgs_rest (inst : Inst) (s : List Char) : (readArgs inst s).2 =
    if inst.opcode = .malloc then (fscanf [.u, .space] (fscanf (numbers inst.opcode.arity) s).2).2
    else (fscanf (numbers inst.opcode.arity) s).2 := by
  cases hop : inst.opcode <;> (simp only [readArgs, hop]; rfl)

theorem length_args (inst : Inst) : inst.args.length = inst.opcode.arity := by
  cases hop : inst.opcode <;> simp [Inst.args, hop, Opcode.arity]

/-- **The arguments that a text spells** are read; the read that `MALLOC` adds takes nothing, since an opcode
follows, or the end. -/
theorem readArgs_spells {inst i : Inst} (hop : i.opcode = inst.opcode) (h : Spells (inst.args.map number ++ words) s)
    (hwords : ∀ w ∈ words.head?, NotNumber w) :
    ∃ i' s', readArgs i s = (i', s') ∧ i'.opcode = inst.opcode ∧ i'.args = inst.args ∧ Spells words s' := by
  obtain ⟨s', hscan, hs'⟩ := fscanf_numbers h
  rw [length_args, ← hop] at hscan
  have hnone := scanU_none hs' hwords
  obtain ⟨hsame, hargs⟩ := readArgs_complete hscan (by rw [hop, length_args]) (by rw [hnone])
  refine ⟨(readArgs i s).1, (readArgs i s).2, rfl, hsame.trans hop, hargs, ?_⟩
  rw [readArgs_rest, hscan]
  split
  · rw [fscanf_none _ hs' hwords]
    exact hs'.skip
  · exact hs'

theorem getOpcode_opt (op : Opcode) : getOpcode op.opt = .ok op := by
  cases op <;> rfl

theorem length_opt (op : Opcode) : ¬ 10 ≤ op.opt.length := by
  cases op <;> decide

theorem readText_spells (mem : Memory) : ∀ (text : List Inst) (i : Nat) (opcode : List Char) {s : List Char},
    Spells (text.flatMap instWords) s → ∃ read, readText mem text.length i opcode s = .ok read ∧
      read.map (fun j => (j.opcode, j.args)) = text.map (fun j => (j.opcode, j.args))
  | [], _, _, _, _ => ⟨[], rfl, rfl⟩
  | inst :: text, i, opcode, s, h => by
    have hwords : ∀ w ∈ (text.flatMap instWords).head?, NotNumber w := by
      cases text with
      | nil => exact fun w hw => by cases hw
      | cons j text =>
        intro w hw
        obtain rfl : j.opcode.opt = w := by simpa [instWords] using hw
        exact notNumber_opt _
    obtain ⟨s₁, hword, h₁⟩ := scanS_word h
    obtain ⟨j, s₂, hargs, hop, hsame, h₂⟩ :=
      @readArgs_spells _ _ inst { mem.text i with opcode := inst.opcode } rfl h₁ hwords
    obtain ⟨read, hread, hrest⟩ := readText_spells mem text (i + 1) inst.opcode.opt h₂
    refine ⟨j :: read, ?_, by simp [hop, hsame, hrest]⟩
    rw [List.length_cons, readText, hword]
    simp only [Option.getD_some, if_neg (length_opt inst.opcode), getOpcode_opt]
    change (do let rest ← readText mem text.length (i + 1) inst.opcode.opt (readArgs _ s₁).2; _) = _
    rw [hargs, hread]
    rfl

end Read

/-- **Loading undoes printing.**  Whatever memory held, `load` makes of every text that spells a program a process
with that priority and size, at its first instruction, with the same opcodes and the same arguments that these use.
-/
theorem load_spells (mem : Memory) (availPid : UInt32) (p : Program) {file : List Char} (h : Spells p.words file) :
    ∃ proc, load mem availPid (some file) = .ok (proc, availPid + 1) ∧ proc.pc = 0 ∧ proc.priority = p.priority ∧
      proc.size.toNat = p.text.length ∧
      proc.text.map (fun inst => (inst.opcode, inst.args)) = p.text.map (fun inst => (inst.opcode, inst.args)) := by
  have hsize : p.text.length < 2 ^ 64 := Nat.lt_trans p.fits (by decide)
  have hpriority : p.priority.toNat < 2 ^ 64 := Nat.lt_trans p.priority.toNat_lt (by decide)
  obtain ⟨s₁, hfirst, h₁⟩ := fscanf_number hpriority [.space, .u] h
  obtain ⟨s₂, hsecond, h₂⟩ := fscanf_number hsize [] h₁.skip
  have hheader : fscanf [.u, .space, .u] file = ([p.priority, UInt32.ofNat p.text.length], s₂) := by
    rw [hfirst, fscanf, hsecond, UInt32.ofNat_toNat]
    rfl
  have hlen : (UInt32.ofNat p.text.length).toNat = p.text.length := by
    simpa using Nat.mod_eq_of_lt p.fits
  obtain ⟨read, hread, hsame⟩ := readText_spells mem p.text 0 mem.opcode h₂
  refine ⟨⟨availPid, p.priority, 0, 1024, UInt32.ofNat p.text.length, read⟩, ?_, rfl, rfl, hlen, hsame⟩
  simp only [load, hheader, List.getD_cons_zero, List.getD_cons_succ, hlen]
  rw [hread]
  rfl

/-- A `malloc` before a `calc`, and one at the end of the file. -/
theorem load_spells_malloc : ∃ proc, load ⟨7, 7, fun _ => ⟨.read, 9, 9, 9⟩, []⟩ 1
    (some "130 3\nmalloc 300 0\ncalc\nmalloc 20 1\n".toList) = .ok (proc, 2) ∧ proc.pc = 0 ∧ proc.priority = 130 ∧
      proc.text.map (fun inst => (inst.opcode, inst.args)) =
        [(Opcode.malloc, [300, 0]), (Opcode.calc, []), (Opcode.malloc, [20, 1])] := by
  have hprint : "130 3\nmalloc 300 0\ncalc\nmalloc 20 1\n".toList =
      Program.print ⟨130, [⟨.malloc, 300, 0, 5⟩, ⟨.calc, 5, 5, 5⟩, ⟨.malloc, 20, 1, 5⟩], by decide⟩ := by
    decide +kernel
  rw [hprint]
  obtain ⟨proc, hload, hpc, hpriority, -, htext⟩ := load_spells ⟨7, 7, fun _ => ⟨.read, 9, 9, 9⟩, []⟩ 1
    ⟨130, [⟨.malloc, 300, 0, 5⟩, ⟨.calc, 5, 5, 5⟩, ⟨.malloc, 20, 1, 5⟩], by decide⟩ (spells_print _)
  exact ⟨proc, hload, hpc, hpriority, htext⟩

end Loader

end OsSim
