import OsSim.Loader
/-!
# Malformed — process files that are not what they announce

`load` checks none of its `fscanf`s.  What ends the program is a word that `get_opcode` does not know; a file that
is short, or lacks an argument, or has a number too many, is loaded unless such a word comes up later.
-/
namespace OsSim

open Scan

namespace Loader

/-- **The text begins with these instructions**: for each its opcode, all its arguments, and no number after them. -/
inductive Begins : List (Opcode × List UInt32) → List Char → Prop where
  | nil {s : List Char} : Begins [] s
  | cons {op : Opcode} {args : List UInt32} {s t rest : List Char} {insts : List (Opcode × List UInt32)}
    (word : scanS s = (some op.opt, t)) (scan : fscanf (numbers op.arity) t = (args, rest)) (all : args.length = op.arity)
    (no_more : (scanU rest).1 = none) (later : Begins insts rest) : Begins ((op, args) :: insts) s

/-- **`load` loads only what the file announces**: a process it returns has as many instructions as the header says,
those that the text after the header begins with. -/
def LoadsOnly (mem : Memory) (availPid : UInt32) (file : List Char) : Prop :=
  ∀ priority size s, fscanf [.u, .space, .u] file = ([priority, size], s) →
    ∀ proc pid, load mem availPid (some file) = .ok (proc, pid) → ∃ insts, insts.length = size.toNat ∧ Begins insts s ∧
      proc.text.map (fun inst => (inst.opcode, inst.args)) = insts

/-! ## What `load` refuses, and what it lets pass -/

def textAfter (op : Opcode) (s : List Char) : List Char := (readArgs ⟨op, 0, 0, 0⟩ s).2

/-- A word where one of `n` opcodes is looked for, or what `opcode` holds where none is left, is no opcode. -/
inductive Refused : List Char → Nat → List Char → Prop where
  | here {opcode : List Char} {n : Nat} {s : List Char} (unknown : ∀ op, (scanS s).1.getD opcode ≠ Opcode.opt op) :
    Refused opcode (n + 1) s
  | later {opcode : List Char} {n : Nat} {s : List Char} {op : Opcode} (known : (scanS s).1.getD opcode = op.opt)
    (rest : Refused op.opt n (textAfter op (scanS s).2)) : Refused opcode (n + 1) s

inductive Slip : Nat → List Char → Prop where
  /-- No word is left for the opcode. -/
  | ends {n : Nat} {s : List Char} (none_left : (scanS s).1 = none) : Slip (n + 1) s
  /-- An argument is not there. -/
  | lacks {n : Nat} {s t : List Char} {op : Opcode} (word : scanS s = (some op.opt, t))
    (short : (fscanf (numbers op.arity) t).1.length < op.arity) : Slip (n + 1) s
  /-- The read that `MALLOC` adds takes a number, or a sign. -/
  | takes {n : Nat} {s t : List Char} (word : scanS s = (some Opcode.malloc.opt, t))
    (taken : (scanU (fscanf (numbers 2) t).2).2 ≠ skipSpace (fscanf (numbers 2) t).2) : Slip (n + 2) s
  /-- A number stands after the last instruction. -/
  | leaves {s t : List Char} {op : Opcode} (word : scanS s = (some op.opt, t))
    (left : (scanU (fscanf (numbers op.arity) t).2).1 ≠ none) : Slip 1 s
  | later {n : Nat} {s t : List Char} {op : Opcode} (word : scanS s = (some op.opt, t)) (rest : Slip n (textAfter op t)) :
    Slip (n + 1) s

theorem opt_injective {op op' : Opcode} (h : op.opt = op'.opt) : op = op' := by
  have := (getOpcode_opt op).symm.trans (h ▸ getOpcode_opt op')
  exact Except.ok.inj this

theorem getOpcode_unknown {w : List Char} (h : ∀ op, w ≠ Opcode.opt op) : getOpcode w = .error .exit := by
  simp [getOpcode, h .calc, h .alloc, h .malloc, h .free, h .read, h .write]

theorem readArgs_textAfter (inst : Inst) (s : List Char) : (readArgs inst s).2 = textAfter inst.opcode s := by
  rw [textAfter, readArgs_rest, readArgs_rest]

theorem readText_known (mem : Memory) (n i : Nat) {opcode s : List Char} {op : Opcode}
    (h : (scanS s).1.getD opcode = op.opt) :
    readText mem (n + 1) i opcode s =
      (readText mem n (i + 1) op.opt (textAfter op (scanS s).2)).map
        (fun rest => (readArgs { mem.text i with opcode := op } (scanS s).2).1 :: rest) := by
  rw [readText]
  simp only [h, if_neg (length_opt op), getOpcode_opt]
  change (do let rest ← readText mem n (i + 1) op.opt (readArgs { mem.text i with opcode := op } (scanS s).2).2; _) = _
  rw [readArgs_textAfter]
  cases readText mem n (i + 1) op.opt (textAfter op (scanS s).2) <;> rfl

/-- **The loop ends the program** just where it comes to a word that is no opcode. -/
theorem readText_error (mem : Memory) : ∀ (n i : Nat) (opcode s : List Char),
    (∃ e, readText mem n i opcode s = .error e) ↔ Refused opcode n s
  | 0, i, opcode, s => by
    constructor
    · rintro ⟨e, h⟩
      cases h
    · intro h
      cases h
  | n + 1, i, opcode, s => by
    by_cases hknown : ∃ op, (scanS s).1.getD opcode = Opcode.opt op
    · obtain ⟨op, hop⟩ := hknown
      have ih := readText_error mem n (i + 1) op.opt (textAfter op (scanS s).2)
      rw [readText_known mem n i hop]
      constructor
      · rintro ⟨e, he⟩
        refine .later hop (ih.1 ?_)
        cases hrest : readText mem n (i + 1) op.opt (textAfter op (scanS s).2) with
        | error e' => exact ⟨e', rfl⟩
        | ok text => rw [hrest] at he; cases he
      · intro h
        cases h with
        | here unknown => exact absurd hop (unknown op)
        | @later _ _ _ op' known rest =>
          obtain rfl := opt_injective (hop.symm.trans known)
          obtain ⟨e, he⟩ := ih.2 rest
          exact ⟨e, by rw [he]; rfl⟩
    · have hunknown : ∀ op, (scanS s).1.getD opcode ≠ Opcode.opt op := fun op h => hknown ⟨op, h⟩
      refine iff_of_true ?_ (.here hunknown)
      rw [readText]
      dsimp only
      split
      · exact ⟨_, rfl⟩
      · rw [getOpcode_unknown hunknown]
        exact ⟨_, rfl⟩

/-! ## Texts without a slip -/

section Text

variable {s s' t : List Char}

theorem Slip.congr {n : Nat} (hs : scanS s = scanS s') (h : Slip n s) : Slip n s' := by
  cases h with
  | ends none_left => exact .ends (hs ▸ none_left)
  | lacks word short => exact .lacks (hs ▸ word) short
  | takes word taken => exact .takes (hs ▸ word) taken
  | leaves word left => exact .leaves (hs ▸ word) left
  | later word rest => exact .later (hs ▸ word) rest

theorem Begins.congr {insts : List (Opcode × List UInt32)} (hs : scanS s = scanS s') (h : Begins insts s) :
    Begins insts s' := by
  cases h with
  | nil => exact .nil
  | cons word scan all no_more later => exact .cons (hs ▸ word) scan all no_more later

theorem scanS_textAfter {op : Opcode} {rest : List Char} {args : List UInt32}
    (hscan : fscanf (numbers op.arity) t = (args, rest))
    (hno : (scanU rest).1 = none) (htakes : op = .malloc → (scanU rest).2 = skipSpace rest) :
    scanS (textAfter op t) = scanS rest := by
  rw [textAfter, readArgs_rest, hscan]
  by_cases hop : op = .malloc
  · rw [if_pos hop, fscanf_stop _ hno, htakes hop, scanS_skipSpace]
  · rw [if_neg hop]

theorem Begins.no_slip {insts : List (Opcode × List UInt32)} (h : Begins insts s) :
    ∀ n, insts.length = n → ¬ Slip n s := by
  induction h with
  | nil =>
    rintro n rfl hslip
    cases hslip
  | @cons op args s t rest insts word scan all no_more later ih =>
    intro n hn hslip
    -- before another opcode the extra read takes white space
    have htakes : ∀ k, insts.length = k + 1 → (scanU rest).2 = skipSpace rest := by
      intro k hk
      cases later with
      | nil => cases hk
      | cons word' _ _ _ _ => rw [scanU_of_word (congrArg Prod.fst word') (notNumber_opt _)]
    cases hslip with
    | ends none_left =>
      rw [word] at none_left
      cases none_left
    | @lacks k _ t' op' word' short =>
      obtain ⟨hop, rfl⟩ := Prod.mk.inj (word.symm.trans word')
      obtain rfl := opt_injective (Option.some.inj hop)
      rw [scan] at short
      exact absurd all (Nat.ne_of_lt short)
    | @takes k _ t' word' taken =>
      obtain ⟨hop, rfl⟩ := Prod.mk.inj (word.symm.trans word')
      obtain rfl := opt_injective (Option.some.inj hop)
      rw [show fscanf (numbers 2) t = (args, rest) from scan] at taken
      exact taken (htakes k (by simpa using hn))
    | @leaves _ t' op' word' left =>
      obtain ⟨hop, rfl⟩ := Prod.mk.inj (word.symm.trans word')
      obtain rfl := opt_injective (Option.some.inj hop)
      rw [scan] at left
      exact left no_more
    | @later k _ t' op' word' rest' =>
      obtain ⟨hop, rfl⟩ := Prod.mk.inj (word.symm.trans word')
      obtain rfl := opt_injective (Option.some.inj hop)
      cases k with
      | zero => cases rest'
      | succ k =>
        have hlen : insts.length = k + 1 := by simpa using hn
        exact ih (k + 1) hlen (rest'.congr (scanS_textAfter scan no_more (fun _ => htakes k hlen)))

/-- **After the arguments no number stands**: one more would be taken by `MALLOC`, left at the end, or refused as an
opcode. -/
theorem no_number {n : Nat} {op : Opcode} {args : List UInt32} {rest : List Char} (hword : scanS s = (some op.opt, t))
    (hscan : fscanf (numbers op.arity) t = (args, rest)) (hrefused : ¬ Refused op.opt n (textAfter op t))
    (hslip : ¬ Slip (n + 1) s) : (scanU rest).1 = none ∧ (n ≠ 0 → op = .malloc → (scanU rest).2 = skipSpace rest) := by
  cases n with
  | zero =>
    refine ⟨?_, fun h => absurd rfl h⟩
    by_contra hleft
    refine hslip (.leaves hword ?_)
    rwa [hscan]
  | succ k =>
    have htakes : op = .malloc → (scanU rest).2 = skipSpace rest := by
      rintro rfl
      by_contra htaken
      refine hslip (.takes hword ?_)
      rwa [show fscanf (numbers 2) t = (args, rest) from hscan]
    refine ⟨?_, fun _ => htakes⟩
    by_contra hnumber
    by_cases hop : op = .malloc
    · exact scanU_takes hnumber (htakes hop)
    · -- the number is looked up as an opcode
      have hafter : textAfter op t = rest := by
        rw [textAfter, readArgs_rest, if_neg hop, hscan]
      rw [hafter] at hrefused
      refine hrefused (.here (fun op' hop' => hnumber ?_))
      cases hnext : (scanS rest).1 with
      | none => exact scanU_of_end hnext
      | some w =>
        rw [hnext] at hop'
        obtain rfl : w = op'.opt := hop'
        rw [scanU_of_word hnext (notNumber_opt op')]

/-- **A text that is not refused and has no slip** is loaded as it stands. -/
theorem readText_begins (mem : Memory) :
    ∀ (n i : Nat) (opcode : List Char) {s : List Char}, ¬ Refused opcode n s → ¬ Slip n s →
    ∃ insts text, insts.length = n ∧ Begins insts s ∧ readText mem n i opcode s = .ok text ∧
      text.map (fun inst => (inst.opcode, inst.args)) = insts
  | 0, _, _, _, _, _ => ⟨[], [], rfl, .nil, rfl, rfl⟩
  | n + 1, i, opcode, s, hrefused, hslip => by
    cases hw : scanS s with
    | mk word t =>
    cases word with
    | none => exact absurd (.ends (by rw [hw])) hslip
    | some w =>
      obtain ⟨op, rfl⟩ : ∃ op, w = Opcode.opt op := by
        by_contra hno
        refine hrefused (.here (fun op => ?_))
        rw [hw]
        exact fun h => hno ⟨op, h⟩
      have hknown : (scanS s).1.getD opcode = op.opt := by rw [hw]; rfl
      cases hscan : fscanf (numbers op.arity) t with
      | mk args rest =>
        have hall : args.length = op.arity := by
          have hle : args.length ≤ op.arity := by
            have := length_fscanf_numbers op.arity t
            rwa [hscan] at this
          by_contra hne
          refine hslip (.lacks hw ?_)
          rw [hscan]
          change args.length < op.arity
          omega
        have hrefused' : ¬ Refused op.opt n (textAfter op t) := by
          intro h
          have hafter : t = (scanS s).2 := by rw [hw]
          exact hrefused (.later hknown (hafter ▸ h))
        have hslip' : ¬ Slip n (textAfter op t) := fun h => hslip (.later hw h)
        obtain ⟨hno, htakes⟩ := no_number hw hscan hrefused' hslip
        obtain ⟨insts, text, hlen, hbegins, htext, hsame⟩ := readText_begins mem n (i + 1) op.opt hrefused' hslip'
        have hbegins' : Begins insts rest := by
          cases n with
          | zero =>
            obtain rfl := List.length_eq_zero_iff.1 hlen
            exact .nil
          | succ k => exact hbegins.congr (scanS_textAfter hscan hno (htakes (by omega)))
        obtain ⟨hopcode, hargs⟩ := @readArgs_complete t { mem.text i with opcode := op } rest args hscan hall hno
        refine ⟨(op, args) :: insts, (readArgs { mem.text i with opcode := op } t).1 :: text, by simp [hlen],
          .cons hw hscan hall hno hbegins', ?_, ?_⟩
        · rw [readText_known mem n i hknown, hw, htext]
          rfl
        · rw [List.map_cons, hsame, hargs, hopcode]

end Text

/-- **`load` loads only what a file announces**, whatever memory held, if and only if reading the file as it does
there is no slip, or a word comes up that is no opcode. -/
theorem loads_only {mem : Memory} {availPid : UInt32} {file s : List Char} {priority size : UInt32}
    (hheader : fscanf [.u, .space, .u] file = ([priority, size], s)) :
    LoadsOnly mem availPid file ↔ ¬ Slip size.toNat s ∨ Refused mem.opcode size.toNat s := by
  have hload : load mem availPid (some file) = (readText mem size.toNat 0 mem.opcode s).map
      (fun text => (⟨availPid, priority, 0, 1024, size, text⟩, availPid + 1)) := by
    simp only [load, hheader, List.getD_cons_zero, List.getD_cons_succ]
    cases readText mem size.toNat 0 mem.opcode s <;> rfl
  constructor
  · intro h
    by_cases hrefused : Refused mem.opcode size.toNat s
    · exact Or.inr hrefused
    · cases htext : readText mem size.toNat 0 mem.opcode s with
      | error e => exact absurd ((readText_error mem _ 0 _ _).1 ⟨e, htext⟩) hrefused
      | ok text =>
        obtain ⟨insts, hlen, hbegins, -⟩ := h _ _ _ hheader _ _ (by rw [hload, htext]; rfl)
        exact Or.inl (hbegins.no_slip _ hlen)
  · intro hor priority' size' s' hheader' proc pid hproc
    obtain ⟨hnumbers, rfl⟩ := Prod.mk.inj (hheader.symm.trans hheader')
    obtain ⟨rfl, rfl⟩ : priority = priority' ∧ size = size' := by simpa using hnumbers
    by_cases hrefused : Refused mem.opcode size.toNat s
    · obtain ⟨e, he⟩ := (readText_error mem _ 0 _ _).2 hrefused
      rw [hload, he] at hproc
      cases hproc
    · obtain ⟨insts, text, hlen, hbegins, htext, hsame⟩ := readText_begins mem size.toNat 0 mem.opcode hrefused
        (hor.resolve_right hrefused)
      rw [hload, htext] at hproc
      cases hproc
      exact ⟨insts, hlen, hbegins, hsame⟩

theorem not_loadsOnly {mem : Memory} {availPid : UInt32} {file s : List Char} {priority size : UInt32}
    (hheader : fscanf [.u, .space, .u] file = ([priority, size], s))
    (hload : (load mem availPid (some file)).toOption.isSome = true)
    (hslip : Slip size.toNat s) : ¬ LoadsOnly mem availPid file := by
  intro h
  cases hproc : load mem availPid (some file) with
  | error e => rw [hproc] at hload; cases hload
  | ok q =>
    obtain ⟨insts, hlen, hbegins, -⟩ := h _ _ _ hheader q.1 q.2 hproc
    exact hbegins.no_slip _ hlen hslip

def stale : Memory := ⟨7, 7, fun _ => ⟨.read, 9, 9, 9⟩, []⟩

/-- **A file that announces two instructions and has one** is loaded; so are one whose `alloc` lacks an argument,
and one whose `malloc` has a number too many. -/
theorem loads_only_fails : ¬ LoadsOnly stale 1 "1 2\ncalc\n".toList ∧ ¬ LoadsOnly stale 1 "1 1\nalloc 5\n".toList ∧
    ¬ LoadsOnly stale 1 "1 2\nmalloc 5 6 7\ncalc\n".toList := by
  refine ⟨@not_loadsOnly _ _ _ "\ncalc\n".toList 1 2 (by decide +kernel) (by decide +kernel) ?_,
    @not_loadsOnly _ _ _ "\nalloc 5\n".toList 1 1 (by decide +kernel) (by decide +kernel) ?_,
    @not_loadsOnly _ _ _ "\nmalloc 5 6 7\ncalc\n".toList 1 2 (by decide +kernel) (by decide +kernel) ?_⟩
  · exact @Slip.later 1 _ "\n".toList .calc (by decide +kernel) (.ends (by decide +kernel))
  · exact @Slip.lacks 0 _ " 5\n".toList .alloc (by decide +kernel) (by decide +kernel)
  · exact @Slip.takes 0 _ " 5 6 7\ncalc\n".toList (by decide +kernel) (by decide +kernel)

/-- An `alloc` and a `free`, and a comment after them. -/
theorem loads_only_allocFree : LoadsOnly stale 1 "1 2\nalloc 300 0\nfree 0\n# end\n".toList ∧
    (load stale 1 (some "1 2\nalloc 300 0\nfree 0\n# end\n".toList)).toOption.isSome = true := by
  refine ⟨(@loads_only _ _ _ "\nalloc 300 0\nfree 0\n# end\n".toList 1 2 (by decide +kernel)).2 (Or.inl ?_),
    by decide +kernel⟩
  have hbegins : Begins [(.alloc, [300, 0]), (.free, [0])] "\nalloc 300 0\nfree 0\n# end\n".toList :=
    @Begins.cons .alloc [300, 0] _ " 300 0\nfree 0\n# end\n".toList "free 0\n# end\n".toList _ (by decide +kernel)
      (by decide +kernel) rfl (by decide +kernel)
      (@Begins.cons .free [0] _ " 0\n# end\n".toList "# end\n".toList _ (by decide +kernel) (by decide +kernel) rfl
        (by decide +kernel) .nil)
  exact hbegins.no_slip 2 rfl

end Loader

end OsSim
