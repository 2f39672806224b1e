import Mathlib.Data.List.Basic
import Mathlib.Algebra.Group.Nat.Defs
/-!
# Scan — `fscanf` on a text

The directives of `fscanf` used to read words and numbers.  A text spells a list of words if it is these words,
kept apart by white space; what each directive takes off such a text is the next word, or nothing.
-/
namespace Scan

def isSpace (c : Char) : Bool := c.toNat == 32 || (9 ≤ c.toNat && c.toNat ≤ 13)

def skipSpace (s : List Char) : List Char := s.dropWhile isSpace

/-- The 32-bit number `strtoul` makes of a sign and the value of the digits. -/
def toU32 (minus : Bool) (v : Nat) : UInt32 :=
  if v < 2 ^ 64 then UInt32.ofNat (if minus then 2 ^ 64 - v else v) else UInt32.ofNat (2 ^ 64 - 1)

def sign : List Char → Bool × List Char
  | '-' :: s => (true, s)
  | '+' :: s => (false, s)
  | s => (false, s)

/-- `%u`: where no number stands, the white space and a sign are taken. -/
def scanU (s : List Char) : Option UInt32 × List Char :=
  let (minus, t) := sign (skipSpace s)
  match t.takeWhile Char.isDigit with
  | [] => (none, t)
  | ds => (some (toU32 minus (Nat.ofDigitChars 10 ds 0)), t.dropWhile Char.isDigit)

/-- A sign and the value of the digits; where no number stands, the white space and a sign are taken. -/
def scanNumber (s : List Char) : Option (Bool × Nat) × List Char :=
  let (minus, t) := sign (skipSpace s)
  match t.takeWhile Char.isDigit with
  | [] => (none, t)
  | ds => (some (minus, Nat.ofDigitChars 10 ds 0), t.dropWhile Char.isDigit)

def toU64 (minus : Bool) (v : Nat) : UInt64 :=
  if v < 2 ^ 64 then UInt64.ofNat (if minus then 2 ^ 64 - v else v) else UInt64.ofNat (2 ^ 64 - 1)

/-- The `int` stored of the `long` that `strtol` makes. -/
def toI32 (minus : Bool) (v : Nat) : Int32 :=
  Int32.ofInt (if minus then if v ≤ 9223372036854775808 then -v else -9223372036854775808
    else if v ≤ 9223372036854775807 then v else 9223372036854775807)

def scanLu (s : List Char) : Option UInt64 × List Char :=
  let (number, t) := scanNumber s
  (number.map (fun x => toU64 x.1 x.2), t)

def scanD (s : List Char) : Option Int32 × List Char :=
  let (number, t) := scanNumber s
  (number.map (fun x => toI32 x.1 x.2), t)

def scanS (s : List Char) : Option (List Char) × List Char :=
  match (skipSpace s).takeWhile (fun c => !isSpace c) with
  | [] => (none, skipSpace s)
  | w => (some w, (skipSpace s).dropWhile (fun c => !isSpace c))

inductive Directive where
  | u
  | space

/-- The numbers stored, up to the first directive that fails, and what is left of the text. -/
def fscanf : List Directive → List Char → List UInt32 × List Char
  | [], s => ([], s)
  | .space :: ds, s => fscanf ds (skipSpace s)
  | .u :: ds, s =>
    match scanU s with
    | (none, s) => ([], s)
    | (some v, s) => (v :: (fscanf ds s).1, (fscanf ds s).2)

/-! ## Words kept apart by white space -/

def Blank (s : List Char) : Prop := ∀ c ∈ s, isSpace c = true

structure IsWord (w : List Char) : Prop where
  nonempty : w ≠ []
  solid : ∀ c ∈ w, isSpace c = false

structure NotNumber (w : List Char) : Prop where
  word : IsWord w
  digit : ∀ c ∈ w.head?, c.isDigit = false ∧ c ≠ '-' ∧ c ≠ '+'

/-- **The text spells the words**: each is at the end of the text or has white space after it. -/
inductive Spells : List (List Char) → List Char → Prop where
  | nil {s : List Char} (blank : Blank s) : Spells [] s
  | cons {ws w s : List Char} {words : List (List Char)} (blank : Blank ws) (word : IsWord w)
    (apart : ∀ c ∈ s.head?, isSpace c = true) (rest : Spells words s) : Spells (w :: words) (ws ++ (w ++ s))

section Skip

theorem skipSpace_blank : ∀ {ws : List Char}, Blank ws → ∀ s, skipSpace (ws ++ s) = skipSpace s
  | [], _, _ => rfl
  | c :: ws, h, s => by
    have hc := h c List.mem_cons_self
    rw [List.cons_append, skipSpace, List.dropWhile_cons_of_pos hc]
    exact skipSpace_blank (fun d hd => h d (List.mem_cons_of_mem c hd)) s

theorem skipSpace_word {w : List Char} (h : IsWord w) (s : List Char) : skipSpace (w ++ s) = w ++ s := by
  cases w with
  | nil => exact absurd rfl h.nonempty
  | cons c w =>
    have hc := h.solid c List.mem_cons_self
    rw [List.cons_append, skipSpace, List.dropWhile_cons_of_neg (by simp [hc])]

@[simp] theorem skipSpace_skipSpace : ∀ (s : List Char), skipSpace (skipSpace s) = skipSpace s
  | [] => rfl
  | c :: s => by
    by_cases hc : isSpace c = true
    · have hdrop : skipSpace (c :: s) = skipSpace s := List.dropWhile_cons_of_pos hc
      rw [hdrop]
      exact skipSpace_skipSpace s
    · have hdrop : skipSpace (c :: s) = c :: s := List.dropWhile_cons_of_neg hc
      rw [hdrop, hdrop]

theorem skipSpace_head {s : List Char} {c : Char} (h : (skipSpace s).head? = some c) : isSpace c = false := by
  have hall := @List.head?_dropWhile_not _ isSpace s
  rw [skipSpace] at h
  rw [h] at hall
  simpa using hall

theorem skipSpace_of_blank {s : List Char} (h : Blank s) : skipSpace s = [] := by
  have := skipSpace_blank h []
  rwa [List.append_nil] at this

theorem Spells.skip {words : List (List Char)} {s : List Char} (h : Spells words s) : Spells words (skipSpace s) := by
  cases h with
  | nil blank =>
    rw [skipSpace_of_blank blank]
    exact .nil (fun c hc => by cases hc)
  | @cons ws w s words blank word apart rest =>
    rw [skipSpace_blank blank, skipSpace_word word]
    exact @Spells.cons [] w s words (fun c hc => by cases hc) word apart rest

theorem Spells.after {words : List (List Char)} {ws s : List Char} (hws : Blank ws) (h : Spells words s) :
    Spells words (ws ++ s) := by
  have happend : ∀ {vs : List Char}, Blank vs → Blank (ws ++ vs) := fun hvs c hc =>
    (List.mem_append.1 hc).elim (hws c) (hvs c)
  cases h with
  | nil blank => exact .nil (happend blank)
  | @cons vs w s words blank word apart rest =>
    rw [← List.append_assoc]
    exact .cons (happend blank) word apart rest

theorem Spells.word {words : List (List Char)} {w s : List Char} {c : Char} (hw : IsWord w) (hc : isSpace c = true)
    (h : Spells words s) : Spells (w :: words) (w ++ c :: s) := by
  have hafter : Spells words (c :: s) := @Spells.after words [c] s (by simpa [Blank] using hc) h
  exact @Spells.cons [] w (c :: s) words (fun d hd => by cases hd) hw (by simpa using hc) hafter

end Skip

section Take

theorem takeWhile_run {p : Char → Bool} {w s : List Char} (hw : ∀ c ∈ w, p c = true) (hs : ∀ c ∈ s.head?, p c = false) :
    (w ++ s).takeWhile p = w ∧ (w ++ s).dropWhile p = s := by
  have hnone : s.takeWhile p = [] ∧ s.dropWhile p = s := by
    cases s with
    | nil => exact ⟨rfl, rfl⟩
    | cons c s =>
      have hc := hs c rfl
      exact ⟨List.takeWhile_cons_of_neg (by simp [hc]), List.dropWhile_cons_of_neg (by simp [hc])⟩
  exact ⟨by rw [List.takeWhile_append_of_pos hw, hnone.1, List.append_nil],
    by rw [List.dropWhile_append_of_pos hw, hnone.2]⟩

theorem isDigit_not_space {c : Char} (h : c.isDigit = true) : isSpace c = false := by
  simp only [Char.isDigit, Bool.and_eq_true, decide_eq_true_eq, UInt32.le_iff_toNat_le] at h
  have hlow : 48 ≤ c.toNat := h.1
  have hne : c.toNat ≠ 32 := by omega
  have hgt : ¬ c.toNat ≤ 13 := by omega
  simp [isSpace, hne, hgt]

theorem isWord_toDigits (n : Nat) : IsWord (Nat.toDigits 10 n) :=
  ⟨Nat.toDigits_ne_nil, fun _ hc => isDigit_not_space (Nat.isDigit_of_mem_toDigits (by decide) (by decide) hc)⟩

end Take

/-! ## What a directive takes -/

section Directives

variable {words : List (List Char)} {s : List Char}

theorem scanS_word {w : List Char} (h : Spells (w :: words) s) : ∃ s', scanS s = (some w, s') ∧ Spells words s' := by
  cases h with
  | @cons ws w s words blank word apart rest =>
    obtain ⟨htake, hdrop⟩ := @takeWhile_run (fun c => !isSpace c) w s (fun c hc => by simp [word.solid c hc])
      (fun c hc => by simp [apart c hc])
    refine ⟨s, ?_, rest⟩
    rw [scanS, skipSpace_blank blank, skipSpace_word word, htake, hdrop]
    cases w with
    | nil => exact absurd rfl word.nonempty
    | cons c w => rfl

theorem sign_other {c : Char} {s : List Char} (hminus : c ≠ '-') (hplus : c ≠ '+') :
    sign (c :: s) = (false, c :: s) := by
  unfold sign
  split
  · rename_i heq
    cases heq
    exact absurd rfl hminus
  · rename_i heq
    cases heq
    exact absurd rfl hplus
  · rfl

def numeral (minus : Bool) (n : Nat) : List Char := if minus then '-' :: Nat.toDigits 10 n else Nat.toDigits 10 n

theorem isWord_numeral (minus : Bool) (n : Nat) : IsWord (numeral minus n) := by
  cases minus with
  | false => exact isWord_toDigits n
  | true =>
    refine ⟨List.cons_ne_nil _ _, fun c hc => ?_⟩
    rcases List.mem_cons.1 hc with rfl | hc
    · rfl
    · exact (isWord_toDigits n).solid c hc

theorem sign_numeral (minus : Bool) (n : Nat) (s : List Char) :
    sign (numeral minus n ++ s) = (minus, Nat.toDigits 10 n ++ s) := by
  cases minus with
  | true => rfl
  | false =>
    cases hw : Nat.toDigits 10 n with
    | nil => exact absurd hw Nat.toDigits_ne_nil
    | cons c w =>
      have hc : c.isDigit = true :=
        Nat.isDigit_of_mem_toDigits (by decide) (by decide) (hw ▸ List.mem_cons_self : c ∈ Nat.toDigits 10 n)
      rw [numeral, if_neg Bool.false_ne_true, hw]
      exact sign_other (by rintro rfl; cases hc) (by rintro rfl; cases hc)

theorem scanNumber_numeral {minus : Bool} {n : Nat} (h : Spells (numeral minus n :: words) s) :
    ∃ s', scanNumber s = (some (minus, n), s') ∧ Spells words s' := by
  have hdigits : ∀ c ∈ Nat.toDigits 10 n, c.isDigit = true := fun c hc =>
    Nat.isDigit_of_mem_toDigits (by decide) (by decide) hc
  cases h with
  | @cons ws w s words blank word apart rest =>
    have hapart : ∀ c ∈ s.head?, c.isDigit = false := by
      intro c hc
      by_contra hdigit
      have := isDigit_not_space (by simpa using hdigit)
      rw [apart c hc] at this
      cases this
    obtain ⟨htake, hdrop⟩ := takeWhile_run hdigits hapart
    refine ⟨s, ?_, rest⟩
    rw [scanNumber, skipSpace_blank blank, skipSpace_word word, sign_numeral]
    simp only [htake, hdrop]
    split
    · rename_i hnil
      exact absurd hnil Nat.toDigits_ne_nil
    · rw [Nat.ofDigitChars_ten_toDigits]

theorem scanNumber_none (h : Spells words s) (hword : ∀ w ∈ words.head?, NotNumber w) :
    scanNumber s = (none, skipSpace s) := by
  cases h with
  | nil blank =>
    rw [scanNumber, skipSpace_of_blank blank]
    rfl
  | @cons ws w s words blank word apart rest =>
    obtain ⟨-, hdigit⟩ := hword w rfl
    rw [scanNumber, skipSpace_blank blank, skipSpace_word word]
    cases w with
    | nil => exact absurd rfl word.nonempty
    | cons c w =>
      obtain ⟨hdigit, hminus, hplus⟩ := hdigit c rfl
      rw [List.cons_append, sign_other hminus hplus]
      simp [hdigit]

theorem scanU_eq (s : List Char) : scanU s = ((scanNumber s).1.map (fun x => toU32 x.1 x.2), (scanNumber s).2) := by
  cases hs : sign (skipSpace s) with
  | mk minus t =>
    rw [scanU, scanNumber, hs]
    cases hds : t.takeWhile Char.isDigit with
    | nil => simp only [hds, Option.map_none]
    | cons d ds => simp only [hds, Option.map_some]

theorem scanU_number {n : Nat} (hn : n < 2 ^ 64) (h : Spells (Nat.toDigits 10 n :: words) s) :
    ∃ s', scanU s = (some (UInt32.ofNat n), s') ∧ Spells words s' := by
  obtain ⟨s', hscan, hs'⟩ := @scanNumber_numeral words s false n h
  refine ⟨s', ?_, hs'⟩
  rw [scanU_eq, hscan, Option.map_some, toU32, if_pos hn]
  rfl

theorem scanU_none (h : Spells words s) (hword : ∀ w ∈ words.head?, NotNumber w) : scanU s = (none, skipSpace s) := by
  rw [scanU_eq, scanNumber_none h hword]
  rfl

def ulongWord (n : UInt64) : List Char := numeral false n.toNat

def intWord (n : Int32) : List Char := numeral (decide (n.toInt < 0)) n.toInt.natAbs

theorem toI32_int (n : Int32) : toI32 (decide (n.toInt < 0)) n.toInt.natAbs = n := by
  have hlow := n.le_toInt
  have hhigh := n.toInt_lt
  have hvalue : (if decide (n.toInt < 0) = true then
      if n.toInt.natAbs ≤ 9223372036854775808 then -(n.toInt.natAbs : Int) else -9223372036854775808
    else if n.toInt.natAbs ≤ 9223372036854775807 then (n.toInt.natAbs : Int) else 9223372036854775807) = n.toInt := by
    by_cases hneg : n.toInt < 0
    · rw [if_pos (decide_eq_true hneg), if_pos (by omega)]
      omega
    · rw [if_neg (by simpa using hneg), if_pos (by omega)]
      omega
  rw [toI32, hvalue, Int32.ofInt_toInt]

/-- **`%lu` takes the next number**, which no sign stands before. -/
theorem scanLu_ulong {n : UInt64} (h : Spells (ulongWord n :: words) s) :
    ∃ s', scanLu s = (some n, s') ∧ Spells words s' := by
  obtain ⟨s', hscan, hs'⟩ := scanNumber_numeral h
  refine ⟨s', ?_, hs'⟩
  rw [scanLu, hscan]
  simp only [Option.map_some, toU64, if_pos n.toNat_lt, if_neg Bool.false_ne_true, UInt64.ofNat_toNat]

theorem scanD_next {as : List Int32} (h : Spells (as.map intWord ++ words) s)
    (hstop : as = [] → ∀ w ∈ words.head?, NotNumber w) :
    ∃ s', scanD s = (as.head?, s') ∧ Spells (as.tail.map intWord ++ words) s' := by
  cases as with
  | nil =>
    refine ⟨skipSpace s, ?_, h.skip⟩
    rw [scanD, scanNumber_none h (hstop rfl)]
    rfl
  | cons a as =>
    obtain ⟨s', hscan, hs'⟩ := scanNumber_numeral h
    refine ⟨s', ?_, hs'⟩
    rw [scanD, hscan]
    simp only [Option.map_some, toI32_int, List.head?_cons]

@[simp] theorem scanS_skipSpace (s : List Char) : scanS (skipSpace s) = scanS s := by
  simp [scanS]

theorem scanS_cons {c : Char} {s' : List Char} (hs : skipSpace s = c :: s') :
    (scanS s).1 = some (c :: s'.takeWhile (fun c => !isSpace c)) := by
  have hc : isSpace c = false := @skipSpace_head s c (by rw [hs]; rfl)
  simp [scanS, hs, hc]

theorem scanU_of_word {w : List Char} (hscan : (scanS s).1 = some w) (hword : NotNumber w) :
    scanU s = (none, skipSpace s) := by
  rw [scanU]
  cases hs : skipSpace s with
  | nil => rfl
  | cons c s' =>
    rw [scanS_cons hs] at hscan
    cases hscan
    obtain ⟨hdigit, hminus, hplus⟩ := hword.digit c rfl
    rw [sign_other hminus hplus]
    simp [hdigit]

theorem scanU_of_end (hscan : (scanS s).1 = none) : (scanU s).1 = none := by
  rw [scanU]
  cases hs : skipSpace s with
  | nil => rfl
  | cons c s' =>
    rw [scanS_cons hs] at hscan
    cases hscan

theorem scanU_takes (h : (scanU s).1 ≠ none) : (scanU s).2 ≠ skipSpace s := by
  have hsign : (sign (skipSpace s)).2.length ≤ (skipSpace s).length := by
    unfold sign
    split
    · rename_i hs
      simp [hs]
    · rename_i hs
      simp [hs]
    · exact Nat.le_refl _
  have hsplit := congrArg List.length (@List.takeWhile_append_dropWhile _ Char.isDigit (sign (skipSpace s)).2)
  rw [List.length_append] at hsplit
  intro heq
  rw [scanU] at h heq
  cases hds : (sign (skipSpace s)).2.takeWhile Char.isDigit with
  | nil =>
    simp only [hds] at h
    exact h rfl
  | cons d ds =>
    simp only [hds] at heq
    rw [heq, hds, List.length_cons] at hsplit
    omega

theorem fscanf_number {n : Nat} (hn : n < 2 ^ 64) (ds : List Directive) (h : Spells (Nat.toDigits 10 n :: words) s) :
    ∃ s', fscanf (.u :: ds) s = (UInt32.ofNat n :: (fscanf ds s').1, (fscanf ds s').2) ∧ Spells words s' := by
  obtain ⟨s', hscan, hrest⟩ := scanU_number hn h
  exact ⟨s', by rw [fscanf, hscan], hrest⟩

/-- **A format stops** at a number that is not there. -/
theorem fscanf_stop (ds : List Directive) (h : (scanU s).1 = none) : fscanf (.u :: ds) s = ([], (scanU s).2) := by
  cases hs : scanU s with
  | mk o t =>
    rw [hs] at h
    obtain rfl : o = none := h
    rw [fscanf, hs]

theorem fscanf_none (ds : List Directive) (h : Spells words s) (hword : ∀ w ∈ words.head?, NotNumber w) :
    fscanf (.u :: ds) s = ([], skipSpace s) := by
  have hnone := scanU_none h hword
  rw [fscanf_stop ds (by rw [hnone]), hnone]

def numbers : Nat → List Directive
  | 0 => []
  | n + 1 => .u :: .space :: numbers n

theorem length_fscanf_numbers : ∀ (n : Nat) (s : List Char), (fscanf (numbers n) s).1.length ≤ n
  | 0, _ => Nat.le_refl 0
  | n + 1, s => by
    rw [numbers, fscanf]
    split
    · exact Nat.zero_le _
    · rename_i v t hscan
      have := length_fscanf_numbers n (skipSpace t)
      simp only [fscanf, List.length_cons]
      omega

/-- **A format of numbers** stores as many as the text has next, as they are. -/
theorem fscanf_numbers : ∀ {as : List UInt32} {s : List Char},
    Spells (as.map (fun a => Nat.toDigits 10 a.toNat) ++ words) s →
    ∃ s', fscanf (numbers as.length) s = (as, s') ∧ Spells words s'
  | [], s, h => ⟨s, rfl, h⟩
  | a :: as, s, h => by
    have ha : a.toNat < 2 ^ 64 := Nat.lt_trans a.toNat_lt (by decide)
    obtain ⟨t, hfirst, ht⟩ := fscanf_number ha (.space :: numbers as.length) h
    obtain ⟨s', hrest, hs'⟩ := fscanf_numbers ht.skip
    refine ⟨s', ?_, hs'⟩
    rw [List.length_cons, numbers, hfirst, fscanf, hrest, UInt32.ofNat_toNat]

end Directives

end Scan
