import Mathlib.Algebra.Order.Field.Rat
import Mathlib.Data.List.DropRight

/-!
# Texts

Texts as lists of characters, and what the string functions and regular expressions of Python do to
them: stripping, repeated matching, a lazy group, and the texts of numbers. Whitespace is Unicode's;
word characters, digits and letters are those of ASCII, so these are Python's functions on texts
whose other characters are no letters or digits of Unicode.

## Main definitions

* `Text.strip` — a text without the characters of a kind at its ends.
* `Text.Matcher.findall` — the matches of a pattern, from left to right.
* `Text.lazy` — the shortest group after which the rest matches.
* `Text.str`, `Text.ofDigits` — the digits of a number, and the number of some digits.
* `Text.float` — the exact value of the text of a number.
* `Text.Decimal` — the texts of decimal numbers, each with its value.
-/

namespace Text

/-- A text. -/
abbrev Chars := List Char

/-- The whitespace of Python. -/
def isSpace (c : Char) : Bool :=
  (9 ≤ c.toNat && c.toNat ≤ 13) || (28 ≤ c.toNat && c.toNat ≤ 32) ||
    [0x85, 0xa0, 0x1680, 0x2028, 0x2029, 0x202f, 0x205f, 0x3000].contains c.toNat ||
    (0x2000 ≤ c.toNat && c.toNat ≤ 0x200a)

/-- `\w`. -/
def isWord (c : Char) : Bool := c.isAlphanum || c == '_'

/-- The letters, the digits and the underscore. -/
theorem isWord_eq (c : Char) : isWord c = (decide (65 ≤ c.val ∧ c.val ≤ 90) ||
    (decide (97 ≤ c.val) && decide (c.val ≤ 122)) || (decide (48 ≤ c.val) && decide (c.val ≤ 57)) ||
    c == '_') := rfl

theorem isWord_of_isDigit {c : Char} (hc : c.isDigit) : isWord c := by
  simp [isWord, Char.isAlphanum, hc]

theorem isWord_of_isSpace {c : Char} (hc : isSpace c) : isWord c = false := by
  simp [isSpace] at hc
  simp [isWord_eq, UInt32.le_iff_toNat_le, Char.ext_iff, UInt32.ext_iff]
  omega

/-! ## Stripping -/

section Strip
variable {p : Char → Bool} {s pre post : Chars}

/-- A text without the characters of a kind at its ends. -/
def strip (p : Char → Bool) (s : Chars) : Chars := (s.dropWhile p).rdropWhile p

/-- A text that no stripping changes: its ends are not of the kind. -/
structure Trim (p : Char → Bool) (s : Chars) : Prop where
  head : ∀ c ∈ s.head?, p c = false
  last : ∀ c ∈ s.getLast?, p c = false

theorem Trim.of_forall (h : ∀ c ∈ s, p c = false) : Trim p s where
  head c hc := h c (List.mem_of_mem_head? hc)
  last c hc := h c (List.mem_of_mem_getLast? hc)

theorem Trim.rdropWhile (h : Trim p s) : s.rdropWhile p = s := by
  rw [List.rdropWhile_eq_self_iff]
  intro hne hp
  rw [h.last _ (List.getLast?_eq_some_getLast hne)] at hp
  cases hp

theorem Trim.dropWhile_append (h : Trim p s) (hne : s ≠ []) :
    (s ++ post).dropWhile p = s ++ post := by
  obtain ⟨c, s, rfl⟩ := List.exists_cons_of_ne_nil hne
  rw [List.cons_append, List.dropWhile_cons_of_neg (by simp [h.head c rfl])]

/-- What is around a trim text is stripped off. -/
theorem Trim.strip_append (h : Trim p s) (hpre : ∀ c ∈ pre, p c) (hpost : ∀ c ∈ post, p c)
    (hne : s ≠ []) : strip p (pre ++ (s ++ post)) = s := by
  rw [strip, List.dropWhile_append_of_pos hpre, h.dropWhile_append hne]
  induction post using List.reverseRecOn with
  | nil => rw [List.append_nil, h.rdropWhile]
  | append_singleton post c ih =>
    rw [← List.append_assoc, List.rdropWhile_concat_pos _ _ _ (hpost c (by simp))]
    exact ih fun c hc => hpost c (by simp [hc])

theorem trim_strip (p : Char → Bool) (s : Chars) : Trim p (strip p s) where
  head c hc := by
    obtain ⟨post, hpost⟩ := List.rdropWhile_prefix p (l := s.dropWhile p)
    have hhead : (s.dropWhile p).head? = some c := by
      rw [← hpost, List.head?_append, ← strip, show (strip p s).head? = some c from hc]
      rfl
    have hnot := List.head?_dropWhile_not p s
    rwa [hhead] at hnot
  last c hc := by
    have hne : strip p s ≠ [] := List.ne_nil_of_mem (List.mem_of_getLast? hc)
    have hlast : ¬ p ((strip p s).getLast hne) := List.rdropWhile_last_not p _ hne
    rw [List.getLast_of_getLast?_eq_some hc] at hlast
    simpa using hlast

/-- A text that ends in a line break. -/
theorem strip_line (s : Chars) : strip isSpace (strip isSpace s ++ ['\n']) = strip isSpace s := by
  by_cases hne : strip isSpace s = []
  · rw [hne]
    rfl
  · simpa using @Trim.strip_append isSpace _ [] ['\n'] (trim_strip isSpace s) (by simp)
      (List.forall_mem_singleton.mpr rfl) hne

theorem Trim.strip (h : Trim p s) : strip p s = s := by
  rcases s.eq_nil_or_concat with rfl | ⟨l, c, rfl⟩
  · rfl
  · simpa using @Trim.strip_append p _ [] [] h (by simp) (by simp) (by simp)

end Strip

/-! ## Literal texts -/

section Literal
variable {p s rest : Chars}

/-- What follows a literal at the start of a text. -/
def after (p s : Chars) : Option Chars := if p.isPrefixOf s then some (s.drop p.length) else none

@[simp] theorem after_append (p s : Chars) : after p (p ++ s) = some s := by simp [after]

theorem after_eq_some : after p s = some rest ↔ s = p ++ rest := by
  constructor
  · intro h
    rw [after] at h
    split at h
    · rename_i hp
      rw [List.isPrefixOf_iff_prefix] at hp
      rw [← Option.some_inj.mp h]
      exact List.prefix_iff_eq_append.mp hp |>.symm
    · cases h
  · rintro rfl
    exact after_append p rest

/-- The text before its last line break, at which `$` matches too. -/
def chomp (s : Chars) : Chars := if s.getLast? = some '\n' then s.dropLast else s

theorem chomp_eq (h : '\n' ∉ s) : chomp s = s :=
  if_neg fun hlast => h (List.mem_of_mem_getLast? hlast)

end Literal

/-- Characters of a kind, up to one that is not. -/
theorem takeWhile_append_cons {p : Char → Bool} {s : Chars} {c : Char} (hs : ∀ c ∈ s, p c)
    (hc : p c = false) (rest : Chars) : (s ++ c :: rest).takeWhile p = s ∧
      (s ++ c :: rest).dropWhile p = c :: rest := by
  rw [List.takeWhile_append_of_pos hs, List.dropWhile_append_of_pos hs,
    List.takeWhile_cons_of_neg (by simp [hc]), List.dropWhile_cons_of_neg (by simp [hc]),
    List.append_nil]
  exact ⟨rfl, rfl⟩

/-! ## Repeated matching -/

/-- A pattern at the start of a text: what it captures and the text after it. A match takes up
some of the text. -/
structure Matcher (α : Type*) where
  run : Chars → Option (α × Chars)
  shorter : ∀ {s a rest}, run s = some (a, rest) → rest.length < s.length

namespace Matcher
variable {α : Type*} (m : Matcher α) {a : α} {c : Char} {s rest : Chars}

/-- The matches in a text no longer than `n`: after a match the search goes on behind it, and else
one character on. -/
def search : ℕ → Chars → List α
  | _, [] => []
  | 0, _ :: _ => []
  | n + 1, c :: s =>
    match m.run (c :: s) with
    | some (a, rest) => a :: search n rest
    | none => search n s

/-- `findall`. -/
def findall (s : Chars) : List α := m.search s.length s

theorem search_of_le {n k : ℕ} (hn : s.length ≤ n) (hk : s.length ≤ k) :
    m.search n s = m.search k s := by
  induction n generalizing k s with
  | zero =>
    rw [Nat.le_zero, List.length_eq_zero_iff] at hn
    subst hn
    cases k <;> rfl
  | succ n ih =>
    cases s with
    | nil => cases k <;> rfl
    | cons c s =>
      cases k with
      | zero => exact absurd hk (by simp)
      | succ k =>
        simp only [List.length_cons, Nat.add_le_add_iff_right] at hn hk
        simp only [search]
        cases hrun : m.run (c :: s) with
        | none => exact ih hn hk
        | some found =>
          obtain ⟨a, rest⟩ := found
          have hshort := m.shorter hrun
          rw [List.length_cons] at hshort
          exact congrArg (a :: ·) (ih (by omega) (by omega))

/-- The search goes on behind a match. -/
theorem findall_of_run (h : m.run s = some (a, rest)) : m.findall s = a :: m.findall rest := by
  have hshort := m.shorter h
  cases s with
  | nil => exact absurd hshort (Nat.not_lt_zero _)
  | cons c s =>
    simp only [findall, List.length_cons, search, h]
    rw [List.length_cons] at hshort
    exact congrArg (a :: ·) (m.search_of_le (by omega) le_rfl)

/-- Without a match the search goes one character on. -/
theorem findall_cons (h : m.run (c :: s) = none) : m.findall (c :: s) = m.findall s := by
  simp only [findall, List.length_cons, search, h]

/-- Characters at which nothing matches are passed over. -/
theorem findall_append {pre : Chars} (h : ∀ c ∈ pre, ∀ s, m.run (c :: s) = none) :
    m.findall (pre ++ s) = m.findall s := by
  induction pre with
  | nil => rfl
  | cons c pre ih =>
    rw [List.cons_append, m.findall_cons (h c List.mem_cons_self _)]
    exact ih fun c hc => h c (List.mem_cons_of_mem _ hc)

end Matcher

namespace Matcher

/-- The pieces between the matches in a text no longer than `n`. -/
def pieces {α : Type*} (m : Matcher α) : ℕ → Chars → List Chars
  | _, [] => [[]]
  | 0, s => [s]
  | n + 1, c :: s =>
    match m.run (c :: s) with
    | some (_, rest) => [] :: pieces m n rest
    | none => (pieces m n s).modifyHead (c :: ·)

/-- `split`. -/
def split {α : Type*} (m : Matcher α) (s : Chars) : List Chars := m.pieces s.length s

end Matcher

/-! ## Lazy groups -/

section Lazy
variable {β : Type*} {k : Chars → Option β} {b : β} {c : Char} {s w : Chars}

/-- `(.+?)` and what follows: the shortest group, without a line break, after which the rest
matches. -/
def lazy (k : Chars → Option β) : Chars → Option (Chars × β)
  | [] => none
  | c :: s =>
    if c = '\n' then none
    else match k s with
      | some b => some ([c], b)
      | none => (lazy k s).map fun found => (c :: found.1, found.2)

theorem lazy_singleton (hc : c ≠ '\n') (h : k s = some b) : lazy k (c :: s) = some ([c], b) := by
  simp [lazy, hc, h]

theorem lazy_cons (hc : c ≠ '\n') (h : k s = none) :
    lazy k (c :: s) = (lazy k s).map fun found => (c :: found.1, found.2) := by
  simp [lazy, hc, h]

/-- A group ends where the rest matches for the first time. -/
theorem lazy_append (hne : w ≠ []) (hline : '\n' ∉ w) (h : k s = some b)
    (hfirst : ∀ u v, w = u ++ v → u ≠ [] → v ≠ [] → k (v ++ s) = none) :
    lazy k (w ++ s) = some (w, b) := by
  induction w with
  | nil => exact absurd rfl hne
  | cons c w ih =>
    have hc : c ≠ '\n' := fun heq => hline (heq ▸ List.mem_cons_self)
    rcases w.eq_nil_or_concat with rfl | ⟨w', d, rfl⟩
    · exact lazy_singleton hc h
    · rw [List.cons_append, lazy_cons hc (hfirst [c] _ rfl (by simp) (by simp)),
        ih (by simp) (fun hmem => hline (List.mem_cons_of_mem _ hmem))
          fun u v heq hu hv => hfirst (c :: u) v (by rw [heq, List.cons_append]) (by simp) hv]
      rfl

end Lazy

/-! ## Numbers -/

/-- The digits of a number. -/
def str (n : ℕ) : Chars := Nat.toDigits 10 n

/-- The digits of an integer. -/
def strInt : ℤ → Chars
  | .ofNat n => str n
  | .negSucc n => '-' :: str (n + 1)

/-- The number of some digits. -/
def ofDigits (s : Chars) : ℕ := Nat.ofDigitChars 10 s 0

/-- Digits, and at least one. -/
def isDigits (s : Chars) : Bool := !s.isEmpty && s.all Char.isDigit

theorem isDigits_iff {s : Chars} : isDigits s ↔ s ≠ [] ∧ ∀ c ∈ s, c.isDigit := by
  simp [isDigits]

theorem isDigit_of_mem_str {n : ℕ} {c : Char} (hc : c ∈ str n) : c.isDigit :=
  Nat.isDigit_of_mem_toDigits (by decide) (by decide) hc

theorem str_ne_nil (n : ℕ) : str n ≠ [] := Nat.toDigits_ne_nil

@[simp] theorem isDigits_str (n : ℕ) : isDigits (str n) :=
  isDigits_iff.mpr ⟨str_ne_nil n, fun _ => isDigit_of_mem_str⟩

@[simp] theorem ofDigits_str (n : ℕ) : ofDigits (str n) = n := Nat.ofDigitChars_ten_toDigits

/-- A sign, if there is one, and the text after it. -/
def takeSign : Chars → Bool × Chars
  | '-' :: s => (true, s)
  | '+' :: s => (false, s)
  | s => (false, s)

/-- The text without its underscores, each of which stands between digits. -/
def dropUnderscores (prev : Char) : Chars → Option Chars
  | [] => if prev = '_' then none else some []
  | c :: s =>
    if c = '_' then (if prev.isDigit then dropUnderscores c s else none)
    else if prev = '_' ∧ ¬ c.isDigit then none
    else (dropUnderscores c s).map (c :: ·)

/-- `int` -/
def int (s : Chars) : Option ℤ := do
  let s ← dropUnderscores ' ' (strip isSpace s)
  let (negative, ds) := takeSign s
  if isDigits ds then some (if negative then -ofDigits ds else ofDigits ds) else none

/-- The exponent of a number, with which its text ends. -/
def exponent : Chars → Option ℤ
  | [] => some 0
  | c :: s =>
    if c = 'e' ∨ c = 'E' then
      let (negative, ds) := takeSign s
      if isDigits ds then some (if negative then -ofDigits ds else ofDigits ds) else none
    else none

/-- A point, if there is one, and the digits after it. -/
def takeFraction : Chars → Chars × Chars
  | '.' :: s => (s.takeWhile Char.isDigit, s.dropWhile Char.isDigit)
  | s => ([], s)

/-- `float`, exactly. The names of the infinities and of what is not a number have no exact
value. -/
def float (s : Chars) : Option ℚ := do
  let s ← dropUnderscores ' ' (strip isSpace s)
  let (negative, s) := takeSign s
  let whole := s.takeWhile Char.isDigit
  let (fraction, s) := takeFraction (s.dropWhile Char.isDigit)
  if whole = [] ∧ fraction = [] then none
  else
    let e ← exponent s
    let x : ℚ := ofDigits (whole ++ fraction) * 10 ^ (e - fraction.length)
    some (if negative then -x else x)

/-! ## Decimal numbers -/

/-- A sign as it is written. -/
inductive Sign
  | unsigned
  | plus
  | minus

def Sign.text : Sign → Chars
  | unsigned => []
  | plus => ['+']
  | minus => ['-']

/-- A decimal number as it is written: its sign, the digits before the point and, if there is a
point, those after it. -/
structure Decimal where
  sign : Sign
  whole : Chars
  fraction : Option Chars
  isDigit : ∀ c ∈ whole ++ fraction.getD [], c.isDigit
  ne_nil : whole ++ fraction.getD [] ≠ []

namespace Decimal
variable (d : Decimal)

def unsignedText : Chars := d.whole ++ d.fraction.elim [] ('.' :: ·)

def text : Chars := d.sign.text ++ d.unsignedText

/-- The value of a decimal number. -/
def value : ℚ :=
  let x : ℚ := ofDigits (d.whole ++ d.fraction.getD []) / 10 ^ (d.fraction.getD []).length
  if d.sign matches .minus then -x else x

/-- The text of an integer, as a decimal number. -/
def ofNat (sign : Sign) (n : ℕ) : Decimal where
  sign := sign
  whole := str n
  fraction := none
  isDigit c hc := isDigit_of_mem_str (by simpa using hc)
  ne_nil := by simpa using str_ne_nil n

/-- The characters of decimal numbers. -/
def isChar (c : Char) : Bool := c.isDigit || c == '.' || c == '+' || c == '-'

variable {d} {c : Char}

theorem isChar_of_mem_text (hc : c ∈ d.text) : isChar c := by
  have hdigit := d.isDigit
  rw [text, unsignedText, List.mem_append] at hc
  rcases hc with hc | hc
  · cases hsign : d.sign <;> simp_all [Sign.text, isChar]
  · rcases List.mem_append.mp hc with hc | hc
    · simp [isChar, hdigit c (List.mem_append_left _ hc)]
    · cases hf : d.fraction with
      | none => simp [hf] at hc
      | some fraction =>
        rw [hf] at hc hdigit
        rcases List.mem_cons.mp hc with rfl | hc
        · rfl
        · simp [isChar, hdigit c (List.mem_append_right _ hc)]

theorem isSpace_of_isChar (hc : isChar c) : isSpace c = false := by
  have hrange : (48 ≤ c.toNat ∧ c.toNat ≤ 57) ∨ c = '.' ∨ c = '+' ∨ c = '-' := by
    simpa [isChar, Char.isDigit, UInt32.le_iff_toNat_le, or_assoc] using hc
  rcases hrange with hdigit | rfl | rfl | rfl
  · simp [isSpace]
    omega
  · rfl
  · rfl
  · rfl

theorem text_ne_nil : d.text ≠ [] := by
  intro hnil
  have hne := d.ne_nil
  simp only [text, unsignedText, List.append_eq_nil_iff] at hnil
  cases hf : d.fraction with
  | none => simp [hf, hnil.2.1] at hne
  | some fraction => simp [hf] at hnil

theorem takeSign_of_head {s : Chars} (hs : ∀ c ∈ s.head?, c.isDigit ∨ c = '.') :
    takeSign s = (false, s) := by
  cases s with
  | nil => rfl
  | cons c s =>
    have hc := hs c rfl
    have hminus : c ≠ '-' := by
      rintro rfl
      simp at hc
    have hplus : c ≠ '+' := by
      rintro rfl
      simp at hc
    simp [takeSign, hminus, hplus]

theorem takeSign_text : takeSign d.text = (d.sign matches .minus, d.unsignedText) := by
  rw [text]
  cases d.sign with
  | unsigned =>
    refine takeSign_of_head fun c hc => ?_
    have hdigit := d.isDigit
    rw [show Sign.unsigned.text ++ d.unsignedText = d.unsignedText from rfl, unsignedText] at hc
    rcases hw : d.whole with _ | ⟨e, whole⟩
    · rw [hw, List.nil_append] at hc
      cases hf : d.fraction with
      | none => simp [hf] at hc
      | some fraction =>
        rw [hf] at hc
        exact Or.inr (Option.some_inj.mp hc).symm
    · rw [hw] at hc hdigit
      exact Or.inl (hdigit c (Option.some_inj.mp hc ▸ List.mem_cons_self))
  | plus => rfl
  | minus => rfl

/-- The digits before the point, and what follows them. -/
theorem takeWhile_unsignedText : d.unsignedText.takeWhile Char.isDigit = d.whole ∧
    d.unsignedText.dropWhile Char.isDigit = d.fraction.elim [] ('.' :: ·) := by
  have hwhole : ∀ c ∈ d.whole, c.isDigit := fun c hc => d.isDigit c (List.mem_append_left _ hc)
  rw [unsignedText, List.takeWhile_append_of_pos hwhole, List.dropWhile_append_of_pos hwhole]
  cases d.fraction <;> simp

theorem takeFraction_elim :
    takeFraction (d.fraction.elim [] ('.' :: ·)) = (d.fraction.getD [], []) := by
  have hdigit := d.isDigit
  cases hf : d.fraction with
  | none => rfl
  | some fraction =>
    rw [hf] at hdigit
    have hfraction : ∀ c ∈ fraction, c.isDigit := fun c hc => hdigit c (List.mem_append_right _ hc)
    show (fraction.takeWhile Char.isDigit, fraction.dropWhile Char.isDigit) = _
    rw [List.takeWhile_eq_self_iff.mpr hfraction, List.dropWhile_eq_nil_iff.mpr hfraction]
    rfl

theorem dropUnderscores_eq {s : Chars} (hs : '_' ∉ s) {prev : Char} (hprev : prev ≠ '_') :
    dropUnderscores prev s = some s := by
  induction s generalizing prev with
  | nil => simp [dropUnderscores, hprev]
  | cons c s ih =>
    have hc : c ≠ '_' := fun heq => hs (heq ▸ List.mem_cons_self)
    simp [dropUnderscores, hprev, hc, ih (fun hmem => hs (List.mem_cons_of_mem _ hmem)) hc]

/-- The text of an integer is that of a decimal number. -/
theorem exists_text_eq_strInt (k : ℤ) : ∃ d : Decimal, d.text = strInt k ∧ d.value = k := by
  cases k with
  | ofNat n =>
    refine ⟨ofNat .unsigned n, ?_, ?_⟩
    · simp [text, unsignedText, ofNat, Sign.text, strInt]
    · simp [value, ofNat]
  | negSucc n =>
    refine ⟨ofNat .minus (n + 1), ?_, ?_⟩
    · simp [text, unsignedText, ofNat, Sign.text, strInt]
    · simp [value, ofNat, Int.negSucc_eq]

/-- The text of a decimal number is read as its value. -/
theorem float_text : float d.text = some d.value := by
  have hstrip : strip isSpace d.text = d.text :=
    (Trim.of_forall fun c hc => isSpace_of_isChar (isChar_of_mem_text hc)).strip
  have hunderscore : '_' ∉ d.text := fun hc => absurd (isChar_of_mem_text hc) (by decide)
  have hne : ¬ (d.whole = [] ∧ d.fraction.getD [] = []) := fun h =>
    d.ne_nil (List.append_eq_nil_iff.mpr h)
  obtain ⟨htake, hdrop⟩ := d.takeWhile_unsignedText
  rw [float, hstrip, dropUnderscores_eq hunderscore (by decide)]
  simp only [Option.bind_eq_bind, Option.bind_some, takeSign_text, htake, hdrop, takeFraction_elim,
    if_neg hne, exponent, zero_sub, zpow_neg, zpow_natCast, ← div_eq_mul_inv, value]

end Decimal

/-! ## Digits -/

section Digits
variable {s : Chars} {c : Char}

theorem ne_of_isDigit (hc : c.isDigit) {d : Char} (hd : d.isDigit = false) : c ≠ d := by
  rintro rfl
  rw [hc] at hd
  cases hd

theorem isSpace_of_isDigit (hc : c.isDigit) : isSpace c = false :=
  Decimal.isSpace_of_isChar (by simp [Decimal.isChar, hc])

/-- Digits are read as their number. -/
theorem int_of_isDigits (h : isDigits s) : int s = some (ofDigits s : ℤ) := by
  obtain ⟨-, hdigit⟩ := isDigits_iff.mp h
  have hstrip : strip isSpace s = s :=
    (Trim.of_forall fun c hc => isSpace_of_isDigit (hdigit c hc)).strip
  have hunderscore : '_' ∉ s := fun hc => ne_of_isDigit (hdigit _ hc) rfl rfl
  have hsign : takeSign s = (false, s) :=
    Decimal.takeSign_of_head fun c hc => .inl (hdigit c (List.mem_of_mem_head? hc))
  rw [int, hstrip, Decimal.dropUnderscores_eq hunderscore (by decide)]
  simp [hsign, h]

end Digits

end Text
