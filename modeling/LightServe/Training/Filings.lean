import LightServe.Training.Documents
import LightServe.Training.NearCopy

/-!
# One filing

What `training/corpus_prep/prepare_corpus.py` makes of one filing, whichever worker does it: the
cleaned text, why it is junk, its signature, and the evaluation sentences in it. Unicode's tables
and the hash functions come from outside. Division is exact.

## Main definitions

* `Filings.clean` — the text without its layout and its junk lines.
* `Filings.qualityProblem` — why a cleaned text is junk.
* `Filings.minhash` — its signature.
* `Filings.sentenceKeys` — its long sentences.
* `Filings.analyze` — the notes on a filing.
* `Filings.minhash_eq_of_shingles` — the signature is one of the set of shingles.
-/

namespace LightServe

/-- Unicode's tables and the hashes that the pipeline uses. -/
structure Hashes (H : Type) where
  nfkc : Text.Chars → Text.Chars
  lower : Text.Chars → Text.Chars
  isAlpha : Char → Bool
  /-- The decimal digits, `\d`. -/
  isDigit : Char → Bool
  /-- BLAKE2b of the UTF-8 bytes. -/
  textHash : Text.Chars → H
  crc32 : Text.Chars → UInt32
  /-- The multipliers and offsets of the permutations. -/
  a : Fin NearCopy.NUM_PERM → UInt64
  b : Fin NearCopy.NUM_PERM → UInt64

namespace Filings

open Text NearCopy

/-! ## Cleaning -/

/-- `[ \t]`. -/
def isBlank (c : Char) : Bool := c == ' ' || c == '\t'

/-- `re.sub(r"[ \t]+", " ", s)`, behind a blank or not. -/
def collapse (behindBlank : Bool) : Chars → Chars
  | [] => []
  | c :: s =>
    if isBlank c then if behindBlank then collapse true s else ' ' :: collapse true s
    else c :: collapse false s

/-- `re.sub(r"\n{3,}", "\n\n", s)`, behind so many line breaks. -/
def squeeze (breaks : ℕ) : Chars → Chars
  | [] => []
  | c :: s =>
    if c = '\n' then
      if 2 ≤ breaks then squeeze (breaks + 1) s else c :: squeeze (breaks + 1) s
    else c :: squeeze 0 s

/-- The letter `a` to `z` as which `(?i)` takes a character, if any. Beyond ASCII these are the long
s, the Kelvin sign, and the `i` with a dot and without one. -/
def foldCase (c : Char) : Char :=
  if c.toNat = 0x17f then 's' else if c.toNat = 0x212a then 'k'
  else if c.toNat = 0x130 ∨ c.toNat = 0x131 then 'i' else c.toLower

/-- A word in any case, and what is behind it. -/
def afterWord (word s : Chars) : Option Chars :=
  if (s.take word.length).map foldCase = word then some (s.drop word.length) else none

/-- `\s+` and what is behind it. -/
def afterSpaces (s : Chars) : Option Chars :=
  if (s.takeWhile isSpace).isEmpty then none else some (s.dropWhile isSpace)

variable {H : Type} (h : Hashes H)

/-- `\d{1,3}` and what is behind it, where that is no digit. -/
def shortNumber (s : Chars) : Option Chars :=
  let digits := s.takeWhile h.isDigit
  if 1 ≤ digits.length ∧ digits.length ≤ 3 then some (s.dropWhile h.isDigit) else none

/-- `JUNK_LINE`, on a line without whitespace at its ends. -/
def junkLine (line : Chars) : Bool :=
  let number := (shortNumber h (line.dropWhile (· == '-') |>.dropWhile isSpace)).any fun rest =>
    let rest := rest.dropWhile isSpace
    rest == [] || rest == ['-']
  let dashes := (line.takeWhile (· == '-')).length
  let page :=
    ((afterWord "page".toList line).bind afterSpaces |>.bind (shortNumber h)).any (· == [])
  let letter := match line with
    | c :: '-' :: rest => (foldCase c).isLower && (shortNumber h rest).any (· == [])
    | _ => false
  let contents := ((afterWord "table".toList line).bind afterSpaces |>.bind
    (afterWord "of".toList) |>.bind afterSpaces |>.bind (afterWord "contents".toList)).any (· == [])
  dashes ≤ 1 && number || page || letter || contents

/-- The lines of a text. -/
def lines (s : Chars) : List Chars := s.splitOnP (· == '\n')

def clean (text : Chars) : Chars :=
  let kept := ((lines (h.nfkc text)).map fun line => strip isSpace (collapse false line)).filter
    (! junkLine h ·)
  strip isSpace (squeeze 0 (['\n'].intercalate kept))

/-! ## Quality -/

def MIN_WORDS : ℕ := 200

def MEAN_WORD_LEN : ℚ × ℚ := (3, 10)

def MIN_ALPHA_WORD_FRAC : ℚ := 3 / 5

def MAX_REPEATED_CHAR_FRAC : ℚ := 1 / 5

inductive Problem
  | tooFewWords
  | oddWordLength
  | fewAlphaWords
  | repeatedLines
  deriving DecidableEq, Repr

/-- `text.split()`. -/
def words (s : Chars) : List Chars := (s.splitOnP isSpace).filter (· ≠ [])

/-- The characters of the lines that repeat one seen before. -/
def repeatedChars (seen : Finset Chars) : List Chars → ℕ
  | [] => 0
  | line :: rest =>
    (if line ∈ seen then line.length else 0) + repeatedChars (insert line seen) rest

/-- `quality_problem`. -/
def qualityProblem (text : Chars) : Option Problem :=
  let ws := words text
  let meanLen : ℚ := (ws.map List.length).sum / ws.length
  let alphaFrac : ℚ := ws.countP (·.any h.isAlpha) / ws.length
  let repeatedFrac : ℚ := repeatedChars ∅ (lines text) / text.length
  if ws.length < MIN_WORDS then some .tooFewWords
  else if meanLen < MEAN_WORD_LEN.1 ∨ MEAN_WORD_LEN.2 < meanLen then some .oddWordLength
  else if alphaFrac < MIN_ALPHA_WORD_FRAC then some .fewAlphaWords
  else if MAX_REPEATED_CHAR_FRAC < repeatedFrac then some .repeatedLines
  else none

/-! ## Signatures -/

def SHINGLE : ℕ := 5

/-- The hashes of the pieces of five words, one word on at a time. A shorter text is one piece. -/
def shingles (text : Chars) : List UInt64 :=
  let w := (words (h.lower text)).map fun word => (h.crc32 word).toUInt64
  (List.range (max (w.length + 1 - SHINGLE) 1)).map fun i =>
    (List.range (min SHINGLE w.length)).foldl (fun sh k => sh * 1000003 + w.getD (k + i) 0) 0

/-- The lesser of two hashes. -/
def lesser (x y : UInt64) : UInt64 := if y < x then y else x

/-- `minhash`: under each permutation, the upper half of the least of the pieces' hashes. -/
def minhash (text : Chars) : Sig := fun p =>
  let least := ((shingles h text).map fun sh => sh * h.a p + h.b p).foldl lesser 0xffffffffffffffff
  (least >>> 32).toUInt32

/-! ## Sentences -/

def MIN_SENTENCE_CHARS : ℕ := 60

/-- `(?<=[.!?;:])\s+|\n` splits here: what is before the separator is behind `prev`, and inside one
the whitespace goes on. -/
def sentences (gap : Bool) (prev : Option Char) : Chars → List Chars
  | [] => [[]]
  | c :: s =>
    if gap && isSpace c then sentences true none s
    else if isSpace c && prev.any ['.', '!', '?', ';', ':'].contains then
      [] :: sentences true none s
    else if c = '\n' then [] :: sentences false (some c) s
    else (sentences false (some c) s).modifyHead (c :: ·)

/-- The long sentences of a text, in letters and digits. -/
def sentenceKeys (text : Chars) : Finset Chars :=
  ((sentences false none text).map (·.filterMap Documents.normalizeChar)).toFinset.filter
    (MIN_SENTENCE_CHARS ≤ ·.length)

/-- `load_eval_sentences`, from the reports of the evaluation examples. -/
def evalSentences (reports : List Chars) : Finset Chars :=
  reports.foldl (fun out report => out ∪ sentenceKeys report) ∅

/-! ## A filing -/

/-- A line of a downloaded file. -/
structure Row where
  filename : String
  cik : String
  sections : List (Option Chars)

structure Filing where
  id : String
  cik : String
  text : Chars
  deriving DecidableEq

/-- The sections of a row that hold text, in order. -/
def Row.filing (row : Row) : Filing where
  id := row.filename
  cik := row.cik
  text := ['\n', '\n'].intercalate
    ((row.sections.map fun part => strip isSpace (part.getD [])).filter (· ≠ []))

/-- `iter_filings`: the first of the rows, if there is a limit. -/
def iterFilings (maxDocs : Option ℕ) (rows : List Row) : List Filing :=
  (maxDocs.elim rows rows.take).map Row.filing

/-- The notes on a filing that passes. -/
structure Notes (H : Type) where
  hash : H
  sig : Sig
  shared : Finset Chars

/-- `analyze`: the filing's problem, or the notes on it. -/
def analyze (evals : Finset Chars) (d : Filing) : Except Problem (Notes H) :=
  let text := clean h d.text
  match qualityProblem h text with
  | some problem => .error problem
  | none =>
    .ok { hash := h.textHash text, sig := minhash h text, shared := sentenceKeys text ∩ evals }

/-! ## The signature and the set of shingles -/

section Minhash
variable {h}

theorem lesser_toNat (x y : UInt64) : (lesser x y).toNat = min x.toNat y.toNat := by
  unfold lesser
  split
  · rename_i hlt
    exact (Nat.min_eq_right (UInt64.lt_iff_toNat_lt.mp hlt).le).symm
  · rename_i hge
    exact (Nat.min_eq_left (not_lt.mp fun hlt => hge (UInt64.lt_iff_toNat_lt.mpr hlt))).symm

/-- The least of some hashes and a first one. -/
theorem le_foldl_lesser {hs : List UInt64} {x : UInt64} {n : ℕ} :
    n ≤ (hs.foldl lesser x).toNat ↔ n ≤ x.toNat ∧ ∀ y ∈ hs, n ≤ y.toNat := by
  induction hs generalizing x with
  | nil => simp
  | cons y hs ih =>
    rw [List.foldl_cons, ih, lesser_toNat, le_min_iff, List.forall_mem_cons, and_assoc]

/-- Texts of the same pieces have the same signature. -/
theorem minhash_eq_of_shingles {text text' : Chars}
    (hsame : ∀ sh, sh ∈ shingles h text ↔ sh ∈ shingles h text') :
    minhash h text = minhash h text' := by
  funext p
  have hmem : ∀ y, y ∈ (shingles h text).map (fun sh => sh * h.a p + h.b p) ↔
      y ∈ (shingles h text').map (fun sh => sh * h.a p + h.b p) := by
    intro y
    simp only [List.mem_map, hsame]
  have hleast :
      ((shingles h text).map fun sh => sh * h.a p + h.b p).foldl lesser 0xffffffffffffffff =
      ((shingles h text').map fun sh => sh * h.a p + h.b p).foldl lesser 0xffffffffffffffff := by
    refine UInt64.toNat_inj.mp (eq_of_forall_le_iff fun n => ?_)
    rw [le_foldl_lesser, le_foldl_lesser]
    simp only [hmem]
  show ((_ : UInt64) >>> 32).toUInt32 = _
  rw [hleast]
  rfl

end Minhash

end Filings

end LightServe
