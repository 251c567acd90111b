import LightServe.Lib.Text
import Mathlib.Data.List.Chain

/-!
# The calculator

`training/qlora_financial/calculator.py` over exact numbers: the steps of an answer are read with a
lazy regular expression and done one after the other. What raises is `none`. A power of two numbers
need not have an exact value, so the operation is a parameter. Answers are texts without letters or
digits beyond ASCII.

## Main definitions

* `Calculator.stepRe` — the texts of the steps of an answer.
* `Calculator.finqaStepRe` — the operator and the arguments of a step.
* `Calculator.number` — the value of a number as documents write it.
* `Calculator.runFinqaSteps` — the result of the last step.
-/

namespace LightServe

namespace Calculator

open Text

/-- `Step \d+: (.*)`: the rest of the line. -/
def stepRe : Matcher Chars where
  run s := do
    let s ← after "Step ".toList s
    if s.takeWhile Char.isDigit = [] then none
    else
      let line ← after ": ".toList (s.dropWhile Char.isDigit)
      some (line.takeWhile (· != '\n'), line.dropWhile (· != '\n'))
  shorter {s a rest} h := by
    simp only [Option.bind_eq_bind, Option.bind_eq_some_iff] at h
    obtain ⟨s', hs, h⟩ := h
    rw [after_eq_some] at hs
    split at h
    · cases h
    · obtain ⟨line, hline, h⟩ := Option.bind_eq_some_iff.mp h
      rw [after_eq_some] at hline
      simp only [Option.some.injEq, Prod.mk.injEq] at h
      have hdigits := (List.dropWhile_suffix (l := s') Char.isDigit).length_le
      have hrest := (List.dropWhile_suffix (l := line) (· != '\n')).length_le
      rw [hline, List.length_append] at hdigits
      rw [h.2] at hrest
      rw [hs, List.length_append]
      have hpos : 0 < "Step ".toList.length := by decide
      omega

section StepRe
variable {line rest : Chars}

/-- A step is matched up to the end of its line. -/
theorem stepRe_run (n : ℕ) (hline : '\n' ∉ line) (hrest : ∀ c ∈ rest.head?, c = '\n') :
    stepRe.run ("Step ".toList ++ str n ++ ": ".toList ++ line ++ rest) = some (line, rest) := by
  have hline' : ∀ c ∈ line, (c != '\n') = true := fun c hc =>
    bne_iff_ne.mpr fun heq => hline (heq ▸ hc)
  have hdigits : ∀ c ∈ str n, c.isDigit := fun c hc => isDigit_of_mem_str hc
  obtain ⟨htake, hdrop⟩ := takeWhile_append_cons hdigits
    (show ':'.isDigit = false by decide) (' ' :: (line ++ rest))
  have hend : (line ++ rest).takeWhile (· != '\n') = line ∧
      (line ++ rest).dropWhile (· != '\n') = rest := by
    cases rest with
    | nil => simp [List.takeWhile_eq_self_iff.mpr hline', List.dropWhile_eq_nil_iff.mpr hline']
    | cons c rest => exact takeWhile_append_cons hline' (by simp [hrest c rfl]) rest
  simp only [List.append_assoc, stepRe, after_append, Option.bind_eq_bind, Option.bind_some]
  rw [show ": ".toList ++ (line ++ rest) = ':' :: ' ' :: (line ++ rest) from rfl, htake, hdrop,
    if_neg (str_ne_nil n),
    show ':' :: ' ' :: (line ++ rest) = ": ".toList ++ (line ++ rest) from rfl, after_append,
    Option.bind_some, hend.1, hend.2]

theorem stepRe_run_newline (s : Chars) : stepRe.run ('\n' :: s) = none := by
  simp [stepRe, after]

end StepRe

/-- The texts of the steps of an answer. -/
def stepTexts (answer : Chars) : List Chars := (stepRe.findall answer).map (strip isSpace)

/-- The operators that the calculator knows. -/
def opNames : List Chars :=
  ["add".toList, "subtract".toList, "multiply".toList, "divide".toList,
    "raise to the power of".toList]

/-- `\.?$`. -/
def ending (s : Chars) : Option Unit :=
  if s = [] ∨ s = ['.'] ∨ s = ['\n'] ∨ s = ['.', '\n'] then some () else none

/-- `(.+?) and (.+?)\.?$`. -/
def arguments (s : Chars) : Option (Chars × Chars) :=
  lazy (fun s => (after " and ".toList s).bind fun s => (lazy ending s).map Prod.fst) s

/-- A step, if it begins with a given operator. -/
def readStep (step op : Chars) : Option (Chars × Chars × Chars) := do
  let s ← after (op ++ " ".toList) step
  let (x, y) ← arguments s
  some (op, x, y)

/-- `(add|subtract|multiply|divide|raise to the power of) (.+?) and (.+?)\.?$`. -/
def finqaStepRe (step : Chars) : Option (Chars × Chars × Chars) :=
  opNames.findSome? (readStep step)

section FinqaStepRe
variable {a b op : Chars}

theorem ending_append (h : b ≠ []) : ending (b ++ ['.']) = none := by
  refine if_neg fun hend => ?_
  rcases hend with hend | hend | hend | hend
  · simp at hend
  · simp [h] at hend
  · simpa using congrArg List.getLast? hend
  · simpa using congrArg List.getLast? hend

/-- The arguments of a step are read as they were written, if the first has nothing that looks like
the word between them. -/
theorem arguments_eq (ha : a ≠ []) (hb : b ≠ []) (haline : '\n' ∉ a) (hbline : '\n' ∉ b)
    (hquiet : a.IsChain fun c d => ¬ (c = ' ' ∧ d = 'a')) :
    arguments (a ++ (" and ".toList ++ (b ++ ['.']))) = some (a, b) := by
  refine lazy_append ha haline ?_ fun u v heq _ hv => ?_
  · have hrest : lazy ending (b ++ ['.']) = some (b, ()) :=
      lazy_append hb hbline (if_pos (Or.inr (Or.inl rfl))) fun u v _ _ hv => ending_append hv
    rw [after_append, Option.bind_some, hrest]
    rfl
  · -- A later part of the first argument is not followed by the word at once.
    refine Option.bind_eq_none_iff.mpr fun s hs => absurd (after_eq_some.mp hs) fun heq' => ?_
    have hchain : v.IsChain fun c d => ¬ (c = ' ' ∧ d = 'a') :=
      List.IsChain.right_of_append (heq ▸ hquiet)
    rcases v with _ | ⟨c, _ | ⟨d, v⟩⟩
    · exact hv rfl
    · simp at heq'
    · simp only [List.cons_append] at heq'
      injection heq' with hc heq'
      injection heq' with hd heq'
      exact (List.isChain_cons_cons.mp hchain).1 ⟨hc, hd⟩

/-- The operators differ in their first letters. -/
theorem eq_of_head?_eq : ∀ op ∈ opNames, ∀ op' ∈ opNames, op'.head? = op.head? → op' = op := by
  decide

theorem opNames_ne_nil : ∀ op ∈ opNames, op ≠ [] := by decide

/-- A step begins with one operator only. -/
theorem readStep_of_ne (hop : op ∈ opNames) {op' : Chars} (hop' : op' ∈ opNames) (hne : op' ≠ op)
    (s : Chars) : readStep (op ++ " ".toList ++ s) op' = none := by
  refine Option.bind_eq_none_iff.mpr fun t ht => absurd (after_eq_some.mp ht) fun heq => ?_
  have hhead := congrArg List.head? heq
  rw [List.append_assoc, List.append_assoc, List.head?_append_of_ne_nil _ (opNames_ne_nil op hop),
    List.head?_append_of_ne_nil _ (opNames_ne_nil op' hop')] at hhead
  exact hne (eq_of_head?_eq op hop op' hop' hhead.symm)

/-- A step is read as it was written. -/
theorem finqaStepRe_eq (hop : op ∈ opNames) (ha : a ≠ []) (hb : b ≠ []) (haline : '\n' ∉ a)
    (hbline : '\n' ∉ b) (hquiet : a.IsChain fun c d => ¬ (c = ' ' ∧ d = 'a')) :
    finqaStepRe (op ++ " ".toList ++ (a ++ (" and ".toList ++ (b ++ ['.'])))) =
      some (op, a, b) := by
  obtain ⟨before, later, hnames⟩ := List.append_of_mem hop
  refine List.findSome?_eq_some_iff.mpr ⟨before, op, later, hnames, ?_, fun op' hop' => ?_⟩
  · simp only [readStep, after_append, Option.bind_eq_bind, Option.bind_some,
      arguments_eq ha hb haline hbline hquiet]
  · refine readStep_of_ne hop (hnames ▸ List.mem_append_left _ hop') ?_ _
    have hnodup : opNames.Nodup := by decide
    rw [hnames] at hnodup
    exact (List.nodup_append.mp hnodup).2.2 op' hop' op List.mem_cons_self

end FinqaStepRe

/-- A number as documents write it, without its separators; in brackets it is negative, and with
`%` it is a hundredth. -/
def number (text : Chars) : Option ℚ := do
  let s := ((strip isSpace text).filter (· != ',')).filter (· != '$')
  let negative := s.head? = some '(' ∧ s.getLast? = some ')'
  let s := strip (fun c => c = '(' ∨ c = ')') s
  let value ← if s.getLast? = some '%' then (float s.dropLast).map (· / 100) else float s
  some (if negative then -value else value)

section Number
variable {s : Chars}

/-- Without a separator or a bracket, a number is read as it stands. -/
theorem number_eq (hs : ∀ c ∈ s, Decimal.isChar c ∨ c = '%') : number s =
    if s.getLast? = some '%' then (float s.dropLast).map (· / 100) else float s := by
  have hspace : strip isSpace s = s := (Trim.of_forall fun c hc =>
    (hs c hc).elim Decimal.isSpace_of_isChar fun heq => heq ▸ rfl).strip
  have hfilter : ∀ d, Decimal.isChar d = false → d ≠ '%' → s.filter (· != d) = s := by
    intro d hd hd'
    refine List.filter_eq_self.mpr fun c hc => bne_iff_ne.mpr fun heq => ?_
    rcases hs c hc with h | h
    · rw [heq, hd] at h
      cases h
    · exact hd' (heq ▸ h)
  have hbracket : strip (fun c => c = '(' ∨ c = ')') s = s := by
    refine (Trim.of_forall fun c hc => ?_).strip
    rcases hs c hc with h | rfl
    · refine decide_eq_false ?_
      rintro (rfl | rfl) <;> cases h
    · rfl
  have hpositive : ¬ (s.head? = some '(' ∧ s.getLast? = some ')') := by
    rintro ⟨hhead, -⟩
    rcases hs _ (List.mem_of_head? hhead) with h | h <;> cases h
  simp only [number, hspace, hfilter ',' rfl (by decide), hfilter '$' rfl (by decide), hbracket,
    hpositive, if_false]
  split <;> exact Option.bind_fun_some _

/-- A decimal number is read as its value. -/
theorem number_text (d : Decimal) : number d.text = some d.value := by
  rw [number_eq fun c hc => Or.inl (Decimal.isChar_of_mem_text hc), if_neg, Decimal.float_text]
  intro hlast
  exact absurd (Decimal.isChar_of_mem_text (List.mem_of_getLast? hlast)) (by decide)

/-- A percentage is read as a hundredth of its number. -/
theorem number_percent (d : Decimal) : number (d.text ++ ['%']) = some (d.value / 100) := by
  rw [number_eq, if_pos List.getLast?_concat, List.dropLast_concat, Decimal.float_text,
    Option.map_some]
  intro c hc
  rcases List.mem_append.mp hc with hc | hc
  · exact Or.inl (Decimal.isChar_of_mem_text hc)
  · exact Or.inr (List.mem_singleton.mp hc)

end Number

/-- The result of an earlier step, counted from 1. -/
def earlier (results : List ℚ) (step : ℕ) : Option ℚ :=
  if 1 ≤ step then results[step - 1]? else none

/-- An argument of a step. -/
def argument (results : List ℚ) (a : Chars) : Option ℚ :=
  match after "the result of step ".toList a with
  | some ds => if isDigits ds then earlier results (ofDigits ds) else number a
  | none => number a

section Argument
variable {results : List ℚ}

/-- A text that does not begin with a letter is no reference. -/
theorem argument_eq_number {a : Chars} (ha : ∀ c ∈ a, Decimal.isChar c ∨ c = '%') :
    argument results a = number a := by
  have hafter : after "the result of step ".toList a = none := by
    refine Option.eq_none_iff_forall_ne_some.mpr fun s hs => ?_
    have hmem := ha 't' (after_eq_some.mp hs ▸ List.mem_cons_self)
    rcases hmem with h | h <;> cases h
  rw [argument, hafter]

/-- A reference is read as the result of its step. -/
theorem argument_ref (n : ℕ) :
    argument results ("the result of step ".toList ++ str (n + 1)) = results[n]? := by
  rw [argument, after_append]
  show (if isDigits _ then _ else _) = _
  rw [if_pos (isDigits_str _), earlier, ofDigits_str, if_pos (Nat.le_add_left 1 n),
    Nat.add_sub_cancel]

end Argument

/-- What an operator does. -/
def finqaOps (pow : ℚ → ℚ → Option ℚ) : List (Chars × (ℚ → ℚ → Option ℚ)) :=
  [("add".toList, fun x y => some (x + y)),
   ("subtract".toList, fun x y => some (x - y)),
   ("multiply".toList, fun x y => some (x * y)),
   ("divide".toList, fun x y => if y = 0 then none else some (x / y)),
   ("raise to the power of".toList, pow)]

/-- Do one step. -/
def doStep (pow : ℚ → ℚ → Option ℚ) (results : List ℚ) (step : Chars) : Option (List ℚ) := do
  let (op, a, b) ← finqaStepRe step
  let x ← argument results a
  let y ← argument results b
  let f ← (finqaOps pow).lookup op
  let result ← f x y
  some (results ++ [result])

/-- The result of the last step, if all steps are plain arithmetic. -/
def runFinqaSteps (pow : ℚ → ℚ → Option ℚ) (steps : List Chars) : Option ℚ := do
  let results ← steps.foldlM (doStep pow) []
  results.getLast?

end Calculator

end LightServe
