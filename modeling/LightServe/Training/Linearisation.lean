import LightServe.Training.Calculator
import LightServe.Training.Steps

/-!
# The calculator reads what the writer wrote

Programs of calls of the four operations, with their texts and their values. The steps that are
written for the text of a program, one for each call, are read by the calculator as the value of
the program; it gives none exactly when some call divides by zero.

## Main definitions

* `Linearisation.Program` — a program, with the spaces of its text.
* `Linearisation.Program.values` — the values of its calls.
* `Linearisation.steps_agree` — the steps have its value.
-/

namespace LightServe

namespace Linearisation

open Text Steps Calculator

/-! ## Programs -/

/-- Whitespace. -/
abbrev Spaces := { s : Chars // ∀ c ∈ s, isSpace c }

inductive Op
  | add
  | subtract
  | multiply
  | divide
  deriving DecidableEq

namespace Op

def name : Op → Chars
  | add => "add".toList
  | subtract => "subtract".toList
  | multiply => "multiply".toList
  | divide => "divide".toList

def apply : Op → ℚ → ℚ → ℚ
  | add, x, y => x + y
  | subtract, x, y => x - y
  | multiply, x, y => x * y
  | divide, x, y => x / y

end Op

/-- Digits, at least one. -/
abbrev Digits := { s : Chars // isDigits s }

/-- An argument of a call: `12.5`, `6.625%`, `const_100`, `const_m1` or `#0`. -/
inductive Arg
  | number (d : Decimal)
  | percent (d : Decimal)
  | const (k : Digits)
  | constM (k : Digits)
  | ref (j : Digits)

namespace Arg

def text : Arg → Chars
  | number d => d.text
  | percent d => d.text ++ ['%']
  | const k => "const_".toList ++ k.val
  | constM k => "const_m".toList ++ k.val
  | ref j => '#' :: j.val

section Text
variable (d : Decimal) (k : Digits)

@[simp] theorem text_number : (number d).text = d.text := rfl

@[simp] theorem text_percent : (percent d).text = d.text ++ ['%'] := rfl

@[simp] theorem text_const : (const k).text = "const_".toList ++ k.val := rfl

@[simp] theorem text_constM : (constM k).text = "const_m".toList ++ k.val := rfl

@[simp] theorem text_ref : (ref k).text = '#' :: k.val := rfl

end Text

/-- The value of an argument, from the values of the calls before. -/
def value (values : List ℚ) : Arg → ℚ
  | number d => d.value
  | percent d => d.value / 100
  | const k => ofDigits k.val
  | constM k => -ofDigits k.val
  | ref j => values.getD (ofDigits j.val) 0

/-- An argument of call `i` refers to an earlier call only. -/
def Backward (i : ℕ) : Arg → Prop
  | ref j => ofDigits j.val < i
  | _ => True

/-- An argument as it stands in a step. -/
def written : Arg → Chars
  | number d => d.text
  | percent d => d.text ++ ['%']
  | const k => strInt (ofDigits k.val)
  | constM k => strInt (-ofDigits k.val)
  | ref j => "the result of step ".toList ++ str (ofDigits j.val + 1)

section Written
variable (d : Decimal) (k : Digits)

@[simp] theorem written_number : (number d).written = d.text := rfl

@[simp] theorem written_percent : (percent d).written = d.text ++ ['%'] := rfl

@[simp] theorem written_const : (const k).written = strInt (ofDigits k.val) := rfl

@[simp] theorem written_constM : (constM k).written = strInt (-ofDigits k.val) := rfl

@[simp] theorem written_ref :
    (ref k).written = "the result of step ".toList ++ str (ofDigits k.val + 1) := rfl

end Written

end Arg

/-- An argument and the spaces around it. -/
structure Operand where
  before : Spaces
  arg : Arg
  after : Spaces

def Operand.text (x : Operand) : Chars := x.before.val ++ (x.arg.text ++ x.after.val)

/-- A call of an operation, and the spaces around it. -/
structure Call where
  before : Spaces
  op : Op
  x : Operand
  y : Operand
  after : Spaces

namespace Call

def args (c : Call) : Chars := c.x.text ++ ',' :: c.y.text

def text (c : Call) : Chars := c.before.val ++ (c.op.name ++ '(' :: (c.args ++ ')' :: c.after.val))

def value (values : List ℚ) (c : Call) : ℚ :=
  c.op.apply (c.x.arg.value values) (c.y.arg.value values)

/-- The text of the step of a call, after its number. -/
def written (c : Call) : Chars :=
  c.op.name ++ " ".toList ++ (c.x.arg.written ++ (" and ".toList ++ (c.y.arg.written ++ ['.'])))

/-- A call divides by zero. -/
def DividesByZero (values : List ℚ) (c : Call) : Prop :=
  c.op = .divide ∧ c.y.arg.value values = 0

instance (values : List ℚ) (c : Call) : Decidable (c.DividesByZero values) :=
  inferInstanceAs (Decidable (_ ∧ _))

/-- The arguments of call `i` refer to earlier calls only. -/
def Backward (i : ℕ) (c : Call) : Prop := c.x.arg.Backward i ∧ c.y.arg.Backward i

end Call

/-- The values of some calls after others. -/
def valuesFrom (values : List ℚ) (calls : List Call) : List ℚ :=
  calls.foldl (fun values c => values ++ [c.value values]) values

/-- A program: its calls, each of which refers to earlier ones only. -/
structure Program where
  calls : List Call
  ne_nil : calls ≠ []
  backward : ∀ i (c : Call), calls[i]? = some c → c.Backward i

namespace Program
variable (p : Program)

def text : Chars := [','].intercalate (p.calls.map Call.text)

/-- The values of the calls, one after the other. -/
def values : List ℚ := valuesFrom [] p.calls

/-- Some call divides by zero. -/
def DividesByZero : Prop := ∃ c ∈ p.calls, c.DividesByZero p.values

instance : Decidable p.DividesByZero := inferInstanceAs (Decidable (∃ c ∈ p.calls, _))

end Program

/-! ## The steps that are written -/

section Written
variable {a : Arg} {c : Call} {i : ℕ}

/-- The characters of an argument. -/
def isArgChar (c : Char) : Bool := isWord c || Decimal.isChar c || c == '%' || c == '#'

theorem isArgChar_of_mem_text {c : Char} (hc : c ∈ a.text) : isArgChar c := by
  have hdecimal : ∀ d : Decimal, ∀ c ∈ d.text, isArgChar c := fun d c hc => by
    simp [isArgChar, Decimal.isChar_of_mem_text hc]
  have hdigits : ∀ k : Digits, ∀ c ∈ k.val, isArgChar c := fun k c hc => by
    simp [isArgChar, isWord_of_isDigit ((isDigits_iff.mp k.property).2 c hc)]
  have hword : ∀ c ∈ "const_m".toList, isArgChar c := List.all_eq_true.mp (by decide)
  cases a with
  | number d => exact hdecimal d c hc
  | percent d =>
    rcases List.mem_append.mp hc with hc | hc
    · exact hdecimal d c hc
    · rw [List.mem_singleton.mp hc]
      rfl
  | const k =>
    rcases List.mem_append.mp hc with hc | hc
    · exact hword c (List.mem_append_left ['m'] hc)
    · exact hdigits k c hc
  | constM k =>
    rcases List.mem_append.mp hc with hc | hc
    · exact hword c hc
    · exact hdigits k c hc
  | ref j =>
    rcases List.mem_cons.mp hc with rfl | hc
    · rfl
    · exact hdigits j c hc

theorem isSpace_of_isArgChar {c : Char} (hc : isArgChar c) : isSpace c = false := by
  by_contra hspace
  rw [Bool.not_eq_false] at hspace
  have hword := isWord_of_isSpace hspace
  have hdecimal : Decimal.isChar c = false := by
    by_contra hchar
    rw [Decimal.isSpace_of_isChar (by simpa using hchar)] at hspace
    cases hspace
  simp only [isArgChar, hword, hdecimal, Bool.false_or, Bool.or_eq_true, beq_iff_eq] at hc
  rcases hc with rfl | rfl <;> exact absurd hspace (by decide)

theorem text_ne_nil : a.text ≠ [] := by
  cases a with
  | number d =>
    rw [Arg.text_number]
    exact Decimal.text_ne_nil
  | percent d => simp
  | const k => simp
  | constM k => simp
  | ref j => simp

/-- The spaces around an argument are stripped off. -/
theorem strip_operand (x : Operand) : strip isSpace x.text = x.arg.text :=
  (Trim.of_forall fun _ hc => isSpace_of_isArgChar (isArgChar_of_mem_text hc)).strip_append
    x.before.property x.after.property text_ne_nil

/-- Commas and brackets separate arguments and calls. -/
theorem not_mem_operand (x : Operand) {c : Char} (hc : isArgChar c = false)
    (hc' : isSpace c = false) : c ∉ x.text := by
  intro hmem
  rcases List.mem_append.mp hmem with hmem | hmem
  · rw [x.before.property c hmem] at hc'
    cases hc'
  · rcases List.mem_append.mp hmem with hmem | hmem
    · rw [isArgChar_of_mem_text hmem] at hc
      cases hc
    · rw [x.after.property c hmem] at hc'
      cases hc'

theorem splitOn_args (c : Call) : c.args.splitOn ',' = [c.x.text, c.y.text] := by
  have hcomma : ∀ x : Operand, ∀ d ∈ x.text, (d == ',') = false := fun x d hd =>
    beq_eq_false_iff_ne.mpr fun heq => not_mem_operand x rfl rfl (heq ▸ hd)
  rw [Call.args, List.splitOn_eq_splitOnP,
    List.splitOnP_append_cons_of_forall_mem (hcomma c.x) ',' rfl,
    List.splitOnP_eq_singleton (hcomma c.y)]

theorem newline_not_mem_digits (k : Digits) : '\n' ∉ k.val := fun hc =>
  absurd ((isDigits_iff.mp k.property).2 _ hc) (by decide)

/-- A number is written as it stands. -/
theorem resolve_number {s : Chars} (hs : ∀ c ∈ s, Decimal.isChar c ∨ c = '%') :
    resolve i s = some s := by
  have href : refRe s = none := by
    unfold refRe
    split
    · rcases hs '#' List.mem_cons_self with h | h <;> cases h
    · rfl
  have hconst : constRe s = none := by
    refine Option.bind_eq_none_iff.mpr fun t ht => ?_
    rcases hs 'c' (after_eq_some.mp ht ▸ List.mem_cons_self) with h | h <;> cases h
  rw [resolve, href, hconst]

theorem constRe_const (k : Digits) :
    constRe ("const_".toList ++ k.val) = some (ofDigits k.val : ℤ) := by
  rw [constRe, after_append, Option.bind_some, chomp_eq (newline_not_mem_digits k)]
  split
  · rename_i ds heq
    have hdigit := (isDigits_iff.mp k.property).2 'm' (heq ▸ List.mem_cons_self)
    cases hdigit
  · rw [if_pos k.property]

theorem constRe_constM (k : Digits) :
    constRe ("const_m".toList ++ k.val) = some (-ofDigits k.val : ℤ) := by
  have hline : '\n' ∉ 'm' :: k.val := fun hc =>
    (List.mem_cons.mp hc).elim (by decide) (newline_not_mem_digits k)
  rw [constRe, show "const_m".toList ++ k.val = "const_".toList ++ 'm' :: k.val from rfl,
    after_append, Option.bind_some, chomp_eq hline]
  exact if_pos k.property

/-- An argument is written as it stands, but for constants and references. -/
theorem resolve_text (ha : a.Backward i) : resolve i a.text = some a.written := by
  cases a with
  | number d =>
    rw [Arg.text_number]
    exact resolve_number fun c hc => Or.inl (Decimal.isChar_of_mem_text hc)
  | percent d =>
    rw [Arg.text_percent]
    refine resolve_number fun c hc => ?_
    rcases List.mem_append.mp hc with hc | hc
    · exact Or.inl (Decimal.isChar_of_mem_text hc)
    · exact Or.inr (List.mem_singleton.mp hc)
  | const k =>
    rw [resolve, Arg.text_const, constRe_const]
    rfl
  | constM k =>
    rw [resolve, Arg.text_constM, constRe_constM]
    rfl
  | ref j =>
    have href : refRe ('#' :: j.val) = some (ofDigits j.val) := by
      rw [refRe, chomp_eq (newline_not_mem_digits j), if_pos j.property]
    rw [resolve, Arg.text_ref, href]
    exact if_neg (not_le.mpr ha)

/-- The step that is written for a call. -/
theorem stepOf_call (hc : c.Backward i) : stepOf ((c.op.name, c.args), i) =
    some ("Step ".toList ++ str (i + 1) ++ ": ".toList ++ c.written) := by
  have hword : opWords.lookup c.op.name = some c.op.name := by cases c.op <;> decide
  simp only [stepOf, hword, splitOn_args, List.mapM_cons, List.mapM_nil, strip_operand,
    resolve_text hc.1, resolve_text hc.2]
  simp [Call.written]

/-- The search for calls goes on behind a call. -/
theorem findall_call (c : Call) (rest : Chars) :
    opRe.findall (c.text ++ rest) = (c.op.name, c.args) :: opRe.findall rest := by
  have hskip : ∀ sp : Spaces, ∀ d ∈ sp.val, ∀ s, opRe.run (d :: s) = none := fun sp d hd =>
    opRe_run_of_not_isWord (isWord_of_isSpace (sp.property d hd))
  have hargs : ')' ∉ c.args := by
    rw [Call.args, List.mem_append, List.mem_cons]
    rintro (hmem | heq | hmem)
    · exact not_mem_operand c.x rfl rfl hmem
    · cases heq
    · exact not_mem_operand c.y rfl rfl hmem
  have hname : c.op.name ≠ [] := by cases c.op <;> decide
  have hword : ∀ d ∈ c.op.name, isWord d := by
    refine List.all_eq_true.mp ?_
    cases c.op <;> decide
  have hrun := opRe_run hname hword hargs (c.after.val ++ rest)
  have htext : c.text ++ rest = c.before.val ++
      (c.op.name ++ '(' :: (c.args ++ ')' :: (c.after.val ++ rest))) := by
    simp [Call.text]
  rw [htext, opRe.findall_append (hskip c.before), opRe.findall_of_run hrun,
    opRe.findall_append (hskip c.after)]

/-- The calls that are found in the text of a program are its calls. -/
theorem findall_text (calls : List Call) :
    opRe.findall ([','].intercalate (calls.map Call.text)) =
      calls.map fun c => (c.op.name, c.args) := by
  induction calls with
  | nil => rfl
  | cons c calls ih =>
    cases calls with
    | nil =>
      rw [List.map_singleton, List.intercalate_singleton, ← List.append_nil c.text, findall_call]
      rfl
    | cons c' calls =>
      rw [List.map_cons, List.map_cons, List.intercalate_cons_cons, List.append_assoc,
        findall_call, List.singleton_append,
        opRe.findall_cons (opRe_run_of_not_isWord (by decide) _)]
      exact congrArg (_ :: ·) ih

/-- The steps of some calls, from call `i` on. -/
def stepsFrom (i : ℕ) (calls : List Call) : List Chars :=
  (calls.zipIdx i).map fun call =>
    "Step ".toList ++ str (call.2 + 1) ++ ": ".toList ++ call.1.written

theorem mapM_stepOf {calls : List Call}
    (hback : ∀ k (c : Call), calls[k]? = some c → c.Backward (i + k)) :
    ((calls.map fun c => (c.op.name, c.args)).zipIdx i).mapM stepOf =
      some (stepsFrom i calls) := by
  induction calls generalizing i with
  | nil => rfl
  | cons c calls ih =>
    have hrest := ih (i := i + 1) fun k c' hk => by
      rw [Nat.add_right_comm]
      exact hback (k + 1) c' hk
    have hfirst := stepOf_call (i := i) (hback 0 c rfl)
    rw [List.map_cons, List.zipIdx_cons, List.mapM_cons, hfirst, hrest]
    rfl

/-- Every call of a program has its step. -/
theorem programToSteps_text (p : Program) : programToSteps p.text = some (stepsFrom 0 p.calls) := by
  have hfound : opRe.findall p.text = p.calls.map fun c => (c.op.name, c.args) :=
    findall_text p.calls
  have hne : opRe.findall p.text ≠ [] := by
    rw [hfound]
    exact fun hnil => p.ne_nil (List.map_eq_nil_iff.mp hnil)
  have htext : p.text ≠ [] := fun hnil => hne (by rw [hnil]; rfl)
  rw [programToSteps, if_neg htext, if_neg hne, hfound]
  exact mapM_stepOf fun k c hk => (Nat.zero_add k).symm ▸ p.backward k c hk

end Written

/-! ## The steps that are read -/

section Read
variable {a : Arg} {c : Call} {values : List ℚ}

/-- What is no reference is written as a number, and read as its value. -/
theorem written_cases (a : Arg) :
    (∃ j, a = .ref j) ∨ ((∀ c ∈ a.written, Decimal.isChar c ∨ c = '%') ∧
      a.written ≠ [] ∧ ∀ values, number a.written = some (a.value values)) := by
  have hint : ∀ k : ℤ, (∀ c ∈ strInt k, Decimal.isChar c ∨ c = '%') ∧ strInt k ≠ [] ∧
      number (strInt k) = some (k : ℚ) := by
    intro k
    obtain ⟨d, htext, hvalue⟩ := Decimal.exists_text_eq_strInt k
    rw [← htext, ← hvalue]
    exact ⟨fun c hc => Or.inl (Decimal.isChar_of_mem_text hc), Decimal.text_ne_nil, number_text d⟩
  cases a with
  | number d =>
    rw [Arg.written_number]
    exact Or.inr ⟨fun c hc => Or.inl (Decimal.isChar_of_mem_text hc), Decimal.text_ne_nil,
      fun _ => number_text d⟩
  | percent d =>
    rw [Arg.written_percent]
    refine Or.inr ⟨fun c hc => ?_, by simp, fun _ => number_percent d⟩
    rcases List.mem_append.mp hc with hc | hc
    · exact Or.inl (Decimal.isChar_of_mem_text hc)
    · exact Or.inr (List.mem_singleton.mp hc)
  | const k =>
    obtain ⟨hchar, hne, hnumber⟩ := hint (ofDigits k.val)
    exact Or.inr ⟨hchar, hne, fun _ => by simpa [Arg.value] using hnumber⟩
  | constM k =>
    obtain ⟨hchar, hne, hnumber⟩ := hint (-ofDigits k.val)
    exact Or.inr ⟨hchar, hne, fun _ => by simpa [Arg.value] using hnumber⟩
  | ref j => exact Or.inl ⟨j, rfl⟩

theorem written_ne_nil (a : Arg) : a.written ≠ [] := by
  rcases written_cases a with ⟨j, rfl⟩ | ⟨-, hne, -⟩
  · simp
  · exact hne

theorem newline_not_mem_written (a : Arg) : '\n' ∉ a.written := by
  rcases written_cases a with ⟨j, rfl⟩ | ⟨hchar, -, -⟩
  · rw [Arg.written_ref]
    intro hc
    rcases List.mem_append.mp hc with hc | hc
    · exact absurd hc (by decide)
    · exact absurd (isDigit_of_mem_str hc) (by decide)
  · intro hc
    rcases hchar _ hc with h | h <;> cases h

/-- No argument has anything that looks like the word between the arguments. -/
theorem quiet_written (a : Arg) : a.written.IsChain fun c d => ¬ (c = ' ' ∧ d = 'a') := by
  have hspace : ∀ s : Chars, ' ' ∉ s → s.IsChain fun c d => ¬ (c = ' ' ∧ d = 'a') := fun s hs =>
    (List.pairwise_of_forall_mem_list fun c hc d _ (h : c = ' ' ∧ d = 'a') => hs (h.1 ▸ hc)).isChain
  rcases written_cases a with ⟨j, rfl⟩ | ⟨hchar, -, -⟩
  · rw [Arg.written_ref]
    refine List.isChain_append.mpr ⟨by decide, hspace _ fun hc => ?_, fun c _ d hd h => ?_⟩
    · exact absurd (isDigit_of_mem_str hc) (by decide)
    · exact absurd (isDigit_of_mem_str (List.mem_of_mem_head? hd)) (h.2 ▸ by decide)
  · refine hspace _ fun hc => ?_
    rcases hchar _ hc with h | h <;> cases h

/-- An argument is read as its value. -/
theorem argument_written (ha : a.Backward values.length) :
    argument values a.written = some (a.value values) := by
  rcases written_cases a with ⟨j, rfl⟩ | ⟨hchar, -, hnumber⟩
  · have hlt : ofDigits j.val < values.length := ha
    rw [Arg.written_ref, argument_ref, Arg.value, List.getD_eq_getElem?_getD,
      List.getElem?_eq_getElem hlt, Option.getD_some]
  · rw [argument_eq_number hchar, hnumber]

theorem newline_not_mem_call (c : Call) : '\n' ∉ c.written := by
  have hname : '\n' ∉ c.op.name ++ " ".toList := by cases c.op <;> decide
  simp only [Call.written, List.mem_append, not_or]
  refine ⟨by simpa using hname, newline_not_mem_written _, by decide, newline_not_mem_written _,
    by decide⟩

/-- A step has no spaces around it. -/
theorem strip_written (c : Call) : strip isSpace c.written = c.written := by
  refine Trim.strip ⟨fun d hd => ?_, fun d hd => ?_⟩
  · have hhead : c.op.name.head?.all fun d => !isSpace d := by cases c.op <;> decide
    have hname : c.op.name ≠ [] := by cases c.op <;> decide
    rw [Call.written, List.append_assoc, List.head?_append_of_ne_nil _ hname] at hd
    simpa using (Option.all_eq_true _ _).mp hhead d hd
  · have hlast : c.written.getLast? = some '.' := by
      simp only [Call.written, ← List.append_assoc, List.getLast?_concat]
    rw [hlast] at hd
    cases hd
    rfl

/-- The texts of the steps that were written. -/
theorem stepTexts_stepsFrom (i : ℕ) (calls : List Call) :
    stepTexts ("\n".toList.intercalate (stepsFrom i calls)) = calls.map Call.written := by
  induction calls generalizing i with
  | nil => rfl
  | cons c calls ih =>
    have hrun (rest : Chars) := @stepRe_run _ rest (i + 1) (newline_not_mem_call c)
    cases calls with
    | nil =>
      have hfound := stepRe.findall_of_run (hrun [] (by simp))
      rw [List.append_nil] at hfound
      show (stepRe.findall ("\n".toList.intercalate [_])).map _ = _
      rw [List.intercalate_singleton, hfound]
      exact congrArg (· :: []) (strip_written c)
    | cons c' calls =>
      show (stepRe.findall ("\n".toList.intercalate (_ :: _ :: _))).map _ = _
      rw [List.intercalate_cons_cons, List.append_assoc,
        stepRe.findall_of_run (hrun ("\n".toList ++ _) fun d hd => (Option.some_inj.mp hd).symm),
        List.map_cons,
        strip_written]
      show _ :: (stepRe.findall ('\n' :: _)).map _ = _
      rw [stepRe.findall_cons (stepRe_run_newline _)]
      exact congrArg (_ :: ·) (ih (i + 1))

/-- A call is done as it was written. -/
theorem doStep_written (pow : ℚ → ℚ → Option ℚ) (hc : c.Backward values.length) :
    doStep pow values c.written =
      if c.DividesByZero values then none else some (values ++ [c.value values]) := by
  have hread : finqaStepRe c.written = some (c.op.name, c.x.arg.written, c.y.arg.written) :=
    finqaStepRe_eq (by cases c.op <;> decide) (written_ne_nil _) (written_ne_nil _)
      (newline_not_mem_written _) (newline_not_mem_written _) (quiet_written _)
  have hops : ∃ f, (finqaOps pow).lookup c.op.name = some f ∧ ∀ x y, f x y =
      if c.op = .divide ∧ y = 0 then none else some (c.op.apply x y) := by
    cases c.op with
    | add => exact ⟨_, rfl, fun x y => by simp [Op.apply]⟩
    | subtract => exact ⟨_, rfl, fun x y => by simp [Op.apply]⟩
    | multiply => exact ⟨_, rfl, fun x y => by simp [Op.apply]⟩
    | divide => exact ⟨_, rfl, fun x y => by simp [Op.apply]⟩
  obtain ⟨f, hlookup, hf⟩ := hops
  simp only [doStep, hread, Option.bind_eq_bind, Option.bind_some, argument_written hc.1,
    argument_written hc.2, hlookup, hf]
  show Option.bind (if c.DividesByZero values then none else some (c.value values)) _ = _
  split <;> rfl

/-! ## The run -/

/-- The values of some calls come after those before. -/
theorem prefix_valuesFrom (values : List ℚ) (calls : List Call) :
    values <+: valuesFrom values calls := by
  induction calls generalizing values with
  | nil => exact List.prefix_rfl
  | cons c calls ih => exact (List.prefix_append _ _).trans (ih _)

theorem length_valuesFrom (values : List ℚ) (calls : List Call) :
    (valuesFrom values calls).length = values.length + calls.length := by
  induction calls generalizing values with
  | nil => rfl
  | cons c calls ih =>
    rw [valuesFrom, List.foldl_cons, ← valuesFrom, ih, List.length_append, List.length_singleton,
      List.length_cons]
    omega

/-- Later values do not change that of an argument. -/
theorem value_of_prefix {values' : List ℚ} (hpre : values <+: values')
    (ha : a.Backward values.length) : a.value values' = a.value values := by
  cases a with
  | ref j =>
    have hlt : ofDigits j.val < values.length := ha
    obtain ⟨later, rfl⟩ := hpre
    simp only [Arg.value, List.getD_eq_getElem?_getD, List.getElem?_append_left hlt]
  | _ => rfl

/-- The steps are done unless some call divides by zero. -/
theorem foldlM_doStep (pow : ℚ → ℚ → Option ℚ) {calls : List Call}
    (hback : ∀ k (c : Call), calls[k]? = some c → c.Backward (values.length + k)) :
    (calls.map Call.written).foldlM (doStep pow) values =
      if ∃ c ∈ calls, c.DividesByZero (valuesFrom values calls) then none
      else some (valuesFrom values calls) := by
  induction calls generalizing values with
  | nil => simp [valuesFrom]
  | cons c calls ih =>
    have hc : c.Backward values.length := hback 0 c rfl
    have hback' : ∀ k (c' : Call), calls[k]? = some c' →
        c'.Backward ((values ++ [c.value values]).length + k) := fun k c' hk => by
      rw [List.length_append, List.length_singleton, Nat.add_right_comm]
      exact hback (k + 1) c' hk
    have hrest := ih hback'
    have hlater : c.DividesByZero (valuesFrom values (c :: calls)) ↔ c.DividesByZero values := by
      rw [Call.DividesByZero, value_of_prefix (prefix_valuesFrom values _) hc.2]
      rfl
    rw [List.map_cons, List.foldlM_cons, doStep_written pow hc]
    by_cases hzero : c.DividesByZero values
    · rw [if_pos hzero, if_pos ⟨c, List.mem_cons_self, hlater.mpr hzero⟩]
      rfl
    · rw [if_neg hzero]
      refine hrest.trans ?_
      simp only [List.mem_cons, exists_eq_or_imp, hlater, hzero, false_or]
      rfl

end Read

namespace Program

theorem values_ne_nil (p : Program) : p.values ≠ [] := by
  intro hnil
  have hlen := length_valuesFrom [] p.calls
  rw [← values, hnil] at hlen
  exact p.ne_nil (List.length_eq_zero_iff.mp (by simpa using hlen.symm))

/-- The value of a program is that of its last call. -/
def value (p : Program) : ℚ := p.values.getLast p.values_ne_nil

end Program

/-- The steps that are written for a program, one for each call, are read as its value, and as none
exactly when some call divides by zero. -/
theorem steps_agree (pow : ℚ → ℚ → Option ℚ) (p : Program) : ∃ steps,
    programToSteps p.text = some steps ∧ steps.length = p.calls.length ∧
      runFinqaSteps pow (stepTexts ("\n".toList.intercalate steps)) =
        if p.DividesByZero then none else some p.value := by
  refine ⟨_, programToSteps_text p, by simp [stepsFrom], ?_⟩
  have hrun : (p.calls.map Call.written).foldlM (doStep pow) [] =
      if p.DividesByZero then none else some p.values :=
    foldlM_doStep pow fun k c hk => (Nat.zero_add k).symm ▸ p.backward k c hk
  rw [stepTexts_stepsFrom, runFinqaSteps, hrun]
  by_cases hzero : p.DividesByZero
  · rw [if_pos hzero, if_pos hzero]
    rfl
  · rw [if_neg hzero, if_neg hzero]
    exact List.getLast?_eq_some_getLast p.values_ne_nil

end Linearisation

end LightServe
