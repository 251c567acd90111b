import LightServe.Lib.Text

/-!
# Programs as steps

`_program_to_steps` of `training/qlora_financial/prepare_dataset.py`: the calls of a program text,
written as one step each, with references to the steps before and constants spelled out. Programs
are texts without letters or digits beyond ASCII.

## Main definitions

* `Steps.opRe` — the calls of a program text.
* `Steps.resolve` — an argument as it stands in a step.
* `Steps.programToSteps` — the steps of a program, if all of it is understood.
-/

namespace LightServe

namespace Steps

open Text

/-- `(\w+)\(([^)]*)\)`: a word, and what stands in the brackets after it. -/
def opRe : Matcher (Chars × Chars) where
  run s :=
    match s.dropWhile isWord with
    | '(' :: args =>
      match args.dropWhile (· != ')') with
      | _ :: rest =>
        if s.takeWhile isWord = [] then none
        else some ((s.takeWhile isWord, args.takeWhile (· != ')')), rest)
      | [] => none
    | _ => none
  shorter {s a rest} h := by
    split at h
    · rename_i args hargs
      split at h
      · rename_i hrest
        split at h
        · cases h
        · simp only [Option.some.injEq, Prod.mk.injEq] at h
          have hs := (List.dropWhile_suffix (l := s) isWord).length_le
          have hr := (List.dropWhile_suffix (l := args) (· != ')')).length_le
          rw [hargs, List.length_cons] at hs
          rw [hrest, List.length_cons, h.2] at hr
          omega
      · cases h
    · cases h

section OpRe
variable {c : Char} {word args : Chars}

theorem opRe_run_of_not_isWord (hc : isWord c = false) (s : Chars) : opRe.run (c :: s) = none := by
  simp only [opRe, List.dropWhile_cons, List.takeWhile_cons, hc, Bool.false_eq_true, if_false,
    if_true]
  split
  · split <;> rfl
  · rfl

/-- A call is matched at its word. -/
theorem opRe_run (hne : word ≠ []) (hword : ∀ c ∈ word, isWord c) (hargs : ')' ∉ args)
    (rest : Chars) :
    opRe.run (word ++ '(' :: (args ++ ')' :: rest)) = some ((word, args), rest) := by
  have hargs' : ∀ c ∈ args, (c != ')') = true := fun c hc =>
    bne_iff_ne.mpr fun heq => hargs (heq ▸ hc)
  obtain ⟨htake, hdrop⟩ := takeWhile_append_cons hword
    (show isWord '(' = false by decide) (args ++ ')' :: rest)
  obtain ⟨htake', hdrop'⟩ := takeWhile_append_cons hargs'
    (show (')' != ')') = false by decide) rest
  simp only [opRe, htake, hdrop, htake', hdrop', if_neg hne]

end OpRe

/-- The words of the operators. -/
def opWords : List (Chars × Chars) :=
  [("add".toList, "add".toList),
   ("subtract".toList, "subtract".toList),
   ("multiply".toList, "multiply".toList),
   ("divide".toList, "divide".toList),
   ("exp".toList, "raise to the power of".toList),
   ("greater".toList, "compare (greater than)".toList),
   ("table_max".toList, "take the max of".toList),
   ("table_min".toList, "take the min of".toList),
   ("table_sum".toList, "sum".toList),
   ("table_average".toList, "average".toList)]

/-- `^#(\d+)$`: the number of an earlier call. -/
def refRe : Chars → Option ℕ
  | '#' :: s => if isDigits (chomp s) then some (ofDigits (chomp s)) else none
  | _ => none

/-- `^const_(m?\d+)$`: the value of a constant. -/
def constRe (a : Chars) : Option ℤ :=
  (after "const_".toList a).bind fun s =>
    match chomp s with
    | 'm' :: ds => if isDigits ds then some (-ofDigits ds) else none
    | ds => if isDigits ds then some (ofDigits ds) else none

/-- An argument of a call as it stands in the step, unless it refers to a call that is not an
earlier one. -/
def resolve (i : ℕ) (a : Chars) : Option Chars :=
  match refRe a, constRe a with
  | some ref, _ => if i ≤ ref then none else some ("the result of step ".toList ++ str (ref + 1))
  | none, some value => some (strInt value)
  | none, none => some a

/-- The step of a call. -/
def stepOf (call : (Chars × Chars) × ℕ) : Option Chars := do
  let ((op, args), i) := call
  let word ← opWords.lookup op
  let resolved ← (args.splitOn ',').mapM fun a => resolve i (strip isSpace a)
  some ("Step ".toList ++ str (i + 1) ++ ": ".toList ++
    (word ++ " ".toList ++ (" and ".toList.intercalate resolved ++ ".".toList)))

/-- The steps of a program. -/
def programToSteps (program : Chars) : Option (List Chars) :=
  if program = [] then none
  else if opRe.findall program = [] then none
  else (opRe.findall program).zipIdx.mapM stepOf

end Steps

end LightServe
