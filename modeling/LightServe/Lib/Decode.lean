import Mathlib.Data.List.TakeDrop
import Mathlib.Data.Nat.Notation
import Mathlib.Tactic.TypeStar

/-!
# Greedy decoding

A next-token function extends a prompt one token at a time until a stop rule fires on the
output. Whatever produces the output, one token at a time or several, it is the output of
`decode` when every token of it is the next one and the rule fired at no shorter length.

## Main definitions

* `Greedy` — every token is the next one after those before it.
* `decode` — decoding one token at a time.
* `Decoding` — a greedy output that the stop rule let grow.
* `verify` — the tokens that a greedy check of a draft keeps.
-/

namespace Decode

variable {α σ : Type*}

/-! ## Greedy outputs -/

/-- Every token of `out` is the next one after `ctx` and the tokens before it. -/
def Greedy (next : List α → α) (ctx : List α) : List α → Prop
  | [] => True
  | t :: out => t = next ctx ∧ Greedy next (ctx ++ [t]) out

section Greedy
variable {next : List α → α} {ctx a b : List α}

@[simp] theorem greedy_nil : Greedy next ctx [] := trivial

@[simp] theorem greedy_cons {t : α} :
    Greedy next ctx (t :: a) ↔ t = next ctx ∧ Greedy next (ctx ++ [t]) a := Iff.rfl

theorem greedy_append :
    Greedy next ctx (a ++ b) ↔ Greedy next ctx a ∧ Greedy next (ctx ++ a) b := by
  induction a generalizing ctx with
  | nil => simp
  | cons t a ih => simp [ih, and_assoc]

theorem Greedy.take (h : Greedy next ctx a) (n : ℕ) : Greedy next ctx (a.take n) := by
  rw [← List.take_append_drop n a, greedy_append] at h
  exact h.1

end Greedy

/-! ## The reference -/

/-- Extend `out` one token at a time until the stop rule fires, by at most `fuel` tokens. -/
def decode (next : List α → α) (stop : List α → Option σ) (prompt : List α) :
    ℕ → List α → List α × Option σ
  | 0, out => (out, none)
  | fuel + 1, out =>
    match stop (out ++ [next (prompt ++ out)]) with
    | some status => (out ++ [next (prompt ++ out)], some status)
    | none => decode next stop prompt fuel (out ++ [next (prompt ++ out)])

/-- A status of `decode` is what the stop rule says of its output. -/
theorem stop_of_decode {next : List α → α} {stop : List α → Option σ} {prompt out res : List α}
    {fuel : ℕ} {status : σ} (h : decode next stop prompt fuel out = (res, some status)) :
    stop res = some status := by
  induction fuel generalizing out with
  | zero => cases h
  | succ fuel ih =>
    rw [decode] at h
    split at h
    · rename_i hstop
      cases h
      exact hstop
    · exact ih h

/-- A greedy output that the stop rule let grow: it fired on no proper prefix. -/
structure Decoding (next : List α → α) (stop : List α → Option σ) (prompt out : List α) :
    Prop where
  greedy : Greedy next prompt out
  goes_on : ∀ k, k < out.length → stop (out.take k) = none

namespace Decoding
variable {next : List α → α} {stop : List α → Option σ} {prompt out new : List α}

theorem nil : Decoding next stop prompt [] := ⟨trivial, by simp⟩

/-- An output may grow by greedy tokens as long as the rule does not fire before the last. -/
theorem append (h : Decoding next stop prompt out) (hnew : Greedy next (prompt ++ out) new)
    (hgo : ∀ k, k < new.length → stop (out ++ new.take k) = none) :
    Decoding next stop prompt (out ++ new) where
  greedy := greedy_append.mpr ⟨h.greedy, hnew⟩
  goes_on k hk := by
    rcases Nat.lt_or_ge k out.length with hlt | hge
    · rw [List.take_append_of_le_length (Nat.le_of_lt hlt)]
      exact h.goes_on k hlt
    · obtain ⟨j, rfl⟩ := Nat.exists_eq_add_of_le hge
      rw [List.take_length_add_append]
      refine hgo j ?_
      rw [List.length_append] at hk
      omega

private theorem decode_append {status : σ} (hnew : Greedy next (prompt ++ out) new)
    (hgo : ∀ k, k < new.length → stop (out ++ new.take k) = none) (hne : new ≠ [])
    (hstop : stop (out ++ new) = some status) {fuel : ℕ} (hfuel : new.length ≤ fuel) :
    decode next stop prompt fuel out = (out ++ new, some status) := by
  induction new generalizing out fuel with
  | nil => exact absurd rfl hne
  | cons t new ih =>
    obtain ⟨rfl, hnew⟩ := greedy_cons.mp hnew
    rw [List.length_cons] at hfuel
    obtain ⟨fuel, rfl⟩ := Nat.exists_eq_add_of_le' (Nat.le_of_add_left_le hfuel)
    rw [decode]
    cases new with
    | nil => rw [hstop]
    | cons u new =>
      have hnone : stop (out ++ [next (prompt ++ out)]) = none := by simpa using hgo 1 (by simp)
      rw [hnone, List.append_cons out _ (u :: new)]
      rw [List.append_cons out _ (u :: new)] at hstop
      refine ih ?_ (fun k hk => ?_) (by simp) hstop (Nat.le_of_succ_le_succ hfuel)
      · rwa [← List.append_assoc]
      · simpa using hgo (k + 1) (Nat.succ_lt_succ hk)

/-- Such an output, once the rule fires on it, is the output of `decode`. -/
theorem decode_eq (h : Decoding next stop prompt out) (hne : out ≠ []) {status : σ}
    (hstop : stop out = some status) {fuel : ℕ} (hfuel : out.length ≤ fuel) :
    decode next stop prompt fuel [] = (out, some status) :=
  decode_append (by simpa using h.greedy) h.goes_on hne hstop hfuel

private theorem decode_grow (hnew : Greedy next (prompt ++ out) new)
    (hgo : ∀ k, k < new.length → stop (out ++ new.take (k + 1)) = none) :
    decode next stop prompt new.length out = (out ++ new, none) := by
  induction new generalizing out with
  | nil => rw [List.length_nil, decode, List.append_nil]
  | cons t new ih =>
    obtain ⟨rfl, hnew⟩ := greedy_cons.mp hnew
    have hnone : stop (out ++ [next (prompt ++ out)]) = none := by simpa using hgo 0 (by simp)
    rw [List.length_cons, decode, hnone, List.append_cons out _ new]
    refine ih (by rwa [← List.append_assoc]) fun k hk => ?_
    simpa using hgo (k + 1) (Nat.succ_lt_succ hk)

/-- Such an output, as long as the rule does not fire on it, is what `decode` has by then. -/
theorem decode_length (h : Decoding next stop prompt out) (hstop : stop out = none) :
    decode next stop prompt out.length [] = (out, none) := by
  refine decode_grow (by simpa using h.greedy) fun k hk => ?_
  rw [List.nil_append]
  rcases Nat.lt_or_ge (k + 1) out.length with hlt | hge
  · exact h.goes_on (k + 1) hlt
  · rw [List.take_of_length_le hge]
    exact hstop

end Decoding

/-! ## Verification of a draft -/

section Verify
variable [DecidableEq α]

/-- The next tokens up to and including the first that differs from the draft, and one more
after a draft that was right throughout. -/
def verify (next : List α → α) (ctx : List α) : List α → List α
  | [] => [next ctx]
  | d :: draft =>
    if d ≠ next ctx then [next ctx] else next ctx :: verify next (ctx ++ [d]) draft

variable (next : List α → α) (ctx draft : List α)

/-- Whatever the draft proposes, what is kept is greedy. -/
theorem greedy_verify : Greedy next ctx (verify next ctx draft) := by
  induction draft generalizing ctx with
  | nil => simp [verify]
  | cons d draft ih =>
    rw [verify]
    split
    · simp
    · rename_i hd
      rw [not_not] at hd
      subst hd
      exact ⟨rfl, ih _⟩

theorem verify_ne_nil : verify next ctx draft ≠ [] := by
  cases draft with
  | nil => simp [verify]
  | cons d draft =>
    rw [verify]
    split <;> simp

theorem length_verify_le : (verify next ctx draft).length ≤ draft.length + 1 := by
  induction draft generalizing ctx with
  | nil => simp [verify]
  | cons d draft ih =>
    rw [verify]
    split
    · simp
    · simpa using ih _

/-- Only the last token that is kept can differ from the draft. -/
theorem getElem?_verify {i : ℕ} (hi : i + 1 < (verify next ctx draft).length) :
    draft[i]? = (verify next ctx draft)[i]? := by
  induction draft generalizing ctx i with
  | nil => simp [verify] at hi
  | cons d draft ih =>
    rw [verify] at hi ⊢
    split at hi
    · simp at hi
    · rename_i hd
      rw [if_neg hd]
      cases i with
      | zero => simpa using hd
      | succ i => simpa using ih (ctx ++ [d]) (i := i) (by simpa using hi)

/-- What is kept ends with a token that differs from the draft, or after all of it. -/
theorem verify_ends : (verify next ctx draft).length = draft.length + 1 ∨
    draft[(verify next ctx draft).length - 1]? ≠
      (verify next ctx draft)[(verify next ctx draft).length - 1]? := by
  induction draft generalizing ctx with
  | nil => simp [verify]
  | cons d draft ih =>
    rw [verify]
    split
    · rename_i hd
      simpa using hd
    · have hpos := List.length_pos_iff.mpr (verify_ne_nil next (ctx ++ [d]) draft)
      obtain ⟨k, hk⟩ := Nat.exists_eq_add_of_le' hpos
      have hrest := ih (ctx ++ [d])
      rw [hk] at hrest
      simpa [hk] using hrest

end Verify

end Decode
