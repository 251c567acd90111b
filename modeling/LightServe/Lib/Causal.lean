import Mathlib.Data.List.Induction
import Mathlib.Data.List.TakeDrop
import Mathlib.Data.Nat.Notation
import Mathlib.Tactic.TypeStar

/-!
# Causal models with a cache

A causal model reads a sequence token by token. It keeps one cache entry for each token, which
depends on the token and on the entries before it, and it samples from the entries up to a
token. Reading a sequence in chunks, each on top of the entries of the earlier ones, leaves the
entries that reading it at once does.

## Main definitions

* `CausalModel` — what an entry is, and what is sampled.
* `CausalModel.cache` — the entries of a sequence.
* `CausalModel.next` — the token sampled after a sequence.
* `CausalModel.rows` — what is sampled after each token of a chunk.
* `CausalModel.prefixes` — the model whose entries are prefixes of the sequence.
-/

/-- A causal model over tokens `τ` with cache entries `κ`. -/
structure CausalModel (τ κ : Type*) where
  /-- The entry of a token after the entries before it. -/
  encode : List κ → τ → κ
  /-- The token sampled from the entries so far. -/
  sample : List κ → τ

namespace CausalModel
variable {τ κ : Type*} (m : CausalModel τ κ)

/-- The entries of a chunk that follows `context`. -/
def entries (context : List κ) : List τ → List κ
  | [] => []
  | t :: ts => m.encode context t :: entries (context ++ [m.encode context t]) ts

/-- The entries of a sequence. -/
def cache (ts : List τ) : List κ := m.entries [] ts

/-- The token sampled after a sequence. -/
def next (ts : List τ) : τ := m.sample (m.cache ts)

/-- What is sampled after each token of a chunk that follows `context`. -/
def rows (context : List κ) (ts : List τ) : List τ :=
  (List.range ts.length).map fun j => m.sample (context ++ (m.entries context ts).take (j + 1))

variable (context : List κ) (a b ts : List τ) (n : ℕ)

@[simp] theorem entries_nil : m.entries context [] = [] := rfl

@[simp] theorem length_entries : (m.entries context ts).length = ts.length := by
  induction ts generalizing context with
  | nil => rfl
  | cons t ts ih => simp [entries, ih]

theorem entries_append :
    m.entries context (a ++ b) =
    m.entries context a ++ m.entries (context ++ m.entries context a) b := by
  induction a generalizing context with
  | nil => simp
  | cons t a ih => simp [entries, ih]

theorem take_entries : (m.entries context ts).take n = m.entries context (ts.take n) := by
  induction ts generalizing context n with
  | nil => simp
  | cons t ts ih =>
    cases n with
    | zero => simp
    | succ n => simp [entries, ih]

@[simp] theorem cache_nil : m.cache [] = [] := rfl

@[simp] theorem length_cache : (m.cache ts).length = ts.length := m.length_entries [] ts

/-- A chunk on top of the entries of what came before. -/
theorem cache_append : m.cache (a ++ b) = m.cache a ++ m.entries (m.cache a) b := by
  simpa only [cache, List.nil_append] using m.entries_append [] a b

theorem take_cache : (m.cache ts).take n = m.cache (ts.take n) := m.take_entries [] ts n

/-- The entries of a sequence begin with those of its prefixes. -/
theorem getElem?_cache_take {p : ℕ} (h : p < n) : (m.cache (ts.take n))[p]? = (m.cache ts)[p]? := by
  rw [← take_cache, List.getElem?_take_of_lt h]

/-- The entry of a token is the last one of the prefix that ends with it. -/
theorem getLast?_cache_take {p : ℕ} {x : κ} (h : (m.cache ts)[p]? = some x) :
    (m.cache (ts.take (p + 1))).getLast? = some x := by
  rw [← take_cache, List.getLast?_take, if_neg p.succ_ne_zero, Nat.add_sub_cancel, h,
    Option.some_or]

/-- An entry depends on the tokens up to its own only. -/
theorem getElem?_cache_append {p : ℕ} (h : p < a.length) :
    (m.cache (a ++ b))[p]? = (m.cache a)[p]? := by
  rw [cache_append, List.getElem?_append_left (by simpa using h)]

/-! ## Prefixes as entries -/

/-- The model whose entry of a token is the sequence up to it. -/
def prefixes (next : List τ → τ) : CausalModel τ (List τ) where
  encode context t := context.getLast?.getD [] ++ [t]
  sample entries := next (entries.getLast?.getD [])

omit m in
private theorem getLast?_prefixes (ts : List τ) :
    ((List.range ts.length).map fun p => ts.take (p + 1)).getLast?.getD [] = ts := by
  cases hlen : ts.length with
  | zero =>
    rw [List.length_eq_zero_iff.mp hlen]
    rfl
  | succ n =>
    rw [List.range_succ, List.map_append, List.map_singleton, List.getLast?_concat,
      Option.getD_some, ← hlen, List.take_length]

/-- The entries of a sequence are its prefixes. -/
theorem cache_prefixes (next : List τ → τ) (ts : List τ) :
    (prefixes next).cache ts = (List.range ts.length).map fun p => ts.take (p + 1) := by
  induction ts using List.reverseRecOn with
  | nil => rfl
  | append_singleton ts t ih =>
    have hlast : (prefixes next).encode ((prefixes next).cache ts) t = ts ++ [t] := by
      rw [ih]
      exact congrArg (fun ts => ts ++ [t]) (getLast?_prefixes ts)
    rw [cache_append, entries, entries_nil, hlast, ih, List.length_append, List.length_singleton,
      List.range_succ, List.map_append, List.map_singleton, List.take_of_length_le (by simp)]
    refine congrArg (fun l => l ++ [ts ++ [t]]) (List.map_congr_left fun p hp => ?_)
    exact (List.take_append_of_le_length (List.mem_range.mp hp)).symm

/-- It samples what it is told to. -/
@[simp] theorem next_prefixes (next : List τ → τ) (ts : List τ) :
    (prefixes next).next ts = next ts := by
  rw [CausalModel.next, cache_prefixes]
  exact congrArg next (getLast?_prefixes ts)

end CausalModel
