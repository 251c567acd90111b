import LightServe.Lib.Text
import Mathlib.Data.List.Sort

/-!
# Core lists and interrupts

`parse_cpulist`, `_cpulist` and `_irqs` of `infra/os/topology.py`: Linux's format of core lists, and
the numbered interrupts with the cores that may handle them. An error is `none`. The kernel's texts
are ASCII.

## Main definitions

* `CpuTopology.parseCpulist`, `CpuTopology.cpulist` — a core list read and written.
* `CpuTopology.irqs` — the numbered interrupts.
-/

namespace LightServe

namespace CpuTopology

open Text

/-- The text before and behind the first of a character; all of it, and nothing, without one. -/
def partition (c : Char) (s : Chars) : Chars × Chars :=
  (s.takeWhile (· ≠ c), (s.dropWhile (· ≠ c)).tail)

/-- The numbers from `lo` to `hi`. -/
def between (lo hi : ℤ) : List ℕ := List.range' lo.toNat (hi + 1 - lo).toNat

/-- The cores of one part of a core list. -/
def parsePart (part : Chars) : Option (List ℕ) := do
  let (lo, hi) := partition '-' part
  return between (← int lo) (← int (if hi = [] then lo else hi))

/-- The cores of a core list. -/
def parseCpulist (text : Chars) : Option (List ℕ) := do
  let cpus ← (((strip isSpace text).splitOn ',').filter (· ≠ [])).mapM parsePart
  return cpus.flatten

/-- The runs of neighbours in sorted cores, the first of which goes from `lo` to `hi` so far. -/
def runs (lo hi : ℕ) : List ℕ → List (ℕ × ℕ)
  | [] => [(lo, hi)]
  | c :: cpus => if c = hi + 1 then runs lo c cpus else (lo, hi) :: runs c c cpus

/-- A run as it is written. -/
def runText (run : ℕ × ℕ) : Chars :=
  if run.1 = run.2 then str run.1 else str run.1 ++ '-' :: str run.2

/-- Cores as a core list. -/
def cpulist (cpus : List ℕ) : Chars :=
  match cpus.insertionSort (· ≤ ·) with
  | [] => []
  | c :: cpus => [','].intercalate ((runs c c cpus).map runText)

example : cpulist [5, 0, 2, 1] = "0-2,5".toList := by decide +kernel

/-- The words of a text. -/
def words (s : Chars) : List Chars := (s.splitOnP isSpace).filter (· ≠ [])

/-- A numbered interrupt: its device, its count, and the cores that may handle it. -/
structure Irq where
  irq : ℕ
  device : Chars
  count : ℤ
  cpus : List ℕ

/-- The interrupt of a line; none in a line without a number. -/
def irqLine (affinity : ℕ → Option Chars) (nCpus : ℕ) (line : Chars) : Option (Option Irq) :=
  let (head, rest) := partition ':' line
  let head := strip isSpace head
  if !isDigits head then some none
  else do
    let parts := words rest
    let irq := ofDigits head
    let device ← parts.getLast?
    let counts ← (parts.take nCpus).mapM int
    let cpus ← parseCpulist (((affinity irq).map (strip isSpace)).getD [])
    return some { irq, device, count := counts.sum, cpus }

/-- The numbered interrupts, from the list of them and their affinities. -/
def irqs (interrupts : Option Chars) (affinity : ℕ → Option Chars) : Option (List Irq) :=
  match ((interrupts.map (strip isSpace)).getD []).splitOn '\n' with
  | [] => some []
  | header :: lines => do
    let irqs ← lines.mapM (irqLine affinity (words header).length)
    return irqs.reduceOption

end CpuTopology

end LightServe
