import LightServe.Infra.Topology

/-!
# Core lists there and back

A core list is numbers and ranges between commas. Every such text is read as the cores that it
denotes; cores are written as the ranges between their gaps, and so read as themselves again, in
order.

## Main definitions

* `CpuTopology.CpuItem` — a number or a range as it is written, with the cores that it denotes.
* `CpuTopology.CpuText` — the texts of Linux's format, with the cores that they denote.
* `CpuTopology.Apart` — ranges with a gap between any two.
* `CpuTopology.parseCpulist_text` — texts are read as what they denote.
* `CpuTopology.parseCpulist_cpulist` — cores are read as they were written.
-/

namespace LightServe

namespace CpuTopology

open Text

/-! ## Linux's format -/

/-- The digits of a number, leading zeros included. -/
structure Numeral where
  text : Chars
  isDigits : isDigits text

namespace Numeral

def value (n : Numeral) : ℕ := ofDigits n.text

def ofNat (n : ℕ) : Numeral := ⟨str n, isDigits_str n⟩

@[simp] theorem value_ofNat (n : ℕ) : (ofNat n).value = n := ofDigits_str n

variable {n : Numeral} {c : Char}

theorem text_ne_nil : n.text ≠ [] := (isDigits_iff.mp n.isDigits).1

theorem notMem_text (hc : c.isDigit = false) : c ∉ n.text := fun hmem =>
  ne_of_isDigit ((isDigits_iff.mp n.isDigits).2 c hmem) hc rfl

theorem int_text : int n.text = some (n.value : ℤ) := int_of_isDigits n.isDigits

end Numeral

/-- A number or a range. -/
inductive CpuItem
  | number (n : Numeral)
  | range (lo hi : Numeral)

namespace CpuItem

def text : CpuItem → Chars
  | number n => n.text
  | range lo hi => lo.text ++ '-' :: hi.text

/-- The cores from `lo` to `hi`. -/
def span (run : ℕ × ℕ) : List ℕ := List.range' run.1 (run.2 + 1 - run.1)

/-- The cores of an item; a range that goes down has none. -/
def cpus : CpuItem → List ℕ
  | number n => [n.value]
  | range lo hi => span (lo.value, hi.value)

/-- The item that a run is written as. -/
def ofRun (run : ℕ × ℕ) : CpuItem :=
  if run.1 = run.2 then number (.ofNat run.1) else range (.ofNat run.1) (.ofNat run.2)

theorem mem_span {run : ℕ × ℕ} {c : ℕ} : c ∈ span run ↔ run.1 ≤ c ∧ c ≤ run.2 := by
  rw [span, List.mem_range'_1]
  omega

theorem text_ofRun (run : ℕ × ℕ) : (ofRun run).text = runText run := by
  rw [ofRun, runText]
  split_ifs <;> rfl

theorem cpus_ofRun (run : ℕ × ℕ) : (ofRun run).cpus = span run := by
  rw [ofRun]
  split_ifs with heq
  · rw [cpus, span, Numeral.value_ofNat, heq, Nat.add_sub_cancel_left, List.range'_one]
  · rw [cpus, Numeral.value_ofNat, Numeral.value_ofNat]

variable {item : CpuItem} {c : Char}

theorem text_ne_nil : item.text ≠ [] := by
  cases item with
  | number n => exact n.text_ne_nil
  | range lo hi => simp [text]

theorem notMem_text (hc : c.isDigit = false) (hdash : c ≠ '-') : c ∉ item.text := by
  cases item with
  | number n => exact n.notMem_text hc
  | range lo hi =>
    simp only [text, List.mem_append, List.mem_cons, not_or]
    exact ⟨lo.notMem_text hc, hdash, hi.notMem_text hc⟩

end CpuItem

/-- A text of Linux's format: items between commas, with whitespace around them. -/
structure CpuText where
  items : List CpuItem
  pre : Chars
  post : Chars
  pre_isSpace : ∀ c ∈ pre, isSpace c
  post_isSpace : ∀ c ∈ post, isSpace c

namespace CpuText

/-- The items between commas. -/
def body (t : CpuText) : Chars := [','].intercalate (t.items.map CpuItem.text)

def text (t : CpuText) : Chars := t.pre ++ (t.body ++ t.post)

/-- The cores that a text denotes, in its order. -/
def cpus (t : CpuText) : List ℕ := t.items.flatMap CpuItem.cpus

/-- Runs as they are written. -/
def ofRuns (rs : List (ℕ × ℕ)) : CpuText :=
  ⟨rs.map .ofRun, [], [], by simp, by simp⟩

theorem text_ofRuns (rs : List (ℕ × ℕ)) :
    (ofRuns rs).text = [','].intercalate (rs.map runText) := by
  simp [text, body, ofRuns, CpuItem.text_ofRun, Function.comp_def]

theorem cpus_ofRuns (rs : List (ℕ × ℕ)) : (ofRuns rs).cpus = rs.flatMap CpuItem.span := by
  simp [cpus, ofRuns, List.flatMap_map, CpuItem.cpus_ofRun]

end CpuText

/-! ## Reading -/

theorem CpuItem.isSpace_of_mem_text {item : CpuItem} {c : Char} (hc : c ∈ item.text) :
    isSpace c = false := by
  have hdigits : ∀ n : Numeral, c ∈ n.text → isSpace c = false := fun n hc =>
    isSpace_of_isDigit ((isDigits_iff.mp n.isDigits).2 c hc)
  cases item with
  | number n => exact hdigits n hc
  | range lo hi =>
    rcases List.mem_append.mp hc with hc | hc
    · exact hdigits lo hc
    · rcases List.mem_cons.mp hc with rfl | hc
      · rfl
      · exact hdigits hi hc

theorem mem_intercalate {sep : Char} {parts : List Chars} {c : Char}
    (hc : c ∈ [sep].intercalate parts) : c = sep ∨ ∃ part ∈ parts, c ∈ part := by
  induction parts with
  | nil => cases hc
  | cons part parts ih =>
    rcases eq_or_ne parts [] with rfl | hne
    · exact .inr ⟨part, by simp, by simpa using hc⟩
    · rw [List.intercalate_cons_of_ne_nil hne, List.append_assoc] at hc
      rcases List.mem_append.mp hc with hc | hc
      · exact .inr ⟨part, List.mem_cons_self, hc⟩
      · rcases List.mem_cons.mp hc with rfl | hc
        · exact .inl rfl
        · refine (ih hc).imp_right fun hpart => ?_
          obtain ⟨part', hmem, hc⟩ := hpart
          exact ⟨part', List.mem_cons_of_mem _ hmem, hc⟩

theorem intercalate_ne_nil {sep : Char} {part : Chars} (hpart : part ≠ []) (parts : List Chars) :
    [sep].intercalate (part :: parts) ≠ [] := by
  rcases eq_or_ne parts [] with rfl | hne
  · simpa using hpart
  · simp [List.intercalate_cons_of_ne_nil hne]

section Reading
variable {s : Chars}

theorem partition_of_notMem {c : Char} (h : c ∉ s) : partition c s = (s, []) := by
  have hs : ∀ d ∈ s, decide (d ≠ c) := fun d hd => decide_eq_true fun heq => h (heq ▸ hd)
  rw [partition, List.takeWhile_eq_self_iff.mpr hs, List.dropWhile_eq_nil_iff.mpr hs, List.tail_nil]

theorem partition_append_cons {c : Char} (h : c ∉ s) (rest : Chars) :
    partition c (s ++ c :: rest) = (s, rest) := by
  have hs : ∀ d ∈ s, decide (d ≠ c) := fun d hd => decide_eq_true fun heq => h (heq ▸ hd)
  obtain ⟨htake, hdrop⟩ := takeWhile_append_cons hs (decide_eq_false fun hc => hc rfl) rest
  rw [partition, htake, hdrop, List.tail_cons]

theorem between_natCast (lo hi : ℕ) : between lo hi = CpuItem.span (lo, hi) := by
  rw [between, CpuItem.span]
  congr 1
  omega

theorem parsePart_text (item : CpuItem) : parsePart item.text = some item.cpus := by
  cases item with
  | number n =>
    have hone : between n.value n.value = [n.value] := by
      rw [between_natCast, CpuItem.span, Nat.add_sub_cancel_left, List.range'_one]
    rw [parsePart, CpuItem.text, partition_of_notMem (n.notMem_text rfl)]
    simp [n.int_text, hone, CpuItem.cpus]
  | range lo hi =>
    rw [parsePart, CpuItem.text, partition_append_cons (lo.notMem_text rfl)]
    simp [lo.int_text, hi.int_text, hi.text_ne_nil, between_natCast, CpuItem.cpus]

theorem mapM_parsePart (items : List CpuItem) :
    (items.map CpuItem.text).mapM parsePart = some (items.map CpuItem.cpus) := by
  induction items with
  | nil => rfl
  | cons item items ih =>
    rw [List.map_cons, List.mapM_cons, parsePart_text, ih]
    rfl

theorem CpuText.strip_text (t : CpuText) : strip isSpace t.text = t.body := by
  rcases eq_or_ne t.items [] with hnil | hne
  · have hall : ∀ c ∈ t.pre ++ t.post, isSpace c := by
      intro c hc
      rcases List.mem_append.mp hc with hc | hc
      · exact t.pre_isSpace c hc
      · exact t.post_isSpace c hc
    simp [text, body, hnil, strip, List.dropWhile_eq_nil_iff.mpr hall]
  · refine Trim.strip_append (Trim.of_forall fun c hc => ?_) t.pre_isSpace t.post_isSpace ?_
    · rcases mem_intercalate hc with rfl | ⟨part, hpart, hc⟩
      · rfl
      · obtain ⟨item, -, rfl⟩ := List.mem_map.mp hpart
        exact item.isSpace_of_mem_text hc
    · obtain ⟨item, items, hitems⟩ := List.exists_cons_of_ne_nil hne
      rw [body, hitems, List.map_cons]
      exact intercalate_ne_nil item.text_ne_nil _

/-- A text is read as the cores that it denotes. -/
theorem parseCpulist_text (t : CpuText) : parseCpulist t.text = some t.cpus := by
  have hparts : ((strip isSpace t.text).splitOn ',').filter (· ≠ []) =
      t.items.map CpuItem.text := by
    have hcomma : ∀ part ∈ t.items.map CpuItem.text, ',' ∉ part := by
      intro part hpart
      obtain ⟨item, -, rfl⟩ := List.mem_map.mp hpart
      exact item.notMem_text rfl (by decide)
    have hkept : ∀ part ∈ t.items.map CpuItem.text, decide (part ≠ []) := by
      intro part hpart
      obtain ⟨item, -, rfl⟩ := List.mem_map.mp hpart
      exact decide_eq_true item.text_ne_nil
    rw [t.strip_text, CpuText.body]
    rcases eq_or_ne t.items [] with hnil | hne
    · simp [hnil]
    · rw [List.splitOn_intercalate _ hcomma (by simpa using hne), List.filter_eq_self.mpr hkept]
  rw [parseCpulist, hparts, mapM_parsePart]
  rfl

end Reading

/-! ## Writing -/

/-- Ranges, in order, with a gap between any two: none could be merged. -/
structure Apart (rs : List (ℕ × ℕ)) : Prop where
  le : ∀ r ∈ rs, r.1 ≤ r.2
  gap : rs.Pairwise fun r r' => r.2 + 1 < r'.1

section Writing
variable {lo hi : ℕ} {cpus : List ℕ} {rs : List (ℕ × ℕ)}

theorem Apart.pairwise (h : Apart rs) : (rs.flatMap CpuItem.span).Pairwise (· < ·) := by
  refine List.pairwise_flatMap.mpr ⟨fun r _ => List.pairwise_lt_range' .., ?_⟩
  refine h.gap.imp fun hgap c hc c' hc' => ?_
  rw [CpuItem.mem_span] at hc hc'
  omega

/-- The runs of sorted cores. -/
theorem runs_spec (hle : lo ≤ hi) (hsorted : (hi :: cpus).Pairwise (· < ·)) :
    Apart (runs lo hi cpus) ∧ (∀ r ∈ runs lo hi cpus, lo ≤ r.1) ∧
      (runs lo hi cpus).flatMap CpuItem.span = CpuItem.span (lo, hi) ++ cpus := by
  induction cpus generalizing lo hi with
  | nil =>
    refine ⟨⟨?_, List.pairwise_singleton _ _⟩, ?_, by simp [runs]⟩
    · simpa [runs] using hle
    · simp [runs]
  | cons c cpus ih =>
    obtain ⟨hhead, htail⟩ := List.pairwise_cons.mp hsorted
    have hlt := hhead c List.mem_cons_self
    rw [runs]
    split_ifs with hc
    · have hle' : lo ≤ c := hle.trans hlt.le
      obtain ⟨hapart, hfrom, hflat⟩ := ih hle' htail
      refine ⟨hapart, hfrom, hflat.trans ?_⟩
      have hspan : CpuItem.span (lo, c) = CpuItem.span (lo, hi) ++ [c] := by
        obtain ⟨n, rfl⟩ := Nat.exists_eq_add_of_le hle
        have hlen : lo + n + 1 - lo = n + 1 := by omega
        have hlen' : c + 1 - lo = n + 1 + 1 := by omega
        rw [CpuItem.span, CpuItem.span, hlen, hlen', List.range'_concat, Nat.one_mul, hc,
          Nat.add_assoc]
      rw [hspan, List.append_assoc, List.singleton_append]
    · obtain ⟨hapart, hfrom, hflat⟩ := ih le_rfl htail
      refine ⟨⟨List.forall_mem_cons.mpr ⟨hle, hapart.le⟩, List.pairwise_cons.mpr ⟨?_, hapart.gap⟩⟩,
        List.forall_mem_cons.mpr ⟨le_rfl, ?_⟩, ?_⟩
      · intro r hr
        have := hfrom r hr
        dsimp only
        omega
      · intro r hr
        exact (hle.trans hlt.le).trans (hfrom r hr)
      · have hone : CpuItem.span (c, c) = [c] := by
          rw [CpuItem.span, Nat.add_sub_cancel_left, List.range'_one]
        rw [List.flatMap_cons, hflat, hone, List.singleton_append]

/-- Cores are written as their runs. -/
theorem cpulist_eq (hnodup : cpus.Nodup) :
    ∃ rs, Apart rs ∧ cpulist cpus = [','].intercalate (rs.map runText) ∧
      rs.flatMap CpuItem.span = cpus.insertionSort (· ≤ ·) := by
  have hsorted : (cpus.insertionSort (· ≤ ·)).Pairwise (· < ·) := by
    have hle := List.pairwise_insertionSort (· ≤ ·) cpus
    have hne : (cpus.insertionSort (· ≤ ·)).Nodup :=
      (List.perm_insertionSort (· ≤ ·) cpus).nodup_iff.mpr hnodup
    exact hle.imp₂ (fun _ _ hle hne => lt_of_le_of_ne hle hne) hne
  rw [cpulist]
  cases hsort : cpus.insertionSort (· ≤ ·) with
  | nil => exact ⟨[], ⟨by simp, .nil⟩, rfl, rfl⟩
  | cons c rest =>
    rw [hsort] at hsorted
    obtain ⟨hapart, -, hflat⟩ := runs_spec le_rfl hsorted
    refine ⟨runs c c rest, hapart, rfl, hflat.trans ?_⟩
    rw [CpuItem.span, Nat.add_sub_cancel_left, List.range'_one, List.singleton_append]

end Writing

/-- Cores are written as their maximal runs and read as themselves, in order. A text is read as
what it denotes, and what is written of that denotes the same. -/
theorem parseCpulist_cpulist :
    (∀ cpus : List ℕ, cpus.Nodup →
      (∃ rs, Apart rs ∧ cpulist cpus = [','].intercalate (rs.map runText)) ∧
      ∃ l, parseCpulist (cpulist cpus) = some l ∧ l.Pairwise (· < ·) ∧ ∀ c, c ∈ l ↔ c ∈ cpus) ∧
    ∀ t : CpuText, t.cpus.Nodup → ∃ l, parseCpulist t.text = some l ∧
      ∃ t' : CpuText, t'.text = cpulist l ∧ ∀ c, c ∈ t'.cpus ↔ c ∈ t.cpus := by
  refine ⟨fun cpus hnodup => ?_, fun t hnodup => ⟨t.cpus, parseCpulist_text t, ?_⟩⟩
  · obtain ⟨rs, hapart, htext, hflat⟩ := cpulist_eq hnodup
    refine ⟨⟨rs, hapart, htext⟩, rs.flatMap CpuItem.span, ?_, hapart.pairwise, fun c => ?_⟩
    · rw [htext, ← CpuText.text_ofRuns, parseCpulist_text, CpuText.cpus_ofRuns]
    · rw [hflat, List.mem_insertionSort]
  · obtain ⟨rs, -, htext, hflat⟩ := cpulist_eq hnodup
    refine ⟨.ofRuns rs, (CpuText.text_ofRuns rs).trans htext.symm, fun c => ?_⟩
    rw [CpuText.cpus_ofRuns, hflat, List.mem_insertionSort]

/-- Four cores, and the text of a file with a leading zero and a line break. -/
theorem parseCpulist_cpulist_four :
    (∃ l, parseCpulist (cpulist [5, 0, 2, 1]) = some l ∧ l.Pairwise (· < ·) ∧
      ∀ c, c ∈ l ↔ c ∈ [5, 0, 2, 1]) ∧
    ∃ (t t' : CpuText) (l : List ℕ), t.text = "05,0-2\n".toList ∧ t.cpus = [5, 0, 1, 2] ∧
      parseCpulist t.text = some l ∧ t'.text = cpulist l ∧ ∀ c, c ∈ t'.cpus ↔ c ∈ t.cpus := by
  obtain ⟨hcpus, htexts⟩ := parseCpulist_cpulist
  set t : CpuText :=
    { items := [.number ⟨['0', '5'], by decide⟩, .range ⟨['0'], by decide⟩ ⟨['2'], by decide⟩]
      pre := []
      post := ['\n']
      pre_isSpace := by simp
      post_isSpace := List.forall_mem_singleton.mpr rfl }
  obtain ⟨l, hl, t', htext, hmem⟩ := htexts t (by decide)
  exact ⟨(hcpus [5, 0, 2, 1] (by decide)).2, t, t', l, by decide, by decide, hl, htext, hmem⟩

end CpuTopology

end LightServe
