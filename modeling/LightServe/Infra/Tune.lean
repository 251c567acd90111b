import LightServe.Lib.Process
import LightServe.Lib.Text

/-!
# Restoring the tuned settings

`restore` of `infra/os/tune.py`: every saved group of settings back to its originals, which are then
forgotten. A change that does not take is collected and the next group is tried, but an error of the
operating system from a file's write is not caught.

## Main definitions

* `Tune.apply` — write each value of a group, then read every one back.
* `Tune.smi` — one change of the GPU's clocks.
* `Tune.restore` — every saved group back to its originals.
* `Tune.restore_iff` — it does what it can exactly if no write raises before another saved group.
-/

namespace LightServe

namespace Tune

open Text (Chars)

/-! ## Settings and groups -/

inductive Setting
  | thp
  | swappiness
  | netdevMaxBacklog
  deriving DecidableEq

inductive Group
  | memory
  | network
  | gpu
  deriving DecidableEq

/-- The settings of a group that are files. -/
def Group.settings : Group → List Setting
  | .memory => [.thp, .swappiness]
  | .network => [.netdevMaxBacklog]
  | .gpu => []

/-- The groups of files. -/
def FILES : List Group := [.memory, .network]

/-- The originals, as they are saved. -/
abbrev Saved := Group → Option (Setting → Chars)

inductive SmiChange
  /-- `-rgc` -/
  | resetClocks
  /-- `-lgc` -/
  | lockClocks (top : ℕ)
  deriving DecidableEq

/-- A change that is tried. -/
inductive Call
  | write (setting : Setting) (text : Chars)
  | smi (change : SmiChange)
  deriving DecidableEq

def Setting.group : Setting → Group
  | .thp => .memory
  | .swappiness => .memory
  | .netdevMaxBacklog => .network

theorem mem_settings {group : Group} {name : Setting} :
    name ∈ group.settings ↔ name.group = group := by
  cases group <;> cases name <;> decide

def Call.group : Call → Group
  | .write name _ => name.group
  | .smi _ => .gpu

structure Machine where
  /-- The text of a file, if it can be read. -/
  text : Setting → Option Chars
  /-- The clocks that the GPU is locked at. -/
  locked : Option ℕ
  /-- The state file. -/
  state : Option Saved
  /-- The changes that were tried. -/
  calls : List Call

/-- How the operating system and the driver answer: a write raises, or the file then reads
something. -/
structure Answers where
  write : Setting → Chars → Except String (Option Chars)
  smi : SmiChange → Except String Unit

/-- Why a change did not take. -/
inductive Failure
  | didntTake (group : Group) (wrong : List (Setting × Option Chars × Chars))
  | smi (change : SmiChange) (why : String)

inductive TuneError
  | notTaken (e : Failure)
  /-- A `NotTaken`, too: the originals are kept. -/
  | incomplete (failed : List Failure)
  | osError (why : String)

/-- The group of `\[(\S+)\]` at the start of a text, behind its first bracket. -/
def bracket (s : Chars) : Option Chars :=
  let inner := (((s.takeWhile fun c => !Text.isSpace c).reverse.dropWhile (· ≠ ']')).tail).reverse
  if inner = [] then none else some inner

/-- The choice that is marked. -/
def bracketed : Chars → Option Chars
  | [] => none
  | c :: s => if c = '[' then (bracket s).or (bracketed s) else bracketed s

/-- The value of a setting, from the text of its file. -/
def value (name : Setting) (text : Option Chars) : Option Chars :=
  text.map fun s =>
    let s := Text.strip Text.isSpace s
    if name = .thp then (bracketed s).getD s else s

example : value .thp (some "always [madvise] never\n".toList) = some "madvise".toList := by decide

/-! ## Changes -/

/-- A task of the tuning. -/
abbrev TuneTask := Process Machine TuneError

/-- A change is tried. -/
def tried (c : Call) : TuneTask Unit := .modify fun m => { m with calls := m.calls ++ [c] }

def write (answers : Answers) (name : Setting) (text : Chars) : TuneTask Unit := do
  tried (.write name text)
  .atomic fun m => match answers.write name (text ++ ['\n']) with
    | .error why => .error (.osError why)
    | .ok after => .ok ((), { m with text := Function.update m.text name after })

/-- The settings of a group that read something else, with what they read. -/
def wrong (m : Machine) (group : Group) (want : Setting → Chars) :
    List (Setting × Option Chars × Chars) :=
  (group.settings.filter fun name => value name (m.text name) ≠ some (want name)).map
    fun name => (name, value name (m.text name), want name)

/-- Write each value, then read every one back. -/
def apply (answers : Answers) (group : Group) (want : Setting → Chars) : TuneTask Unit := do
  group.settings.forM fun name => write answers name (want name)
  let m ← Process.look id
  if wrong m group want ≠ [] then throw (.notTaken (.didntTake group (wrong m group want)))

/-- One change by the driver; a failure is one that did not take. -/
def smi (answers : Answers) (change : SmiChange) : TuneTask Unit := do
  tried (.smi change)
  .atomic fun m => match answers.smi change with
    | .error why => .error (.notTaken (.smi change why))
    | .ok () => .ok ((), { m with
        locked := match change with | .resetClocks => none | .lockClocks top => some top })

/-- A change that is tried if its group is saved; one that does not take is collected. -/
def collect (saved : Saved) (group : Group) (change : (Setting → Chars) → TuneTask Unit)
    (failed : List Failure) : TuneTask (List Failure) :=
  match saved group with
  | none => pure failed
  | some originals => tryCatch (do change originals; pure failed) fun e => match e with
    | .notTaken e => pure (failed ++ [e])
    | e => throw e

/-- Every saved group back to its originals, then forget them; the groups restored. -/
def restore (answers : Answers) : TuneTask (List Group) := do
  match ← Process.look (·.state) with
  | none => return []
  | some saved =>
    let failed ← FILES.foldlM
      (fun failed group => collect saved group (apply answers group) failed) []
    let failed ← collect saved .gpu (fun _ => smi answers .resetClocks) failed
    if failed ≠ [] then throw (.incomplete failed)
    Process.modify fun m => { m with state := none }
    return (FILES ++ [Group.gpu]).filter fun group => (saved group).isSome

/-! ## One group -/

section Change
variable {answers : Answers} {saved : Saved} {group : Group} {originals : Setting → Chars}
  {names : List Setting} {m m' m₁ m₂ : Machine} {failed : List Failure}

/-- The write raises. -/
def WriteRaises (answers : Answers) (originals : Setting → Chars) (name : Setting) : Prop :=
  ∃ why, answers.write name (originals name ++ ['\n']) = .error why

/-- A write of the group raises. -/
def Raises (answers : Answers) (group : Group) (originals : Setting → Chars) : Prop :=
  ∃ name ∈ group.settings, WriteRaises answers originals name

/-- Every change of the group takes. -/
def Takes (answers : Answers) (group : Group) (originals : Setting → Chars) : Prop :=
  (group = .gpu → answers.smi .resetClocks = .ok ()) ∧
  ∀ name ∈ group.settings, ∃ text,
    answers.write name (originals name ++ ['\n']) = .ok text ∧
    value name text = some (originals name)

/-- The group reads its originals. -/
def Reads (m : Machine) (group : Group) (originals : Setting → Chars) : Prop :=
  (group = .gpu → m.locked = none) ∧
  ∀ name ∈ group.settings, value name (m.text name) = some (originals name)

/-- What changes to a group leave as it was. -/
structure Changed (group : Group) (m m' : Machine) : Prop where
  state : m'.state = m.state
  locked : group ≠ .gpu → m'.locked = m.locked
  text : ∀ name, name.group ≠ group → m'.text name = m.text name
  calls : ∃ calls, m'.calls = m.calls ++ calls ∧ ∀ c ∈ calls, c.group = group

theorem Changed.refl (group : Group) (m : Machine) : Changed group m m :=
  ⟨rfl, fun _ => rfl, fun _ _ => rfl, [], by simp, by simp⟩

theorem Changed.trans (h₁ : Changed group m m₁) (h₂ : Changed group m₁ m₂) :
    Changed group m m₂ := by
  obtain ⟨calls₁, heq₁, hcalls₁⟩ := h₁.calls
  obtain ⟨calls₂, heq₂, hcalls₂⟩ := h₂.calls
  refine ⟨h₂.state.trans h₁.state, fun hg => (h₂.locked hg).trans (h₁.locked hg),
    fun name hn => (h₂.text name hn).trans (h₁.text name hn), calls₁ ++ calls₂, ?_, fun c hc => ?_⟩
  · rw [heq₂, heq₁, List.append_assoc]
  · exact (List.mem_append.mp hc).elim (hcalls₁ c) (hcalls₂ c)

theorem Changed.reads {group' : Group} (h : Changed group m m') (hne : group' ≠ group)
    (hreads : Reads m group' originals) : Reads m' group' originals := by
  refine ⟨fun hgpu => ?_, fun name hname => ?_⟩
  · rw [h.locked fun heq => hne (hgpu.trans heq.symm)]
    exact hreads.1 hgpu
  · rw [h.text name fun heq => hne ((mem_settings.mp hname).symm.trans heq)]
    exact hreads.2 name hname

/-- One write. -/
theorem write_outcome (answers : Answers) (originals : Setting → Chars) (name : Setting)
    (m : Machine) : ∃ r m', (write answers name (originals name)).outcome m = (r, m') ∧
      Changed name.group m m' ∧ (∀ other ≠ name, m'.text other = m.text other) ∧
      m.calls.length < m'.calls.length ∧
      ((∃ why, r = .error (.osError why) ∧ WriteRaises answers originals name) ∨
        r = .ok () ∧ answers.write name (originals name ++ ['\n']) = .ok (m'.text name)) := by
  have htried : (tried (.write name (originals name))).outcome m =
      (.ok (), { m with calls := m.calls ++ [.write name (originals name)] }) := rfl
  cases hanswer : answers.write name (originals name ++ ['\n']) with
  | error why =>
    refine ⟨.error (.osError why), { m with calls := m.calls ++ [.write name (originals name)] },
      ?_, ⟨rfl, fun _ => rfl, fun _ _ => rfl, _, rfl, by simp [Call.group]⟩, fun _ _ => rfl,
      by simp, .inl ⟨why, rfl, why, hanswer⟩⟩
    rw [write, Process.outcome_bind_ok htried]
    refine Process.outcome_atomic_error ?_
    rw [hanswer]
  | ok after =>
    refine ⟨.ok (), { m with
        calls := m.calls ++ [.write name (originals name)]
        text := Function.update m.text name after }, ?_,
      ⟨rfl, fun _ => rfl, fun other hne => ?_, _, rfl, by simp [Call.group]⟩, fun other hne => ?_,
      by simp, .inr ⟨rfl, ?_⟩⟩
    · rw [write, Process.outcome_bind_ok htried]
      refine Process.outcome_atomic_ok ?_
      rw [hanswer]
    · exact Function.update_of_ne (fun h => hne (congrArg _ h)) _ _
    · exact Function.update_of_ne hne _ _
    · exact congrArg Except.ok (Function.update_self name after m.text).symm

/-- The writes of a group, up to one that raises. -/
theorem writes_outcome (answers : Answers) (originals : Setting → Chars)
    (hnames : ∀ name ∈ names, name.group = group) (hnodup : names.Nodup)
    (m : Machine) : ∃ r m',
      (names.forM fun name => write answers name (originals name)).outcome m = (r, m') ∧
      Changed group m m' ∧ (∀ other ∉ names, m'.text other = m.text other) ∧
      (names ≠ [] → m.calls.length < m'.calls.length) ∧
      ((∃ why, r = .error (.osError why) ∧ ∃ name ∈ names, WriteRaises answers originals name) ∨
        r = .ok () ∧ ∀ name ∈ names,
          answers.write name (originals name ++ ['\n']) = .ok (m'.text name)) := by
  induction names generalizing m with
  | nil => exact ⟨.ok (), m, rfl, .refl group m, fun _ _ => rfl, by simp, .inr ⟨rfl, by simp⟩⟩
  | cons name names ih =>
    obtain ⟨hname, hnodup⟩ := List.nodup_cons.mp hnodup
    obtain ⟨r₁, m₁, hout₁, hchanged₁, htext₁, hcalls₁, hr₁⟩ :=
      write_outcome answers originals name m
    rw [hnames name List.mem_cons_self] at hchanged₁
    rcases hr₁ with ⟨why, rfl, hraises⟩ | ⟨rfl, hanswer⟩
    · refine ⟨_, m₁, Process.outcome_bind_error hout₁, hchanged₁, fun other hother => ?_,
        fun _ => hcalls₁, .inl ⟨why, rfl, name, List.mem_cons_self, hraises⟩⟩
      exact htext₁ other fun heq => hother (heq ▸ List.mem_cons_self)
    · obtain ⟨r₂, m₂, hout₂, hchanged₂, htext₂, -, hr₂⟩ :=
        ih (fun name hname => hnames name (List.mem_cons_of_mem _ hname)) hnodup m₁
      have hchanged := hchanged₁.trans hchanged₂
      refine ⟨r₂, m₂, (Process.outcome_bind_ok hout₁).trans hout₂, hchanged,
        fun other hother => ?_, fun _ => ?_, ?_⟩
      · obtain ⟨hne, hother⟩ := not_or.mp (mt List.mem_cons.mpr hother)
        exact (htext₂ other hother).trans (htext₁ other hne)
      · obtain ⟨calls, heq, -⟩ := hchanged₂.calls
        rw [heq, List.length_append]
        omega
      · rcases hr₂ with ⟨why, rfl, other, hother, hraises⟩ | ⟨rfl, hanswers⟩
        · exact .inl ⟨why, rfl, other, List.mem_cons_of_mem _ hother, hraises⟩
        · refine .inr ⟨rfl, fun other hother => ?_⟩
          rcases List.mem_cons.mp hother with rfl | hother
          · rw [htext₂ other hname, hanswer]
          · exact hanswers other hother

theorem wrong_eq_nil : wrong m group originals = [] ↔
    ∀ name ∈ group.settings, value name (m.text name) = some (originals name) := by
  rw [wrong, List.map_eq_nil_iff, List.filter_eq_nil_iff]
  simp

/-- What an attempt to put a group back does. -/
structure PutBack (answers : Answers) (group : Group) (originals : Setting → Chars) (m : Machine)
    (r : Except TuneError Unit) (m' : Machine) : Prop where
  changed : Changed group m m'
  tried : m.calls.length < m'.calls.length
  result : (∃ why, r = .error (.osError why)) ∧ Raises answers group originals ∨
    ¬ Raises answers group originals ∧
      (r = .ok () ∧ Takes answers group originals ∧ Reads m' group originals ∨
        (∃ e, r = .error (.notTaken e)) ∧ ¬ Takes answers group originals)

theorem apply_outcome (hgroup : group.settings ≠ []) (m : Machine) : ∃ r m',
    (apply answers group originals).outcome m = (r, m') ∧
      PutBack answers group originals m r m' := by
  have hgpu : group ≠ .gpu := by
    rintro rfl
    exact hgroup rfl
  have hnodup : group.settings.Nodup := by cases group <;> decide
  obtain ⟨r, m', hout, hchanged, -, hcalls, hr⟩ := writes_outcome answers originals
    (fun name hname => mem_settings.mp hname) hnodup m
  rcases hr with ⟨why, rfl, hraises⟩ | ⟨rfl, hanswers⟩
  · exact ⟨_, m', Process.outcome_bind_error hout, hchanged, hcalls hgroup,
      .inl ⟨⟨why, rfl⟩, hraises⟩⟩
  · have hraises : ¬ Raises answers group originals := by
      rintro ⟨name, hname, why, hwhy⟩
      cases hwhy.symm.trans (hanswers name hname)
    have htakes : Takes answers group originals ↔
        ∀ name ∈ group.settings, value name (m'.text name) = some (originals name) := by
      refine ⟨fun h name hname => ?_, fun h => ⟨fun heq => absurd heq hgpu, fun name hname =>
        ⟨_, hanswers name hname, h name hname⟩⟩⟩
      obtain ⟨text, htext, hvalue⟩ := h.2 name hname
      cases (hanswers name hname).symm.trans htext
      exact hvalue
    rw [← wrong_eq_nil] at htakes
    by_cases hwrong : wrong m' group originals = []
    · refine ⟨.ok (), m', ?_, hchanged, hcalls hgroup, .inr ⟨hraises, .inl ⟨rfl,
        htakes.mpr hwrong, fun heq => absurd heq hgpu, wrong_eq_nil.mp hwrong⟩⟩⟩
      rw [apply, Process.outcome_bind_ok hout, Process.outcome_bind_ok (Process.outcome_look _ _),
        id, if_neg (not_not.mpr hwrong)]
      rfl
    · refine ⟨.error (.notTaken (.didntTake group (wrong m' group originals))), m', ?_, hchanged,
        hcalls hgroup, .inr ⟨hraises, .inr ⟨⟨_, rfl⟩, mt htakes.mp hwrong⟩⟩⟩
      rw [apply, Process.outcome_bind_ok hout, Process.outcome_bind_ok (Process.outcome_look _ _),
        id, if_pos hwrong]
      rfl

theorem smi_outcome (originals : Setting → Chars) (m : Machine) : ∃ r m',
    (smi answers .resetClocks).outcome m = (r, m') ∧ PutBack answers .gpu originals m r m' := by
  have htried : (tried (.smi .resetClocks)).outcome m =
      (.ok (), { m with calls := m.calls ++ [.smi .resetClocks] }) := rfl
  have hraises : ¬ Raises answers .gpu originals := by
    rintro ⟨name, hname, -⟩
    cases hname
  cases hanswer : answers.smi .resetClocks with
  | error why =>
    refine ⟨.error (.notTaken (.smi .resetClocks why)), { m with
      calls := m.calls ++ [.smi .resetClocks] }, ?_, ⟨rfl, fun _ => rfl, fun _ _ => rfl, _, rfl,
      by simp [Call.group]⟩, by simp, .inr ⟨hraises, .inr ⟨⟨_, rfl⟩, fun htakes => ?_⟩⟩⟩
    · rw [smi, Process.outcome_bind_ok htried]
      refine Process.outcome_atomic_error ?_
      rw [hanswer]
    · cases hanswer.symm.trans (htakes.1 rfl)
  | ok u =>
    refine ⟨.ok (), { m with
      calls := m.calls ++ [.smi .resetClocks], locked := none }, ?_, ⟨rfl, fun h => absurd rfl h,
      fun _ _ => rfl, _, rfl, by simp [Call.group]⟩, by simp, .inr ⟨hraises, .inl ⟨rfl,
      ⟨fun _ => hanswer, by simp [Group.settings]⟩, fun _ => rfl, by simp [Group.settings]⟩⟩⟩
    rw [smi, Process.outcome_bind_ok htried]
    refine Process.outcome_atomic_ok ?_
    rw [hanswer]

end Change

/-! ## All groups -/

section Restore
variable {answers : Answers} {saved : Saved} {group : Group} {groups groups₁ groups₂ : List Group}
  {m m' m₁ m₂ : Machine} {failed : List Failure}

/-- A write of a saved group raises. -/
def SavedRaises (answers : Answers) (saved : Saved) (group : Group) : Prop :=
  ∃ originals ∈ saved group, Raises answers group originals

/-- Every change of a group takes, if it is saved. -/
def SavedTakes (answers : Answers) (saved : Saved) (group : Group) : Prop :=
  ∀ originals ∈ saved group, Takes answers group originals

/-- The saved ones of some groups were tried, and those whose changes took read their originals. -/
structure Tried (answers : Answers) (saved : Saved) (groups : List Group) (m m' : Machine) :
    Prop where
  state : m'.state = m.state
  calls : ∃ calls, m'.calls = m.calls ++ calls ∧ (∀ c ∈ calls, c.group ∈ groups) ∧
    ∀ group ∈ groups, (saved group).isSome → ∃ c ∈ calls, c.group = group
  reads : ∀ group ∈ groups, ∀ originals ∈ saved group, Takes answers group originals →
    Reads m' group originals
  frame : ∀ group ∉ groups, ∀ originals, Reads m group originals → Reads m' group originals

theorem Tried.nil (m : Machine) : Tried answers saved [] m m where
  state := rfl
  calls := ⟨[], by simp, by simp, by simp⟩
  reads := by simp
  frame := fun _ _ _ h => h

theorem Tried.append (h₁ : Tried answers saved groups₁ m m₁)
    (h₂ : Tried answers saved groups₂ m₁ m₂) (hnodup : (groups₁ ++ groups₂).Nodup) :
    Tried answers saved (groups₁ ++ groups₂) m m₂ := by
  obtain ⟨calls₁, heq₁, hin₁, hall₁⟩ := h₁.calls
  obtain ⟨calls₂, heq₂, hin₂, hall₂⟩ := h₂.calls
  refine ⟨h₂.state.trans h₁.state, ⟨calls₁ ++ calls₂, ?_, fun c hc => ?_, fun g hg hsaved => ?_⟩,
    fun g hg originals horiginals htakes => ?_, fun g hg originals hreads => ?_⟩
  · rw [heq₂, heq₁, List.append_assoc]
  · rcases List.mem_append.mp hc with hc | hc
    · exact List.mem_append_left _ (hin₁ c hc)
    · exact List.mem_append_right _ (hin₂ c hc)
  · rcases List.mem_append.mp hg with hg | hg
    · obtain ⟨c, hc, hgroup⟩ := hall₁ g hg hsaved
      exact ⟨c, List.mem_append_left _ hc, hgroup⟩
    · obtain ⟨c, hc, hgroup⟩ := hall₂ g hg hsaved
      exact ⟨c, List.mem_append_right _ hc, hgroup⟩
  · rcases List.mem_append.mp hg with hg | hg
    · refine h₂.frame g (fun hg₂ => ?_) originals (h₁.reads g hg originals horiginals htakes)
      exact (List.nodup_append.mp hnodup).2.2 g hg g hg₂ rfl
    · exact h₂.reads g hg originals horiginals htakes
  · obtain ⟨hg₁, hg₂⟩ := not_or.mp (mt List.mem_append.mpr hg)
    exact h₂.frame g hg₂ originals (h₁.frame g hg₁ originals hreads)

/-- How a part of the loop ends: every group was tried, or a write raised and the rest were not. -/
def Ends (answers : Answers) (saved : Saved) (groups : List Group) (failed : List Failure)
    (m : Machine) (r : Except TuneError (List Failure)) (m' : Machine) : Prop :=
  (∃ new, r = .ok (failed ++ new) ∧ Tried answers saved groups m m' ∧
    (∀ group ∈ groups, ¬ SavedRaises answers saved group) ∧
    (new = [] ↔ ∀ group ∈ groups, SavedTakes answers saved group)) ∨
  ∃ before group rest why, groups = before ++ group :: rest ∧ r = .error (.osError why) ∧
    Tried answers saved (before ++ [group]) m m' ∧ SavedRaises answers saved group ∧
    ∀ g ∈ before, ¬ SavedRaises answers saved g

theorem PutBack.tried_group {originals : Setting → Chars} {r : Except TuneError Unit}
    (h : PutBack answers group originals m r m') (hsaved : saved group = some originals) :
    Tried answers saved [group] m m' := by
  obtain ⟨calls, heq, hcalls⟩ := h.changed.calls
  have hne : calls ≠ [] := by
    rintro rfl
    have hlt := h.tried
    rw [heq, List.append_nil] at hlt
    exact lt_irrefl _ hlt
  refine ⟨h.changed.state, ⟨calls, heq, fun c hc => by simp [hcalls c hc], fun g hg _ => ?_⟩,
    fun g hg originals' horiginals htakes => ?_, fun g hg originals' hreads => ?_⟩
  · obtain ⟨c, hc⟩ := List.exists_mem_of_ne_nil _ hne
    exact ⟨c, hc, (hcalls c hc).trans (List.mem_singleton.mp hg).symm⟩
  · obtain rfl := List.mem_singleton.mp hg
    obtain rfl : originals = originals' := Option.some.inj (hsaved.symm.trans horiginals)
    rcases h.result with ⟨-, name, hname, why, hwhy⟩ | ⟨-, ⟨-, -, hreads⟩ | ⟨-, hnot⟩⟩
    · obtain ⟨text, htext, -⟩ := htakes.2 name hname
      cases hwhy.symm.trans htext
    · exact hreads
    · exact absurd htakes hnot
  · exact h.changed.reads (mt List.mem_singleton.mpr hg) hreads

/-- One group. -/
theorem collect_outcome (saved : Saved) (failed : List Failure)
    {change : (Setting → Chars) → TuneTask Unit}
    (hchange : ∀ originals, ∃ r m', (change originals).outcome m = (r, m') ∧
      PutBack answers group originals m r m') :
    ∃ r m', (collect saved group change failed).outcome m = (r, m') ∧
      Ends answers saved [group] failed m r m' := by
  cases hsaved : saved group with
  | none =>
    refine ⟨.ok failed, m, ?_, .inl ⟨[], ?_, ⟨rfl, ⟨[], by simp, by simp, ?_⟩, ?_,
      fun _ _ _ h => h⟩, ?_, ?_⟩⟩
    · rw [collect, hsaved]
      rfl
    · rw [List.append_nil]
    · simp [hsaved]
    · simp [hsaved]
    · simp [SavedRaises, hsaved]
    · simp [SavedTakes, hsaved]
  | some originals =>
    obtain ⟨r, m', hout, hput⟩ := hchange originals
    have htried := hput.tried_group hsaved
    have htakes : SavedTakes answers saved group ↔ Takes answers group originals := by
      simp [SavedTakes, hsaved]
    have hraises : SavedRaises answers saved group ↔ Raises answers group originals := by
      simp [SavedRaises, hsaved]
    rcases hput.result with ⟨⟨why, rfl⟩, hraise⟩ | ⟨hnot, ⟨rfl, htake, -⟩ | ⟨⟨e, rfl⟩, htake⟩⟩
    · refine ⟨.error (.osError why), m', ?_, .inr ⟨[], group, [], why, rfl, rfl, htried,
        hraises.mpr hraise, by simp⟩⟩
      rw [collect, hsaved]
      exact Process.outcome_tryCatch_error (Process.outcome_bind_error hout)
    · refine ⟨.ok failed, m', ?_, .inl ⟨[], by simp, htried, by simp [hraises, hnot],
        by simp [htakes, htake]⟩⟩
      rw [collect, hsaved]
      exact Process.outcome_tryCatch_ok (Process.outcome_bind_ok hout)
    · refine ⟨.ok (failed ++ [e]), m', ?_, .inl ⟨[e], rfl, htried, by simp [hraises, hnot],
        by simp [htakes, htake]⟩⟩
      rw [collect, hsaved]
      exact Process.outcome_tryCatch_error (Process.outcome_bind_error hout)

theorem Ends.append {failed' : List Failure} {r : Except TuneError (List Failure)}
    (h₁ : Ends answers saved groups₁ failed m (.ok failed') m₁)
    (h₂ : Ends answers saved groups₂ failed' m₁ r m₂) (hnodup : (groups₁ ++ groups₂).Nodup) :
    Ends answers saved (groups₁ ++ groups₂) failed m r m₂ := by
  rcases h₁ with ⟨new₁, heq, htried₁, hnone₁, hnew₁⟩ | ⟨_, _, _, _, -, heq, -⟩
  · obtain rfl := Except.ok.inj heq
    rcases h₂ with ⟨new₂, rfl, htried₂, hnone₂, hnew₂⟩ |
      ⟨before, group, rest, why, rfl, rfl, htried₂, hraises, hbefore⟩
    · refine .inl ⟨new₁ ++ new₂, by rw [List.append_assoc], htried₁.append htried₂ hnodup,
        fun g hg => ?_, ?_⟩
      · exact (List.mem_append.mp hg).elim (hnone₁ g) (hnone₂ g)
      · rw [List.append_eq_nil_iff, hnew₁, hnew₂, List.forall_mem_append]
    · have hnodup' : (groups₁ ++ (before ++ [group])).Nodup := by
        refine hnodup.sublist (List.Sublist.append_left ?_ _)
        exact List.Sublist.append_left (List.Sublist.cons_cons _ (List.nil_sublist rest)) before
      refine .inr ⟨groups₁ ++ before, group, rest, why, by simp, rfl, ?_, hraises, fun g hg => ?_⟩
      · rw [List.append_assoc]
        exact htried₁.append htried₂ hnodup'
      · exact (List.mem_append.mp hg).elim (hnone₁ g) (hbefore g)
  · cases heq

theorem Ends.of_error {e : TuneError} (h : Ends answers saved groups₁ failed m (.error e) m') :
    Ends answers saved (groups₁ ++ groups₂) failed m (.error e) m' := by
  rcases h with ⟨_, heq, -⟩ | ⟨before, group, rest, why, rfl, heq, htried, hraises, hbefore⟩
  · cases heq
  · exact .inr ⟨before, group, rest ++ groups₂, why, by simp, heq, htried, hraises, hbefore⟩

/-- The loop over some groups. -/
theorem loop_outcome (saved : Saved) {change : Group → (Setting → Chars) → TuneTask Unit}
    (hnodup : groups.Nodup)
    (hchange : ∀ group ∈ groups, ∀ originals m, ∃ r m',
      (change group originals).outcome m = (r, m') ∧ PutBack answers group originals m r m')
    (failed : List Failure) (m : Machine) :
    ∃ r m', (groups.foldlM (fun failed group => collect saved group (change group) failed)
      failed).outcome m = (r, m') ∧ Ends answers saved groups failed m r m' := by
  induction groups generalizing failed m with
  | nil => exact ⟨.ok failed, m, rfl, .inl ⟨[], by simp, .nil m, by simp, by simp⟩⟩
  | cons group groups ih =>
    obtain ⟨r, m₁, hout, hends⟩ := collect_outcome saved failed
      fun originals => hchange group List.mem_cons_self originals m
    cases r with
    | error e => exact ⟨.error e, m₁, Process.outcome_bind_error hout, hends.of_error⟩
    | ok failed' =>
      obtain ⟨r, m₂, hout₂, hends₂⟩ := ih (List.nodup_cons.mp hnodup).2
        (fun g hg => hchange g (List.mem_cons_of_mem _ hg)) failed' m₁
      exact ⟨r, m₂, (Process.outcome_bind_ok hout).trans hout₂, hends.append hends₂ hnodup⟩

/-- The groups in the order in which they are restored. -/
def order : List Group := FILES ++ [.gpu]

theorem order_nodup : order.Nodup := by decide

theorem mem_order (group : Group) : group ∈ order := by cases group <;> decide

/-- The loop, and what is done at its end. -/
theorem restore_outcome (answers : Answers) (hstate : m.state = some saved) :
    ∃ r m₁, Ends answers saved order [] m r m₁ ∧ (restore answers).outcome m = match r with
      | .error e => (.error e, m₁)
      | .ok [] => (.ok (order.filter fun group => (saved group).isSome), { m₁ with state := none })
      | .ok failed => (.error (.incomplete failed), m₁) := by
  have hlook : (Process.look (fun m : Machine => m.state) : TuneTask _).outcome m =
      (.ok (some saved), m) := by
    rw [Process.outcome_look, hstate]
  have hfiles (group : Group) (hgroup : group ∈ FILES) (originals : Setting → Chars) (m : Machine) :
      ∃ r m', (apply answers group originals).outcome m = (r, m') ∧
        PutBack answers group originals m r m' := by
    refine apply_outcome ?_ m
    revert hgroup
    cases group <;> decide
  obtain ⟨r₁, m₁, hout₁, hends₁⟩ := loop_outcome saved (by decide) hfiles [] m
  cases r₁ with
  | error e =>
    refine ⟨.error e, m₁, hends₁.of_error, ?_⟩
    rw [restore, Process.outcome_bind_ok hlook]
    exact Process.outcome_bind_error hout₁
  | ok failed =>
    obtain ⟨r₂, m₂, hout₂, hends₂⟩ := collect_outcome saved failed
      fun originals => smi_outcome originals m₁
    refine ⟨r₂, m₂, hends₁.append hends₂ order_nodup, ?_⟩
    rw [restore, Process.outcome_bind_ok hlook]
    refine (Process.outcome_bind_ok hout₁).trans ?_
    cases r₂ with
    | error e => exact Process.outcome_bind_error hout₂
    | ok failed =>
      refine (Process.outcome_bind_ok hout₂).trans ?_
      cases failed with
      | nil => rfl
      | cons e failed => rfl

/-- The saved groups, in the order in which they are restored. -/
def savedGroups (saved : Saved) : List Group := order.filter fun group => (saved group).isSome

theorem SavedTakes.not_raises (h : SavedTakes answers saved group) :
    ¬ SavedRaises answers saved group := by
  rintro ⟨originals, horiginals, name, hname, why, hwhy⟩
  obtain ⟨text, htext, -⟩ := (h originals horiginals).2 name hname
  cases hwhy.symm.trans htext

/-- Where every change takes the originals are put back and forgotten. -/
theorem restore_of_takes (hstate : m.state = some saved)
    (htakes : ∀ group, SavedTakes answers saved group) :
    ∃ m', (restore answers).outcome m = (.ok (savedGroups saved), m') ∧ m'.state = none ∧
      ∀ group, ∀ originals ∈ saved group, Reads m' group originals := by
  obtain ⟨r, m₁, hends, hout⟩ := restore_outcome answers hstate
  rcases hends with ⟨new, rfl, htried, -, hnew⟩ | ⟨before, group, rest, why, -, -, -, hraises, -⟩
  · obtain rfl := hnew.mpr fun group _ => htakes group
    exact ⟨_, hout, rfl, fun group originals horiginals =>
      htried.reads group (mem_order group) originals horiginals (htakes group originals horiginals)⟩
  · exact absurd hraises (htakes group).not_raises

end Restore

/-- What a restore is to do: every saved group is tried, one whose changes take reads its originals,
and after a failure it raises and the originals are kept for a later restore. -/
structure DoesWhatItCan (answers : Answers) (saved : Saved) (m : Machine)
    (r : Except TuneError (List Group)) (m' : Machine) : Prop where
  tries : ∃ calls, m'.calls = m.calls ++ calls ∧
    ∀ group, (saved group).isSome → ∃ c ∈ calls, c.group = group
  reads : ∀ group, ∀ originals ∈ saved group, Takes answers group originals →
    Reads m' group originals
  keeps : (∃ group, ∃ originals ∈ saved group, ¬ Takes answers group originals) →
    (∃ e, r = .error e) ∧ m'.state = some saved ∧
    ∀ answers', (∀ group, SavedTakes answers' saved group) →
      ∃ m'', (restore answers').outcome m' = (.ok (savedGroups saved), m'') ∧ m''.state = none ∧
        ∀ group, ∀ originals ∈ saved group, Reads m'' group originals

/-- A restore does what it can exactly if no write of a saved group raises before another one. -/
theorem restore_iff (answers : Answers) {saved : Saved} {m : Machine} (h : m.state = some saved) :
    DoesWhatItCan answers saved m ((restore answers).outcome m).1 ((restore answers).outcome m).2 ↔
      order.Pairwise fun group later => SavedRaises answers saved group → saved later = none := by
  obtain ⟨r, m', hends, hout⟩ := restore_outcome answers h
  rw [hout]
  rcases hends with ⟨new, rfl, htried, hnone, hnew⟩ |
    ⟨before, group, rest, why, horder, rfl, htried, hraises, hbefore⟩
  · refine iff_of_true ?_ (List.pairwise_of_forall_mem_list fun g hg _ _ hr =>
      absurd hr (hnone g hg))
    obtain ⟨calls, hcalls, -, hall⟩ := htried.calls
    have htries : ∃ calls, m'.calls = m.calls ++ calls ∧
        ∀ group, (saved group).isSome → ∃ c ∈ calls, c.group = group :=
      ⟨calls, hcalls, fun g => hall g (mem_order g)⟩
    rw [List.nil_append]
    cases new with
    | nil =>
      refine ⟨htries, fun g => htried.reads g (mem_order g), ?_⟩
      rintro ⟨g, originals, horiginals, hnot⟩
      exact absurd (hnew.mp rfl g (mem_order g) originals horiginals) hnot
    | cons e new =>
      have hstate := htried.state.trans h
      exact ⟨htries, fun g => htried.reads g (mem_order g), fun _ => ⟨⟨_, rfl⟩, hstate,
        fun _ htakes => restore_of_takes hstate htakes⟩⟩
  · obtain ⟨calls, hcalls, hin, hall⟩ := htried.calls
    have hstate := htried.state.trans h
    have hnodup : (before ++ group :: rest).Nodup := horder ▸ order_nodup
    have hmem (g : Group) : g ∈ before ++ [group] ∨ g ∈ rest := by
      have hg := horder ▸ mem_order g
      simpa [or_assoc] using hg
    have hrest : (∀ g ∈ rest, saved g = none) ↔
        order.Pairwise fun group later => SavedRaises answers saved group → saved later = none := by
      rw [horder, List.pairwise_append, List.pairwise_cons]
      constructor
      · intro hunsaved
        refine ⟨List.pairwise_of_forall_mem_list fun g hg _ _ hr => absurd hr (hbefore g hg),
          ⟨fun g hg _ => hunsaved g hg, List.pairwise_of_forall_mem_list fun _ _ g hg _ =>
            hunsaved g hg⟩, fun g hg _ _ hr => absurd hr (hbefore g hg)⟩
      · rintro ⟨-, ⟨hlater, -⟩, -⟩ g hg
        exact hlater g hg hraises
    rw [← hrest]
    constructor
    · intro hdoes g hg
      -- A later group that is saved was tried, but only those up to the one that raised were.
      by_contra hsaved
      obtain ⟨calls', hcalls', hall'⟩ := hdoes.tries
      obtain rfl := List.append_cancel_left (hcalls'.symm.trans hcalls)
      obtain ⟨c, hc, rfl⟩ := hall' g (Option.isSome_iff_ne_none.mpr hsaved)
      rw [← List.singleton_append, ← List.append_assoc] at hnodup
      exact (List.nodup_append.mp hnodup).2.2 _ (hin c hc) _ hg rfl
    · intro hunsaved
      refine ⟨⟨calls, hcalls, fun g hsaved => ?_⟩, fun g originals horiginals htakes => ?_,
        fun _ => ⟨⟨_, rfl⟩, hstate, fun _ htakes => restore_of_takes hstate htakes⟩⟩
      · rcases hmem g with hg | hg
        · exact hall g hg hsaved
        · simp [hunsaved g hg] at hsaved
      · rcases hmem g with hg | hg
        · exact htried.reads g hg originals horiginals htakes
        · simp [hunsaved g hg] at horiginals

/-- The memory group and the GPU are saved, and one file goes on reading what it did. The clocks of
the GPU are reset all the same, and the originals are kept. -/
theorem restore_iff_keeps :
    let saved : Saved := fun g => if g = .network then none else
      some fun name => if name = .thp then "madvise".toList else "60".toList
    let m : Machine := ⟨fun name => if name = .thp then some "[always] madvise never\n".toList
      else some "10\n".toList, some 2520, some saved, []⟩
    let answers : Answers := ⟨fun name _ => .ok (some
      (if name = .thp then "always [madvise] never\n".toList else "10\n".toList)), fun _ => .ok ()⟩
    let m' := ((restore answers).outcome m).2
    m'.calls =
        [.write .thp "madvise".toList, .write .swappiness "60".toList, .smi .resetClocks] ∧
      m'.locked = none ∧ m'.state = some saved ∧
      DoesWhatItCan answers saved m ((restore answers).outcome m).1 m' := by
  intro saved m answers m'
  refine ⟨rfl, rfl, rfl, (@restore_iff answers saved m rfl).mpr ?_⟩
  refine List.pairwise_of_forall_mem_list fun g _ _ _ hraises => ?_
  obtain ⟨_, _, _, _, why, hwhy⟩ := hraises
  cases hwhy

/-- The write of one setting raises: the clocks of the GPU stay locked, and the driver is not
called. -/
theorem restore_stops :
    let saved : Saved := fun g => if g = .network then none else
      some fun name => if name = .thp then "madvise".toList else "60".toList
    let m : Machine := ⟨fun name => if name = .thp then some "[always] madvise never\n".toList
      else some "10\n".toList, some 2520, some saved, []⟩
    let answers : Answers := ⟨fun name text =>
      if name = .thp then .error "Permission denied" else .ok (some text), fun _ => .ok ()⟩
    let m' := ((restore answers).outcome m).2
    m'.locked = some 2520 ∧ m'.calls = [.write .thp "madvise".toList] ∧
      ¬ DoesWhatItCan answers saved m ((restore answers).outcome m).1 m' := by
  intro saved m answers m'
  refine ⟨rfl, rfl, fun h => ?_⟩
  have htakes : Takes answers .gpu fun name =>
      if name = .thp then "madvise".toList else "60".toList :=
    ⟨fun _ => rfl, fun _ hname => absurd hname List.not_mem_nil⟩
  have hlocked := (h.reads .gpu _ rfl htakes).1 rfl
  cases hlocked

end Tune

end LightServe
