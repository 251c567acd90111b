import LightServe.Server.App
import LightServe.Server.Streams
import Mathlib.Algebra.BigOperators.Group.List.Basic
import Mathlib.Algebra.Group.Prod
import Mathlib.Data.Multiset.AddSub

/-!
# What clients get

However the handlers and the engine thread interleave, a response yields the items of its handle in
order, each once, and its last frame follows the end. The metrics are what the responses have
counted, and an abort on the queue is that of a response whose client has left.

## Main definitions

* `Timed.Counts`, `Connection.Follows` — a response has passed on what it has read.
* `Connection.counted` — what a response contributes to the metrics.
* `HttpState.Accounted` — the invariant of the server.
* `responses_of_run` — what every run keeps.
-/

namespace LightServe

/-- The items of a stream up to its first end. -/
def StreamItem.uptoEnd : List StreamItem → List StreamItem
  | [] => []
  | x :: xs => if x.isEnd then [x] else x :: uptoEnd xs

/-- The status of an end. -/
def StreamItem.status? : StreamItem → Option RequestStatus
  | .streamToken _ => none
  | .streamEnd status => some status

theorem StreamItem.uptoEnd_append {pre rest : List StreamItem} {x : StreamItem}
    (hpre : ∀ y ∈ pre, ¬ y.isEnd) (hx : x.isEnd) : uptoEnd (pre ++ [x] ++ rest) = pre ++ [x] := by
  induction pre with
  | nil => simp [uptoEnd, hx]
  | cons y pre ih =>
    have hy : ¬ y.isEnd := hpre y List.mem_cons_self
    rw [List.cons_append, List.cons_append, uptoEnd, if_neg hy,
      ih fun z hz => hpre z (List.mem_cons_of_mem _ hz)]

theorem StreamItem.uptoEnd_prefix (items : List StreamItem) : uptoEnd items <+: items := by
  induction items with
  | nil => exact List.prefix_rfl
  | cons x items ih =>
    rw [uptoEnd]
    split
    · exact ⟨items, rfl⟩
    · exact (List.prefix_cons_inj x).mpr ih

/-! ## What was read -/

namespace Timed
variable {items items' : List StreamItem} {t : Timed} {m : HttpMetrics} {id : RequestId}
  {x : StreamItem}

/-- What was taken off the queue. -/
def seen (t : Timed) (items : List StreamItem) : List StreamItem := items.take t.taken

/-- The counts are those of what was taken, and nothing was taken after an end. -/
structure Counts (items : List StreamItem) (t : Timed) : Prop where
  taken_le : t.taken ≤ items.length
  last : ∀ x ∈ (t.seen items).dropLast, ¬ x.isEnd
  ended : t.ended = true ↔ ∃ x ∈ t.seen items, x.isEnd
  nTokens : t.nTokens = (t.seen items).countP fun x => !x.isEnd
  first : t.first = true ↔ 0 < t.nTokens
  unstarted : t.phase = .unstarted → t.taken = 0

theorem Counts.new (items : List StreamItem) : Counts items {} := by
  constructor <;> simp [seen]

theorem seen_of_prefix (hle : t.taken ≤ items.length) (hpre : items <+: items') :
    t.seen items' = t.seen items := by
  obtain ⟨more, rfl⟩ := hpre
  exact List.take_append_of_le_length hle

/-- More items may be put. -/
theorem Counts.mono (h : t.Counts items) (hpre : items <+: items') : t.Counts items' := by
  have hseen := seen_of_prefix h.taken_le hpre
  exact ⟨h.taken_le.trans hpre.length_le, hseen ▸ h.last, hseen ▸ h.ended, hseen ▸ h.nTokens,
    h.first, h.unstarted⟩

theorem Counts.start (h : t.Counts items) : (t.start m).1.Counts items :=
  ⟨h.taken_le, h.last, h.ended, h.nTokens, h.first, fun hp => by cases hp⟩

theorem Counts.close (h : t.Counts items) : (t.close m).1.Counts items :=
  ⟨h.taken_le, h.last, h.ended, h.nTokens, h.first, fun hp => by cases hp⟩

@[simp] theorem pass_phase : (t.pass m id x).1.phase = t.phase := by cases x <;> rfl

@[simp] theorem pass_taken : (t.pass m id x).1.taken = t.taken + 1 := by cases x <;> rfl

theorem seen_pass (hx : items[t.taken]? = some x) :
    (t.pass m id x).1.seen items = t.seen items ++ [x] := by
  rw [seen, pass_taken, List.take_add_one, hx]
  rfl

/-- What a generator that has not ended has passed on are tokens. -/
theorem Counts.not_isEnd (h : t.Counts items) (he : t.ended = false) :
    ∀ x ∈ t.seen items, ¬ x.isEnd := by
  intro x hx hend
  have hended := h.ended.mpr ⟨x, hx, hend⟩
  rw [he] at hended
  cases hended

theorem Counts.pass (h : t.Counts items) (he : t.ended = false) (hp : t.phase = .running)
    (hx : items[t.taken]? = some x) : (t.pass m id x).1.Counts items := by
  have hnot := h.not_isEnd he
  have hlt : t.taken < items.length := (List.getElem?_eq_some_iff.mp hx).1
  have hseen : (t.pass m id x).1.seen items = t.seen items ++ [x] := seen_pass hx
  refine ⟨by rw [pass_taken]; exact hlt, ?_, ?_, ?_, ?_, fun hu => ?_⟩
  · rw [hseen, List.dropLast_concat]
    exact hnot
  · rw [hseen]
    cases x with
    | streamToken tok =>
      have hsame : (t.pass m id (.streamToken tok)).1.ended = t.ended := rfl
      rw [hsame, h.ended]
      simp [StreamItem.isEnd]
    | streamEnd status =>
      exact iff_of_true rfl ⟨_, List.mem_append_right _ List.mem_cons_self, rfl⟩
  · rw [hseen, List.countP_append, ← h.nTokens]
    cases x <;> rfl
  · cases x with
    | streamToken tok => exact iff_of_true rfl (Nat.succ_pos _)
    | streamEnd status => exact h.first
  · rw [pass_phase, hp] at hu
    cases hu

/-! ## What was counted -/

end Timed

/-- Tokens, first tokens, gaps between tokens, ends, responses under way, and lines of the log. -/
abbrev Counted := ℕ × ℕ × ℕ × ℕ × ℤ × Multiset RequestRecord

def HttpMetrics.counted (m : HttpMetrics) : Counted :=
  (m.generatedTokens, m.timeToFirstToken, m.interToken, m.request, m.requestsInFlight,
    (m.requestLog : Multiset RequestRecord))

namespace Timed
variable {items items' : List StreamItem} {t : Timed} {m : HttpMetrics} {id : RequestId}
  {x : StreamItem}

/-- What a generator has counted. -/
def counted (t : Timed) (id : RequestId) (items : List StreamItem) : Counted :=
  (t.nTokens, if t.first then 1 else 0, t.nTokens - 1, if t.ended then 1 else 0,
    if t.phase = .running ∧ t.ended = false then 1 else 0,
    (((t.seen items).filterMap StreamItem.status?).map fun status =>
      (⟨id, status, t.nTokens⟩ : RequestRecord) : List RequestRecord))

theorem counted_start (h : t.Counts items) (hp : t.phase = .unstarted) : ∃ δ,
    (t.start m).2.counted = m.counted + δ ∧
      (t.start m).1.counted id items = t.counted id items + δ := by
  have he : t.ended = false := by
    rw [Bool.eq_false_iff, ne_eq, h.ended, seen, h.unstarted hp]
    simp
  refine ⟨(0, 0, 0, 0, 1, 0), ?_, ?_⟩
  · simp [start, HttpMetrics.counted]
  · simp [start, counted, seen, hp, he]

theorem counted_close : ∃ δ, (t.close m).2.counted = m.counted + δ ∧
    (t.close m).1.counted id items = t.counted id items + δ := by
  by_cases hopen : t.phase = .running ∧ t.ended = false
  · refine ⟨(0, 0, 0, 0, -1, 0), ?_, ?_⟩
    · simp [close, HttpMetrics.counted, hopen, sub_eq_add_neg]
    · simp [close, counted, seen, hopen]
  · refine ⟨0, ?_, ?_⟩
    · simp [close, hopen]
    · simp [close, counted, seen, hopen]

theorem counted_pass (h : t.Counts items) (he : t.ended = false) (hp : t.phase = .running)
    (hx : items[t.taken]? = some x) : ∃ δ, (t.pass m id x).2.counted = m.counted + δ ∧
      (t.pass m id x).1.counted id items = t.counted id items + δ := by
  have hnone : (t.seen items).filterMap StreamItem.status? = [] := by
    refine List.filterMap_eq_nil_iff.mpr fun y hy => ?_
    cases y with
    | streamToken tok => rfl
    | streamEnd status => exact absurd rfl (h.not_isEnd he _ hy)
  have hseen : (t.pass m id x).1.seen items = t.seen items ++ [x] := seen_pass hx
  cases x with
  | streamToken tok =>
    by_cases hfirst : t.first = true
    · have hpos := h.first.mp hfirst
      refine ⟨(1, 0, 1, 0, 0, 0), ?_, ?_⟩
      · simp [pass, HttpMetrics.counted, hfirst]
      · rw [counted, hseen, List.filterMap_append, hnone, counted, hnone]
        simp [pass, hfirst, he, hp, StreamItem.status?]
        omega
    · have hzero : t.nTokens = 0 := Nat.eq_zero_of_not_pos (mt h.first.mpr hfirst)
      refine ⟨(1, 1, 0, 0, 0, 0), ?_, ?_⟩
      · simp [pass, HttpMetrics.counted, hfirst]
      · rw [counted, hseen, List.filterMap_append, hnone, counted, hnone]
        simp [pass, hfirst, he, hp, hzero, StreamItem.status?]
  | streamEnd status =>
    refine ⟨(0, 0, 0, 1, -1, {⟨id, status, t.nTokens⟩}), ?_, ?_⟩
    · simp [pass, HttpMetrics.counted, sub_eq_add_neg]
      rfl
    · rw [counted, hseen, List.filterMap_append, hnone, counted, hnone]
      simp [pass, he, hp, StreamItem.status?]

end Timed

/-! ## What was passed on -/

namespace Connection
variable {model : String} {items items' : List StreamItem} {c c' : Connection} {m m' : HttpMetrics}
  {a : Option RequestId} {seen : List StreamItem}

/-- What a streaming response has passed on between two frames: all but an item that it is about to
find. -/
def Reads (model : String) (seen : List StreamItem) (c : Connection) : Prop :=
  match c.pending with
  | .ready x => ∃ pre, seen = pre ++ [x] ∧ c.frames = pre.map (StreamItem.frame model c.requestId)
  | _ => c.timed.ended = false ∧ c.frames = seen.map (StreamItem.frame model c.requestId)

/-- What was passed on, by where the response is. -/
def At (model : String) (seen : List StreamItem) (c : Connection) : Prop :=
  match c.place with
  | .submitting | .unopened => c.pending = .idle ∧ c.timed.phase = .unstarted ∧ c.frames = []
  | .checking | .waiting => c.Reads model seen
  | .sending x => c.pending = .idle ∧ seen.getLast? = some x ∧
      c.frames = seen.map (StreamItem.frame model c.requestId)
  | .sendingDone | .streamed => c.pending = .idle ∧ c.timed.ended = true ∧
      c.frames = seen.map (StreamItem.frame model c.requestId) ++ [.done]
  | .collecting tokenIds reason => c.frames = [] ∧ c.pending = .reading ∧
      (c.timed.ended = false ∧ seen = tokenIds.map .streamToken ∨
        ∃ status, reason = some (finishReason status) ∧ c.timed.ended = true ∧
          seen = tokenIds.map .streamToken ++ [.streamEnd status])
  | .responded response => c.frames = [] ∧ c.pending = .idle ∧ ∃ tokenIds status,
      seen = tokenIds.map .streamToken ++ [.streamEnd status] ∧
        response = c.response model tokenIds (some (finishReason status))
  | .gone => c.pending ≠ .reading ∧
      ∃ n, c.frames = (seen.take n).map (StreamItem.frame model c.requestId)

/-- The response has read items of its handle, and passed them on. -/
structure Follows (model : String) (items : List StreamItem) (c : Connection) : Prop where
  counts : c.timed.Counts items
  place : c.At model (c.timed.seen items)

theorem Follows.mono (h : c.Follows model items) (hpre : items <+: items') :
    c.Follows model items' :=
  ⟨h.counts.mono hpre, Timed.seen_of_prefix h.counts.taken_le hpre ▸ h.place⟩

theorem at_of_reads (hp : c.place = .checking ∨ c.place = .waiting) :
    c.At model seen ↔ c.Reads model seen := by
  rcases hp with hp | hp <;> rw [At, hp]

/-- Without an item at hand, all of it was passed on. -/
theorem reads_of_not_ready (hr : ∀ x, c.pending ≠ .ready x) : c.Reads model seen ↔
    c.timed.ended = false ∧ c.frames = seen.map (StreamItem.frame model c.requestId) := by
  unfold Reads
  split
  · exact absurd ‹_› (hr _)
  · rfl

theorem Reads.torn (h : c.Reads model seen) :
    ∃ n, c.frames = (seen.take n).map (StreamItem.frame model c.requestId) := by
  unfold Reads at h
  split at h
  · obtain ⟨pre, rfl, hframes⟩ := h
    exact ⟨pre.length, by rw [List.take_left, hframes]⟩
  · exact ⟨seen.length, by rw [List.take_length, h.2]⟩

/-- A response that is torn down has passed on the first of what it has read. -/
theorem Follows.cancelRead (h : c.Follows model items)
    (hframes : ∃ n, c.frames =
      ((c.timed.seen items).take n).map (StreamItem.frame model c.requestId)) :
    (c.cancelRead m).1.Follows model items := by
  unfold Connection.cancelRead
  split
  · exact ⟨h.counts.close (m := m), PendingRead.noConfusion, hframes⟩
  · exact ⟨h.counts, ‹_›, hframes⟩

/-- Whatever a response does, it passes on what it has read. -/
theorem Follows.next (h : c.Follows model items) (hn : c.Next model items m a c' m') :
    c'.Follows model items := by
  have hat := h.place
  cases hn with
  | opened hp =>
    simp only [At, hp] at hat
    obtain ⟨hidle, hunstarted, hframes⟩ := hat
    have hseen : c.timed.seen items = [] := by
      rw [Timed.seen, h.counts.unstarted hunstarted, List.take_zero]
    have hended : c.timed.ended = false := by
      rw [Bool.eq_false_iff, ne_eq, h.counts.ended, hseen]
      simp
    refine ⟨h.counts, (at_of_reads (.inl rfl)).mpr ((reads_of_not_ready ?_).mpr ⟨hended, ?_⟩)⟩
    · simp [hidle]
    · simp [hframes, hseen]
  | disconnected hp => exact h.cancelRead ((at_of_reads (.inl hp)).mp hat).torn
  | connected hp =>
    refine ⟨h.counts, (at_of_reads (.inr rfl)).mpr ?_⟩
    rw [at_of_reads (.inl hp)] at hat
    by_cases hidle : c.pending = .idle
    · rw [reads_of_not_ready (by simp [hidle])] at hat
      exact (reads_of_not_ready (by simp [hidle])).mpr hat
    · simp only [if_neg hidle]
      exact hat
  | start hr ht =>
    refine ⟨h.counts.start (m := m), ?_⟩
    unfold At at hat ⊢
    cases hplace : c.place with
    | checking | waiting =>
      simp only [hplace] at hat ⊢
      rw [reads_of_not_ready (by simp [hr])] at hat
      exact (reads_of_not_ready (by simp [hr])).mpr hat
    | collecting tokenIds reason =>
      simp only [hplace] at hat ⊢
      exact hat
    | submitting | unopened | sending | sendingDone | streamed | responded | gone =>
      simp [hplace, hr] at hat
  | @take x hs hr ht hx =>
    rw [at_of_reads hs, reads_of_not_ready (by simp [hr])] at hat
    refine ⟨h.counts.pass hat.1 ht hx, ?_⟩
    rw [at_of_reads (by exact hs), Timed.seen_pass hx]
    exact ⟨c.timed.seen items, rfl, hat.2⟩
  | timedOut hp hr =>
    rw [at_of_reads (.inr hp)] at hat
    exact ⟨h.counts, (at_of_reads (.inl rfl)).mpr hat⟩
  | @send x hp hr =>
    rw [at_of_reads (.inr hp), Reads, hr] at hat
    obtain ⟨pre, hseen, hframes⟩ := hat
    refine ⟨h.counts, rfl, ?_, ?_⟩
    · rw [hseen, List.getLast?_concat]
    · simp [hseen, hframes]
  | @sentToken t hp =>
    simp only [At, hp] at hat
    obtain ⟨hidle, hlast, hframes⟩ := hat
    refine ⟨h.counts, (at_of_reads (.inl rfl)).mpr ((reads_of_not_ready ?_).mpr ⟨?_, hframes⟩)⟩
    · simp [hidle]
    · obtain ⟨pre, hseen⟩ := List.getLast?_eq_some_iff.mp hlast
      rw [Bool.eq_false_iff, ne_eq, h.counts.ended, hseen]
      rintro ⟨x, hx, hend⟩
      rcases List.mem_append.mp hx with hx | hx
      · have hnot := h.counts.last
        rw [hseen, List.dropLast_concat] at hnot
        exact hnot x hx hend
      · rw [List.mem_singleton.mp hx] at hend
        cases hend
  | @sentEnd status hp =>
    simp only [At, hp] at hat
    obtain ⟨hidle, hlast, hframes⟩ := hat
    refine ⟨h.counts, hidle, ?_, by rw [hframes]⟩
    exact h.counts.ended.mpr ⟨_, List.mem_of_getLast? hlast, rfl⟩
  | sentDone hp =>
    simp only [At, hp] at hat
    exact ⟨h.counts, hat⟩
  | cancelled hp => exact h.cancelRead ((at_of_reads hp).mp hat).torn
  | closed hp =>
    rcases hp with hp | ⟨x, hp⟩
    · simp only [At, hp] at hat
      obtain ⟨hidle, -, hframes⟩ := hat
      exact ⟨h.counts, by simp [hidle], 0, by simp [hframes]⟩
    · simp only [At, hp] at hat
      obtain ⟨hidle, -, hframes⟩ := hat
      refine ⟨h.counts, by simp [hidle], (c.timed.seen items).length, ?_⟩
      rw [List.take_length]
      exact hframes
  | @collectToken tokenIds reason t hp ht he hx =>
    simp only [At, hp] at hat
    obtain ⟨hframes, hr, hseen⟩ := hat
    refine ⟨h.counts.pass he ht hx, hframes, hr, .inl ⟨he, ?_⟩⟩
    rcases hseen with ⟨-, hseen⟩ | ⟨_, _, he', _⟩
    · show (c.timed.pass m c.requestId _).1.seen items = _
      rw [Timed.seen_pass hx, hseen, List.map_append]
      rfl
    · rw [he] at he'
      cases he'
  | @collectEnd tokenIds reason status hp ht he hx =>
    simp only [At, hp] at hat
    obtain ⟨hframes, hr, hseen⟩ := hat
    refine ⟨h.counts.pass he ht hx, hframes, hr, .inr ⟨status, rfl, rfl, ?_⟩⟩
    rcases hseen with ⟨-, hseen⟩ | ⟨_, _, he', _⟩
    · show (c.timed.pass m c.requestId _).1.seen items = _
      rw [Timed.seen_pass hx, hseen]
    · rw [he] at he'
      cases he'
  | @respond tokenIds reason hp he =>
    simp only [At, hp] at hat
    obtain ⟨hframes, -, hseen⟩ := hat
    refine ⟨h.counts.close (m := m), hframes, rfl, ?_⟩
    rcases hseen with ⟨he', -⟩ | ⟨status, rfl, -, hseen⟩
    · rw [he] at he'
      cases he'
    · exact ⟨tokenIds, status, hseen, rfl⟩
  | @dropped tokenIds reason hp =>
    simp only [At, hp] at hat
    exact h.cancelRead ⟨0, by rw [hat.1]; rfl⟩
  | finalize hp ht =>
    refine ⟨h.counts.close (m := m), ?_⟩
    rcases hp with hp | hp
    · simp only [At, hp] at hat ⊢
      exact hat
    · simp only [At, hp] at hat ⊢
      exact hat

/-- What a response has counted. -/
def counted (c : Connection) (items : List StreamItem) : Counted :=
  c.timed.counted c.requestId items

theorem counted_cancelRead : ∃ δ, (c.cancelRead m).2.counted = m.counted + δ ∧
    (c.cancelRead m).1.counted items = c.counted items + δ := by
  unfold cancelRead
  split
  · exact Timed.counted_close
  · exact ⟨0, (add_zero _).symm, (add_zero _).symm⟩

/-- What a response adds to the metrics is what it counts. -/
theorem Follows.counted_next (h : c.Follows model items) (hn : c.Next model items m a c' m') :
    ∃ δ, m'.counted = m.counted + δ ∧ c'.counted items = c.counted items + δ := by
  have hat := h.place
  cases hn with
  | disconnected | cancelled | dropped => exact counted_cancelRead
  | start hr ht => exact Timed.counted_start h.counts ht
  | take hs hr ht hx =>
    rw [at_of_reads hs, reads_of_not_ready (by simp [hr])] at hat
    exact Timed.counted_pass h.counts hat.1 ht hx
  | collectToken hp ht he hx | collectEnd hp ht he hx =>
    exact Timed.counted_pass h.counts he ht hx
  | respond | finalize => exact Timed.counted_close
  | opened | connected | timedOut | send | sentToken | sentEnd | sentDone | closed =>
    exact ⟨0, (add_zero _).symm, (add_zero _).symm⟩

theorem cancelRead_place : (c.cancelRead m).1.place = .gone ∧
    (c.cancelRead m).1.requestId = c.requestId ∧ (c.cancelRead m).1.handle = c.handle := by
  unfold cancelRead
  split <;> exact ⟨rfl, rfl, rfl⟩

/-- A response keeps its request; one that aborts is gone, and stays it. -/
theorem Next.keeps (hn : c.Next model items m a c' m') : c'.requestId = c.requestId ∧
    c'.handle = c.handle ∧ (c.place = .gone → c'.place = .gone) ∧
      ∀ id ∈ a, c.requestId = id ∧ c'.place = .gone := by
  have hnone : ∀ id ∈ (none : Option RequestId), c.requestId = id ∧ c'.place = .gone :=
    fun _ hid => by cases hid
  cases hn with
  | disconnected hp | cancelled hp =>
    obtain ⟨hplace, hid, hhandle⟩ := cancelRead_place (c := c) (m := m)
    exact ⟨hid, hhandle, fun _ => hplace, fun id heq => ⟨Option.some.inj heq, hplace⟩⟩
  | dropped hp =>
    obtain ⟨hplace, hid, hhandle⟩ := cancelRead_place (c := c) (m := m)
    exact ⟨hid, hhandle, fun _ => hplace, hnone⟩
  | opened hp | connected hp | timedOut hp | send hp | sentToken hp | sentEnd hp | sentDone hp
  | collectToken hp | collectEnd hp | respond hp =>
    refine ⟨rfl, rfl, fun hgone => ?_, hnone⟩
    rw [hp] at hgone
    cases hgone
  | closed => exact ⟨rfl, rfl, fun _ => rfl, hnone⟩
  | start | take | finalize => exact ⟨rfl, rfl, id, hnone⟩

/-- What the client of a response has, by what was put on the handle. -/
structure Delivers (model : String) (items : List StreamItem) (c : Connection) : Prop where
  /-- Frames are those of the first items, and nothing else before the last frame. -/
  frames : (∃ n, c.frames = (items.take n).map (StreamItem.frame model c.requestId)) ∨
    c.frames = (StreamItem.uptoEnd items).map (StreamItem.frame model c.requestId) ++ [.done]
  /-- A stream that is over has all frames up to the end. -/
  streamed : c.place = .streamed → ∃ (tokenIds : List Token) (status : RequestStatus),
    StreamItem.uptoEnd items = tokenIds.map .streamToken ++ [.streamEnd status] ∧
      c.frames = (StreamItem.uptoEnd items).map (StreamItem.frame model c.requestId) ++ [.done]
  /-- An answer has all tokens and the reason of the end. -/
  responded : ∀ response, c.place = .responded response →
    ∃ (tokenIds : List Token) (status : RequestStatus),
    StreamItem.uptoEnd items = tokenIds.map .streamToken ++ [.streamEnd status] ∧
      response = c.response model tokenIds (some (finishReason status))

/-- Items without an end are tokens. -/
theorem exists_tokens {pre : List StreamItem} (h : ∀ x ∈ pre, ¬ x.isEnd) :
    ∃ tokenIds : List Token, pre = tokenIds.map .streamToken := by
  induction pre with
  | nil => exact ⟨[], rfl⟩
  | cons x pre ih =>
    obtain ⟨tokenIds, hpre⟩ := ih fun y hy => h y (List.mem_cons_of_mem _ hy)
    cases x with
    | streamToken t => exact ⟨t :: tokenIds, by rw [hpre, List.map_cons]⟩
    | streamEnd status => exact absurd rfl (h _ List.mem_cons_self)

/-- What was taken when the end was is all up to the end. -/
theorem Follows.seen_eq (h : c.Follows model items) (he : c.timed.ended = true) :
    ∃ (tokenIds : List Token) (status : RequestStatus),
      c.timed.seen items = tokenIds.map .streamToken ++ [.streamEnd status] ∧
        StreamItem.uptoEnd items = c.timed.seen items := by
  obtain ⟨x, hx, hend⟩ := h.counts.ended.mp he
  have hne : c.timed.seen items ≠ [] := List.ne_nil_of_mem hx
  have hlast := h.counts.last
  have hconcat := List.dropLast_concat_getLast hne
  have hend' : ((c.timed.seen items).getLast hne).isEnd := by
    rw [← hconcat, List.mem_append] at hx
    rcases hx with hx | hx
    · exact absurd hend (hlast x hx)
    · rwa [← List.mem_singleton.mp hx]
  obtain ⟨tokenIds, htokens⟩ := exists_tokens hlast
  have hupto : StreamItem.uptoEnd items = c.timed.seen items := by
    have happend : StreamItem.uptoEnd (_ ++ [_] ++ items.drop c.timed.taken) = _ :=
      StreamItem.uptoEnd_append hlast hend'
    rwa [hconcat, Timed.seen, List.take_append_drop] at happend
  cases hgl : (c.timed.seen items).getLast hne with
  | streamToken t =>
    rw [hgl] at hend'
    cases hend'
  | streamEnd status =>
    refine ⟨tokenIds, status, ?_, hupto⟩
    rw [← htokens, ← hgl, hconcat]

theorem Follows.delivers (h : c.Follows model items) : c.Delivers model items := by
  have hat := h.place
  have hprefix : ∀ n, (c.timed.seen items).take n = items.take (min n c.timed.taken) := fun n => by
    rw [Timed.seen, List.take_take]
  have hread : c.Reads model (c.timed.seen items) → ∃ n,
      c.frames = (items.take n).map (StreamItem.frame model c.requestId) := fun hreads => by
    obtain ⟨n, hframes⟩ := hreads.torn
    exact ⟨_, by rw [hframes, hprefix]⟩
  refine ⟨?_, fun hp => ?_, fun response hp => ?_⟩
  · unfold At at hat
    split at hat
    · exact .inl ⟨0, by rw [hat.2.2]; rfl⟩
    · exact .inl ⟨0, by rw [hat.2.2]; rfl⟩
    · exact .inl (hread hat)
    · exact .inl (hread hat)
    · exact .inl ⟨_, hat.2.2⟩
    · obtain ⟨tokenIds, status, -, hupto⟩ := h.seen_eq hat.2.1
      exact .inr (hupto ▸ hat.2.2)
    · obtain ⟨tokenIds, status, -, hupto⟩ := h.seen_eq hat.2.1
      exact .inr (hupto ▸ hat.2.2)
    · exact .inl ⟨0, by rw [hat.1]; rfl⟩
    · exact .inl ⟨0, by rw [hat.1]; rfl⟩
    · obtain ⟨-, n, hframes⟩ := hat
      exact .inl ⟨_, by rw [hframes, hprefix]⟩
  · simp only [At, hp] at hat
    obtain ⟨tokenIds, status, hseen, hupto⟩ := h.seen_eq hat.2.1
    exact ⟨tokenIds, status, hupto.trans hseen, hupto ▸ hat.2.2⟩
  · simp only [At, hp] at hat
    obtain ⟨-, -, tokenIds, status, hseen, hresponse⟩ := hat
    have he : c.timed.ended = true := by
      rw [h.counts.ended, hseen]
      exact ⟨_, List.mem_append_right _ List.mem_cons_self, rfl⟩
    obtain ⟨-, -, -, hupto⟩ := h.seen_eq he
    exact ⟨tokenIds, status, hupto.trans hseen, hresponse⟩

end Connection

/-! ## The worker beside them -/

namespace WorkerState
variable {σ : Type} {E : ServedEngine σ} {w w' : WorkerState σ} {a : Action}

/-- The ids whose abort is yet to be handled. -/
def abortsAhead (w : WorkerState σ) : List RequestId :=
  (match w.phase with
    | .aborting id => [id]
    | _ => []) ++
  w.incoming.filterMap fun
    | .abort id => some id
    | .submission _ => none

theorem mem_abortsAhead {id : RequestId} : id ∈ w.abortsAhead ↔
    w.phase = .aborting id ∨ .abort id ∈ w.incoming := by
  rw [abortsAhead, List.mem_append, List.mem_filterMap]
  refine or_congr ?_ ?_
  · cases w.phase <;> simp [eq_comm]
  · constructor
    · rintro ⟨x, hx, heq⟩
      cases x with
      | submission s => cases heq
      | abort id' => exact Option.some.inj heq ▸ hx
    · exact fun hx => ⟨_, hx, rfl⟩

/-- Only `abort` puts an abort on the queue. -/
theorem Next.abortsAhead (hn : w.Next E a w') (ha : ∀ id, a ≠ .abort id) :
    ∀ id ∈ w'.abortsAhead, id ∈ w.abortsAhead := by
  intro i hi
  rw [mem_abortsAhead] at hi ⊢
  -- but for the thread's pop, an action that moves the thread leaves the aborts on the queue there
  have hmoved : ∀ {phase : ThreadPhase} {incoming : List Incoming}, (∀ j, phase ≠ .aborting j) →
      incoming ⊆ w.incoming → phase = .aborting i ∨ .abort i ∈ incoming →
        w.phase = .aborting i ∨ .abort i ∈ w.incoming := fun hphase hsub hor =>
    .inr (hsub (hor.resolve_left (hphase i)))
  cases hn with
  | put => simpa [WorkerState.put] using hi
  | @readError h hr =>
    unfold WorkerState.readError at hi
    dsimp only at hi
    split at hi <;> exact hi
  | abort id => exact absurd rfl (ha id)
  | drainSubmission hp hq | collectSubmission hp hq =>
    exact hmoved (by simp) (by rw [hq]; exact List.subset_cons_self ..) hi
  | drainAbort hp hq =>
    rcases hi with hi | hi
    · cases hi
      exact .inr (hq ▸ List.mem_cons_self)
    · exact .inr (hq ▸ List.mem_cons_of_mem _ hi)
  | collectAbort hp hq => exact hi.imp_right fun hi => hq ▸ List.mem_cons_of_mem _ hi
  | emit hp =>
    rw [emit_eq] at hi
    exact hmoved (by simp) (List.Subset.refl _) hi
  | @finish r requests next hp =>
    exact hmoved (by simp) (List.Subset.refl _) (hi.imp_right fun hi => (finish_eq w r).1 ▸ hi)
  | @finished next hp =>
    exact hmoved (by cases next <;> simp [AfterFinish.phase]) (List.Subset.refl _) hi
  | drainEmpty | handle | handleRaises | abortRequests | abortRaises | sweepNothing | sweep
  | sweepRaises | idle | step | stepRaises | emitted | collectEmpty | endOne | ended =>
    exact hmoved (by simp [WorkerState.register, die]) (List.Subset.refl _) hi

/-- Only `put` makes a handle. -/
theorem Next.nextHandle_eq (hn : w.Next E a w')
    (ha : ∀ promptTokenIds params id timeout, a ≠ .put promptTokenIds params id timeout) :
    w'.nextHandle = w.nextHandle := by
  cases hn with
  | put promptTokenIds params id timeout => exact absurd rfl (ha _ _ _ _)
  | readError hr =>
    unfold WorkerState.readError
    dsimp only
    split <;> rfl
  | emit hp => rw [emit_eq]
  | @finish r requests next hp => exact (finish_eq w r).2.2.2.1
  | abort | drainSubmission | drainAbort | drainEmpty | handle | handleRaises | abortRequests
  | abortRaises | sweepNothing | sweep | sweepRaises | idle | step | stepRaises | emitted | finished
  | collectSubmission | collectAbort | collectEmpty | endOne | ended => rfl

end WorkerState

/-! ## The server -/

/-- Every handle has one reader, which passes on what it reads; the metrics are the sum of what the
responses have counted; and an abort is that of a response that is gone. -/
structure HttpState.Accounted {σ : Type} (app : AppConfig) (s : HttpState σ) : Prop where
  handles : s.connections.map Connection.handle = List.range s.worker.nextHandle
  follows : ∀ c ∈ s.connections, c.Follows app.modelName (s.worker.items c.handle)
  counted : s.metrics.counted =
    (s.connections.map fun c => c.counted (s.worker.items c.handle)).sum
  aborts : ∀ id ∈ s.worker.abortsAhead, ∃ c ∈ s.connections, c.requestId = id ∧ c.place = .gone

namespace HttpState
variable {σ : Type} {E : ServedEngine σ} {app : AppConfig} {s s' : HttpState σ} {w : WorkerState σ}

theorem Accounted.new (app : AppConfig) (start : σ) :
    Accounted app { worker := { engine := start } } :=
  ⟨rfl, fun _ hc => absurd hc List.not_mem_nil, rfl, fun _ hi => absurd hi List.not_mem_nil⟩

/-- The worker may put more items. -/
theorem Accounted.worker (h : s.Accounted app) (hitems : ∀ i, s.worker.items i <+: w.items i)
    (hnext : w.nextHandle = s.worker.nextHandle)
    (haborts : ∀ id ∈ w.abortsAhead, id ∈ s.worker.abortsAhead) :
    Accounted app { s with worker := w } where
  handles := by rw [hnext, h.handles]
  follows c hc := (h.follows c hc).mono (hitems _)
  counted := by
    rw [h.counted]
    refine congrArg List.sum (List.map_congr_left fun c hc => ?_)
    rw [Connection.counted, Connection.counted, Timed.counted, Timed.counted,
      Timed.seen_of_prefix (h.follows c hc).counts.taken_le (hitems _)]
  aborts id hid := h.aborts id (haborts id hid)

/-- One response may go on. -/
theorem Accounted.replace (h : s.Accounted app) {before after : List Connection}
    {c c' : Connection} {m : HttpMetrics} (hc : s.connections = before ++ c :: after)
    (hhandle : c'.handle = c.handle) (hid : c'.requestId = c.requestId)
    (hgone : c.place = .gone → c'.place = .gone)
    (hfollows : c'.Follows app.modelName (s.worker.items c.handle))
    (hcounted : ∃ δ, m.counted = s.metrics.counted + δ ∧ c'.counted (s.worker.items c.handle) =
      c.counted (s.worker.items c.handle) + δ) :
    Accounted app { s with connections := before ++ c' :: after, metrics := m } where
  handles := by
    rw [← h.handles, hc]
    simp [hhandle]
  follows d hd := by
    have hmem : d ∈ s.connections ∨ d = c' := by
      rw [hc]
      simp only [List.mem_append, List.mem_cons] at hd ⊢
      tauto
    rcases hmem with hd | rfl
    · exact h.follows d hd
    · exact hhandle ▸ hfollows
  counted := by
    obtain ⟨δ, hm, hd⟩ := hcounted
    rw [hm, h.counted, hc]
    simp only [List.map_append, List.map_cons, List.sum_append, List.sum_cons, hhandle, hd]
    rw [add_assoc, add_right_comm (c.counted _)]
  aborts i hi := by
    obtain ⟨d, hd, heq, hplace⟩ := h.aborts i hi
    rw [hc] at hd
    simp only [List.mem_append, List.mem_cons] at hd ⊢
    rcases hd with hd | rfl | hd
    · exact ⟨d, .inl hd, heq, hplace⟩
    · exact ⟨c', .inr (.inl rfl), hid.trans heq, hgone hplace⟩
    · exact ⟨d, .inr (.inr hd), heq, hplace⟩

/-- A new handler has a new handle, and nothing to pass on yet. -/
theorem Accounted.submit (h : s.Accounted app) (body : CompletionRequest) (fresh : RequestId) :
    (s.completions app body fresh).Accounted app where
  handles := by
    rw [completions, List.map_append, h.handles]
    exact List.range_succ.symm
  follows c hc := by
    rcases List.mem_append.mp hc with hc | hc
    · exact h.follows c hc
    · rw [List.mem_singleton.mp hc]
      exact ⟨.new _, rfl, rfl, rfl⟩
  counted := by
    show s.metrics.counted = (List.map _ (s.connections ++ [_])).sum
    rw [List.map_append, List.sum_append, h.counted]
    exact (add_zero _).symm
  aborts i hi := by
    rw [WorkerState.mem_abortsAhead] at hi
    have hi' : i ∈ s.worker.abortsAhead := by
      rw [WorkerState.mem_abortsAhead]
      simpa [completions, WorkerState.put] using hi
    obtain ⟨c, hc, heq⟩ := h.aborts i hi'
    exact ⟨c, List.mem_append_left _ hc, heq⟩

/-- Every action keeps the accounts. -/
theorem Accounted.next (h : s.Accounted app) {a : Option WorkerState.Action}
    (hn : s.Next E app a s') : s'.Accounted app := by
  cases hn with
  | thread hn =>
    exact h.worker hn.items_prefix (hn.nextHandle_eq (by simp)) (hn.abortsAhead (by simp))
  | submit body fresh => exact h.submit body fresh
  | @submitted w before after c hc hp hn =>
    have hworker := h.worker hn.items_prefix (hn.nextHandle_eq (by simp)) (hn.abortsAhead (by simp))
    have hfollows := hworker.follows c (hc ▸ List.mem_append_right _ List.mem_cons_self)
    have hat := hfollows.place
    simp only [Connection.At, hp] at hat
    obtain ⟨hidle, hunstarted, hframes⟩ := hat
    refine hworker.replace hc ?_ ?_ (fun hgone => by rw [hp] at hgone; cases hgone) ?_
      ⟨0, (add_zero _).symm, ?_⟩
    · unfold Connection.submitted
      split <;> rfl
    · unfold Connection.submitted
      split <;> rfl
    · unfold Connection.submitted
      split
      · exact ⟨hfollows.counts, hidle, hunstarted, hframes⟩
      · refine ⟨hfollows.counts, hframes, rfl, .inl ⟨?_, ?_⟩⟩
        · rw [Bool.eq_false_iff, ne_eq, hfollows.counts.ended, Timed.seen,
            hfollows.counts.unstarted hunstarted]
          simp
        · rw [Timed.seen, hfollows.counts.unstarted hunstarted]
          rfl
    · unfold Connection.submitted
      split <;> exact (add_zero _).symm
  | @respond before after c c' m hc hn =>
    obtain ⟨hid, hhandle, hgone, -⟩ := hn.keeps
    have hfollows := h.follows c (hc ▸ List.mem_append_right _ List.mem_cons_self)
    exact h.replace hc hhandle hid hgone (hfollows.next hn) (hfollows.counted_next hn)
  | @abort w before after c c' m id hc hr hn =>
    obtain ⟨hid, hhandle, hgone, habort⟩ := hr.keeps
    have hfollows := h.follows c (hc ▸ List.mem_append_right _ List.mem_cons_self)
    have hrest := h.replace hc hhandle hid hgone (hfollows.next hr) (hfollows.counted_next hr)
    cases hn
    refine ⟨hrest.handles, hrest.follows, hrest.counted, fun i hi => ?_⟩
    rw [WorkerState.mem_abortsAhead, List.mem_append, List.mem_singleton, ← or_assoc] at hi
    rcases hi with hi | hi
    · exact hrest.aborts i (WorkerState.mem_abortsAhead.mpr hi)
    · obtain ⟨heq, hplace⟩ := habort id rfl
      refine ⟨c', List.mem_append_right _ List.mem_cons_self, ?_, hplace⟩
      rw [hid, heq]
      exact (Incoming.abort.inj hi).symm

end HttpState

/-- In every run of the server, whatever the engine and however its parties interleave: every
handle has one response, its client has the items of the handle in order, each once, and the last
frame or the answer only with the end; the metrics are the sum of what the responses have counted;
and no abort is on its way but that of a response that is gone. -/
theorem responses_of_run {σ : Type} {E : ServedEngine σ} {app : AppConfig}
    {Meets : WorkerState σ → WorkerState.Action → Prop} {start : σ} {s : HttpState σ}
    (h : HttpRun E app Meets start s) :
    s.connections.map Connection.handle = List.range s.worker.nextHandle ∧
      (∀ c ∈ s.connections, c.Delivers app.modelName (s.worker.items c.handle)) ∧
      s.metrics.counted =
        (s.connections.map fun c => c.counted (s.worker.items c.handle)).sum ∧
      ∀ id ∈ s.worker.abortsAhead, ∃ c ∈ s.connections, c.requestId = id ∧ c.place = .gone := by
  have haccounted : s.Accounted app := by
    induction h with
    | start => exact .new app start
    | next _ _ hn ih => exact ih.next hn
  exact ⟨haccounted.handles, fun c hc => (haccounted.follows c hc).delivers, haccounted.counted,
    haccounted.aborts⟩

/-- Three clients submit. The prompt of the first is computed in two chunks, and its second token
bumps the second request. The first client reads its stream to the end, the second one has its
answer once its request has come back, and the third leaves after a token. -/
def threeClients : List HttpMove :=
  [.submit { prompt := [7, 7, 7], maxTokens := 2, stream := true } 0,
    .submit { prompt := [8], maxTokens := 3 } 1,
    .submit { prompt := [9], maxTokens := 2, stream := true } 2,
    .submitted 1, .submitted 0, .submitted 2] ++
  HttpMove.threads 17 ++ HttpMove.proceeds 0 6 ++ HttpMove.proceeds 1 2 ++
  HttpMove.threads 13 ++ HttpMove.proceeds 0 9 ++
  HttpMove.threads 7 ++ HttpMove.proceeds 2 6 ++ [.respond 2 .leave] ++
  HttpMove.threads 3 ++ HttpMove.proceeds 1 4

/-- What the three of them have got, with the abort of the third on its way. -/
theorem responses_of_run_three : ∃ s,
    HttpRun countingEngine.served {} (fun _ _ => True) countingEngine.start s ∧
      s.connections.map Connection.place = [.streamed,
        .responded { id := 1, model := "lightserve", choices :=
          [{ text := "1 2 3", tokenIds := [1, 2, 3], finishReason := "length" }] }, .gone] ∧
      s.connections.map Connection.frames =
        [[.streamToken 3, .streamToken 4, .streamEnd .finishedLengthCapped].map
            (StreamItem.frame "lightserve" 0) ++ [.done],
          [], [StreamItem.frame "lightserve" 2 (.streamToken 1)]] ∧
      s.worker.abortsAhead = [2] ∧ s.metrics.generatedTokens = 6 ∧ s.metrics.requestsInFlight = 1 ∧
      s.connections.map Connection.handle = List.range s.worker.nextHandle ∧
      (∀ c ∈ s.connections, c.Delivers "lightserve" (s.worker.items c.handle)) ∧
      s.metrics.counted =
        (s.connections.map fun c => c.counted (s.worker.items c.handle)).sum ∧
      ∀ id ∈ s.worker.abortsAhead, ∃ c ∈ s.connections, c.requestId = id ∧ c.place = .gone := by
  have h : ((({ worker := { engine := countingEngine.start } } : HttpState Scheduler).play
      countingEngine.served (countingEngine.outcome fun _ => none) {} (fun _ _ => True)
      threeClients).any fun s => decide (
        s.connections.map Connection.place = [.streamed,
          .responded { id := 1, model := "lightserve", choices :=
            [{ text := "1 2 3", tokenIds := [1, 2, 3], finishReason := "length" }] }, .gone] ∧
        s.connections.map Connection.frames =
          [[.streamToken 3, .streamToken 4, .streamEnd .finishedLengthCapped].map
              (StreamItem.frame "lightserve" 0) ++ [.done],
            [], [StreamItem.frame "lightserve" 2 (.streamToken 1)]] ∧
        s.worker.abortsAhead = [2] ∧ s.metrics.generatedTokens = 6 ∧
        s.metrics.requestsInFlight = 1)) = true := by
    decide +kernel
  simp only [Option.any_eq_true, decide_eq_true_eq] at h
  obtain ⟨s, hplay, hplace, hframes, haborts, htokens, hflight⟩ := h
  have hstart : HttpRun countingEngine.served {} (fun _ _ => True) countingEngine.start _ := .start
  have hrun := hstart.play (countingEngine.served_step_outcome (fun _ => none) fun _ => trivial)
    hplay
  exact ⟨s, hrun, hplace, hframes, haborts, htokens, hflight, responses_of_run hrun⟩

end LightServe
