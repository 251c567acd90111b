import LightServe.Memory.Contents
import LightServe.Model.CachedEngine
import LightServe.Serving.Advances
import LightServe.Serving.Backing

/-!
# A step over the cache

The ranges of a flat batch belong to different requests, and each is written to private blocks of
its request. So range by range the cache comes to hold what the requests were run on, and the rows
are those of `ModelRunner`, which samples from token prefixes.

## Main definitions

* `FlatRange.Follows` — a range continues what its request knows, within its table.
* `Stored.attendAll` — the pass over a flat batch.
-/

namespace LightServe

open Relation (ReflTransGen)
open Scheduler

variable {κ : Type} {m : CausalModel Token κ} {kv : KvCache κ} {bm : BlockManager}
  {prompts : Set (List Token)}

/-- A request as a tenant that knows some tokens. -/
def Request.knowing (known : List Token) (r : Request) : Tenant where
  requestId := r.requestId
  nodes := r.cachedPrefixNodes
  prompt := r.promptTokenIds
  known := known

/-- Requests as tenants, with what each of them knows. -/
def tenantsKnowing (known : RequestId → List Token) (rs : List Request) : List Tenant :=
  rs.map fun r => r.knowing (known r.requestId)

theorem mem_tenantsKnowing {known : RequestId → List Token} {rs : List Request} {r : Request}
    (h : r ∈ rs) : r.knowing (known r.requestId) ∈ tenantsKnowing known rs :=
  List.mem_map_of_mem (f := fun r => Request.knowing (known r.requestId) r) h

/-- Whatever tenants know, they lodge the same. -/
theorem Lodging.retold {rs : List Request} {f g : Request → Tenant}
    (l : Lodging prompts bm (rs.map f))
    (h : ∀ r, (g r).stake = (f r).stake ∧ (g r).prompt = (f r).prompt) :
    Lodging prompts bm (rs.map g) := by
  refine l.congr ?_ fun t' ht' => ?_
  · rw [stakesOf, stakesOf, List.map_map, List.map_map]
    exact List.map_congr_left fun r _ => (h r).1
  · obtain ⟨r, hr, rfl⟩ := List.mem_map.mp ht'
    exact ⟨f r, List.mem_map_of_mem hr, congrArg Prod.snd (h r).1.symm, (h r).2.symm⟩

/-- The range of a request continues what the request knows, and its table covers it. Together they
are a prefix of the prompt, or continue it. -/
structure FlatRange.Follows (bm : BlockManager) (known : List Token) (f : FlatRange) : Prop where
  start : known.length = f.seqStart
  stop : f.seqEnd = f.seqStart + f.inputIds.length
  rows : f.flatEnd - f.flatStart = f.inputIds.length
  covered : f.seqEnd ≤ bm.capacity f.request.requestId
  prompt : known ++ f.inputIds <+: f.request.promptTokenIds ∨
    f.request.promptTokenIds <+: known ++ f.inputIds

/-- The inputs that some ranges have for a request. -/
def inputsOf (ranges : List FlatRange) (id : RequestId) : List Token :=
  (ranges.filter fun f => f.request.requestId = id).flatMap FlatRange.inputIds

theorem inputsOf_cons (f : FlatRange) (ranges : List FlatRange) (id : RequestId) :
    inputsOf (f :: ranges) id =
      (if f.request.requestId = id then f.inputIds else []) ++ inputsOf ranges id := by
  by_cases h : f.request.requestId = id
  · rw [inputsOf, List.filter_cons_of_pos (by simpa using h), List.flatMap_cons, if_pos h]
    rfl
  · rw [inputsOf, List.filter_cons_of_neg (by simpa using h), if_neg h]
    rfl

/-! ## The forward pass -/

section Pass
variable {pr : PagedRunner κ} {rs : List Request} {known : RequestId → List Token}
  {ranges : List FlatRange} {f : FlatRange}

/-- One range. -/
theorem Stored.attend_follows (st : Stored pr.model kv bm (tenantsKnowing known rs))
    (l : Lodging prompts bm (tenantsKnowing known rs)) (hf : f.request ∈ rs)
    (h : f.Follows bm (known f.request.requestId)) :
    ∃ kv', pr.attend (bm.getBlockTable f.request) f kv = .ok (kv',
        (List.range f.inputIds.length).map fun j =>
          pr.model.next (known f.request.requestId ++ f.inputIds.take (j + 1))) ∧
      Stored pr.model kv' bm (tenantsKnowing
        (fun id => known id ++ if f.request.requestId = id then f.inputIds else []) rs) ∧
      ∀ l, l.1 ∉ bm.privateOf f.request.stake → kv'.slot l = kv.slot l := by
  have ht : f.request.knowing (known f.request.requestId) ∈ tenantsKnowing known rs :=
    mem_tenantsKnowing hf
  obtain ⟨kv', hattend, hsize, hholds, hframe⟩ :=
    st.attend l ht h.start h.stop h.rows h.covered h.prompt
  refine ⟨kv', hattend, st.frame l.partition ht hsize hframe fun t' ht' => ?_, hframe⟩
  obtain ⟨r, hr, rfl⟩ := List.mem_map.mp ht'
  by_cases hid : f.request.requestId = r.requestId
  · right
    show kv'.Holds (bm.tableOf r.requestId) (pr.model.cache (known r.requestId ++ _))
    rw [if_pos hid, ← hid]
    exact hholds
  · left
    dsimp only
    rw [if_neg hid, List.append_nil]
    exact ⟨mem_tenantsKnowing hr, fun hstake => hid (congrArg Prod.fst hstake).symm⟩

/-- All ranges, one after the other. -/
theorem Stored.attendAll (st : Stored pr.model kv bm (tenantsKnowing known rs))
    (l : Lodging prompts bm (tenantsKnowing known rs))
    (hnodup : (ranges.map fun f => f.request.requestId).Nodup)
    (h : ∀ f ∈ ranges, f.request ∈ rs ∧ f.Follows bm (known f.request.requestId)) :
    ∃ kv', pr.attendAll bm.getBlockTable ranges kv = .ok (kv', ranges.flatMap fun f =>
        (List.range f.inputIds.length).map fun j =>
          pr.model.next (known f.request.requestId ++ f.inputIds.take (j + 1))) ∧
      Stored pr.model kv' bm (tenantsKnowing (fun id => known id ++ inputsOf ranges id) rs) := by
  induction ranges generalizing kv known with
  | nil =>
    refine ⟨kv, rfl, ?_⟩
    simpa only [inputsOf, List.filter_nil, List.flatMap_nil, List.append_nil] using st
  | cons f ranges ih =>
    obtain ⟨⟨hf, hfollows⟩, h⟩ := List.forall_mem_cons.mp h
    obtain ⟨hne, hnodup⟩ := List.nodup_cons.mp hnodup
    obtain ⟨kv₁, hattend, st₁, -⟩ := st.attend_follows l hf hfollows
    have hother : ∀ g ∈ ranges, f.request.requestId ≠ g.request.requestId := fun g hg hid =>
      hne (List.mem_map.mpr ⟨g, hg, hid.symm⟩)
    obtain ⟨kv', hall, st'⟩ := ih st₁ (l.retold fun _ => ⟨rfl, rfl⟩) hnodup fun g hg => by
      obtain ⟨hmem, hfollows⟩ := h g hg
      rw [if_neg (hother g hg), List.append_nil]
      exact ⟨hmem, hfollows⟩
    refine ⟨kv', ?_, ?_⟩
    · rw [PagedRunner.attendAll, hattend, ok_bind]
      simp only [hall, ok_bind]
      refine congrArg (fun rows => Except.ok (kv', rows)) ?_
      rw [List.flatMap_cons]
      refine congrArg _ (List.flatMap_congr fun g hg => ?_)
      rw [if_neg (hother g hg), List.append_nil]
    · simpa only [inputsOf_cons, List.append_assoc] using st'

end Pass

/-! ## The ranges of a step -/

/-- What a request is scheduled for: some of its own tokens, or a verify round. -/
def Request.Rowed (r : Request) (n : ℕ) : Prop := (r.draftTokenIds = [] ∧ Placed r n) ∨ r.Verifies n

section Ranges
variable {r : Request} {n : ℕ} {f : FlatRange} {scheduled : List (Request × ℕ)}
  {ranges : List FlatRange}

/-- What comes before the rows of a request, and the rows themselves. -/
theorem Request.Rowed.length (h : r.Rowed n) : n ≤ r.numComputedTokens ∧
    (r.computedBefore (some n)).length = r.numComputedTokens - n ∧
    (r.inputs (some n)).length = n := by
  rcases h with ⟨hd, hp⟩ | hv
  · have hcomputed := hp.le_computed
    have hle := hp.computed_le hd
    refine ⟨hcomputed, ?_, ?_⟩
    · rw [Request.computedBefore, Option.getD_some, List.length_take, Request.length_allTokenIds]
      omega
    · rw [Request.inputs, Option.elim_some, if_pos hd, List.length_drop, List.length_take,
        Request.length_allTokenIds]
      omega
  · obtain ⟨hd, hlength, hcomputed, hlast, -⟩ := hv
    refine ⟨hcomputed, ?_, ?_⟩
    · rw [Request.computedBefore, Option.getD_some, List.length_take, Request.length_allTokenIds]
      omega
    · rw [Request.inputs, Option.elim_some, if_neg hd, List.length_append, List.length_take,
        List.length_drop, Request.length_allTokenIds]
      omega

/-- A request is run on its prompt, or on a part of it. -/
theorem Request.Rowed.prompt (h : r.Rowed n) :
    r.computedBefore (some n) ++ r.inputs (some n) <+: r.promptTokenIds ∨
      r.promptTokenIds <+: r.computedBefore (some n) ++ r.inputs (some n) := by
  rcases h with ⟨hd, -⟩ | hv
  · rw [Advance.run_undrafted hd]
    exact List.prefix_or_prefix_of_prefix (List.take_prefix _ _) (List.prefix_append _ _)
  · rw [Advance.run_verifies hv]
    exact .inr ((List.prefix_append _ _).trans (List.prefix_append _ _))

/-- What a registration reads of the prompt has been computed. -/
theorem Request.Rowed.registers (h : r.Rowed n) : r.promptTokenIds.take r.numComputedPrompt <+:
    r.computedBefore (some n) ++ r.inputs (some n) := by
  rcases h with ⟨hd, -⟩ | hv
  · rw [Advance.run_undrafted hd, Request.computed, Request.allTokenIds]
    refine (List.take_prefix_take_left (Nat.min_le_left _ _)).trans ?_
    exact (List.prefix_append _ _).take _
  · rw [Advance.run_verifies hv]
    exact (List.take_prefix _ _).trans ((List.prefix_append _ _).trans (List.prefix_append _ _))

/-- The inputs of a range. -/
theorem ModelRunner.IsRange.inputs_eq (h : IsRange r n f) : f.inputIds = r.inputs (some n) := by
  rw [Request.inputs, Option.elim_some]
  by_cases hd : r.draftTokenIds = []
  · rw [if_pos hd, h.undrafted hd, h.seqStart, h.seqEnd]
  · obtain ⟨-, t, ht, hin⟩ := h.drafted hd
    rw [if_neg hd, hin, ← h.seqStart, List.take_one, List.head?_drop, ht]
    rfl

theorem ModelRunner.IsRange.follows (h : IsRange r n f) (hr : r.Rowed n)
    (hcovered : r.numComputedTokens ≤ bm.capacity r.requestId) :
    f.Follows bm (r.computedBefore (some n)) := by
  obtain ⟨hle, hbefore, hlength⟩ := hr.length
  refine ⟨?_, ?_, ?_, ?_, ?_⟩
  · rw [hbefore, h.seqStart]
  · rw [h.inputs_eq, hlength, h.seqEnd, h.seqStart]
    omega
  · rw [h.inputs_eq, hlength, h.flatEnd, Nat.add_sub_cancel_left]
  · rw [h.seqEnd, h.request]
    exact hcovered
  · rw [h.inputs_eq, h.request]
    exact hr.prompt

/-- Each request has its own range. -/
theorem inputsOf_of_mem (hnodup : (ranges.map fun f => f.request.requestId).Nodup)
    (hf : f ∈ ranges) :
    inputsOf ranges f.request.requestId = f.inputIds := by
  induction ranges with
  | nil => cases hf
  | cons g ranges ih =>
    obtain ⟨hne, hnodup⟩ := List.nodup_cons.mp hnodup
    rw [inputsOf_cons]
    rcases List.mem_cons.mp hf with rfl | hf
    · rw [if_pos rfl, inputsOf, List.filter_eq_nil_iff.mpr, List.flatMap_nil, List.append_nil]
      intro g hg hid
      exact hne (List.mem_map.mpr ⟨g, hg, of_decide_eq_true hid⟩)
    · rw [if_neg, List.nil_append]
      · exact ih hnodup hf
      · exact fun hid => hne (List.mem_map.mpr ⟨f, hf, hid.symm⟩)

theorem inputsOf_of_notMem {id : RequestId} (h : id ∉ ranges.map fun f => f.request.requestId) :
    inputsOf ranges id = [] := by
  rw [inputsOf, List.filter_eq_nil_iff.mpr, List.flatMap_nil]
  exact fun f hf hid => h (List.mem_map.mpr ⟨f, hf, of_decide_eq_true hid⟩)

end Ranges

/-! ## The step's forward pass -/

/-- What `execute_model` relies on: rows that continue what a request has computed, behind a table
that covers them. -/
structure Scheduler.Runnable (prompts : Set (List Token)) (s : Scheduler) (out : SchedulerOutput) :
    Prop where
  inOrder : InOrder s
  lodging : Lodging prompts s.blockManager s.tenants
  nodup : (out.scheduled.map ScheduledRequest.request).Nodup
  rowed : ∀ r ∈ s.running, ∀ n, out.tokensOf r.requestId = some n → r.Rowed n
  covered : ∀ r ∈ s.running, r.Covered s.blockManager out

/-- The tokens that a running request has computed before its rows. -/
def SchedulerOutput.context (out : SchedulerOutput) (r : Request) : List Token :=
  r.computedBefore (out.tokensOf r.requestId)

/-- Those that it has computed after them, drafts included. -/
def SchedulerOutput.extended (out : SchedulerOutput) (r : Request) : List Token :=
  out.context r ++ r.inputs (out.tokensOf r.requestId)

/-- Tokens of running requests, by id. -/
def Scheduler.byId (s : Scheduler) (f : Request → List Token) (id : RequestId) : List Token :=
  (s.findRequest id).elim [] f

theorem Scheduler.byId_eq {s : Scheduler} (o : InOrder s) (f : Request → List Token) {r : Request}
    (hr : r ∈ s.running) : s.byId f r.requestId = f r := by
  rw [byId, findRequest_of_mem o.running_nodup hr, Option.elim_some]

theorem Scheduler.tenantsKnowing_byId {s : Scheduler} (o : InOrder s) (f : Request → List Token) :
    tenantsKnowing (s.byId f) s.running = s.running.map fun r => r.knowing (f r) :=
  List.map_congr_left fun _ hr => by rw [byId_eq o f hr]

namespace Scheduler.Runnable
variable {s s' : Scheduler} {out : SchedulerOutput} {r : Request} {n : ℕ} {pr : PagedRunner κ}
  {ranges : List FlatRange} {kv' : KvCache κ}

theorem lodging_knowing (p : s.Runnable prompts out) (known : RequestId → List Token) :
    Lodging prompts s.blockManager (tenantsKnowing known s.running) :=
  p.lodging.retold fun _ => ⟨rfl, rfl⟩

/-- What is scheduled are running requests, for as many tokens as the output says. -/
theorem mem_resolve_iff (p : s.Runnable prompts out) :
    (r, n) ∈ s.resolve out.scheduled ↔ r ∈ s.running ∧ out.tokensOf r.requestId = some n := by
  constructor
  · intro h
    obtain ⟨sr, hsr, hfind, hn⟩ := mem_resolve.mp h
    obtain ⟨hmem, hid⟩ := findRequest_eq_some hfind
    refine ⟨hmem, ?_⟩
    rw [SchedulerOutput.tokensOf, hid, find?_of_mem_nodup p.nodup hsr, ← hn]
    rfl
  · rintro ⟨hr, hn⟩
    obtain ⟨sr, hfind, rfl⟩ := Option.map_eq_some_iff.mp hn
    have hsr : sr.request = r.requestId := by
      simpa using List.find?_some hfind
    exact mem_resolve.mpr ⟨sr, List.mem_of_find?_eq_some hfind,
      hsr ▸ findRequest_of_mem p.inOrder.running_nodup hr, rfl⟩

/-- The ranges of the batch: one for each scheduled request, which it covers. -/
theorem batch (p : s.Runnable prompts out)
    (h : pr.toModelRunner.buildFlatBatch (s.resolve out.scheduled) = .ok ranges) :
    (ranges.map fun f => f.request.requestId).Nodup ∧
      (∀ f ∈ ranges, ∃ n, out.tokensOf f.request.requestId = some n ∧
        ModelRunner.IsRange f.request n f ∧ f.request ∈ s.running ∧
        f.Follows s.blockManager (out.context f.request)) ∧
      ∀ r ∈ s.running, inputsOf ranges r.requestId = r.inputs (out.tokensOf r.requestId) := by
  have hall := ModelRunner.forall_isRange (ModelRunner.flatLoop_of_buildFlatBatch h)
  have hids : (ranges.map fun f => f.request.requestId) =
      (s.resolve out.scheduled).map fun rn => rn.1.requestId := by
    clear h
    generalize s.resolve out.scheduled = scheduled at hall
    induction hall with
    | nil => rfl
    | cons h _ ih => rw [List.map_cons, List.map_cons, ih, h.request]
  have hnodup : (ranges.map fun f => f.request.requestId).Nodup :=
    hids ▸ (s.resolve_ids_sublist out.scheduled).nodup p.nodup
  have hranges : ∀ f ∈ ranges, ∃ n, out.tokensOf f.request.requestId = some n ∧
      ModelRunner.IsRange f.request n f ∧ f.request ∈ s.running ∧
      f.Follows s.blockManager (out.context f.request) := by
    intro f hf
    obtain ⟨⟨r, n⟩, hrn, hrange⟩ := exists_of_mem_forall₂ hall hf
    obtain ⟨hmem, hn⟩ := p.mem_resolve_iff.mp hrn
    obtain rfl := hrange.request
    have hid : f.request.requestId ∈ out.scheduled.map ScheduledRequest.request := by
      obtain ⟨sr, hsr, hfind, -⟩ := mem_resolve.mp hrn
      exact (findRequest_eq_some hfind).2 ▸ List.mem_map_of_mem hsr
    refine ⟨n, hn, hrange, hmem, ?_⟩
    rw [SchedulerOutput.context, hn]
    exact hrange.follows (p.rowed _ hmem n hn) ((p.covered _ hmem).range hid)
  refine ⟨hnodup, hranges, fun r hr => ?_⟩
  cases hn : out.tokensOf r.requestId with
  | none =>
    refine inputsOf_of_notMem fun hid => ?_
    obtain ⟨f, hf, hid⟩ := List.mem_map.mp hid
    obtain ⟨n, hsome, -⟩ := hranges f hf
    rw [hid, hn] at hsome
    cases hsome
  | some n =>
    have hrn := p.mem_resolve_iff.mpr ⟨hr, hn⟩
    have hid : r.requestId ∈ ranges.map fun f => f.request.requestId :=
      hids ▸ List.mem_map_of_mem (f := fun rn => rn.1.requestId) hrn
    obtain ⟨f, hf, hid⟩ := List.mem_map.mp hid
    obtain ⟨n, hsome, hrange, hmem, -⟩ := hranges f hf
    obtain rfl := p.inOrder.eq_of_id_eq hmem hr hid
    rw [inputsOf_of_mem hnodup hf, hrange.inputs_eq, ← hsome, hn]

/-- Tenants that know what they were run on as well. -/
theorem tenants_rows (p : s.Runnable prompts out)
    (h : pr.toModelRunner.buildFlatBatch (s.resolve out.scheduled) = .ok ranges) :
    tenantsKnowing (fun id => s.byId out.context id ++ inputsOf ranges id) s.running =
      s.running.map fun r => r.knowing (out.extended r) :=
  List.map_congr_left fun r hr => by
    dsimp only
    rw [SchedulerOutput.extended, byId_eq p.inOrder _ hr, (p.batch h).2.2 r hr]

/-- A first part of the pass. -/
theorem attendAll (p : s.Runnable prompts out)
    (st : Stored pr.model kv s.blockManager (s.running.map fun r => r.knowing (out.context r)))
    (h : pr.toModelRunner.buildFlatBatch (s.resolve out.scheduled) = .ok ranges)
    {pre : List FlatRange} (hpre : pre <+: ranges) :
    ∃ kv', pr.attendAll s.blockManager.getBlockTable pre kv =
        .ok (kv', pre.flatMap pr.toModelRunner.rowTokens) ∧
      Stored pr.model kv' s.blockManager
        (tenantsKnowing (fun id => s.byId out.context id ++ inputsOf pre id) s.running) := by
  obtain ⟨hnodup, hranges, -⟩ := p.batch h
  rw [← tenantsKnowing_byId p.inOrder out.context] at st
  obtain ⟨kv', hall, st'⟩ :=
    st.attendAll (p.lodging_knowing _) (hnodup.sublist (hpre.sublist.map _))
    fun f hf => by
      obtain ⟨n, -, -, hmem, hfollows⟩ := hranges f (hpre.subset hf)
      rw [byId_eq p.inOrder _ hmem]
      exact ⟨hmem, hfollows⟩
  refine ⟨kv', hall.trans ?_, st'⟩
  refine congrArg (fun rows => Except.ok (kv', rows)) (List.flatMap_congr fun f hf => ?_)
  obtain ⟨n, hn, hrange, hmem, -⟩ := hranges f (hpre.subset hf)
  rw [byId_eq p.inOrder _ hmem, SchedulerOutput.context, hn, ModelRunner.rowTokens, hrange.seqStart]
  rfl

/-- Over the cache the pass commits what it commits as a function of token prefixes, and the cache
comes to hold what the requests were run on. -/
theorem executeModel (p : s.Runnable prompts out)
    (st : Stored pr.model kv s.blockManager (s.running.map fun r => r.knowing (out.context r)))
    (h : pr.executeModel s out kv = .ok (s', kv')) :
    pr.toModelRunner.executeModel s out = .ok s' ∧
      Stored pr.model kv' s.blockManager (s.running.map fun r => r.knowing (out.extended r)) := by
  obtain ⟨⟨kv₁, ranges, rows⟩, hforward, h⟩ := bind_eq_ok.mp h
  obtain ⟨s₁, hcommit, hret⟩ := bind_eq_ok.mp h
  cases hret
  obtain ⟨ranges', hbatch, h⟩ := bind_eq_ok.mp hforward
  obtain ⟨⟨⟩, hlook, h⟩ := bind_eq_ok.mp h
  obtain ⟨⟨kv₂, rows'⟩, hattend, hret⟩ := bind_eq_ok.mp h
  cases hret
  obtain ⟨kv₂, hall, st'⟩ := p.attendAll st hbatch List.prefix_rfl
  cases hall.symm.trans hattend
  rw [p.tenants_rows hbatch] at st'
  exact ⟨bind_eq_ok.mpr ⟨_, hbatch, bind_eq_ok.mpr ⟨_, hlook, hcommit⟩⟩, st'⟩

/-- The pass over the cache returns whenever it does as a function of token prefixes. -/
theorem executeModel_returns (p : s.Runnable prompts out)
    (st : Stored pr.model kv s.blockManager (s.running.map fun r => r.knowing (out.context r)))
    (h : pr.toModelRunner.executeModel s out = .ok s') :
    ∃ kv', pr.executeModel s out kv = .ok (s', kv') := by
  obtain ⟨ranges, hbatch, h⟩ := bind_eq_ok.mp h
  obtain ⟨⟨⟩, hlook, hcommit⟩ := bind_eq_ok.mp h
  obtain ⟨kv', hall, -⟩ := p.attendAll st hbatch List.prefix_rfl
  have hforward : pr.forward s.blockManager.getBlockTable (s.resolve out.scheduled) kv =
      .ok (kv', ranges, ranges.flatMap pr.toModelRunner.rowTokens) :=
    bind_eq_ok.mpr ⟨ranges, hbatch, bind_eq_ok.mpr ⟨⟨⟩, hlook, bind_eq_ok.mpr ⟨_, hall, rfl⟩⟩⟩
  exact ⟨kv', bind_eq_ok.mpr ⟨_, hforward, bind_eq_ok.mpr ⟨s', hcommit, rfl⟩⟩⟩

/-- The rows of a request change no slot behind a node, or in the table of somebody else. -/
theorem writes (p : s.Runnable prompts out)
    (st : Stored pr.model kv s.blockManager (s.running.map fun r => r.knowing (out.context r)))
    (h : pr.toModelRunner.buildFlatBatch (s.resolve out.scheduled) = .ok ranges)
    {pre post : List FlatRange} {f : FlatRange} (hsplit : ranges = pre ++ f :: post) :
    ∃ kv₁ kv₂ rows rows', pr.attendAll s.blockManager.getBlockTable pre kv = .ok (kv₁, rows) ∧
      pr.attend (s.blockManager.getBlockTable f.request) f kv₁ = .ok (kv₂, rows') ∧
      ∀ l, (l.1 ∈ s.blockManager.tree.blocks ∨ ∃ r ∈ s.running, r.requestId ≠ f.request.requestId ∧
        l.1 ∈ s.blockManager.getBlockTable r) → kv₂.slot l = kv₁.slot l := by
  obtain ⟨hnodup, hranges, -⟩ := p.batch h
  obtain ⟨n, -, -, hmem, hfollows⟩ :=
    hranges f (hsplit ▸ List.mem_append_right _ List.mem_cons_self)
  obtain ⟨kv₁, hall, st₁⟩ := p.attendAll st h (hsplit ▸ List.prefix_append _ _)
  have hnone : inputsOf pre f.request.requestId = [] := by
    rw [hsplit, List.map_append, List.nodup_append] at hnodup
    exact inputsOf_of_notMem fun hid => hnodup.2.2 _ hid _ List.mem_cons_self rfl
  have l := p.lodging_knowing fun id => s.byId out.context id ++ inputsOf pre id
  obtain ⟨kv₂, hattend, -, hframe⟩ := st₁.attend_follows l hmem (by
    rw [hnone, List.append_nil, byId_eq p.inOrder _ hmem]
    exact hfollows)
  have hstake : ∀ r ∈ s.running, r.stake ∈ stakesOf
      (tenantsKnowing (fun id => s.byId out.context id ++ inputsOf pre id) s.running) :=
    fun r hr => List.mem_map_of_mem (f := Tenant.stake) (mem_tenantsKnowing hr)
  refine ⟨kv₁, kv₂, _, _, hall, hattend, fun l' hl => hframe l' fun hpriv => ?_⟩
  rcases hl with htree | ⟨r, hr, hne, htable⟩
  · exact (l.partition.notMem_of_private (hstake _ hmem) hpriv).2 htree
  · exact l.partition.notMem_tableOf_of_private (hstake _ hmem) (hstake r hr)
      (fun heq => hne (congrArg Prod.fst heq)) hpriv htable

end Scheduler.Runnable

end LightServe
