import LightServe.Serving.Commits
import LightServe.Speculation.Pool

/-!
# Rounds of the proposal loop

One round covers the shadow's tokens with blocks, runs the rows that are due and appends the
sample. A shadow whose computed positions hold the entries of its own tokens, and that has a row
due, samples what the draft model decodes greedily next.

## Main definitions

* `DraftProposer.Pooled.draftStep` — what every round does.
* `DraftProposer.Computed` — the computed positions of a shadow hold what they should.
* `DraftProposer.Computed.draftStep` — what a round proposes then.
* `DraftProposer.Computed.draftLoop` — what the loop proposes.
-/

namespace LightServe

namespace PagedRunner
variable {κ : Type} {m : PagedRunner κ} {tables : Request → List BlockId} {kv kv' : KvCache κ}

/-- A pass over one request. -/
theorem forward_single {r : Request} {n : ℕ} {ranges : List FlatRange} {rows : List Token}
    (h : m.forward tables [(r, n)] kv = .ok (kv', ranges, rows)) : ∃ f, ranges = [f] ∧
      ModelRunner.inputIds r n (r.numComputedTokens - n) r.numComputedTokens = .ok f.inputIds ∧
      f.request = r ∧ f.seqStart = r.numComputedTokens - n ∧ f.seqEnd = r.numComputedTokens ∧
      f.flatStart = 0 ∧ f.flatEnd = n ∧ m.toModelRunner.Readable f ∧
      m.attend (tables r) f kv = .ok (kv', rows) := by
  obtain ⟨ranges', hbatch, h⟩ := bind_eq_ok.mp h
  obtain ⟨_, hread, h⟩ := bind_eq_ok.mp h
  obtain ⟨⟨kv₁, rows₁⟩, hattend, hret⟩ := bind_eq_ok.mp h
  cases hret
  obtain ⟨ids, hids, hrest⟩ := bind_eq_ok.mp (ModelRunner.flatLoop_of_buildFlatBatch hbatch)
  obtain ⟨rest, hnil, hret⟩ := bind_eq_ok.mp hrest
  cases hnil
  cases hret
  refine ⟨_, rfl, hids, rfl, rfl, rfl, rfl, Nat.zero_add n, ?_, ?_⟩
  · unfold ModelRunner.lookUp at hread
    split at hread
    · rename_i hall
      exact hall _ List.mem_cons_self
    · cases hread
  · obtain ⟨⟨kv₂, rows₂⟩, hone, hrest⟩ := bind_eq_ok.mp hattend
    obtain ⟨⟨kv₃, rows₃⟩, hnil, hret⟩ := bind_eq_ok.mp hrest
    cases hnil
    cases hret
    rw [List.append_nil]
    exact hone

end PagedRunner

namespace DraftProposer
variable {κ : Type} {dp dp' : DraftProposer κ} {r shadow shadow' : Request} {id : RequestId}

/-- A shadow with its tokens counted as computed, as the loop hands it to the model. -/
def caughtUp (shadow : Request) : Request := { shadow with numComputedTokens := shadow.getLen }

theorem caughtUp_eq (shadow : Request) :
    ({ shadow with
      numComputedTokens := (shadow.numComputedTokens + shadow.getNumNewTokens).toNat } : Request) =
      caughtUp shadow := by
  have : (shadow.numComputedTokens + shadow.getNumNewTokens).toNat = shadow.getLen := by
    rw [Request.getNumNewTokens]
    omega
  rw [caughtUp, this]

/-- The stages of a round that returned. -/
theorem draftStep_stages (hs : dp.draftStep shadow = .ok (dp', shadow')) : ∃ bm kv f rows tokens,
    ensureCapacity dp.blockManager shadow = .ok bm ∧
    ModelRunner.inputIds (caughtUp shadow) shadow.getNumNewTokens.toNat
      (shadow.getLen - shadow.getNumNewTokens.toNat) shadow.getLen = .ok f.inputIds ∧
    f.request = caughtUp shadow ∧ f.seqStart = shadow.getLen - shadow.getNumNewTokens.toNat ∧
    f.seqEnd = shadow.getLen ∧ f.flatStart = 0 ∧ f.flatEnd = shadow.getNumNewTokens.toNat ∧
    dp.modelRunner.toModelRunner.Readable f ∧
    dp.modelRunner.attend (bm.getBlockTable shadow) f dp.kvCache = .ok (kv, rows) ∧
    ModelRunner.committed rows f = .ok tokens ∧
    shadow' = ModelRunner.commit tokens (caughtUp shadow) ∧
    dp' = { dp with
      blockManager := bm
      kvCache := kv
      shadowRequests := dp.shadowRequests.set shadow'.requestId shadow' } := by
  obtain ⟨bm, hbm, h⟩ := bind_eq_ok.mp hs
  dsimp only at h
  rw [caughtUp_eq] at h
  obtain ⟨⟨kv, ranges, rows⟩, hforward, h⟩ := bind_eq_ok.mp h
  obtain ⟨shadow₁, hcommit, hret⟩ := bind_eq_ok.mp h
  cases hret
  obtain ⟨f, rfl, hids, hreq, hstart, hend, hflat, hflat', hread, hattend⟩ :=
    PagedRunner.forward_single hforward
  obtain ⟨tokens, htokens, hdone⟩ := bind_eq_ok.mp hcommit
  cases hdone
  exact ⟨bm, kv, f, rows, tokens, hbm, hids, hreq, hstart, hend, hflat, hflat', hread, hattend,
    htokens, rfl, rfl⟩

/-- What every round does: it takes blocks for the shadow's tokens, counts them as computed and
appends a token or none. -/
theorem Pooled.draftStep (h : dp.Pooled)
    (hl : dp.shadowRequests.lookup shadow.requestId = some shadow)
    (hs : dp.draftStep shadow = .ok (dp', shadow')) :
    dp'.Pooled ∧ LeavesOthers shadow.requestId dp dp' ∧
      dp'.shadowRequests.lookup shadow.requestId = some shadow' ∧
      (∃ tokens status, tokens.length ≤ 1 ∧ shadow' = { caughtUp shadow with
        outputTokenIds := shadow.outputTokenIds ++ tokens
        status }) ∧
      (∃ more, dp'.tableOf shadow.requestId = dp.tableOf shadow.requestId ++ more) ∧
      shadow.numBlocksNeeded dp.blockManager.blockSize ≤ (dp'.tableOf shadow.requestId).length ∧
      (dp'.tableOf shadow.requestId).length ≤ max (dp.tableOf shadow.requestId).length
        (shadow.numBlocksNeeded dp.blockManager.blockSize) := by
  obtain ⟨bm, kv, f, rows, tokens, hbm, -, hreq, -, -, -, -, -, hattend, htokens, rfl, rfl⟩ :=
    draftStep_stages hs
  obtain ⟨hid, hd, hn⟩ := h.shadow _ shadow hl
  obtain ⟨bm', hrun, hgrows, hcover⟩ | ⟨bm', hrun, -⟩ := ensureLoop_cases h.partition
    (h.stake_mem hl) hd h.blockSize_pos (le_add_tsub)
  · cases hrun.symm.trans hbm
    obtain ⟨hsize, hframe⟩ := PagedRunner.attend_frame hattend
    obtain ⟨status, hcommit⟩ := LLMEngine.commit_shape tokens (caughtUp shadow)
    have hmem : shadow.requestId ∈ dp.shadowed := mem_shadowed.mpr ⟨shadow, hl⟩
    have hmay := ModelRunner.mayCommit_of_committed htokens
    have hlen : tokens.length ≤ 1 := by
      rw [hreq] at hmay
      unfold Request.MayCommit at hmay
      have hnil : (caughtUp shadow).draftTokenIds = [] := hd
      split at hmay
      · simp [hmay]
      · rw [if_neg (not_not.mpr hnil)] at hmay
        obtain ⟨t, rfl⟩ := hmay
        simp
    have hpool : Pooled { dp with blockManager := bm, kvCache := kv } := by
      refine ⟨hgrows.uncached.trans h.uncached, ?_, ?_, h.shadow, hgrows.partition⟩
      · show 0 < bm.blockSize
        rw [hgrows.blockSize]
        exact h.blockSize_pos
      · show kv.blockSize = bm.blockSize
        rw [hsize, hgrows.blockSize, h.sameSize]
    have hid' : (ModelRunner.commit tokens (caughtUp shadow)).requestId = shadow.requestId :=
      ModelRunner.commit_requestId _ _
    rw [hid']
    refine ⟨hpool.setShadow hmem hid' (by rw [hcommit]; exact hd) (by rw [hcommit]; exact hn),
      ⟨rfl, rfl, hgrows.blockSize, hgrows.numGpuBlocks, fun id' hne => Dict.lookup_set_ne _ _ hne,
        fun id' hne => hgrows.others id' hne, fun id' hne l hmem => hframe l ?_⟩,
      by simp, ⟨tokens, status, hlen, hcommit⟩, hgrows.table, hcover, hgrows.length_le⟩
    have htable := hgrows.others id' hne
    refine hgrows.partition.tableOf_disjoint hne ?_
    rw [htable]
    exact hmem
  · cases hrun.symm.trans hbm

/-! ## What is computed -/

/-- The computed positions of the shadow of `id` hold the entries of `tokens`. -/
def Computed (dp : DraftProposer κ) (shadow : Request) (tokens : List Token) : Prop :=
  dp.kvCache.Holds (dp.tableOf shadow.requestId)
    (dp.modelRunner.model.cache (tokens.take shadow.numComputedTokens))

/-- What is computed for one request survives a call for another. -/
theorem Computed.of_leavesOthers (h : dp.Pooled) (h' : dp'.Pooled) {tokens : List Token}
    (hc : dp.Computed shadow tokens) (hl : LeavesOthers id dp dp') (hne : shadow.requestId ≠ id) :
    dp'.Computed shadow tokens := by
  rw [Computed, hl.table _ hne, hl.modelRunner]
  refine KvCache.Holds.congr hc ?_ fun p hp => hl.slot _ hne _ ?_
  · rw [h'.sameSize, hl.blockSize, h.sameSize]
  · have hlt := KvCache.div_lt_of_lt_capacity (hp.trans_le hc.covered)
    rw [KvCache.location, List.getD_eq_getElem _ _ hlt]
    exact List.getElem_mem _

/-- A round for a shadow that computed its own tokens so far and has a row due appends the
greedy next token. -/
theorem Computed.draftStep (h : dp.Pooled)
    (hl : dp.shadowRequests.lookup shadow.requestId = some shadow)
    (hc : dp.Computed shadow shadow.allTokenIds) (hlt : shadow.numComputedTokens < shadow.getLen)
    (hs : dp.draftStep shadow = .ok (dp', shadow')) :
    shadow'.outputTokenIds =
        shadow.outputTokenIds ++ [dp.modelRunner.model.next shadow.allTokenIds] ∧
      dp'.Computed shadow' shadow'.allTokenIds := by
  obtain ⟨hpool', hleaves, -, -, -, hcover, -⟩ := h.draftStep hl hs
  obtain ⟨bm, kv, f, rows, tokens, hbm, hids, hreq, hstart, hend, hflat, hflat', hread, hattend,
    htokens, rfl, rfl⟩ := draftStep_stages hs
  obtain ⟨hid, hd, hn⟩ := h.shadow _ shadow hl
  obtain ⟨bm', hrun, hgrows, -⟩ | ⟨bm', hrun, -⟩ := ensureLoop_cases h.partition
    (h.stake_mem hl) hd h.blockSize_pos (le_add_tsub)
  · cases hrun.symm.trans hbm
    have hnew : shadow.getNumNewTokens.toNat = shadow.getLen - shadow.numComputedTokens := by
      rw [Request.getNumNewTokens]
      omega
    have hseq : shadow.getLen - shadow.getNumNewTokens.toNat = shadow.numComputedTokens := by omega
    have hnil : (caughtUp shadow).draftTokenIds = [] := hd
    have hall : (caughtUp shadow).allTokenIds = shadow.allTokenIds := rfl
    have hlen := shadow.length_allTokenIds
    rw [ModelRunner.inputIds, if_neg (not_not.mpr hnil), hseq, hall, ← hlen,
      List.take_length] at hids
    have hinput : f.inputIds = shadow.allTokenIds.drop shadow.numComputedTokens :=
      (Except.ok.inj hids).symm
    have hsplit : shadow.allTokenIds.take shadow.numComputedTokens ++ f.inputIds =
        shadow.allTokenIds := by rw [hinput, List.take_append_drop]
    have hinlen : f.inputIds.length = shadow.getLen - shadow.numComputedTokens := by
      rw [hinput, List.length_drop, hlen]
    obtain ⟨more, hmore⟩ := hgrows.table
    have htable : bm.getBlockTable shadow = bm.tableOf shadow.requestId := rfl
    have hheld := hc.append more
    rw [tableOf, ← hmore, ← htable] at hheld
    have hcap : shadow.getLen ≤ (bm.getBlockTable shadow).length * dp.kvCache.blockSize := by
      rw [h.sameSize]
      exact (shadow.numBlocksNeeded_le_iff h.blockSize_pos).mp hcover
    obtain ⟨kv', hok, -, hholds, -⟩ := PagedRunner.attend_of_holds hheld
      (hgrows.partition.tableOf_nodup (h.stake_mem hl))
      (by rw [List.length_take, hlen, hstart, hseq]; omega)
      (by rw [hend, hstart, hseq, hinlen]; omega)
      (by rw [hflat, hflat', hinlen, hnew]; rfl) (by rw [hend]; exact hcap)
    cases hok.symm.trans hattend
    have hpre : (caughtUp shadow).isPrefill = false := by
      simp [Request.isPrefill, caughtUp, Request.getLen]
    rw [ModelRunner.committed, hreq, hpre, if_neg Bool.false_ne_true, if_neg (not_not.mpr hnil),
      hflat', List.getElem?_map, List.getElem?_range (by omega)] at htokens
    have hfull : f.inputIds.take (shadow.getNumNewTokens.toNat - 1 + 1) = f.inputIds :=
      List.take_of_length_le (by omega)
    simp only [Option.map_some, hfull, hsplit] at htokens
    obtain rfl := Except.ok.inj htokens
    obtain ⟨status, hcommit⟩ :=
      LLMEngine.commit_shape [dp.modelRunner.model.next shadow.allTokenIds]
      (caughtUp shadow)
    refine ⟨by rw [hcommit]; rfl, ?_⟩
    have hallnew : (ModelRunner.commit [dp.modelRunner.model.next shadow.allTokenIds]
        (caughtUp shadow)).allTokenIds.take shadow.getLen = shadow.allTokenIds := by
      rw [hcommit, ← hlen]
      show (shadow.promptTokenIds ++ (shadow.outputTokenIds ++ _)).take _ = _
      rw [← List.append_assoc]
      exact List.take_left
    rw [hsplit] at hholds
    have hnc : (ModelRunner.commit [dp.modelRunner.model.next shadow.allTokenIds]
        (caughtUp shadow)).numComputedTokens = shadow.getLen := by rw [hcommit]; rfl
    rw [Computed, hnc, hallnew, ModelRunner.commit_requestId]
    exact hholds
  · cases hrun.symm.trans hbm

/-! ## The loop -/

/-- A shadow that can go on: the proposer's own for its request, with its own tokens computed so
far and a row due. -/
structure Ready (dp : DraftProposer κ) (shadow : Request) : Prop where
  pooled : dp.Pooled
  lookup : dp.shadowRequests.lookup shadow.requestId = some shadow
  computed : dp.Computed shadow shadow.allTokenIds
  behind : shadow.numComputedTokens < shadow.getLen

/-- A round leaves the shadow ready, one token further. -/
theorem Ready.draftStep (h : dp.Ready shadow) (hs : dp.draftStep shadow = .ok (dp', shadow')) :
    dp'.Ready shadow' ∧ LeavesOthers shadow.requestId dp dp' ∧ ∃ status,
      shadow' = { caughtUp shadow with
        outputTokenIds := shadow.outputTokenIds ++ [dp.modelRunner.model.next shadow.allTokenIds]
        status } := by
  obtain ⟨hpool, hleaves, hl, ⟨tokens, status, -, hshape⟩, -, -, -⟩ :=
    h.pooled.draftStep h.lookup hs
  obtain ⟨hout, hcomputed⟩ := Computed.draftStep h.pooled h.lookup h.computed h.behind hs
  have hshape' : shadow' = { caughtUp shadow with
      outputTokenIds := shadow.outputTokenIds ++ [dp.modelRunner.model.next shadow.allTokenIds]
      status } := by
    rw [← hout, hshape]
  have hid : shadow'.requestId = shadow.requestId := by rw [hshape]; rfl
  refine ⟨⟨hpool, hid ▸ hl, hcomputed, ?_⟩, hleaves, status, hshape'⟩
  rw [hshape']
  simp [caughtUp, Request.getLen]

/-- The loop proposes what the draft model decodes greedily after the shadow's tokens. -/
theorem Ready.draftLoop (h : dp.Ready shadow) {k : ℕ} {proposed proposed' : List Token}
    (hs : DraftProposer.draftLoop k dp shadow proposed = .ok (dp', shadow', proposed')) :
    dp'.Ready shadow' ∧ LeavesOthers shadow.requestId dp dp' ∧
      shadow'.requestId = shadow.requestId ∧ shadow'.promptTokenIds = shadow.promptTokenIds ∧
      (0 < k → shadow'.numComputedTokens + 1 = shadow'.getLen) ∧
      ∃ new, proposed' = proposed ++ new ∧ new.length = k ∧
        shadow'.outputTokenIds = shadow.outputTokenIds ++ new ∧
        Decode.Greedy dp.modelRunner.model.next shadow.allTokenIds new := by
  induction k generalizing dp shadow proposed with
  | zero =>
    cases hs
    exact ⟨h, .refl _ _, rfl, rfl, fun hpos => absurd hpos (Nat.lt_irrefl 0), [], by simp⟩
  | succ k ih =>
    obtain ⟨⟨dp₁, shadow₁⟩, hstep, hrest⟩ := bind_eq_ok.mp hs
    obtain ⟨hready, hleaves, status, hshape⟩ := h.draftStep hstep
    set t := dp.modelRunner.model.next shadow.allTokenIds
    have hid : shadow₁.requestId = shadow.requestId := by rw [hshape]; rfl
    have hall : shadow₁.allTokenIds = shadow.allTokenIds ++ [t] := by
      rw [hshape]
      simp [Request.allTokenIds, caughtUp]
    have hout : shadow₁.outputTokenIds = shadow.outputTokenIds ++ [t] := by rw [hshape]
    have hlast : shadow₁.outputTokenIds.getLast? = some t := by rw [hout]; simp
    simp only [hlast] at hrest
    obtain ⟨hready', hleaves', hid', hprompt', hdone, new, hnew, hlen, hout', hgreedy⟩ :=
      ih hready hrest
    rw [hid] at hleaves'
    refine ⟨hready', hleaves.trans hleaves', hid'.trans hid, ?_, fun _ => ?_,
      t :: new, ?_, ?_, ?_, ?_⟩
    · rw [hprompt', hshape]
      rfl
    · rcases Nat.eq_zero_or_pos k with rfl | hk
      · cases hrest
        rw [hshape]
        simp [caughtUp, Request.getLen]
        omega
      · exact hdone hk
    · rw [hnew, List.append_assoc]
      rfl
    · rw [List.length_cons, hlen]
    · rw [hout', hout, List.append_assoc]
      rfl
    · rw [hleaves.modelRunner, hall] at hgreedy
      exact ⟨rfl, hgreedy⟩

end DraftProposer

end LightServe
