import LightServe.Model.DensePass
import LightServe.Serving.ModelStep

/-!
# The flat pass over the paged cache

A request's chunk in the flat batch of a step, behind positions whose entries its table holds,
comes out as it does within the whole sequence, whatever else is in the batch: the slices of the
batch that belong to others are elsewhere, and so are their blocks.

## Main definitions

* `Laid` — ranges that lie in the batch one after the other.
* `Llama.attention_split` — what attention does for one range among others.
* `Llama.Cached` — a table holds the entries of a sequence in every layer.
* `Llama.flatLayers_spec` — a chunk through all layers.
-/

namespace LightServe

open CausalLayer

/-! ## Slices -/

section Slices
variable {α β γ : Type} {a b rows new : List α} {start stop : ℕ}

theorem getElem?_rowSlice (i : ℕ) : (rowSlice rows start stop)[i]? =
    if start + i < stop then rows[start + i]? else none := by
  rw [rowSlice, List.getElem?_drop, List.getElem?_take]

theorem rowSlice_congr (h : ∀ i, start ≤ i → i < stop → a[i]? = b[i]?) :
    rowSlice a start stop = rowSlice b start stop := by
  refine List.ext_getElem? fun i => ?_
  rw [getElem?_rowSlice, getElem?_rowSlice]
  split
  · exact h _ (Nat.le_add_right _ _) ‹_›
  · rfl

@[simp] theorem length_rowSlice (h : stop ≤ rows.length) :
    (rowSlice rows start stop).length = stop - start := by
  rw [rowSlice, List.length_drop, List.length_take, Nat.min_eq_left h]

theorem rowSlice_map (f : α → β) :
    rowSlice (rows.map f) start stop = (rowSlice rows start stop).map f := by
  rw [rowSlice, rowSlice, List.map_drop, List.map_take]

theorem rowSlice_zipWith (f : α → β → γ) (l : List β) :
    rowSlice (List.zipWith f rows l) start stop =
    List.zipWith f (rowSlice rows start stop) (rowSlice l start stop) := by
  rw [rowSlice, rowSlice, rowSlice, List.take_zipWith, List.drop_zipWith]

/-- A slice of rows that are side by side. -/
theorem rowSlice_append (before after : List α) :
    rowSlice (before ++ (rows ++ after)) before.length (before.length + rows.length) = rows := by
  rw [rowSlice, List.take_length_add_append, List.drop_left, List.take_left]

variable (hle : start ≤ stop) (hstop : stop ≤ rows.length) (hnew : new.length = stop - start)
include hle hstop hnew

@[simp] theorem length_setRows : (setRows rows start stop new).length = rows.length := by
  rw [setRows, List.length_append, List.length_append, List.length_take, List.length_drop, hnew]
  omega

theorem rowSlice_setRows : rowSlice (setRows rows start stop new) start stop = new := by
  have hlen : (rows.take start).length = start := by
    rw [List.length_take]
    omega
  have h := @rowSlice_append _ new (rows.take start) (rows.drop stop)
  rwa [hlen, hnew, Nat.add_sub_cancel' hle, ← List.append_assoc] at h

theorem getElem?_setRows {i : ℕ} (hi : i < start ∨ stop ≤ i) :
    (setRows rows start stop new)[i]? = rows[i]? := by
  have hlen : (rows.take start).length = start := by
    rw [List.length_take]
    omega
  rw [setRows]
  rcases hi with hi | hi
  · rw [List.append_assoc, List.getElem?_append_left (by omega), List.getElem?_take_of_lt hi]
  · rw [List.getElem?_append_right (by rw [List.length_append]; omega), List.length_append,
      List.getElem?_drop]
    congr 1
    omega

end Slices

/-! ## Ranges side by side -/

/-- Ranges that lie in the batch one after the other from row `cursor` on, with a position and an
input for every row. -/
def Laid : ℕ → List FlatRange → Prop
  | _, [] => True
  | cursor, f :: ranges => f.flatStart = cursor ∧ f.flatEnd = cursor + f.inputIds.length ∧
      f.seqEnd = f.seqStart + f.inputIds.length ∧ Laid f.flatEnd ranges

namespace Laid
variable {cursor : ℕ} {ranges before after : List FlatRange} {f : FlatRange}

theorem append : Laid cursor (before ++ after) ↔
    Laid cursor before ∧ Laid (cursor + (before.flatMap FlatRange.inputIds).length) after := by
  induction before generalizing cursor with
  | nil => simp [Laid]
  | cons f before ih =>
    rw [List.cons_append, Laid, Laid, ih, List.flatMap_cons, List.length_append]
    constructor
    · rintro ⟨hs, he, hseq, hb, ha⟩
      rw [he, Nat.add_assoc] at ha
      exact ⟨⟨hs, he, hseq, hb⟩, ha⟩
    · rintro ⟨⟨hs, he, hseq, hb⟩, ha⟩
      refine ⟨hs, he, hseq, hb, ?_⟩
      rwa [he, Nat.add_assoc]

/-- No range goes past the rows of the batch. -/
theorem bounds (h : Laid cursor ranges) (hf : f ∈ ranges) : cursor ≤ f.flatStart ∧
    f.flatStart ≤ f.flatEnd ∧ f.flatEnd ≤ cursor + (ranges.flatMap FlatRange.inputIds).length := by
  induction ranges generalizing cursor with
  | nil => cases hf
  | cons g ranges ih =>
    obtain ⟨hs, he, -, hrest⟩ := h
    rw [List.flatMap_cons, List.length_append]
    rcases List.mem_cons.mp hf with rfl | hf
    · omega
    · have := ih hrest hf
      omega

theorem rowsOf (h : Laid cursor ranges) (hf : f ∈ ranges) :
    f.flatEnd - f.flatStart = f.inputIds.length ∧ f.seqEnd = f.seqStart + f.inputIds.length := by
  induction ranges generalizing cursor with
  | nil => cases hf
  | cons g ranges ih =>
    obtain ⟨hs, he, hseq, hrest⟩ := h
    rcases List.mem_cons.mp hf with rfl | hf
    · exact ⟨by omega, hseq⟩
    · exact ih hrest hf

/-- Something that has as many items for a range as the range has inputs, gathered range by
range, has them in the rows of the range. -/
theorem rowSlice_flatMap {α : Type} (items : FlatRange → List α) (h : Laid 0 (before ++ f :: after))
    (hlen : ∀ g ∈ before ++ f :: after, (items g).length = g.inputIds.length) :
    rowSlice ((before ++ f :: after).flatMap items) f.flatStart f.flatEnd = items f := by
  obtain ⟨-, hs, he, -⟩ := append.mp h
  have hbefore : (before.flatMap items).length = (before.flatMap FlatRange.inputIds).length := by
    rw [List.length_flatMap, List.length_flatMap]
    exact congrArg List.sum (List.map_congr_left fun g hg => hlen g (List.mem_append_left _ hg))
  have hf := hlen f (List.mem_append_right _ List.mem_cons_self)
  rw [Nat.zero_add] at hs he
  rw [List.flatMap_append, List.flatMap_cons, hs, he, ← hbefore, ← hf]
  exact rowSlice_append _ _

end Laid

namespace Llama
variable {ρ η : Type} {m : Llama ρ η}

/-! ## Attention -/

section Attention
variable {layerIdx : ℕ} {tables : Request → List BlockId} {q k v : List (List η)}
  {before after ranges : List FlatRange} {f : FlatRange} {kv kv' : Cache η}
  {attnOut attnOut' : List (List η)}

theorem attention_append (before after : List FlatRange) (kv : Cache η) (attnOut : List (List η)) :
    m.attention layerIdx tables q k v (before ++ after) kv attnOut =
      m.attention layerIdx tables q k v before kv attnOut >>= fun res =>
        m.attention layerIdx tables q k v after res.1 res.2 := by
  induction before generalizing kv attnOut with
  | nil => rfl
  | cons f before ih =>
    simp only [List.cons_append, attention, ih]
    split
    · rfl
    · simp only [bind_assoc]

/-- One range of the loop: its rows are replaced, and one layer of its blocks. -/
theorem attention_one (hstop : f.flatStart ≤ f.flatEnd) (hout : f.flatEnd ≤ attnOut.length)
    (hq : f.flatEnd ≤ q.length)
    (h : m.attention layerIdx tables q k v [f] kv attnOut = .ok (kv', attnOut')) :
    attnOut'.length = attnOut.length ∧ kv'.blockSize = kv.blockSize ∧
      (∀ i, i < f.flatStart ∨ f.flatEnd ≤ i → attnOut'[i]? = attnOut[i]?) ∧
      (∀ l other, other ≠ layerIdx → kv'.slot l other = kv.slot l other) ∧
      ∀ l, l.1 ∉ tables f.request → kv'.slot l = kv.slot l := by
  rw [attention] at h
  split at h
  · cases h
    exact ⟨rfl, rfl, fun _ _ => rfl, fun _ _ _ => rfl, fun _ _ => rfl⟩
  · rename_i hL
    obtain ⟨kv₁, hwrite, h⟩ := bind_eq_ok.mp h
    obtain ⟨full, -, h⟩ := bind_eq_ok.mp h
    obtain ⟨out, hkernel, h⟩ := bind_eq_ok.mp h
    cases h
    have hlen : (rowSlice q f.flatStart f.flatEnd).length = f.flatEnd - f.flatStart :=
      length_rowSlice hq
    have hnew : (out.drop (out.length - (f.flatEnd - f.flatStart))).length =
        f.flatEnd - f.flatStart := by
      have hle : f.flatEnd - f.flatStart ≤ out.length := by
        rw [flashAttentionForward] at hkernel
        split at hkernel
        · cases hkernel
          rw [List.length_mapIdx, padQuery]
          split
          · rw [List.length_append, hlen]
            omega
          · exact hlen.ge
        · cases hkernel
      rw [List.length_drop]
      omega
    exact ⟨length_setRows hstop hout hnew, (KvCache.writeLayer_frame hwrite).1,
      fun i hi => getElem?_setRows hstop hout hnew hi,
      (KvCache.writeLayer_frame hwrite).2.1,
      (KvCache.writeLayer_frame hwrite).2.2⟩

/-- The loop over some ranges leaves the rows of others, and the blocks of others. -/
theorem attention_frame
    (hranges : ∀ g ∈ ranges, g.flatStart ≤ g.flatEnd ∧ g.flatEnd ≤ attnOut.length ∧
      g.flatEnd ≤ q.length)
    (h : m.attention layerIdx tables q k v ranges kv attnOut = .ok (kv', attnOut')) :
    attnOut'.length = attnOut.length ∧ kv'.blockSize = kv.blockSize ∧
      (∀ i, (∀ g ∈ ranges, i < g.flatStart ∨ g.flatEnd ≤ i) → attnOut'[i]? = attnOut[i]?) ∧
      (∀ l other, other ≠ layerIdx → kv'.slot l other = kv.slot l other) ∧
      ∀ l, (∀ g ∈ ranges, l.1 ∉ tables g.request) → kv'.slot l = kv.slot l := by
  induction ranges generalizing kv attnOut with
  | nil =>
    cases h
    exact ⟨rfl, rfl, fun _ _ => rfl, fun _ _ _ => rfl, fun _ _ => rfl⟩
  | cons g ranges ih =>
    obtain ⟨⟨hle, hout, hq⟩, hranges⟩ := List.forall_mem_cons.mp hranges
    rw [show g :: ranges = [g] ++ ranges from rfl, attention_append] at h
    obtain ⟨⟨kv₁, attnOut₁⟩, hone, hrest⟩ := bind_eq_ok.mp h
    obtain ⟨hlen₁, hsize₁, hrows₁, hlayers₁, hslots₁⟩ := attention_one hle hout hq hone
    obtain ⟨hlen, hsize, hrows, hlayers, hslots⟩ := ih
      (fun g hg => by rw [hlen₁]; exact hranges g hg) hrest
    refine ⟨hlen.trans hlen₁, hsize.trans hsize₁, fun i hi => ?_, fun l other hne => ?_,
      fun l hl => ?_⟩
    · obtain ⟨hg, hi⟩ := List.forall_mem_cons.mp hi
      exact (hrows i hi).trans (hrows₁ i hg)
    · exact (hlayers l other hne).trans (hlayers₁ l other hne)
    · obtain ⟨hg, hl⟩ := List.forall_mem_cons.mp hl
      exact (hslots l hl).trans (hslots₁ l hg)

/-- A range whose table holds the entries before it: each of its rows attends to the entries up to
its own, and the table holds those of the range too. -/
theorem attention_own {context : List (List η × List η)} (hsize : 0 < kv.blockSize)
    (hheld : (kv.layer layerIdx).Holds (tables f.request) context)
    (hnodup : (tables f.request).Nodup) (hstart : context.length = f.seqStart)
    (hle : f.flatStart ≤ f.flatEnd) (hout : f.flatEnd ≤ attnOut.length) (hq : f.flatEnd ≤ q.length)
    (hk : f.flatEnd ≤ k.length) (hv : f.flatEnd ≤ v.length)
    (hseq : f.seqEnd = f.seqStart + (f.flatEnd - f.flatStart))
    (h : m.attention layerIdx tables q k v [f] kv attnOut = .ok (kv', attnOut')) :
    let entries := context ++
      (rowSlice k f.flatStart f.flatEnd).zip (rowSlice v f.flatStart f.flatEnd)
    rowSlice attnOut' f.flatStart f.flatEnd =
        (rowSlice q f.flatStart f.flatEnd).mapIdx (fun i query => m.attend query
          ((entries.take (context.length + i + 1)).map (repeatEntry m.nRep))) ∧
      (kv'.layer layerIdx).Holds (tables f.request) entries := by
  intro entries
  have hlenq : (rowSlice q f.flatStart f.flatEnd).length = f.flatEnd - f.flatStart :=
    length_rowSlice hq
  have hnew : ((rowSlice k f.flatStart f.flatEnd).zip (rowSlice v f.flatStart f.flatEnd)).length =
      f.flatEnd - f.flatStart := by
    rw [List.length_zip, length_rowSlice hk, length_rowSlice hv, Nat.min_self]
  rw [attention] at h
  split at h
  · rename_i hL
    cases h
    rw [hL, List.length_eq_zero_iff] at hnew
    rw [hL, List.length_eq_zero_iff] at hlenq
    have hnil : rowSlice attnOut f.flatStart f.flatEnd = [] := by
      rw [← List.length_eq_zero_iff, length_rowSlice hout, hL]
    rw [hlenq, hnil]
    refine ⟨rfl, ?_⟩
    show KvCache.Holds _ _ (context ++ _)
    rw [hnew, List.append_nil]
    exact hheld
  · rename_i hL
    obtain ⟨kv₁, hwrite, h⟩ := bind_eq_ok.mp h
    obtain ⟨full, hread, h⟩ := bind_eq_ok.mp h
    obtain ⟨out, hkernel, h⟩ := bind_eq_ok.mp h
    cases h
    have hlayer := KvCache.writeLayer_layer hwrite
    have hcap := KvCache.le_capacity_of_write (c := kv.layer layerIdx) hsize
      (List.ne_nil_of_length_pos (by omega)) hlayer
    rw [← hstart] at hlayer hcap
    obtain ⟨c', hwrite', -, hheld', -⟩ := hheld.write hnodup hcap
    cases hwrite'.symm.trans hlayer
    have hlen : entries.length = f.seqStart + (rowSlice q f.flatStart f.flatEnd).length := by
      rw [List.length_append, hstart, hnew, hlenq]
    have hread' := hheld'.read
    rw [hlen, hlenq, ← hseq] at hread'
    cases hread'.symm.trans hread
    obtain ⟨out', hkernel', hrows⟩ := m.padded_eq hlen
    rw [hlenq, ← hseq] at hkernel'
    rw [hlenq] at hrows
    cases hkernel'.symm.trans hkernel
    refine ⟨?_, hheld'⟩
    rw [rowSlice_setRows hle hout (by rw [hrows, List.length_mapIdx, hlenq]), hrows, hstart]

/-- The same for a range among others that have other rows and other blocks. -/
theorem attention_split {context : List (List η × List η)} (hsize : 0 < kv.blockSize)
    (hlaid : Laid 0 (before ++ f :: after))
    (hothers : ∀ g ∈ before ++ after, ∀ b ∈ tables g.request, b ∉ tables f.request)
    (hheld : (kv.layer layerIdx).Holds (tables f.request) context)
    (hnodup : (tables f.request).Nodup) (hstart : context.length = f.seqStart)
    (hlen : ((before ++ f :: after).flatMap FlatRange.inputIds).length = attnOut.length)
    (hq : q.length = attnOut.length) (hk : k.length = attnOut.length)
    (hv : v.length = attnOut.length)
    (h : m.attention layerIdx tables q k v (before ++ f :: after) kv attnOut =
      .ok (kv', attnOut')) :
    let entries := context ++
      (rowSlice k f.flatStart f.flatEnd).zip (rowSlice v f.flatStart f.flatEnd)
    rowSlice attnOut' f.flatStart f.flatEnd =
        (rowSlice q f.flatStart f.flatEnd).mapIdx (fun i query => m.attend query
          ((entries.take (context.length + i + 1)).map (repeatEntry m.nRep))) ∧
      (kv'.layer layerIdx).Holds (tables f.request) entries := by
  intro entries
  have hbounds : ∀ g ∈ before ++ f :: after,
      g.flatStart ≤ g.flatEnd ∧ g.flatEnd ≤ attnOut.length := by
    intro g hg
    have := hlaid.bounds hg
    omega
  obtain ⟨hbefore, hs, he, -, hafter⟩ := Laid.append.mp hlaid
  rw [Nat.zero_add] at hs he
  have hf : f ∈ before ++ f :: after := List.mem_append_right _ List.mem_cons_self
  have hown := hlaid.rowsOf hf
  rw [attention_append] at h
  obtain ⟨⟨kv₁, out₁⟩, h₁, h⟩ := bind_eq_ok.mp h
  rw [show f :: after = [f] ++ after from rfl, attention_append] at h
  obtain ⟨⟨kv₂, out₂⟩, h₂, h₃⟩ := bind_eq_ok.mp h
  dsimp only at h₂ h₃
  -- the ranges before leave the blocks of `f`
  obtain ⟨hlen₁, hsize₁, -, -, hslots₁⟩ := attention_frame (fun g hg => by
    have := hbounds g (List.mem_append_left _ hg)
    omega) h₁
  have hheld₁ : (kv₁.layer layerIdx).Holds (tables f.request) context :=
    hheld.frame hsize₁ fun l hl => congrFun (hslots₁ l fun g hg hmem =>
      hothers g (List.mem_append_left _ hg) _ hmem hl) layerIdx
  have hfb := hbounds f hf
  obtain ⟨hrows, hheld₂⟩ := attention_own (hsize₁ ▸ hsize) hheld₁ hnodup hstart hfb.1
    (by omega) (by omega) (by omega) (by omega) (by omega) h₂
  obtain ⟨hlen₂, -, -, -, -⟩ := attention_one hfb.1 (by omega) (by omega) h₂
  -- the ranges after it leave its rows too
  obtain ⟨-, hsize₃, hrows₃, -, hslots₃⟩ := attention_frame (fun g hg => by
    have := hbounds g (List.mem_append_right _ (List.mem_cons_of_mem _ hg))
    omega) h₃
  refine ⟨?_, hheld₂.frame hsize₃ fun l hl => congrFun (hslots₃ l fun g hg hmem =>
    hothers g (List.mem_append_right _ hg) _ hmem hl) layerIdx⟩
  rw [← hrows]
  refine rowSlice_congr fun i hi hi' => hrows₃ i fun g hg => .inl ?_
  have := hafter.bounds hg
  omega

end Attention

/-! ## Layers -/

/-- A table holds the entries of some rows in one layer, and in each layer above those of the rows
that come out below. -/
def Cached (m : Llama ρ η) (kv : Cache η) (table : List BlockId) :
    ℕ → List (LlamaLayer ρ η) → List (ρ × ρ) → Prop
  | _, [], _ => True
  | layerIdx, layer :: layers, rows =>
    (kv.layer layerIdx).Holds table ((m.causal layer).entries 0 rows) ∧
      Cached m kv table (layerIdx + 1) layers ((m.causal layer).apply rows)

/-- Only the layers from `layerIdx` on and the blocks of the table matter. -/
theorem Cached.congr {kv kv' : Cache η} {table : List BlockId} {layerIdx : ℕ}
    {layers : List (LlamaLayer ρ η)} {rows : List (ρ × ρ)}
    (h : m.Cached kv table layerIdx layers rows) (hsize : kv'.blockSize = kv.blockSize)
    (hslot : ∀ l other, l.1 ∈ table → layerIdx ≤ other → kv'.slot l other = kv.slot l other) :
    m.Cached kv' table layerIdx layers rows := by
  induction layers generalizing layerIdx rows with
  | nil => exact h
  | cons layer layers ih =>
    exact ⟨h.1.frame hsize fun l hl => hslot l layerIdx hl le_rfl,
      ih h.2 fun l other hl hle => hslot l other hl (by omega)⟩

/-- A table that grows keeps what it holds. -/
theorem Cached.append {kv : Cache η} {table : List BlockId} {layerIdx : ℕ}
    {layers : List (LlamaLayer ρ η)} {rows : List (ρ × ρ)}
    (h : m.Cached kv table layerIdx layers rows)
    (more : List BlockId) : m.Cached kv (table ++ more) layerIdx layers rows := by
  induction layers generalizing layerIdx rows with
  | nil => exact h
  | cons layer layers ih => exact ⟨h.1.append more, ih h.2⟩

/-- Nothing is held of no rows. -/
theorem Cached.nil (kv : Cache η) (table : List BlockId) (layerIdx : ℕ)
    (layers : List (LlamaLayer ρ η)) : m.Cached kv table layerIdx layers [] := by
  induction layers generalizing layerIdx with
  | nil => trivial
  | cons layer layers ih => exact ⟨.nil _ _, ih _⟩

/-- A range of a flat batch in which nobody else has its blocks. -/
structure Alone (tables : Request → List BlockId) (before after : List FlatRange) (f : FlatRange) :
    Prop where
  laid : Laid 0 (before ++ f :: after)
  nodup : (tables f.request).Nodup
  others : ∀ g ∈ before ++ after, ∀ b ∈ tables g.request, b ∉ tables f.request

section FlatLayers
variable {tables : Request → List BlockId} {before after ranges : List FlatRange} {f : FlatRange}
  {kv kv' : Cache η} {x x' residual residual' : List ρ}

private theorem length_positions {g : FlatRange} (h : Laid 0 ranges) (hg : g ∈ ranges) :
    (ModelRunner.positions g).length = g.inputIds.length := by
  rw [ModelRunner.positions, List.length_range', (h.rowsOf hg).2, Nat.add_sub_cancel_left]

/-- A projection of the normed rows of a batch, rotated by their positions. -/
def rotated (m : Llama ρ η) (layer : LlamaLayer ρ η) (proj : ρ → List η) (ranges : List FlatRange)
    (rows : List (ρ × ρ)) : List (List η) :=
  m.applyRope (ranges.flatMap ModelRunner.positions)
    (rows.map fun row => proj (layer.inputLayernorm row.1 row.2).1)

theorem length_rotated {layer : LlamaLayer ρ η} {proj : ρ → List η} {rows : List (ρ × ρ)}
    (hlaid : Laid 0 ranges) (hrows : rows.length = (ranges.flatMap FlatRange.inputIds).length) :
    (m.rotated layer proj ranges rows).length = rows.length := by
  have hpos : (ranges.flatMap ModelRunner.positions).length = rows.length := by
    rw [hrows, List.length_flatMap, List.length_flatMap]
    exact congrArg List.sum (List.map_congr_left fun g hg => length_positions hlaid hg)
  rw [rotated, applyRope, List.length_zipWith, hpos, List.length_map, Nat.min_self]

/-- The rows of a range are rotated by the positions of the range. -/
theorem rowSlice_rotated {layer : LlamaLayer ρ η} {proj : ρ → List η} {rows : List (ρ × ρ)}
    (hlaid : Laid 0 (before ++ f :: after))
    (hrows : rows.length = ((before ++ f :: after).flatMap FlatRange.inputIds).length) :
    rowSlice (m.rotated layer proj (before ++ f :: after) rows) f.flatStart f.flatEnd =
      (rowSlice rows f.flatStart f.flatEnd).mapIdx fun i row =>
        (proj (layer.inputLayernorm row.1 row.2).1).map (m.rope (f.seqStart + i)) := by
  have hf : f ∈ before ++ f :: after := List.mem_append_right _ List.mem_cons_self
  have hlen : (rowSlice rows f.flatStart f.flatEnd).length = f.inputIds.length := by
    have := hlaid.bounds hf
    rw [length_rowSlice (by omega), (hlaid.rowsOf hf).1]
  have hrange := m.applyRope_range' f.seqStart ((rowSlice rows f.flatStart f.flatEnd).map fun row =>
    proj (layer.inputLayernorm row.1 row.2).1)
  rw [List.length_map, hlen] at hrange
  rw [rotated, applyRope, rowSlice_zipWith,
    hlaid.rowSlice_flatMap ModelRunner.positions fun g hg => length_positions hlaid hg,
    rowSlice_map, ModelRunner.positions, (hlaid.rowsOf hf).2, Nat.add_sub_cancel_left, ← applyRope,
    hrange]
  exact List.ext_getElem (by simp) fun i _ _ => by simp

/-- What a layer of the flat pass does with the rows of the batch. -/
theorem flatLayer_eq_ok {layer : LlamaLayer ρ η} {layerIdx : ℕ} (hres : residual.length = x.length)
    (h : m.flatLayer layer layerIdx tables ranges kv x residual = .ok (kv', x', residual')) :
    ∃ attnOut, m.attention layerIdx tables (m.rotated layer layer.qProj ranges (x.zip residual))
        (m.rotated layer layer.kProj ranges (x.zip residual))
        ((x.zip residual).map fun row => layer.vProj (layer.inputLayernorm row.1 row.2).1) ranges kv
        (List.replicate (m.rotated layer layer.qProj ranges (x.zip residual)).length m.emptyRow) =
          .ok (kv', attnOut) ∧
      x'.length = min attnOut.length x.length ∧ residual'.length = min attnOut.length x.length ∧
      x'.zip residual' = List.zipWith (mlpRow layer) attnOut
        ((x.zip residual).map fun row => (layer.inputLayernorm row.1 row.2).2) := by
  have hnorm := fusedAddRmsnorm_eq (x.zip residual) layer.inputLayernorm
  rw [List.map_fst_zip hres.ge, List.map_snd_zip hres.le] at hnorm
  rw [flatLayer, hnorm] at h
  simp only [List.map_map, Function.comp_def, mlpBlock_eq] at h
  obtain ⟨⟨kv₁, attnOut⟩, hattn, hret⟩ := bind_eq_ok.mp h
  cases hret
  refine ⟨attnOut, hattn, ?_, ?_, ?_⟩
  · simp [hres]
  · simp [hres]
  · rw [List.zip_map', List.map_id']

/-- A layer of the flat pass keeps the number of rows, and touches one layer of the blocks of the
batch only. -/
theorem flatLayer_frame {layer : LlamaLayer ρ η} {layerIdx : ℕ} (hlaid : Laid 0 ranges)
    (hx : x.length = (ranges.flatMap FlatRange.inputIds).length) (hres : residual.length = x.length)
    (h : m.flatLayer layer layerIdx tables ranges kv x residual = .ok (kv', x', residual')) :
    x'.length = x.length ∧ residual'.length = x.length ∧ kv'.blockSize = kv.blockSize ∧
      (∀ l other, other ≠ layerIdx → kv'.slot l other = kv.slot l other) ∧
      ∀ l, (∀ g ∈ ranges, l.1 ∉ tables g.request) → kv'.slot l = kv.slot l := by
  have hrows : (x.zip residual).length = x.length := by rw [List.length_zip, hres, Nat.min_self]
  obtain ⟨attnOut, hattn, hx', hres', -⟩ := flatLayer_eq_ok hres h
  obtain ⟨hlen, hsize, -, hlayers, hslots⟩ := attention_frame (fun g hg => by
    have := hlaid.bounds hg
    rw [List.length_replicate, length_rotated hlaid (hrows.trans hx), hrows]
    omega) hattn
  rw [List.length_replicate, length_rotated hlaid (hrows.trans hx), hrows] at hlen
  rw [hlen, Nat.min_self] at hx' hres'
  exact ⟨hx', hres', hsize, hlayers, hslots⟩

/-- One layer of the flat pass: the rows of the range come out as they do behind the rows before
it, of which the table holds the entries. -/
theorem flatLayer_spec (halone : Alone tables before after f) {layer : LlamaLayer ρ η}
    {layerIdx : ℕ} {a : List (ρ × ρ)} (hsize : 0 < kv.blockSize) (hstart : a.length = f.seqStart)
    (hheld : (kv.layer layerIdx).Holds (tables f.request) ((m.causal layer).entries 0 a))
    (hx : x.length = ((before ++ f :: after).flatMap FlatRange.inputIds).length)
    (hres : residual.length = x.length)
    (h : m.flatLayer layer layerIdx tables (before ++ f :: after) kv x residual =
      .ok (kv', x', residual')) :
    rowSlice (x'.zip residual') f.flatStart f.flatEnd =
        (m.causal layer).extend ((m.causal layer).entries 0 a)
          (rowSlice (x.zip residual) f.flatStart f.flatEnd) ∧
      (kv'.layer layerIdx).Holds (tables f.request)
        ((m.causal layer).entries 0 (a ++ rowSlice (x.zip residual) f.flatStart f.flatEnd)) := by
  have hlen : (x.zip residual).length = x.length := by rw [List.length_zip, hres, Nat.min_self]
  obtain ⟨attnOut, hattn, -, -, hrows⟩ := flatLayer_eq_ok hres h
  have hrotated : ∀ proj : ρ → List η,
      (m.rotated layer proj (before ++ f :: after) (x.zip residual)).length = x.length :=
    fun proj => (length_rotated halone.laid (hlen.trans hx)).trans hlen
  obtain ⟨hattnRows, hheld'⟩ := attention_split hsize halone.laid halone.others hheld halone.nodup
    (by rw [length_entries, hstart]) (by rw [List.length_replicate, hrotated, hx])
    (by rw [List.length_replicate]) (by rw [List.length_replicate, hrotated, hrotated])
    (by rw [List.length_replicate, hrotated, List.length_map, hlen]) hattn
  have hentries : (m.causal layer).entries 0 a ++ (rowSlice (m.rotated layer layer.kProj
        (before ++ f :: after) (x.zip residual)) f.flatStart f.flatEnd).zip
      (rowSlice ((x.zip residual).map fun row => layer.vProj (layer.inputLayernorm row.1 row.2).1)
        f.flatStart f.flatEnd) =
      (m.causal layer).entries 0 (a ++ rowSlice (x.zip residual) f.flatStart f.flatEnd) := by
    rw [rowSlice_rotated halone.laid (hlen.trans hx), rowSlice_map, entries_append, Nat.zero_add,
      hstart, m.entries_causal layer _ f.seqStart]
  rw [hentries] at hattnRows hheld'
  refine ⟨?_, hheld'⟩
  rw [hrows, rowSlice_zipWith, rowSlice_map]
  refine m.extend_causal layer _ _ ?_
  rw [hattnRows, rowSlice_rotated halone.laid (hlen.trans hx), entries_append, Nat.zero_add,
    length_entries, hstart]
  exact List.ext_getElem (by simp) fun i _ _ => by simp

/-- All layers keep the number of rows, and touch the blocks of the batch only, from their first
layer on. -/
theorem flatLayers_frame {layers : List (LlamaLayer ρ η)} {layerIdx : ℕ} (hlaid : Laid 0 ranges)
    (hx : x.length = (ranges.flatMap FlatRange.inputIds).length) (hres : residual.length = x.length)
    (h : m.flatLayers tables ranges layerIdx layers kv x residual = .ok (kv', x', residual')) :
    x'.length = x.length ∧ residual'.length = x.length ∧ kv'.blockSize = kv.blockSize ∧
      (∀ l other, other < layerIdx → kv'.slot l other = kv.slot l other) ∧
      ∀ l, (∀ g ∈ ranges, l.1 ∉ tables g.request) → kv'.slot l = kv.slot l := by
  induction layers generalizing layerIdx kv x residual with
  | nil =>
    cases h
    exact ⟨rfl, hres, rfl, fun _ _ _ => rfl, fun _ _ => rfl⟩
  | cons layer layers ih =>
    obtain ⟨⟨kv₁, x₁, residual₁⟩, hlayer, hrest⟩ := bind_eq_ok.mp h
    obtain ⟨hx₁, hres₁, hsize₁, hlayers₁, hslots₁⟩ := flatLayer_frame hlaid hx hres hlayer
    obtain ⟨hx', hres', hsize', hlayers', hslots'⟩ :=
      ih (hx₁.trans hx) (hres₁.trans hx₁.symm) hrest
    refine ⟨hx'.trans hx₁, hres'.trans hx₁, hsize'.trans hsize₁, fun l other hlt => ?_,
      fun l hl => (hslots' l hl).trans (hslots₁ l hl)⟩
    rw [hlayers' l other (by omega), hlayers₁ l other (by omega)]

/-- All layers: the rows of the range come out as they do within the sequence. -/
theorem flatLayers_spec (halone : Alone tables before after f) {layers : List (LlamaLayer ρ η)}
    {layerIdx : ℕ} {a : List (ρ × ρ)} (hsize : 0 < kv.blockSize) (hstart : a.length = f.seqStart)
    (hheld : m.Cached kv (tables f.request) layerIdx layers a)
    (hx : x.length = ((before ++ f :: after).flatMap FlatRange.inputIds).length)
    (hres : residual.length = x.length)
    (h : m.flatLayers tables (before ++ f :: after) layerIdx layers kv x residual =
      .ok (kv', x', residual')) :
    let b := rowSlice (x.zip residual) f.flatStart f.flatEnd
    stack (layers.map m.causal) (a ++ b) =
        stack (layers.map m.causal) a ++ rowSlice (x'.zip residual') f.flatStart f.flatEnd ∧
      m.Cached kv' (tables f.request) layerIdx layers (a ++ b) := by
  induction layers generalizing layerIdx kv x residual a with
  | nil =>
    cases h
    exact ⟨rfl, trivial⟩
  | cons layer layers ih =>
    obtain ⟨⟨kv₁, x₁, residual₁⟩, hlayer, hrest⟩ := bind_eq_ok.mp h
    obtain ⟨hx₁, hres₁, hsize₁, hlayers₁, -⟩ := flatLayer_frame halone.laid hx hres hlayer
    obtain ⟨hrows₁, hheld₁⟩ := flatLayer_spec halone hsize hstart hheld.1 hx hres hlayer
    have habove : m.Cached kv₁ (tables f.request) (layerIdx + 1) layers
        ((m.causal layer).apply a) :=
      hheld.2.congr hsize₁ fun l other _ hle => hlayers₁ l other (by omega)
    obtain ⟨hrows', hheld'⟩ := ih (hsize₁ ▸ hsize) (by rw [length_apply, hstart]) habove
      (hx₁.trans hx) (hres₁.trans hx₁.symm) hrest
    obtain ⟨-, -, hsize', hlayers', -⟩ := flatLayers_frame halone.laid (hx₁.trans hx)
      (hres₁.trans hx₁.symm) hrest
    rw [hrows₁, ← apply_append] at hrows' hheld'
    exact ⟨hrows', hheld₁.frame hsize' fun l _ => hlayers' l layerIdx (by omega), hheld'⟩

end FlatLayers

/-! ## The pass -/

/-- The ranges of a flat batch whose inputs were all found lie one after the other. -/
theorem laid_of_flatLoop {cursor : ℕ} {scheduled : List (Request × ℕ)} {ranges : List FlatRange}
    (h : ModelRunner.flatLoop cursor scheduled = .ok ranges)
    (hread : ∀ f ∈ ranges, f.inputIds.length = f.flatEnd - f.flatStart)
    (hcomputed : ∀ rn ∈ scheduled, rn.2 ≤ rn.1.numComputedTokens) : Laid cursor ranges := by
  induction scheduled generalizing cursor ranges with
  | nil => cases h; trivial
  | cons rn scheduled ih =>
    obtain ⟨ids, -, hrest⟩ := bind_eq_ok.mp h
    obtain ⟨ranges, hranges, hret⟩ := bind_eq_ok.mp hrest
    cases hret
    obtain ⟨hids, hread⟩ := List.forall_mem_cons.mp hread
    obtain ⟨hle, hcomputed⟩ := List.forall_mem_cons.mp hcomputed
    dsimp only at hids
    refine ⟨rfl, ?_, ?_, ih hranges hread hcomputed⟩ <;> dsimp only <;> omega

/-- What a pass that returned looked up. -/
theorem forward_eq_ok {tables : Request → List BlockId} {scheduled : List (Request × ℕ)}
    {kv kv' : Cache η} {ranges : List FlatRange} {hidden : List ρ}
    (h : m.forward tables scheduled kv = .ok (kv', ranges, hidden)) :
    ModelRunner.flatLoop 0 scheduled = .ok ranges ∧
      (∀ f ∈ ranges, f.inputIds.length = f.flatEnd - f.flatStart) ∧
      ∃ x residual, m.flatLayers tables ranges 0 m.layers kv
          (m.embed (ranges.flatMap FlatRange.inputIds)).1
          (m.embed (ranges.flatMap FlatRange.inputIds)).2 = .ok (kv', x, residual) ∧
        hidden = m.finalNorm x residual := by
  obtain ⟨ranges', hbatch, h⟩ := bind_eq_ok.mp h
  obtain ⟨_, hlook, h⟩ := bind_eq_ok.mp h
  obtain ⟨⟨kv₁, x, residual⟩, hlayers, hret⟩ := bind_eq_ok.mp h
  cases hret
  refine ⟨ModelRunner.flatLoop_of_buildFlatBatch hbatch, fun f hf => ?_, x, residual, hlayers, rfl⟩
  unfold ModelRunner.lookUp at hlook
  split at hlook
  · rename_i hall
    exact (hall f hf).1
  · cases hlook

/-- A range whose table holds the entries of `ts`: its hidden rows are those that follow `ts` in
the dense pass, and then the table holds the entries of its inputs too. -/
theorem forward_range {tables : Request → List BlockId} {before after : List FlatRange}
    {f : FlatRange} {scheduled : List (Request × ℕ)} {kv kv' : Cache η} {hidden : List ρ}
    {ts : List Token} (h : m.forward tables scheduled kv = .ok (kv', before ++ f :: after, hidden))
    (halone : Alone tables before after f) (hsize : 0 < kv.blockSize)
    (hstart : ts.length = f.seqStart)
    (hheld : m.Cached kv (tables f.request) 0 m.layers
      (ts.map fun t => (m.zeros, m.embedTokens t))) :
    kv'.blockSize = kv.blockSize ∧
      (m.states m.layers (ts ++ f.inputIds)).map m.hiddenRow =
        (m.states m.layers ts).map m.hiddenRow ++ rowSlice hidden f.flatStart f.flatEnd ∧
      m.Cached kv' (tables f.request) 0 m.layers
        ((ts ++ f.inputIds).map fun t => (m.zeros, m.embedTokens t)) := by
  obtain ⟨-, -, x, residual, hlayers, rfl⟩ := forward_eq_ok h
  rw [embed_eq] at hlayers
  obtain ⟨hx, hres, hsize', -, -⟩ := flatLayers_frame halone.laid (by simp) (by simp) hlayers
  obtain ⟨hrows, hheld'⟩ := flatLayers_spec halone hsize (by rw [List.length_map, hstart]) hheld
    (by simp) (by simp) hlayers
  have hb : rowSlice ((((before ++ f :: after).flatMap FlatRange.inputIds).map
        fun t => (m.zeros, m.embedTokens t)).map Prod.fst |>.zip
      ((((before ++ f :: after).flatMap FlatRange.inputIds).map
        fun t => (m.zeros, m.embedTokens t)).map Prod.snd)) f.flatStart f.flatEnd =
      f.inputIds.map fun t => (m.zeros, m.embedTokens t) := by
    rw [List.zip_map', List.map_id', rowSlice_map,
      halone.laid.rowSlice_flatMap FlatRange.inputIds fun _ _ => rfl]
  rw [hb, ← List.map_append] at hrows hheld'
  refine ⟨hsize', ?_, hheld'⟩
  have hhidden := m.finalNorm_eq (x.zip residual)
  rw [List.map_fst_zip (by omega), List.map_snd_zip (by omega)] at hhidden
  rw [hhidden, rowSlice_map, ← List.map_append]
  exact congrArg _ hrows

end Llama

end LightServe
