import LightServe.Model.FlashAttention

/-!
# The dense pass, layer by layer

A layer's tensor operations change each row on its own, but for attention. So a layer is a
`CausalLayer`, whose entries are the keys and values, and the dense pass is a stack of them.

## Main definitions

* `Llama.causal` — a layer, row by row.
* `Llama.states` — the rows after some layers.
* `Llama.llamaForward_eq` — the dense pass.
-/

namespace LightServe

open CausalLayer

namespace Llama
variable {ρ η : Type} (m : Llama ρ η)

/-- A layer after attention, on one row. -/
def mlpRow (layer : LlamaLayer ρ η) (attnOut : List η) (residual : ρ) : ρ × ρ :=
  let (normed, residual) := layer.postAttentionLayernorm (layer.oProj attnOut) residual
  (layer.mlp normed, residual)

/-- The entry of a normed row at a position. -/
def entryOf (layer : LlamaLayer ρ η) (p : ℕ) (normed : ρ) : List η × List η :=
  ((layer.kProj normed).map (m.rope p), layer.vProj normed)

/-- A layer, row by row. A row is the pair of what the last block returned and the residual. -/
def causal (layer : LlamaLayer ρ η) : CausalLayer (ρ × ρ) (List η × List η) where
  entry p row := m.entryOf layer p (layer.inputLayernorm row.1 row.2).1
  out p row entries :=
    let (normed, residual) := layer.inputLayernorm row.1 row.2
    mlpRow layer (m.attend ((layer.qProj normed).map (m.rope p)) (entries.map (repeatEntry m.nRep)))
      residual

/-- The rows of a sequence after some layers. -/
def states (layers : List (LlamaLayer ρ η)) (ts : List Token) : List (ρ × ρ) :=
  stack (layers.map m.causal) (ts.map fun t => (m.zeros, m.embedTokens t))

/-! ## Tensors as rows -/

variable (layer : LlamaLayer ρ η) (rows : List (ρ × ρ))

theorem fusedAddRmsnorm_eq (norm : ρ → ρ → ρ × ρ) :
    fusedAddRmsnorm norm (rows.map Prod.fst) (rows.map Prod.snd) =
      (rows.map fun row => (norm row.1 row.2).1, rows.map fun row => (norm row.1 row.2).2) := by
  have hzip : List.zipWith norm (rows.map Prod.fst) (rows.map Prod.snd) =
      rows.map fun row => norm row.1 row.2 := by
    rw [List.zipWith_map, List.zipWith_self]
  rw [fusedAddRmsnorm, hzip, List.unzip_eq_map, List.map_map, List.map_map]
  rfl

theorem mlpBlock_eq (attnOut : List (List η)) (residual : List ρ) :
    mlpBlock layer attnOut residual =
      ((List.zipWith (mlpRow layer) attnOut residual).map Prod.fst,
        (List.zipWith (mlpRow layer) attnOut residual).map Prod.snd) := by
  rw [mlpBlock, fusedAddRmsnorm, List.unzip_eq_map, List.zipWith_map_left]
  simp only [List.map_zipWith]
  rfl

theorem applyRope_range' (start : ℕ) (heads : List (List η)) :
    m.applyRope (List.range' start heads.length) heads =
      heads.mapIdx fun i row => row.map (m.rope (start + i)) := by
  rw [applyRope]
  exact List.ext_getElem (by simp) fun i _ _ => by simp

/-- The entries of rows, as the keys and values of a tensor. -/
theorem entries_causal (start : ℕ) :
    (m.causal layer).entries start rows =
      (rows.mapIdx fun i row =>
        (layer.kProj (layer.inputLayernorm row.1 row.2).1).map (m.rope (start + i))).zip
      (rows.map fun row => layer.vProj (layer.inputLayernorm row.1 row.2).1) :=
  List.ext_getElem (by simp) fun i _ _ => by simp [CausalLayer.entries, causal, entryOf]

/-- What a layer returns for rows that follow a context, when the attention of each is known. -/
theorem extend_causal (context : List (List η × List η)) {attnOut : List (List η)}
    (h : attnOut = rows.mapIdx fun i row => m.attend
      ((layer.qProj (layer.inputLayernorm row.1 row.2).1).map (m.rope (context.length + i)))
      (((context ++ (m.causal layer).entries context.length rows).take
        (context.length + i + 1)).map (repeatEntry m.nRep))) :
    List.zipWith (mlpRow layer) attnOut (rows.map fun row => (layer.inputLayernorm row.1 row.2).2) =
      (m.causal layer).extend context rows := by
  subst h
  exact List.ext_getElem (by simp) fun i _ _ => by simp [CausalLayer.extend, causal]

/-! ## The dense pass -/

theorem denseLayer_eq : m.denseLayer layer (rows.map Prod.fst) (rows.map Prod.snd) =
    .ok (((m.causal layer).apply rows).map Prod.fst,
      ((m.causal layer).apply rows).map Prod.snd) := by
  have hentries := m.entries_causal layer rows 0
  simp only [Nat.zero_add] at hentries
  have hlen : ((m.causal layer).entries 0 rows).length = (rows.mapIdx fun i row =>
      (layer.qProj (layer.inputLayernorm row.1 row.2).1).map (m.rope i)).length := by simp
  have hattend := m.flashAttentionForward_eq hlen
  rw [hentries, List.map_fst_zip (by simp), List.map_snd_zip (by simp), ← hentries] at hattend
  have hrope : ∀ proj : ρ → List η, m.applyRope (List.range rows.length)
      (rows.map fun row => proj (layer.inputLayernorm row.1 row.2).1) =
        rows.mapIdx fun i row => (proj (layer.inputLayernorm row.1 row.2).1).map (m.rope i) := by
    intro proj
    rw [applyRope]
    exact List.ext_getElem (by simp) fun i _ _ => by simp
  unfold denseLayer
  simp only [fusedAddRmsnorm_eq, List.map_map, Function.comp_def, List.length_map, hrope, hattend,
    ok_bind, mlpBlock_eq]
  rw [m.extend_causal layer rows []]
  · rfl
  · exact List.ext_getElem (by simp) fun i _ _ => by simp

theorem denseLayers_eq (layers : List (LlamaLayer ρ η)) :
    m.denseLayers layers (rows.map Prod.fst) (rows.map Prod.snd) =
      .ok ((stack (layers.map m.causal) rows).map Prod.fst,
        (stack (layers.map m.causal) rows).map Prod.snd) := by
  induction layers generalizing rows with
  | nil => rfl
  | cons layer layers ih =>
    rw [denseLayers, denseLayer_eq, ok_bind]
    exact ih _

theorem embed_eq (ts : List Token) : m.embed ts =
    ((ts.map fun t => (m.zeros, m.embedTokens t)).map Prod.fst,
      (ts.map fun t => (m.zeros, m.embedTokens t)).map Prod.snd) := by
  rw [List.map_map, List.map_map]
  rfl

/-- The hidden row of a row after all layers. -/
def hiddenRow (row : ρ × ρ) : ρ := (m.norm row.1 row.2).1

theorem finalNorm_eq :
    m.finalNorm (rows.map Prod.fst) (rows.map Prod.snd) = rows.map m.hiddenRow := by
  rw [finalNorm, fusedAddRmsnorm_eq]
  rfl

/-- The dense pass returns the hidden rows of the stacked layers. -/
theorem llamaForward_eq (ts : List Token) :
    m.llamaForward ts = .ok ((m.states m.layers ts).map m.hiddenRow) := by
  simp only [llamaForward, embed_eq, denseLayers_eq, ok_bind, finalNorm_eq]
  rfl

end Llama

end LightServe
