import Mathlib.Data.Nat.Notation

/-!
# Engine configuration

The configuration records of `engine/config.py`. Each carries the assertions of its
`__post_init__` as fields, so that a configuration the source would reject cannot be
built. Fields that no modelled function reads (`int8_kv`, the draft checkpoint and the
draft pool) are left out.
-/

namespace LightServe

/-- How big a KV-cache block is, how many there are, and how many are kept back from
new admissions. -/
structure CacheConfig where
  /-- Tokens per physical block. -/
  blockSize : ℕ := 16
  /-- Physical blocks the block manager may hand out. -/
  numGpuBlocks : ℕ := 0
  /-- Blocks never handed to a new request's admission. -/
  watermarkBlocks : ℕ := 0
  /-- Whether the block manager owns a prefix cache. -/
  enablePrefixCaching : Bool := false
  blockSize_pos : 0 < blockSize
  watermark_le : watermarkBlocks ≤ numGpuBlocks

/-- Neither a watermark nor a prefix cache. -/
def CacheConfig.ofBlocks (blockSize numGpuBlocks : ℕ) (h : 0 < blockSize) : CacheConfig where
  blockSize
  numGpuBlocks
  blockSize_pos := h
  watermark_le := Nat.zero_le _

/-- How many requests and tokens one scheduler step may admit. -/
structure SchedulerConfig where
  /-- Cap on requests running at once. -/
  maxNumSeqs : ℕ := 256
  /-- Token budget of one `schedule` call. -/
  maxNumBatchedTokens : ℕ := 2048
  /-- Matched-prefix budget of one `schedule` call; `none` reuses the token budget. -/
  maxCacheHitContextTokens : Option ℕ := none
  maxNumSeqs_pos : 0 < maxNumSeqs
  maxNumBatchedTokens_pos : 0 < maxNumBatchedTokens
  maxCacheHit_pos : ∀ n ∈ maxCacheHitContextTokens, 0 < n

/-- The defaults pass their own assertions. -/
def SchedulerConfig.defaults : SchedulerConfig where
  maxNumSeqs_pos := by decide
  maxNumBatchedTokens_pos := by decide
  maxCacheHit_pos := by simp

/-- Its presence is the switch for speculative decoding. -/
structure SpeculativeConfig where
  /-- `K`, the number of tokens the draft proposes per round. -/
  numSpeculativeTokens : ℕ := 4
  numSpeculativeTokens_pos : 0 < numSpeculativeTokens

end LightServe
