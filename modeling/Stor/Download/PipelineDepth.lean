import Stor.Download.Exchange

/-!
# The configured pipeline depth

`resolvePipeline` of `download/download.go`, and the fields that `runWorkers` gives every
client.  The depth is then the number of blocks that the peer sends in the window, cut to the
configured limits (`target_eq_clamp`), unless the product of rate and window leaves 64 bits.
-/

namespace Stor.Download

open Lib

/-- The fields of the configuration that the depth depends on. -/
structure DownloadConfig where
  maxPipeline : Int
  pipelineMin : Int
  pipelineMax : Int
  pipelineWindowSecs : Int
  deriving DecidableEq, Repr

namespace DownloadConfig

/-- The limits, before the last comparison of the two. -/
def limits (cfg : DownloadConfig) : Int × Int :=
  let legacy := if cfg.maxPipeline ≤ 0 then defaultMaxPipeline else cfg.maxPipeline
  if cfg.pipelineMin ≤ 0 ∧ cfg.pipelineMax ≤ 0 then (legacy, legacy)
  else if cfg.pipelineMax ≤ 0 then
    (cfg.pipelineMin, if legacy < cfg.pipelineMin then cfg.pipelineMin else legacy)
  else if cfg.pipelineMin ≤ 0 then
    (if defaultPipelineMin > cfg.pipelineMax then cfg.pipelineMax else defaultPipelineMin,
      cfg.pipelineMax)
  else (cfg.pipelineMin, cfg.pipelineMax)

structure Resolved where
  minP : Int
  maxP : Int
  windowSecs : Int
  deriving DecidableEq, Repr

def resolvePipeline (cfg : DownloadConfig) : Resolved where
  minP := if cfg.limits.1 > cfg.limits.2 then cfg.limits.2 else cfg.limits.1
  maxP := cfg.limits.2
  windowSecs :=
    if cfg.pipelineWindowSecs ≤ 0 then defaultPipelineWindowSecs else cfg.pipelineWindowSecs

/-- A client as `runWorkers` sets it up, with the rate that it has come to. -/
def client (cfg : DownloadConfig) (downRate : Int) : Pipeline where
  maxPipeline := cfg.resolvePipeline.maxP
  pipelineMin := cfg.resolvePipeline.minP
  pipelineMax := cfg.resolvePipeline.maxP
  pipelineWindow := cfg.resolvePipeline.windowSecs
  downRate := downRate

end DownloadConfig

/-! ## The limits -/

section
variable (cfg : DownloadConfig)

theorem DownloadConfig.one_le_limits : 1 ≤ cfg.limits.1 ∧ 1 ≤ cfg.limits.2 := by
  unfold limits
  dsimp only
  have hlegacy : 1 ≤ if cfg.maxPipeline ≤ 0 then defaultMaxPipeline else cfg.maxPipeline := by
    split_ifs
    · decide
    · omega
  generalize (if cfg.maxPipeline ≤ 0 then defaultMaxPipeline else cfg.maxPipeline) = legacy at *
  unfold defaultPipelineMin
  split_ifs <;> constructor <;> dsimp only <;> omega

/-- The limits that come out are ordered, and the window is not empty. -/
theorem DownloadConfig.resolvePipeline_ordered :
    1 ≤ cfg.resolvePipeline.minP ∧ cfg.resolvePipeline.minP ≤ cfg.resolvePipeline.maxP ∧
      1 ≤ cfg.resolvePipeline.windowSecs := by
  obtain ⟨hmin, hmax⟩ := cfg.one_le_limits
  unfold resolvePipeline defaultPipelineWindowSecs
  dsimp only
  refine ⟨?_, ?_, ?_⟩
  · split_ifs <;> omega
  · split_ifs <;> omega
  · split_ifs <;> omega

end

/-! ## The depth -/

/-- The blocks that come in a window at the given rate. -/
def blocksInWindow (downRate windowSecs : Int) : Int := max downRate 0 * windowSecs / blockSize

theorem blocksInWindow_mono {r r' window : Int} (hwindow : 0 ≤ window) (h : r ≤ r') :
    blocksInWindow r window ≤ blocksInWindow r' window := by
  have hrate : max r 0 ≤ max r' 0 := max_le_max h (Int.le_refl 0)
  exact Int.ediv_le_ediv (by decide) (Int.mul_le_mul_of_nonneg_right hrate hwindow)

/-- The same as the source computes it: the product wraps at 64 bits. -/
def wrappedBlocks (downRate windowSecs : Int) : Int :=
  (wrap64 (max downRate 0 * windowSecs)).tdiv blockSize

theorem pipelineTarget_eq {downRate window minP maxP : Int} (hmin : 1 ≤ minP) (hmax : minP ≤ maxP)
    (hwindow : 1 ≤ window) :
    pipelineTarget downRate window minP maxP =
      min (max (wrappedBlocks downRate window) minP) maxP := by
  have hrate : (if downRate < 0 then 0 else downRate) = max downRate 0 := by
    split_ifs <;> omega
  unfold pipelineTarget wrappedBlocks
  dsimp only
  rw [if_neg (show ¬ window ≤ 0 by omega), if_neg (show ¬ minP < 1 by omega),
    if_neg (show ¬ maxP < minP by omega), hrate]
  generalize (wrap64 (max downRate 0 * window)).tdiv (blockSize : Int) = blocks
  split_ifs <;> omega

section
variable {downRate window : Int}

theorem wrappedBlocks_eq (hwindow : 1 ≤ window) (hfits : max downRate 0 * window < 2 ^ 63) :
    wrappedBlocks downRate window = blocksInWindow downRate window := by
  have hnonneg : 0 ≤ max downRate 0 * window :=
    Int.mul_nonneg (Int.le_max_right downRate 0) (by omega)
  rw [wrappedBlocks, wrap64_of_range (by omega) hfits, Int.tdiv_eq_ediv_of_nonneg hnonneg,
    blocksInWindow]

/-- A product that wraps comes out smaller by a whole number of blocks. -/
theorem wrappedBlocks_lt (hwraps : 2 ^ 63 ≤ max downRate 0 * window) :
    wrappedBlocks downRate window < blocksInWindow downRate window := by
  have hlt := (wrap64_range (max downRate 0 * window)).2
  unfold wrappedBlocks blocksInWindow
  generalize max downRate 0 * window = product at *
  generalize wrap64 product = wrapped at *
  have hblock : (blockSize : Int) = 16384 := rfl
  rw [hblock]
  have hquot : wrapped.tdiv 16384 ≤ (2 ^ 63 - 1 : Int).tdiv 16384 :=
    Int.tdiv_le_tdiv (by decide) (by omega)
  have hlargest : (2 ^ 63 - 1 : Int).tdiv 16384 = 2 ^ 49 - 1 := by decide
  omega

end

theorem DownloadConfig.target_client (cfg : DownloadConfig) (downRate : Int) :
    (cfg.client downRate).target =
      pipelineTarget downRate cfg.resolvePipeline.windowSecs cfg.resolvePipeline.minP
        cfg.resolvePipeline.maxP := by
  obtain ⟨hmin, hmax, hwindow⟩ := cfg.resolvePipeline_ordered
  unfold Pipeline.target client
  dsimp only
  rw [if_neg (by omega), if_neg (by omega), if_neg (by omega), if_neg (by omega)]

/-- The limits cut the wrapped number of blocks to the same depth as the exact one. -/
def DownloadConfig.SameDepth (cfg : DownloadConfig) (r : Int) : Prop :=
  cfg.resolvePipeline.minP = cfg.resolvePipeline.maxP ∨
    cfg.resolvePipeline.maxP ≤ wrappedBlocks r cfg.resolvePipeline.windowSecs ∨
      blocksInWindow r cfg.resolvePipeline.windowSecs ≤ cfg.resolvePipeline.minP

section
variable (cfg : DownloadConfig) (r : Int)

/-- The depth over the mathematical integers. -/
def DownloadConfig.exactDepth : Int :=
  min (max (blocksInWindow r cfg.resolvePipeline.windowSecs) cfg.resolvePipeline.minP)
    cfg.resolvePipeline.maxP

theorem DownloadConfig.target_client_eq :
    (cfg.client r).target =
      min (max (wrappedBlocks r cfg.resolvePipeline.windowSecs) cfg.resolvePipeline.minP)
        cfg.resolvePipeline.maxP := by
  obtain ⟨hmin, hmax, hwindow⟩ := cfg.resolvePipeline_ordered
  rw [cfg.target_client, pipelineTarget_eq hmin hmax hwindow]

theorem DownloadConfig.target_le_exactDepth : (cfg.client r).target ≤ cfg.exactDepth r := by
  have hblocks : wrappedBlocks r cfg.resolvePipeline.windowSecs ≤
      blocksInWindow r cfg.resolvePipeline.windowSecs := by
    by_cases hfits : max r 0 * cfg.resolvePipeline.windowSecs < 2 ^ 63
    · exact Int.le_of_eq (wrappedBlocks_eq cfg.resolvePipeline_ordered.2.2 hfits)
    · exact Int.le_of_lt (wrappedBlocks_lt (Int.not_lt.mp hfits))
  rw [cfg.target_client_eq, exactDepth]
  omega

theorem DownloadConfig.target_eq_exactDepth_iff :
    (cfg.client r).target = cfg.exactDepth r ↔
      max r 0 * cfg.resolvePipeline.windowSecs < 2 ^ 63 ∨ cfg.SameDepth r := by
  obtain ⟨hmin, hmax, hwindow⟩ := cfg.resolvePipeline_ordered
  rw [cfg.target_client_eq, exactDepth, SameDepth]
  by_cases hfits : max r 0 * cfg.resolvePipeline.windowSecs < 2 ^ 63
  · rw [wrappedBlocks_eq hwindow hfits]
    exact ⟨fun _ => .inl hfits, fun _ => rfl⟩
  · have hless := wrappedBlocks_lt (Int.not_lt.mp hfits)
    omega

theorem DownloadConfig.exactDepth_eq :
    cfg.exactDepth r =
      if max r 0 * cfg.resolvePipeline.windowSecs / 16384 < cfg.resolvePipeline.minP then
        cfg.resolvePipeline.minP
      else if cfg.resolvePipeline.maxP < max r 0 * cfg.resolvePipeline.windowSecs / 16384 then
        cfg.resolvePipeline.maxP
      else max r 0 * cfg.resolvePipeline.windowSecs / 16384 := by
  obtain ⟨hmin, hmax, hwindow⟩ := cfg.resolvePipeline_ordered
  have hblocks : blocksInWindow r cfg.resolvePipeline.windowSecs =
      max r 0 * cfg.resolvePipeline.windowSecs / 16384 := rfl
  rw [exactDepth, hblocks]
  generalize max r 0 * cfg.resolvePipeline.windowSecs / 16384 = blocks
  split_ifs <;> omega

end

/-- The limits are ordered whatever is configured.  The depth is the number of blocks in the
window, cut to them, exactly if the product of rate and window is within 64 bits or the wrapped
number is cut to the same depth.  It is never zero, and a higher rate of this kind has no
smaller depth. -/
theorem target_eq_clamp (cfg : DownloadConfig) :
    (1 ≤ cfg.resolvePipeline.minP ∧ cfg.resolvePipeline.minP ≤ cfg.resolvePipeline.maxP ∧
      1 ≤ cfg.resolvePipeline.windowSecs) ∧
    (∀ r, ((cfg.client r).target =
        if max r 0 * cfg.resolvePipeline.windowSecs / 16384 < cfg.resolvePipeline.minP then
          cfg.resolvePipeline.minP
        else if cfg.resolvePipeline.maxP < max r 0 * cfg.resolvePipeline.windowSecs / 16384 then
          cfg.resolvePipeline.maxP
        else max r 0 * cfg.resolvePipeline.windowSecs / 16384) ↔
      max r 0 * cfg.resolvePipeline.windowSecs < 2 ^ 63 ∨ cfg.SameDepth r) ∧
    (∀ r, (cfg.client r).target ≠ 0) ∧
    ∀ r r', r ≤ r' → max r' 0 * cfg.resolvePipeline.windowSecs < 2 ^ 63 ∨ cfg.SameDepth r' →
      (cfg.client r).target ≤ (cfg.client r').target := by
  obtain ⟨hmin, hmax, hwindow⟩ := cfg.resolvePipeline_ordered
  refine ⟨⟨hmin, hmax, hwindow⟩, fun r => ?_, fun r hzero => ?_, fun r r' hle hexact => ?_⟩
  · rw [← cfg.exactDepth_eq, cfg.target_eq_exactDepth_iff]
  · have hone := (cfg.client r).one_le_target
    omega
  · have hdepth : cfg.exactDepth r ≤ cfg.exactDepth r' := by
      have hmono := blocksInWindow_mono (by omega : 0 ≤ cfg.resolvePipeline.windowSecs) hle
      unfold DownloadConfig.exactDepth
      omega
    rw [(cfg.target_eq_exactDepth_iff r').mpr hexact]
    exact Int.le_trans (cfg.target_le_exactDepth r) hdepth

/-- The defaults, with a peer that sends 1 MiB a second. -/
theorem target_eq_clamp_default :
    max 1048576 0 * (⟨16, 4, 256, 3⟩ : DownloadConfig).resolvePipeline.windowSecs < 2 ^ 63 ∧
      ((⟨16, 4, 256, 3⟩ : DownloadConfig).client 1048576).target = 192 := by
  have hfits : max 1048576 0 * (⟨16, 4, 256, 3⟩ : DownloadConfig).resolvePipeline.windowSecs <
      2 ^ 63 := by decide
  exact ⟨hfits, ((target_eq_clamp ⟨16, 4, 256, 3⟩).2.1 1048576).mpr (.inl hfits)⟩

/-- With the defaults and a rate of `2 ^ 62` the product is negative, and the fastest peer gets
the depth of the slowest. -/
theorem target_wraps :
    ((⟨16, 4, 256, 3⟩ : DownloadConfig).client (2 ^ 62)).target = 4 ∧
      (256 : Int) < max (2 ^ 62) 0 * 3 / 16384 ∧
      ((⟨16, 4, 256, 3⟩ : DownloadConfig).client (2 ^ 61)).target = 256 := by
  decide

end Stor.Download
