import Mathlib.Algebra.Order.Field.Rat
import Mathlib.Algebra.Order.Floor.Ring
import Mathlib.Data.Rat.Floor
import Mathlib.Order.Interval.Set.LinearOrder
import Mathlib.Tactic.Linarith
import Mathlib.Tactic.FieldSimp
import Mathlib.Tactic.NormNum

namespace Thcdb.Frontend

structure OutputSize where
  width : ℤ
  height : ℤ
  deriving DecidableEq, Repr

/-- Numbers are rational. -/
structure ScaleRange where
  min : ℚ
  max : ℚ
  deriving DecidableEq, Repr

structure ImageDimensionRange where
  width : ScaleRange
  height : ScaleRange
  deriving DecidableEq, Repr

def EPSILON : ℚ := 1 / 2 ^ 52

def round (x : ℚ) : ℤ := ⌊x + 1 / 2⌋

def isFinitePositive (value : ℚ) : Bool := 0 < value

namespace ScaleRange

def fromRoundedOutputBounds (self : ScaleRange) (rawSize : ℚ) : ScaleRange where
  min := 0 ⊔ ((self.min - 1 / 2) / rawSize)
  max := (self.max + 1 / 2) / rawSize

def getMaxValueBelowUpperBound (self : ScaleRange) : ℚ :=
  let epsilon := EPSILON * (1 ⊔ |self.max|)
  self.min ⊔ (self.max - epsilon)

def tryIntersect (self other : ScaleRange) : Option ScaleRange :=
  let min := self.min ⊔ other.min
  let max := self.max ⊓ other.max
  if max ≤ min then none else some ⟨min, max⟩

end ScaleRange

namespace ImageDimensionRange

def getAllowedScaleRange (self : ImageDimensionRange) (rawWidth rawHeight : ℚ) :
    Option ScaleRange :=
  let widthScaleRange := self.width.fromRoundedOutputBounds rawWidth
  let heightScaleRange := self.height.fromRoundedOutputBounds rawHeight
  widthScaleRange.tryIntersect heightScaleRange

def resolveScale (self : ImageDimensionRange) (rawWidth rawHeight : ℚ)
    (scaleRange : ScaleRange) : ℚ :=
  if scaleRange.min ≤ 1 ∧ 1 < scaleRange.max then 1
  else
    let preferredMinScale := max (self.width.min / rawWidth) (self.height.min / rawHeight)
    let preferredMaxScale := min (self.width.max / rawWidth) (self.height.max / rawHeight)
    if 1 < preferredMinScale then min preferredMinScale scaleRange.getMaxValueBelowUpperBound
    else max preferredMaxScale scaleRange.min

end ImageDimensionRange

def computeOutputSize (rawWidth rawHeight : ℚ) (dimensionRange : ImageDimensionRange) :
    Option OutputSize :=
  if !isFinitePositive rawWidth || !isFinitePositive rawHeight then none
  else
    (dimensionRange.getAllowedScaleRange rawWidth rawHeight).map fun scaleRange =>
      let scale := dimensionRange.resolveScale rawWidth rawHeight scaleRange
      { width := round (rawWidth * scale), height := round (rawHeight * scale) }

/-- Whole numbers of pixels, of which there is at least one. -/
structure PixelRange where
  min : ℤ
  max : ℤ
  one_le : 1 ≤ min
  le : min ≤ max

namespace PixelRange

def toScaleRange (r : PixelRange) : ScaleRange := ⟨r.min, r.max⟩

def Holds (r : PixelRange) (size : ℤ) : Prop := r.min ≤ size ∧ size ≤ r.max

instance (r : PixelRange) (size : ℤ) : Decidable (r.Holds size) := instDecidableAnd

end PixelRange

namespace ScaleRange

/-- The upper end is exclusive. -/
def scales (r : ScaleRange) : Set ℚ := Set.Ico r.min r.max

variable {r s : ScaleRange} {scale : ℚ}

theorem tryIntersect_eq_some {t : ScaleRange} :
    r.tryIntersect s = some t ↔ t = ⟨r.min ⊔ s.min, r.max ⊓ s.max⟩ ∧ t.min < t.max := by
  unfold tryIntersect
  dsimp only
  split_ifs with h
  · constructor
    · exact nofun
    · rintro ⟨rfl, hlt⟩
      exact absurd h (not_le.mpr hlt)
  · rw [Option.some.injEq]
    constructor
    · rintro rfl
      exact ⟨rfl, not_le.mp h⟩
    · exact fun ht => ht.1.symm

theorem tryIntersect_scales {t : ScaleRange} (h : r.tryIntersect s = some t) :
    t.scales = r.scales ∩ s.scales := by
  obtain ⟨rfl, -⟩ := tryIntersect_eq_some.mp h
  exact Set.Ico_inter_Ico.symm

/-- Two ranges meet exactly if a scale is in both. -/
theorem tryIntersect_isSome_iff : (r.tryIntersect s).isSome ↔ (r.scales ∩ s.scales).Nonempty := by
  have hmeet : r.scales ∩ s.scales = Set.Ico (r.min ⊔ s.min) (r.max ⊓ s.max) :=
    Set.Ico_inter_Ico
  rw [hmeet, Set.nonempty_Ico, Option.isSome_iff_exists]
  constructor
  · rintro ⟨t, ht⟩
    obtain ⟨rfl, hlt⟩ := tryIntersect_eq_some.mp ht
    exact hlt
  · intro hlt
    exact ⟨_, tryIntersect_eq_some.mpr ⟨rfl, hlt⟩⟩

theorem getMaxValueBelowUpperBound_mem (h : r.min < r.max) :
    r.getMaxValueBelowUpperBound ∈ r.scales := by
  have hepsilon : 0 < EPSILON * (1 ⊔ |r.max|) := by
    have hone : 0 < 1 ⊔ |r.max| := lt_of_lt_of_le one_pos (le_max_left _ _)
    have hpos : 0 < EPSILON := by norm_num [EPSILON]
    exact mul_pos hpos hone
  constructor
  · exact le_max_left _ _
  · exact max_lt h (sub_lt_self _ hepsilon)

end ScaleRange

section Rounding
variable {r : PixelRange} {raw scale : ℚ}

/-- A scale is in the range of the bounds exactly if it brings the rounded size into them. -/
theorem mem_fromRoundedOutputBounds (hraw : 0 < raw) :
    scale ∈ (r.toScaleRange.fromRoundedOutputBounds raw).scales ↔
      r.Holds (round (raw * scale)) := by
  have hmin : (1 : ℚ) ≤ r.min := by exact_mod_cast r.one_le
  -- the lower end is positive, so that it is never cut at zero
  have hlow : max 0 ((r.toScaleRange.min - 1 / 2) / raw) = ((r.min : ℚ) - 1 / 2) / raw := by
    apply max_eq_right
    apply div_nonneg _ hraw.le
    show (0 : ℚ) ≤ r.min - 1 / 2
    linarith
  have hlower : (max 0 ((r.toScaleRange.min - 1 / 2) / raw) ≤ scale) ↔
      r.min ≤ round (raw * scale) := by
    rw [hlow, div_le_iff₀ hraw, round, Int.le_floor, mul_comm raw scale]
    constructor <;> intro h <;> linarith
  have hupper : (scale < (r.toScaleRange.max + 1 / 2) / raw) ↔ round (raw * scale) ≤ r.max := by
    rw [lt_div_iff₀ hraw, round, ← Int.lt_add_one_iff, Int.floor_lt, mul_comm raw scale]
    push_cast
    show scale * raw < (r.max : ℚ) + 1 / 2 ↔ _
    constructor <;> intro h <;> linarith
  exact and_congr hlower hupper

/-- A size is within the ends that its bounds give for the scale. -/
theorem bounds_mem (hraw : 0 < raw) :
    (r.toScaleRange.fromRoundedOutputBounds raw).min ≤ r.min / raw ∧
      r.max / raw < (r.toScaleRange.fromRoundedOutputBounds raw).max := by
  have hmin : (1 : ℚ) ≤ r.min := by exact_mod_cast r.one_le
  constructor
  · apply max_le
    · exact div_nonneg (by linarith) hraw.le
    · apply div_le_div_of_nonneg_right _ hraw.le
      show (r.min : ℚ) - 1 / 2 ≤ r.min
      linarith
  · apply div_lt_div_of_pos_right _ hraw
    show (r.max : ℚ) < r.max + 1 / 2
    linarith

end Rounding

structure PixelRanges where
  width : PixelRange
  height : PixelRange

namespace PixelRanges

def toDimensionRange (d : PixelRanges) : ImageDimensionRange :=
  ⟨d.width.toScaleRange, d.height.toScaleRange⟩

def Holds (d : PixelRanges) (size : OutputSize) : Prop :=
  d.width.Holds size.width ∧ d.height.Holds size.height

instance (d : PixelRanges) (size : OutputSize) : Decidable (d.Holds size) := instDecidableAnd

def scaled (rawWidth rawHeight scale : ℚ) : OutputSize :=
  ⟨round (rawWidth * scale), round (rawHeight * scale)⟩

variable {d : PixelRanges} {rawWidth rawHeight scale : ℚ} {allowed : ScaleRange}

/-- The allowed scales are those that bring both rounded sizes into their bounds. -/
theorem mem_allowed (hw : 0 < rawWidth) (hh : 0 < rawHeight)
    (h : d.toDimensionRange.getAllowedScaleRange rawWidth rawHeight = some allowed) :
    scale ∈ allowed.scales ↔ d.Holds (scaled rawWidth rawHeight scale) := by
  rw [ScaleRange.tryIntersect_scales h, Set.mem_inter_iff]
  exact and_congr (mem_fromRoundedOutputBounds hw) (mem_fromRoundedOutputBounds hh)

theorem allowed_isSome_iff (hw : 0 < rawWidth) (hh : 0 < rawHeight) :
    (d.toDimensionRange.getAllowedScaleRange rawWidth rawHeight).isSome ↔
      ∃ scale, d.Holds (scaled rawWidth rawHeight scale) := by
  unfold ImageDimensionRange.getAllowedScaleRange
  rw [ScaleRange.tryIntersect_isSome_iff]
  apply exists_congr
  intro scale
  exact and_congr (mem_fromRoundedOutputBounds hw) (mem_fromRoundedOutputBounds hh)

/-- The scale that is chosen is allowed. -/
theorem resolveScale_mem (hw : 0 < rawWidth) (hh : 0 < rawHeight)
    (h : d.toDimensionRange.getAllowedScaleRange rawWidth rawHeight = some allowed) :
    d.toDimensionRange.resolveScale rawWidth rawHeight allowed ∈ allowed.scales := by
  obtain ⟨rfl, hlt⟩ := ScaleRange.tryIntersect_eq_some.mp h
  obtain ⟨hwmin, hwmax⟩ := bounds_mem (r := d.width) hw
  obtain ⟨hhmin, hhmax⟩ := bounds_mem (r := d.height) hh
  have hpreferredMin := max_le_max hwmin hhmin
  have hpreferredMax := min_lt_min hwmax hhmax
  have hbelow := ScaleRange.getMaxValueBelowUpperBound_mem hlt
  unfold ImageDimensionRange.resolveScale
  dsimp only
  split_ifs with hone hlarge
  · exact hone
  · exact ⟨le_min hpreferredMin hbelow.1, lt_of_le_of_lt (min_le_right _ _) hbelow.2⟩
  · exact ⟨le_max_right _ _, max_lt hpreferredMax hlt⟩

/-- A scale of one is kept. -/
theorem resolveScale_one (d : PixelRanges) (rawWidth rawHeight : ℚ)
    (h : (1 : ℚ) ∈ allowed.scales) :
    d.toDimensionRange.resolveScale rawWidth rawHeight allowed = 1 := if_pos h

/-- Only positive scales bring a size into bounds. -/
theorem pos_of_holds (hw : 0 < rawWidth) (h : d.Holds (scaled rawWidth rawHeight scale)) :
    0 < scale := by
  have hone : (1 : ℚ) ≤ d.width.min := by exact_mod_cast d.width.one_le
  have hfloor : (d.width.min : ℚ) ≤ rawWidth * scale + 1 / 2 := Int.le_floor.mp h.1.1
  have hprod : 0 < rawWidth * scale := by linarith
  exact (mul_pos_iff_of_pos_left hw).mp hprod

theorem round_intCast (n : ℤ) : round (n : ℚ) = n := by
  rw [round, Int.floor_intCast_add]
  norm_num

theorem computeOutputSize_eq (hw : 0 < rawWidth) (hh : 0 < rawHeight)
    (range : ImageDimensionRange) :
    computeOutputSize rawWidth rawHeight range =
      (range.getAllowedScaleRange rawWidth rawHeight).map fun allowed =>
        scaled rawWidth rawHeight (range.resolveScale rawWidth rawHeight allowed) := by
  simp [computeOutputSize, isFinitePositive, hw, hh, scaled]

end PixelRanges

open PixelRanges in
/-- A size is found exactly if a positive scale gives one, and it is within the bounds; a whole
size within the bounds stays as it is. -/
theorem output_size_exact (d : PixelRanges) {rawWidth rawHeight : ℚ} (hw : 0 < rawWidth)
    (hh : 0 < rawHeight) :
    ((computeOutputSize rawWidth rawHeight d.toDimensionRange).isSome ↔
      ∃ scale > 0, d.Holds ⟨round (rawWidth * scale), round (rawHeight * scale)⟩) ∧
    (∀ size, computeOutputSize rawWidth rawHeight d.toDimensionRange = some size → d.Holds size) ∧
    ∀ width height : ℤ, rawWidth = width → rawHeight = height → d.Holds ⟨width, height⟩ →
      computeOutputSize rawWidth rawHeight d.toDimensionRange = some ⟨width, height⟩ := by
  rw [computeOutputSize_eq hw hh]
  refine ⟨?_, ?_, ?_⟩
  · rw [Option.isSome_map, allowed_isSome_iff hw hh]
    constructor
    · rintro ⟨scale, hscale⟩
      exact ⟨scale, pos_of_holds hw hscale, hscale⟩
    · rintro ⟨scale, -, hscale⟩
      exact ⟨scale, hscale⟩
  · intro size hsize
    obtain ⟨allowed, hallowed, rfl⟩ := Option.map_eq_some_iff.mp hsize
    exact (mem_allowed hw hh hallowed).mp (resolveScale_mem hw hh hallowed)
  · rintro width height rfl rfl hholds
    have hscaled : scaled (width : ℚ) height 1 = ⟨width, height⟩ := by
      simp only [scaled, mul_one, round_intCast]
    have hholds : d.Holds (scaled (width : ℚ) height 1) := hscaled ▸ hholds
    obtain ⟨allowed, hallowed⟩ :=
      Option.isSome_iff_exists.mp ((allowed_isSome_iff hw hh).mpr ⟨1, hholds⟩)
    have hone := resolveScale_one d width height
      ((mem_allowed hw hh hallowed).mpr hholds)
    rw [hallowed, Option.map_some, hone, hscaled]

def coverRanges : PixelRanges :=
  ⟨⟨256, 4096, by decide, by decide⟩, ⟨256, 4096, by decide, by decide⟩⟩

theorem output_size_exact_kept :
    computeOutputSize 1200 800 coverRanges.toDimensionRange = some ⟨1200, 800⟩ :=
  (output_size_exact coverRanges (by norm_num) (by norm_num)).2.2 1200 800 (by norm_num)
    (by norm_num) (by decide)

example : computeOutputSize 271 4345 coverRanges.toDimensionRange = some ⟨256, 4096⟩ := by
  decide +kernel

end Thcdb.Frontend
