import Mathlib.Algebra.Order.Field.Rat
import Mathlib.Tactic.Linarith
import Mathlib.Tactic.FieldSimp
import Mathlib.Tactic.NormNum

namespace Thcdb.Frontend

/-- Numbers are rational, so that all of them are finite. -/
structure Rect where
  x : ℚ
  y : ℚ
  width : ℚ
  height : ℚ
  deriving DecidableEq, Repr

structure Size where
  width : ℚ
  height : ℚ
  deriving DecidableEq, Repr

structure Point where
  x : ℚ
  y : ℚ
  deriving DecidableEq, Repr

def clampValue (value min max : ℚ) : ℚ :=
  if max < min then value
  else if value < min then min
  else if max < value then max
  else value

def positiveRatio (ratio : Option ℚ) : Option ℚ := ratio.filter (0 < ·)

def fitSizeToBounds (size : Size) (bounds : Rect) (ratio : Option ℚ) : Size :=
  match positiveRatio ratio with
  | some r =>
    if bounds.width < size.width ∨ bounds.height < size.height then
      if r < bounds.width / bounds.height then ⟨bounds.height * r, bounds.height⟩
      else ⟨bounds.width, bounds.width / r⟩
    else size
  | none =>
    ⟨if bounds.width < size.width then bounds.width else size.width,
      if bounds.height < size.height then bounds.height else size.height⟩

def clampPositionToBounds (position : Point) (size : Size) (bounds : Rect) : Point :=
  let maxX := bounds.x + bounds.width - size.width
  let maxY := bounds.y + bounds.height - size.height
  ⟨clampValue position.x bounds.x maxX, clampValue position.y bounds.y maxY⟩

def createFallbackRect (bounds : Rect) (ratio : Option ℚ) : Rect :=
  match positiveRatio ratio with
  | none => bounds
  | some r =>
    let ratioWidth := bounds.height * r
    if ratioWidth ≤ bounds.width then ⟨bounds.x, bounds.y, ratioWidth, bounds.height⟩
    else ⟨bounds.x, bounds.y, bounds.width, bounds.width / r⟩

namespace Rect

def Positive (r : Rect) : Prop := 0 < r.width ∧ 0 < r.height

instance (r : Rect) : Decidable r.Positive := instDecidableAnd

structure Inside (r bounds : Rect) : Prop where
  left : bounds.x ≤ r.x
  top : bounds.y ≤ r.y
  right : r.x + r.width ≤ bounds.x + bounds.width
  bottom : r.y + r.height ≤ bounds.y + bounds.height

def Exceeds (r bounds : Rect) : Prop := bounds.width < r.width ∨ bounds.height < r.height

def HasRatio (r : Rect) (ratio : ℚ) : Prop := r.width = ratio * r.height

variable {r bounds : Rect} {ratio : ℚ}

theorem not_positive_iff : ¬r.Positive ↔ r.width ≤ 0 ∨ r.height ≤ 0 := by
  rw [Positive, not_and_or, not_lt, not_lt]

theorem Positive.not_degenerate (h : r.Positive) : ¬(r.width ≤ 0 ∨ r.height ≤ 0) :=
  not_or.mpr ⟨not_le.mpr h.1, not_le.mpr h.2⟩

theorem Inside.not_exceeds (h : r.Inside bounds) : ¬r.Exceeds bounds := by
  have hwidth : r.width ≤ bounds.width := by linarith [h.left, h.right]
  have hheight : r.height ≤ bounds.height := by linarith [h.top, h.bottom]
  exact not_or.mpr ⟨not_lt.mpr hwidth, not_lt.mpr hheight⟩

end Rect

theorem fallback_positive {bounds : Rect} (hbounds : bounds.Positive) (ratio : Option ℚ) :
    (createFallbackRect bounds ratio).Positive := by
  obtain ⟨hwidth, hheight⟩ := hbounds
  unfold createFallbackRect
  split
  · exact ⟨hwidth, hheight⟩
  · next r hr =>
    have hpos : 0 < r := by simpa using (Option.filter_eq_some_iff.mp hr).2
    dsimp only
    split_ifs
    · exact ⟨mul_pos hheight hpos, hheight⟩
    · exact ⟨hwidth, div_pos hwidth hpos⟩

/-- It calls itself on the rectangle that replaces one without a size, and that one has a size. -/
def clampRectToBounds (rect bounds : Rect) (ratio : Option ℚ) : Rect :=
  if bounds.width ≤ 0 ∨ bounds.height ≤ 0 then rect
  else if rect.width ≤ 0 ∨ rect.height ≤ 0 then
    clampRectToBounds (createFallbackRect bounds ratio) bounds ratio
  else
    let size := fitSizeToBounds ⟨rect.width, rect.height⟩ bounds ratio
    let position := clampPositionToBounds ⟨rect.x, rect.y⟩ size bounds
    if size.width ≤ 0 ∨ size.height ≤ 0 then createFallbackRect bounds ratio
    else ⟨position.x, position.y, size.width, size.height⟩
termination_by if rect.Positive then 0 else 1
decreasing_by
  next hbounds hrect =>
  have hpositive := fallback_positive (not_not.mp (mt Rect.not_positive_iff.mp hbounds)) ratio
  rw [if_pos hpositive, if_neg (Rect.not_positive_iff.mpr hrect)]
  exact Nat.one_pos

section Clamping
variable {value low high : ℚ}

theorem clampValue_mem (value : ℚ) (h : low ≤ high) :
    low ≤ clampValue value low high ∧ clampValue value low high ≤ high := by
  unfold clampValue
  rw [if_neg (not_lt.mpr h)]
  split_ifs with hlow hhigh
  · exact ⟨le_rfl, h⟩
  · exact ⟨h, le_rfl⟩
  · exact ⟨not_lt.mp hlow, not_lt.mp hhigh⟩

theorem clampValue_eq_self (hlow : low ≤ value) (hhigh : value ≤ high) :
    clampValue value low high = value := by
  unfold clampValue
  rw [if_neg (not_lt.mpr (hlow.trans hhigh)), if_neg (not_lt.mpr hlow), if_neg (not_lt.mpr hhigh)]

end Clamping

section Fitting
variable {size : Size} {bounds : Rect} {ratio : Option ℚ} {r : ℚ}

theorem positiveRatio_eq_some (h : positiveRatio ratio = some r) : ratio = some r ∧ 0 < r := by
  simpa [positiveRatio, Option.filter_eq_some_iff] using h

theorem positiveRatio_some (hr : 0 < r) : positiveRatio (some r) = some r := by
  simp [positiveRatio, hr]

theorem fit_positive (hbounds : bounds.Positive) (hwidth : 0 < size.width)
    (hheight : 0 < size.height) : 0 < (fitSizeToBounds size bounds ratio).width ∧
      0 < (fitSizeToBounds size bounds ratio).height := by
  obtain ⟨hbw, hbh⟩ := hbounds
  unfold fitSizeToBounds
  split
  · next r hr =>
    have hpos := (positiveRatio_eq_some hr).2
    split_ifs
    · exact ⟨mul_pos hbh hpos, hbh⟩
    · exact ⟨hbw, div_pos hbw hpos⟩
    · exact ⟨hwidth, hheight⟩
  · dsimp only
    split_ifs <;> constructor <;> assumption

theorem fit_le (hbounds : bounds.Positive) :
    (fitSizeToBounds size bounds ratio).width ≤ bounds.width ∧
      (fitSizeToBounds size bounds ratio).height ≤ bounds.height := by
  obtain ⟨hbw, hbh⟩ := hbounds
  unfold fitSizeToBounds
  split
  · next r hr =>
    have hpos := (positiveRatio_eq_some hr).2
    split_ifs with hexceeds hwide
    · -- wider than the ratio: the height decides
      have hwidth := (lt_div_iff₀ hbh).mp hwide
      exact ⟨by linarith, le_rfl⟩
    · have hheight := (div_le_iff₀ hbh).mp (not_lt.mp hwide)
      exact ⟨le_rfl, (div_le_iff₀ hpos).mpr (by linarith)⟩
    · obtain ⟨hw, hh⟩ := not_or.mp hexceeds
      exact ⟨not_lt.mp hw, not_lt.mp hh⟩
  · dsimp only
    split_ifs <;> constructor <;> linarith

theorem fit_eq_self (hwidth : size.width ≤ bounds.width) (hheight : size.height ≤ bounds.height) :
    fitSizeToBounds size bounds ratio = size := by
  unfold fitSizeToBounds
  split
  · rw [if_neg (not_or.mpr ⟨not_lt.mpr hwidth, not_lt.mpr hheight⟩)]
  · rw [if_neg (not_lt.mpr hwidth), if_neg (not_lt.mpr hheight)]

/-- What does not fit is brought to the ratio. -/
theorem fit_hasRatio (hr : 0 < r)
    (h : bounds.width < size.width ∨ bounds.height < size.height) :
    (fitSizeToBounds size bounds (some r)).width =
      r * (fitSizeToBounds size bounds (some r)).height := by
  unfold fitSizeToBounds
  simp only [positiveRatio_some hr, if_pos h]
  split_ifs
  · exact mul_comm _ _
  · exact (mul_div_cancel₀ _ hr.ne').symm

theorem fallback_hasRatio (bounds : Rect) (hr : 0 < r) :
    (createFallbackRect bounds (some r)).HasRatio r := by
  unfold createFallbackRect
  simp only [positiveRatio_some hr]
  split_ifs
  · exact mul_comm _ _
  · exact (mul_div_cancel₀ _ hr.ne').symm

end Fitting

section Position
variable {position : Point} {size : Size} {bounds : Rect}

/-- A size that fits stands inside. -/
theorem clampPosition_inside (hwidth : size.width ≤ bounds.width)
    (hheight : size.height ≤ bounds.height) :
    Rect.Inside ⟨(clampPositionToBounds position size bounds).x,
      (clampPositionToBounds position size bounds).y, size.width, size.height⟩ bounds := by
  have hx : bounds.x ≤ bounds.x + bounds.width - size.width := by linarith
  have hy : bounds.y ≤ bounds.y + bounds.height - size.height := by linarith
  obtain ⟨hleft, hright⟩ := clampValue_mem position.x hx
  obtain ⟨htop, hbottom⟩ := clampValue_mem position.y hy
  refine ⟨hleft, htop, ?_, ?_⟩
  · exact le_sub_iff_add_le.mp hright
  · exact le_sub_iff_add_le.mp hbottom

theorem clampPosition_eq_self {rect : Rect} (h : rect.Inside bounds) :
    clampPositionToBounds ⟨rect.x, rect.y⟩ ⟨rect.width, rect.height⟩ bounds = ⟨rect.x, rect.y⟩ := by
  have hx := clampValue_eq_self h.left (le_sub_iff_add_le.mpr h.right)
  have hy := clampValue_eq_self h.top (le_sub_iff_add_le.mpr h.bottom)
  simp only [clampPositionToBounds, hx, hy]

end Position

section Rectangle
variable {rect bounds : Rect} {ratio : Option ℚ} {r : ℚ}

def placed (rect bounds : Rect) (ratio : Option ℚ) : Rect :=
  let size := fitSizeToBounds ⟨rect.width, rect.height⟩ bounds ratio
  let position := clampPositionToBounds ⟨rect.x, rect.y⟩ size bounds
  ⟨position.x, position.y, size.width, size.height⟩

theorem placed_positive (hbounds : bounds.Positive) (hrect : rect.Positive) :
    (placed rect bounds ratio).Positive := fit_positive hbounds hrect.1 hrect.2

theorem placed_inside (hbounds : bounds.Positive) : (placed rect bounds ratio).Inside bounds :=
  clampPosition_inside (fit_le hbounds).1 (fit_le hbounds).2

theorem placed_eq_self (h : rect.Inside bounds) : placed rect bounds ratio = rect := by
  obtain ⟨hwidth, hheight⟩ := not_or.mp h.not_exceeds
  have hfit : fitSizeToBounds ⟨rect.width, rect.height⟩ bounds ratio = ⟨rect.width, rect.height⟩ :=
    fit_eq_self (not_lt.mp hwidth) (not_lt.mp hheight)
  simp only [placed, hfit, clampPosition_eq_self h]

theorem placed_hasRatio (hr : 0 < r) (h : rect.HasRatio r ∨ rect.Exceeds bounds) :
    (placed rect bounds (some r)).HasRatio r := by
  by_cases hexceeds : rect.Exceeds bounds
  · exact fit_hasRatio hr hexceeds
  · have hratio := h.resolve_right hexceeds
    obtain ⟨hwidth, hheight⟩ := not_or.mp hexceeds
    have hfit : fitSizeToBounds ⟨rect.width, rect.height⟩ bounds (some r) =
        ⟨rect.width, rect.height⟩ := fit_eq_self (not_lt.mp hwidth) (not_lt.mp hheight)
    simpa only [Rect.HasRatio, placed, hfit] using hratio

/-- The last fallback is never needed. -/
theorem clamp_of_positive (hbounds : bounds.Positive) (hrect : rect.Positive) :
    clampRectToBounds rect bounds ratio = placed rect bounds ratio := by
  rw [clampRectToBounds, if_neg hbounds.not_degenerate, if_neg hrect.not_degenerate]
  exact if_neg (placed_positive hbounds hrect).not_degenerate

theorem clamp_of_not_positive (hbounds : bounds.Positive) (hrect : ¬rect.Positive) :
    clampRectToBounds rect bounds ratio =
      placed (createFallbackRect bounds ratio) bounds ratio := by
  rw [clampRectToBounds, if_neg hbounds.not_degenerate, if_pos (Rect.not_positive_iff.mp hrect)]
  exact clamp_of_positive hbounds (fallback_positive hbounds ratio)

/-- The call places the rectangle, or the fallback. -/
theorem exists_placed (rect : Rect) (ratio : Option ℚ) (hbounds : bounds.Positive) :
    ∃ source : Rect, source.Positive ∧
    clampRectToBounds rect bounds ratio = placed source bounds ratio := by
  by_cases hrect : rect.Positive
  · exact ⟨rect, hrect, clamp_of_positive hbounds hrect⟩
  · exact ⟨_, fallback_positive hbounds ratio, clamp_of_not_positive hbounds hrect⟩

theorem clamp_eq_self (hbounds : bounds.Positive) (hrect : rect.Positive)
    (hinside : rect.Inside bounds) : clampRectToBounds rect bounds ratio = rect := by
  rw [clamp_of_positive hbounds hrect, placed_eq_self hinside]

theorem clamp_hasRatio (hbounds : bounds.Positive) (hr : 0 < r)
    (h : rect.HasRatio r ∨ ¬rect.Positive ∨ rect.Exceeds bounds) :
    (clampRectToBounds rect bounds (some r)).HasRatio r := by
  by_cases hrect : rect.Positive
  · rw [clamp_of_positive hbounds hrect]
    exact placed_hasRatio hr (h.imp_right fun h => h.resolve_left (not_not.mpr hrect))
  · rw [clamp_of_not_positive hbounds hrect]
    exact placed_hasRatio hr (.inl (fallback_hasRatio bounds hr))

end Rectangle

/-- The rectangle that is returned has a size, lies inside the bounds and is returned again; one
like that is left as it is, and the others come back at the ratio, if there is one. -/
theorem crop_stays_legal (rect bounds : Rect) (ratio : Option ℚ) (hbounds : bounds.Positive) :
    let crop := clampRectToBounds rect bounds ratio
    crop.Positive ∧ crop.Inside bounds ∧ clampRectToBounds crop bounds ratio = crop ∧
    (rect.Positive → rect.Inside bounds → crop = rect) ∧
    ∀ r > 0, ratio = some r → rect.HasRatio r ∨ ¬rect.Positive ∨ rect.Exceeds bounds →
      crop.HasRatio r := by
  intro crop
  obtain ⟨source, hsource, hplaced⟩ := exists_placed rect ratio hbounds
  have hcrop : crop = placed source bounds ratio := hplaced
  have hpositive : crop.Positive := by
    rw [hcrop]
    exact placed_positive hbounds hsource
  have hinside : crop.Inside bounds := by
    rw [hcrop]
    exact placed_inside hbounds
  refine ⟨hpositive, hinside, clamp_eq_self hbounds hpositive hinside, ?_, ?_⟩
  · exact clamp_eq_self hbounds
  · rintro r hr rfl h
    exact clamp_hasRatio hbounds hr h

def plainBounds : Rect := ⟨0, 0, 100, 50⟩

/-- A rectangle without a size, and a square that sticks out. -/
theorem crop_stays_legal_square :
    (clampRectToBounds ⟨-3, 7, 0, 0⟩ plainBounds (some 1)).HasRatio 1 ∧
      (clampRectToBounds ⟨80, -5, 60, 60⟩ plainBounds (some 1)).Inside plainBounds := by
  have hbounds : plainBounds.Positive := by decide
  have hempty : ¬(⟨-3, 7, 0, 0⟩ : Rect).Positive := by decide
  exact ⟨(crop_stays_legal ⟨-3, 7, 0, 0⟩ plainBounds (some 1) hbounds).2.2.2.2 1 one_pos rfl
    (.inr (.inl hempty)), (crop_stays_legal ⟨80, -5, 60, 60⟩ plainBounds (some 1) hbounds).2.1⟩

end Thcdb.Frontend
