import MarkupScene.Proofs.ImportedBodies
import MarkupScene.Proofs.NumberOrder

/-!
# Slice insets

A grid cuts a texture into nine slices, and its insets are the sides of the outer ones. Along each axis
they are the same expressions in single precision and in fractions. The main statement is when they
leave room for a middle slice: each inset is held at zero for itself, so that both fit into a side of
the texture just when the grid is not turned around and reaches the texture.
-/
namespace MarkupScene

open Numeric Floating

/-- The distances of a part of a side from both ends, none below zero, with numbers of any kind. -/
def endInsets {α : Type} [OfNat α 0] [Add α] [Sub α] (greater : α → α → α)
    (start extent side : α) : α × α :=
  (greater start 0, greater (side - (start + extent)) 0)

/-- What the distances of a part from the ends of a side make of the side. -/
structure Borders (start extent side : ℚ) (ends : ℚ × ℚ) : Prop where
  nonneg : 0 ≤ ends.1 ∧ 0 ≤ ends.2
  fit : ends.1 + ends.2 ≤ side ↔ 0 ≤ extent ∧ start ≤ side ∧ 0 ≤ start + extent
  fill : 0 ≤ start → start + extent ≤ side → ends.1 + extent + ends.2 = side

theorem endInsets_borders {start extent side : ℚ} (hside : 0 ≤ side) :
    Borders start extent side (endInsets Max.max start extent side) where
  nonneg := ⟨le_max_right _ _, le_max_right _ _⟩
  fit := by
    have hstart := le_max_left start 0
    have hzero := le_max_right start 0
    have hrest := le_max_left (side - (start + extent)) 0
    have hnone := le_max_right (side - (start + extent)) 0
    constructor
    · intro h
      simp only [endInsets] at h
      exact ⟨by linarith, by linarith, by linarith⟩
    · rintro ⟨hextent, hstarts, hends⟩
      -- Each of the two distances is one of its two candidates, and each pair of them fits.
      simp only [endInsets]
      rcases max_choice start 0 with hfirst | hfirst <;>
        rcases max_choice (side - (start + extent)) 0 with hlast | hlast <;>
        rw [hfirst, hlast] <;> linarith
  fill := by
    intro hstarts hends
    simp only [endInsets]
    rw [max_eq_left hstarts, max_eq_left (by linarith)]
    ring

theorem Numeric.single_scale : Format.single.scale = 2 ^ 149 := by decide +kernel

theorem Numeric.Floating.representable_whole {n : ℤ} (h : n.natAbs < 2 ^ 24) :
    Representable .single n := by
  have hk : n.natAbs < 2 * 2 ^ Format.single.fraction := h
  have hshift : 149 + 3 ≤ 2 ^ Format.single.exponent := by decide
  obtain ⟨rank, hrank, hunits⟩ := Format.exists_units_eq hk hshift
  refine ⟨signed (decide (n < 0)) ⟨rank, by omega⟩,
    value?_eq_some_iff.2 ⟨_, _, parts_signed hrank, ?_⟩⟩
  rw [hunits, ← single_scale, valueOf, Nat.cast_mul,
    mul_div_cancel_right₀ _ (scale_cast_pos _).ne', Nat.cast_natAbs]
  by_cases hneg : n < 0
  · simp [sign, hneg, abs_of_neg]
  · simp [sign, hneg, abs_of_nonneg (Int.not_lt.1 hneg)]

namespace Rect

def start (r : Rect) : Axis → Single
  | .horizontal => r.x
  | .vertical => r.y

def extent (r : Rect) : Axis → Single
  | .horizontal => r.width
  | .vertical => r.height

end Rect

def Insets.ends (i : Insets) : Axis → Single × Single
  | .horizontal => (i.left, i.right)
  | .vertical => (i.top, i.bottom)

namespace Rect

variable {grid : Rect} {texture : Size} {axis : Axis}

theorem insetsWithin_ends (grid : Rect) (texture : Size) (axis : Axis) :
    (grid.insetsWithin texture).ends axis =
      endInsets Floating.max (grid.start axis) (grid.extent axis) (texture.along axis) := by
  cases axis <;> rfl

/-- The insets at both ends of an axis in exact arithmetic. -/
def exactEnds (grid : Rect) (texture : Size) (axis : Axis) : ℚ × ℚ :=
  endInsets Max.max (grid.start axis).value (grid.extent axis).value (texture.along axis).value

/-- No step of the calculation along an axis is rounded. -/
structure Unrounded (grid : Rect) (texture : Size) (axis : Axis) : Prop where
  finish : Representable .single ((grid.start axis).value + (grid.extent axis).value)
  rest : Representable .single
    ((texture.along axis).value - ((grid.start axis).value + (grid.extent axis).value))

theorem unrounded_of_whole {start extent side : ℤ} (hstart : (grid.start axis).value = start)
    (hextent : (grid.extent axis).value = extent) (hside : (texture.along axis).value = side)
    (hmoderate : ∀ n ∈ [start, extent, side], n.natAbs < 2 ^ 22) : Unrounded grid texture axis := by
  simp only [List.forall_mem_cons, List.not_mem_nil, false_imp_iff, implies_true, and_true]
    at hmoderate
  obtain ⟨hstart', hextent', hside'⟩ := hmoderate
  refine ⟨?_, ?_⟩
  · rw [hstart, hextent, ← Int.cast_add]
    exact representable_whole (by omega)
  · rw [hstart, hextent, hside, ← Int.cast_add, ← Int.cast_sub]
    exact representable_whole (by omega)

theorem Unrounded.ends_eq (h : Unrounded grid texture axis)
    (hstart : (grid.start axis).isFinite = true) (hextent : (grid.extent axis).isFinite = true)
    (hside : (texture.along axis).isFinite = true) :
    ((grid.insetsWithin texture).ends axis).1.value? = some (grid.exactEnds texture axis).1 ∧
      ((grid.insetsWithin texture).ends axis).2.value? =
        some (grid.exactEnds texture axis).2 := by
  have hfinish := value?_add (value?_of_isFinite hstart) (value?_of_isFinite hextent) h.finish
  rw [insetsWithin_ends]
  exact ⟨value?_max_zero (value?_of_isFinite hstart),
    value?_max_zero (value?_sub (value?_of_isFinite hside) hfinish h.rest)⟩

/-- The insets of a grid of finite numbers within a texture, along each axis. In exact arithmetic none
is below zero, and both fit into the side of the texture just when the grid is not turned around and
neither starts beyond the side nor ends before it. Inside the texture they fill the side together with
the grid. The insets themselves are never below zero, and are the exact ones where nothing is
rounded. -/
theorem insets_border (hgrid : ∀ axis, (grid.start axis).isFinite = true ∧
      (grid.extent axis).isFinite = true)
    (htexture : ∀ axis, ∃ side, (texture.along axis).value? = some side ∧ 0 ≤ side) (axis : Axis) :
    Borders (grid.start axis).value (grid.extent axis).value (texture.along axis).value
      (grid.exactEnds texture axis) ∧
    ((0 : Single).atMost ((grid.insetsWithin texture).ends axis).1 = true ∧
      (0 : Single).atMost ((grid.insetsWithin texture).ends axis).2 = true) ∧
    (Unrounded grid texture axis →
      ((grid.insetsWithin texture).ends axis).1.value? = some (grid.exactEnds texture axis).1 ∧
        ((grid.insetsWithin texture).ends axis).2.value? =
          some (grid.exactEnds texture axis).2) := by
  obtain ⟨side, hside, hnonneg⟩ := htexture axis
  refine ⟨endInsets_borders ?_, ?_, fun hexact => ?_⟩
  · rwa [value_of_value? hside]
  · rw [insetsWithin_ends]
    exact ⟨zero_atMost_max _, zero_atMost_max _⟩
  · exact hexact.ends_eq (hgrid axis).1 (hgrid axis).2 (isFinite_of_value? hside)

/-- A grid inside a texture of 20 by 20 points. -/
def inner : Rect := ⟨4, 4, 10, 12⟩

theorem inner_border :
    let texture : Size := ⟨20, 20⟩
    parse? "4,4,10,12" = some inner ∧
      (∀ axis, (inner.start axis).isFinite = true ∧ (inner.extent axis).isFinite = true) ∧
      (∀ axis, ∃ side, (texture.along axis).value? = some side ∧ 0 ≤ side) ∧
      (inner.exactEnds texture .horizontal).1 + 10 + (inner.exactEnds texture .horizontal).2 = 20 ∧
      (inner.insetsWithin texture).left.value? = some (inner.exactEnds texture .horizontal).1 := by
  intro texture
  have hside : (20 : Single).value? = some 20 := by decide +kernel
  have hstart : (inner.start .horizontal).value = (4 : ℤ) :=
    value_of_value? (show (4 : Single).value? = some 4 by decide +kernel)
  have hextent : (inner.extent .horizontal).value = (10 : ℤ) :=
    value_of_value? (show (10 : Single).value? = some 10 by decide +kernel)
  have hlength : (texture.along .horizontal).value = (20 : ℤ) := value_of_value? hside
  have hgrid : ∀ axis, (inner.start axis).isFinite = true ∧ (inner.extent axis).isFinite = true := by
    rintro ⟨⟩ <;> decide +kernel
  have htexture : ∀ axis, ∃ side, (texture.along axis).value? = some side ∧ 0 ≤ side := by
    rintro ⟨⟩ <;> exact ⟨20, hside, by norm_num⟩
  obtain ⟨hborders, -, hexact⟩ := insets_border hgrid htexture .horizontal
  have hfill := hborders.fill
  rw [hstart, hextent, hlength] at hfill
  refine ⟨by decide +kernel, hgrid, htexture, hfill (by norm_num) (by norm_num), ?_⟩
  exact (hexact (unrounded_of_whole hstart hextent hlength (by decide))).1

/-- A grid beside a texture of 64 by 64 points. -/
def beside : Rect := ⟨100, 0, 10, 10⟩

/-- The grid starts beyond the side of the texture, and so does the inset. -/
theorem beside_exceeds :
    let texture : Size := ⟨64, 64⟩
    parse? "100,0,10,10" = some beside ∧
      (∀ axis, (beside.start axis).isFinite = true ∧ (beside.extent axis).isFinite = true) ∧
      (∀ axis, ∃ side, (texture.along axis).value? = some side ∧ 0 ≤ side) ∧
      (beside.insetsWithin texture).left = 100 ∧ (beside.insetsWithin texture).right = 0 ∧
      ¬(beside.exactEnds texture .horizontal).1 + (beside.exactEnds texture .horizontal).2 ≤
        (texture.along .horizontal).value := by
  intro texture
  have hside : (64 : Single).value? = some 64 := by decide +kernel
  have hstart : (beside.start .horizontal).value = 100 :=
    value_of_value? (show (100 : Single).value? = some 100 by decide +kernel)
  have hlength : (texture.along .horizontal).value = 64 := value_of_value? hside
  refine ⟨by decide +kernel, ?_, ?_, by decide +kernel, by decide +kernel, fun hfit => ?_⟩
  · rintro ⟨⟩ <;> decide +kernel
  · rintro ⟨⟩ <;> exact ⟨64, hside, by norm_num⟩
  · have hborders : Borders _ _ _ (beside.exactEnds texture .horizontal) :=
      endInsets_borders (by rw [hlength]; norm_num)
    have hreach := (hborders.fit.1 hfit).2.1
    rw [hstart, hlength] at hreach
    exact absurd hreach (by norm_num)

end Rect

end MarkupScene
