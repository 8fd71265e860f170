import MarkupScene.Proofs.NumberOrder
import MarkupScene.Proofs.RefusedRenderers
import MarkupScene.Proofs.RepeatedImports

/-!
# Progress ranges

The progress of a bar is its rounded value as a part of its maximum, held between zero and one, and
the thumb shows it from its near end or, backwards, from its far end. The main statement is that the
progress lies between zero and one, that what the thumb shows stays between its ends, and that a
greater value is never a smaller progress. An infinite value of an infinite maximum is the exception:
it has no progress.
-/
namespace MarkupScene

open Numeric Floating

theorem Numeric.Decimal.toFloating_ne_nan {f : Format} (d : Decimal) :
    (d.toFloating : Floating f) ≠ nan := by
  unfold Decimal.toFloating
  dsimp only
  split_ifs
  · exact nofun
  · exact nofun
  · split <;> exact nofun

theorem Element.singleOr_ne_nan (e : Element) (name : String) {default : Single}
    (h : default ≠ nan) : e.singleOr name default ≠ nan := by
  unfold singleOr
  cases hnumber : e.single? name with
  | none => exact h
  | some number =>
    obtain ⟨text, -, htext⟩ := Option.bind_eq_some_iff.1 hnumber
    obtain ⟨⟨d, rest⟩, -, rfl⟩ := Option.map_eq_some_iff.1 htext
    exact d.toFloating_ne_nan

namespace Widget

variable {value value' maximum p : Single}

/-- An infinite value of an infinite maximum. -/
def Endless (value maximum : Single) : Prop :=
  value.isFinite = false ∧ maximum = infinity false

instance (value maximum : Single) : Decidable (Endless value maximum) :=
  inferInstanceAs (Decidable (_ ∧ _))

theorem maximum_cases (hpos : (0 : Single).lt maximum = true) :
    maximum.isFinite = true ∨ maximum = infinity false := by
  cases hfinite : maximum.isFinite with
  | true => exact .inl rfl
  | false =>
    have hnumber : maximum ≠ nan := by
      rintro rfl
      cases hpos
    obtain ⟨s, rfl⟩ := eq_infinity hnumber hfinite
    cases s with
    | false => exact .inr rfl
    | true => exact absurd hpos (by decide +kernel)

/-- The quotient that is held between zero and one is a number but for endless progress. -/
theorem quotient_eq_nan_iff (hvalue : value ≠ nan) (hpos : (0 : Single).lt maximum = true) :
    value.round / maximum = nan ↔ Endless value maximum := by
  obtain hfinite | rfl := maximum_cases hpos
  · refine iff_of_false (div_ne_nan (round_ne_nan hvalue) hfinite hpos) ?_
    rintro ⟨-, rfl⟩
    exact absurd hfinite (by decide +kernel)
  · cases hfinite : value.isFinite with
    | true =>
      have hkey := key?_div_infinity (round_isFinite hfinite) false
      refine iff_of_false (fun hnan => ?_) fun h => ?_
      · rw [hnan] at hkey
        cases hkey
      · rw [h.1] at hfinite
        cases hfinite
    | false =>
      refine iff_of_true ?_ ⟨hfinite, rfl⟩
      obtain ⟨s, rfl⟩ := eq_infinity hvalue hfinite
      cases s <;> decide +kernel

theorem quotient_atMost (h : value.atMost value' = true) (hpos : (0 : Single).lt maximum = true)
    (hvalue : ¬Endless value maximum) (hvalue' : ¬Endless value' maximum) :
    (value.round / maximum).atMost (value'.round / maximum) = true := by
  obtain hfinite | rfl := maximum_cases hpos
  · obtain ⟨m, hm, hparts⟩ := parts_of_pos hfinite hpos
    exact (div_keepsOrder hm hparts).atMost (round_keepsOrder.atMost h)
  · have hzero : ∀ {x : Single}, ¬Endless x (infinity false) →
        (x.round / infinity false).key? = some 0 := fun hx => by
      refine key?_div_infinity (round_isFinite ?_) false
      by_contra hinfinite
      exact hx ⟨Bool.eq_false_iff.2 hinfinite, rfl⟩
    exact atMost_iff.2 ⟨_, _, hzero hvalue, hzero hvalue', le_rfl⟩

theorem progressOf_eq_nan_iff (hvalue : value ≠ nan) :
    progressOf value maximum = nan ↔ Endless value maximum := by
  unfold progressOf
  split
  · next hpos =>
    rw [← quotient_eq_nan_iff hvalue hpos]
    cases hquotient : value.round / maximum with
    | nan => exact iff_of_true (by decide +kernel) rfl
    | signed s rank =>
      have hkey := key?_clamp (x := signed s rank) rfl
      refine iff_of_false (fun hnan => ?_) nofun
      rw [hnan] at hkey
      cases hkey
  · next hpos =>
    refine iff_of_false (by decide +kernel) ?_
    rintro ⟨-, rfl⟩
    exact hpos (by decide +kernel)

theorem progressOf_between (hvalue : value ≠ nan) (h : ¬Endless value maximum) :
    (0 : Single).atMost (progressOf value maximum) = true ∧
      (progressOf value maximum).atMost 1 = true := by
  unfold progressOf
  split
  · next hpos =>
    cases hquotient : value.round / maximum with
    | nan => exact absurd ((quotient_eq_nan_iff hvalue hpos).1 hquotient) h
    | signed s rank =>
      have hkey := key?_clamp (x := signed s rank) rfl
      have hzero : (0 : Single).key? = some 0 := by decide +kernel
      have hone : (1 : Single).key? = some oneKey := by decide +kernel
      have hpositive : (0 : Int) ≤ oneKey := by decide
      exact ⟨atMost_iff.2 ⟨_, _, hzero, hkey, le_min (le_max_right _ _) hpositive⟩,
        atMost_iff.2 ⟨_, _, hkey, hone, min_le_right _ _⟩⟩
  · exact ⟨by decide +kernel, by decide +kernel⟩

theorem progressOf_atMost (h : value.atMost value' = true) (hvalue : ¬Endless value maximum)
    (hvalue' : ¬Endless value' maximum) :
    (progressOf value maximum).atMost (progressOf value' maximum) = true := by
  unfold progressOf
  split
  · next hpos => exact clamp_atMost (quotient_atMost h hpos hvalue hvalue')
  · decide +kernel

end Widget

/-- What a fill covers lies between the ends of its sprite. -/
def Fill.Inside (fill : Fill) : Prop :=
  ∃ start range : ℚ, fill.start.value? = some start ∧ fill.range.value? = some range ∧
    0 ≤ start + min range 0 ∧ start + max range 0 ≤ 1

namespace Widget

theorem exists_share (hlow : (0 : Single).atMost p = true) (hhigh : p.atMost 1 = true) :
    ∃ share : ℚ, p.value? = some share ∧ 0 ≤ share ∧ share ≤ 1 := by
  have hfinite := isFinite_of_between (isFinite_of_value? value?_zero)
    (isFinite_of_value? value?_one) hlow hhigh
  have hp := value?_of_isFinite hfinite
  exact ⟨p.value, hp, value_le_of_atMost hlow value?_zero hp,
    value_le_of_atMost hhigh hp value?_one⟩

theorem fillOf_inside (vertical reverse : Bool) {share : ℚ} (hp : p.value? = some share)
    (hlow : 0 ≤ share) (hhigh : share ≤ 1) : (fillOf vertical reverse p).Inside := by
  cases reverse with
  | false =>
    refine ⟨0, share, value?_zero, hp, ?_, ?_⟩
    · rw [min_eq_right hlow, zero_add]
    · rwa [max_eq_left hlow, zero_add]
  | true =>
    refine ⟨1, -share, value?_one, value?_neg hp, ?_, ?_⟩
    · rw [min_eq_left (neg_nonpos.2 hlow)]
      linarith
    · rw [max_eq_right (neg_nonpos.2 hlow), add_zero]

end Widget

namespace Node

theorem findSome?_changeFirstSprite (f : Sprite → Sprite) (bs : List Behavior) :
    (changeFirstSprite f bs).findSome? (·.sprite?) = (bs.findSome? (·.sprite?)).map f := by
  fun_induction changeFirstSprite f bs with
  | case1 => rfl
  | case2 s rest => rfl
  | case3 b rest hb ih =>
    have hnone : b.sprite? = none := by
      cases b with
      | sprite s => exact absurd rfl (hb s)
      | _ => rfl
    rw [List.findSome?_cons, List.findSome?_cons, hnone]
    exact ih

theorem sprite?_mapSprite (f : Sprite → Sprite) (n : Node) :
    (n.mapSprite f).sprite? = n.sprite?.map f :=
  findSome?_changeFirstSprite f n.behaviors

end Node

namespace Element

def progress (e : Element) : Single :=
  Widget.progressOf (e.singleOr "value" 0) (e.singleOr "maximum" 100)

/-- The value and the maximum of an element are infinite. -/
def IsEndless (e : Element) : Prop :=
  Widget.Endless (e.singleOr "value" 0) (e.singleOr "maximum" 100)

instance (e : Element) : Decidable e.IsEndless :=
  inferInstanceAs (Decidable (Widget.Endless _ _))

end Element

namespace Widget

open Importing Node

variable {ω : Type} {e : Element} {n : Node}

theorem progressBar_attaches (scope : ImportScope ω) (e : Element) (n : Node) :
    (progressBar scope e n).Makes fun made => ∃ bar,
      made.first? .progressBar = some (.progressBar bar) ∧ bar.progress = e.progress ∧
        bar.reverse = isReverse (e.textOr "direction" "ltr") := by
  rw [progressBar_eq]
  refine (Makes.attached_eq scope _ _).imp fun made hmade => ?_
  subst hmade
  obtain hfirst | ⟨hrefuses, -⟩ := (showProgress e n).first?_attached (progressView e n)
  · exact ⟨_, hfirst, rfl, rfl⟩
  · cases hrefuses.renderer

theorem progressBar_fills (scope : ImportScope ω) (e : Element) (n : Node) :
    (progressBar scope e n).Makes fun made => ∀ way thumb sprite,
      made.findNamed? "thumb" = some way → made.descendant? way = some thumb →
        thumb.sprite? = some sprite → sprite.fill = some (progressFill e) := by
  rw [progressBar_eq]
  refine (Makes.attached_eq scope _ _).imp fun made hmade way thumb sprite hway hthumb hsprite => ?_
  subst hmade
  have houtline : ((showProgress e n).attached (progressView e n)).outline = n.outline :=
    (outline_attached _ _).trans (showProgress_outline e n)
  rw [findNamed?_congr houtline] at hway
  obtain ⟨c, -, hbody⟩ := toBody_thumb e _ hway hthumb
  have hfilled : thumb.sprite? = (fillSprite (progressFill e) c).sprite? :=
    congrArg (fun body : Body => body.behaviors.findSome? Behavior.sprite?) hbody
  rw [hsprite, fillSprite, sprite?_mapSprite] at hfilled
  obtain ⟨own, -, rfl⟩ := Option.map_eq_some_iff.1 hfilled.symm
  rfl

/-- The direction runs from the far end. -/
def Backwards (e : Element) : Prop :=
  e.textOr "direction" "ltr" = "rtl" ∨ e.textOr "direction" "ltr" = "ttb"

instance (e : Element) : Decidable (Backwards e) := inferInstanceAs (Decidable (_ ∨ _))

theorem isReverse_iff : isReverse (e.textOr "direction" "ltr") = true ↔ Backwards e := by
  simp [isReverse, Backwards]

end Widget

open Widget

/-- The progress of an element is a number, and then one between zero and one, just when its value and
its maximum are not both infinite. It is attached to the bar, and the thumb shows it from its near end
or backwards from its far end and stays inside. Under the same maximum a greater value is not a smaller
progress. -/
theorem Element.progress_in_range (e : Element) :
    (e.progress = nan ↔ e.IsEndless) ∧
    (¬e.IsEndless → ∃ share : ℚ, e.progress.value? = some share ∧ 0 ≤ share ∧ share ≤ 1) ∧
    (∀ {ω : Type} (scope : ImportScope ω) (n : Node) (s : Surroundings ω),
      let made := (Registry.builtIn.importAs "ProgressBar" scope e n s).1
      (∃ bar, made.first? .progressBar = some (.progressBar bar) ∧ bar.progress = e.progress ∧
        (bar.reverse = true ↔ Backwards e)) ∧
      ∀ way thumb sprite, made.findNamed? "thumb" = some way → made.descendant? way = some thumb →
        thumb.sprite? = some sprite → ∃ fill, sprite.fill = some fill ∧
          (Backwards e → fill.start = 1 ∧ fill.range = -e.progress) ∧
          (¬Backwards e → fill.start = 0 ∧ fill.range = e.progress) ∧
          (¬e.IsEndless → fill.Inside)) ∧
    ∀ e' : Element, e'.singleOr "maximum" 100 = e.singleOr "maximum" 100 →
      (e.singleOr "value" 0).atMost (e'.singleOr "value" 0) = true →
      ¬e.IsEndless → ¬e'.IsEndless → e.progress.atMost e'.progress = true := by
  have hvalue : e.singleOr "value" 0 ≠ nan := e.singleOr_ne_nan "value" (by decide +kernel)
  have hrange : ¬e.IsEndless →
      ∃ share : ℚ, e.progress.value? = some share ∧ 0 ≤ share ∧ share ≤ 1 := by
    intro hfinite
    obtain ⟨hlow, hhigh⟩ := progressOf_between hvalue hfinite
    exact exists_share hlow hhigh
  refine ⟨progressOf_eq_nan_iff hvalue, hrange, fun scope n s => ⟨?_, ?_⟩, ?_⟩
  · obtain ⟨bar, hbar, hprogress, hreverse⟩ := progressBar_attaches scope e n s
    exact ⟨bar, hbar, hprogress, by rw [hreverse, isReverse_iff]⟩
  · intro way thumb sprite hway hthumb hsprite
    refine ⟨progressFill e, progressBar_fills scope e n s way thumb sprite hway hthumb hsprite,
      fun hback => ?_, fun hforth => ?_, fun hfinite => ?_⟩
    · have hreverse := isReverse_iff.2 hback
      simp only [progressFill, fillOf, hreverse, if_true, Element.progress, and_self]
    · have hreverse := Bool.eq_false_iff.2 fun h => hforth (isReverse_iff.1 h)
      simp only [progressFill, fillOf, hreverse, Bool.false_eq_true, if_false, Element.progress,
        and_self]
    · obtain ⟨share, hshare, hlow, hhigh⟩ := hrange hfinite
      exact fillOf_inside _ _ hshare hlow hhigh
  · intro e' hmaximum hle hfinite hfinite'
    unfold IsEndless at hfinite'
    unfold progress
    rw [hmaximum] at hfinite' ⊢
    exact progressOf_atMost hle hfinite hfinite'

/-- A bar that is filled from the right. -/
def quarterBar : Element where
  localName := "ProgressBar"
  attributes := [("value", "30"), ("maximum", "120"), ("direction", "rtl")]

def halfBar : Element where
  localName := "ProgressBar"
  attributes := [("value", "60"), ("maximum", "120")]

/-- A bar with a thumb. -/
def thumbBar : Node where
  name := "bar"
  children := [{ name := "thumb", behaviors := [.sprite {}] }]

theorem quarterBar_in_range :
    let s : Surroundings World := { world := {} }
    let made := (Registry.builtIn.importAs "ProgressBar" gallery quarterBar thumbBar s).1
    ¬quarterBar.IsEndless ∧ ¬halfBar.IsEndless ∧ Backwards quarterBar ∧
      quarterBar.progress.atMost halfBar.progress = true ∧
      ∃ thumb sprite fill, made.descendant? [0] = some thumb ∧ thumb.sprite? = some sprite ∧
        sprite.fill = some fill ∧ fill.start = 1 ∧ fill.range = -quarterBar.progress ∧
        fill.Inside := by
  intro s made
  have hquarter : ¬quarterBar.IsEndless := by decide +kernel
  have hhalf : ¬halfBar.IsEndless := by decide +kernel
  have hback : Backwards quarterBar := by decide +kernel
  obtain ⟨-, -, hbar, hmono⟩ := quarterBar.progress_in_range
  have hway : made.findNamed? "thumb" = some [0] := by decide +kernel
  have hsome : ((made.descendant? [0]).bind (·.sprite?)).isSome = true := by decide +kernel
  obtain ⟨sprite, hsprite⟩ := Option.isSome_iff_exists.1 hsome
  obtain ⟨thumb, hthumb, hsprite⟩ := Option.bind_eq_some_iff.1 hsprite
  obtain ⟨fill, hfill, hbackwards, -, hinside⟩ :=
    (hbar gallery thumbBar s).2 [0] thumb sprite hway hthumb hsprite
  exact ⟨hquarter, hhalf, hback, hmono halfBar rfl (by decide +kernel) hquarter hhalf, thumb,
    sprite, fill, hthumb, hsprite, hfill, (hbackwards hback).1, (hbackwards hback).2,
    hinside hquarter⟩

/-- A bar with numbers that no single can hold. -/
def endlessBar : Element where
  localName := "ProgressBar"
  attributes := [("value", "1e39"), ("maximum", "1e39")]

/-- The bar has a progress that is not a number, and its thumb is filled as far. -/
theorem endlessBar_out_of_range :
    let s : Surroundings World := { world := {} }
    let made := (Registry.builtIn.importAs "ProgressBar" gallery endlessBar thumbBar s).1
    made.first? .progressBar = some (.progressBar
      { mode := .filled, bar := some "thumb", totalLength := 0, progress := nan, reverse := false }) ∧
    (0 : Single).atMost nan = false ∧ nan.atMost (1 : Single) = false ∧
    ((made.descendant? [0]).bind (·.sprite?)).bind (·.fill) =
      some { direction := .horizontal, start := 0, range := nan } := by
  decide +kernel

end MarkupScene
