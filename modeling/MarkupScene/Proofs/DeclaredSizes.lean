import MarkupScene.Proofs.FilledAttributes
import MarkupScene.Proofs.RefusedRenderers
import MarkupScene.Proofs.RepeatedImports

/-!
# Declared sizes

Layout finds a side of a node when the first attribute for it that is filled in starts with a number.
Importers take every text that is filled in for a declaration. The main statement is that the two
judge alike but for vague elements, which have something filled in for a side and no number at the
start of the texts that decide, and that images and labels go by what importers see.
-/
namespace MarkupScene

open Numeric Text

namespace Numeric.Decimal

/-- A text that starts with a digit, or with a point and a digit. -/
inductive StartsDigits : List Char → Prop where
  | digit {c : Char} {rest : List Char} (h : c.isDigit = true) : StartsDigits (c :: rest)
  | point {c : Char} {rest : List Char} (h : c.isDigit = true) : StartsDigits ('.' :: c :: rest)

/-- A text that starts with a number, which may have a sign. -/
inductive StartsNumber : List Char → Prop where
  | unsigned {s : List Char} (h : StartsDigits s) : StartsNumber s
  | signed {sign : Char} {s : List Char} (hsign : sign = '+' ∨ sign = '-') (h : StartsDigits s) :
      StartsNumber (sign :: s)

theorem not_startsDigits_sign {sign : Char} (hsign : sign = '+' ∨ sign = '-') (s : List Char) :
    ¬StartsDigits (sign :: s) := by
  intro h
  cases h with
  | digit h => rcases hsign with rfl | rfl <;> exact absurd h (by decide)
  | point => rcases hsign with h | h <;> exact absurd h (by decide)

theorem startsNumber_iff (s : List Char) : StartsNumber s ↔ StartsDigits (scanSign s).2 := by
  have hsigned : ∀ {sign : Char} (rest : List Char), sign = '+' ∨ sign = '-' →
      (StartsNumber (sign :: rest) ↔ StartsDigits rest) := by
    intro sign rest hsign
    refine ⟨fun h => ?_, .signed hsign⟩
    cases h with
    | unsigned h => exact absurd h (not_startsDigits_sign hsign rest)
    | signed _ h => exact h
  unfold scanSign
  split
  · next rest => exact hsigned rest (.inr rfl)
  · next rest => exact hsigned rest (.inl rfl)
  · next hminus hplus =>
    refine ⟨fun h => ?_, .unsigned⟩
    cases h with
    | unsigned h => exact h
    | @signed sign rest hsign _ =>
      rcases hsign with rfl | rfl
      · exact absurd rfl (hplus rest)
      · exact absurd rfl (hminus rest)

theorem startsDigits_iff (s : List Char) :
    StartsDigits s ↔ (takeDigits s).1 ≠ [] ∨ (scanFraction (takeDigits s).2).1 ≠ [] := by
  cases s with
  | nil => exact iff_of_false (fun h => by cases h) (by simp [takeDigits, scanFraction])
  | cons c rest =>
    by_cases hc : c.isDigit = true
    · exact iff_of_true (.digit hc) (.inl (by simp [takeDigits, hc]))
    · have htake : takeDigits (c :: rest) = ([], c :: rest) := by simp [takeDigits, hc]
      rw [htake]
      by_cases hpoint : c = '.'
      · subst hpoint
        cases rest with
        | nil =>
          refine iff_of_false (fun h => ?_) (by simp [takeDigits, scanFraction])
          cases h with
          | digit h => exact hc h
        | cons d rest =>
          by_cases hd : d.isDigit = true
          · exact iff_of_true (.point hd) (.inr (by simp [takeDigits, scanFraction, hd]))
          · refine iff_of_false (fun h => ?_) (by simp [takeDigits, scanFraction, hd])
            cases h with
            | digit h => exact hc h
            | point h => exact hd h
      · refine iff_of_false (fun h => ?_) ?_
        · cases h with
          | digit h => exact hc h
          | point => exact hpoint rfl
        · have hnone : scanFraction (c :: rest) = ([], c :: rest) := by
            unfold scanFraction
            split
            · next h => exact absurd (List.cons.inj h).1 hpoint
            · rfl
          simp [hnone]

theorem scan?_isSome_iff (s : List Char) : (scan? s).isSome = true ↔ StartsNumber s := by
  rw [startsNumber_iff, startsDigits_iff, scan?]
  dsimp only
  split
  · next h =>
    simp only [Bool.and_eq_true, List.isEmpty_iff] at h
    simp [h.1, h.2]
  · next h =>
    simp only [Bool.and_eq_true, List.isEmpty_iff, not_and_or] at h
    simpa using h

end Numeric.Decimal

open Numeric.Decimal

theorem Length.parse?_isSome_iff (s : String) :
    (Length.parse? s).isSome = true ↔ StartsNumber (trimChars s.toList) := by
  rw [← scan?_isSome_iff, Length.parse?, Floating.leading?, Option.isSome_map, Option.isSome_map]

namespace Element

/-- The sides of an element, each by the attributes that can give it. -/
def sides : List (List String) := [widthNames, heightNames]

/-- The first of several attributes that is filled in has a text. -/
structure Decides (e : Element) (names : List String) (text : String) : Prop where
  text_ne : text ≠ ""
  first : ∃ before name after, names = before ++ name :: after ∧ e.attribute? name = some text ∧
    ∀ other ∈ before, e.attribute? other = none ∨ e.attribute? other = some ""

/-- The text that decides about a side starts with a number. -/
def Measures (e : Element) (names : List String) : Prop :=
  ∃ text, e.Decides names text ∧ StartsNumber (trimChars text.toList)

/-- A side is filled in, and no text that decides about a side starts with a number. -/
structure Vague (e : Element) : Prop where
  filled : ∃ names ∈ sides, ∃ text, e.Decides names text
  unmeasured : ∀ names ∈ sides, ¬e.Measures names

variable {e : Element} {names : List String} {text : String}

theorem filled?_eq_some_iff {name : String} :
    e.filled? name = some text ↔ e.attribute? name = some text ∧ text ≠ "" := by
  rw [filled?, Option.filter_eq_some_iff]
  simp

theorem filled?_eq_none_iff {name : String} :
    e.filled? name = none ↔ e.attribute? name = none ∨ e.attribute? name = some "" := by
  rw [filled?]
  cases e.attribute? name with
  | none => simp
  | some value => simp [Option.filter]

theorem firstFilled?_eq_some_iff : e.firstFilled? names = some text ↔ e.Decides names text := by
  rw [firstFilled?, List.findSome?_eq_some_iff]
  constructor
  · rintro ⟨before, name, after, hnames, hname, hbefore⟩
    obtain ⟨hname, htext⟩ := filled?_eq_some_iff.1 hname
    exact ⟨htext, before, name, after, hnames, hname,
      fun other hother => filled?_eq_none_iff.1 (hbefore other hother)⟩
  · rintro ⟨htext, before, name, after, hnames, hname, hbefore⟩
    exact ⟨before, name, after, hnames, filled?_eq_some_iff.2 ⟨hname, htext⟩,
      fun other hother => filled?_eq_none_iff.2 (hbefore other hother)⟩

theorem firstFilled?_isSome_iff :
    (e.firstFilled? names).isSome = true ↔ ∃ text, e.Decides names text := by
  simp only [Option.isSome_iff_exists, firstFilled?_eq_some_iff]

theorem declaresSize_iff :
    e.declaresSize = true ↔ ∃ names ∈ sides, ∃ text, e.Decides names text := by
  simp [declaresSize, sides, firstFilled?_isSome_iff]

/-- The length that layout reads for a side is there when the text that decides starts with a
number. -/
theorem measures_iff :
    ((e.firstFilled? names).bind Length.parse?).isSome = true ↔ e.Measures names := by
  rw [Measures, Option.isSome_iff_exists]
  constructor
  · rintro ⟨length, hlength⟩
    obtain ⟨text, htext, hlength⟩ := Option.bind_eq_some_iff.1 hlength
    exact ⟨text, firstFilled?_eq_some_iff.1 htext,
      (Length.parse?_isSome_iff text).1 (Option.isSome_of_eq_some hlength)⟩
  · rintro ⟨text, htext, hnumber⟩
    obtain ⟨length, hlength⟩ :=
      Option.isSome_iff_exists.1 ((Length.parse?_isSome_iff text).2 hnumber)
    exact ⟨length, by rw [firstFilled?_eq_some_iff.2 htext]; exact hlength⟩

end Element

/-- A width or a height is found. -/
def Placement.Sized (p : Placement) : Prop := p.width.isSome = true ∨ p.height.isSome = true

instance (p : Placement) : Decidable p.Sized :=
  inferInstanceAs (Decidable (p.width.isSome = true ∨ p.height.isSome = true))

theorem Element.sized_iff {e : Element} :
    (Placement.ofElement e).Sized ↔ ∃ names ∈ sides, e.Measures names := by
  simp [Placement.Sized, Placement.ofElement, sides, measures_iff]

theorem Element.declaresSize_iff_sized {e : Element} :
    e.declaresSize = true ↔ (Placement.ofElement e).Sized ∨ e.Vague := by
  rw [declaresSize_iff, sized_iff]
  constructor
  · intro hfilled
    by_cases hmeasured : ∃ names ∈ sides, e.Measures names
    · exact .inl hmeasured
    · exact .inr ⟨hfilled, fun names hnames h => hmeasured ⟨names, hnames, h⟩⟩
  · rintro (⟨names, hnames, text, htext, -⟩ | hvague)
    · exact ⟨names, hnames, text, htext⟩
    · exact hvague.filled

namespace Widget
variable {ω : Type} {n : Node}

open Importing

/-- A custom size of the sprite stands for a declaration. -/
theorem image_sizeMode (scope : ImportScope ω) (e : Element) (hn : ¬n.Refuses .sprite) :
    (image scope e n).Makes fun made => ∃ sprite, made.sprite? = some sprite ∧
      (sprite.sizeMode = .custom ↔ e.declaresSize = true) := by
  have hattach : ∀ (size : Size) (s : Sprite), (s.sizeMode = .custom ↔ e.declaresSize = true) →
      (scope.attach { n with size } (.sprite s)).Makes fun made =>
        ∃ sprite, made.sprite? = some sprite ∧
          (sprite.sizeMode = .custom ↔ e.declaresSize = true) := by
    intro size s hs
    refine (Makes.attached_eq scope _ _).imp fun made hmade => ⟨s, ?_, hs⟩
    rw [hmade]
    exact (Node.sprite?_attached _ _).resolve_right
      fun h => hn ⟨h.1.renderer, h.1.absent, h.1.present⟩
  unfold image
  refine .last fun sprite => ?_
  dsimp only
  split
  · next hdeclared => exact .last fun _ => .last fun _ => hattach _ _ (by simp [hdeclared])
  · next hdeclared => exact .last fun _ => .last fun _ => hattach _ _ (by simp [hdeclared])

theorem attach_overflow (scope : ImportScope ω) {e : Element} (hn : ¬n.Refuses .label) {l : Label}
    (hl : l.overflow = if e.declaresSize then .clamp else .none) :
    (scope.attach n (.label l)).Makes fun made => ∃ label, made.label? = some label ∧
      (label.overflow = .clamp ↔ e.declaresSize = true) := by
  refine (Makes.attached_eq scope _ _).imp fun made hmade => ⟨l, ?_, ?_⟩
  · rw [hmade]
    exact (n.label?_attached l).resolve_right fun h => hn h.1
  · rw [hl]
    cases e.declaresSize <;> simp

theorem bitmapLabel_overflow (scope : ImportScope ω) (e : Element) (hn : ¬n.Refuses .label) :
    (bitmapLabel scope e n).Makes fun made => ∃ label, made.label? = some label ∧
      (label.overflow = .clamp ↔ e.declaresSize = true) := by
  unfold bitmapLabel
  refine .last fun found => ?_
  cases found with
  | none => exact attach_overflow scope hn rfl
  | some font =>
    refine .bind (q := fun l => l.overflow = if e.declaresSize then .clamp else .none) ?_
      fun l hl => attach_overflow scope hn hl
    refine .last fun metrics => ?_
    cases metrics with
    | ok metrics => exact .pure rfl
    | error failure => exact .pure rfl

theorem labels_overflow {widget : String} (hwidget : widget ∈ labels) (scope : ImportScope ω)
    (e : Element) (hn : ¬n.Refuses .label) :
    (Registry.builtIn.importAs widget scope e n).Makes fun made =>
      ∃ label, made.label? = some label ∧
        (label.overflow = .clamp ↔ e.declaresSize = true) := by
  simp only [labels, List.mem_cons, List.not_mem_nil, or_false] at hwidget
  rcases hwidget with rfl | rfl | rfl
  · exact attach_overflow scope hn rfl
  · exact attach_overflow scope hn rfl
  · exact bitmapLabel_overflow scope e hn

end Widget

/-- Importers see a size where layout finds a width or a height, and in vague elements, where it finds
neither. The sprite of an image has a custom size and the text of a label is cut off exactly in both
cases, as long as the node takes them. -/
theorem sizes_judged (e : Element) :
    (e.declaresSize = true ↔ (Placement.ofElement e).Sized ∨ e.Vague) ∧
    ¬((Placement.ofElement e).Sized ∧ e.Vague) ∧
    ∀ {ω : Type} (scope : ImportScope ω) (n : Node) (s : Surroundings ω),
      (¬n.Refuses .sprite →
        ∃ sprite, (Registry.builtIn.importAs "Image" scope e n s).1.sprite? = some sprite ∧
          (sprite.sizeMode = .custom ↔ (Placement.ofElement e).Sized ∨ e.Vague)) ∧
      (¬n.Refuses .label → ∀ widget ∈ Widget.labels,
        ∃ label, (Registry.builtIn.importAs widget scope e n s).1.label? = some label ∧
          (label.overflow = .clamp ↔ (Placement.ofElement e).Sized ∨ e.Vague)) := by
  refine ⟨Element.declaresSize_iff_sized, ?_, fun scope n s => ⟨fun hn => ?_, fun hn widget hw => ?_⟩⟩
  · rintro ⟨hsized, hvague⟩
    obtain ⟨names, hnames, hmeasured⟩ := Element.sized_iff.1 hsized
    exact hvague.unmeasured names hnames hmeasured
  · rw [← Element.declaresSize_iff_sized]
    exact Widget.image_sizeMode scope e hn s
  · rw [← Element.declaresSize_iff_sized]
    exact Widget.labels_overflow hw scope e hn s

/-- An image whose width is a number and whose height is none. -/
def halfWide : Element where
  localName := "Image"
  attributes := [("source", "a"), ("width", "50%"), ("height", "auto")]

theorem halfWide_judged :
    let n : Node := { name := "n" }
    let s : Surroundings World := { world := {} }
    ¬n.Refuses .sprite ∧ ¬n.Refuses .label ∧ (Placement.ofElement halfWide).Sized ∧
      ∃ sprite, (Registry.builtIn.importAs "Image" gallery halfWide n s).1.sprite? = some sprite ∧
        sprite.sizeMode = .custom := by
  intro n s
  have hfree : ∀ kind, ¬n.Refuses kind := fun kind h => by
    obtain ⟨b, hb, -⟩ := h.present
    exact absurd hb List.not_mem_nil
  have hsized : (Placement.ofElement halfWide).Sized := by decide +kernel
  obtain ⟨sprite, hsprite, hcustom⟩ := ((sizes_judged halfWide).2.2 gallery n s).1 (hfree .sprite)
  exact ⟨hfree .sprite, hfree .label, hsized, sprite, hsprite, hcustom.2 (.inl hsized)⟩

/-- An image with a text that is no number for its only size. -/
def autoWide : Element where
  localName := "Image"
  attributes := [("source", "a"), ("width", "auto")]

/-- Importers take any text for a size, where layout finds none. The image keeps the empty size of its
node and not the one of its picture, and a label is cut off. -/
theorem autoWide_misjudged :
    let n : Node := { name := "n" }
    let s : Surroundings World := { world := {} }
    let image := (Registry.builtIn.importAs "Image" gallery autoWide n s).1
    let label := (Registry.builtIn.importAs "Label" gallery autoWide n s).1
    autoWide.declaresSize = true ∧ ¬(Placement.ofElement autoWide).Sized ∧
      image.sprite?.map (·.sizeMode) = some .custom ∧ image.size = n.size ∧
      (gallery.locator.textureSize ⟨"a.png", none⟩ s.world).1 = some ⟨64, 32⟩ ∧
      label.label?.map (·.overflow) = some .clamp := by
  decide +kernel

end MarkupScene
