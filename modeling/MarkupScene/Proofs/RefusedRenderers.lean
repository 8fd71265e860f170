import MarkupScene.Asset.Catalog
import MarkupScene.Proofs.ImportedBodies
import MarkupScene.Proofs.LocatorCalls

/-!
# Refused renderers

A node with a renderer takes no renderer of another kind: the import ends with a report of the
conflict. The main statement says what is left of such an import besides reports. As a label it leaves
the node and all borders as they are. An image learns of the conflict last, and leaves the size of its
texture in the node and its border with the locator.
-/
namespace MarkupScene

variable {ω α β : Type}

def LocatorCall.border? : LocatorCall → Option (AssetRef × Rect)
  | .setBorder asset grid => some (asset, grid)
  | _ => none

/-- The borders that were asked for so far. -/
def Traced.borders (t : Traced ω) : List (AssetRef × Rect) := t.calls.filterMap (·.border?)

def ImportScope.traced (scope : ImportScope ω) : ImportScope (Traced ω) :=
  { scope with locator := scope.locator.traced }

namespace Surroundings

/-- Nothing but borders and reports was left on the way, and no report of a conflict. -/
structure Leaves (s : Surroundings (Traced ω)) (borders : List (AssetRef × Rect))
    (t : Surroundings (Traced ω)) : Prop where
  borders : t.world.borders = s.world.borders ++ borders
  reports : ∃ more, t.diagnostics = s.diagnostics ++ more ∧
    ∀ d ∈ more, d.kind ≠ .behaviorConflict

/-- A conflict was reported on the way. -/
def Conflicting (s t : Surroundings (Traced ω)) : Prop :=
  ∃ more d, t.diagnostics = s.diagnostics ++ more ∧ d ∈ more ∧ d.kind = .behaviorConflict

variable {s t u : Surroundings (Traced ω)} {borders more : List (AssetRef × Rect)}

namespace Leaves

theorem refl (s : Surroundings (Traced ω)) : s.Leaves [] s :=
  ⟨(List.append_nil _).symm, [], (List.append_nil _).symm, nofun⟩

theorem trans (h : s.Leaves borders t) (h' : t.Leaves more u) : s.Leaves (borders ++ more) u := by
  obtain ⟨reports, hreports, hnone⟩ := h.reports
  obtain ⟨others, hothers, hnone'⟩ := h'.reports
  refine ⟨by rw [h'.borders, h.borders, List.append_assoc], reports ++ others, ?_, ?_⟩
  · rw [hothers, hreports, List.append_assoc]
  · intro d hd
    rcases List.mem_append.1 hd with hd | hd
    · exact hnone d hd
    · exact hnone' d hd

theorem not_conflicting (h : s.Leaves borders t) : ¬s.Conflicting t := by
  rintro ⟨more, d, hmore, hd, hkind⟩
  obtain ⟨reports, hreports, hnone⟩ := h.reports
  rw [hreports] at hmore
  exact hnone d (List.append_cancel_left hmore ▸ hd) hkind

theorem call (c : LocatorCall) (action : StateM ω α) (s : Surroundings (Traced ω)) :
    s.Leaves c.border?.toList (ImportScope.ask (Traced.call c action) s).2 := by
  refine ⟨?_, [], (List.append_nil _).symm, nofun⟩
  change (s.world.calls ++ [c]).filterMap (·.border?) = s.world.borders ++ c.border?.toList
  rw [List.filterMap_append]
  cases hc : c.border? <;> simp [Traced.borders, hc]

end Leaves

end Surroundings

open Surroundings

/-- An action that leaves no border and reports no conflict. -/
def Importing.Inquires (m : Importing (Traced ω) α) : Prop :=
  ∀ s : Surroundings (Traced ω), s.Leaves [] (m s).2

namespace Importing.Inquires

theorem pure (a : α) : Inquires (Pure.pure a : Importing (Traced ω) α) := .refl

theorem bind {m : Importing (Traced ω) α} {f : α → Importing (Traced ω) β} (hm : Inquires m)
    (hf : ∀ a, Inquires (f a)) : Inquires (m >>= f) :=
  fun s => (hm s).trans (hf _ _)

theorem ask {c : LocatorCall} (hc : c.border? = none) (action : StateM ω α) :
    Inquires (ImportScope.ask (Traced.call c action)) := by
  intro s
  have hcall := Leaves.call c action s
  rw [hc] at hcall
  exact hcall

theorem report (scope : ImportScope (Traced ω)) {kind : DiagnosticKind}
    (hkind : kind ≠ .behaviorConflict) (message : String) :
    Inquires (scope.report kind message) := by
  intro s
  exact ⟨(List.append_nil _).symm, [⟨kind, scope.source, message⟩], rfl, by simpa using hkind⟩

theorem resolve (scope : ImportScope ω) (name : String) :
    Inquires (scope.traced.resolve name) := by
  have hfound : ∀ found : Option AssetRef, Inquires
      (if found.isNone then do
        scope.traced.report .unresolvedResource ("resource '" ++ name ++ "' not found")
        return found
      else return found) := by
    intro found
    cases found with
    | none => exact (report _ (by decide) _).bind fun _ => pure none
    | some asset => exact pure (some asset)
  unfold ImportScope.resolve
  cases name.isEmpty with
  | true => exact pure none
  | false =>
    cases scope.traced.assets.query? name with
    | none => exact (pure none).bind hfound
    | some query => exact (ask rfl _).bind hfound

end Importing.Inquires

/-- How an import of a renderer ends from surroundings: with a conflict at nodes that refuse it, and
then with a node and with borders besides reports. -/
structure EndsRefused (n : Node) (kind : Behavior.Kind) (s : Surroundings (Traced ω))
    (left : Node) (borders : List (AssetRef × Rect)) (done : Node × Surroundings (Traced ω)) :
    Prop where
  refused : s.Conflicting done.2 ↔ n.Refuses kind
  node : s.Conflicting done.2 → done.1 = left
  borders : s.Conflicting done.2 → done.2.world.borders = s.world.borders ++ borders
  reports : s.diagnostics <+: done.2.diagnostics

/-- An import that ends with attaching a renderer. -/
theorem EndsRefused.attach {n m : Node} {b : Behavior} {s t : Surroundings (Traced ω)}
    {borders : List (AssetRef × Rect)} (h : s.Leaves borders t)
    (hsame : m.behaviors = n.behaviors) (scope : ImportScope (Traced ω)) :
    EndsRefused n b.kind s m borders (scope.attach m b t) := by
  obtain ⟨reports, hreports, -⟩ := h.reports
  unfold ImportScope.attach
  cases hattach : m.attach b with
  | ok made =>
    have hnone : ¬s.Conflicting t := h.not_conflicting
    refine ⟨iff_of_false hnone fun hrefuses => ?_, fun hc => absurd hc hnone,
      fun hc => absurd hc hnone, hreports ▸ List.prefix_append _ _⟩
    have hm : m.Refuses b.kind :=
      ⟨hrefuses.renderer, hsame ▸ hrefuses.absent, hsame ▸ hrefuses.present⟩
    obtain ⟨conflict, herror⟩ := hm.attach
    rw [hattach] at herror
    cases herror
  | error conflict =>
    have hm := Node.refuses_of_attach hattach
    have hrefuses : n.Refuses b.kind :=
      ⟨hm.renderer, hsame ▸ hm.absent, hsame ▸ hm.present⟩
    let d : Diagnostic := ⟨.behaviorConflict, scope.source,
      "node '" ++ m.name ++ "' cannot add " ++ conflict.rejected.name ++ " (has " ++
        conflict.existing.name ++ ")"⟩
    have hmore : t.diagnostics ++ [d] = s.diagnostics ++ (reports ++ [d]) := by
      rw [hreports, List.append_assoc]
    refine ⟨iff_of_true ⟨reports ++ [d], d, hmore, by simp, rfl⟩ hrefuses, fun _ => rfl,
      fun _ => h.borders, ?_⟩
    exact ⟨reports ++ [d], hmore.symm⟩

namespace Widget

theorem label_endsRefused (scope : ImportScope (Traced ω)) (e : Element) (n : Node)
    (s : Surroundings (Traced ω)) : EndsRefused n .label s n [] (label scope e n s) :=
  .attach (b := .label (labelOf e n)) (.refl s) rfl scope

theorem bitmapLabel_endsRefused (scope : ImportScope ω) (e : Element) (n : Node)
    (s : Surroundings (Traced ω)) :
    EndsRefused n .label s n [] (bitmapLabel scope.traced e n s) := by
  have hresolve := Importing.Inquires.resolve scope (e.textOr "font" "") s
  unfold bitmapLabel
  rw [Importing.bind_apply]
  generalize scope.traced.resolve (e.textOr "font" "") s = found at hresolve ⊢
  obtain ⟨_ | font, t⟩ := found
  · exact .attach (b := .label (labelOf e n)) hresolve rfl _
  · have hfont : Importing.Inquires (withFont scope.traced (labelOf e n) font) := by
      refine (Importing.Inquires.ask rfl _).bind fun metrics => ?_
      cases metrics <;> exact .pure _
    exact .attach (b := .label (withFont scope.traced (labelOf e n) font t).1)
      (hresolve.trans (hfont t)) rfl _

/-- The asset that an image shows in a node without a sprite. -/
def shownAsset (scope : ImportScope ω) (e : Element) : Importing ω (Option AssetRef) :=
  match e.filled? "source" with
  | some name => scope.resolve name
  | none => pure none

/-- The size of a node with an image of an asset: that of the texture, unless the element declares
one. -/
def imageSize (scope : ImportScope ω) (e : Element) (own : Size) (asset : Option AssetRef)
    (world : ω) : Size :=
  if e.declaresSize then own
  else (asset.bind fun a => (scope.locator.textureSize a world).1).getD own

/-- The size that an image leaves in a node without a sprite. -/
def sizeLeft (scope : ImportScope ω) (e : Element) (own : Size) (s : Surroundings ω) : Size :=
  let (asset, t) := shownAsset scope e s
  imageSize scope e own asset t.world

def borderOf (asset : Option AssetRef) (grid : Option Rect) : List (AssetRef × Rect) :=
  (asset.bind fun a => grid.map (a, ·)).toList

/-- The grid that cuts the texture of an element. -/
def grid? (e : Element) : Option Rect := (e.attribute? "scale9Grid").bind Rect.parse?

/-- The borders that an image in a node without a sprite leaves with the locator. -/
def bordersLeft (scope : ImportScope ω) (e : Element) (s : Surroundings ω) :
    List (AssetRef × Rect) :=
  borderOf (shownAsset scope e s).1 (grid? e)

theorem sourcedSprite_inquires (scope : ImportScope ω) (e : Element) (n : Node) :
    Importing.Inquires (sourcedSprite scope.traced e n) := by
  unfold sourcedSprite
  cases e.filled? "source" with
  | some name => exact (Importing.Inquires.resolve scope name).bind fun _ => .pure _
  | none => exact .pure _

theorem naturalSize_inquires (scope : ImportScope ω) (sprite : Sprite) (own : Size) :
    Importing.Inquires (naturalSize scope.traced sprite own) := by
  unfold naturalSize
  cases sprite.frame with
  | some asset => exact (Importing.Inquires.ask rfl _).bind fun _ => .pure _
  | none => exact .pure own

theorem writeBorder_leaves (scope : ImportScope ω) (sprite : Sprite) (grid : Option Rect)
    (s : Surroundings (Traced ω)) :
    s.Leaves (borderOf sprite.frame grid) (writeBorder scope.traced sprite grid s).2 := by
  unfold writeBorder borderOf
  cases grid with
  | none => cases sprite.frame <;> exact .refl s
  | some grid =>
    cases sprite.frame with
    | none => exact .refl s
    | some asset => exact .call (.setBorder asset grid) _ s

theorem sourcedSprite_of_refuses (scope : ImportScope ω) (e : Element) {n : Node}
    (h : n.Refuses .sprite) :
    sourcedSprite scope e n = (fun frame => { frame }) <$> shownAsset scope e := by
  have hnone : n.sprite? = none := by
    unfold Node.sprite?
    rw [List.findSome?_eq_none_iff]
    intro a ha
    cases a with
    | sprite s => exact absurd rfl (h.absent _ ha)
    | _ => rfl
  unfold sourcedSprite shownAsset
  rw [hnone]
  cases e.filled? "source" <;> rfl

/-- An image in any node, from the sprite that it goes on from. -/
theorem image_endsRefused_of {scope : ImportScope ω} {e : Element} {n : Node}
    {s t : Surroundings (Traced ω)} {sprite : Sprite}
    (h : sourcedSprite scope.traced e n s = (sprite, t)) :
    EndsRefused n .sprite s { n with size := imageSize scope.traced e n.size sprite.frame t.world }
      (borderOf sprite.frame (grid? e)) (image scope.traced e n s) := by
  have hsourced := sourcedSprite_inquires scope e n s
  unfold image
  rw [Importing.bind_apply, h]
  rw [h] at hsourced
  dsimp only at hsourced ⊢
  have hattach : ∀ (size : Size) (b : Sprite) (u : Surroundings (Traced ω)), s.Leaves [] u →
      EndsRefused n .sprite s { n with size } (borderOf sprite.frame (grid? e))
        ((writeBorder scope.traced sprite (grid? e) >>=
          fun _ => scope.traced.attach { n with size } (.sprite b)) u) := by
    intro size b u hu
    rw [Importing.bind_apply]
    have hleaves := hu.trans (writeBorder_leaves scope sprite (grid? e) u)
    exact EndsRefused.attach (n := n) (m := { n with size }) (b := .sprite b) hleaves rfl _
  unfold imageSize
  cases e.declaresSize with
  | true => exact hattach n.size _ t hsourced
  | false =>
    have hsize : (naturalSize scope.traced sprite n.size t).1 =
        (sprite.frame.bind fun a => (scope.traced.locator.textureSize a t.world).1).getD
          n.size := by
      unfold naturalSize
      cases sprite.frame <;> rfl
    have hnatural := hsourced.trans (naturalSize_inquires scope sprite n.size t)
    rw [if_neg Bool.false_ne_true, ← hsize]
    exact hattach _ _ _ hnatural

theorem image_endsRefused (scope : ImportScope ω) (e : Element) (n : Node)
    (s : Surroundings (Traced ω)) :
    EndsRefused n .sprite s { n with size := sizeLeft scope.traced e n.size s }
      (bordersLeft scope.traced e s) (image scope.traced e n s) := by
  rcases hsourced : sourcedSprite scope.traced e n s with ⟨sprite, t⟩
  have hends := image_endsRefused_of hsourced
  have hsprite : n.Refuses .sprite →
      sprite = { frame := (shownAsset scope.traced e s).1 } ∧
        t = (shownAsset scope.traced e s).2 := by
    intro hrefuses
    rw [sourcedSprite_of_refuses _ e hrefuses] at hsourced
    exact Prod.mk.inj hsourced.symm
  refine ⟨hends.refused, fun hconflict => ?_, fun hconflict => ?_, hends.reports⟩
  · obtain ⟨rfl, rfl⟩ := hsprite (hends.refused.1 hconflict)
    exact hends.node hconflict
  · obtain ⟨rfl, rfl⟩ := hsprite (hends.refused.1 hconflict)
    exact hends.borders hconflict

end Widget

/-- Renderers end with a conflict at nodes with another renderer and none of their kind. A label then
leaves nothing but reports, and an image leaves the size of its texture and a border besides. -/
theorem refused_renderers_leave (scope : ImportScope ω) (e : Element) (n : Node)
    (s : Surroundings (Traced ω)) :
    (∀ widget ∈ ["Label", "EditableText", "BitmapLabel"],
      EndsRefused n .label s n [] (Registry.builtIn.importAs widget scope.traced e n s)) ∧
    EndsRefused n .sprite s { n with size := Widget.sizeLeft scope.traced e n.size s }
      (Widget.bordersLeft scope.traced e s)
      (Registry.builtIn.importAs "Image" scope.traced e n s) := by
  constructor
  · intro widget hwidget
    simp only [List.mem_cons, List.not_mem_nil, or_false] at hwidget
    rcases hwidget with rfl | rfl | rfl
    · exact Widget.label_endsRefused scope.traced e n s
    · exact Widget.label_endsRefused scope.traced e n s
    · exact Widget.bitmapLabel_endsRefused scope e n s
  · exact Widget.image_endsRefused scope e n s

/-- Assets with one texture. -/
def gallery : ImportScope World where
  assets := AssetTable.empty.insert "a" "a.png"
  locator := Catalog.locator { textures := .ofList [("a.png", ⟨64, 32⟩)] }
  source := ⟨"main.exml"⟩
  isTemplate := false

/-- An element that can be an image as well as a label. -/
def framedText : Element where
  localName := "Image"
  attributes := [("source", "a"), ("scale9Grid", "1,2,3,4"), ("text", "t")]

/-- A sprite refuses the label. -/
theorem sprite_refuses_label :
    let n : Node := { name := "n", behaviors := [.sprite {}] }
    let s : Surroundings (Traced World) := { world := { world := {} } }
    let done := Registry.builtIn.importAs "Label" gallery.traced framedText n s
    "Label" ∈ ["Label", "EditableText", "BitmapLabel"] ∧ s.Conflicting done.2 ∧ done.1 = n ∧
      done.2.world.borders = [] := by
  intro n s done
  have hlabel : "Label" ∈ ["Label", "EditableText", "BitmapLabel"] := by decide
  have hends := (refused_renderers_leave gallery framedText n s).1 "Label" hlabel
  have hrefuses : n.Refuses .label := ⟨rfl, by decide, _, List.mem_cons_self, rfl⟩
  have hconflict := hends.refused.2 hrefuses
  exact ⟨hlabel, hconflict, hends.node hconflict, hends.borders hconflict⟩

/-- A label refuses the sprite, and the image has left its size and its border by then. -/
theorem label_refuses_sprite :
    let n : Node := { name := "n", behaviors := [.label Widget.plainLabel] }
    let s : Surroundings (Traced World) := { world := { world := {} } }
    let done := Registry.builtIn.importAs "Image" gallery.traced framedText n s
    s.Conflicting done.2 ∧ done.1 = { n with size := ⟨64, 32⟩ } ∧ done.1 ≠ n ∧
      done.2.world.borders = [({ path := "a.png" }, ⟨1, 2, 3, 4⟩)] := by
  intro n s done
  have hdiagnostics : done.2.diagnostics =
      [⟨.behaviorConflict, ⟨"main.exml"⟩, "node 'n' cannot add Sprite (has Label)"⟩] := by
    decide +kernel
  refine ⟨⟨_, _, hdiagnostics, List.mem_cons_self, rfl⟩, ?_, ?_, ?_⟩ <;> decide +kernel

end MarkupScene
