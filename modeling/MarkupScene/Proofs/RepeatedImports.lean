import MarkupScene.Asset.Catalog
import MarkupScene.Proofs.BehaviorLists
import MarkupScene.Proofs.Retouches

/-!
# Repeated imports

An importer may meet a node that it has made. It reads the behavior that it has attached, the sides,
sprites and texts that it has set and the children that it has hidden or dropped, and finds them as it
would make them. The main statement is that a second import gives the same node and reports the same,
as long as the locator always gives the same answers.
-/
namespace MarkupScene

variable {ω α β : Type}

namespace Behavior

theorem sprite?_isSome_iff (b : Behavior) : b.sprite?.isSome = true ↔ b.kind = .sprite := by
  cases b <;> simp [sprite?, kind]

theorem label?_isSome_iff (b : Behavior) : b.label?.isSome = true ↔ b.kind = .label := by
  cases b <;> simp [label?, kind]

theorem editBox?_isSome_iff (b : Behavior) : b.editBox?.isSome = true ↔ b.kind = .editBox := by
  cases b <;> simp [editBox?, kind]

end Behavior

namespace Node
variable {n m : Node} {b : Behavior} {bs : List Behavior} {kind : Behavior.Kind}

def first? (n : Node) (kind : Behavior.Kind) : Option Behavior :=
  n.behaviors.find? fun a => a.kind = kind

theorem replaceKind_of_find? (h : bs.find? (fun a => a.kind = b.kind) = some b) :
    replaceKind b bs = bs := by
  induction bs with
  | nil => rfl
  | cons a rest ih =>
    rw [List.find?_cons] at h
    rw [replaceKind]
    by_cases ha : a.kind = b.kind
    · simp only [ha, decide_true, Option.some.injEq] at h
      rw [if_pos ha, h]
    · simp only [ha, decide_false] at h
      rw [if_neg ha, ih h]

theorem attach_of_first? (h : n.first? b.kind = some b) : n.attach b = .ok n := by
  have hany : (n.behaviors.any fun a => a.kind = b.kind) = true := by
    rw [List.any_eq_true]
    exact ⟨b, List.mem_of_find?_eq_some h, by simp⟩
  unfold attach
  rw [if_pos hany, replaceKind_of_find? h]
  cases n
  rfl

theorem find?_replaceKind_ne (h : kind ≠ b.kind) (bs : List Behavior) :
    (replaceKind b bs).find? (fun a => a.kind = kind) = bs.find? fun a => a.kind = kind := by
  induction bs with
  | nil => rfl
  | cons a rest ih =>
    rw [replaceKind]
    split
    · next ha => simp [ha, h.symm]
    · rw [List.find?_cons, List.find?_cons, ih]

theorem first?_attached_ne (h : kind ≠ b.kind) (n : Node) :
    (n.attached b).first? kind = n.first? kind := by
  obtain ⟨-, hmade⟩ | ⟨-, hmade⟩ | ⟨-, hmade⟩ := n.attached_cases b
  · rw [hmade]
    exact find?_replaceKind_ne h n.behaviors
  · rw [hmade, first?, first?, List.find?_append]
    simp [h.symm]
  · rw [hmade]

/-- After attaching, a behavior is the first of its kind, unless it is refused. -/
theorem first?_attached (n : Node) (b : Behavior) :
    (n.attached b).first? b.kind = some b ∨ n.Refuses b.kind ∧ n.attached b = n := by
  obtain ⟨hhas, hmade⟩ | ⟨habsent, hmade⟩ | hrefused := n.attached_cases b
  · left
    obtain ⟨before, old, after, -, -, hbefore, hreplaced⟩ :=
      replaceKind_split ((has_iff_mem n b.kind).1 hhas)
    have hnone : before.find? (fun a => a.kind = b.kind) = none := by simpa using hbefore
    rw [hmade, first?, hreplaced, List.find?_append, hnone]
    simp
  · left
    have hnone : n.behaviors.find? (fun a => a.kind = b.kind) = none := by
      simpa [has] using habsent
    rw [hmade, first?, List.find?_append, hnone]
    simp
  · exact .inr hrefused

theorem attached_of_error {conflict : Conflict} (h : n.attach b = .error conflict) :
    n.attached b = n := by
  rw [attached, h]
  rfl

theorem exists_attached_eq (n : Node) (b : Behavior) :
    ∃ bs, n.attached b = { n with behaviors := bs } := by
  obtain ⟨bs, hmade, -⟩ := n.exists_attached [b.kind] List.mem_cons_self
  exact ⟨bs, hmade⟩

theorem attach_attached (n : Node) (b : Behavior) : (n.attached b).attach b = n.attach b := by
  cases hattach : n.attach b with
  | error conflict => rw [attached_of_error hattach, hattach]
  | ok made =>
    have hmade : n.attached b = made := by
      rw [attached, hattach]
      rfl
    obtain hfirst | ⟨hrefuses, -⟩ := n.first?_attached b
    · rw [attach_of_first? hfirst, hmade]
    · obtain ⟨conflict, hconflict⟩ := hrefuses.attach
      rw [hattach] at hconflict
      cases hconflict

theorem findSome?_eq_first? {g : Behavior → Option α}
    (hg : ∀ a, (g a).isSome = true ↔ a.kind = kind) (n : Node) :
    n.behaviors.findSome? g = (n.first? kind).bind g := by
  unfold first?
  induction n.behaviors with
  | nil => rfl
  | cons a rest ih =>
    rw [List.findSome?_cons, List.find?_cons]
    by_cases ha : a.kind = kind
    · obtain ⟨x, hx⟩ := Option.isSome_iff_exists.1 ((hg a).2 ha)
      simp [ha, hx]
    · have hx : g a = none := by simpa using mt (hg a).1 ha
      simp [ha, hx, ih]

/-- The same as told by what is attached, unless it is refused. -/
theorem findSome?_attached {g : Behavior → Option α}
    (hg : ∀ a, (g a).isSome = true ↔ a.kind = b.kind) (n : Node) :
    (n.attached b).behaviors.findSome? g = g b ∨ n.Refuses b.kind ∧ n.attached b = n := by
  obtain hfirst | hrefused := n.first?_attached b
  · rw [findSome?_eq_first? hg, hfirst]
    exact .inl rfl
  · exact .inr hrefused

theorem label?_attached (n : Node) (l : Label) :
    (n.attached (.label l)).label? = some l ∨
      n.Refuses .label ∧ n.attached (.label l) = n :=
  findSome?_attached Behavior.label?_isSome_iff n

theorem sprite?_attached (n : Node) (s : Sprite) :
    (n.attached (.sprite s)).sprite? = some s ∨
      n.Refuses .sprite ∧ n.attached (.sprite s) = n :=
  findSome?_attached Behavior.sprite?_isSome_iff n

end Node

namespace Importing

/-- An action that has a result and adds diagnostics, the same everywhere. -/
def Tells (m : Importing ω α) (a : α) (ds : List Diagnostic) : Prop :=
  ∀ s, (m s).1 = a ∧ (m s).2.diagnostics = s.diagnostics ++ ds

namespace Tells
variable {m : Importing ω α} {f : α → Importing ω β} {a : α} {b : β} {ds es : List Diagnostic}

theorem pure (a : α) : Tells (Pure.pure a : Importing ω α) a [] :=
  fun s => ⟨rfl, (List.append_nil s.diagnostics).symm⟩

theorem bind (hm : m.Tells a ds) (hf : (f a).Tells b es) : Tells (m >>= f) b (ds ++ es) := by
  intro s
  obtain ⟨hresult, hadded⟩ := hm s
  obtain ⟨hlast, hmore⟩ := hf (m s).2
  rw [bind_apply, hresult]
  exact ⟨hlast, by rw [hmore, hadded, List.append_assoc]⟩

end Tells

theorem attach_tells (scope : ImportScope ω) (n : Node) (b : Behavior) :
    ∃ ds, (scope.attach n b).Tells (n.attached b) ds := by
  unfold ImportScope.attach Node.attached
  cases n.attach b with
  | ok made => exact ⟨[], .pure made⟩
  | error conflict => exact ⟨[_], fun s => ⟨rfl, rfl⟩⟩

theorem attach_tells_of_ok {scope : ImportScope ω} {n made : Node} {b : Behavior}
    (h : n.attach b = .ok made) : (scope.attach n b).Tells made [] := by
  unfold ImportScope.attach
  rw [h]
  exact .pure made

theorem attach_attached (scope : ImportScope ω) (n : Node) (b : Behavior) :
    scope.attach (n.attached b) b = scope.attach n b := by
  unfold ImportScope.attach
  rw [n.attach_attached b]
  cases hattach : n.attach b with
  | ok made => rfl
  | error conflict =>
    rw [Node.attached_of_error hattach]

theorem tells_closed {scope : ImportScope ω} (h : scope.locator.Constant) (world : ω) :
    Closed scope fun _ m => ∃ a ds, m.Tells a ds where
  pure a := ⟨a, [], .pure a⟩
  bind hm hf := by
    obtain ⟨a, ds, hfirst⟩ := hm
    obtain ⟨b, es, hsecond⟩ := hf a
    exact ⟨b, _, hfirst.bind hsecond⟩
  locate path frame :=
    ⟨_, [], fun s => ⟨h.resolve path frame s.world world, (List.append_nil _).symm⟩⟩
  textureSize asset :=
    ⟨_, [], fun s => ⟨h.textureSize asset s.world world, (List.append_nil _).symm⟩⟩
  loadFont asset := ⟨_, [], fun s => ⟨h.loadFont asset s.world world, (List.append_nil _).symm⟩⟩
  setBorder _ _ := ⟨(), [], fun _ => ⟨rfl, (List.append_nil _).symm⟩⟩
  report _ _ := ⟨(), [_], fun _ => ⟨rfl, rfl⟩⟩

end Importing

/-- An importer that makes of what it has made the same again, and tells the same. The locator has to
give the same answers each time; the state of the outside only shows that there is one. -/
def Importer.Repeats (i : Importer ω) : Prop :=
  ∀ scope e n, scope.locator.Constant → ∀ _ : ω, ∃ made ds,
    (i scope e n).Tells made ds ∧ (i scope e made).Tells made ds

namespace Widget

open Importing

variable {e : Element} {m n : Node}

theorem repeats_of_attach {i : Importer ω} {scope : ImportScope ω} {m : Node} {b : Behavior}
    (h : i scope e n = scope.attach m b)
    (hagain : i scope e (m.attached b) = scope.attach (m.attached b) b) :
    ∃ made ds, (i scope e n).Tells made ds ∧ (i scope e made).Tells made ds := by
  obtain ⟨ds, htells⟩ := attach_tells scope m b
  refine ⟨m.attached b, ds, ?_, ?_⟩
  · rw [h]
    exact htells
  · rw [hagain, attach_attached]
    exact htells

theorem fontSizeOf_fontSizeOf (e : Element) (own : Numeric.Single) :
    fontSizeOf e (fontSizeOf e own) = fontSizeOf e own := by
  unfold fontSizeOf
  cases e.filled? "size" <;> rfl

theorem lineHeightOf_lineHeightOf (e : Element) (size own : Numeric.Single) :
    lineHeightOf e size (lineHeightOf e size own) = lineHeightOf e size own := by
  unfold lineHeightOf
  cases e.filled? "lineSpacing" with
  | some spacing => rfl
  | none => cases e.filled? "size" <;> rfl

theorem getD_getD (o : Option α) (own : α) : o.getD (o.getD own) = o.getD own := by
  cases o <;> rfl

theorem overlayLabel_overlayLabel (e : Element) (own : Label) :
    overlayLabel e (overlayLabel e own) = overlayLabel e own := by
  simp only [overlayLabel, fontSizeOf_fontSizeOf, lineHeightOf_lineHeightOf, getD_getD,
    Element.flagOr]

theorem labelOf_attached (e : Element) (n : Node) :
    labelOf e (n.attached (.label (labelOf e n))) = labelOf e n := by
  obtain hlabel | ⟨-, hsame⟩ := n.label?_attached (labelOf e n)
  · rw [labelOf, hlabel]
    exact overlayLabel_overlayLabel e _
  · rw [hsame]

theorem label_repeats : (label : Importer ω).Repeats := by
  intro scope e n _ _
  refine repeats_of_attach (i := label) (m := n) rfl ?_
  rw [label, labelOf_attached]

def inFont (font : AssetRef) (metrics : Except Failure FontMetrics) (l : Label) : Label :=
  match metrics with
  | .ok metrics =>
    { l with fontSize := metrics.fontSize, lineHeight := metrics.lineHeight, font := some font }
  | .error _ => { l with font := some font }

theorem inFont_overlayLabel (e : Element) (font : AssetRef) (metrics : Except Failure FontMetrics)
    (own : Label) : inFont font metrics (overlayLabel e (inFont font metrics (overlayLabel e own))) =
      inFont font metrics (overlayLabel e own) := by
  cases metrics with
  | ok metrics => simp only [inFont, overlayLabel, getD_getD, Element.flagOr]
  | error failure =>
    simp only [inFont, overlayLabel, fontSizeOf_fontSizeOf, lineHeightOf_lineHeightOf, getD_getD,
      Element.flagOr]

theorem withFont_tells {scope : ImportScope ω} (h : scope.locator.Constant) (world : ω)
    (l : Label) (font : AssetRef) :
    (withFont scope l font).Tells (inFont font (scope.locator.loadFont font world).1 l) [] := by
  intro s
  unfold withFont
  rw [bind_apply, show (ImportScope.ask (scope.locator.loadFont font) s).1 =
    (scope.locator.loadFont font world).1 from h.loadFont font s.world world]
  cases (scope.locator.loadFont font world).1 <;> exact ⟨rfl, (List.append_nil _).symm⟩

theorem bitmapLabel_repeats : (bitmapLabel : Importer ω).Repeats := by
  intro scope e n hlocator world
  obtain ⟨found, ds, hfound⟩ := (tells_closed hlocator world).paired.resolve (e.textOr "font" "")
  unfold bitmapLabel
  cases found with
  | none =>
    obtain ⟨es, hattach⟩ := attach_tells scope n (.label (labelOf e n))
    refine ⟨_, _, hfound.bind hattach, hfound.bind ?_⟩
    dsimp only
    rw [labelOf_attached, attach_attached]
    exact hattach
  | some font =>
    have hfont := withFont_tells hlocator world
    let l := inFont font (scope.locator.loadFont font world).1 (labelOf e n)
    obtain ⟨es, hattach⟩ := attach_tells scope n (.label l)
    refine ⟨_, _, hfound.bind ((hfont _ font).bind hattach), hfound.bind ((hfont _ font).bind ?_)⟩
    have hagain : inFont font (scope.locator.loadFont font world).1
        (labelOf e (n.attached (.label l))) = l := by
      obtain hlabel | ⟨-, hsame⟩ := n.label?_attached l
      · rw [labelOf, hlabel]
        exact inFont_overlayLabel e font _ _
      · rw [hsame]
    rw [hagain, attach_attached]
    exact hattach

def showing (found : Option (Option AssetRef)) (s : Sprite) : Sprite :=
  { s with frame := found.getD s.frame }

theorem sourcedSprite_tells {scope : ImportScope ω} (h : scope.locator.Constant) (world : ω)
    (e : Element) : ∃ found ds, ∀ n : Node,
      (sourcedSprite scope e n).Tells (showing found (n.sprite?.getD {})) ds := by
  unfold sourcedSprite
  cases e.filled? "source" with
  | none => exact ⟨none, [], fun n => .pure _⟩
  | some name =>
    obtain ⟨found, ds, hfound⟩ := (tells_closed h world).paired.resolve name
    exact ⟨some found, ds ++ [], fun n => hfound.bind (.pure _)⟩

theorem naturalSize_tells {scope : ImportScope ω} (h : scope.locator.Constant) (world : ω)
    (frame : Option AssetRef) : ∃ size : Option Size, ∀ (sprite : Sprite) (own : Size),
      sprite.frame = frame → (naturalSize scope sprite own).Tells (size.getD own) [] := by
  unfold naturalSize
  cases frame with
  | none => exact ⟨none, fun sprite own hframe => by rw [hframe]; exact .pure own⟩
  | some asset =>
    refine ⟨(scope.locator.textureSize asset world).1, fun sprite own hframe s => ?_⟩
    rw [hframe]
    dsimp only
    rw [bind_apply, show (ImportScope.ask (scope.locator.textureSize asset) s).1 =
      (scope.locator.textureSize asset world).1 from h.textureSize asset s.world world]
    exact ⟨rfl, (List.append_nil _).symm⟩

theorem writeBorder_tells (scope : ImportScope ω) (sprite : Sprite) (grid : Option Rect) :
    (writeBorder scope sprite grid).Tells () [] := by
  unfold writeBorder
  split
  · exact fun _ => ⟨rfl, (List.append_nil _).symm⟩
  · exact .pure ()

/-- The sprite of an image, on top of the one that shows the asset. -/
def drawn (e : Element) (sprite : Sprite) : Sprite :=
  { sprite with
    sizeMode := if e.declaresSize then .custom else .raw
    kind := spriteKind e ((e.attribute? "scale9Grid").bind Rect.parse?) sprite.kind }

theorem drawn_showing_drawn (e : Element) (found : Option (Option AssetRef)) (s : Sprite) :
    drawn e (showing found (drawn e (showing found s))) = drawn e (showing found s) := by
  have hkind : ∀ grid own, spriteKind e grid (spriteKind e grid own) = spriteKind e grid own := by
    intro grid own
    unfold spriteKind
    cases grid with
    | some grid => rfl
    | none => cases e.attribute? "fillMode" <;> rfl
  simp only [drawn, showing, getD_getD, hkind]

theorem image_repeats : (image : Importer ω).Repeats := by
  intro scope e n hlocator world
  obtain ⟨found, ds, hsprite⟩ := sourcedSprite_tells hlocator world e
  let shown (m : Node) : Sprite := showing found (m.sprite?.getD {})
  obtain ⟨natural, hnatural⟩ := naturalSize_tells hlocator world (shown n).frame
  let sized (m : Node) : Node :=
    { m with size := if e.declaresSize then m.size else natural.getD m.size }
  -- An import attaches to a node of natural size, whenever its sprite shows the same asset.
  have himage : ∀ m, (shown m).frame = (shown n).frame → ∀ es made,
      (scope.attach (sized m) (.sprite (drawn e (shown m)))).Tells made es →
        (image scope e m).Tells made (ds ++ ([] ++ ([] ++ es))) := by
    intro m hframe es made hattach
    refine (hsprite m).bind ?_
    dsimp only
    split
    · next hdeclared =>
      simp only [sized, drawn, if_pos hdeclared] at hattach
      exact (Tells.pure m.size).bind ((writeBorder_tells scope _ _).bind hattach)
    · next hdeclared =>
      simp only [sized, drawn, if_neg hdeclared] at hattach
      exact (hnatural _ _ hframe).bind ((writeBorder_tells scope _ _).bind hattach)
  let made := (sized n).attached (.sprite (drawn e (shown n)))
  obtain ⟨es, hattach⟩ := attach_tells scope (sized n) (.sprite (drawn e (shown n)))
  refine ⟨made, _, himage n rfl es made hattach, ?_⟩
  have hagain : (shown made).frame = (shown n).frame ∧ drawn e (shown made) = drawn e (shown n) := by
    obtain hsprite | ⟨-, hsame⟩ := (sized n).sprite?_attached (drawn e (shown n))
    · have hshown : shown made = showing found (drawn e (shown n)) := by
        simp only [shown, made, hsprite, Option.getD_some]
      rw [hshown]
      exact ⟨getD_getD found _, drawn_showing_drawn e found _⟩
    · have hshown : shown made = shown n := by
        simp only [made, hsame]
        rfl
      rw [hshown]
      exact ⟨rfl, rfl⟩
  have hsized : sized made = made := by
    obtain ⟨bs, hmade⟩ := (sized n).exists_attached_eq (.sprite (drawn e (shown n)))
    simp only [made, hmade, sized]
    split
    · rfl
    · rw [getD_getD]
  refine himage made hagain.1 es made ?_
  rw [hsized, hagain.2, attach_attached]
  exact hattach

end Widget

namespace Node
variable {n m k c d : Node} {f : Node → Node} {way : List Nat} {found : Option (List Nat)}

theorem toBody_attached (n : Node) (b : Behavior) :
    ∃ bs, (n.attached b).toBody = { n.toBody with behaviors := bs } := by
  obtain ⟨bs, hmade⟩ := n.exists_attached_eq b
  exact ⟨bs, by rw [hmade]⟩

theorem size_attached (n : Node) (b : Behavior) : (n.attached b).size = n.size := by
  obtain ⟨bs, hbody⟩ := n.toBody_attached b
  rw [hbody]

theorem skin_attached (n : Node) (b : Behavior) : (n.attached b).skin = n.skin := by
  obtain ⟨bs, hbody⟩ := n.toBody_attached b
  rw [hbody]

theorem children_attached (n : Node) (b : Behavior) : (n.attached b).children = n.children := by
  obtain ⟨bs, hmade⟩ := n.exists_attached_eq b
  rw [hmade]

theorem outline_attached (n : Node) (b : Behavior) : (n.attached b).outline = n.outline := by
  rw [outline, outline, children_attached]

theorem descendant?_attached (h : way ≠ []) (n : Node) (b : Behavior) :
    (n.attached b).descendant? way = n.descendant? way := by
  cases way with
  | nil => exact absurd rfl h
  | cons i way => rw [descendant?_cons, descendant?_cons, children_attached]

theorem attach_of_not_renderer {b : Behavior} (h : b.kind.isRenderer = false) (n : Node) :
    n.attach b = .ok (n.attached b) := by
  cases hattach : n.attach b with
  | ok made => rw [attached, hattach]; rfl
  | error conflict =>
    have hrenderer := (refuses_of_attach hattach).renderer
    rw [h] at hrenderer
    cases hrenderer

theorem modifyAt_eq_self (h : ∀ d, n.descendant? way = some d → f d = d) :
    n.modifyAt f way = n := by
  induction way generalizing n with
  | nil => exact h n rfl
  | cons i way ih =>
    rw [modifyAt]
    split
    · next c hc =>
      have hchild : c.modifyAt f way = c := ih fun d hd => h d (by rw [descendant?_cons, hc]; exact hd)
      obtain ⟨hi, rfl⟩ := List.getElem?_eq_some_iff.1 hc
      rw [hchild, List.set_getElem_self]
      cases n
      rfl
    · rfl

/-- A tree with what was found changed, if anything was. -/
def modifyFound (n : Node) (f : Node → Node) (found : Option (List Nat)) : Node :=
  match found with
  | some way => n.modifyAt f way
  | none => n

theorem modifyFound_eq_self
    (h : ∀ way d, found = some way → n.descendant? way = some d → f d = d) :
    n.modifyFound f found = n := by
  cases found with
  | none => rfl
  | some way => exact modifyAt_eq_self fun d => h way d rfl

theorem outline_modifyFound (hf : ∀ m, (f m).bare = m.bare) (n : Node)
    (found : Option (List Nat)) : (n.modifyFound f found).outline = n.outline := by
  cases found with
  | none => rfl
  | some way => exact outline_of_bare (bare_modifyAt hf n way)

theorem toBody_of_modifyFound (hf : ∀ c, (f c).children = c.children) (hway : found = some way)
    (hd : (n.modifyFound f found).descendant? way = some d) :
    ∃ c, n.descendant? way = some c ∧ d.toBody = (f c).toBody := by
  subst hway
  have hbody := toBody_descendant?_modifyAt hf n way way
  rw [if_pos rfl] at hbody
  have hd : (n.modifyAt f way).descendant? way = some d := hd
  rw [hd] at hbody
  obtain ⟨c, hc, hcd⟩ := Option.map_eq_some_iff.1 hbody.symm
  exact ⟨c, hc, hcd.symm⟩

theorem toBody_modifyFound_of_ne (hf : ∀ c, (f c).children = c.children) (n : Node)
    (hne : ∀ target, found = some target → way ≠ target) :
    ((n.modifyFound f found).descendant? way).map Node.toBody =
      (n.descendant? way).map Node.toBody := by
  cases found with
  | none => rfl
  | some target =>
    rw [modifyFound, toBody_descendant?_modifyAt hf, if_neg (hne target rfl)]

theorem changeFirstSprite_twice {f : Sprite → Sprite} (hf : ∀ s, f (f s) = f s)
    (bs : List Behavior) :
    changeFirstSprite f (changeFirstSprite f bs) = changeFirstSprite f bs := by
  fun_induction changeFirstSprite f bs with
  | case1 => rfl
  | case2 s rest => rw [changeFirstSprite, hf]
  | case3 b rest hb ih => rw [changeFirstSprite.eq_3 _ _ _ hb, ih]

theorem changeFirstLabel_twice {f : Label → Label} (hf : ∀ l, f (f l) = f l)
    (bs : List Behavior) :
    changeFirstLabel f (changeFirstLabel f bs) = changeFirstLabel f bs := by
  fun_induction changeFirstLabel f bs with
  | case1 => rfl
  | case2 l rest => rw [changeFirstLabel, hf]
  | case3 b rest hb ih => rw [changeFirstLabel.eq_3 _ _ _ hb, ih]

theorem mapSprite_eq_self {f : Sprite → Sprite} (hf : ∀ s, f (f s) = f s)
    (h : d.toBody = (c.mapSprite f).toBody) : d.mapSprite f = d := by
  obtain ⟨body, children⟩ := d
  obtain rfl : body = (c.mapSprite f).toBody := h
  simp only [mapSprite, changeFirstSprite_twice hf]

theorem mapLabel_eq_self {f : Label → Label} (hf : ∀ l, f (f l) = f l)
    (h : d.toBody = (c.mapLabel f).toBody) : d.mapLabel f = d := by
  obtain ⟨body, children⟩ := d
  obtain rfl : body = (c.mapLabel f).toBody := h
  simp only [mapLabel, changeFirstLabel_twice hf]

theorem findNamed?_congr (h : m.outline = n.outline) (name : String) :
    m.findNamed? name = n.findNamed? name :=
  find?_congr (Target.named name).test_bare h

end Node

namespace Widget

open Importing Node

variable {m n : Node}

def barOf (direction : Axis) (e : Element) (thumb : Option (List Nat)) (n : Node) : Behavior :=
  .scrollBar {
    direction
    handle := thumb.map n.namePath
    autoHide := e.flagOr "autoVisibility" true }

theorem scrollBar_eq (direction : Axis) (scope : ImportScope ω) (e : Element) (n : Node) :
    scrollBar direction scope e n =
      scope.attach (n.modifyFound stretchSprite (n.findNamed? "thumb"))
        (barOf direction e (n.findNamed? "thumb")
          (n.modifyFound stretchSprite (n.findNamed? "thumb"))) := rfl

theorem namePath_map_congr (h : m.outline = n.outline) (found : Option (List Nat)) :
    found.map m.namePath = found.map n.namePath := by
  rw [funext (namePath_congr h)]

theorem scrollBar_repeats (direction : Axis) : (scrollBar direction : Importer ω).Repeats := by
  intro scope e n _ _
  refine repeats_of_attach (scrollBar_eq direction scope e n) ?_
  let thumb := n.findNamed? "thumb"
  let k := n.modifyFound stretchSprite thumb
  let made := k.attached (barOf direction e thumb k)
  change scrollBar direction scope e made = scope.attach made (barOf direction e thumb k)
  have houtline : made.outline = k.outline := k.outline_attached _
  have hthumb : made.findNamed? "thumb" = thumb := findNamed?_congr
    (houtline.trans (outline_modifyFound (mapSprite_harmless _).bare n thumb)) "thumb"
  have hsame : made.modifyFound stretchSprite thumb = made := by
    refine modifyFound_eq_self fun way d hway hd => ?_
    rw [descendant?_attached (ne_nil_of_findNamed? hway)] at hd
    obtain ⟨c, -, hbody⟩ := toBody_of_modifyFound (f := stretchSprite) (fun _ => rfl) hway hd
    exact mapSprite_eq_self (fun _ => rfl) hbody
  rw [scrollBar_eq, hthumb, hsame, barOf, barOf, namePath_map_congr houtline]

theorem fillSize_fillSize (outer inner : Size) :
    fillSize outer (fillSize outer inner) = fillSize outer inner := by
  have hside : ∀ outer side : Numeric.Single,
      (if (if side.same 0 then outer else side).same 0 then outer
        else if side.same 0 then outer else side) = if side.same 0 then outer else side := by
    intro outer side
    cases hzero : side.same 0 <;> simp [hzero]
  exact congrArg₂ Size.mk (hside outer.width inner.width) (hside outer.height inner.height)

def viewOf (e : Element) (n : Node) : Behavior :=
  let horizontal := e.textOr "scrollPolicyH" "auto" ≠ "off"
  let vertical := e.textOr "scrollPolicyV" "auto" ≠ "off"
  .scrollView {
    horizontal
    vertical
    inertia := (0 : Numeric.Single).lt (e.singleOr "throwSpeed" 0)
    elastic := e.flagOr "bounces" true
    content := (viewport? n).map n.namePath
    horizontalScrollBar := barPath? n horizontal "horizontalScrollBar"
    verticalScrollBar := barPath? n vertical "verticalScrollBar" }

theorem viewport?_congr (h : m.outline = n.outline) : viewport? m = viewport? n := by
  have hcontainer : m.find? isContainer = n.find? isContainer :=
    find?_congr Target.container.test_bare h
  rw [viewport?, viewport?, findNamed?_congr h, hcontainer]

theorem viewOf_congr (h : m.outline = n.outline) (e : Element) : viewOf e m = viewOf e n := by
  simp only [viewOf, barPath?, viewport?_congr h, findNamed?_congr h, namePath_map_congr h]

def fillViewport (n : Node) : Node :=
  n.modifyFound (fun c => { c with size := fillSize n.size c.size }) (viewport? n)

theorem scroller_eq (scope : ImportScope ω) (e : Element) (n : Node) :
    scroller scope e n = (do
      let attached ← scope.attach (fillViewport n) (viewOf e n)
      scope.attach attached (.mask {})) := rfl

theorem scroller_repeats : (scroller : Importer ω).Repeats := by
  intro scope e n _ _
  let k := fillViewport n
  let viewed := k.attached (viewOf e n)
  let made := viewed.attached (.mask {})
  have hk : k.toBody = n.toBody :=
    toBody_modifyFound n (fun c => { c with size := fillSize n.size c.size })
      fun _ => ne_nil_of_viewport?
  have houtline : made.outline = n.outline := by
    refine (viewed.outline_attached _).trans ((k.outline_attached _).trans ?_)
    exact outline_modifyFound (fillSize_harmless n.size).bare n (viewport? n)
  have hsize : made.size = n.size := by
    have hsame : made.size = k.size := (viewed.size_attached _).trans (k.size_attached _)
    rw [hsame, hk]
  -- The viewport was filled already, and filling it again gives the same size.
  have hfilled : fillViewport made = made := by
    unfold fillViewport
    rw [viewport?_congr houtline, hsize]
    refine modifyFound_eq_self fun way d hway hd => ?_
    have hne := ne_nil_of_viewport? hway
    rw [descendant?_attached hne, descendant?_attached hne] at hd
    obtain ⟨c, -, hbody⟩ := toBody_of_modifyFound
      (f := fun c => { c with size := fillSize n.size c.size }) (fun _ => rfl) hway hd
    obtain ⟨body, children⟩ := d
    obtain rfl : body = { c.toBody with size := fillSize n.size c.size } := hbody
    simp only [fillSize_fillSize]
  -- The scroll view is still the first one when the mask has been attached.
  have hfirst : made.first? .scrollView = some (viewOf e n) := by
    have hne : (.scrollView : Behavior.Kind) ≠ Behavior.kind (.mask {}) := by decide
    have hmask : made.first? .scrollView = viewed.first? .scrollView :=
      first?_attached_ne hne viewed
    obtain hviewed | ⟨hrefuses, -⟩ := k.first?_attached (viewOf e n)
    · exact hmask.trans hviewed
    · cases hrefuses.renderer
  have hagain : made.attach (viewOf e n) = .ok made := attach_of_first? hfirst
  obtain ⟨ds, hattach⟩ := attach_tells scope viewed (.mask {})
  refine ⟨made, [] ++ ds, ?_, ?_⟩
  · rw [scroller_eq]
    exact (attach_tells_of_ok (attach_of_not_renderer rfl k)).bind hattach
  · rw [scroller_eq, hfilled, viewOf_congr houtline]
    refine (attach_tells_of_ok hagain).bind ?_
    rw [Importing.attach_attached]
    exact hattach

def progressFill (e : Element) : Fill :=
  let direction := e.textOr "direction" "ltr"
  fillOf (isVertical direction) (isReverse direction)
    (progressOf (e.singleOr "value" 0) (e.singleOr "maximum" 100))

def progressText (e : Element) : String :=
  amountText (e.singleOr "value" 0) ++ " / " ++ amountText (e.singleOr "maximum" 100)

/-- A tree with the thumb filled and the text of the label display set. -/
def showProgress (e : Element) (n : Node) : Node :=
  let filled := n.modifyFound (fillSprite (progressFill e)) (n.findNamed? "thumb")
  filled.modifyFound (Node.mapLabel fun l => { l with text := progressText e })
    (filled.findNamed? "labelDisplay")

def progressView (e : Element) (n : Node) : Behavior :=
  let direction := e.textOr "direction" "ltr"
  let thumb := n.findNamed? "thumb"
  .progressBar {
    mode := .filled
    bar := thumb.map n.namePath
    totalLength := lengthAlong (isVertical direction) ((thumb.bind n.descendant?).getD n).size
    progress := progressOf (e.singleOr "value" 0) (e.singleOr "maximum" 100)
    reverse := isReverse direction }

theorem progressBar_eq (scope : ImportScope ω) (e : Element) (n : Node) :
    progressBar scope e n = scope.attach (showProgress e n) (progressView e n) := rfl

theorem size_of_retouched {isTemplate : Bool} {way : List Nat} {d d' : Body}
    (h : Retouched "ProgressBar" isTemplate n way d d') : d'.size = d.size := by
  cases h with
  | image isImage => exact absurd isImage (by decide)
  | viewport isScroller => exact absurd isScroller (by decide)
  | handle _ _ changed => cases changed; rfl
  | thumb _ _ _ changed => cases changed; rfl
  | labelDisplay _ _ _ changed => cases changed; rfl
  | _ => rfl

theorem size_measured {isTemplate : Bool}
    (h : n.Becomes (Retouched "ProgressBar" isTemplate n) m) (thumb : Option (List Nat)) :
    ((thumb.bind m.descendant?).getD m).size = ((thumb.bind n.descendant?).getD n).size := by
  have hsize : ∀ way, (m.descendant? way).map (·.size) = (n.descendant? way).map (·.size) :=
    fun way => h.map way fun _ _ => size_of_retouched
  have hroot : m.size = n.size := Option.some.inj (hsize [])
  cases thumb with
  | none => exact hroot
  | some way =>
    have hmeasured : ∀ k : Node, ((k.descendant? way).getD k).size =
        ((k.descendant? way).map (·.size)).getD k.size := by
      intro k
      cases k.descendant? way <;> rfl
    rw [Option.bind_some, Option.bind_some, hmeasured, hmeasured, hsize, hroot]

theorem showProgress_outline (e : Element) (n : Node) :
    (showProgress e n).outline = n.outline :=
  (outline_modifyFound (mapLabel_harmless _).bare _ _).trans
    (outline_modifyFound (mapSprite_harmless _).bare n _)

/-- The thumb is the node that it was, with its sprite filled. -/
theorem toBody_thumb (e : Element) (b : Behavior) {way : List Nat} {d : Node}
    (hway : n.findNamed? "thumb" = some way)
    (hd : ((showProgress e n).attached b).descendant? way = some d) :
    ∃ c, n.descendant? way = some c ∧ d.toBody = (fillSprite (progressFill e) c).toBody := by
  let filled := n.modifyFound (fillSprite (progressFill e)) (n.findNamed? "thumb")
  have hfilled : filled.outline = n.outline :=
    outline_modifyFound (mapSprite_harmless _).bare n _
  rw [descendant?_attached (ne_nil_of_findNamed? hway)] at hd
  -- The label display is another node than the thumb.
  have hsame : ((showProgress e n).descendant? way).map Node.toBody =
      (filled.descendant? way).map Node.toBody := by
    refine toBody_modifyFound_of_ne (f := Node.mapLabel _) (fun _ => rfl) filled
      fun target htarget => ?_
    rw [findNamed?_congr hfilled] at htarget
    exact ne_of_findNamed? hway htarget (by decide)
  rw [hd] at hsame
  obtain ⟨d', hd', hbody⟩ := Option.map_eq_some_iff.1 hsame.symm
  obtain ⟨c, hc, hcd⟩ := toBody_of_modifyFound (f := fillSprite _) (fun _ => rfl) hway hd'
  exact ⟨c, hc, hbody.symm.trans hcd⟩

/-- What shows the progress is not changed once more. -/
theorem showProgress_twice (e : Element) (n : Node) (b : Behavior) :
    showProgress e ((showProgress e n).attached b) = (showProgress e n).attached b := by
  let filled := n.modifyFound (fillSprite (progressFill e)) (n.findNamed? "thumb")
  have hfilled : filled.outline = n.outline :=
    outline_modifyFound (mapSprite_harmless _).bare n _
  let made := (showProgress e n).attached b
  have houtline : made.outline = n.outline :=
    (Node.outline_attached _ b).trans (showProgress_outline e n)
  have hthumb : made.modifyFound (fillSprite (progressFill e)) (n.findNamed? "thumb") = made := by
    refine modifyFound_eq_self fun way d hway hd => ?_
    obtain ⟨c, -, hbody⟩ := toBody_thumb e b hway hd
    exact mapSprite_eq_self (fun _ => rfl) hbody
  have hlabel : made.modifyFound (Node.mapLabel fun l => { l with text := progressText e })
      (n.findNamed? "labelDisplay") = made := by
    refine modifyFound_eq_self fun way d hway hd => ?_
    rw [descendant?_attached (ne_nil_of_findNamed? hway)] at hd
    obtain ⟨c, -, hc⟩ := toBody_of_modifyFound (n := filled)
      (f := Node.mapLabel fun l => { l with text := progressText e }) (fun _ => rfl)
      ((findNamed?_congr hfilled _).trans hway) hd
    exact mapLabel_eq_self (fun _ => rfl) hc
  change showProgress e made = made
  unfold showProgress
  dsimp only
  rw [findNamed?_congr houtline, hthumb, findNamed?_congr houtline, hlabel]

theorem progressBar_repeats : (progressBar : Importer ω).Repeats := by
  intro scope e n _ world
  refine repeats_of_attach (progressBar_eq scope e n) ?_
  let k := showProgress e n
  let made := k.attached (progressView e n)
  have houtline : made.outline = n.outline :=
    (k.outline_attached _).trans (showProgress_outline e n)
  have hdressed : Dressed "ProgressBar" scope.isTemplate n made := by
    have hmade := progressBar_retouches scope e n ⟨world, []⟩
    rw [progressBar_eq, Makes.attached_eq scope k (progressView e n) ⟨world, []⟩] at hmade
    exact hmade
  have hview : progressView e made = progressView e n := by
    unfold progressView
    dsimp only
    rw [findNamed?_congr houtline, namePath_map_congr houtline, size_measured hdressed.becomes]
  change progressBar scope e made = scope.attach made (progressView e n)
  rw [progressBar_eq, showProgress_twice, hview]

/-- What a text input takes from its descendants. -/
def takeLooks (n : Node) (edit : EditBox) : EditBox :=
  takeBackground n (takeText n (takePrompt n edit))

theorem editBoxOf_eq (e : Element) (n : Node) :
    editBoxOf e n = overlayEditBox e (takeLooks n (n.editBox?.getD plainEditBox)) := rfl

theorem overlayEditBox_overlayEditBox (e : Element) (own : EditBox) :
    overlayEditBox e (overlayEditBox e own) = overlayEditBox e own := by
  simp only [overlayEditBox, getD_getD, Element.flagOr, Element.wordOr]

/-- An empty placeholder gives way to the text of the prompt. -/
def fillPlaceholder (prompt : Option String) (own : String) : String :=
  if own.isEmpty then prompt.getD own else own

theorem takeLooks_eq (n : Node) (edit : EditBox) :
    let prompt := (namedDescendant? n "promptDisplay").bind (·.label?)
    let text := (namedDescendant? n "textDisplay").bind (·.label?)
    let frame := ((namedDescendant? n "Image").bind (·.sprite?)).bind (·.frame)
    takeLooks n edit = { edit with
      placeholder := fillPlaceholder (prompt.map (·.text)) edit.placeholder
      placeholderColor := (prompt.map (·.color)).getD edit.placeholderColor
      placeholderFontSize := (prompt.map (·.fontSize)).getD edit.placeholderFontSize
      fontColor := (text.map (·.color)).getD edit.fontColor
      fontSize := (text.map (·.fontSize)).getD edit.fontSize
      background := frame.or edit.background } := by
  unfold takeLooks takeBackground takeText takePrompt
  cases (namedDescendant? n "promptDisplay").bind (·.label?) <;>
    cases (namedDescendant? n "textDisplay").bind (·.label?) <;>
    cases ((namedDescendant? n "Image").bind (·.sprite?)).bind (·.frame) <;>
    simp [fillPlaceholder]

theorem placeholder_twice (set prompt : Option String) (own : String) :
    set.getD (fillPlaceholder prompt (set.getD (fillPlaceholder prompt own))) =
      set.getD (fillPlaceholder prompt own) := by
  cases set with
  | some text => rfl
  | none =>
    change fillPlaceholder prompt (fillPlaceholder prompt own) = fillPlaceholder prompt own
    unfold fillPlaceholder
    cases hempty : own.isEmpty with
    | false => simp [hempty]
    | true => cases prompt <;> simp [hempty]

theorem or_or (o p : Option α) : o.or (o.or p) = o.or p := by
  cases o <;> rfl

theorem overlayEditBox_takeLooks (e : Element) (n : Node) (own : EditBox) :
    overlayEditBox e (takeLooks n (overlayEditBox e (takeLooks n own))) =
      overlayEditBox e (takeLooks n own) := by
  simp only [overlayEditBox, takeLooks_eq, getD_getD, placeholder_twice, or_or, Element.flagOr,
    Element.wordOr]

theorem editBox?_attached_self (n : Node) (edit : EditBox) :
    (n.attached (.editBox edit)).editBox? = some edit := by
  obtain htold | ⟨hrefuses, -⟩ := findSome?_attached (b := .editBox edit)
    Behavior.editBox?_isSome_iff n
  · exact htold
  · cases hrefuses.renderer

theorem behaviors_of_retouched {way : List Nat} {d d' : Body} (hway : way ≠ [])
    (h : Retouched "TextInput" true n way d d') : d'.behaviors = d.behaviors := by
  cases h with
  | own => exact absurd rfl hway
  | image isImage => exact absurd isImage (by decide)
  | handle isBar => exact absurd isBar (by decide)
  | thumb _ isBar => exact absurd isBar (by decide)
  | labelDisplay _ isBar => exact absurd isBar (by decide)
  | _ => rfl

theorem namedDescendant?_bind_congr (houtline : m.outline = n.outline)
    (hbehaviors : ∀ way, way ≠ [] →
      (m.descendant? way).map (·.behaviors) = (n.descendant? way).map (·.behaviors))
    (g : List Behavior → Option α) (name : String) :
    (namedDescendant? m name).bind (fun d => g d.behaviors) =
      (namedDescendant? n name).bind fun d => g d.behaviors := by
  unfold namedDescendant?
  rw [findNamed?_congr houtline]
  cases hway : n.findNamed? name with
  | none => rfl
  | some way =>
    have hmap : ∀ k : Node, (k.descendant? way).bind (fun d => g d.behaviors) =
        ((k.descendant? way).map (·.behaviors)).bind g := by
      intro k
      cases k.descendant? way <;> rfl
    rw [Option.bind_some, Option.bind_some, hmap, hmap,
      hbehaviors way (ne_nil_of_findNamed? hway)]

theorem takeLooks_congr (houtline : m.outline = n.outline)
    (hbehaviors : ∀ way, way ≠ [] →
      (m.descendant? way).map (·.behaviors) = (n.descendant? way).map (·.behaviors))
    (edit : EditBox) : takeLooks m edit = takeLooks n edit := by
  have hlabel : ∀ name, (namedDescendant? m name).bind (·.label?) =
      (namedDescendant? n name).bind (·.label?) :=
    namedDescendant?_bind_congr houtline hbehaviors (List.findSome? Behavior.label?)
  have hsprite : ∀ name, (namedDescendant? m name).bind (·.sprite?) =
      (namedDescendant? n name).bind (·.sprite?) :=
    namedDescendant?_bind_congr houtline hbehaviors (List.findSome? Behavior.sprite?)
  rw [takeLooks_eq, takeLooks_eq, hlabel, hlabel, hsprite]

theorem takeLooks_of_childless (h : m.children = []) (edit : EditBox) : takeLooks m edit = edit := by
  have hnone : ∀ name, namedDescendant? m name = none := by
    intro name
    unfold namedDescendant?
    cases hway : m.findNamed? name with
    | none => rfl
    | some way =>
      obtain ⟨i, c, rest, hc, -⟩ := find?_eq_some hway
      rw [h] at hc
      cases hc
  rw [takeLooks_eq]
  simp [hnone, fillPlaceholder]

/-- A text input that has put its children aside. -/
def aside (isTemplate : Bool) (n : Node) : Node :=
  { n with children := putAside isTemplate n.children }

theorem textInput_eq (scope : ImportScope ω) (e : Element) (n : Node) :
    textInput scope e n = scope.attach (aside scope.isTemplate n) (.editBox (editBoxOf e n)) := rfl

theorem outline_aside (n : Node) : (aside true n).outline = n.outline := by
  change (n.children.map _).map bare = n.children.map bare
  rw [List.map_map]
  exact List.map_congr_left fun c _ => bare_congr rfl rfl rfl

theorem aside_of_children {isTemplate : Bool} (h : m.children = putAside isTemplate n.children) :
    aside isTemplate m = m := by
  have hchildren : putAside isTemplate m.children = m.children := by
    rw [h]
    cases isTemplate with
    | true => simp [putAside, Function.comp_def]
    | false => rfl
  unfold aside
  rw [hchildren]
  cases m
  rfl

theorem outline_hidden (n : Node) (b : Behavior) :
    ((aside true n).attached b).outline = n.outline :=
  (Node.outline_attached _ _).trans (outline_aside n)

theorem behaviors_hidden (n : Node) (b : Behavior) {way : List Nat} (h : way ≠ []) :
    (((aside true n).attached b).descendant? way).map (·.behaviors) =
      (n.descendant? way).map (·.behaviors) := by
  rw [descendant?_attached h]
  exact (becomes_hidden n).map way fun _ _ => behaviors_of_retouched h

theorem takeLooks_hidden (n : Node) (b : Behavior) (edit : EditBox) :
    takeLooks ((aside true n).attached b) edit = takeLooks n edit :=
  takeLooks_congr (outline_hidden n b) (fun _ => behaviors_hidden n b) edit

theorem editBoxOf_aside (isTemplate : Bool) (e : Element) (n : Node) :
    editBoxOf e ((aside isTemplate n).attached (.editBox (editBoxOf e n))) = editBoxOf e n := by
  rw [editBoxOf_eq, editBox?_attached_self, Option.getD_some]
  cases isTemplate with
  | true => rw [takeLooks_hidden, editBoxOf_eq, overlayEditBox_takeLooks]
  | false =>
    rw [takeLooks_of_childless (Node.children_attached _ _), editBoxOf_eq,
      overlayEditBox_overlayEditBox]

theorem textInput_repeats : (textInput : Importer ω).Repeats := by
  intro scope e n _ _
  refine repeats_of_attach (textInput_eq scope e n) ?_
  rw [textInput_eq, editBoxOf_aside, aside_of_children (Node.children_attached _ _)]

end Widget

theorem button_repeats : (Registry.button : Importer ω).Repeats :=
  fun _ _ n _ _ => ⟨n, [], .pure n, .pure n⟩

/-- An import of what has been imported gives the same node and reports the same once more. -/
theorem Registry.importAs_repeats (widget : String) (scope : ImportScope ω)
    (hlocator : scope.locator.Constant) (e : Element) (n : Node) (s : Surroundings ω) :
    let first := builtIn.importAs widget scope e n s
    let second := builtIn.importAs widget scope e first.1 first.2
    second.1 = first.1 ∧ ∃ added, first.2.diagnostics = s.diagnostics ++ added ∧
      second.2.diagnostics = first.2.diagnostics ++ added := by
  have hrepeats : ∃ made ds, (builtIn.importAs widget scope e n).Tells made ds ∧
      (builtIn.importAs widget scope e made).Tells made ds := by
    unfold importAs
    cases hi : (builtIn : Registry ω).importer? widget with
    | none => exact ⟨n, [], .pure n, .pure n⟩
    | some i =>
      have hi : Importer.Repeats i := builtIn_cases Widget.image_repeats Widget.label_repeats
        Widget.bitmapLabel_repeats Widget.scrollBar_repeats Widget.scroller_repeats
        Widget.progressBar_repeats Widget.textInput_repeats button_repeats (mem_of_importer? hi)
      exact hi scope e n hlocator s.world
  obtain ⟨made, ds, hfirst, hsecond⟩ := hrepeats
  obtain ⟨hmade, hadded⟩ := hfirst s
  dsimp only
  rw [hmade]
  obtain ⟨hsame, hagain⟩ := hsecond (builtIn.importAs widget scope e n s).2
  exact ⟨hsame, ds, hadded, hagain⟩

theorem Catalog.locator_constant (c : Catalog) : c.locator.Constant :=
  ⟨fun _ _ _ _ => rfl, fun _ _ _ => rfl, fun _ _ _ => rfl⟩

/-- A score in a font that is not found is the same label after a second import, which reports the
missing font once more. -/
theorem Registry.score_repeats :
    let scope : ImportScope World := {
      assets := .empty
      locator := Catalog.locator {}
      source := ⟨"main.exml"⟩
      isTemplate := false }
    let e : Element := { localName := "BitmapLabel", attributes := [("font", "digits_fnt")] }
    let first := builtIn.importAs "BitmapLabel" scope e { name := "score" } { world := {} }
    let second := builtIn.importAs "BitmapLabel" scope e first.1 first.2
    scope.locator.Constant ∧ second.1 = first.1 ∧ first.2.diagnostics.length = 1 ∧
      second.2.diagnostics = first.2.diagnostics ++ first.2.diagnostics := by
  intro scope e first second
  have hlocator : scope.locator.Constant := Catalog.locator_constant {}
  obtain ⟨hsame, added, hfirst, hsecond⟩ :=
    importAs_repeats "BitmapLabel" scope hlocator e { name := "score" } { world := {} }
  refine ⟨hlocator, hsame, by decide +kernel, hsecond.trans ?_⟩
  have hadded : first.2.diagnostics = added := hfirst
  rw [hadded]

end MarkupScene
