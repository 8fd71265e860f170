import MarkupScene.Proofs.Growth
import MarkupScene.Proofs.Importers

/-!
# Filled attributes

What building takes from the attributes of an element. Most of them are read so that an empty one
counts as missing; some are taken at their word. Of these the empty text matters only where it
takes the place of something, which is the name of an element, the prompt of a text input, or what
a copy of a skin has. The main statement is that elements are built alike that have the same filled
attributes and agree about the attributes that show when they are empty.
-/
namespace MarkupScene

variable {ω β : Type}

namespace Element

/-- Elements with the same filled attributes that agree about those of some names altogether. -/
structure SaysSame (shows : String → Prop) (e e' : Element) : Prop where
  filled : e'.filled? = e.filled?
  shown {name : String} : shows name → e'.attribute? name = e.attribute? name

theorem filled?_bind {f : String → Option β} (hempty : f "" = none) (e : Element) (name : String) :
    (e.filled? name).bind f = (e.attribute? name).bind f := by
  unfold filled?
  cases e.attribute? name with
  | none => rfl
  | some v =>
    by_cases hv : v = ""
    · subst hv
      exact hempty.symm
    · rw [Option.filter_some_pos (by simpa using hv)]

theorem filled?_getD (f : String → β) (e : Element) (name : String) :
    ((e.filled? name).map f).getD (f "") = ((e.attribute? name).map f).getD (f "") := by
  unfold filled?
  cases e.attribute? name with
  | none => rfl
  | some v =>
    by_cases hv : v = ""
    · subst hv
      rfl
    · rw [Option.filter_some_pos (by simpa using hv)]

namespace SaysSame
variable {shows shows' : String → Prop} {e e' : Element} {name : String}

theorem mono (h : SaysSame shows e e') (hsub : ∀ name, shows' name → shows name) :
    SaysSame shows' e e' :=
  ⟨h.filled, fun hname => h.shown (hsub _ hname)⟩

theorem of_attributes (shows : String → Prop) (h : e'.attribute? = e.attribute?) :
    SaysSame shows e e' := by
  refine ⟨?_, fun _ => congrFun h _⟩
  funext name
  rw [filled?, filled?, h]

section
variable (h : SaysSame shows e e')
include h

theorem bind_eq {f : String → Option β} (hempty : f "" = none) (name : String) :
    (e'.attribute? name).bind f = (e.attribute? name).bind f := by
  rw [← filled?_bind hempty, ← filled?_bind hempty, h.filled]

theorem getD_eq {f : String → β} {own : β} (hown : own = f "" ∨ shows name) :
    ((e'.attribute? name).map f).getD own = ((e.attribute? name).map f).getD own := by
  rcases hown with rfl | hshown
  · rw [← filled?_getD, ← filled?_getD, h.filled]
  · rw [h.shown hshown]

theorem text_eq {own : String} (hown : own = "" ∨ shows name) :
    (e'.attribute? name).getD own = (e.attribute? name).getD own := by
  simpa using h.getD_eq (f := id) hown

theorem textOr_eq : e'.textOr = e.textOr := by
  funext name default
  rw [textOr, textOr, h.filled]

theorem firstFilled?_eq : e'.firstFilled? = e.firstFilled? := by
  funext names
  rw [firstFilled?, firstFilled?, h.filled]

theorem single?_eq : e'.single? = e.single? := by
  funext name
  exact h.bind_eq (by decide) name

theorem singleOr_eq : e'.singleOr = e.singleOr := by
  funext name default
  rw [singleOr, singleOr, h.single?_eq]

theorem wordOr_eq : e'.wordOr = e.wordOr := by
  funext name default
  rw [wordOr, wordOr, h.single?_eq]

theorem flagOr_eq : e'.flagOr = e.flagOr := by
  funext name default
  rw [flagOr, flagOr, h.filled]

theorem color?_eq : e'.color? = e.color? := by
  funext name
  exact h.bind_eq (by decide) name

theorem declaresSize_eq : e'.declaresSize = e.declaresSize := by
  rw [declaresSize, declaresSize, h.firstFilled?_eq]

theorem placement_eq : Placement.ofElement e' = Placement.ofElement e := by
  simp only [Placement.ofElement, h.firstFilled?_eq, h.single?_eq, h.singleOr_eq, h.flagOr_eq]

end

end SaysSame

end Element

namespace Widget

/-- The widgets that show a text. -/
def labels : List String := ["Label", "EditableText", "BitmapLabel"]

/-- The attributes of a widget that show when they are empty: the prompt of a text input, and those
that are read over what a copy of a skin has. -/
inductive ShowsEmpty (copied : Prop) : String → String → Prop where
  | prompt : ShowsEmpty copied "TextInput" "prompt"
  | input : copied → ShowsEmpty copied "TextInput" "text"
  | label {widget name : String} : widget ∈ labels →
      name ∈ ["text", "textAlign", "verticalAlign"] → copied → ShowsEmpty copied widget name
  | image : copied → ShowsEmpty copied "Image" "fillMode"

theorem ShowsEmpty.mono {copied copied' : Prop} {widget name : String}
    (h : ShowsEmpty copied widget name) (hsub : copied → copied') :
    ShowsEmpty copied' widget name := by
  cases h with
  | prompt => exact .prompt
  | input hcopied => exact .input (hsub hcopied)
  | label hwidget hname hcopied => exact .label hwidget hname (hsub hcopied)
  | image hcopied => exact .image (hsub hcopied)

/-- An importer makes the same of elements that say the same, where what shows depends on whether
the node has a behavior already. -/
def OverlooksEmpty (widget : String) (i : Importer ω) : Prop :=
  ∀ scope e e' n, e.SaysSame (ShowsEmpty (n.behaviors ≠ []) widget) e' →
    i scope e' n = i scope e n

section
variable {e e' : Element} {n : Node} {widget : String}

theorem spriteKind_eq {grid : Option Rect} {own : SpriteKind} {shows : String → Prop}
    (h : e.SaysSame shows e') (hown : own = .simple ∨ shows "fillMode") :
    spriteKind e' grid own = spriteKind e grid own := by
  have hread : ∀ e : Element, spriteKind e none own =
      ((e.attribute? "fillMode").map fun mode =>
        if mode = "repeat" then SpriteKind.tiled else .simple).getD own := by
    intro e
    unfold spriteKind
    cases e.attribute? "fillMode" <;> rfl
  cases grid with
  | some _ => rfl
  | none =>
    rw [hread, hread]
    exact h.getD_eq hown

theorem image_overlooks : OverlooksEmpty "Image" (image : Importer ω) := by
  intro scope e e' n h
  have hown : (n.sprite?.getD {}).kind = .simple ∨
      ShowsEmpty (n.behaviors ≠ []) "Image" "fillMode" := by
    by_cases hnone : n.behaviors = []
    · left
      rw [Node.sprite?, hnone]
      rfl
    · exact .inr (.image hnone)
  have hgrid : (e'.attribute? "scale9Grid").bind Rect.parse? =
      (e.attribute? "scale9Grid").bind Rect.parse? := h.bind_eq (by decide) _
  unfold image sourcedSprite
  rw [h.declaresSize_eq, hgrid, h.filled]
  -- The asset does not matter to the kind that the sprite has had before.
  cases e.filled? "source" with
  | none => simp only [pure_bind, spriteKind_eq h hown]
  | some name => simp only [bind_assoc, pure_bind, spriteKind_eq h hown]

theorem labelOf_eq (hwidget : widget ∈ labels)
    (h : e.SaysSame (ShowsEmpty (n.behaviors ≠ []) widget) e') : labelOf e' n = labelOf e n := by
  have hown : n.label?.getD plainLabel = plainLabel ∨
      ∀ name ∈ ["text", "textAlign", "verticalAlign"],
        ShowsEmpty (n.behaviors ≠ []) widget name := by
    by_cases hnone : n.behaviors = []
    · left
      rw [Node.label?, hnone]
      rfl
    · exact .inr fun name hname => .label hwidget hname hnone
  unfold labelOf
  generalize n.label?.getD plainLabel = own at hown ⊢
  have hfield : ∀ {β : Type} (f : String → β) (field : Label → β) (name : String),
      field plainLabel = f "" → name ∈ ["text", "textAlign", "verticalAlign"] →
        field own = f "" ∨ ShowsEmpty (n.behaviors ≠ []) widget name := by
    intro β f field name hplain hname
    rcases hown with rfl | hshows
    · exact .inl hplain
    · exact .inr (hshows name hname)
  have htext : (e'.attribute? "text").getD own.text = (e.attribute? "text").getD own.text :=
    h.text_eq (hfield id (·.text) "text" rfl (by decide))
  have hhorizontal : ((e'.attribute? "textAlign").map horizontalAlignOf).getD own.horizontalAlign =
      ((e.attribute? "textAlign").map horizontalAlignOf).getD own.horizontalAlign :=
    h.getD_eq (hfield _ (·.horizontalAlign) "textAlign" (by decide) (by decide))
  have hvertical : ((e'.attribute? "verticalAlign").map verticalAlignOf).getD own.verticalAlign =
      ((e.attribute? "verticalAlign").map verticalAlignOf).getD own.verticalAlign :=
    h.getD_eq (hfield _ (·.verticalAlign) "verticalAlign" (by decide) (by decide))
  simp only [overlayLabel, fontSizeOf, lineHeightOf, htext, hhorizontal, hvertical, h.filled,
    h.singleOr_eq, h.color?_eq, h.flagOr_eq, h.declaresSize_eq]

theorem label_overlooks (hwidget : widget ∈ labels) :
    OverlooksEmpty widget (label : Importer ω) := by
  intro scope e e' n h
  rw [label, label, labelOf_eq hwidget h]

theorem bitmapLabel_overlooks : OverlooksEmpty "BitmapLabel" (bitmapLabel : Importer ω) := by
  intro scope e e' n h
  have hlabel := labelOf_eq (by decide) h
  simp only [bitmapLabel, hlabel, h.textOr_eq]

theorem scrollBar_overlooks (direction : Axis) :
    OverlooksEmpty widget (scrollBar direction : Importer ω) := by
  intro scope e e' n h
  simp only [scrollBar, h.flagOr_eq]

theorem scroller_overlooks : OverlooksEmpty widget (scroller : Importer ω) := by
  intro scope e e' n h
  simp only [scroller, h.textOr_eq, h.singleOr_eq, h.flagOr_eq]

theorem progressBar_overlooks : OverlooksEmpty widget (progressBar : Importer ω) := by
  intro scope e e' n h
  simp only [progressBar, h.textOr_eq, h.singleOr_eq]

theorem text_looks (n : Node) (edit : EditBox) :
    (takeBackground n (takeText n (takePrompt n edit))).text = edit.text := by
  unfold takeBackground takeText takePrompt
  split <;> split <;> split <;> rfl

theorem textInput_overlooks : OverlooksEmpty "TextInput" (textInput : Importer ω) := by
  intro scope e e' n h
  have hown : (n.editBox?.getD plainEditBox).text = "" ∨
      ShowsEmpty (n.behaviors ≠ []) "TextInput" "text" := by
    by_cases hnone : n.behaviors = []
    · left
      rw [Node.editBox?, hnone]
      rfl
    · exact .inr (.input hnone)
  rw [← text_looks n] at hown
  have hprompt : e'.attribute? "prompt" = e.attribute? "prompt" := h.shown .prompt
  simp only [textInput, editBoxOf, overlayEditBox, hprompt, h.text_eq hown, h.wordOr_eq,
    h.flagOr_eq]

end

end Widget

namespace Registry

theorem builtIn_overlooks {widget : String} {i : Importer ω}
    (h : (builtIn : Registry ω).importer? widget = some i) : Widget.OverlooksEmpty widget i := by
  have hmem : (widget, i) ∈ builtInImporters := mem_of_importer? h
  simp only [builtInImporters, List.mem_cons, Prod.mk.injEq, List.not_mem_nil, or_false] at hmem
  rcases hmem with ⟨rfl, rfl⟩ | ⟨rfl, rfl⟩ | ⟨rfl, rfl⟩ | ⟨rfl, rfl⟩ | ⟨rfl, rfl⟩ | ⟨rfl, rfl⟩ |
    ⟨rfl, rfl⟩ | ⟨rfl, rfl⟩ | ⟨rfl, rfl⟩ | ⟨rfl, rfl⟩
  · exact Widget.image_overlooks
  · exact Widget.label_overlooks (by decide)
  · exact Widget.label_overlooks (by decide)
  · exact Widget.bitmapLabel_overlooks
  · exact Widget.scrollBar_overlooks .horizontal
  · exact Widget.scrollBar_overlooks .vertical
  · exact Widget.scroller_overlooks
  · exact Widget.progressBar_overlooks
  · exact Widget.textInput_overlooks
  · exact fun _ _ _ _ _ => rfl

theorem builtIn_accepts (widget : String) (c c' : Element) :
    (builtIn : Registry ω).accepts widget c' = (builtIn : Registry ω).accepts widget c := by
  have hconst : ∀ names : List String, ∀ check,
      (names.map fun name => (name, fun _ : Element => false)).lookup widget = some check →
        check c' = check c := by
    intro names check hcheck
    obtain ⟨before, after, hsplit, -⟩ := List.lookup_eq_some_iff.1 hcheck
    have hmem : (widget, check) ∈ names.map fun name => (name, fun _ : Element => false) := by
      rw [hsplit]
      exact List.mem_append_right _ List.mem_cons_self
    obtain ⟨name, -, hname⟩ := List.mem_map.1 hmem
    rw [← (Prod.mk.inj hname).2]
  unfold Registry.accepts
  cases hcheck : (builtIn : Registry ω).checks.lookup widget with
  | none => rfl
  | some check => exact hconst leaves check hcheck

end Registry

namespace Element

section
variable {R : Element → Element → Prop} {e e' : Element}
  (hname : ∀ {c c'}, R c c' → c'.localName = c.localName)
  (hchildren : ∀ {c c'}, R c c' → List.Forall₂ R c.children c'.children)

include hname

theorem child?_rel (h : List.Forall₂ R e.children e'.children) (name : String) :
    Option.Rel R (e.child? name) (e'.child? name) := by
  unfold child?
  generalize e.children = es at h ⊢
  generalize e'.children = es' at h ⊢
  induction h with
  | nil => exact .none
  | @cons c c' _ _ hc _ ih =>
    rw [List.find?_cons, List.find?_cons, hname hc]
    cases decide (c.localName = name) with
    | true => exact .some hc
    | false => exact ih

include hchildren

theorem inlineSkin?_rel (h : List.Forall₂ R e.children e'.children) :
    Option.Rel (List.Forall₂ R) e.inlineSkin? e'.inlineSkin? := by
  have hblock := child?_rel hname h "skinName"
  unfold inlineSkin?
  generalize e.child? "skinName" = block at hblock ⊢
  generalize e'.child? "skinName" = block' at hblock ⊢
  cases hblock with
  | none => exact .none
  | @some block block' hblock =>
    have hskins := hchildren hblock
    apply Option.Rel.some
    dsimp only
    generalize block.children = skins at hskins ⊢
    generalize block'.children = skins' at hskins ⊢
    cases hskins with
    | nil => exact .nil
    | cons hskin _ => exact hchildren hskin

theorem isSome_inlineSkin?_eq (h : List.Forall₂ R e.children e'.children) :
    e'.inlineSkin?.isSome = e.inlineSkin?.isSome := by
  have hskin := inlineSkin?_rel hname hchildren h
  generalize e.inlineSkin? = skin at hskin ⊢
  generalize e'.inlineSkin? = skin' at hskin ⊢
  cases hskin <;> rfl

theorem candidates_rel (h : List.Forall₂ R e.children e'.children) :
    List.Forall₂ R e.candidates e'.candidates := by
  have hskin := inlineSkin?_rel hname hchildren h
  unfold candidates
  generalize e.inlineSkin? = skin at hskin ⊢
  generalize e'.inlineSkin? = skin' at hskin ⊢
  cases hskin with
  | none => exact h
  | some hskin => exact hskin

end

end Element

/-- The table has a skin for the node of an element, which starts as a copy of it. -/
def SkinTable.Copied (t : SkinTable) (e : Element) (override : Option String) : Prop :=
  (override.isSome || e.inlineSkin?.isSome) = false ∧ (t.fileFor? e).isSome

namespace Element

/-- The attributes of an element that show when they are empty: its name, the key of a skin when
there is an empty key, and those of its widget. -/
inductive ShowsEmpty (skins : SkinTable) (e : Element) (override : Option String) :
    String → Prop where
  | id : e.localName ≠ "" → ShowsEmpty skins e override "id"
  | skinName : (skins.get? "").isSome → ShowsEmpty skins e override "skinName"
  | widget {widget name : String} : widgetFor e override = some widget →
      Widget.ShowsEmpty (skins.Copied e override) widget name → ShowsEmpty skins e override name

/-- Trees whose elements say the same, one by one, up to empty attributes that do not show. -/
inductive SameFilled (skins : SkinTable) : Option String → Element → Element → Prop where
  | element {override : Option String} {e e' : Element} (localName : e'.localName = e.localName)
      (skinKey : e'.skinKey = e.skinKey)
      (attributes : e.SaysSame (ShowsEmpty skins e override) e')
      (children : List.Forall₂ (SameFilled skins none) e.children e'.children) :
      SameFilled skins override e e'

namespace SameFilled
variable {skins : SkinTable} {override : Option String} {e e' : Element}

theorem localName (h : SameFilled skins override e e') : e'.localName = e.localName := by
  cases h with
  | element hname _ _ _ => exact hname

theorem skinKey (h : SameFilled skins override e e') : e'.skinKey = e.skinKey := by
  cases h with
  | element _ hkey _ _ => exact hkey

theorem attributes (h : SameFilled skins override e e') :
    e.SaysSame (ShowsEmpty skins e override) e' := by
  cases h with
  | element _ _ hattributes _ => exact hattributes

theorem children (h : SameFilled skins override e e') :
    List.Forall₂ (SameFilled skins none) e.children e'.children := by
  cases h with
  | element _ _ _ hchildren => exact hchildren

theorem candidates (h : SameFilled skins override e e') :
    List.Forall₂ (SameFilled skins none) e.candidates e'.candidates :=
  candidates_rel (fun h => h.localName) (fun h => h.children) h.children

theorem nodeName (h : SameFilled skins override e e') : e'.nodeName = e.nodeName := by
  have hown : e.localName = "" ∨ ShowsEmpty skins e override "id" := by
    by_cases hnameless : e.localName = ""
    · exact .inl hnameless
    · exact .inr (.id hnameless)
  rw [Element.nodeName, Element.nodeName, h.localName, h.attributes.text_eq hown]

theorem widgetFor (h : SameFilled skins override e e') (other : Option String) :
    widgetFor e' other = widgetFor e other := by
  unfold MarkupScene.widgetFor
  rw [h.skinKey]

theorem fileFor? (h : SameFilled skins override e e') : skins.fileFor? e' = skins.fileFor? e := by
  have hkey : (e'.attribute? "skinName").bind skins.file? =
      (e.attribute? "skinName").bind skins.file? := by
    by_cases hempty : (skins.get? "").isSome
    · rw [h.attributes.shown (.skinName hempty)]
    · refine h.attributes.bind_eq ?_ _
      unfold SkinTable.file?
      split
      · next hfile => simp [hfile] at hempty
      · rfl
  rw [SkinTable.fileFor?, SkinTable.fileFor?, hkey, h.skinKey]

end SameFilled

end Element

namespace Setting
variable {setting : Setting ω} {e e' : Element} {override : Option String}

/-- Checks do not look at the child at all, and importers overlook empty attributes. -/
structure OverlooksEmpty (setting : Setting ω) : Prop where
  accepts (widget : String) (c c' : Element) :
    setting.registry.accepts widget c' = setting.registry.accepts widget c
  imports {widget : String} {i : Importer ω} : setting.registry.importer? widget = some i →
    Widget.OverlooksEmpty widget i

theorem overlooksEmpty_of_builtIn (h : setting.registry = .builtIn) : setting.OverlooksEmpty where
  accepts widget c c' := by rw [h, Registry.builtIn_accepts]
  imports {widget i} hi := by
    rw [h] at hi
    exact Registry.builtIn_overlooks hi

theorem copied_of_lookup? {file : setting.skins.File} (h : setting.lookup? e override = some file) :
    setting.skins.Copied e override := by
  unfold lookup? at h
  split at h
  · cases h
  · next hplain => exact ⟨by simpa using hplain, Option.isSome_of_eq_some h⟩

theorem lookup?_eq_of_sameFilled (h : e.SameFilled setting.skins override e') :
    setting.lookup? e' override = setting.lookup? e override := by
  have hinline : e'.inlineSkin?.isSome = e.inlineSkin?.isSome :=
    Element.isSome_inlineSkin?_eq (fun h => h.localName) (fun h => h.children) h.children
  rw [lookup?, lookup?, hinline, h.fileFor?]

theorem importNode_eq_of_sameFilled (hover : setting.OverlooksEmpty)
    (h : e.SameFilled setting.skins override e') (source : Path) {n : Node}
    (hcopied : n.behaviors ≠ [] → setting.skins.Copied e override) :
    setting.importNode source e' override (widgetFor e override) n =
      setting.importNode source e override (widgetFor e override) n := by
  rw [importNode_eq, importNode_eq]
  cases himporter : (widgetFor e override).bind setting.registry.importer? with
  | none => rfl
  | some i =>
    obtain ⟨w, hwidget, hi⟩ := Option.bind_eq_some_iff.1 himporter
    have hsays := h.attributes.mono fun name hname => .widget hwidget (.mono hname hcopied)
    dsimp only
    rw [hover.imports hi _ e e' n hsays]

/-- Trees that say the same are built alike. -/
theorem build_eq_of_sameFilled (hover : setting.OverlooksEmpty) (copy : setting.Instantiate)
    (source : Path) (h : e.SameFilled setting.skins override e') (parent : Option Size) :
    setting.build (setting.startNode copy) source e' override parent =
      setting.build (setting.startNode copy) source e override parent := by
  have haccepts : ∀ under c c', setting.acceptsUnder under c' = setting.acceptsUnder under c := by
    intro under c c'
    cases under with
    | none => rfl
    | some w => exact hover.accepts w c c'
  -- Elements change along the way, so the induction is over building the first tree.
  refine build.induct setting (setting.startNode copy) source
    (fun e override parent => ∀ e', e.SameFilled setting.skins override e' →
      setting.build (setting.startNode copy) source e' override parent =
        setting.build (setting.startNode copy) source e override parent)
    (fun under size es => ∀ es', List.Forall₂ (Element.SameFilled setting.skins none) es es' →
      setting.buildAll (setting.startNode copy) source under size es' =
        setting.buildAll (setting.startNode copy) source under size es)
    ?_ ?_ ?_ ?_ e override parent e' h
  · intro e override parent ih e' h
    -- A node that starts plain has no behaviors yet.
    have hrest : ∀ fresh : Node, (fresh.behaviors ≠ [] → setting.skins.Copied e override) →
        (setting.buildAll (setting.startNode copy) source (widgetFor e override)
            (setting.innerSize e parent fresh) e'.candidates >>= fun kids =>
          setting.importNode source e' override (widgetFor e override)
            (setting.assembled e override parent fresh kids)) =
        (setting.buildAll (setting.startNode copy) source (widgetFor e override)
            (setting.innerSize e parent fresh) e.candidates >>= fun kids =>
          setting.importNode source e override (widgetFor e override)
            (setting.assembled e override parent fresh kids)) := by
      intro fresh hcopied
      refine (congrArg (· >>= _) (ih fresh _ h.candidates)).trans ?_
      exact bind_congr fun kids => importNode_eq_of_sameFilled hover h source hcopied
    rw [build, build, startNode_eq, startNode_eq, lookup?_eq_of_sameFilled h, h.nodeName,
      h.widgetFor, h.attributes.placement_eq]
    cases hlookup : setting.lookup? e override with
    | none =>
      rw [pure_bind, pure_bind]
      exact hrest _ fun hsome => absurd rfl hsome
    | some file => exact bind_congr fun fresh => hrest fresh fun _ => copied_of_lookup? hlookup
  · intro under size es' hes
    cases hes
    rfl
  · intro under size c rest haccept ihrest ihc es' hes
    cases hes with
    | @cons _ c' _ rest' hc hrest =>
      rw [buildAll, buildAll, haccepts under c c', ihc c' hc, ihrest rest' hrest]
  · intro under size c rest hreject ihrest es' hes
    cases hes with
    | @cons _ c' _ rest' hc hrest =>
      rw [buildAll, buildAll, haccepts under c c', ihrest rest' hrest]
      simp only [hreject]
      rfl

end Setting

end MarkupScene
