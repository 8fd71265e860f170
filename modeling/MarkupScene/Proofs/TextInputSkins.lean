import MarkupScene.Proofs.RepeatedImports
import MarkupScene.Proofs.SkinInstances

/-!
# Skins of text inputs

A text input is imported twice. As the root of a skin it takes its looks from its children and hides
them; where the skin is used its copy takes them once more from the hidden children and drops these.
The main statement is that the second time changes nothing but what the use says: the edit box of the
use is the one of the stored skin with the attributes of the use laid over it. There is one exception.
A skin whose prompt is set to nothing is stored without a placeholder, and its uses fill it with the
text of the prompt that the skin shows.
-/
namespace MarkupScene

open Numeric

variable {ω : Type}

/-- An edit box with the attributes of an element laid over it. A prompt and a text are taken as they
are, a length when it starts with a number, and a flag when it is not empty. -/
structure EditBox.IsOverlay (edit : EditBox) (e : Element) (own : EditBox) : Prop where
  placeholder : edit.placeholder = (e.attribute? "prompt").getD own.placeholder
  text : edit.text = (e.attribute? "text").getD own.text
  maxLength : edit.maxLength = ((e.single? "maxChars").map Floating.toWord).getD own.maxLength
  password : edit.password =
    ((e.filled? "displayAsPassword").map Element.isTrue).getD own.password
  looks : edit = { own with
    placeholder := edit.placeholder
    text := edit.text
    maxLength := edit.maxLength
    password := edit.password }

theorem Element.candidates_of_childless {e : Element} (h : e.children = []) :
    e.candidates = [] := by
  unfold candidates inlineSkin? child?
  rw [h]
  rfl

namespace Widget

theorem isOverlay_overlayEditBox (e : Element) (own : EditBox) :
    (overlayEditBox e own).IsOverlay e own :=
  ⟨rfl, rfl, rfl, rfl, rfl⟩

def promptText? (n : Node) : Option String :=
  ((namedDescendant? n "promptDisplay").bind (·.label?)).map (·.text)

theorem promptText?_hidden (n : Node) (b : Behavior) :
    promptText? ((aside true n).attached b) = promptText? n :=
  congrArg (Option.map Label.text) <| namedDescendant?_bind_congr (outline_hidden n b)
    (fun _ => behaviors_hidden n b) (List.findSome? Behavior.label?) "promptDisplay"

/-- Looks that have been taken before are taken again without a change, except that an empty
placeholder is filled. -/
theorem takeLooks_overlayEditBox (e : Element) (n : Node) (own : EditBox) :
    takeLooks n (overlayEditBox e (takeLooks n own)) =
      let edit := overlayEditBox e (takeLooks n own)
      { edit with placeholder := fillPlaceholder (promptText? n) edit.placeholder } := by
  simp only [overlayEditBox, takeLooks_eq, getD_getD, or_or, promptText?]

theorem takeLooks_of_children {m n : Node} (h : m.children = n.children) (edit : EditBox) :
    takeLooks m edit = takeLooks n edit := by
  refine takeLooks_congr (congrArg (List.map Node.bare) h) ?_ edit
  intro way hway
  cases way with
  | nil => exact absurd rfl hway
  | cons i way => rw [Node.descendant?_cons, Node.descendant?_cons, h]

theorem fillPlaceholder_overlayEditBox {e : Element} (n : Node)
    (h : e.attribute? "prompt" ≠ some "") :
    fillPlaceholder (promptText? n) (overlayEditBox e (takeLooks n plainEditBox)).placeholder =
      (overlayEditBox e (takeLooks n plainEditBox)).placeholder := by
  simp only [overlayEditBox, takeLooks_eq, promptText?]
  cases hset : e.attribute? "prompt" with
  | none => exact placeholder_twice none _ _
  | some text =>
    have hfilled : text.isEmpty = false := by
      rw [String.isEmpty_eq_false_iff]
      rintro rfl
      exact h hset
    simp [fillPlaceholder, hfilled]

end Widget

namespace Setting

open Widget

variable {setting : Setting ω} {source : Path} {e element : Element} {override : Option String}
  {n made root : Node} {s t : Session ω}

theorem imported_textInput (hregistry : setting.registry = .builtIn)
    (hmade : (setting.importNode source e override (some "TextInput") n).run s = (.ok made, t)) :
    made = (aside override.isSome n).attached (.editBox (editBoxOf e n)) := by
  rw [importNode_eq, hregistry] at hmade
  have hresult := Except.ok.inj (congrArg Prod.fst hmade).symm
  rw [hresult]
  exact Importing.Makes.attached_eq (setting.importScope source override) _ _ _

theorem editBox?_of_skin (hn : n.behaviors = []) :
    ((aside true n).attached (.editBox (editBoxOf element n))).editBox? =
      some (overlayEditBox element (takeLooks n plainEditBox)) := by
  have hnone : n.editBox? = none := by
    rw [Node.editBox?, hn]
    rfl
  rw [editBox?_attached_self, editBoxOf_eq, hnone]
  rfl

theorem rootWidget?_of_keys (file : setting.skins.File) {widget : String} (hwidget : widget ≠ "")
    (hkeys : ∀ entry ∈ setting.skins.entries.entries, entry.2 = file.1 →
      Skin.widgetOf entry.1 = widget) : setting.rootWidget? file.1 = some widget := by
  have hnormal := SkinTable.normalize_of_mem_paths file.2
  obtain ⟨entry, hentry, hpath⟩ := List.mem_map.1 (SkinTable.mem_firstOnly.1 file.2)
  have hfound : (setting.skins.entries.entries.find? fun e => e.2 = file.1.normalize).isSome := by
    rw [List.find?_isSome]
    exact ⟨entry, hentry, by simpa [hnormal] using hpath⟩
  obtain ⟨first, hfirst⟩ := Option.isSome_iff_exists.1 hfound
  have hsame : first.2 = file.1 := by
    have h := List.find?_some hfirst
    rw [hnormal] at h
    exact of_decide_eq_true h
  have hname := hkeys first (List.mem_of_find?_eq_some hfirst) hsame
  unfold rootWidget? SkinTable.keyOf?
  rw [hfirst, Option.map_some, Option.map_some, hname]
  simp [hwidget]

theorem accepted_textInput (hregistry : setting.registry = .builtIn) (element : Element) :
    setting.accepted element (some "TextInput") = element.candidates := by
  refine List.filter_eq_self.2 fun k _ => ?_
  unfold acceptsUnder
  rw [hregistry]
  rfl

theorem fileFor?_of_lookup? {file : setting.skins.File}
    (h : setting.lookup? e override = some file) :
    override = none ∧ setting.skins.fileFor? e = some file := by
  unfold lookup? at h
  split at h
  · cases h
  · next hlooks =>
    rw [Bool.or_eq_true, not_or, Option.not_isSome_iff_eq_none] at hlooks
    exact ⟨hlooks.1, h⟩

theorem Origin.plain_of_override {j : Journal ω} {stack : List Path} {widget : String}
    {result : Except Failure Node} (h : setting.Origin j stack e (some widget) result) :
    result = .ok { name := e.nodeName } := by
  have hnone : ∀ file, setting.lookup? e (some widget) ≠ some file := fun file hfile =>
    nomatch (fileFor?_of_lookup? hfile).1
  cases h with
  | plain _ => rfl
  | cyclic h _ => exact absurd h (hnone _)
  | unread h _ _ _ => exact absurd h (hnone _)
  | copied h _ _ => exact absurd h (hnone _)
  | stopped h _ _ => exact absurd h (hnone _)

/-- A text input without children that is an instance of a skin, in the run of a journal. All keys of
the skin are those of text inputs. -/
structure UsesInput (setting : Setting ω) (j : Journal ω) (file : setting.skins.File) (e : Element)
    (made : Node) : Prop where
  registry : setting.registry = .builtIn
  grown : ∃ stack source parent, setting.Grown (Begins j stack) source e none parent made
  widget : widgetFor e none = some "TextInput"
  childless : e.children = []
  looked : setting.skins.fileFor? e = some file
  isInstance : made.isSkinInstance = true
  keys : ∀ entry ∈ setting.skins.entries.entries, entry.2 = file.1 →
    Skin.widgetOf entry.1 = "TextInput"

/-- What a use of a skin of text inputs has from the root of the skin. -/
structure InheritsInput (setting : Setting ω) (begins : Element → Option String → Node → Prop)
    (file : Path) (element e : Element) (root made : Node) : Prop where
  /-- The use has no children. -/
  gone : made.children = []
  /-- The skin has all of its children and hides them. -/
  kept : ∃ kids, List.Forall₂ (setting.Grown begins file · none (some root.size))
      element.candidates kids ∧ root.children = kids.map fun c => { c with active := false }
  overlaid : element.attribute? "prompt" ≠ some "" → ∃ own edit, root.editBox? = some own ∧
    made.editBox? = some edit ∧ edit.IsOverlay e own
  /-- A prompt that the skin sets to nothing comes back. -/
  refilled : element.attribute? "prompt" = some "" → ∃ own edit, root.editBox? = some own ∧
    own.placeholder = "" ∧ made.editBox? = some edit ∧
      edit.IsOverlay e { own with placeholder := (promptText? root).getD "" }

section
variable {begins : Element → Option String → Node → Prop} {parent : Option Size}

theorem Grown.textInputSkin (hregistry : setting.registry = .builtIn)
    (hplain : ∀ {fresh}, begins element (some "TextInput") fresh →
      fresh = { name := element.nodeName })
    (hroot : setting.Grown begins source element (some "TextInput") none root) :
    ∃ n, List.Forall₂ (setting.Grown begins source · none (some root.size)) element.candidates
        n.children ∧ n.behaviors = [] ∧
      root = (aside true n).attached (.editBox (editBoxOf element n)) := by
  cases hroot with
  | @node _ _ _ fresh _ kids _ _ hstart hlength hchildren himported =>
    obtain rfl := hplain hstart
    have hroot := imported_textInput hregistry himported
    rw [accepted_textInput hregistry] at hlength hchildren
    refine ⟨_, ?_, rfl, hroot⟩
    rw [hroot, Node.size_attached]
    exact List.forall₂_iff_zip.2 ⟨hlength, fun hk => hchildren _ _ hk⟩

/-- The use of a skin of text inputs takes its looks from what it starts as and drops them. -/
theorem Grown.textInputUse (hregistry : setting.registry = .builtIn)
    (hwidget : widgetFor e none = some "TextInput") (hchildless : e.children = [])
    (hmade : setting.Grown begins source e none parent made) :
    ∃ fresh, begins e none fresh ∧ made.children = [] ∧ made.skin = fresh.skin ∧
      made.editBox? =
        some (overlayEditBox e (takeLooks fresh (fresh.editBox?.getD plainEditBox))) := by
  cases hmade with
  | @node _ _ _ fresh _ kids _ _ hstart hlength hchildren himported =>
    have hkids : kids = [] := by
      unfold accepted at hlength
      rw [Element.candidates_of_childless hchildless] at hlength
      exact List.length_eq_zero_iff.1 hlength.symm
    subst hkids
    rw [hwidget] at himported
    have hmade := imported_textInput hregistry himported
    refine ⟨fresh, hstart, ?_, ?_, ?_⟩
    · rw [hmade, Node.children_attached]
      rfl
    · rw [hmade, Node.skin_attached]
      rfl
    · have hlooks := takeLooks_of_children (m := setting.assembled e none parent fresh [])
        (n := fresh) (List.append_nil _)
      rw [hmade, editBox?_attached_self, editBoxOf_eq, hlooks]
      rfl

/-- The second time takes what the first time has taken. -/
theorem inheritsInput_of_root {file : Path} {fresh : Node} {handle : PrefabRef} {name : String}
    (hchildren : List.Forall₂ (setting.Grown begins file · none (some root.size))
      element.candidates n.children) (hplain : n.behaviors = [])
    (hroot : root = (aside true n).attached (.editBox (editBoxOf element n)))
    (hfresh : fresh = { root with name, skin := some handle }) (hgone : made.children = [])
    (hedit : made.editBox? =
      some (overlayEditBox e (takeLooks fresh (fresh.editBox?.getD plainEditBox)))) :
    setting.InheritsInput begins file element e root made := by
  have hown : root.editBox? = some (overlayEditBox element (takeLooks n plainEditBox)) := by
    rw [hroot]
    exact editBox?_of_skin hplain
  have hagain : takeLooks fresh (fresh.editBox?.getD plainEditBox) =
      takeLooks n (overlayEditBox element (takeLooks n plainEditBox)) := by
    have hsame : fresh.editBox? = root.editBox? := by rw [hfresh]; rfl
    rw [hsame, hown, Option.getD_some, takeLooks_of_children (n := root) (by rw [hfresh]), hroot,
      takeLooks_hidden]
  rw [hagain, takeLooks_overlayEditBox] at hedit
  refine ⟨hgone, ⟨n.children, hchildren, ?_⟩, fun hprompt => ?_, fun hprompt => ?_⟩
  · rw [hroot, Node.children_attached]
    rfl
  · refine ⟨_, _, hown, hedit, ?_⟩
    dsimp only
    rw [fillPlaceholder_overlayEditBox n hprompt]
    exact isOverlay_overlayEditBox e _
  · have hempty : (overlayEditBox element (takeLooks n plainEditBox)).placeholder = "" := by
      unfold overlayEditBox
      rw [hprompt]
      rfl
    refine ⟨_, _, hown, hempty, hedit, ?_⟩
    dsimp only
    rw [hempty, hroot, promptText?_hidden]
    exact isOverlay_overlayEditBox e _

end

/-- In every run, the uses of a skin of text inputs inherit from the root that was stored for it. -/
theorem textInput_inherits {world : ω} {paths : List Path} {file : setting.skins.File}
    (huse : setting.UsesInput (setting.runJournal world paths) file e made) :
    ∃ root handle below before element,
      .stored (setting.prefabOf file.1 root) (.ok handle) ∈ setting.runJournal world paths ∧
        made.skin = some handle ∧ .began below file.1 before ∈ setting.runJournal world paths ∧
        setting.sources.document file.1 before.world = .ok element ∧
        setting.InheritsInput (Begins (setting.runJournal world paths) (file.1 :: below)) file.1
          element e root made := by
  have haccounted : setting.Accounted (setting.watchRun world paths) :=
    watchRun_induction (setting.accounted world) paths
  obtain ⟨stack, source, parent, hmade⟩ := huse.grown
  obtain ⟨fresh, hstarted, hgone, hskin, hedit⟩ :=
    hmade.textInputUse huse.registry huse.widget huse.childless
  have hinstance : fresh.skin.isSome = true := hskin ▸ huse.isInstance
  have horigin : setting.Origin (setting.runJournal world paths) stack e none (.ok fresh) :=
    haccounted.started hstarted
  -- The node is an instance, so it started as a copy of the stored root.
  generalize hstart : (Except.ok fresh : Except Failure Node) = result at horigin
  cases horigin with
  | plain _ =>
    obtain rfl := Except.ok.inj hstart
    cases hinstance
  | cyclic _ _ =>
    obtain rfl := Except.ok.inj hstart
    cases hinstance
  | unread _ _ _ _ =>
    obtain rfl := Except.ok.inj hstart
    cases hinstance
  | stopped _ _ _ => cases hstart
  | @copied other root handle hlookup _ hstored =>
    obtain rfl : other = file :=
      Option.some.inj ((fileFor?_of_lookup? hlookup).2.symm.trans huse.looked)
    obtain ⟨path, root', hprefab, -, below, before, element, hbegan, hdocument, hgrown⟩ :=
      haccounted.stored hstored
    obtain rfl : other.1 = path := congrArg Prefab.source hprefab
    obtain rfl : root = root' := congrArg Prefab.root hprefab
    rw [rootWidget?_of_keys other (by decide) huse.keys] at hgrown
    have hplain : ∀ {first}, Begins (setting.runJournal world paths) (other.1 :: below) element
        (some "TextInput") first → first = { name := element.nodeName } := fun hbegins =>
      Except.ok.inj (haccounted.started hbegins).plain_of_override
    obtain ⟨n, hchildren, hn, hroot⟩ := hgrown.textInputSkin huse.registry hplain
    exact ⟨root, handle, below, before, element, hstored,
      hskin.trans (by rw [Except.ok.inj hstart]), hbegan, hdocument,
      inheritsInput_of_root hchildren hn hroot (Except.ok.inj hstart) hgone hedit⟩

/-- One file uses the skin of text inputs, which is another file. -/
def hintedInput (skin : String) : Setting Unit where
  skins := SkinTable.empty.insert "eui.TextInput" ⟨"input.exml"⟩
  sources :=
    { read := fun path _ =>
        if path = ⟨"input.exml"⟩ then .ok skin else .ok "<e:TextInput maxChars=\"12\"/>" }
  locator := .openLocator
  store := .memory

def hintedUse : Element :=
  { namePrefix := "e", localName := "TextInput", attributes := [("maxChars", "12")] }

def hintedJournal (skin : String) : Journal Unit :=
  (hintedInput skin).runJournal () [⟨"main.exml"⟩]

def hintedFile (skin : String) : (hintedInput skin).skins.File :=
  ⟨⟨"input.exml"⟩, List.mem_cons_self⟩

theorem hintedInput_document {skin : String} {world : Unit} {e : Element}
    (h : (hintedInput skin).sources.document ⟨"main.exml"⟩ world = .ok e) : e = hintedUse := by
  have hread : (Markup.readDocument "<e:TextInput maxChars=\"12\"/>").toOption = some hintedUse := by
    decide +kernel
  change (Markup.readDocument "<e:TextInput maxChars=\"12\"/>").mapError _ = .ok e at h
  cases hresult : Markup.readDocument "<e:TextInput maxChars=\"12\"/>" with
  | error failure =>
    rw [hresult] at h
    cases h
  | ok found =>
    rw [hresult] at h hread
    exact (Except.ok.inj h).symm.trans (Option.some.inj hread)

theorem hintedInput_keys (skin : String) :
    ∀ entry ∈ (hintedInput skin).skins.entries.entries, entry.2 = (hintedFile skin).1 →
      Skin.widgetOf entry.1 = "TextInput" := by
  have hkeys : ∀ entry ∈ (SkinTable.empty.insert "eui.TextInput" ⟨"input.exml"⟩).entries.entries,
      Skin.widgetOf entry.1 = "TextInput" := by decide +kernel
  exact fun entry hentry _ => hkeys entry hentry

/-- The use and the skin as the run has stored them. -/
theorem exists_hintedInput (skin hint shown : String)
    (h : ((hintedJournal skin).accepted.map fun c =>
        (c.1.source, c.1.root.skin, c.2, c.1.root.editBox?.map (·.placeholder))) =
      [(⟨"input.exml"⟩, none, ⟨"db://assets/input.prefab"⟩, some hint),
        (⟨"main.exml"⟩, some ⟨"db://assets/input.prefab"⟩, ⟨"db://assets/main.prefab"⟩,
          some shown)]) :
    ∃ made root handle own edit,
      (hintedInput skin).UsesInput (hintedJournal skin) (hintedFile skin) hintedUse made ∧
        .stored ((hintedInput skin).prefabOf ⟨"input.exml"⟩ root) (.ok handle) ∈
          hintedJournal skin ∧
        made.skin = some handle ∧ root.editBox? = some own ∧ own.placeholder = hint ∧
        made.editBox? = some edit ∧ edit.placeholder = shown := by
  have haccounted : (hintedInput skin).Accounted
      ((hintedInput skin).watchRun () [⟨"main.exml"⟩]) :=
    watchRun_induction ((hintedInput skin).accounted ()) _
  obtain ⟨⟨p, handle⟩, rest, hsplit, hp, hrest⟩ := List.map_eq_cons_iff.1 h
  obtain ⟨⟨q, other⟩, last, rfl, hq, -⟩ := List.map_eq_cons_iff.1 hrest
  simp only [Prod.mk.injEq] at hp hq
  obtain ⟨hpsource, -, rfl, hpedit⟩ := hp
  obtain ⟨hqsource, hqskin, -, hqedit⟩ := hq
  have hstored : .stored p (.ok _) ∈ hintedJournal skin :=
    Journal.mem_accepted.1 (hsplit ▸ List.mem_cons_self)
  have hused : .stored q (.ok other) ∈ hintedJournal skin :=
    Journal.mem_accepted.1 (hsplit ▸ List.mem_cons_of_mem _ List.mem_cons_self)
  obtain ⟨path, root, rfl, -, -⟩ := haccounted.stored hstored
  obtain ⟨path', made, rfl, -, below, before, e, -, hdocument, hgrown⟩ := haccounted.stored hused
  obtain rfl : path = ⟨"input.exml"⟩ := hpsource
  obtain rfl : path' = ⟨"main.exml"⟩ := hqsource
  obtain ⟨own, hown, hhint⟩ := Option.map_eq_some_iff.1 hpedit
  obtain ⟨edit, hedit, hshown⟩ := Option.map_eq_some_iff.1 hqedit
  obtain rfl : e = hintedUse := hintedInput_document hdocument
  have hkey : (SkinTable.empty.insert "eui.TextInput" ⟨"input.exml"⟩).keyOf? ⟨"main.exml"⟩ = none :=
    by decide +kernel
  have hroot : (hintedInput skin).rootWidget? ⟨"main.exml"⟩ = none := by
    rw [rootWidget?, show (hintedInput skin).skins.keyOf? ⟨"main.exml"⟩ = none from hkey]
    rfl
  rw [hroot] at hgrown
  have hfile : (SkinTable.empty.insert "eui.TextInput" ⟨"input.exml"⟩).fileFor? hintedUse =
    some ⟨⟨"input.exml"⟩, List.mem_cons_self⟩ := by decide +kernel
  have hinstance : made.isSkinInstance = true := by
    rw [Node.isSkinInstance, show made.skin = _ from hqskin]
    rfl
  have huses : (hintedInput skin).UsesInput (hintedJournal skin) (hintedFile skin) hintedUse made :=
    { registry := rfl
      grown := ⟨_, _, _, hgrown⟩
      widget := by decide +kernel
      childless := rfl
      looked := hfile
      isInstance := hinstance
      keys := hintedInput_keys skin }
  exact ⟨made, root, _, own, edit, huses, hstored, hqskin, hown, hhint, hedit, hshown⟩

def typeHere : String := "<e:Skin><e:Label id=\"promptDisplay\" text=\"Type here\"/></e:Skin>"

/-- The use shows the hint of the skin. -/
theorem typeHere_inherited :
    ∃ made edit,
      (hintedInput typeHere).UsesInput (hintedJournal typeHere) (hintedFile typeHere) hintedUse
          made ∧
        made.editBox? = some edit ∧ edit.placeholder = "Type here" ∧
        ∃ root handle below before element,
          .stored ((hintedInput typeHere).prefabOf ⟨"input.exml"⟩ root) (.ok handle) ∈
              hintedJournal typeHere ∧
            made.skin = some handle ∧ .began below ⟨"input.exml"⟩ before ∈ hintedJournal typeHere ∧
            (hintedInput typeHere).sources.document ⟨"input.exml"⟩ before.world = .ok element ∧
            (hintedInput typeHere).InheritsInput
              (Begins (hintedJournal typeHere) (⟨"input.exml"⟩ :: below)) ⟨"input.exml"⟩ element
              hintedUse root made := by
  obtain ⟨made, -, -, -, edit, huses, -, -, -, -, hedit, hshown⟩ :=
    exists_hintedInput typeHere "Type here" "Type here" (by decide +kernel)
  exact ⟨made, edit, huses, hedit, hshown, textInput_inherits huses⟩

/-- The skin shows a prompt, but sets its own to nothing. -/
def blankPrompt : String :=
  "<e:Skin prompt=\"\"><e:Label id=\"promptDisplay\" text=\"Type here\"/></e:Skin>"

/-- The stored skin has no placeholder, but its use has one that its element does not ask for. -/
theorem blankPrompt_comes_back :
    ∃ made root handle own edit,
      (hintedInput blankPrompt).UsesInput (hintedJournal blankPrompt) (hintedFile blankPrompt)
          hintedUse made ∧
        .stored ((hintedInput blankPrompt).prefabOf ⟨"input.exml"⟩ root) (.ok handle) ∈
          hintedJournal blankPrompt ∧
        made.skin = some handle ∧ root.editBox? = some own ∧ made.editBox? = some edit ∧
        own.placeholder = "" ∧ edit.placeholder = "Type here" ∧ ¬edit.IsOverlay hintedUse own := by
  obtain ⟨made, root, handle, own, edit, huses, hstored, hskin, hown, hhint, hedit, hshown⟩ :=
    exists_hintedInput blankPrompt "" "Type here" (by decide +kernel)
  refine ⟨made, root, handle, own, edit, huses, hstored, hskin, hown, hedit, hhint, hshown,
    fun hoverlay => ?_⟩
  have hsame : edit.placeholder = own.placeholder := hoverlay.placeholder
  rw [hshown, hhint] at hsame
  exact absurd hsame (by decide)

end Setting

end MarkupScene
