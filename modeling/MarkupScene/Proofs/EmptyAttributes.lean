import MarkupScene.Proofs.FilledAttributes
import MarkupScene.Proofs.NamespaceScopes
import MarkupScene.Proofs.RewordedFiles

/-!
# Empty attributes

An attribute that is set to the empty text should count as a missing one. The main statement is
that it does, at any element of any file, unless the attribute is one of those that show when they
are empty: setting it to the empty text or taking it away makes the same run. Each of the others
tells the two apart.
-/
namespace MarkupScene

open Text

variable {ω : Type}

namespace Element

/-- The attributes with one of them set, in its place or at the end. -/
def setAttribute (name value : String) : List (String × String) → List (String × String)
  | [] => [(name, value)]
  | a :: rest => if a.1 = name then (name, value) :: rest else a :: setAttribute name value rest

def set (e : Element) (name value : String) : Element :=
  { e with attributes := setAttribute name value e.attributes }

def without (e : Element) (name : String) : Element :=
  { e with attributes := e.attributes.filter fun a => a.1 ≠ name }

/-- The element with a change at the end of a way, when the way leads somewhere. -/
def modifyAt (e : Element) (f : Element → Element) : List Nat → Element
  | [] => f e
  | i :: way => { e with children := e.children.modify i fun c => c.modifyAt f way }

theorem attribute?_set (e : Element) (name value other : String) :
    (e.set name value).attribute? other =
      if other = name then some value else e.attribute? other := by
  change (setAttribute name value e.attributes).lookup other =
    if other = name then some value else e.attributes.lookup other
  induction e.attributes with
  | nil => rw [setAttribute, Dictionary.lookup_entry]
  | cons a rest ih =>
    obtain ⟨k, v⟩ := a
    rw [setAttribute]
    by_cases hk : k = name
    · subst hk
      rw [if_pos rfl, Dictionary.lookup_entry, Dictionary.lookup_entry]
      split <;> rfl
    · rw [if_neg hk, Dictionary.lookup_entry, Dictionary.lookup_entry, ih]
      by_cases hother : other = k
      · subst hother
        rw [if_pos rfl, if_neg hk, if_pos rfl]
      · rw [if_neg hother, if_neg hother]

theorem attribute?_without (e : Element) (name other : String) :
    (e.without name).attribute? other = if other = name then none else e.attribute? other := by
  change (e.attributes.filter fun a => a.1 ≠ name).lookup other =
    if other = name then none else e.attributes.lookup other
  induction e.attributes with
  | nil => simp
  | cons a rest ih =>
    obtain ⟨k, v⟩ := a
    by_cases hk : k = name
    · subst hk
      rw [List.filter_cons_of_neg (by simp), ih, Dictionary.lookup_entry]
      split <;> rfl
    · rw [List.filter_cons_of_pos (by simpa using hk), Dictionary.lookup_entry,
        Dictionary.lookup_entry, ih]
      by_cases hother : other = k
      · subst hother
        rw [if_pos rfl, if_neg hk, if_pos rfl]
      · rw [if_neg hother, if_neg hother]

theorem filled?_set_empty (e : Element) (name : String) :
    (e.without name).filled? = (e.set name "").filled? := by
  funext other
  rw [filled?, filled?, attribute?_set, attribute?_without]
  by_cases hother : other = name
  · rw [if_pos hother, if_pos hother]
    rfl
  · rw [if_neg hother, if_neg hother]

theorem ShowsEmpty.of_plain {skins : SkinTable} {e : Element} {override : Option String}
    {name : String} (h : e.ShowsEmpty skins override name) (hplain : ¬skins.Copied e override) :
    name = "id" ∨ name = "skinName" ∨ name = "prompt" := by
  cases h with
  | id _ => exact .inl rfl
  | skinName _ => exact .inr (.inl rfl)
  | widget _ hshows =>
    cases hshows with
    | prompt => exact .inr (.inr rfl)
    | input hcopied => exact absurd hcopied hplain
    | label _ _ hcopied => exact absurd hcopied hplain
    | image hcopied => exact absurd hcopied hplain

namespace SameFilled
variable {skins : SkinTable} {override : Option String}

theorem refl (skins : SkinTable) (override : Option String) (e : Element) :
    SameFilled skins override e e :=
  .element rfl rfl (.of_attributes _ rfl) <|
    List.forall₂_same.2 fun c _ => refl skins none c
termination_by sizeOf e
decreasing_by
  exact Nat.lt_trans (List.sizeOf_lt_of_mem (by assumption)) e.sizeOf_children

theorem set_without {e : Element} {name : String}
    (h : ¬(e.set name "").ShowsEmpty skins override name) :
    SameFilled skins override (e.set name "") (e.without name) := by
  refine .element rfl rfl ⟨filled?_set_empty e name, fun {other} hother => ?_⟩
    (List.forall₂_same.2 fun c _ => refl skins none c)
  have hne : other ≠ name := fun hsame => h (hsame ▸ hother)
  rw [attribute?_set, attribute?_without, if_neg hne, if_neg hne]

theorem modify {f g : Element → Element} (es : List Element) (i : Nat)
    (h : ∀ c, es[i]? = some c → SameFilled skins none (f c) (g c)) :
    List.Forall₂ (SameFilled skins none) (es.modify i f) (es.modify i g) := by
  induction es generalizing i with
  | nil => simp
  | cons c rest ih =>
    cases i with
    | zero => exact .cons (h c rfl) (List.forall₂_same.2 fun d _ => refl skins none d)
    | succ i => exact .cons (refl skins none c) (ih i h)

theorem modifyAt {f g : Element → Element} (root : Element) (way : List Nat)
    (h : ∀ e, root.descendant? way = some e →
      SameFilled skins (if way = [] then override else none) (f e) (g e)) :
    SameFilled skins override (root.modifyAt f way) (root.modifyAt g way) := by
  induction way generalizing root override with
  | nil => exact h root rfl
  | cons i way ih =>
    refine .element rfl rfl (.of_attributes _ rfl) (modify _ i fun c hc => ih c fun e he => ?_)
    have hsame := h e (by rw [descendant?, hc]; exact he)
    rw [if_neg (List.cons_ne_nil i way)] at hsame
    rwa [ite_self]

end SameFilled

end Element

namespace Setting

theorem OverlooksEmpty.buildsSame {setting : Setting ω} (hover : setting.OverlooksEmpty) :
    setting.BuildsSame (Element.SameFilled setting.skins) :=
  fun h copy source parent => build_eq_of_sameFilled hover copy source h parent

theorem OverlooksEmpty.watched {setting : Setting ω} (hover : setting.OverlooksEmpty) :
    setting.watched.OverlooksEmpty where
  accepts := hover.accepts
  imports {widget i} hi scope e e' n h := by
    obtain ⟨j, hj, rfl⟩ := exists_importer_watched hi
    funext s
    unfold Importer.watched
    rw [hover.imports hj _ e e' n h]

/-- Runs over files that differ in empty attributes alone have the same result, bring the same
prefabs to the store, ask the locator the same and leave outsides that are alike, when the attributes
do not show and the outside does not tell the runs apart. Nothing is asked of an outside that is the
same for both. And files differ in this way when an attribute, at any place of a tree, is set to the
empty text or taken away, unless it shows when it is empty. -/
theorem empty_attributes_inert :
    (∀ (setting : Setting (Traced ω)) (l : Locator ω) sources (alike : Traced ω → Traced ω → Prop)
      paths w w', setting.locator = l.traced → setting.registry = .builtIn →
        setting.Rewords sources (Element.SameFilled setting.skins) alike paths →
          (∀ w w', alike w w' → w.calls = w'.calls) → alike w w' →
            setting.SameRuns sources paths w w' ∧
              alike (setting.run paths w).2 ((setting.reading sources).run paths w').2) ∧
    (∀ (setting : Setting (Traced ω)) (l : Locator ω) sources paths w, setting.locator = l.traced →
      setting.registry = .builtIn →
        (∀ path w, setting.MayRead paths path →
          SameOutcome (Element.SameFilled setting.skins (setting.rootWidget? path))
            (setting.sources.document path w) (sources.document path w)) →
          setting.SameRuns sources paths w w) ∧
    ∀ (skins : SkinTable) (root : Element) (override : Option String) (way : List Nat)
      (name : String),
      (∀ e, root.descendant? way = some e →
        ¬(e.set name "").ShowsEmpty skins (if way = [] then override else none) name) →
      (root.modifyAt (·.set name "") way).SameFilled skins override
        (root.modifyAt (·.without name) way) := by
  refine ⟨?_, ?_, ?_⟩
  · intro setting l sources alike paths w w' _ hregistry hrewords hcalls hw
    have hover := overlooksEmpty_of_builtIn hregistry
    exact hrewords.sameRuns hover.buildsSame hover.watched.buildsSame hcalls hw
  · intro setting l sources paths w _ hregistry hdocuments
    have hover := overlooksEmpty_of_builtIn hregistry
    have hsame := (Rewords.of_documents hdocuments).sameRuns hover.buildsSame
      hover.watched.buildsSame (fun _ _ => congrArg Traced.calls) (rfl : w = w)
    exact hsame.1
  · intro skins root override way name hshows
    exact .modifyAt root way fun e he => .set_without (hshows e he)

def unfilled : Disk := oneFile "<e:Group><e:Image source=\"a\" fillMode=\"\"/></e:Group>"

def filled : Disk := oneFile "<e:Group><e:Image source=\"a\"/></e:Group>"

theorem poster_without_fill :
    poster.traced.SameRuns poster.traced.sources [⟨"main.exml"⟩] { world := { disk := unfilled } }
        { world := { disk := filled } } ∧
      (poster.traced.run [⟨"main.exml"⟩] { world := { disk := unfilled } }).2.calls =
        [.resolve "a.png" none, .textureSize { path := "a.png" }] := by
  let root := tag "Group" [] [tag "Image" [("source", "a")] []]
  have hshows : ∀ e, root.descendant? [0] = some e →
      ¬(e.set "fillMode" "").ShowsEmpty poster.traced.skins none "fillMode" := by
    intro e he h
    obtain rfl : tag "Image" [("source", "a")] [] = e := Option.some.inj he
    exact absurd (h.of_plain fun hcopied => absurd hcopied.2 (by decide)) (by decide)
  obtain ⟨hruns, -, hedits⟩ := @empty_attributes_inert World
  have hsame := hedits poster.traced.skins root none [0] "fillMode" hshows
  have hrewords : poster.traced.Rewords poster.traced.sources
      (Element.SameFilled poster.traced.skins) (OtherDisk unfilled filled) [⟨"main.exml"⟩] :=
    poster_rewords (by decide +kernel) (by decide +kernel) hsame
  have hcalls : ∀ w w', OtherDisk unfilled filled w w' → w.calls = w'.calls := by
    rintro _ _ ⟨w, calls⟩
    rfl
  have hdone := hruns poster.traced .openLocator _ _ _ _ _ rfl rfl hrewords hcalls (.disks {} [])
  exact ⟨hdone.1, by decide +kernel⟩

/-- A tag with one attribute. -/
def inscribed (localName name value : String) : String :=
  "<e:" ++ localName ++ " " ++ name ++ "='" ++ value ++ "'/>"

/-- A tag without attributes. -/
def bare (localName : String) : String := "<e:" ++ localName ++ "/>"

/-- A file, and a skin that has an attribute filled. -/
def wardrobe (name value main : String) : Sources (Traced Unit) where
  read path _ := .ok (if path = ⟨"skin.exml"⟩ then inscribed "Skin" name value else main)

def dressed (widget name value main : String) : Setting (Traced Unit) where
  skins := SkinTable.empty.insert ("eui." ++ widget) ⟨"skin.exml"⟩
  sources := wardrobe name value main
  locator := Locator.openLocator.traced
  store := .memory

/-- The names and behaviors of what comes of a use of the skin. -/
def dressedLooks (widget name value main : String) : List (String × List Behavior) :=
  ((dressed widget name value main).watched.run [⟨"main.exml"⟩]
    { world := { world := () } }).2.journal.calls.map fun c => (c.1.root.name, c.1.root.behaviors)

/-- An empty attribute of a widget tells itself from a missing one over a value in a skin, without
an empty key in the table of skins. -/
structure TellsEmpty (widget name value : String) : Prop where
  keys : (dressed widget name value (inscribed widget name "")).skins.get? "" = none
  empty : (dressed widget name value (inscribed widget name "")).sources.document ⟨"main.exml"⟩
    { world := () } = .ok ((tag widget [] []).set name "")
  missing : (wardrobe name value (bare widget)).document ⟨"main.exml"⟩ { world := () } =
    .ok ((tag widget [] []).without name)
  differ : ¬(dressed widget name value (inscribed widget name "")).SameRuns
    (wardrobe name value (bare widget)) [⟨"main.exml"⟩] { world := () } { world := () }

theorem tellsEmpty_of_looks {widget name value : String}
    (keys : (dressed widget name value "").skins.get? "" = none)
    (empty : (wardrobe name value (inscribed widget name "")).document ⟨"main.exml"⟩
      { world := () } = .ok ((tag widget [] []).set name ""))
    (missing : (wardrobe name value (bare widget)).document ⟨"main.exml"⟩ { world := () } =
      .ok ((tag widget [] []).without name))
    (looks : dressedLooks widget name value (inscribed widget name "") ≠
      dressedLooks widget name value (bare widget)) :
    TellsEmpty widget name value where
  keys := keys
  empty := empty
  missing := missing
  differ h := by
    refine looks ?_
    unfold dressedLooks
    rw [h.stored]
    rfl

/-- Each of the attributes that show when they are empty does so, a label standing for all widgets
that show a text. -/
theorem empty_attributes_show :
    TellsEmpty "Group" "id" "a" ∧ TellsEmpty "TextInput" "prompt" "a" ∧
      TellsEmpty "TextInput" "text" "a" ∧ TellsEmpty "Label" "text" "a" ∧
      TellsEmpty "Label" "textAlign" "right" ∧ TellsEmpty "Label" "verticalAlign" "bottom" ∧
      TellsEmpty "Image" "fillMode" "repeat" := by
  refine ⟨?_, ?_, ?_, ?_, ?_, ?_, ?_⟩
  all_goals
    exact tellsEmpty_of_looks (by decide +kernel) (by decide +kernel) (by decide +kernel)
      (by decide +kernel)

end Setting

end MarkupScene
