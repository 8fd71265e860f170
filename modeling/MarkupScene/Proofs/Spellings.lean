import MarkupScene.Proofs.Accounts
import MarkupScene.Proofs.Dictionaries
import MarkupScene.Proofs.FilledAttributes
import Mathlib.Data.List.Nodup
import Mathlib.Logic.Equiv.Basic

/-!
# Spellings of a document

One document can be written in several ways: attributes have no order, and prefixes stand for
namespaces. Building a node looks up attributes by their names, and looks at a prefix only to find
the namespace behind it or to compare it with the prefix of the built-in widgets. The main statement
is that other orders of the attributes and other prefixes make no difference to building.
-/
namespace MarkupScene

open Text

variable {ω α : Type}

namespace Text.Dictionary

def rename (ρ : String → String) (d : Dictionary α) : Dictionary α :=
  .ofList (d.entries.map fun entry => (ρ entry.1, entry.2))

theorem lookup_map_injective {ρ : String → String} (hρ : Function.Injective ρ)
    (entries : List (String × α)) (key : String) :
    (entries.map fun entry => (ρ entry.1, entry.2)).lookup (ρ key) = entries.lookup key := by
  induction entries with
  | nil => rfl
  | cons entry rest ih =>
    obtain ⟨k, v⟩ := entry
    simp only [List.map_cons, lookup_entry, hρ.eq_iff, ih]

theorem get?_rename {ρ : String → String} (hρ : Function.Injective ρ) (d : Dictionary α)
    (key : String) : (d.rename ρ).get? (ρ key) = d.get? key := by
  have hkeys : (d.entries.map Prod.fst).Nodup :=
    List.pairwise_map.2 (d.ascending.imp String.ne_of_lt)
  have hrenamed : ((d.entries.map fun entry => (ρ entry.1, entry.2)).map Prod.fst).Nodup := by
    rw [List.map_map, show Prod.fst ∘ (fun entry : String × α => (ρ entry.1, entry.2)) =
      ρ ∘ Prod.fst from rfl, ← List.map_map]
    exact List.Nodup.map hρ hkeys
  rw [rename, ofList, get?_foldl_insert hrenamed, lookup_map_injective hρ]
  exact Option.or_none

end Text.Dictionary

namespace Element

mutual

def rename (ρ : String → String) : Element → Element
  | ⟨namePrefix, localName, namespaces, attributes, children⟩ =>
    ⟨ρ namePrefix, localName, namespaces.rename ρ, attributes, renameAll ρ children⟩

def renameAll (ρ : String → String) : List Element → List Element
  | [] => []
  | c :: rest => c.rename ρ :: renameAll ρ rest

end

/-- No element of a tree has two attributes of one name. -/
inductive Distinct : Element → Prop where
  | element {e : Element} (names : (e.attributes.map Prod.fst).Nodup)
      (children : ∀ c ∈ e.children, Distinct c) : Distinct e

/-- Trees that differ in the order of attributes alone. -/
inductive Reordered : Element → Element → Prop where
  | element {e e' : Element} (namePrefix : e'.namePrefix = e.namePrefix)
      (localName : e'.localName = e.localName) (namespaces : e'.namespaces = e.namespaces)
      (attributes : e.attributes.Perm e'.attributes)
      (length : e.children.length = e'.children.length)
      (children : ∀ c c', (c, c') ∈ e.children.zip e'.children → Reordered c c') : Reordered e e'

/-- Trees that building cannot tell apart: the same attributes by name, local names and keys. -/
inductive Alike : Element → Element → Prop where
  | element {e e' : Element} (attributes : e'.attribute? = e.attribute?)
      (localName : e'.localName = e.localName) (skinKey : e'.skinKey = e.skinKey)
      (children : List.Forall₂ Alike e.children e'.children) : Alike e e'

variable {e e' : Element} {ρ : String → String}

theorem rename_eq (ρ : String → String) (e : Element) :
    e.rename ρ = ⟨ρ e.namePrefix, e.localName, e.namespaces.rename ρ, e.attributes,
      e.children.map (rename ρ)⟩ := by
  have hall : ∀ es, renameAll ρ es = es.map (rename ρ) := by
    intro es
    induction es with
    | nil => rfl
    | cons c rest ih => rw [renameAll, ih, List.map_cons]
  obtain ⟨namePrefix, localName, namespaces, attributes, children⟩ := e
  rw [rename, hall]

/-- The order of attributes does not matter to finding one by its name. -/
theorem lookup_perm {l l' : List (String × α)} (h : l.Perm l') (hnames : (l.map Prod.fst).Nodup)
    (name : String) : l'.lookup name = l.lookup name := by
  induction h with
  | nil => rfl
  | cons entry _ ih =>
    obtain ⟨k, v⟩ := entry
    rw [Dictionary.lookup_entry, Dictionary.lookup_entry, ih (List.nodup_cons.1 hnames).2]
  | swap a b l =>
    obtain ⟨j, u⟩ := a
    obtain ⟨k, v⟩ := b
    have hne : k ≠ j := by
      rintro rfl
      simp at hnames
    simp only [Dictionary.lookup_entry]
    by_cases hk : name = k
    · simp [hk, hne]
    · simp [hk]
  | trans h₁ _ ih₁ ih₂ =>
    rw [ih₂ ((h₁.map Prod.fst).nodup_iff.1 hnames), ih₁ hnames]

theorem skinKey_rename (hρ : Function.Injective ρ) (hfixed : ρ Skin.builtInPrefix = Skin.builtInPrefix)
    (e : Element) : (e.rename ρ).skinKey = e.skinKey := by
  have hbuiltIn : ρ e.namePrefix = Skin.builtInPrefix ↔ e.namePrefix = Skin.builtInPrefix := by
    rw [← hfixed, hρ.eq_iff, hfixed]
  rw [rename_eq]
  simp only [skinKey, Skin.key, Dictionary.get?_rename hρ, hbuiltIn]

/-- Other orders and other prefixes are not to be told apart. -/
theorem Reordered.alike (h : e.Reordered e') (hdistinct : e.Distinct) (hρ : Function.Injective ρ)
    (hfixed : ρ Skin.builtInPrefix = Skin.builtInPrefix) : e.Alike (e'.rename ρ) := by
  induction h with
  | @element e e' hprefix hname hnamespaces hattributes hlength _ ih =>
    cases hdistinct with
    | element hnames hchildren =>
      constructor
      case attributes =>
        funext name
        rw [rename_eq]
        exact lookup_perm hattributes hnames name
      case localName => rw [rename_eq, hname]
      case skinKey =>
        rw [skinKey_rename hρ hfixed, skinKey, skinKey, hprefix, hname, hnamespaces]
      case children =>
        rw [rename_eq, List.forall₂_map_right_iff, List.forall₂_iff_zip]
        refine ⟨hlength, fun hc => ih _ _ hc (hchildren _ ?_)⟩
        exact (List.of_mem_zip hc).1

theorem placement_congr (h : e'.attribute? = e.attribute?) :
    Placement.ofElement e' = Placement.ofElement e :=
  (SaysSame.of_attributes (fun _ => False) h).placement_eq

theorem Alike.children {e e' : Element} (h : e.Alike e') :
    List.Forall₂ Alike e.children e'.children := by
  cases h with
  | element _ _ _ hchildren => exact hchildren

theorem Alike.sameFilled {e e' : Element} (h : e.Alike e') (skins : SkinTable)
    (override : Option String) : e.SameFilled skins override e' := by
  have hchildren : List.Forall₂ (SameFilled skins none) e.children e'.children := by
    have halike := h.children
    rw [List.forall₂_iff_zip] at halike ⊢
    exact ⟨halike.1, fun hc => (halike.2 hc).sameFilled skins none⟩
  cases h with
  | element hattributes hname hkey _ =>
    exact .element hname hkey (.of_attributes _ hattributes) hchildren
termination_by sizeOf e
decreasing_by
  exact Nat.lt_trans (List.sizeOf_lt_of_mem (List.of_mem_zip hc).1) e.sizeOf_children

end Element

namespace Setting
variable {setting : Setting ω} {e e' : Element}

theorem build_alike (hregistry : setting.registry = .builtIn) (copy : setting.Instantiate)
    (source : Path) (h : e.Alike e') (override : Option String) (parent : Option Size) :
    setting.build (setting.startNode copy) source e' override parent =
      setting.build (setting.startNode copy) source e override parent :=
  build_eq_of_sameFilled (overlooksEmpty_of_builtIn hregistry) copy source
    (h.sameFilled setting.skins override) parent

/-- Building does not depend on the order of attributes or on the choice of prefixes: the action is
the same, and so are the node that it makes and all that it reports. -/
theorem build_spelling (hregistry : setting.registry = .builtIn) (copy : setting.Instantiate)
    (source : Path) (hdistinct : e.Distinct) (hreordered : e.Reordered e') {ρ : String → String}
    (hρ : Function.Injective ρ) (hfixed : ρ Skin.builtInPrefix = Skin.builtInPrefix)
    (override : Option String) (parent : Option Size) :
    setting.build (setting.startNode copy) source (e'.rename ρ) override parent =
      setting.build (setting.startNode copy) source e override parent :=
  build_alike hregistry copy source (hreordered.alike hdistinct hρ hfixed) override parent

/-- A group that holds a panel of another namespace. -/
def panelGroup (groupAttributes panelAttributes : List (String × String)) : Element where
  namePrefix := "e"
  localName := "Group"
  attributes := groupAttributes
  children :=
    [{ namePrefix := "s", localName := "Panel", namespaces := .ofList [("s", "skins.*")],
       attributes := panelAttributes }]

/-- The panel may stand under another prefix, with the attributes of both the other way round. -/
theorem panelGroup_spelling :
    let e := panelGroup [("id", "box"), ("width", "10")] [("x", "1"), ("y", "2")]
    let e' := panelGroup [("width", "10"), ("id", "box")] [("y", "2"), ("x", "1")]
    e.Distinct ∧ e.Reordered e' ∧
      oneSkin.build (oneSkin.startNode fun _ name => pure { name }) ⟨"main.exml"⟩
          (e'.rename (Equiv.swap "s" "t")) none none =
        oneSkin.build (oneSkin.startNode fun _ name => pure { name }) ⟨"main.exml"⟩ e none none := by
  intro e e'
  have hdistinct : e.Distinct := by
    refine .element (by decide) fun c hc => ?_
    obtain rfl := List.mem_singleton.1 hc
    exact .element (by decide) fun _ hc => nomatch hc
  have hreordered : e.Reordered e' := by
    refine .element rfl rfl rfl (.swap _ _ _) rfl fun c c' hc => ?_
    obtain ⟨rfl, rfl⟩ := Prod.mk.inj (List.mem_singleton.1 hc)
    exact .element rfl rfl rfl (.swap _ _ _) rfl fun _ _ hc => nomatch hc
  exact ⟨hdistinct, hreordered, build_spelling rfl _ _ hdistinct hreordered
    (Equiv.swap "s" "t").injective (by decide) none none⟩

end Setting

end MarkupScene
