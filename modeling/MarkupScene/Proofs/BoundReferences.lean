import MarkupScene.Proofs.Importers
import MarkupScene.Proofs.Outlines
import MarkupScene.Proofs.TreeInvariants

/-!
# Bound references

A behavior refers to a descendant by the name path of what its importer has found. Later changes of
the tree are changes of looks or sizes, copies under other names and children added at the end, so
that the same search still finds the same descendant and gives the same path. Only a text input
loses its children, unless it is the root of a skin. The main statement is that in every stored
prefab each other reference is the name path of what its search finds there, and that it leads back
there exactly when the way is clear.
-/
namespace MarkupScene

variable {ω α : Type}

/-- What a behavior looks for among descendants. -/
inductive Target where
  | named (name : String)
  | container

def Target.test : Target → Node → Bool
  | named name => fun n => n.name = name
  | container => Widget.isContainer

/-- A name path in a behavior, with what it was found as. -/
structure Link where
  targets : List Target
  path : String

/-- The references of a behavior to descendants. -/
def Behavior.links : Behavior → List Link
  | .scrollBar b => b.handle.toList.map fun path => ⟨[.named "thumb"], path⟩
  | .scrollView v =>
    v.content.toList.map (fun path => ⟨[.named "viewport", .container], path⟩) ++
      v.horizontalScrollBar.toList.map (fun path => ⟨[.named "horizontalScrollBar"], path⟩) ++
      v.verticalScrollBar.toList.map (fun path => ⟨[.named "verticalScrollBar"], path⟩)
  | .progressBar b => b.bar.toList.map fun path => ⟨[.named "thumb"], path⟩
  | _ => []

theorem Target.test_bare (t : Target) (n : Node) : t.test n.bare = t.test n := by
  rw [Node.bare_eq]
  cases t <;> rfl

/-- The path of a link is the name path of what one of its targets finds. -/
def Link.Holds (l : Link) (n : Node) : Prop :=
  ∃ t ∈ l.targets, ∃ way, n.find? t.test = some way ∧ l.path = n.namePath way

namespace Node

def links (n : Node) : List Link := n.behaviors.flatMap Behavior.links

/-- The references of a node hold. -/
def Linked (n : Node) : Prop := ∀ l ∈ n.links, l.Holds n

/-- A text input that has lost its children, or that is a copy of one that may have lost them. -/
def Deprived (n : Node) : Prop :=
  n.has .editBox = true ∧ (n.children = [] ∨ n.isSkinInstance = true)

/-- A property of a node and of all its descendants. -/
inductive Every (p : Node → Prop) : Node → Prop where
  | node {n : Node} : p n → (∀ c ∈ n.children, Every p c) → Every p n

/-- A tree in which the references hold wherever children have been kept. -/
abbrev Sound (n : Node) : Prop := n.Every fun m => m.Linked ∨ m.Deprived

/-- A tree whose root may get more children. -/
structure Open (n : Node) : Prop where
  root : n.Linked ∨ n.has .editBox = true ∧ n.isSkinInstance = true
  children : ∀ c ∈ n.children, c.Sound

theorem Every.descendant {p : Node → Prop} {n m : Node} (hn : n.Every p) {way : List Nat}
    (h : n.descendant? way = some m) : p m := by
  induction way generalizing n with
  | nil =>
    obtain rfl := Option.some.inj h
    cases hn with
    | node hp _ => exact hp
  | cons i way ih =>
    rw [descendant?] at h
    split at h
    · next c hc =>
      cases hn with
      | node _ hchildren => exact ih (hchildren c (List.mem_of_getElem? hc)) h
    · cases h

theorem Every.root {p : Node → Prop} {n : Node} (hn : n.Every p) : p n := by
  cases hn with
  | node hp _ => exact hp

theorem Every.children {p : Node → Prop} {n : Node} (hn : n.Every p) :
    ∀ c ∈ n.children, c.Every p := by
  cases hn with
  | node _ hchildren => exact hchildren

theorem Open.sound {n : Node} (hn : n.Open) : n.Sound :=
  .node (hn.root.imp_right fun h => ⟨h.1, .inr h.2⟩) hn.children

/-- A change of looks or size. -/
structure Harmless (f : Node → Node) : Prop where
  name (n : Node) : (f n).name = n.name
  widget (n : Node) : (f n).widget = n.widget
  children (n : Node) : (f n).children = n.children
  links (n : Node) : (f n).links = n.links
  editBox (n : Node) : (f n).has .editBox = n.has .editBox
  skin (n : Node) : (f n).isSkinInstance = n.isSkinInstance

theorem has_iff_mem (n : Node) (kind : Behavior.Kind) :
    n.has kind = true ↔ kind ∈ n.behaviors.map Behavior.kind := by
  rw [has, List.any_eq_true, List.mem_map]
  simp only [decide_eq_true_eq]

end Node

theorem Link.Holds.congr {l : Link} {n m : Node} (h : n.outline = m.outline) (hl : l.Holds n) :
    l.Holds m := by
  obtain ⟨t, ht, way, hfind, hpath⟩ := hl
  refine ⟨t, ht, way, ?_, ?_⟩
  · rw [← Node.find?_congr t.test_bare h, hfind]
  · rw [hpath, Node.namePath_congr h]

theorem Link.Holds.append {l : Link} {n m : Node} {more : List Node}
    (h : m.children = n.children ++ more) (hl : l.Holds n) : l.Holds m := by
  obtain ⟨t, ht, way, hfind, hpath⟩ := hl
  exact ⟨t, ht, way, Node.find?_append hfind h, by rw [hpath, Node.namePath_append hfind h]⟩

namespace Node

theorem Linked.congr {n m : Node} (hlinks : m.links = n.links) (houtline : m.outline = n.outline)
    (hn : n.Linked) : m.Linked :=
  fun l hl => (hn l (hlinks ▸ hl)).congr houtline.symm

/-- Roots with the same references in trees of one outline. -/
structure Alike (n m : Node) : Prop where
  outline : m.outline = n.outline
  links : m.links = n.links
  editBox : m.has .editBox = n.has .editBox
  skin : m.isSkinInstance = n.isSkinInstance

theorem Alike.linked {n m : Node} (h : Alike n m) (hn : n.Linked) : m.Linked :=
  hn.congr h.links h.outline

theorem Alike.deprived {n m : Node} (h : Alike n m) (hn : n.Deprived) : m.Deprived := by
  refine ⟨h.editBox.trans hn.1, hn.2.imp (fun hempty => ?_) fun hskin => h.skin.trans hskin⟩
  have houtline : m.children.map Node.bare = n.children.map Node.bare := h.outline
  rw [hempty] at houtline
  exact List.map_eq_nil_iff.1 houtline

theorem Alike.sound {n m : Node} (h : Alike n m) (hn : n.Sound)
    (hchildren : ∀ c ∈ m.children, c.Sound) : m.Sound :=
  .node (hn.root.imp h.linked h.deprived) hchildren

theorem Alike.open {n m : Node} (h : Alike n m) (hn : n.Open)
    (hchildren : ∀ c ∈ m.children, c.Sound) : m.Open :=
  ⟨hn.root.imp h.linked fun hroot => ⟨h.editBox.trans hroot.1, h.skin.trans hroot.2⟩, hchildren⟩

theorem Harmless.bare {f : Node → Node} (hf : Harmless f) (n : Node) : (f n).bare = n.bare := by
  refine bare_congr (hf.name n) (hf.widget n) ?_
  rw [outline, hf.children]
  rfl

theorem Harmless.alike {f : Node → Node} (hf : Harmless f) (n : Node) (way : List Nat) :
    Alike n (n.modifyAt f way) := by
  have houtline := outline_of_bare (bare_modifyAt hf.bare n way)
  cases way with
  | nil => exact ⟨houtline, hf.links n, hf.editBox n, hf.skin n⟩
  | cons i way =>
    refine ⟨houtline, ?_, ?_, ?_⟩ <;>
    · rw [modifyAt]
      split
      · rfl
      · rfl

theorem sound_modifyAt {f : Node → Node} (hf : Harmless f) {n : Node}
    (hn : ∀ c ∈ n.children, c.Sound) (way : List Nat) :
    ∀ c ∈ (n.modifyAt f way).children, c.Sound := by
  induction way generalizing n with
  | nil =>
    intro c hc
    rw [modifyAt, hf.children] at hc
    exact hn c hc
  | cons i way ih =>
    intro d hd
    rw [modifyAt] at hd
    split at hd
    · next c hc =>
      have hsound := hn c (List.mem_of_getElem? hc)
      rcases List.mem_or_eq_of_mem_set hd with hd | rfl
      · exact hn d hd
      · exact (hf.alike c way).sound hsound (ih hsound.children)
    · exact hn d hd

theorem Open.modifyFound {f : Node → Node} (hf : Harmless f) {n : Node} (hn : n.Open)
    (found : Option (List Nat)) {m : Node}
    (hm : m = match found with
      | some way => n.modifyAt f way
      | none => n) : m.Open ∧ m.outline = n.outline := by
  subst hm
  cases found with
  | none => exact ⟨hn, rfl⟩
  | some way =>
    have halike := hf.alike n way
    exact ⟨halike.open hn (sound_modifyAt hf hn.children way), halike.outline⟩

theorem Open.append {n m : Node} (hn : n.Open) {more : List Node}
    (hchildren : m.children = n.children ++ more) (hlinks : m.links = n.links)
    (hedit : m.has .editBox = n.has .editBox) (hskin : m.isSkinInstance = n.isSkinInstance)
    (hmore : ∀ c ∈ more, c.Sound) : m.Open := by
  refine ⟨?_, fun c hc => ?_⟩
  · rcases hn.root with hroot | ⟨hbox, hcopy⟩
    · exact .inl fun l hl => (hroot l (hlinks ▸ hl)).append hchildren
    · exact .inr ⟨hedit.trans hbox, hskin.trans hcopy⟩
  · rw [hchildren] at hc
    rcases List.mem_append.1 hc with hc | hc
    · exact hn.children c hc
    · exact hmore c hc

theorem open_plain (name : String) : Node.Open { name } :=
  ⟨.inl (fun _ hl => nomatch hl), fun _ hc => nomatch hc⟩

theorem Sound.copy {root : Node} (hroot : root.Sound) (name : String) (handle : PrefabRef) :
    Node.Open { root with name, skin := some handle } := by
  refine ⟨?_, hroot.children⟩
  rcases hroot.root with hlinked | hdeprived
  · exact .inl (hlinked.congr (n := root) rfl rfl)
  · exact .inr ⟨hdeprived.1, rfl⟩

theorem flatMap_changeFirstSprite (f : Sprite → Sprite) {g : Behavior → List α}
    (hg : ∀ s, g (.sprite (f s)) = g (.sprite s)) (bs : List Behavior) :
    (changeFirstSprite f bs).flatMap g = bs.flatMap g := by
  induction bs with
  | nil => rfl
  | cons b rest ih =>
    cases b with
    | sprite s => exact congrArg (· ++ rest.flatMap g) (hg s)
    | _ => exact congrArg (_ ++ ·) ih

theorem flatMap_changeFirstLabel (f : Label → Label) {g : Behavior → List α}
    (hg : ∀ l, g (.label (f l)) = g (.label l)) (bs : List Behavior) :
    (changeFirstLabel f bs).flatMap g = bs.flatMap g := by
  induction bs with
  | nil => rfl
  | cons b rest ih =>
    cases b with
    | label l => exact congrArg (· ++ rest.flatMap g) (hg l)
    | _ => exact congrArg (_ ++ ·) ih

theorem kinds_changeFirstSprite (f : Sprite → Sprite) (bs : List Behavior) :
    (changeFirstSprite f bs).map Behavior.kind = bs.map Behavior.kind := by
  rw [List.map_eq_flatMap, List.map_eq_flatMap]
  exact flatMap_changeFirstSprite f (fun _ => rfl) bs

theorem kinds_changeFirstLabel (f : Label → Label) (bs : List Behavior) :
    (changeFirstLabel f bs).map Behavior.kind = bs.map Behavior.kind := by
  rw [List.map_eq_flatMap, List.map_eq_flatMap]
  exact flatMap_changeFirstLabel f (fun _ => rfl) bs

theorem has_congr {n m : Node} (kind : Behavior.Kind)
    (h : n.behaviors.flatMap (fun b => [b.kind]) = m.behaviors.flatMap fun b => [b.kind]) :
    n.has kind = m.has kind := by
  rw [← List.map_eq_flatMap, ← List.map_eq_flatMap] at h
  rw [Bool.eq_iff_iff, has_iff_mem, has_iff_mem]
  exact Eq.to_iff (congrArg (kind ∈ ·) h)

theorem mapSprite_harmless (f : Sprite → Sprite) : Harmless (mapSprite f) where
  name _ := rfl
  widget _ := rfl
  children _ := rfl
  links n := flatMap_changeFirstSprite f (fun _ => rfl) n.behaviors
  editBox n := has_congr _ (flatMap_changeFirstSprite f (fun _ => rfl) n.behaviors)
  skin _ := rfl

theorem mapLabel_harmless (f : Label → Label) : Harmless (mapLabel f) where
  name _ := rfl
  widget _ := rfl
  children _ := rfl
  links n := flatMap_changeFirstLabel f (fun _ => rfl) n.behaviors
  editBox n := has_congr _ (flatMap_changeFirstLabel f (fun _ => rfl) n.behaviors)
  skin _ := rfl

theorem mem_replaceKind {a b : Behavior} {bs : List Behavior} (h : a ∈ replaceKind b bs) :
    a ∈ bs ∨ a = b := by
  induction bs with
  | nil => cases h
  | cons c rest ih =>
    rw [replaceKind] at h
    split at h
    · rcases List.mem_cons.1 h with rfl | h
      · exact .inr rfl
      · exact .inl (List.mem_cons_of_mem _ h)
    · rcases List.mem_cons.1 h with rfl | h
      · exact .inl List.mem_cons_self
      · exact (ih h).imp_left (List.mem_cons_of_mem _)

theorem kinds_replaceKind (b : Behavior) (bs : List Behavior) :
    (replaceKind b bs).map Behavior.kind = bs.map Behavior.kind := by
  induction bs with
  | nil => rfl
  | cons c rest ih =>
    rw [replaceKind]
    split
    · next h => rw [List.map_cons, List.map_cons, h]
    · rw [List.map_cons, List.map_cons, ih]

/-- Attaching adds the behavior or replaces the one of its kind. -/
theorem attach_ok {n m : Node} {b : Behavior} (h : n.attach b = .ok m) :
    ∃ bs, m = { n with behaviors := bs } ∧ (∀ a ∈ bs, a ∈ n.behaviors ∨ a = b) ∧
      n.behaviors.map Behavior.kind ⊆ bs.map Behavior.kind ∧ b.kind ∈ bs.map Behavior.kind := by
  have hadded : ∃ bs, { n with behaviors := n.behaviors ++ [b] } = { n with behaviors := bs } ∧
      (∀ a ∈ bs, a ∈ n.behaviors ∨ a = b) ∧
        n.behaviors.map Behavior.kind ⊆ bs.map Behavior.kind ∧
          b.kind ∈ bs.map Behavior.kind := by
    refine ⟨_, rfl, fun a ha => ?_, ?_, ?_⟩
    · exact (List.mem_append.1 ha).imp_right List.mem_singleton.1
    · rw [List.map_append]
      exact List.subset_append_left _ _
    · rw [List.map_append]
      exact List.mem_append_right _ List.mem_cons_self
  unfold attach at h
  split at h
  · next hkind =>
    obtain rfl := Except.ok.inj h
    refine ⟨_, rfl, fun a ha => mem_replaceKind ha, ?_, ?_⟩
    · rw [kinds_replaceKind]
      exact List.Subset.refl _
    · rw [kinds_replaceKind]
      exact (has_iff_mem n b.kind).1 hkind
  · dsimp only at h
    split at h
    · split at h
      · cases h
      · obtain rfl := Except.ok.inj h
        exact hadded
    · obtain rfl := Except.ok.inj h
      exact hadded

theorem Open.attach {n m : Node} (hn : n.Open) {b : Behavior} (hb : ∀ l ∈ b.links, l.Holds n)
    (h : n.attach b = .ok m) : m.Open := by
  obtain ⟨bs, rfl, hmem, hkinds, -⟩ := attach_ok h
  refine ⟨?_, hn.children⟩
  rcases hn.root with hroot | ⟨hbox, hcopy⟩
  · refine .inl fun l hl => ?_
    obtain ⟨a, ha, hla⟩ := List.mem_flatMap.1 hl
    refine Link.Holds.congr (n := n) rfl ?_
    rcases hmem a ha with ha | rfl
    · exact hroot l (List.mem_flatMap.2 ⟨a, ha, hla⟩)
    · exact hb l hla
  · exact .inr ⟨(has_iff_mem _ _).2 (hkinds ((has_iff_mem _ _).1 hbox)), hcopy⟩

theorem sound_of_attach_editBox {n m : Node} {e : EditBox} (hn : n.children = [])
    (h : n.attach (.editBox e) = .ok m) : m.Sound := by
  obtain ⟨bs, rfl, -, -, hkind⟩ := attach_ok h
  refine .node (.inr ⟨(has_iff_mem _ _).2 hkind, .inl hn⟩) fun c hc => ?_
  change c ∈ n.children at hc
  rw [hn] at hc
  cases hc

theorem exists_attach_editBox (n : Node) (e : EditBox) : ∃ m, n.attach (.editBox e) = .ok m := by
  unfold Node.attach
  split
  · exact ⟨_, rfl⟩
  · dsimp only
    split
    · exact ⟨_, rfl⟩
    · exact ⟨_, rfl⟩

end Node

/-- An action whose result always has a property. -/
def Importing.Makes (m : Importing ω α) (p : α → Prop) : Prop := ∀ s, p (m s).1

namespace Importing.Makes
variable {β : Type} {p : β → Prop}

theorem pure {b : β} (h : p b) : Makes (Pure.pure b : Importing ω β) p := fun _ => h

theorem imp {q : β → Prop} {m : Importing ω β} (hm : Makes m q) (h : ∀ b, q b → p b) : Makes m p :=
  fun s => h _ (hm s)

theorem bind {m : Importing ω α} {f : α → Importing ω β} {q : α → Prop} (hm : Makes m q)
    (hf : ∀ a, q a → Makes (f a) p) : Makes (m >>= f) p := fun s => hf _ (hm s) _

/-- What comes before the last step does not matter when the last step does not need it. -/
theorem last {m : Importing ω α} {f : α → Importing ω β} (hf : ∀ a, Makes (f a) p) :
    Makes (m >>= f) p := fun _ => hf _ _

theorem attach (scope : ImportScope ω) {n : Node} (hn : n.Open) {b : Behavior}
    (hb : ∀ l ∈ b.links, l.Holds n) : Makes (scope.attach n b) Node.Open := by
  unfold ImportScope.attach
  split
  · next m hm => exact pure (hn.attach hb hm)
  · exact last fun _ => pure hn

end Importing.Makes

def Importer.KeepsReferences (i : Importer ω) : Prop :=
  ∀ scope e n, n.Open → (i scope e n).Makes Node.Sound

def Importer.KeepsOpen (i : Importer ω) : Prop :=
  ∀ scope e n, n.Open → (i scope e n).Makes Node.Open

theorem Importer.KeepsOpen.keepsReferences {i : Importer ω} (hi : i.KeepsOpen) :
    i.KeepsReferences :=
  fun scope e n hn => (hi scope e n hn).imp fun _ hm => hm.sound

namespace Widget

open Importing

theorem links_hold {n k m : Node} {t : Target} {found : Option (List Nat)}
    (hfound : n.find? t.test = found) (hk : k.outline = n.outline) (hm : m.outline = n.outline)
    {targets : List Target} (ht : t ∈ targets) :
    ∀ l ∈ (found.map k.namePath).toList.map (fun path => ⟨targets, path⟩), Link.Holds l m := by
  intro l hl
  obtain ⟨path, hpath, rfl⟩ := List.mem_map.1 hl
  obtain ⟨way, rfl, rfl⟩ := Option.map_eq_some_iff.1 (Option.mem_toList.1 hpath)
  refine ⟨t, ht, way, ?_, ?_⟩
  · rw [Node.find?_congr t.test_bare hm, hfound]
  · rw [Node.namePath_congr (hk.trans hm.symm)]

theorem image_keeps : (image : Importer ω).KeepsOpen := by
  intro scope e n hn
  have hsize : ∀ size : Size, Node.Open { n with size } := fun size =>
    Node.Alike.open (n := n) ⟨rfl, rfl, rfl, rfl⟩ hn hn.children
  have hattach : ∀ (size : Size) (sprite : Sprite),
      Makes (scope.attach { n with size } (.sprite sprite)) Node.Open := fun size sprite =>
    .attach scope (hsize size) fun _ hl => nomatch hl
  unfold image
  refine .last fun sprite => ?_
  dsimp only
  split
  · exact .last fun _ => .last fun _ => hattach _ _
  · exact .last fun _ => .last fun _ => hattach _ _

theorem label_keeps : (label : Importer ω).KeepsOpen := fun scope _ _ hn =>
  .attach scope hn fun _ hl => nomatch hl

theorem bitmapLabel_keeps : (bitmapLabel : Importer ω).KeepsOpen := by
  intro scope e n hn
  refine .last fun font => ?_
  cases font with
  | some font => exact .last fun _ => .attach scope hn fun _ hl => nomatch hl
  | none => exact .attach scope hn fun _ hl => nomatch hl

theorem scrollBar_keeps (direction : Axis) : (scrollBar direction : Importer ω).KeepsOpen := by
  intro scope e n hn
  unfold scrollBar
  dsimp only
  obtain ⟨hopen, houtline⟩ := hn.modifyFound (Node.mapSprite_harmless _) (n.findNamed? "thumb") rfl
  refine .attach scope hopen ?_
  exact links_hold (t := .named "thumb") rfl houtline houtline List.mem_cons_self

theorem fillSize_harmless (outer : Size) :
    Node.Harmless fun c => { c with size := fillSize outer c.size } where
  name _ := rfl
  widget _ := rfl
  children _ := rfl
  links _ := rfl
  editBox _ := rfl
  skin _ := rfl

theorem viewport?_links {n m : Node} (houtline : m.outline = n.outline) :
    ∀ l ∈ ((viewport? n).map n.namePath).toList.map
      (fun path => ⟨[.named "viewport", .container], path⟩), Link.Holds l m := by
  unfold viewport?
  cases hnamed : n.findNamed? "viewport" with
  | some way => exact links_hold (t := .named "viewport") hnamed rfl houtline List.mem_cons_self
  | none =>
    exact links_hold (t := .container) rfl rfl houtline
      (List.mem_cons_of_mem _ List.mem_cons_self)

theorem barPath?_links {n m : Node} (houtline : m.outline = n.outline) (scrolls : Bool)
    (name : String) :
    ∀ l ∈ (barPath? n scrolls name).toList.map (fun path => ⟨[.named name], path⟩),
      Link.Holds l m := by
  unfold barPath?
  cases scrolls with
  | false => exact fun _ hl => nomatch hl
  | true => exact links_hold (t := .named name) rfl rfl houtline List.mem_cons_self

theorem scroller_keeps : (scroller : Importer ω).KeepsOpen := by
  intro scope e n hn
  unfold scroller
  dsimp only
  obtain ⟨hopen, houtline⟩ := hn.modifyFound (fillSize_harmless n.size) (viewport? n) rfl
  refine .bind (.attach scope hopen fun l hl => ?_) fun attached hattached =>
    .attach scope hattached fun _ hl => nomatch hl
  rcases List.mem_append.1 hl with hl | hl
  · rcases List.mem_append.1 hl with hl | hl
    · exact viewport?_links houtline l hl
    · exact barPath?_links houtline _ _ l hl
  · exact barPath?_links houtline _ _ l hl

theorem progressBar_keeps : (progressBar : Importer ω).KeepsOpen := by
  intro scope e n hn
  unfold progressBar
  dsimp only
  obtain ⟨hopen, houtline⟩ := hn.modifyFound (Node.mapSprite_harmless _) (n.findNamed? "thumb") rfl
  obtain ⟨hopen', houtline'⟩ :=
    hopen.modifyFound (Node.mapLabel_harmless _) (Node.findNamed? _ "labelDisplay") rfl
  refine .attach scope hopen' ?_
  exact links_hold (t := .named "thumb") rfl rfl (houtline'.trans houtline) List.mem_cons_self

theorem open_hidden {n : Node} (hn : n.Open) :
    Node.Open { n with children := putAside true n.children } := by
  have hhidden : ∀ d : Node, Node.Alike d { d with active := false } := fun _ =>
    ⟨rfl, rfl, rfl, rfl⟩
  refine Node.Alike.open (n := n) ⟨?_, rfl, rfl, rfl⟩ hn fun c hc => ?_
  · change (n.children.map _).map _ = n.children.map _
    rw [List.map_map]
    exact List.map_congr_left fun d _ => Node.bare_congr rfl rfl (hhidden d).outline
  · obtain ⟨d, hd, rfl⟩ := List.mem_map.1 hc
    exact (hhidden d).sound (hn.children d hd) (hn.children d hd).children

theorem textInput_keeps : (textInput : Importer ω).KeepsReferences := by
  intro scope e n hn
  unfold textInput
  cases scope.isTemplate with
  | true =>
    have hattach : Makes (scope.attach { n with children := putAside true n.children }
        (.editBox (editBoxOf e n))) Node.Open :=
      .attach scope (open_hidden hn) fun _ hl => nomatch hl
    exact hattach.imp fun _ h => h.sound
  | false =>
    obtain ⟨m, hm⟩ := Node.exists_attach_editBox
      { n with children := putAside false n.children } (editBoxOf e n)
    unfold ImportScope.attach
    rw [hm]
    exact .pure (Node.sound_of_attach_editBox rfl hm)

end Widget

theorem Registry.OnlyBuiltIn.keepsReferences {r : Registry ω} (hr : r.OnlyBuiltIn) {w : String}
    {i : Importer ω} (h : r.importer? w = some i) : i.KeepsReferences := by
  obtain ⟨entry, hentry, rfl⟩ := hr w i h
  exact builtIn_cases Widget.image_keeps.keepsReferences Widget.label_keeps.keepsReferences
    Widget.bitmapLabel_keeps.keepsReferences
    (fun direction => (Widget.scrollBar_keeps direction).keepsReferences)
    Widget.scroller_keeps.keepsReferences Widget.progressBar_keeps.keepsReferences
    Widget.textInput_keeps (fun _ _ _ hn => .pure hn.sound) hentry

namespace Setting
variable {setting : Setting ω}

theorem sounding (hregistry : setting.registry.OnlyBuiltIn) :
    setting.TreeInvariant (fun _ => Node.Open) (fun _ => Node.Sound) where
  mono_begun _ hn := hn
  mono_done _ hn := hn
  plain _ name := Node.open_plain name
  copy name _ hroot := hroot.copy name _
  grow {_ _ _ e override parent fresh _ kids _ _} hfresh hkids himported := by
    have hopen : (setting.assembled e override parent fresh kids).Open :=
      hfresh.append rfl rfl rfl rfl fun c hc => (hkids c hc).1
    apply importNode_induction himported hopen.sound
    intro w i scope around _ himporter
    exact hregistry.keepsReferences himporter scope e _ hopen around

/-- All nodes that were started are open, and all roots that were stored are sound. -/
structure SoundSession (s : Session (Watched ω)) : Prop where
  started {x n} : .started x ∈ s.journal → x.result = .ok n → n.Open
  stored {p result} : .stored p result ∈ s.journal → p.root.Sound

theorem soundSession (hregistry : setting.registry.OnlyBuiltIn) (world : ω) (paths : List Path) :
    SoundSession (setting.watchEach paths { world := { world } }) := by
  have hkept := (sounding hregistry).kept world paths
  exact ⟨hkept.started, fun hp => hkept.founded.of_mem (fun _ hn => hn) hp⟩

/-- References of stored prefabs are name paths of what their searches find, and lead there exactly
when the way is clear. -/
theorem references_designate (hregistry : setting.registry.OnlyBuiltIn) (world : ω)
    (paths : List Path) :
    (∀ (n : Node) (p : Node → Bool) (way : List Nat), n.find? p = some way →
      (n.designated? (n.namePath way) = some way ↔ n.Clear way)) ∧
    ∀ p result, .stored p result ∈ setting.journal world paths →
      ∀ way n, p.root.descendant? way = some n → n.Deprived ∨
        ∀ b ∈ n.behaviors, ∀ l ∈ b.links, ∃ t ∈ l.targets, ∃ found,
          n.find? t.test = some found ∧ l.path = n.namePath found ∧
            (n.designated? l.path = some found ↔ n.Clear found) := by
  refine ⟨fun n p way h => Node.designated?_of_find? h, ?_⟩
  intro p result hp way n hn
  have hsound : p.root.Sound := (soundSession hregistry world paths).stored hp
  rcases hsound.descendant hn with hlinked | hdeprived
  · refine .inr fun b hb l hl => ?_
    obtain ⟨t, ht, found, hfound, hpath⟩ := hlinked l (List.mem_flatMap.2 ⟨b, hb, hl⟩)
    refine ⟨t, ht, found, hfound, hpath, ?_⟩
    rw [hpath]
    exact Node.designated?_of_find? hfound
  · exact .inl hdeprived

/-- The skin of scroll bars has two groups of one name, and a text input borrows it. -/
def borrowedBar : Setting Unit where
  skins := SkinTable.empty.insert "eui.HScrollBar" ⟨"bar.exml"⟩
  sources :=
    { read := fun path _ =>
        if path = ⟨"bar.exml"⟩ then
          .ok "<e:HScrollBar><e:Group/><e:Group><e:Image id=\"thumb\"/></e:Group></e:HScrollBar>"
        else .ok "<e:TextInput skinName=\"eui.HScrollBar\"/>" }
  locator := .openLocator
  store := .memory

/-- The handle of the first scroll bar of a node. -/
def handle? (n : Node) : Option String :=
  n.behaviors.findSome? fun
    | .scrollBar b => b.handle
    | _ => none

theorem borrowedBar_stored (path : Path) (p : Node → Bool) (hnormal : path.normalize = path)
    (h : ((borrowedBar.compileEach [⟨"main.exml"⟩] { world := () }).cache.skin? path).any
      (fun skin => p skin.root) = true) :
    ∃ root handle, .stored (borrowedBar.prefabOf path root) (.ok handle) ∈
      borrowedBar.journal () [⟨"main.exml"⟩] ∧ p root = true :=
  borrowedBar.exists_stored_of_known () _ path hnormal p h

/-- An elder sibling stands in the way of a handle, and a text input keeps a handle without the
descendant that it was bound to. -/
theorem handles_mislead :
    (∃ root handle, .stored (borrowedBar.prefabOf ⟨"bar.exml"⟩ root) (.ok handle) ∈
      borrowedBar.journal () [⟨"main.exml"⟩] ∧
        root.findNamed? "thumb" = some [1, 0] ∧ handle? root = some (root.namePath [1, 0]) ∧
          root.designated? (root.namePath [1, 0]) ≠ some [1, 0]) ∧
    ∃ root handle, .stored (borrowedBar.prefabOf ⟨"main.exml"⟩ root) (.ok handle) ∈
      borrowedBar.journal () [⟨"main.exml"⟩] ∧
        handle? root = some "Group/thumb" ∧ root.designated? "Group/thumb" = none := by
  constructor
  · obtain ⟨root, handle, hstored, hroot⟩ := borrowedBar_stored ⟨"bar.exml"⟩
      (fun root => root.findNamed? "thumb" = some [1, 0] ∧
        handle? root = some (root.namePath [1, 0]) ∧
          root.designated? (root.namePath [1, 0]) ≠ some [1, 0])
      (by decide +kernel) (by decide +kernel)
    exact ⟨root, handle, hstored, of_decide_eq_true hroot⟩
  · obtain ⟨root, handle, hstored, hroot⟩ := borrowedBar_stored ⟨"main.exml"⟩
      (fun root => handle? root = some "Group/thumb" ∧ root.designated? "Group/thumb" = none)
      (by decide +kernel) (by decide +kernel)
    exact ⟨root, handle, hstored, of_decide_eq_true hroot⟩

/-- The way to the thumb of the borrowed bar is not clear. -/
theorem borrowedBar_reference :
    ∃ root handle, .stored (borrowedBar.prefabOf ⟨"bar.exml"⟩ root) (.ok handle) ∈
      borrowedBar.journal () [⟨"main.exml"⟩] ∧ ∃ t : Target, ∃ found,
        root.find? t.test = some found ∧ root.namePath found = "Group/thumb" ∧
          ¬root.Clear found := by
  have hregistry : borrowedBar.registry.OnlyBuiltIn := Registry.builtIn_onlyBuiltIn
  obtain ⟨root, handle, hstored, hroot⟩ := borrowedBar_stored ⟨"bar.exml"⟩
    (fun root => root.has .editBox = false ∧ root.designated? "Group/thumb" = none ∧
      (root.links.any fun l => l.path = "Group/thumb") = true)
    (by decide +kernel) (by decide +kernel)
  obtain ⟨hedit, hnone, hlinks⟩ := of_decide_eq_true hroot
  obtain ⟨l, hl, hpath⟩ := List.any_eq_true.1 hlinks
  obtain ⟨b, hb, hlb⟩ := List.mem_flatMap.1 hl
  rcases (references_designate hregistry () [⟨"main.exml"⟩]).2 _ _ hstored [] root rfl with
    hdeprived | hlinked
  · have hdeprived := hdeprived.1
    rw [hedit] at hdeprived
    cases hdeprived
  obtain ⟨t, -, found, hfound, hnames, hclear⟩ := hlinked b hb l hlb
  rw [of_decide_eq_true hpath] at hnames hclear
  refine ⟨root, handle, hstored, t, found, hfound, hnames.symm, fun h => ?_⟩
  rw [hclear.2 h] at hnone
  cases hnone

end Setting

end MarkupScene
