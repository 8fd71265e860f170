import MarkupScene.Proofs.BoundReferences

/-!
# What importers leave alone

The built-in importers change sizes, visibility and behaviors of nodes and remove children, and they
reach the outside through the locator only. The only assets whose borders they write are those of
sprites that they or earlier importers found. The main statement is that a property of nodes that
outlasts such changes outlasts every import, while the outside moves as the locator moves it.
-/
namespace MarkupScene

variable {ω α β : Type}

/-- A relation between states of the outside that holds when nothing happens, and in a row. -/
structure Motion (ω : Type) where
  moves : ω → ω → Prop
  refl (w : ω) : moves w w
  trans {u v w : ω} : moves u v → moves v w → moves u w

namespace Motion

/-- Everything may happen. -/
def any : Motion ω where
  moves _ _ := True
  refl _ := trivial
  trans _ _ := trivial

end Motion

/-- A locator that finds only known assets by the names of a table and, as long as it is asked for
borders of known assets, moves the outside as it may. -/
structure Locator.Serves (l : Locator ω) (m : Motion ω) (table : AssetTable)
    (known : AssetRef → Prop) : Prop where
  resolve {name : String} {query : AssetQuery} (h : table.query? name = some query) (w : ω) :
    m.moves w (l.resolve query.path query.frame w).2 ∧
      ∀ asset, (l.resolve query.path query.frame w).1 = some asset → known asset
  textureSize (asset : AssetRef) (w : ω) : m.moves w (l.textureSize asset w).2
  setBorder {asset : AssetRef} (h : known asset) (grid : Rect) (w : ω) :
    m.moves w (l.setBorder asset grid w).2
  loadFont (asset : AssetRef) (w : ω) : m.moves w (l.loadFont asset w).2

namespace Node

/-- A property of nodes that outlasts what importers do to them. Sprites that are attached show
known assets. -/
structure Lasting (known : AssetRef → Prop) (p : Node → Prop) : Prop where
  children {n : Node} (cs : List Node) : p n → p { n with children := cs }
  size {n : Node} (size : Size) : p n → p { n with size }
  active {n : Node} (active : Bool) : p n → p { n with active }
  mapSprite {n : Node} {f : Sprite → Sprite} (hf : ∀ s, (f s).frame = s.frame) :
    p n → p (n.mapSprite f)
  mapLabel {n : Node} (f : Label → Label) : p n → p (n.mapLabel f)
  attach {n m : Node} {b : Behavior}
    (hb : ∀ s asset, b = .sprite s → s.frame = some asset → known asset)
    (hm : n.attach b = .ok m) : p n → p m
  shown {n : Node} {s : Sprite} {asset : AssetRef} (hs : n.sprite? = some s)
    (hasset : s.frame = some asset) : p n → known asset

theorem Every.mono {p q : Node → Prop} (h : ∀ m, p m → q m) {n : Node} (hn : n.Every p) :
    n.Every q := by
  induction hn with
  | node hp _ ih => exact .node (h _ hp) ih

section
variable {p : Node → Prop} {n m : Node} {f : Node → Node}

theorem Every.modifyAt
    (hchildren : ∀ {n : Node} (cs : List Node), p n → p { n with children := cs })
    (hf : ∀ m, m.Every p → (f m).Every p) (hn : n.Every p) (way : List Nat) :
    (n.modifyAt f way).Every p := by
  induction way generalizing n with
  | nil => exact hf n hn
  | cons i way ih =>
    rw [Node.modifyAt]
    split
    · next c hc =>
      refine .node (hchildren _ hn.root) fun d hd => ?_
      rcases List.mem_or_eq_of_mem_set hd with hd | rfl
      · exact hn.children d hd
      · exact ih (hn.children c (List.mem_of_getElem? hc))
    · exact hn

theorem Every.modifyFound
    (hchildren : ∀ {n : Node} (cs : List Node), p n → p { n with children := cs })
    (hf : ∀ m, m.Every p → (f m).Every p) (hn : n.Every p) (found : Option (List Nat))
    (hm : m = match found with
      | some way => n.modifyAt f way
      | none => n) : m.Every p := by
  subst hm
  cases found with
  | none => exact hn
  | some way => exact hn.modifyAt hchildren hf way

theorem Every.putAside
    (hchildren : ∀ {n : Node} (cs : List Node), p n → p { n with children := cs })
    (hactive : ∀ {n : Node} (active : Bool), p n → p { n with active }) (hn : n.Every p)
    (isTemplate : Bool) :
    Every p { n with children := Widget.putAside isTemplate n.children } := by
  refine .node (hchildren _ hn.root) fun c hc => ?_
  cases isTemplate with
  | false => cases hc
  | true =>
    obtain ⟨d, hd, rfl⟩ := List.mem_map.1 hc
    have hbefore : d.Every p := hn.children d hd
    exact .node (hactive false hbefore.root) hbefore.children

end

end Node

namespace Importing

/-- An action that moves the outside as it may and has a result with a property. -/
def Keeps (m : Motion ω) (action : Importing ω α) (p : α → Prop) : Prop :=
  ∀ s, m.moves s.world (action s).2.world ∧ p (action s).1

namespace Keeps
variable {m : Motion ω} {action : Importing ω α} {f : α → Importing ω β} {p : α → Prop}
  {q : β → Prop}

theorem pure {a : α} (h : p a) : Keeps m (Pure.pure a : Importing ω α) p :=
  fun s => ⟨m.refl s.world, h⟩

theorem bind (hm : Keeps m action p) (hf : ∀ a, p a → Keeps m (f a) q) :
    Keeps m (action >>= f) q := by
  intro s
  obtain ⟨hfirst, ha⟩ := hm s
  obtain ⟨hsecond, hb⟩ := hf _ ha (action s).2
  exact ⟨m.trans hfirst hsecond, hb⟩

theorem after (hm : Keeps m action fun _ => True) (hf : ∀ a, Keeps m (f a) q) :
    Keeps m (action >>= f) q :=
  hm.bind fun a _ => hf a

theorem ask {action : StateM ω α}
    (h : ∀ w, m.moves w (action w).2 ∧ p (action w).1) : Keeps m (ImportScope.ask action) p :=
  fun s => h s.world

theorem report (scope : ImportScope ω) (kind : DiagnosticKind) (message : String) :
    Keeps m (scope.report kind message) fun _ => True :=
  fun s => ⟨m.refl s.world, trivial⟩

end Keeps

section
variable {m : Motion ω} {known : AssetRef → Prop} {p : Node → Prop} {scope : ImportScope ω}
  {n : Node}

/-- An asset that is found by its name is known. -/
theorem resolve_keeps (hserves : scope.locator.Serves m scope.assets known) (name : String) :
    Keeps m (scope.resolve name) fun found => ∀ asset, found = some asset → known asset := by
  have hfound : ∀ found : Option AssetRef, (∀ asset, found = some asset → known asset) →
      Keeps m
        (if found.isNone then do
          scope.report .unresolvedResource ("resource '" ++ name ++ "' not found")
          return found
        else return found) fun found => ∀ asset, found = some asset → known asset := by
    intro found hknown
    split
    · exact .after (.report _ _ _) fun _ => .pure hknown
    · exact .pure hknown
  unfold ImportScope.resolve
  split
  · exact .pure fun _ h => nomatch h
  · dsimp only
    split
    · next query hquery => exact .bind (.ask (hserves.resolve hquery)) hfound
    · exact .bind (.pure fun _ h => nomatch h) hfound

theorem attach_keeps (hp : Node.Lasting known p) (hn : n.Every p) {b : Behavior}
    (hb : ∀ s asset, b = .sprite s → s.frame = some asset → known asset) :
    Keeps m (scope.attach n b) (Node.Every p) := by
  unfold ImportScope.attach
  split
  · next made hmade =>
    obtain ⟨bs, rfl, -⟩ := Node.attach_ok hmade
    exact .pure (.node (hp.attach hb hmade hn.root) hn.children)
  · exact .after (.report _ _ _) fun _ => .pure hn

end

end Importing

/-- An importer that keeps a property of all nodes of a tree and moves the outside as it may. -/
def Importer.Keeps (i : Importer ω) (m : Motion ω) (known : AssetRef → Prop) (p : Node → Prop) :
    Prop :=
  ∀ scope e n, scope.locator.Serves m scope.assets known → n.Every p →
    (i scope e n).Keeps m (Node.Every p)

namespace Widget

open Importing

section
variable {m : Motion ω} {known : AssetRef → Prop} {p : Node → Prop}

theorem sourcedSprite_keeps {scope : ImportScope ω} (hp : Node.Lasting known p)
    (hserves : scope.locator.Serves m scope.assets known) (e : Element) {n : Node}
    (hn : n.Every p) :
    Keeps m (sourcedSprite scope e n) fun s => ∀ asset, s.frame = some asset → known asset := by
  unfold sourcedSprite
  split
  · exact .bind (resolve_keeps hserves _) fun _ hfound => .pure hfound
  · refine .pure fun asset hasset => ?_
    cases hsprite : n.sprite? with
    | none =>
      rw [hsprite] at hasset
      cases hasset
    | some s =>
      rw [hsprite] at hasset
      exact hp.shown hsprite hasset hn.root

theorem naturalSize_keeps {scope : ImportScope ω}
    (hserves : scope.locator.Serves m scope.assets known) (sprite : Sprite) (own : Size) :
    Keeps m (naturalSize scope sprite own) fun _ => True := by
  unfold naturalSize
  split
  · exact .after (.ask fun w => ⟨hserves.textureSize _ w, trivial⟩) fun _ => .pure trivial
  · exact .pure trivial

theorem writeBorder_keeps {scope : ImportScope ω}
    (hserves : scope.locator.Serves m scope.assets known) {sprite : Sprite}
    (hsprite : ∀ asset, sprite.frame = some asset → known asset) (grid : Option Rect) :
    Keeps m (writeBorder scope sprite grid) fun _ => True := by
  unfold writeBorder
  split
  · next hasset =>
    exact .after (.ask fun w => ⟨hserves.setBorder (hsprite _ hasset) _ w, trivial⟩) fun _ =>
      .pure trivial
  · exact .pure trivial

theorem image_keeps_lasting (hp : Node.Lasting known p) :
    (image : Importer ω).Keeps m known p := by
  intro scope e n hserves hn
  have hattach : ∀ (size : Size) (s : Sprite), (∀ asset, s.frame = some asset → known asset) →
      Keeps m (scope.attach { n with size } (.sprite s)) (Node.Every p) := by
    intro size s hs
    refine attach_keeps hp (.node (hp.size size hn.root) hn.children) fun t asset ht hasset => ?_
    obtain rfl := Behavior.sprite.inj ht
    exact hs asset hasset
  unfold image
  refine .bind (sourcedSprite_keeps hp hserves e hn) fun s hs => ?_
  dsimp only
  split
  · exact .after (.pure trivial) fun _ =>
      .after (writeBorder_keeps hserves hs _) fun _ => hattach _ _ hs
  · exact .after (naturalSize_keeps hserves s n.size) fun _ =>
      .after (writeBorder_keeps hserves hs _) fun _ => hattach _ _ hs

theorem label_keeps_lasting (hp : Node.Lasting known p) : (label : Importer ω).Keeps m known p :=
  fun _ _ _ _ hn => attach_keeps hp hn fun _ _ h => nomatch h

theorem bitmapLabel_keeps_lasting (hp : Node.Lasting known p) :
    (bitmapLabel : Importer ω).Keeps m known p := by
  intro scope e n hserves hn
  have hattach : ∀ l : Label, Keeps m (scope.attach n (.label l)) (Node.Every p) :=
    fun _ => attach_keeps hp hn fun _ _ h => nomatch h
  unfold bitmapLabel
  refine .bind (resolve_keeps hserves _) fun found _ => ?_
  cases found with
  | none => exact hattach _
  | some font =>
    have hmetrics : Keeps m (withFont scope (labelOf e n) font) fun _ => True := by
      unfold withFont
      refine .after (.ask fun w => ⟨hserves.loadFont font w, trivial⟩) fun metrics => ?_
      cases metrics with
      | ok metrics => exact .pure trivial
      | error failure => exact .pure trivial
    exact .after hmetrics fun _ => hattach _

theorem scrollBar_keeps_lasting (hp : Node.Lasting known p) (direction : Axis) :
    (scrollBar direction : Importer ω).Keeps m known p := by
  intro scope e n hserves hn
  have hstretch : ∀ c : Node, c.Every p → (stretchSprite c).Every p :=
    fun c hc => .node (hp.mapSprite (fun _ => rfl) hc.root) hc.children
  have hstretched := hn.modifyFound hp.children hstretch (n.findNamed? "thumb") rfl
  exact attach_keeps hp hstretched fun _ _ h => nomatch h

theorem scroller_keeps_lasting (hp : Node.Lasting known p) :
    (scroller : Importer ω).Keeps m known p := by
  intro scope e n hserves hn
  have hfill : ∀ c : Node, c.Every p → Node.Every p { c with size := fillSize n.size c.size } :=
    fun c hc => .node (hp.size _ hc.root) hc.children
  have hfilled := hn.modifyFound hp.children hfill (viewport? n) rfl
  exact .bind (attach_keeps hp hfilled fun _ _ h => nomatch h) fun _ hattached =>
    attach_keeps hp hattached fun _ _ h => nomatch h

theorem progressBar_keeps_lasting (hp : Node.Lasting known p) :
    (progressBar : Importer ω).Keeps m known p := by
  intro scope e n hserves hn
  have hfill : ∀ fill (c : Node), c.Every p → (fillSprite fill c).Every p :=
    fun fill c hc => .node (hp.mapSprite (fun _ => rfl) hc.root) hc.children
  have htext : ∀ text (c : Node), c.Every p → Node.Every p (c.mapLabel fun l => { l with text }) :=
    fun text c hc => .node (hp.mapLabel _ hc.root) hc.children
  have hfilled := fun fill => hn.modifyFound hp.children (hfill fill) (n.findNamed? "thumb") rfl
  exact attach_keeps hp ((hfilled _).modifyFound hp.children (htext _) _ rfl) fun _ _ h => nomatch h

theorem textInput_keeps_lasting (hp : Node.Lasting known p) :
    (textInput : Importer ω).Keeps m known p :=
  fun scope _ _ _ hn =>
    attach_keeps hp (hn.putAside hp.children hp.active scope.isTemplate) fun _ _ h => nomatch h

end

end Widget

theorem Registry.builtIn_keeps {entry : String × Importer ω} (hentry : entry ∈ builtInImporters)
    (m : Motion ω) {known : AssetRef → Prop} {p : Node → Prop} (hp : Node.Lasting known p) :
    entry.2.Keeps m known p :=
  builtIn_cases (motive := fun i => i.Keeps m known p) (Widget.image_keeps_lasting hp)
    (Widget.label_keeps_lasting hp) (Widget.bitmapLabel_keeps_lasting hp)
    (Widget.scrollBar_keeps_lasting hp) (Widget.scroller_keeps_lasting hp)
    (Widget.progressBar_keeps_lasting hp) (Widget.textInput_keeps_lasting hp)
    (fun _ _ _ _ hn => .pure hn) hentry

theorem Registry.OnlyBuiltIn.keeps {r : Registry ω} (hr : r.OnlyBuiltIn) {w : String}
    {i : Importer ω} (h : r.importer? w = some i) (m : Motion ω) {known : AssetRef → Prop}
    {p : Node → Prop} (hp : Node.Lasting known p) : i.Keeps m known p := by
  obtain ⟨entry, hentry, rfl⟩ := hr w i h
  exact builtIn_keeps hentry m hp

theorem Registry.builtIn_every {entry : String × Importer ω} (hentry : entry ∈ builtInImporters)
    {p : Node → Prop} (hp : Node.Lasting (fun _ => True) p) (scope : ImportScope ω) (e : Element)
    {n : Node} (hn : n.Every p) (around : Surroundings ω) :
    (entry.2 scope e n around).1.Every p := by
  have hserves : scope.locator.Serves .any scope.assets fun _ => True :=
    { resolve := fun _ _ => ⟨trivial, fun _ _ => trivial⟩
      textureSize := fun _ _ => trivial
      setBorder := fun _ _ _ => trivial
      loadFont := fun _ _ => trivial }
  exact (builtIn_keeps hentry .any hp scope e n hserves hn around).2

end MarkupScene
