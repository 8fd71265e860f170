import MarkupScene.Proofs.Positions

/-!
# Levels

Trees that differ in the heights of their nodes only are of one level. Layout makes trees of one level
of them whichever way it turns vertical coordinates around, and so do copies. The main statement is
that importers do the same to trees of one level, as long as nothing outside tells heights apart.
-/
namespace MarkupScene

open Numeric

variable {ω α : Type}

namespace Node

def leveled (n : Node) : Node := n.reposition fun _ p => { p with y := 0 }

theorem leveled_mk (body : Body) (children : List Node) :
    leveled ⟨body, children⟩ =
      ⟨{ body with position := { body.position with y := 0 } }, children.map leveled⟩ := by
  unfold leveled
  rw [reposition_mk]
  refine congrArg (Node.mk _) (List.ext_getElem? fun i => ?_)
  rw [List.getElem?_mapIdx, List.getElem?_map]

variable {n m : Node}

theorem exists_of_leveled (h : n.leveled = m.leveled) :
    ∃ y children, m = { n with position := { n.position with y }, children } ∧
      n.children.map leveled = children.map leveled := by
  obtain ⟨body, children⟩ := n
  obtain ⟨body', children'⟩ := m
  rw [leveled_mk, leveled_mk, Node.mk.injEq] at h
  refine ⟨body'.position.y, children', ?_, h.2⟩
  have hbody := congrArg (fun b : Body => { b with position := { b.position with
    y := body'.position.y } }) h.1
  exact congrArg (Node.mk · children') hbody.symm

theorem leveled_congr {children children' : List Node} (y : Single) (n : Node)
    (h : children.map leveled = children'.map leveled) :
    leveled { n with children } =
      leveled { n with position := { n.position with y }, children := children' } := by
  rw [leveled_mk, leveled_mk, h]

/-- A node as layout puts it into a parent and with the children that it takes in. It does not matter
which way layout turns heights around. -/
theorem leveled_arrange (h : n.leveled = m.leveled) {kids kids' : List Node}
    (hkids : kids.map leveled = kids'.map leveled) (yAxis yAxis' : YAxis) (p : Placement)
    (parent : Option Size) (widget : Option String) :
    leveled { n.arrange yAxis p parent with widget, children := n.children ++ kids } =
      leveled { m.arrange yAxis' p parent with widget, children := m.children ++ kids' } := by
  obtain ⟨y, children, rfl, hchildren⟩ := exists_of_leveled h
  apply leveled_congr (yAxis'.place (parent.getD {}).height p.y p.anchorOffsetY)
    { n.arrange yAxis p parent with widget }
  rw [List.map_append, List.map_append, hchildren, hkids]

theorem size_arrange_of_leveled (h : n.leveled = m.leveled) (yAxis yAxis' : YAxis) (p : Placement)
    (parent : Option Size) :
    (m.arrange yAxis' p parent).size = (n.arrange yAxis p parent).size := by
  obtain ⟨y, children, rfl, -⟩ := exists_of_leveled h
  rfl

theorem leveled_copy (h : n.leveled = m.leveled) (name : String) (handle : PrefabRef) :
    leveled { n with name, skin := some handle } =
      leveled { m with name, skin := some handle } := by
  obtain ⟨y, children, rfl, hchildren⟩ := exists_of_leveled h
  exact leveled_congr y { n with name, skin := some handle } hchildren

end Node

def Prefab.leveled (p : Prefab) : Prefab := { p with root := p.root.leveled }

/-- Two actions with the same answer when the outside is alike before, and is alike after them. -/
def Agree (alike : ω → ω → Prop) (action action' : StateM ω α) : Prop :=
  ∀ w w', alike w w' → (action w).1 = (action' w').1 ∧ alike (action w).2 (action' w').2

/-- The files that compile calls on paths may read. -/
def Setting.MayRead (setting : Setting ω) (paths : List Path) (path : Path) : Prop :=
  path ∈ paths.map Path.normalize ∨ path ∈ setting.skins.paths

/-- Nothing outside of a run over paths tells heights apart: what it reads and what it is answered are
the same when the outside is alike, and the outside is alike after prefabs that differ in heights. -/
structure Setting.Overlooks (setting : Setting ω) (alike : ω → ω → Prop) (paths : List Path) :
    Prop where
  read {path : Path} {w w' : ω} : setting.MayRead paths path → alike w w' →
    setting.sources.read path w = setting.sources.read path w'
  resolve (path : String) (frame : Option String) :
    Agree alike (setting.locator.resolve path frame) (setting.locator.resolve path frame)
  textureSize (asset : AssetRef) :
    Agree alike (setting.locator.textureSize asset) (setting.locator.textureSize asset)
  setBorder (asset : AssetRef) (grid : Rect) :
    Agree alike (setting.locator.setBorder asset grid) (setting.locator.setBorder asset grid)
  loadFont (asset : AssetRef) :
    Agree alike (setting.locator.loadFont asset) (setting.locator.loadFont asset)
  persist {path : Path} {root root' : Node} : setting.MayRead paths path →
    root.leveled = root'.leveled → Agree alike (setting.store.persist (setting.prefabOf path root))
      (setting.store.persist (setting.prefabOf path root'))

/-- An action with the same answer and the same reports when the outside is alike. -/
def Importing.Overlooks (alike : ω → ω → Prop) (m : Importing ω α) : Prop :=
  ∀ s s', alike s.world s'.world → s.diagnostics = s'.diagnostics →
    (m s).1 = (m s').1 ∧ alike (m s).2.world (m s').2.world ∧
      (m s).2.diagnostics = (m s').2.diagnostics

theorem Importing.overlooks_closed {alike : ω → ω → Prop} {scope : ImportScope ω}
    (resolve : ∀ path frame,
      Agree alike (scope.locator.resolve path frame) (scope.locator.resolve path frame))
    (textureSize : ∀ asset,
      Agree alike (scope.locator.textureSize asset) (scope.locator.textureSize asset))
    (setBorder : ∀ asset grid,
      Agree alike (scope.locator.setBorder asset grid) (scope.locator.setBorder asset grid))
    (loadFont : ∀ asset,
      Agree alike (scope.locator.loadFont asset) (scope.locator.loadFont asset)) :
    Importing.Closed scope fun _ m => m.Overlooks alike := by
  have hask : ∀ {α : Type} {action : StateM ω α}, Agree alike action action →
      (ImportScope.ask action).Overlooks alike := by
    intro α action haction s s' hworld hdiagnostics
    obtain ⟨hsame, hworlds⟩ := haction _ _ hworld
    exact ⟨hsame, hworlds, hdiagnostics⟩
  have hbind : ∀ {α β : Type} {m : Importing ω α} {f : α → Importing ω β}, m.Overlooks alike →
      (∀ a, (f a).Overlooks alike) → (m >>= f).Overlooks alike := by
    intro α β m f hm hf s s' hworld hdiagnostics
    obtain ⟨hsame, hworlds, hreports⟩ := hm s s' hworld hdiagnostics
    rw [Importing.bind_apply, Importing.bind_apply, hsame]
    exact hf _ _ _ hworlds hreports
  have hpure : ∀ {α : Type} (a : α), Importing.Overlooks alike (pure a) :=
    fun a s s' hworld hdiagnostics => ⟨rfl, hworld, hdiagnostics⟩
  constructor
  case pure => exact hpure
  case bind => exact hbind
  case locate => exact fun path frame => hask (resolve path frame)
  case textureSize => exact fun asset => hask (textureSize asset)
  case loadFont => exact fun asset => hask (loadFont asset)
  case setBorder => exact fun asset grid => hbind (hask (setBorder asset grid)) fun _ => hpure ()
  case report =>
    intro kind message _ s s' hworld hdiagnostics
    exact ⟨rfl, hworld, congrArg (· ++ _) hdiagnostics⟩

theorem Setting.Overlooks.closed {setting : Setting ω} {alike : ω → ω → Prop} {paths : List Path}
    (h : setting.Overlooks alike paths) {scope : ImportScope ω}
    (hlocator : scope.locator = setting.locator) :
    Importing.Closed scope fun _ m => m.Overlooks alike := by
  refine Importing.overlooks_closed ?_ ?_ ?_ ?_
  · exact hlocator ▸ h.resolve
  · exact hlocator ▸ h.textureSize
  · exact hlocator ▸ h.setBorder
  · exact hlocator ▸ h.loadFont

theorem Setting.Overlooks.importer {setting : Setting ω} {alike : ω → ω → Prop}
    {paths : List Path} (h : setting.Overlooks alike paths)
    (hregistry : setting.registry.OnlyBuiltIn) {w : String} {i : Importer ω}
    (hi : setting.registry.importer? w = some i) {scope : ImportScope ω}
    (hlocator : scope.locator = setting.locator) (e : Element) {n m : Node}
    (hn : n.leveled = m.leveled) (s s' : Surroundings ω) (hworld : alike s.world s'.world)
    (hdiagnostics : s.diagnostics = s'.diagnostics) :
    (i scope e n s).1.leveled = (i scope e m s').1.leveled ∧
      alike (i scope e n s).2.world (i scope e m s').2.world ∧
        (i scope e n s).2.diagnostics = (i scope e m s').2.diagnostics := by
  have hlevel : ∀ n : Node, i scope e n.leveled = Node.leveled <$> i scope e n := fun n =>
    hregistry.indifferent hi scope e n _
  have hsame := hregistry.closed hi (h.closed hlocator) e n.leveled s s' hworld hdiagnostics
  rw [congrFun (hlevel n) s, congrFun ((congrArg (i scope e) hn).trans (hlevel m)) s'] at hsame
  exact hsame

end MarkupScene
