import MarkupScene.Proofs.LocatorCalls
import MarkupScene.Proofs.TwinDisks

/-!
# The vertical axis

Which way vertical coordinates are turned around shows in the heights of nodes and nowhere else. The
main statement is that two runs that differ in this option alone have the same result and report, ask
the locator the same and store prefabs that differ in heights only, as long as nothing outside of
them tells heights apart. Each height is what the option makes of the element of its node.
-/
namespace MarkupScene

open Numeric

variable {ω : Type}

namespace Setting
variable {setting : Setting ω} {alike : ω → ω → Prop} {paths : List Path}

theorem Overlooks.traced (h : setting.Overlooks alike paths) :
    setting.traced.Overlooks (fun t t' => alike t.world t'.world ∧ t.calls = t'.calls) paths := by
  have hcall : ∀ {α : Type} (c : LocatorCall) {action : StateM ω α}, Agree alike action action →
      Agree (fun t t' : Traced ω => alike t.world t'.world ∧ t.calls = t'.calls)
        (Traced.call c action) (Traced.call c action) := by
    rintro α c action haction t t' ⟨hworld, hcalls⟩
    obtain ⟨hsame, hworlds⟩ := haction _ _ hworld
    exact ⟨hsame, hworlds, congrArg (· ++ [c]) hcalls⟩
  constructor
  case read => exact fun hpath hworld => h.read hpath hworld.1
  case resolve => exact fun path frame => hcall _ (h.resolve path frame)
  case textureSize => exact fun asset => hcall _ (h.textureSize asset)
  case setBorder => exact fun asset grid => hcall _ (h.setBorder asset grid)
  case loadFont => exact fun asset => hcall _ (h.loadFont asset)
  case persist =>
    rintro path root root' hpath hroot t t' ⟨hworld, hcalls⟩
    obtain ⟨hsame, hworlds⟩ := h.persist hpath hroot _ _ hworld
    exact ⟨hsame, hworlds, hcalls⟩

/-- Runs over paths that turn vertical coordinates around in the two ways differ in heights only. -/
structure OnlyHeightsDiffer (setting : Setting ω) (alike : ω → ω → Prop) (paths : List Path)
    (world world' : ω) : Prop where
  /-- The same report, or the same failure of the store. -/
  result : ((setting.along .anchorOffset).run paths world).1 =
    ((setting.along .parentFlip).run paths world').1
  outside : alike ((setting.along .anchorOffset).run paths world).2
    ((setting.along .parentFlip).run paths world').2
  asked : (setting.along .anchorOffset).locatorCalls paths world =
    (setting.along .parentFlip).locatorCalls paths world'
  /-- The calls are listed beside the run itself. -/
  traced (yAxis : YAxis) (start : ω) :
    (((setting.along yAxis).traced.run paths { world := start }).1,
      ((setting.along yAxis).traced.run paths { world := start }).2.world) =
        (setting.along yAxis).run paths start
  /-- The same prefabs with the same answers, one by one, when all heights are set to zero. -/
  stored : ((setting.along .anchorOffset).runJournal world paths).levels =
    ((setting.along .parentFlip).runJournal world' paths).levels
  /-- The root of each prefab was built from the markup of its file, in no parent. -/
  placed {yAxis : YAxis} {start : ω} {p : Prefab} {result : Except Failure PrefabRef} :
    .stored p result ∈ (setting.along yAxis).runJournal start paths →
      ∃ below before e,
        .began below p.source before ∈ (setting.along yAxis).runJournal start paths ∧
          setting.sources.document p.source before.world = .ok e ∧
            (setting.along yAxis).Placed
              (Begins ((setting.along yAxis).runJournal start paths) (p.source :: below)) e
              (setting.rootWidget? p.source) none p.root

/-- The way in which vertical coordinates are turned around affects nothing but heights. -/
theorem only_heights_differ (hregistry : setting.registry = .builtIn)
    (h : setting.Overlooks alike paths) {world world' : ω} (hworld : alike world world') :
    setting.OnlyHeightsDiffer alike paths world world' := by
  have hbuiltIn : setting.registry.OnlyBuiltIn := hregistry ▸ Registry.builtIn_onlyBuiltIn
  obtain ⟨hresult, houtside, hstored⟩ := run_twin h hbuiltIn .anchorOffset .parentFlip hworld
  have hnew : alike (Traced.mk world []).world (Traced.mk world' []).world ∧
      (Traced.mk world []).calls = (Traced.mk world' []).calls := ⟨hworld, rfl⟩
  obtain ⟨-, htraced, -⟩ :=
    run_twin h.traced Registry.builtIn_onlyBuiltIn .anchorOffset .parentFlip hnew
  constructor
  case result => exact hresult
  case outside => exact houtside
  case asked => exact htraced.2
  case traced =>
    intro yAxis start
    have hplain : (setting.along yAxis).registry = .builtIn := hregistry
    exact run_traced hplain paths start
  case stored => exact hstored
  case placed =>
    intro yAxis start p result hp
    have haccounted : (setting.along yAxis).Accounted
        ((setting.along yAxis).watchRun start paths) :=
      watchRun_induction ((setting.along yAxis).accounted start) paths
    obtain ⟨path, root, rfl, -, below, before, e, hbegan, hdocument, hgrown⟩ :=
      haccounted.stored hp
    exact ⟨below, before, e, hbegan, hdocument, hgrown.placed hbuiltIn⟩

/-- The store leaves a text beside the prefab, which the run reads as its next file. -/
def echo : Setting String where
  sources :=
    { read := fun path text =>
        if path = ⟨"main.exml"⟩ then .ok "<e:Group height=\"10\"><e:Group y=\"10\"/></e:Group>"
        else .ok text }
  locator := .openLocator
  store :=
    { persist := fun p _ =>
        (.ok ⟨p.url⟩, if p.root.children.any fun c => c.position.y = 0 then "<e:Group/>"
          else "<e:Label/>") }

/-- What a store gives back to the run may depend on heights, and the next prefab on that. -/
theorem echo_tells :
    echo.registry = .builtIn ∧
      ((echo.along .anchorOffset).runJournal "" [⟨"main.exml"⟩, ⟨"main.prefab"⟩]).calls.map
        (fun c => c.1.root.widget) = [some "Group", some "Label"] ∧
      ((echo.along .parentFlip).runJournal "" [⟨"main.exml"⟩, ⟨"main.prefab"⟩]).calls.map
        (fun c => c.1.root.widget) = [some "Group", some "Group"] :=
  ⟨rfl, by decide +kernel, by decide +kernel⟩

/-- A lower group in a group, and a store that keeps the prefabs. -/
def album : Setting World where
  sources := { read := fun _ _ => .ok "<e:Group height=\"10\"><e:Group y=\"3\"/></e:Group>" }
  locator := .openLocator
  store := .recorded none .memory

/-- Worlds with the same prefabs up to heights, and otherwise the same. -/
def SameAlbum (w w' : World) : Prop :=
  w.prefabs.map Prefab.leveled = w'.prefabs.map Prefab.leveled ∧
    { w with prefabs := [] } = { w' with prefabs := [] }

theorem album_overlooks (paths : List Path) : album.Overlooks SameAlbum paths where
  read _ _ := rfl
  resolve _ _ _ _ h := ⟨rfl, h⟩
  textureSize _ _ _ h := ⟨rfl, h⟩
  setBorder _ _ _ _ h := ⟨rfl, h⟩
  loadFont _ _ _ h := ⟨rfl, h⟩
  persist {path root root'} _ hroot w w' h := by
    have hprefab : (album.prefabOf path root).leveled = (album.prefabOf path root').leveled :=
      congrArg (fun root => { album.prefabOf path root with root }) hroot
    refine ⟨rfl, ?_, congrArg (fun w => { w with attempts := w.attempts + 1 }) h.2⟩
    change (w.prefabs ++ [_]).map Prefab.leveled = (w'.prefabs ++ [_]).map Prefab.leveled
    rw [List.map_append, List.map_append, h.1, List.map_singleton, List.map_singleton, hprefab]

/-- The same group in a file, with the prefab beside it. -/
def cabinet : Setting World where
  sources := .onDisk
  locator := .openLocator
  store := .onDisk

def cabinetWorld : World where
  disk :=
    { entries := [(["main.exml"],
        .file "<e:Group height=\"10\"><e:Group y=\"3\"/></e:Group>".toUTF8)] }

theorem cabinet_overlooks :
    cabinet.Overlooks (World.Twin (cabinet.PrefabPlaces [] [⟨"main.exml"⟩]) [])
      [⟨"main.exml"⟩] := by
  have hmain : ∀ path, cabinet.MayRead [⟨"main.exml"⟩] path → path = ⟨"main.exml"⟩ := by
    rintro path (hpath | hpath)
    · exact (List.mem_singleton.1 hpath).trans (by decide +kernel)
    · cases hpath
  refine onDisk_overlooks rfl rfl Locator.openLocator_inert ?_
  rintro path hpath ⟨source, hsource, hplace⟩
  rw [hmain path hpath, hmain source hsource] at hplace
  exact absurd hplace (by decide +kernel)

/-- Which way the heights of the group are turned around shows in the prefabs and nowhere else, be
they kept in a list or on a disk. -/
theorem album_heights :
    (album.registry = .builtIn ∧ album.Overlooks SameAlbum [⟨"main.exml"⟩] ∧ SameAlbum {} {} ∧
      album.OnlyHeightsDiffer SameAlbum [⟨"main.exml"⟩] {} {} ∧
      ((album.along .anchorOffset).run [⟨"main.exml"⟩] {}).2.prefabs.map
        (fun p => p.root.children.map fun c => c.position.y) = [[-3]] ∧
      ((album.along .parentFlip).run [⟨"main.exml"⟩] {}).2.prefabs.map
        (fun p => p.root.children.map fun c => c.position.y) = [[7]]) ∧
    cabinet.OnlyHeightsDiffer (World.Twin (cabinet.PrefabPlaces [] [⟨"main.exml"⟩]) [])
      [⟨"main.exml"⟩] cabinetWorld cabinetWorld := by
  have hempty : SameAlbum {} {} := ⟨rfl, rfl⟩
  refine ⟨⟨rfl, album_overlooks _, hempty, ?_, by decide +kernel, by decide +kernel⟩, ?_⟩
  · exact only_heights_differ rfl (album_overlooks _) hempty
  · exact only_heights_differ rfl cabinet_overlooks ⟨.refl _ _, rfl, rfl⟩

end Setting

end MarkupScene
