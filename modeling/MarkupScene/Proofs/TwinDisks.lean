import MarkupScene.Proofs.DiskFrames
import MarkupScene.Proofs.TwinRuns

/-!
# Twin disks

Disks with the same files and directories may differ in what some of the files hold. Walks end alike
on them, whatever is made or written next succeeds or fails alike, and only files at those places are
read differently. The main statement is that nothing on disk tells heights apart as long as prefabs go
to places where no source is read.
-/
namespace MarkupScene

namespace Disk

/-- What twin disks have at a location: the same, or files where files may differ. -/
inductive SameEntry (loose : Prop) : Option Entry → Option Entry → Prop where
  | same (e : Option Entry) : SameEntry loose e e
  | files (h : loose) (content content' : ByteArray) :
      SameEntry loose (some (.file content)) (some (.file content'))

/-- Disks that differ only in what files at some places hold. -/
structure Twin (places : Location → Prop) (d d' : Disk) : Prop where
  working : d.working = d'.working
  entry (l : Location) : SameEntry (places l) (d.entry? l) (d'.entry? l)

/-- Where walks along one path end on twin disks. -/
inductive SameEnd (places : Location → Prop) :
    Except DiskFault Place → Except DiskFault Place → Prop where
  | same (result : Except DiskFault Place) : SameEnd places result result
  | files {l : Location} (h : places l) (content content' : ByteArray) :
      SameEnd places (.ok (.found l (.file content))) (.ok (.found l (.file content')))

/-- Twin disks, or the same fault. -/
inductive SameDisks (places : Location → Prop) : Except DiskFault Disk → Except DiskFault Disk → Prop
    where
  | ok {d d' : Disk} (h : Twin places d d') : SameDisks places (.ok d) (.ok d')
  | error (fault : DiskFault) : SameDisks places (.error fault) (.error fault)

namespace Twin
variable {places : Location → Prop} {d d' : Disk}

theorem refl (places : Location → Prop) (d : Disk) : Twin places d d := ⟨rfl, fun _ => .same _⟩

theorem walkFrom (h : Twin places d d') (here : Location) (ps : List (List Char)) :
    SameEnd places (d.walkFrom here ps) (d'.walkFrom here ps) := by
  induction ps generalizing here with
  | nil => exact .same _
  | cons piece rest ih =>
    rw [Disk.walkFrom, Disk.walkFrom]
    split
    · exact ih here
    · split
      · exact ih here.dropLast
      · split
        · exact .same _
        · dsimp only
          have hentry := h.entry (here ++ [.ofList piece])
          generalize d.entry? (here ++ [.ofList piece]) = e at hentry ⊢
          generalize d'.entry? (here ++ [.ofList piece]) = e' at hentry ⊢
          cases hentry with
          | same =>
            cases e with
            | none => exact .same _
            | some e =>
              cases e with
              | directory => exact ih _
              | file content => exact .same _
          | files hplace content content' =>
            by_cases hrest : rest = []
            · subst hrest
              exact .files hplace content content'
            · dsimp only
              rw [if_neg hrest, if_neg hrest]
              exact .same _

theorem walk (h : Twin places d d') (p : Path) : SameEnd places (d.walk p) (d'.walk p) := by
  unfold Disk.walk
  dsimp only
  split
  · exact .same _
  · split
    · exact .same _
    · split
      · exact .same _
      · rw [h.working]
        exact h.walkFrom _ _

theorem readText (h : Twin places d d') {p : Path} (hp : ¬places (p.locate d.working)) :
    d.readText p = d'.readText p := by
  have hend := h.walk p
  have hsame : d.walk p = d'.walk p := by
    generalize hwalk : d.walk p = result at hend ⊢
    generalize d'.walk p = result' at hend ⊢
    cases hend with
    | same => rfl
    | files hplace => exact absurd (location_of_walk hwalk ▸ hplace) hp
  unfold Disk.readText Disk.readBytes
  rw [hsame]

theorem isDirectory (h : Twin places d d') (p : Path) : d.isDirectory p = d'.isDirectory p := by
  have hend := h.walk p
  unfold Disk.isDirectory
  generalize d.walk p = result at hend ⊢
  generalize d'.walk p = result' at hend ⊢
  cases hend <;> rfl

theorem put (h : Twin places d d') {l : Location} {e e' : Entry}
    (he : SameEntry (places l) (some e) (some e')) : Twin places (d.put l e) (d'.put l e') where
  working := h.working
  entry k := by
    by_cases hk : k = l
    · subst hk
      unfold Disk.entry? Disk.put
      split
      · exact .same _
      · rw [lookup_putEntry_self, lookup_putEntry_self]
        exact he
    · rw [entry?_put_of_ne d hk, entry?_put_of_ne d' hk]
      exact h.entry k

theorem makeDirectory (h : Twin places d d') (p : Path) :
    SameDisks places (d.makeDirectory p) (d'.makeDirectory p) := by
  have hend := h.walk p
  unfold Disk.makeDirectory
  generalize d.walk p = result at hend ⊢
  generalize d'.walk p = result' at hend ⊢
  cases hend with
  | files => exact .error _
  | same =>
    cases result with
    | error fault => exact .error fault
    | ok place =>
      cases place with
      | free l => exact .ok (h.put (.same _))
      | found => exact .error _

theorem ensureDirectory (h : Twin places d d') (p : Path) :
    (d.ensureDirectory p).1 = (d'.ensureDirectory p).1 ∧
      Twin places (d.ensureDirectory p).2 (d'.ensureDirectory p).2 := by
  have hmade := h.makeDirectory p
  unfold Disk.ensureDirectory
  rw [h.isDirectory p]
  generalize d.makeDirectory p = made at hmade ⊢
  generalize d'.makeDirectory p = made' at hmade ⊢
  cases hmade with
  | ok htwin => exact ⟨rfl, htwin⟩
  | error fault => exact ⟨rfl, h⟩

theorem makeBelow (h : Twin places d d') (p : Path) (depth : Nat) :
    (d.makeBelow p depth).1 = (d'.makeBelow p depth).1 ∧
      Twin places (d.makeBelow p depth).2 (d'.makeBelow p depth).2 := by
  induction depth generalizing p with
  | zero => exact h.ensureDirectory p
  | succ depth ih =>
    have hmade := h.makeDirectory p
    unfold Disk.makeBelow
    split
    · exact ⟨rfl, h⟩
    · rw [h.isDirectory p]
      generalize d.makeDirectory p = made at hmade ⊢
      generalize d'.makeDirectory p = made' at hmade ⊢
      cases hmade with
      | ok htwin => exact ⟨rfl, htwin⟩
      | error fault =>
        split
        · next hok => cases hok
        · cases p.parent? with
          | none => exact ⟨rfl, h⟩
          | some parent =>
            obtain ⟨hsame, htwin⟩ := ih parent
            dsimp only
            generalize d.makeBelow parent depth = above at hsame htwin ⊢
            generalize d'.makeBelow parent depth = above' at hsame htwin ⊢
            obtain ⟨result, b⟩ := above
            obtain ⟨result', b'⟩ := above'
            obtain rfl : result = result' := hsame
            cases result with
            | error fault => exact ⟨rfl, htwin⟩
            | ok => exact htwin.ensureDirectory p
        · exact ⟨rfl, h⟩

theorem makeDirectories (h : Twin places d d') (p : Path) :
    (d.makeDirectories p).1 = (d'.makeDirectories p).1 ∧
      Twin places (d.makeDirectories p).2 (d'.makeDirectories p).2 :=
  h.makeBelow p _

/-- Different texts may be written where files may differ. -/
theorem writeText (h : Twin places d d') {p : Path} (hp : places (p.locate d.working))
    (text text' : String) : SameDisks places (d.writeText p text) (d'.writeText p text') := by
  have hend := h.walk p
  have hloose : ∀ {place : Place}, d.walk p = .ok place → SameEntry (places place.location)
      (some (.file text.toUTF8)) (some (.file text'.toUTF8)) := fun hwalk =>
    .files (location_of_walk hwalk ▸ hp) _ _
  unfold Disk.writeText Disk.writeBytes
  generalize d.walk p = result at hend hloose ⊢
  generalize d'.walk p = result' at hend ⊢
  cases hend with
  | files => exact .ok (h.put (hloose rfl))
  | same =>
    cases result with
    | error fault => exact .error fault
    | ok place =>
      cases place with
      | free l =>
        dsimp only
        split
        · exact .error _
        · exact .ok (h.put (hloose rfl))
      | found l e =>
        cases e with
        | directory => exact .error _
        | file content => exact .ok (h.put (hloose rfl))

end Twin

end Disk

/-- Worlds with twin disks, on which paths start from a directory, and otherwise the same. -/
structure World.Twin (places : Location → Prop) (here : Location) (w w' : World) : Prop where
  disk : w.disk.Twin places w'.disk
  working : w.disk.working = here
  rest : { w with disk := {} } = { w' with disk := {} }

theorem Store.makeParent_twin {places : Location → Prop} {d d' : Disk} (h : d.Twin places d')
    (p : Path) :
    (makeParent d p).1 = (makeParent d' p).1 ∧
      Disk.Twin places (makeParent d p).2 (makeParent d' p).2 := by
  unfold makeParent
  cases p.parent? with
  | none => exact ⟨rfl, h⟩
  | some parent =>
    dsimp only
    split
    · exact ⟨rfl, h⟩
    · obtain ⟨hsame, htwin⟩ := h.makeDirectories parent
      exact ⟨congrArg (Except.mapError (Failure.disk parent)) hsame, htwin⟩

/-- Prefabs that differ are stored alike where files may differ. -/
theorem Store.onDisk_agree {places : Location → Prop} {here : Location} {p p' : Prefab}
    (hplace : places (p.outputPath.locate here)) (hpath : p'.outputPath = p.outputPath)
    (hurl : p'.url = p.url) :
    Agree (World.Twin places here) (onDisk.persist p) (onDisk.persist p') := by
  intro w w' hw
  obtain ⟨hmade, hparents⟩ := makeParent_twin hw.disk p.outputPath
  have hworking : (makeParent w.disk p.outputPath).2.working = here :=
    (makeParent_writes w.disk p.outputPath).working.trans hw.working
  rw [persist_onDisk, persist_onDisk, hpath, hurl]
  generalize makeParent w.disk p.outputPath = made at hmade hparents hworking ⊢
  generalize makeParent w'.disk p.outputPath = made' at hmade hparents ⊢
  obtain ⟨result, d⟩ := made
  obtain ⟨result', d'⟩ := made'
  obtain rfl : result = result' := hmade
  cases result with
  | error failure => exact ⟨rfl, hparents, hworking, hw.rest⟩
  | ok =>
    have hwritten := hparents.writeText (p := p.outputPath) (hworking.symm ▸ hplace) p.fileText
      p'.fileText
    dsimp only
    generalize hwrite : d.writeText p.outputPath p.fileText = written at hwritten ⊢
    generalize d'.writeText p.outputPath p'.fileText = written' at hwritten ⊢
    cases hwritten with
    | error fault => exact ⟨rfl, hparents, hworking, hw.rest⟩
    | ok htwin =>
      exact ⟨rfl, htwin, (Disk.writeText_writes hwrite).working.trans hworking, hw.rest⟩

/-- A locator that answers out of a fixed table. -/
structure Locator.Inert {ω : Type} (l : Locator ω) : Prop where
  resolve (path : String) (frame : Option String) : ∃ a, l.resolve path frame = pure a
  textureSize (asset : AssetRef) : ∃ a, l.textureSize asset = pure a
  setBorder (asset : AssetRef) (grid : Rect) : ∃ a, l.setBorder asset grid = pure a
  loadFont (asset : AssetRef) : ∃ a, l.loadFont asset = pure a

theorem Locator.openLocator_inert {ω : Type} : (openLocator : Locator ω).Inert :=
  ⟨fun _ _ => ⟨_, rfl⟩, fun _ => ⟨_, rfl⟩, fun _ _ => ⟨_, rfl⟩, fun _ => ⟨_, rfl⟩⟩

namespace Setting

/-- Where the prefabs of a run go when paths start from a directory. -/
def PrefabPlaces (setting : Setting World) (here : Location) (paths : List Path) (l : Location) :
    Prop :=
  ∃ source, setting.MayRead paths source ∧
    (PrefabLocation.ofSource setting.options source).path.locate here = l

section
variable {setting : Setting World} {here : Location} {paths : List Path}

/-- On disk nothing tells heights apart as long as no source is read where a prefab goes. -/
theorem onDisk_overlooks (hsources : setting.sources = .onDisk) (hstore : setting.store = .onDisk)
    (hlocator : setting.locator.Inert)
    (hapart : ∀ path, setting.MayRead paths path →
      ¬setting.PrefabPlaces here paths (path.locate here)) :
    setting.Overlooks (World.Twin (setting.PrefabPlaces here paths) here) paths := by
  have hinert : ∀ {α : Type} {action : StateM World α}, (∃ a, action = pure a) →
      Agree (World.Twin (setting.PrefabPlaces here paths) here) action action := by
    rintro α _ ⟨a, rfl⟩ w w' hw
    exact ⟨rfl, hw⟩
  constructor
  case read =>
    intro path w w' hpath hw
    have helsewhere : ¬setting.PrefabPlaces here paths (path.locate w.disk.working) := by
      rw [hw.working]
      exact hapart path hpath
    rw [hsources]
    exact hw.disk.readText helsewhere
  case resolve => exact fun path frame => hinert (hlocator.resolve path frame)
  case textureSize => exact fun asset => hinert (hlocator.textureSize asset)
  case setBorder => exact fun asset grid => hinert (hlocator.setBorder asset grid)
  case loadFont => exact fun asset => hinert (hlocator.loadFont asset)
  case persist =>
    intro path root root' hpath _
    have hplace : setting.PrefabPlaces here paths
        ((setting.prefabOf path root).outputPath.locate here) := ⟨path, hpath, rfl⟩
    have houtput : (setting.prefabOf path root').outputPath =
        (setting.prefabOf path root).outputPath := rfl
    have hurl : (setting.prefabOf path root').url = (setting.prefabOf path root).url := rfl
    rw [hstore]
    exact Store.onDisk_agree hplace houtput hurl

end

end Setting

end MarkupScene
