import MarkupScene.Asset.DiskLocator
import MarkupScene.Prefab.Store
import MarkupScene.Proofs.DiskWrites
import MarkupScene.Proofs.RunFrames

/-!
# What a locator and a store on a disk leave alone

A prefab is written to its output path. A locator remembers the sheets that it has read and writes
borders beside textures. Which files these are is told by the paths of the asset table, and by the
sheets that such paths lead to, as texts that are joined to the root.
-/
namespace MarkupScene

open MarkupScene.Path Disk

namespace AssetTable

theorem mem_of_path? {t : AssetTable} {name path : String} (h : t.path? name = some path) :
    (name, path) ∈ t.paths.entries := by
  obtain ⟨hget, -⟩ := Option.filter_eq_some_iff.1 h
  obtain ⟨before, after, hsplit, -⟩ := List.lookup_eq_some_iff.1 hget
  simp [hsplit]

theorem path_of_query? {t : AssetTable} {name : String} {query : AssetQuery}
    (h : t.query? name = some query) : ∃ entry, t.path? entry = some query.path := by
  have hframe : ∀ {sheet frame : String}, t.frameQuery? sheet frame = some query →
      ∃ entry, t.path? entry = some query.path := by
    intro sheet frame hquery
    obtain ⟨path, hpath, rfl⟩ := Option.map_eq_some_iff.1 hquery
    exact ⟨sheet, hpath⟩
  unfold query? at h
  split at h
  · next path hpath =>
    obtain rfl := Option.some.inj h
    exact ⟨name, hpath⟩
  · split at h
    · exact hframe h
    · obtain ⟨⟨sheet, frame⟩, -, hquery⟩ := Option.bind_eq_some_iff.1 h
      exact hframe hquery

end AssetTable

namespace DiskLocator

def Known (table : AssetTable) (asset : AssetRef) : Prop :=
  ∃ name, table.path? name = some asset.path

/-- The texts beside which borders are written: paths of the table, and textures of the sheets that
such paths lead to. -/
inductive Bordered (table : AssetTable) (sheets : List (String × Option SpriteSheet)) :
    String → Prop where
  | asset {name path : String} : table.path? name = some path → Bordered table sheets path
  | texture {name path : String} {s : SpriteSheet} : table.path? name = some path →
      (path, some s) ∈ sheets → Bordered table sheets (sheetTexture path s).text

theorem Bordered.mono {table : AssetTable} {sheets more : List (String × Option SpriteSheet)}
    (h : sheets ⊆ more) {text : String} (htext : Bordered table sheets text) :
    Bordered table more text := by
  cases htext with
  | asset hpath => exact .asset hpath
  | texture hpath hs => exact .texture hpath (h hs)

/-- A location that an import may write to: one below the root, or the companion of a text. -/
def Reached (root : Path) (table : AssetTable) (sheets : List (String × Option SpriteSheet))
    (here l : Location) : Prop :=
  root.locate here <+: l ∨
    ∃ text, Bordered table sheets text ∧ l = (companion root text).locate here

theorem Reached.mono {root : Path} {table : AssetTable}
    {sheets more : List (String × Option SpriteSheet)} (h : sheets ⊆ more) {here l : Location}
    (hl : Reached root table sheets here l) : Reached root table more here l :=
  hl.imp_right fun ⟨text, htext, hplace⟩ => ⟨text, htext.mono h, hplace⟩

/-- What happens outside of an import while it compiles. Sheets are remembered, and files are
written where the import may. -/
def reaching (root : Path) (table : AssetTable) : Motion World where
  moves w w' := w.sheets ⊆ w'.sheets ∧
    Writes (Reached root table w'.sheets w.disk.working) w.disk w'.disk
  refl w := ⟨List.Subset.refl _, .refl _⟩
  trans {u v w} huv hvw := by
    refine ⟨List.Subset.trans huv.1 hvw.1, (huv.2.mono fun _ hl => hl.mono hvw.1).trans ?_⟩
    rw [← huv.2.working]
    exact hvw.2

/-- What a question does outside. It is answered without a write, and sheets may be remembered. -/
structure Asks (w w' : World) : Prop where
  disk : w'.disk = w.disk
  sheets : w.sheets ⊆ w'.sheets

namespace Asks
variable {w w' w'' : World}

theorem refl (w : World) : Asks w w := ⟨rfl, List.Subset.refl _⟩

theorem trans (h : Asks w w') (h' : Asks w' w'') : Asks w w'' :=
  ⟨h'.disk.trans h.disk, List.Subset.trans h.sheets h'.sheets⟩

theorem moves (h : Asks w w') (root : Path) (table : AssetTable) :
    (reaching root table).moves w w' := by
  refine ⟨h.sheets, ?_⟩
  rw [h.disk]
  exact .refl _

end Asks

section
variable (root : Path)

theorem sheet_asks (path : String) (w : World) :
    let asked := sheet root path w
    Asks w asked.2 ∧ (path, asked.1) ∈ asked.2.sheets := by
  unfold sheet
  simp only [bind, StateT.bind, get, getThe, MonadStateOf.get, StateT.get, pure]
  cases hlookup : w.sheets.lookup path with
  | some known =>
    obtain ⟨before, after, hsplit, -⟩ := List.lookup_eq_some_iff.1 hlookup
    refine ⟨.refl w, ?_⟩
    change (path, known) ∈ w.sheets
    rw [hsplit]
    simp
  | none => exact ⟨⟨rfl, List.subset_cons_self _ _⟩, List.mem_cons_self⟩

theorem textureSize_asks (asset : AssetRef) (w : World) :
    Asks w (textureSize root asset w).2 := by
  unfold textureSize
  cases asset.frame with
  | some name => exact (sheet_asks root asset.path w).1
  | none =>
    simp only [bind, StateT.bind, get, getThe, MonadStateOf.get, StateT.get, pure]
    cases w.disk.readBytes (fullPath root asset.path) with
    | ok content => exact .refl w
    | error fault => exact .refl w

theorem resolve_apply (path : String) (frame : Option String) (w : World) :
    resolve root path frame w =
      if path.isEmpty || !w.disk.isFile (fullPath root path) then (none, w)
      else match frame with
      | none => (some { path }, w)
      | some name =>
        let asked := sheet root path w
        ((asked.1.bind fun s => s.frame? name).map fun _ => { path, frame }, asked.2) := by
  change (if path.isEmpty || !w.disk.isFile (fullPath root path) then
    (pure none : StateM World (Option AssetRef)) else _) w = _
  split
  · rfl
  · cases frame <;> rfl

theorem resolve_asks (path : String) (frame : Option String) (w : World) :
    let asked := resolve root path frame w
    Asks w asked.2 ∧ ∀ asset, asked.1 = some asset → asset.path = path := by
  rw [resolve_apply]
  split
  · exact ⟨.refl w, fun _ h => nomatch h⟩
  · cases frame with
    | none =>
      refine ⟨.refl w, fun asset h => ?_⟩
      obtain rfl := Option.some.inj h
      rfl
    | some name =>
      refine ⟨(sheet_asks root path w).1, fun asset h => ?_⟩
      obtain ⟨_, -, rfl⟩ := Option.map_eq_some_iff.1 h
      rfl

theorem borderOwner_asks {table : AssetTable} {asset : AssetRef} (h : Known table asset)
    (w : World) :
    let asked := borderOwner root asset w
    Asks w asked.2 ∧ Bordered table asked.2.sheets asked.1 := by
  obtain ⟨name, hname⟩ := h
  unfold borderOwner
  cases asset.frame with
  | none => exact ⟨.refl w, .asset hname⟩
  | some frame =>
    obtain ⟨hasks, hmem⟩ := sheet_asks root asset.path w
    simp only [bind, StateT.bind]
    generalize sheet root asset.path w = asked at hasks hmem
    rcases asked with ⟨_ | s, after⟩
    · exact ⟨hasks, .asset hname⟩
    · exact ⟨hasks, .texture hname hmem⟩

theorem setBorder_apply (asset : AssetRef) (grid : Rect) (w : World) :
    setBorder root asset grid w =
      let sized := textureSize root asset w
      let owned := borderOwner root asset sized.2
      let path := companion root owned.1
      let members := putBorder (companionMembers owned.2.disk path) asset.frame
        (borderValue (grid.insetsWithin (sized.1.getD ⟨grid.right, grid.bottom⟩)))
      let text := Json.pretty Json.dataNumber 0 (.object members.entries)
      match owned.2.disk.writeText path text with
      | .ok disk => (.ok (), { owned.2 with disk })
      | .error fault => (.error (.disk path fault), owned.2) := by
  unfold setBorder
  simp only [bind, StateT.bind, get, getThe, MonadStateOf.get, StateT.get, set, pure]
  generalize textureSize root asset w = sized
  obtain ⟨size, measured⟩ := sized
  dsimp only
  generalize borderOwner root asset measured = owned
  obtain ⟨owner, after⟩ := owned
  dsimp only
  generalize after.disk.writeText (companion root owner) _ = written
  cases written <;> rfl

theorem setBorder_moves {table : AssetTable} {asset : AssetRef} (h : Known table asset)
    (grid : Rect) (w : World) : (reaching root table).moves w (setBorder root asset grid w).2 := by
  have hsized := textureSize_asks root asset w
  rw [setBorder_apply]
  generalize textureSize root asset w = sized at hsized
  obtain ⟨howned, howner⟩ := borderOwner_asks root h sized.2
  dsimp only
  generalize borderOwner root asset sized.2 = owned at howned howner
  refine (reaching root table).trans ((hsized.trans howned).moves root table) ?_
  split
  · next hwrite =>
    exact ⟨List.Subset.refl _, (writeText_writes hwrite).mono fun l hl => .inr ⟨_, howner, hl⟩⟩
  · exact (reaching root table).refl _

theorem locator_serves (table : AssetTable) :
    (locator root).Serves (reaching root table) table (Known table) where
  resolve hquery w := by
    obtain ⟨entry, hentry⟩ := AssetTable.path_of_query? hquery
    obtain ⟨hasks, hpath⟩ := resolve_asks root _ _ w
    refine ⟨hasks.moves root table, fun asset hasset => ⟨entry, ?_⟩⟩
    rw [hpath asset hasset]
    exact hentry
  textureSize asset w := (textureSize_asks root asset w).moves root table
  setBorder h grid w := setBorder_moves root h grid w
  loadFont asset w := by
    have hsame : (loadFont root asset w).2 = w := by
      unfold loadFont
      simp only [bind, StateT.bind, get, getThe, MonadStateOf.get, StateT.get, pure]
      cases w.disk.readText (fullPath root asset.path) <;> rfl
    rw [show ((locator root).loadFont asset w).2 = w from hsame]
    exact (reaching root table).refl w

end

end DiskLocator

namespace Store

theorem makeParent_writes (disk : Disk) (path : Path) :
    Writes (fun _ => False) disk (makeParent disk path).2 := by
  unfold makeParent
  split
  · split
    · exact .refl disk
    · exact disk.makeDirectories_writes _
  · exact .refl disk

theorem persist_writes (p : Prefab) (w : World) :
    (onDisk.persist p w).2.sheets = w.sheets ∧
      Writes (· = p.outputPath.locate w.disk.working) w.disk (onDisk.persist p w).2.disk := by
  have hparent : Writes (· = p.outputPath.locate w.disk.working) w.disk
      (makeParent w.disk p.outputPath).2 :=
    (makeParent_writes w.disk p.outputPath).mono fun _ h => h.elim
  rw [persist_onDisk]
  generalize makeParent w.disk p.outputPath = made at hparent
  rcases made with ⟨failure | ⟨⟩, disk⟩
  · exact ⟨rfl, hparent⟩
  · dsimp only
    cases hwrite : disk.writeText p.outputPath p.fileText with
    | error fault => exact ⟨rfl, hparent⟩
    | ok after =>
      have hwrites := writeText_writes hwrite
      rw [show disk.working = w.disk.working from hparent.working] at hwrites
      exact ⟨rfl, hparent.trans hwrites⟩

end Store

end MarkupScene
