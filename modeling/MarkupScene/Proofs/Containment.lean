import MarkupScene.Proofs.DiskFrames
import MarkupScene.Proofs.FreshFolders
import MarkupScene.Proofs.IntakeFrames
import MarkupScene.Proofs.PrefabPlaces

/-!
# Contained imports

Where an import writes. What is taken in and the prefabs of the markup go below the target. The
borders of cut textures go where the manifests and the sheets say, as free texts that are joined to
the target. The main statement is that an import changes no file that was there before and makes new
ones in a fresh target only, as long as none of these texts leads out of the target and the way to
the assets can be told from its text.
-/
namespace MarkupScene

open MarkupScene.Path Disk

namespace Text

theorem pieces_append_of_not_mem {sep : Char} {tail : List Char} (h : sep ∉ tail)
    (s : List Char) : ∃ front last, pieces sep s = front ++ [last] ∧
      pieces sep (s ++ tail) = front ++ [last ++ tail] := by
  induction s with
  | nil => exact ⟨[], [], rfl, pieces_of_not_mem h⟩
  | cons c s ih =>
    obtain ⟨front, last, hs, htail⟩ := ih
    rw [List.cons_append, pieces, pieces, hs, htail]
    split
    · exact ⟨[] :: front, last, rfl, rfl⟩
    · cases front with
      | nil => exact ⟨[], c :: last, rfl, rfl⟩
      | cons first front => exact ⟨(c :: first) :: front, last, rfl, rfl⟩

end Text

/-- A text that leads to no place outside of a directory that it is joined to. -/
def StaysBelow (text : String) : Prop :=
  (⟨text⟩ : Path).isAbsolute = false ∧ .up ∉ (⟨text⟩ : Path).normalize.components

instance : DecidablePred StaysBelow := fun text =>
  inferInstanceAs (Decidable ((⟨text⟩ : Path).isAbsolute = false ∧
    .up ∉ (⟨text⟩ : Path).normalize.components))

namespace Path

theorem up_mem_normalStack {cs read : List Component} (h : .up ∈ read) :
    .up ∈ cs.foldl normalStep read := by
  induction cs generalizing read with
  | nil => exact h
  | cons c cs ih =>
    refine ih ?_
    unfold normalStep
    split
    · exact h
    · exact (List.mem_cons.1 h).resolve_left nofun
    · exact h
    · exact List.mem_cons_of_mem _ h

theorem prefix_foldl_enter {cs : List Component} (hroot : .root ∉ cs) {root : Location}
    {names : List String} (hup : .up ∉ cs.foldl normalStep (names.map .name).reverse) :
    root <+: cs.foldl enter (root ++ names) := by
  induction cs generalizing names with
  | nil => exact List.prefix_append root names
  | cons c cs ih =>
    rw [List.mem_cons, not_or] at hroot
    rw [List.foldl_cons] at hup ⊢
    cases c with
    | root => exact absurd rfl hroot.1
    | here => exact ih hroot.2 hup
    | name n =>
      have hread : normalStep (names.map Component.name).reverse (.name n) =
          ((names ++ [n]).map .name).reverse := by
        rw [List.map_append, List.reverse_append]
        generalize (names.map Component.name).reverse = read
        cases read with
        | nil => rfl
        | cons d read => cases d <;> rfl
      rw [hread] at hup
      have hbelow := ih hroot.2 hup
      rwa [← List.append_assoc] at hbelow
    | up =>
      rcases List.eq_nil_or_concat names with rfl | ⟨front, n, rfl⟩
      · exact absurd (up_mem_normalStack List.mem_cons_self) hup
      · rw [List.concat_eq_append, List.map_append, List.reverse_append] at hup
        have hbelow := ih hroot.2 hup
        rw [List.concat_eq_append, enter, ← List.append_assoc, List.dropLast_concat]
        exact hbelow

theorem normalStack_relative {p : Path} (hp : p.isAbsolute = false) :
    normalStack p.components =
      ((innerPieces p.text.toList).filterMap (·.component?)).foldl normalStep [] := by
  have hhead : p.text.toList.head? ≠ some '/' := of_decide_eq_false hp
  obtain ⟨first, others, hcut⟩ :=
    List.exists_cons_of_ne_nil (Text.pieces_ne_nil '/' p.text.toList)
  rw [normalStack, components, hp, if_neg Bool.false_ne_true, steps, pieces,
    piecesOf_relative hhead hcut, innerPieces, hcut]
  unfold Piece.leading
  split
  · next h =>
    subst h
    rfl
  · rfl

theorem root_not_mem_inner (ps : List (List Char)) :
    .root ∉ (ps.map Piece.inner).filterMap (·.component?) := by
  intro h
  obtain ⟨q, hq, hroot⟩ := List.mem_filterMap.1 h
  obtain ⟨piece, -, rfl⟩ := List.mem_map.1 hq
  exact inner_ne_root piece hroot

/-- A text that stays below a directory stays there with an extension, which makes a name of its
last piece. -/
theorem prefix_leads_of_stays {text tail : String} (h : StaysBelow text)
    (htail : '/' ∉ tail.toList) (hlength : 3 ≤ tail.toList.length) (root : Location) :
    root <+: leads root (Text.pieces '/' (text ++ tail).toList) := by
  obtain ⟨front, last, hcut, htailed⟩ := Text.pieces_append_of_not_mem htail text.toList
  have hup : .up ∉ ((front.map Piece.inner).filterMap (·.component?)).foldl normalStep [] := by
    have hall := h.2
    rw [components_normalize, List.mem_reverse, normalStack_relative h.1, innerPieces, hcut,
      List.map_append, List.filterMap_append, List.foldl_append] at hall
    exact fun hfront => hall (up_mem_normalStack hfront)
  have hbelow : root <+: leads root front := by
    have hfront : root <+: leads (root ++ []) front :=
      prefix_foldl_enter (root_not_mem_inner front) hup
    rwa [List.append_nil] at hfront
  have hlong : ∀ cs : List Char, cs.length ≤ 2 → last ++ tail.toList ≠ cs := by
    intro cs hcs hsame
    have hsize := congrArg List.length hsame
    rw [List.length_append] at hsize
    omega
  rw [String.toList_append, htailed, leads_append,
    leads_name _ (not_or.2 ⟨hlong _ (by simp), hlong _ (by simp)⟩) (hlong _ (by simp))]
  exact hbelow.trans (List.prefix_append _ _)

theorem locate_join_text {root : Path} (hroot : root.text ≠ "") {text : String}
    (htext : (⟨text⟩ : Path).isAbsolute = false) (tail : String) (here : Location) :
    (⟨(root.join ⟨text⟩).text ++ tail⟩ : Path).locate here =
      leads (root.locate here) (Text.pieces '/' (text ++ tail).toList) := by
  obtain ⟨front, hjoin, hfront⟩ := exists_join hroot htext
  have hspelled : (⟨(root.join ⟨text⟩).text ++ tail⟩ : Path) =
      ofChars (front ++ '/' :: (text ++ tail).toList) := by
    rw [← ofChars_toList ⟨(root.join ⟨text⟩).text ++ tail⟩]
    simp [hjoin]
  have hbase : (ofChars (front ++ ['/'])).components = root.components := by
    rw [← ofChars_toList root]
    rcases hfront with hfront | hfront
    · rw [hfront, components_slash]
      rintro rfl
      exact hroot (String.toList_eq_nil_iff.1 hfront)
    · rw [hfront]
  rw [hspelled, locate, components_append_slash, List.foldl_append, hbase]
  rfl

end Path

/-- A change of a file tree that keeps all files and adds files only below a location that was
free. -/
structure Disk.AddsBelow (root : Location) (d d' : Disk) : Prop where
  kept {l : Location} {content : ByteArray} :
    d.entry? l = some (.file content) → d'.entry? l = some (.file content)
  added {l : Location} {content : ByteArray} : d'.entry? l = some (.file content) →
    d.entry? l = some (.file content) ∨ d.entry? root = none ∧ root <+: l

namespace Disk.AddsBelow
variable {root : Location} {d d' : Disk}

theorem of_writes_nothing (h : Writes (fun _ => False) d d') : AddsBelow root d d' where
  kept hl := (h.outside id _).2 hl
  added hl := .inl ((h.outside id _).1 hl)

theorem of_writes (hd : d.IsTree) (hroot : d.entry? root = none) (h : Writes (root <+: ·) d d') :
    AddsBelow root d d' where
  kept {l} _ hl := by
    have houtside : ¬root <+: l := by
      intro hbelow
      rw [hd.entry?_below hroot hbelow] at hl
      cases hl
    exact (h.outside houtside _).2 hl
  added {l} _ hl := by
    by_cases hbelow : root <+: l
    · exact .inr ⟨hroot, hbelow⟩
    · exact .inl ((h.outside hbelow _).1 hl)

end Disk.AddsBelow

namespace ImportReport

open DiskLocator

theorem heeds_onDisk {setting : Setting World} (hregistry : setting.registry.OnlyBuiltIn)
    (hlocator : setting.locator = locator setting.options.outputRoot)
    (hstore : setting.store = .onDisk) {front : List Component} {n : String}
    (hroot : setting.options.sourceRoot.components = front ++ [.name n]) :
    setting.Heeds (reaching setting.options.outputRoot setting.assets)
      (Known setting.assets) where
  locator := hlocator ▸ locator_serves _ _
  importers h := hregistry.keeps h _ (Node.Shows.lasting _)
  store {path} root w hpath := by
    have hplace : setting.options.outputRoot.locate w.disk.working <+:
        (setting.prefabOf path root).outputPath.locate w.disk.working :=
      PrefabLocation.ofSource_below_root hroot hpath _
    rw [hstore]
    generalize setting.prefabOf path root = p at hplace
    obtain ⟨hsheets, hwrites⟩ := Store.persist_writes p w
    generalize Store.onDisk.persist p w = answer at hsheets hwrites
    refine ⟨?_, hwrites.mono fun l hl => .inl ?_⟩
    · rw [hsheets]
      exact List.Subset.refl _
    · rw [hl]
      exact hplace

/-- The texts beside which an import writes borders, by what it has read when it ends. -/
def Compilation.Borders (c : Compilation) (text : String) : Prop :=
  Bordered c.setting.assets (c.setting.run c.files c.world).2.sheets text

theorem Compilation.run_moves {disk : Disk} {project assets : Path} {options : Options}
    {c : Compilation} (hc : compilation? disk project assets options = some c) :
    (reaching (targetOf disk project assets) c.setting.assets).moves c.world
      (c.setting.run c.files c.world).2 := by
  have hsetting := setting_of_compilation? hc
  have houtput : c.setting.options.outputRoot = targetOf disk project assets := by
    rw [hsetting]
    rfl
  have hregistry : c.setting.registry.OnlyBuiltIn := by
    rw [hsetting]
    exact Registry.builtIn_onlyBuiltIn
  have hlocator : c.setting.locator = locator c.setting.options.outputRoot := by
    rw [hsetting]
    rfl
  have hstore : c.setting.store = .onDisk := by
    rw [hsetting]
    rfl
  have hroot : c.setting.options.sourceRoot.components =
      project.components ++ [.name resourceFolder] := by
    have hsource : c.setting.options.sourceRoot = project.join ⟨resourceFolder⟩ := by
      rw [hsetting]
      rfl
    rw [hsource]
    exact components_join_name project (by decide)
  rw [← houtput]
  exact Setting.run_moves (heeds_onDisk hregistry hlocator hstore hroot) c.files c.world

/-- The locations that an import may write to. -/
def Reaches (disk : Disk) (project assets : Path) (options : Options) (l : Location) : Prop :=
  (targetOf disk project assets).locate disk.working <+: l ∨
    ∃ c text, compilation? disk project assets options = some c ∧ c.Borders text ∧
      l = (companion (targetOf disk project assets) text).locate disk.working

theorem disk_of_compilation?_none {disk : Disk} {project assets : Path} {options : Options}
    (hc : compilation? disk project assets options = none) :
    let target := targetOf disk project assets
    let after := (ofProject disk project assets options).2
    after = disk ∨ after = (disk.makeDirectories target).2 ∨
      (disk.makeDirectories target).1 = .ok () ∧
        after = (Intake.ofTree (disk.makeDirectories target).2
          (project.join ⟨resourceFolder⟩) target).2.disk := by
  unfold compilation? at hc
  unfold ofProject importTree
  dsimp only at hc ⊢
  rw [show assets.join ⟨freshFolder disk assets (project.fileName?.getD "project")⟩ =
    targetOf disk project assets from rfl]
  generalize disk.isDirectory (project.join ⟨resourceFolder⟩) = present at hc ⊢
  cases present with
  | false => exact .inl rfl
  | true =>
    generalize disk.makeDirectories (targetOf disk project assets) = answer at hc ⊢
    rcases answer with ⟨fault | ⟨⟩, made⟩
    · exact .inr (.inl rfl)
    · refine .inr (.inr ⟨rfl, ?_⟩)
      dsimp only at hc ⊢
      generalize Intake.ofTree made (project.join ⟨resourceFolder⟩)
        (targetOf disk project assets) = taken at hc ⊢
      rcases taken with ⟨failure | ⟨⟩, intake⟩
      · rfl
      · cases hc

/-- An import writes below its target and beside what has borders, once the target is there. -/
theorem ofProject_writes {disk : Disk} (hdisk : disk.Proper) (project assets : Path)
    (options : Options) :
    let after := (ofProject disk project assets options).2
    Writes (fun _ => False) disk after ∨
      (disk.makeDirectories (targetOf disk project assets)).1 = .ok () ∧
        Writes (Reaches disk project assets options) disk after := by
  let target := targetOf disk project assets
  have hmakes := disk.makeDirectories_writes target
  have hmade : Writes (Reaches disk project assets options) disk (disk.makeDirectories target).2 :=
    hmakes.mono fun _ h => h.elim
  have htakes : Writes (Reaches disk project assets options) disk
      (Intake.ofTree (disk.makeDirectories target).2 (project.join ⟨resourceFolder⟩)
        target).2.disk := by
    refine hmade.trans ((Intake.ofTree_writes (hmakes.proper hdisk) _ target).mono fun l hl => ?_)
    exact .inl (hmakes.working ▸ hl)
  intro after
  -- The import may end before the target is there, during the scan, or with its compilation.
  cases hc : compilation? disk project assets options with
  | none =>
    rcases disk_of_compilation?_none hc with hafter | hafter | ⟨hok, hafter⟩
    · left
      rw [show after = disk from hafter]
      exact .refl disk
    · left
      rw [show after = _ from hafter]
      exact hmakes
    · refine .inr ⟨hok, ?_⟩
      rw [show after = _ from hafter]
      exact htakes
  | some c =>
    obtain ⟨made, hok, htaken, -⟩ := of_compilation? hc
    rw [show disk.makeDirectories target = _ from hok] at htakes
    dsimp only at htakes
    rw [htaken] at htakes
    have hcompiles := (Compilation.run_moves hc).2
    have hafter : after = (c.setting.run c.files c.world).2.disk := by
      have hends := ofProject_eq disk project assets options
      rw [hc] at hends
      exact congrArg Prod.snd hends
    refine .inr ⟨by rw [hok], ?_⟩
    rw [hafter]
    refine htakes.trans (hcompiles.mono fun l hl => ?_)
    rw [show c.world.disk.working = disk.working from htakes.working] at hl
    rcases hl with hl | ⟨text, htext, hl⟩
    · exact .inl hl
    · exact .inr ⟨c, text, hc, htext, hl⟩

/-- An import changes no file and makes new files only in a target that was free, as long as the
texts beside which it writes borders stay below a directory. -/
theorem import_stays_inside {disk : Disk} (hdisk : disk.IsTree) {project assets : Path}
    (hassets : disk.isDirectory assets = true ∨ .up ∉ assets.components) {options : Options}
    (hstays : ∀ c text, compilation? disk project assets options = some c → c.Borders text →
      StaysBelow text) :
    AddsBelow ((targetOf disk project assets).locate disk.working) disk
      (ofProject disk project assets options).2 := by
  rcases ofProject_writes hdisk.toProper project assets options with hnone | ⟨hmade, hreaches⟩
  · exact .of_writes_nothing hnone
  · have htarget : (targetOf disk project assets).text ≠ "" := by
      rw [targetOf]
      exact join_name_ne_empty assets (properName_folderOf disk project assets)
    refine .of_writes hdisk (target_free hdisk hassets hmade) (hreaches.mono fun l hl => ?_)
    rcases hl with hl | ⟨c, text, hc, htext, rfl⟩
    · exact hl
    · have hbelow := hstays c text hc htext
      rw [companion, fullPath, locate_join_text htarget hbelow.1]
      exact prefix_leads_of_stays hbelow (by decide) (by decide) _

/-- A project whose scene cuts a picture that is listed at an address, beside assets with a picture
of the same name. -/
def cutPicture (url : String) : Disk where
  entries := [(["game"], .directory), (["game", "resource"], .directory),
    (["game", "resource", "default.res.json"], .file ("\x7b\"groups\":[],\"resources\":[\x7b" ++
      "\"name\":\"bg\",\"type\":\"image\",\"url\":\"" ++ url ++ "\"\x7d]\x7d").toUTF8),
    (["game", "resource", "bg.png"], .file "".toUTF8),
    (["game", "resource", "Main.exml"],
      .file "<e:Image source=\"bg\" scale9Grid=\"1,1,1,1\"/>".toUTF8),
    (["assets"], .directory), (["assets", "bg.png"], .file "".toUTF8),
    (["assets", "bg.png.meta"], .file "".toUTF8)]

/-- The borders of a picture that is listed by its name are written inside of the target. -/
theorem cutPicture_inside :
    let disk := cutPicture "bg.png"
    let after := (ofProject disk ⟨"game"⟩ ⟨"assets"⟩ {}).2
    disk.IsTree ∧ disk.isDirectory ⟨"assets"⟩ = true ∧
      (∀ c text, compilation? disk ⟨"game"⟩ ⟨"assets"⟩ {} = some c → c.Borders text →
        StaysBelow text) ∧
      AddsBelow ["assets", "game"] disk after ∧
        after.entry? ["assets", "game", "bg.png.meta"] ≠ none := by
  intro disk after
  have htree : disk.IsTree :=
    .of_entries ⟨by decide +kernel, by decide +kernel⟩ (by decide +kernel) (by decide)
  have hassets : disk.isDirectory ⟨"assets"⟩ = true := by decide +kernel
  have hread : (compilation? disk ⟨"game"⟩ ⟨"assets"⟩ {}).map (fun c =>
      (c.setting.assets.paths.entries, (c.setting.run c.files c.world).2.sheets.isEmpty)) =
        some ([("bg", "bg.png")], true) := by decide +kernel
  have hstays : ∀ c text, compilation? disk ⟨"game"⟩ ⟨"assets"⟩ {} = some c → c.Borders text →
      StaysBelow text := by
    intro c text hc htext
    rw [hc] at hread
    obtain ⟨hpaths, hsheets⟩ := Prod.mk.inj (Option.some.inj hread)
    cases htext with
    | asset hpath =>
      have hmem := AssetTable.mem_of_path? hpath
      rw [hpaths, List.mem_singleton] at hmem
      obtain ⟨-, rfl⟩ := Prod.mk.inj hmem
      decide +kernel
    | texture _ hs =>
      rw [List.isEmpty_iff.1 hsheets] at hs
      cases hs
  have hadds := import_stays_inside htree (.inl hassets) hstays
  have hplace : (targetOf disk ⟨"game"⟩ ⟨"assets"⟩).locate disk.working = ["assets", "game"] := by
    decide +kernel
  rw [hplace] at hadds
  exact ⟨htree, hassets, hstays, hadds, by decide +kernel⟩

/-- The disk of an earlier import of a project with one scene. -/
def sceneImported : Disk :=
  { oneScene with
    entries := oneScene.entries ++ [(["assets", "game"], .directory),
      (["assets", "game", "ui"], .directory),
      (["assets", "game", "ui", "Main.prefab"], .file "".toUTF8)] }

/-- An address with a step up has the borders written over a file outside of the target. A way to the
assets over a directory that is missing hides an earlier import, which is written over as well. -/
theorem cutPicture_outside :
    (¬AddsBelow ["assets", "game"] (cutPicture "../bg.png")
      (ofProject (cutPicture "../bg.png") ⟨"game"⟩ ⟨"assets"⟩ {}).2) ∧
    ∀ root, ¬AddsBelow root sceneImported
      (ofProject sceneImported ⟨"game"⟩ ⟨"missing/../assets"⟩ {}).2 := by
  constructor
  · intro h
    have hkept : entry? (ofProject (cutPicture "../bg.png") ⟨"game"⟩ ⟨"assets"⟩ {}).2
        ["assets", "bg.png.meta"] = some (.file "".toUTF8) := h.kept rfl
    exact absurd hkept (by decide +kernel)
  · intro root h
    have hkept : entry? (ofProject sceneImported ⟨"game"⟩ ⟨"missing/../assets"⟩ {}).2
        ["assets", "game", "ui", "Main.prefab"] = some (.file "".toUTF8) := h.kept rfl
    exact absurd hkept (by decide +kernel)

end ImportReport

end MarkupScene
