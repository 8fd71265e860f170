import MarkupScene.Proofs.Scans

/-!
# Scanned files

No resource is lost in a scan. The place of a file is free when the file is visited, so that nothing
that was there is changed and every copy is made. The main statement is that each file has exactly
one role after the scan, and that its copy or its converted font is in its place then. The exception
are documents that look like a configuration and cannot be decoded as one: they are ignored.
-/
namespace MarkupScene

open MarkupScene.Path Disk Taking

section
variable {d d' : Disk} {path path' : Path}

theorem readText_congr (h : d.readBytes path = d'.readBytes path') :
    d.readText path = d'.readText path' := by
  unfold readText
  rw [h]

theorem value?_congr (h : d.readBytes path = d'.readBytes path') :
    value? d path = value? d' path' := by
  unfold value?
  rw [readText_congr h]

end

section
variable {d d' : Disk} {path : Path} (h : d.readBytes path = d'.readBytes path)
include h

theorem font?_congr : font? d path = font? d' path := by
  unfold font?
  rw [readText_congr h]

theorem Undecoded.congr (hpath : Undecoded d path) : Undecoded d' path := by
  unfold Undecoded at hpath ⊢
  rwa [← value?_congr h]

theorem Plain.congr (hpath : Plain d path) : Plain d' path where
  markup := hpath.markup
  configuration hextension := by
    rw [← value?_congr h]
    exact hpath.configuration hextension
  font hextension := by
    rw [← font?_congr h]
    exact hpath.font hextension

theorem Noted.congr {role : FileRole} (hpath : Noted d path role) : Noted d' path role := by
  have hvalue := value?_congr h
  cases hpath with
  | markup hextension => exact .markup hextension
  | manifest hextension hv hkind hdecode => exact .manifest hextension (hvalue ▸ hv) hkind hdecode
  | theme hextension hv hkind hdecode => exact .theme hextension (hvalue ▸ hv) hkind hdecode
  | animation hextension hv hkind => exact .animation hextension (hvalue ▸ hv) hkind

end

section
variable {disk : Disk} {path : Path}

theorem Plain.not_undecoded (h : Plain disk path) : ¬Undecoded disk path := by
  rintro ⟨hextension, v, hv, hkind⟩
  have hnone := h.configuration hextension
  rw [hv, Option.bind_some] at hnone
  rcases hkind with ⟨hkind, -⟩ | ⟨hkind, -⟩
  · rw [hnone] at hkind
    cases hkind
  · rw [hnone] at hkind
    cases hkind

theorem Noted.not_undecoded {role : FileRole} (h : Noted disk path role) :
    ¬Undecoded disk path := by
  rintro ⟨hextension, v, hv, hundecoded⟩
  cases h with
  | markup hmarkup =>
    rw [hmarkup] at hextension
    exact absurd hextension (by decide)
  | manifest _ hv' hkind hdecode =>
    rw [hv] at hv'
    obtain rfl := Option.some.inj hv'
    simp [hkind, hdecode] at hundecoded
  | theme _ hv' hkind hdecode =>
    rw [hv] at hv'
    obtain rfl := Option.some.inj hv'
    simp [hkind, hdecode] at hundecoded
  | animation _ hv' hkind =>
    rw [hv] at hv'
    obtain rfl := Option.some.inj hv'
    simp [hkind] at hundecoded

theorem not_undecoded_of_font (h : path.extension? = some "fnt") : ¬Undecoded disk path := by
  rintro ⟨hextension, -⟩
  rw [h] at hextension
  exact absurd hextension (by decide)

end

/-- What a role says of a file as it was, and of its place as it is. -/
inductive Fits (before after : Disk) (path place : Path) : FileRole → Prop where
  | noted {role} : Noted before path role → Fits before after path place role
  | copied {content} : Plain before path → before.readBytes path = .ok content →
      after.readBytes place = .ok content → Fits before after path place (.copied place)
  | converted {font} : path.extension? = some "fnt" → font? before path = some font →
      after.readBytes place = .ok font.classicText.toUTF8 →
      Fits before after path place (.converted place)

theorem Fits.mono {before after later : Disk} {path place : Path} {role : FileRole}
    (h : ∀ content, after.readBytes place = .ok content → later.readBytes place = .ok content)
    (hrole : Fits before after path place role) : Fits before later path place role := by
  cases hrole with
  | noted hnoted => exact .noted hnoted
  | copied hplain hread hplace => exact .copied hplain hread (h _ hplace)
  | converted hextension hfont hplace => exact .converted hextension hfont (h _ hplace)

/-- A file is recorded once, in a role that fits, or not at all when it cannot be decoded. -/
def HasRole (before after : Disk) (files : List IntakeFile) (path place : Path) : Prop :=
  Undecoded before path ∧ (∀ f ∈ files, f.path ≠ path) ∨
    ¬Undecoded before path ∧ ∃ role, Fits before after path place role ∧
      files.filter (fun f => f.path = path) = [⟨path, role⟩]

theorem HasRole.mono {before after later : Disk} {files added : List IntakeFile} {path place : Path}
    (hread : ∀ content, after.readBytes place = .ok content → later.readBytes place = .ok content)
    (hadded : ∀ f ∈ added, f.path ≠ path) (h : HasRole before after files path place) :
    HasRole before later (files ++ added) path place := by
  rcases h with ⟨hundecoded, hnone⟩ | ⟨hdecoded, role, hfits, honce⟩
  · exact .inl ⟨hundecoded, List.forall_mem_append.2 ⟨hnone, hadded⟩⟩
  · refine .inr ⟨hdecoded, role, hfits.mono hread, ?_⟩
    rw [List.filter_append, honce, List.filter_eq_nil_iff.2 fun f hf => by simpa using hadded f hf,
      List.append_nil]

theorem HasRole.congr {before before' after : Disk} {files : List IntakeFile} {path place : Path}
    (hsame : before.readBytes path = before'.readBytes path)
    (h : HasRole before after files path place) : HasRole before' after files path place := by
  rcases h with ⟨hundecoded, hnone⟩ | ⟨hdecoded, role, hfits, honce⟩
  · exact .inl ⟨hundecoded.congr hsame, hnone⟩
  · refine .inr ⟨fun h => hdecoded (h.congr hsame.symm), role, ?_, honce⟩
    cases hfits with
    | noted hnoted => exact .noted (hnoted.congr hsame)
    | copied hplain hread hplace => exact .copied (hplain.congr hsame) (hsame ▸ hread) hplace
    | converted hextension hfont hplace =>
      exact .converted hextension (font?_congr hsame ▸ hfont) hplace

/-- A file that is taken in to a free place has its role. -/
theorem Takes.hasRole {front : Path} {n : String} {before : Disk} {i after : Intake} {path : Path}
    (h : Takes path (front.join ⟨n⟩) i after) (hi : i.disk.IsTree)
    (hfront : i.disk.isDirectory front = true) (hn : ProperName n)
    (hfree : i.disk.entry? ((front.join ⟨n⟩).locate i.disk.working) = none)
    (hsame : i.disk.readBytes path = before.readBytes path)
    (hnew : ∀ f ∈ i.files, f.path ≠ path) :
    HasRole before after.disk after.files path (front.join ⟨n⟩) := by
  have honce : ∀ role, (i.files ++ [(⟨path, role⟩ : IntakeFile)]).filter (fun f => f.path = path) =
      [⟨path, role⟩] := by
    intro role
    rw [List.filter_append, List.filter_eq_nil_iff.2 fun f hf => by simpa using hnew f hf]
    simp
  cases h with
  | @noted role hnoted =>
    have hbefore := hnoted.congr hsame
    exact .inr ⟨hbefore.not_undecoded, role, .noted hbefore, honce role⟩
  | undecoded hundecoded => exact .inl ⟨hundecoded.congr hsame, hnew⟩
  | occupied _ hexists =>
    obtain ⟨e, he⟩ := hi.exists_entry hexists
    rw [hfree] at he
    cases he
  | copied hplain _ hread hwrite =>
    have hbefore := hplain.congr hsame
    refine .inr ⟨hbefore.not_undecoded, _, .copied hbefore (hsame ▸ hread) ?_, honce _⟩
    exact hi.readBytes_written hfront hn hwrite
  | converted hextension hfont hwrite =>
    refine .inr ⟨not_undecoded_of_font hextension, _,
      .converted hextension (font?_congr hsame ▸ hfont) ?_, honce _⟩
    exact hi.readBytes_written hfront hn hwrite

namespace Tour

variable {source target : Path} {start : Disk} {t t' : Tour}

theorem Sound.readBytes_step (h : Sound source target start t)
    (hclear : ∀ ns, ns ≠ [] → start.entry? (target.locate start.working ++ ns) = none)
    (hstep : Step source target t t') {p : Path} {content : ByteArray}
    (hread : t.intake.disk.readBytes p = .ok content) :
    t'.intake.disk.readBytes p = .ok content := by
  obtain ⟨ns, rest, children, hvisit⟩ := h.visit hstep
  have hentry := h.tree.entry?_of_readBytes hread
  refine h.tree.readBytes_of_grows hvisit.grows hread ?_
  rw [hvisit.grows.outside, hentry]
  intro hplace
  rw [hplace, h.grows.working, h.fresh hclear hvisit.mem_todo.1] at hentry
  cases hentry

theorem Sound.below_ne (h : Sound source target start t) {ns ms : List String}
    (hns : ns ∈ t.todo) (hms : ms ∈ t.seen) : source.below ns ≠ source.below ms := by
  intro hsame
  have hproper := (h.names ns (List.mem_append_left _ hns)).2
  obtain rfl := below_injective source hproper (h.names ms (List.mem_append_right _ hms)).2 hsame
  exact h.ahead ns hns ns hms (List.prefix_refl ns)

theorem Recorded.path_ne (h : Recorded source target t) (hsound : Sound source target start t)
    {ns : List String} (hns : ns ∈ t.todo) : ∀ f ∈ t.intake.files, f.path ≠ source.below ns := by
  intro f hf hsame
  obtain ⟨ms, hms, hpath⟩ := List.mem_map.1
    (h.paths.subset (List.mem_map_of_mem (f := (·.path)) hf))
  exact hsound.below_ne hns hms (hsame.symm.trans hpath.symm)

theorem Sound.hasRole (h : Sound source target start t) (hrecorded : Recorded source target t)
    (hstart : start.IsTree)
    (hclear : ∀ ns, ns ≠ [] → start.entry? (target.locate start.working ++ ns) = none)
    {ns : List String} (hns : ns ∈ t.todo) {after : Intake}
    (htakes : Takes (source.below ns) (target.below ns) t.intake after)
    (hfile : start.isFile (source.below ns) = true) :
    HasRole start after.disk after.files (source.below ns) (target.below ns) := by
  -- The place of the file is free, and the file is as it was.
  obtain ⟨front, n, rfl, hn, hfront⟩ := h.place hns
  have hfree := h.fresh hclear hns
  rw [← locate_below _ _ (h.names _ (List.mem_append_left _ hns)).2, ← h.grows.working] at hfree
  obtain ⟨content, hcontent⟩ := readBytes_of_isFile hfile
  have hsame : t.intake.disk.readBytes (source.below (front ++ [n])) =
      start.readBytes (source.below (front ++ [n])) := by
    rw [hcontent]
    exact hstart.readBytes_of_grows h.grows hcontent
      (h.kept hclear (hstart.entry?_of_readBytes hcontent))
  rw [below_concat target] at htakes hfree ⊢
  exact htakes.hasRole h.tree hfront hn hfree hsame (hrecorded.path_ne h hns)

/-- The files that were visited have their roles. -/
def Placed (source target : Path) (start : Disk) (t : Tour) : Prop :=
  ∀ ns ∈ t.seen, start.isFile (source.below ns) = true →
    HasRole start t.intake.disk t.intake.files (source.below ns) (target.below ns)

theorem Placed.step (h : Placed source target start t) (hsound : Sound source target start t)
    (hrecorded : Recorded source target t) (hstart : start.IsTree)
    (hclear : ∀ ns, ns ≠ [] → start.entry? (target.locate start.working ++ ns) = none)
    (hstep : Step source target t t') : Placed source target start t' := by
  have hreads : ∀ {p content}, t.intake.disk.readBytes p = .ok content →
      t'.intake.disk.readBytes p = .ok content := fun hread =>
    hsound.readBytes_step hclear hstep hread
  cases hstep with
  | @directory ns rest seen i d found hdirectory hmade hread =>
    intro ms hms hfile
    rcases List.mem_append.1 hms with hms | hms
    · have hrole : HasRole start d (i.files ++ []) (source.below ms) (target.below ms) :=
        (h ms hms hfile).mono (fun content => hreads) nofun
      rwa [List.append_nil] at hrole
    · obtain rfl := List.mem_singleton.1 hms
      rw [not_isDirectory_of_isFile (hsound.grows.isFile hfile)] at hdirectory
      cases hdirectory
  | @file ns rest seen i after _ htaken =>
    have htakes := Taking.of_takeFile htaken
    intro ms hms hfile
    rcases List.mem_append.1 hms with hms | hms
    · obtain ⟨added, hfiles, hadded⟩ := htakes.files
      dsimp only
      rw [hfiles]
      refine (h ms hms hfile).mono (fun content => hreads) fun f hf => ?_
      rcases hadded with rfl | ⟨role, rfl, -⟩
      · cases hf
      · rw [List.mem_singleton.1 hf]
        exact hsound.below_ne List.mem_cons_self hms
    · obtain rfl := List.mem_singleton.1 hms
      exact hsound.hasRole hrecorded hstart hclear List.mem_cons_self htakes hfile

theorem Placed.steps (hsound : Sound source target start t) (hrecorded : Recorded source target t)
    (h : Placed source target start t) (hstart : start.IsTree)
    (hclear : ∀ ns, ns ≠ [] → start.entry? (target.locate start.working ++ ns) = none)
    (hsteps : Steps source target t t') : Placed source target start t' := by
  induction hsteps with
  | refl => exact h
  | tail hbefore hstep ih =>
    exact ih.step (hsound.steps hbefore) (hrecorded.steps hbefore) hstart hclear hstep

end Tour

namespace ImportReport

/-- No resource is lost in a scan: every file below the resources has exactly one role, and its copy
or its converted font is in its place in the target. Only a document that looks like a configuration
and cannot be decoded as one has none. -/
theorem scan_gives_roles {disk : Disk} (hdisk : disk.IsTree) {project assets : Path}
    (hassets : disk.isDirectory assets = true ∨ .up ∉ assets.components) {options : Options}
    {c : Compilation} (hc : compilation? disk project assets options = some c)
    {names : List String} (hnames : ∀ n ∈ names, ProperName n)
    (hfile : disk.isFile ((resourcesOf project).below names) = true) :
    HasRole disk c.intake.disk c.intake.files ((resourcesOf project).below names)
      ((targetOf disk project assets).below names) := by
  obtain ⟨made, seen, h⟩ := exists_scan hdisk hc
  have hgrows := hdisk.makeDirectories_grows (targetOf disk project assets)
  rw [h.target] at hgrows
  have hclear := fun ns (hns : ns ≠ []) => made_clear hdisk hassets h.target hns
  obtain ⟨found, hread, hsteps⟩ := h.tour
  have hplaced : Tour.Placed (resourcesOf project) (targetOf disk project assets) made
      ⟨[], seen, c.intake⟩ :=
    Tour.Placed.steps (Tour.sound_tourOf h.tree (made_isDirectory h.target) hread)
      (Tour.recorded_tourOf made found) nofun h.tree hclear hsteps
  obtain ⟨content, hcontent⟩ := readBytes_of_isFile hfile
  have hsame : made.readBytes ((resourcesOf project).below names) =
      disk.readBytes ((resourcesOf project).below names) := by
    rw [hcontent]
    exact hdisk.readBytes_of_grows hgrows hcontent
      (made_kept hdisk h.target (hdisk.entry?_of_readBytes hcontent))
  have hne : names ≠ [] := by
    rintro rfl
    have hnot := not_isDirectory_of_isFile hfile
    rw [below_nil, h.resources] at hnot
    cases hnot
  have hthere := hgrows.isFile hfile
  exact (hplaced names (h.visited hne hnames (exists_of_isFile hthere)) hthere).congr hsame

/-- A project with a text and a document that looks like a manifest and is none. -/
def brokenManifest : Disk where
  entries := [(["game"], .directory), (["game", "resource"], .directory),
    (["game", "resource", "a.json"],
      .file "\x7b\"groups\":[],\"resources\":[true]\x7d".toUTF8),
    (["game", "resource", "hint.txt"], .file "hint".toUTF8), (["assets"], .directory)]

theorem brokenManifest_scanned :
    ∃ c, compilation? brokenManifest ⟨"game"⟩ ⟨"assets"⟩ {} = some c ∧
      c.intake.files.map (·.path) = [⟨"game/resource/hint.txt"⟩] := by
  have hscan : (compilation? brokenManifest ⟨"game"⟩ ⟨"assets"⟩ {}).map (fun c =>
      c.intake.files.map (·.path)) = some [⟨"game/resource/hint.txt"⟩] := by
    decide +kernel
  exact Option.map_eq_some_iff.1 hscan

/-- The text is copied. -/
theorem hint_copied :
    brokenManifest.IsTree ∧ brokenManifest.isDirectory ⟨"assets"⟩ = true ∧
      (∀ n ∈ ["hint.txt"], ProperName n) ∧
        brokenManifest.isFile ((resourcesOf ⟨"game"⟩).below ["hint.txt"]) = true ∧
          ∃ c, compilation? brokenManifest ⟨"game"⟩ ⟨"assets"⟩ {} = some c ∧
            HasRole brokenManifest c.intake.disk c.intake.files
              ((resourcesOf ⟨"game"⟩).below ["hint.txt"])
              ((targetOf brokenManifest ⟨"game"⟩ ⟨"assets"⟩).below ["hint.txt"]) := by
  have htree : brokenManifest.IsTree :=
    .of_entries ⟨by decide +kernel, by decide +kernel⟩ (by decide +kernel) (by decide)
  have hassets : brokenManifest.isDirectory ⟨"assets"⟩ = true := by decide +kernel
  have hnames : ∀ n ∈ ["hint.txt"], ProperName n := by decide
  have hfile : brokenManifest.isFile ((resourcesOf ⟨"game"⟩).below ["hint.txt"]) = true := by
    decide +kernel
  obtain ⟨c, hc, -⟩ := brokenManifest_scanned
  exact ⟨htree, hassets, hnames, hfile, c, hc,
    scan_gives_roles htree (.inl hassets) hc hnames hfile⟩

/-- A project with a text, and an earlier text in its place. -/
def olderHint : Disk where
  entries := [(["game"], .directory), (["game", "resource"], .directory),
    (["game", "resource", "hint.txt"], .file "hint".toUTF8), (["assets"], .directory),
    (["assets", "game"], .directory), (["assets", "game", "hint.txt"], .file "older".toUTF8)]

/-- The document is recorded nowhere. Neither is a text when a way to the assets over a directory
that is missing hides that its place is taken. -/
theorem files_lost :
    (brokenManifest.isFile ⟨"game/resource/a.json"⟩ = true ∧
      ∃ c, compilation? brokenManifest ⟨"game"⟩ ⟨"assets"⟩ {} = some c ∧
        ∀ f ∈ c.intake.files, f.path ≠ ⟨"game/resource/a.json"⟩) ∧
    olderHint.isFile ⟨"game/resource/hint.txt"⟩ = true ∧
      ∃ c, compilation? olderHint ⟨"game"⟩ ⟨"missing/../assets"⟩ {} = some c ∧
        c.intake.files = [] := by
  constructor
  · obtain ⟨c, hc, hpaths⟩ := brokenManifest_scanned
    refine ⟨by decide +kernel, c, hc, fun f hf hpath => ?_⟩
    have hmem : f.path ∈ c.intake.files.map (·.path) := List.mem_map_of_mem hf
    rw [hpaths, hpath] at hmem
    exact absurd hmem (by decide)
  · have hscan : (compilation? olderHint ⟨"game"⟩ ⟨"missing/../assets"⟩ {}).map (fun c =>
        c.intake.files.map (·.path)) = some [] := by
      decide +kernel
    obtain ⟨c, hc, hpaths⟩ := Option.map_eq_some_iff.1 hscan
    exact ⟨by decide +kernel, c, hc, List.map_eq_nil_iff.1 hpaths⟩

end ImportReport

end MarkupScene
