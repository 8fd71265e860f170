import MarkupScene.Proofs.FileLists
import MarkupScene.Proofs.FoundDocuments
import MarkupScene.Proofs.ScannedFiles

/-!
# Themes of a project

A scan copies a document of the JSON form to a free place only, and only one that is no
configuration, so that no theme is written or overwritten. Entries are visited in ascending order,
those in a directory right after it. The main statements are that the themes that an import finds
are those of the files that were in the resources before, in this order, and which skins they give.
-/
namespace MarkupScene

open MarkupScene.Path Disk Taking

/-- The theme that a file holds. -/
def themeAt? (disk : Disk) (path : Path) : Option Theme :=
  if path.extension? = some "json" then
    (value? disk path).bind fun v =>
      if ConfigKind.ofValue? v = some .theme then Theme.decode? v else none
  else none

section
variable {disk : Disk} {path : Path}

theorem themeAt?_of_kind (h : (value? disk path).bind ConfigKind.ofValue? ≠ some .theme) :
    themeAt? disk path = none := by
  unfold themeAt?
  split
  · cases hvalue : value? disk path with
    | none => rfl
    | some v =>
      rw [hvalue] at h
      exact if_neg h
  · rfl

theorem themeAt?_of_unread {fault : DiskFault} (h : disk.readBytes path = .error fault) :
    themeAt? disk path = none := by
  refine themeAt?_of_kind ?_
  simp [value?, readText, h]

theorem themeAt?_of_isDirectory (h : disk.isDirectory path = true) :
    themeAt? disk path = none := by
  have hread : disk.readBytes path = .error .isADirectory := by
    simp [readBytes, walk_of_isDirectory h]
  exact themeAt?_of_unread hread

theorem themeAt?_congr {disk' : Disk} (h : disk.readBytes path = disk'.readBytes path) :
    themeAt? disk path = themeAt? disk' path := by
  unfold themeAt?
  rw [value?_congr h]

theorem themeAt?_eq_some_iff {t : Theme} :
    themeAt? disk path = some t ↔ Noted disk path (.theme t) := by
  constructor
  · intro h
    unfold themeAt? at h
    split at h
    · next hextension =>
      obtain ⟨v, hv, hdecode⟩ := Option.bind_eq_some_iff.1 h
      split at hdecode
      · next hkind => exact .theme hextension hv hkind hdecode
      · cases hdecode
    · cases h
  · rintro (_ | _ | ⟨hextension, hv, hkind, hdecode⟩ | _)
    rw [themeAt?, if_pos hextension, hv, Option.bind_some, if_pos hkind, hdecode]

end

section
variable {source place : Path} {i after : Intake}

theorem themes_append (i : Intake) (d : Disk) (added : List IntakeFile) :
    Intake.themes ⟨d, i.files ++ added⟩ = i.themes ++ Intake.themes ⟨d, added⟩ :=
  List.filterMap_append

/-- A file is noted as a theme when it holds one. -/
theorem Takes.themes (h : Takes source place i after) :
    after.themes = i.themes ++ (themeAt? i.disk source).toList := by
  have hplain : Plain i.disk source → themeAt? i.disk source = none := by
    intro hplain
    by_cases hextension : source.extension? = some "json"
    · refine themeAt?_of_kind ?_
      rw [hplain.configuration hextension]
      exact (Option.some_ne_none _).symm
    · exact if_neg hextension
  have hkind : ∀ {v kind}, value? i.disk source = some v → ConfigKind.ofValue? v = some kind →
      kind ≠ .theme → themeAt? i.disk source = none := by
    intro v kind hv hkind hne
    refine themeAt?_of_kind ?_
    rw [hv, Option.bind_some, hkind]
    exact fun hsame => hne (Option.some.inj hsame)
  cases h with
  | noted hnoted =>
    rw [themes_append]
    cases hnoted with
    | markup hmarkup =>
      rw [themeAt?, if_neg fun hjson => absurd (hmarkup.symm.trans hjson) (by decide)]
      rfl
    | manifest _ hv hmanifest =>
      rw [hkind hv hmanifest (by decide)]
      rfl
    | theme hextension hv htheme hdecode =>
      rw [themeAt?_eq_some_iff.2 (.theme hextension hv htheme hdecode)]
      rfl
    | animation _ hv hanimation =>
      rw [hkind hv hanimation (by decide)]
      rfl
  | undecoded hundecoded =>
    have hnone : themeAt? i.disk source = none := by
      obtain ⟨hextension, v, hv, ⟨hmanifest, -⟩ | ⟨htheme, hdecode⟩⟩ := hundecoded
      · exact hkind hv hmanifest (by decide)
      · rw [themeAt?, if_pos hextension, hv, Option.bind_some, if_pos htheme]
        exact Option.isNone_iff_eq_none.1 hdecode
    rw [hnone]
    exact (List.append_nil _).symm
  | occupied hfile =>
    rw [hplain hfile]
    exact (List.append_nil _).symm
  | copied hfile =>
    rw [themes_append, hplain hfile]
    rfl
  | converted hfont =>
    rw [themes_append, themeAt?, if_neg fun hjson => absurd (hfont.symm.trans hjson) (by decide)]
    rfl

end

namespace Disk

/-- Documents of the JSON form stay as they are, and new ones are no configurations. -/
structure Spares (before after : Disk) : Prop where
  kept {l n content} : (splitName n).2 = some "json" →
    before.entry? (l ++ [n]) = some (.file content) →
      after.entry? (l ++ [n]) = some (.file content)
  added {l n content} : (splitName n).2 = some "json" →
    after.entry? (l ++ [n]) = some (.file content) →
      before.entry? (l ++ [n]) = some (.file content) ∨
        ∀ (d : Disk) (p : Path), d.readBytes p = .ok content →
          (value? d p).bind ConfigKind.ofValue? = none

namespace Spares

theorem refl (d : Disk) : Spares d d where
  kept _ h := h
  added _ h := .inl h

theorem trans {d d' d'' : Disk} (h : Spares d d') (h' : Spares d' d'') : Spares d d'' where
  kept hn hentry := h'.kept hn (h.kept hn hentry)
  added hn hentry := by
    rcases h'.added hn hentry with hentry | hplain
    · exact h.added hn hentry
    · exact .inr hplain

theorem of_writes {d d' : Disk} (h : Writes (fun _ => False) d d') : Spares d d' where
  kept _ hentry := (h.outside id _).2 hentry
  added _ hentry := .inl ((h.outside id _).1 hentry)

/-- The same theme is read below a directory before and after. -/
theorem themeAt?_eq {before after : Disk} {inside : Location → Prop} (h : Spares before after)
    (hbefore : before.IsTree) (hgrows : Grows inside before after) {base : Path}
    (hbase : before.isDirectory base = true) {names : List String} (hne : names ≠ [])
    (hnames : ∀ n ∈ names, ProperName n) :
    themeAt? after (base.below names) = themeAt? before (base.below names) := by
  have hafter : after.IsTree := hgrows.tree hbefore
  obtain ⟨front, n, rfl⟩ : ∃ front n, names = front ++ [n] := by
    rcases List.eq_nil_or_concat names with h | ⟨front, n, h⟩
    · exact absurd h hne
    · exact ⟨front, n, by rw [h, List.concat_eq_append]⟩
  by_cases hextension : (base.below (front ++ [n])).extension? = some "json"
  · have hn : (splitName n).2 = some "json" := by
      rwa [below_concat, extension?_join_name _ (hnames n (by simp))] at hextension
    cases hread : before.readBytes (base.below (front ++ [n])) with
    | ok content =>
      have hentry := hbefore.entry?_of_readBytes hread
      have hlater := hbefore.readBytes_of_grows hgrows hread <| by
        rw [locate_below _ _ hnames, ← List.append_assoc] at hentry ⊢
        exact h.kept hn hentry
      exact themeAt?_congr (hlater.trans hread.symm)
    | error fault =>
      rw [themeAt?_of_unread hread]
      cases hread' : after.readBytes (base.below (front ++ [n])) with
      | error fault' => exact themeAt?_of_unread hread'
      | ok content =>
        have hentry := hafter.entry?_of_readBytes hread'
        rw [locate_below _ _ hnames, hgrows.working, ← List.append_assoc] at hentry
        rcases h.added hn hentry with hold | hplain
        · -- A file that is read now and was there before was read before.
          have hpasses := passes_of_exists (taken_of_walk (walk_of_isDirectory hbase)).nonempty
            hnames (exists_of_readBytes hread')
          rw [List.append_assoc] at hold
          obtain ⟨content', hcontent⟩ :=
            readBytes_of_isFile (hbefore.isFile_below hbase hne hnames hpasses hold)
          rw [hcontent] at hread
          cases hread
        · refine themeAt?_of_kind ?_
          rw [hplain _ _ hread']
          exact (Option.some_ne_none _).symm
  · rw [themeAt?, themeAt?, if_neg hextension, if_neg hextension]

end Spares

end Disk

/-- A file that is taken in spares the documents of the JSON form. -/
theorem Takes.spares {base front : Path} {n : String} {i after : Intake} (hn : ProperName n)
    (h : Takes (base.join ⟨n⟩) (front.join ⟨n⟩) i after) (hi : i.disk.IsTree) :
    Spares i.disk after.disk := by
  have hplace : ∀ {l : Location} {m : String},
      l ++ [m] = (front.join ⟨n⟩).locate i.disk.working → m = n := by
    intro l m hsame
    rw [locate_join_name _ _ hn] at hsame
    exact List.singleton_inj.1 (List.append_inj' hsame rfl).2
  have hgrows := h.grows hi
  cases h with
  | noted => exact .refl _
  | undecoded => exact .refl _
  | occupied => exact .refl _
  | @copied content d hplain hfree hread hwrite =>
    -- The name is free, so that nothing is overwritten.
    have hnone : i.disk.entry? ((front.join ⟨n⟩).locate i.disk.working) = none := by
      unfold writeBytes at hwrite
      split at hwrite
      · next hwalk => simp [exists?, hwalk] at hfree
      · cases hwrite
      · next hwalk => exact (hi.put_free_grows hwalk .directory).2.2
      · cases hwrite
    have hwritten := (hi.writeBytes_grows hwrite).2
    constructor
    case kept =>
      intro l m old _ hentry
      rw [hgrows.outside, hentry]
      intro hsame
      rw [hsame, hnone] at hentry
      cases hentry
    case added =>
      intro l m new hm hentry
      by_cases hsame : l ++ [m] = (front.join ⟨n⟩).locate i.disk.working
      · obtain rfl := hplace hsame
        rw [hsame, hwritten] at hentry
        obtain rfl : content = new := by simpa using hentry
        refine .inr fun d p hp => ?_
        rw [value?_congr (hp.trans hread.symm)]
        exact hplain.configuration (by rw [extension?_join_name _ hn, hm])
      · rw [hgrows.outside hsame] at hentry
        exact .inl hentry
  | converted hfont =>
    have houtside : ∀ {l : Location} {m : String}, (splitName m).2 = some "json" →
        ¬l ++ [m] = (front.join ⟨n⟩).locate i.disk.working := by
      intro l m hm hsame
      obtain rfl := hplace hsame
      rw [extension?_join_name _ hn, hm] at hfont
      exact absurd hfont (by decide)
    constructor
    case kept => exact fun hm hentry => (hgrows.outside (houtside hm)).trans hentry
    case added => exact fun hm hentry => .inl ((hgrows.outside (houtside hm)).symm.trans hentry)

namespace Tour

variable {source target : Path} {start : Disk} {t t' : Tour}

/-- The themes of a tour are those of the disk as it was, in the order of the visits. -/
structure FindsThemes (source : Path) (start : Disk) (t : Tour) : Prop where
  spares : Spares start t.intake.disk
  themes : t.intake.themes = t.seen.filterMap fun ns => themeAt? start (source.below ns)

theorem FindsThemes.step (h : FindsThemes source start t) (hsound : Sound source target start t)
    (hstart : start.IsTree) (hsource : start.isDirectory source = true)
    (hstep : Step source target t t') : FindsThemes source start t' := by
  have hsame : ∀ {ns}, ns ∈ t.todo → themeAt? t.intake.disk (source.below ns) =
      themeAt? start (source.below ns) := by
    intro ns hns
    obtain ⟨hne, hnames⟩ := hsound.names ns (List.mem_append_left _ hns)
    exact h.spares.themeAt?_eq hstart hsound.grows hsource hne hnames
  cases hstep with
  | @directory ns rest seen i d found hdirectory hmade hread =>
    have hnone : themeAt? start (source.below ns) = none := by
      rw [← hsame List.mem_cons_self]
      exact themeAt?_of_isDirectory hdirectory
    have hwrites := i.disk.makeDirectories_writes (target.below ns)
    rw [hmade] at hwrites
    refine ⟨h.spares.trans (.of_writes hwrites), ?_⟩
    have hthemes : i.themes = seen.filterMap fun ns => themeAt? start (source.below ns) :=
      h.themes
    change i.themes = _
    rw [hthemes, List.filterMap_append, List.filterMap_cons, hnone]
    exact (List.append_nil _).symm
  | @file ns rest seen i after hvisited htaken =>
    have htakes := Taking.of_takeFile htaken
    obtain ⟨front, n, hns, hn, -⟩ := hsound.place (show ns ∈ ns :: rest from List.mem_cons_self)
    constructor
    case spares =>
      rw [hns, below_concat, below_concat] at htakes
      exact h.spares.trans (htakes.spares hn hsound.tree)
    case themes =>
      have hadded := hsame (show ns ∈ ns :: rest from List.mem_cons_self)
      have hthemes : i.themes = seen.filterMap fun ns => themeAt? start (source.below ns) :=
        h.themes
      rw [List.filterMap_append, htakes.themes, hthemes, hadded, List.filterMap_cons]
      cases themeAt? start (source.below ns) with
      | none => rfl
      | some theme => rfl

theorem findsThemes_tourOf (start : Disk) (found : List String) :
    FindsThemes source start (Intake.tourOf start found) where
  spares := .refl start
  themes := rfl

theorem FindsThemes.steps (h : FindsThemes source start t) (hsound : Sound source target start t)
    (hstart : start.IsTree) (hsource : start.isDirectory source = true)
    (hsteps : Steps source target t t') : FindsThemes source start t' := by
  induction hsteps with
  | refl => exact h
  | tail hbefore hstep ih => exact ih.step (hsound.steps hbefore) hstart hsource hstep

/-- What was visited and what will be stands in ascending order. -/
def Ascends (t : Tour) : Prop := (t.seen ++ t.todo).Pairwise (· < ·)

theorem append_lt_append_left {ns ms : List String} (front : List String) (h : ns < ms) :
    front ++ ns < front ++ ms := by
  induction front with
  | nil => exact h
  | cons n front ih => exact List.Lex.cons ih

theorem append_lt_of_apart {ns ms : List String} (h : ns < ms) (hapart : ¬ns <+: ms)
    (below : List String) : ns ++ below < ms := by
  induction h with
  | nil => exact absurd (List.nil_prefix) hapart
  | cons _ ih =>
    exact List.Lex.cons (ih fun hprefix => hapart (List.cons_prefix_cons.2 ⟨rfl, hprefix⟩))
  | rel hlt => exact List.Lex.rel hlt

theorem Ascends.step (h : Ascends t) (hsound : Sound source target start t)
    (hstep : Step source target t t') : Ascends t' := by
  cases hstep with
  | @file ns rest seen i after =>
    rw [Ascends, List.append_assoc]
    exact h
  | @directory ns rest seen i d found hdirectory hmade hread =>
    obtain ⟨hseen, htodo, hbefore⟩ := List.pairwise_append.1 h
    obtain ⟨hns, hrest⟩ := List.pairwise_cons.1 htodo
    -- Nothing that is still to be visited lies in the directory, so its entries come before.
    have hapart : ∀ ms ∈ rest, Apart ns ms := (List.pairwise_cons.1 hsound.apart).1
    have hchild : ∀ n : String, ns < ns ++ [n] := by
      intro n
      have hlt := append_lt_append_left ns (show ([] : List String) < [n] from List.Lex.nil)
      rwa [List.append_nil] at hlt
    have hchildren : (found.map (ns ++ [·])).Pairwise (· < ·) := by
      refine List.pairwise_map.2 ((pairwise_of_readDirectory hread).imp fun hlt => ?_)
      exact append_lt_append_left ns (List.Lex.rel hlt)
    have hfound : ∀ child ∈ found.map (ns ++ [·]), ns < child ∧ ∀ ms ∈ rest, child < ms := by
      intro child hchild'
      obtain ⟨n, -, rfl⟩ := List.mem_map.1 hchild'
      exact ⟨hchild n, fun ms hms => append_lt_of_apart (hns ms hms) (hapart ms hms).1 [n]⟩
    change ((seen ++ [ns]) ++ (found.map (ns ++ [·]) ++ rest)).Pairwise (· < ·)
    rw [List.append_assoc, List.singleton_append]
    refine List.pairwise_append.2 ⟨hseen, List.pairwise_cons.2 ⟨fun ms hms => ?_, ?_⟩,
      fun ms hms ks hks => ?_⟩
    · rcases List.mem_append.1 hms with hms | hms
      · exact (hfound ms hms).1
      · exact hns ms hms
    · exact List.pairwise_append.2 ⟨hchildren, hrest, fun child hc => (hfound child hc).2⟩
    · have hlt : ms < ns := hbefore ms hms ns List.mem_cons_self
      rcases List.mem_cons.1 hks with rfl | hks
      · exact hlt
      · rcases List.mem_append.1 hks with hks | hks
        · exact List.lt_trans hlt (hfound ks hks).1
        · exact hbefore ms hms ks (List.mem_cons_of_mem _ hks)

theorem ascends_tourOf (hread : start.readDirectory source = .ok found) :
    Ascends (Intake.tourOf start found) :=
  List.pairwise_map.2 ((pairwise_of_readDirectory hread).imp fun hlt => List.Lex.rel hlt)

theorem Ascends.steps (h : Ascends t) (hsound : Sound source target start t)
    (hsteps : Steps source target t t') : Ascends t' := by
  induction hsteps with
  | refl => exact h
  | tail hbefore hstep ih => exact ih.step (hsound.steps hbefore) hstep

end Tour

namespace ImportReport

/-- Some themes are those of the files below a directory, each with the names on the way down to its
file, in the ascending order of these. -/
structure ThemesBelow (disk : Disk) (source : Path) (found : List (List String × Theme)) :
    Prop where
  files : ∀ f ∈ found, (∀ n ∈ f.1, ProperName n) ∧ Noted disk (source.below f.1) (.theme f.2)
  all {names : List String} {t : Theme} : (∀ n ∈ names, ProperName n) →
    Noted disk (source.below names) (.theme t) → (names, t) ∈ found
  ascending : found.Pairwise fun f g => f.1 < g.1

/-- Some paths are those of the skins of the themes in a project: of the entries of all themes for a
key the last one gives its path below the project. -/
def SkinsBelow (disk : Disk) (project : Path) (paths : List Path) : Prop :=
  ∃ found, ThemesBelow disk (resourcesOf project) found ∧ ∀ path, path ∈ paths ↔ ∃ key spelled,
    Text.Dictionary.LastWritten (found.flatMap (·.2.skins.entries)) key spelled ∧
      (project.join ⟨spelled⟩).normalize = path

/-- The themes that an import finds are those of the files in the resources before. -/
theorem themes_found {disk : Disk} (hdisk : disk.IsTree) {project assets : Path}
    {options : Options} {c : Compilation}
    (hc : compilation? disk project assets options = some c) :
    ∃ found, c.intake.themes = found.map (·.2) ∧
      ThemesBelow disk (resourcesOf project) found := by
  obtain ⟨made, seen, h⟩ := exists_scan hdisk hc
  obtain ⟨entries, hread, hsteps⟩ := h.tour
  have hgrows := hdisk.makeDirectories_grows (targetOf disk project assets)
  have hwrites := disk.makeDirectories_writes (targetOf disk project assets)
  rw [h.target] at hgrows hwrites
  have hstarts := Tour.sound_tourOf h.tree (made_isDirectory h.target) hread
  have hfinds := (Tour.findsThemes_tourOf made entries).steps hstarts h.tree
    (hgrows.isDirectory h.resources) hsteps
  have hascends : (seen ++ []).Pairwise (· < ·) :=
    (Tour.ascends_tourOf hread).steps hstarts hsteps
  rw [List.append_nil] at hascends
  have hnames : ∀ ns ∈ seen, ns ≠ [] ∧ ∀ n ∈ ns, ProperName n := fun ns hns =>
    h.sound.names ns (List.mem_append_right _ hns)
  -- Making the target changes no file, so the tour sees what was there before.
  have hsame : ∀ ns ∈ seen, themeAt? made ((resourcesOf project).below ns) =
      themeAt? disk ((resourcesOf project).below ns) := fun ns hns =>
    (Spares.of_writes hwrites).themeAt?_eq hdisk hgrows h.resources (hnames ns hns).1
      (hnames ns hns).2
  let at? : List String → Option (List String × Theme) := fun ns =>
    (themeAt? disk ((resourcesOf project).below ns)).map (ns, ·)
  refine ⟨seen.filterMap at?, ?_, ?_, ?_, ?_⟩
  · rw [List.map_filterMap]
    refine hfinds.themes.trans (List.filterMap_congr fun ns hns => ?_)
    rw [hsame ns hns, Option.map_map]
    exact Option.map_id'.symm
  · rintro ⟨ns, theme⟩ hf
    obtain ⟨ms, hms, hat⟩ := List.mem_filterMap.1 hf
    obtain ⟨theme', htheme, hpair⟩ := Option.map_eq_some_iff.1 hat
    obtain ⟨rfl, rfl⟩ := Prod.mk.inj hpair
    exact ⟨(hnames ms hms).2, themeAt?_eq_some_iff.1 htheme⟩
  · intro ns theme hproper hnoted
    have htheme := themeAt?_eq_some_iff.2 hnoted
    refine List.mem_filterMap.2 ⟨ns, h.visited ?_ hproper ?_, by simp only [at?, htheme]; rfl⟩
    · rintro rfl
      rw [below_nil, themeAt?_of_isDirectory h.resources] at htheme
      cases htheme
    · cases hread : disk.readBytes ((resourcesOf project).below ns) with
      | error fault =>
        rw [themeAt?_of_unread hread] at htheme
        cases htheme
      | ok content =>
        have hthere := hdisk.readBytes_of_grows hgrows hread
          (made_kept hdisk h.target (hdisk.entry?_of_readBytes hread))
        exact exists_of_readBytes hthere
  · refine hascends.filterMap _ fun ns ms hlt f hf g hg => ?_
    obtain ⟨-, -, rfl⟩ := Option.map_eq_some_iff.1 hf
    obtain ⟨-, -, rfl⟩ := Option.map_eq_some_iff.1 hg
    exact hlt

theorem skins_found {disk : Disk} (hdisk : disk.IsTree) {project assets : Path}
    {options : Options} {c : Compilation}
    (hc : compilation? disk project assets options = some c) :
    SkinsBelow disk project c.setting.skins.paths := by
  obtain ⟨found, hthemes, hbelow⟩ := themes_found hdisk hc
  refine ⟨found, hbelow, fun path => ?_⟩
  rw [setting_of_compilation? hc, settingOf]
  dsimp only
  rw [mem_paths_skinsOf, hthemes, List.flatMap_map]

end ImportReport

end MarkupScene
