import MarkupScene.Proofs.Scans

/-!
# Documents of a project

A scan notes the files whose names have the extension of markup, and writes none: what is copied or
converted has another extension. The main statement is that the documents that an import finds are
the files of this extension that were in the resources before. Only where the path of an entry is
too long for the system can it not be told from a directory.
-/
namespace MarkupScene

open MarkupScene.Path Disk Taking

theorem Path.extension?_join_name (base : Path) {name : String} (h : ProperName name) :
    (base.join ⟨name⟩).extension? = (splitName name).2 := by
  rw [extension?, fileName?_join_name base h]
  rfl

theorem Disk.IsTree.isFile_below {d : Disk} (hd : d.IsTree) {base : Path}
    (hbase : d.isDirectory base = true) {names : List String} (hne : names ≠ [])
    (hnames : ∀ n ∈ names, ProperName n) (hpasses : Passes base names) {content : ByteArray}
    (hentry : d.entry? (base.locate d.working ++ names) = some (.file content)) :
    d.isFile (base.below names) = true := by
  simp [isFile, hd.walk_below hbase hne hnames hpasses hentry]

section
variable {source place : Path} {i after : Intake}

theorem Takes.of_markup (h : Takes source place i after)
    (hextension : source.extension? = some "exml") :
    after = { i with files := i.files ++ [⟨source, .markup⟩] } := by
  have hother : ∀ other, other ≠ "exml" → source.extension? ≠ some other := by
    rintro other hother hsame
    exact hother (Option.some.inj (hsame.symm.trans hextension))
  cases h with
  | noted hnoted =>
    cases hnoted with
    | markup => rfl
    | manifest hjson => exact absurd hjson (hother _ (by decide))
    | theme hjson => exact absurd hjson (hother _ (by decide))
    | animation hjson => exact absurd hjson (hother _ (by decide))
  | undecoded hundecoded => exact absurd hundecoded.1 (hother _ (by decide))
  | occupied hplain => exact absurd hextension hplain.markup
  | copied hplain => exact absurd hextension hplain.markup
  | converted hfont => exact absurd hfont (hother _ (by decide))

/-- A file is noted as a document by its extension. -/
theorem Takes.documents (h : Takes source place i after) :
    after.documents =
      i.documents ++ if source.extension? = some "exml" then [source] else [] := by
  split
  · next hextension =>
    rw [h.of_markup hextension, Intake.documents, List.filterMap_append]
    rfl
  · next hextension =>
    rw [List.append_nil]
    cases h with
    | @noted role hnoted =>
      rw [Intake.documents, List.filterMap_append]
      cases hnoted with
      | markup hmarkup => exact absurd hmarkup hextension
      | _ => exact List.append_nil _
    | undecoded => rfl
    | occupied => rfl
    | copied =>
      rw [Intake.documents, List.filterMap_append]
      exact List.append_nil _
    | converted =>
      rw [Intake.documents, List.filterMap_append]
      exact List.append_nil _

theorem Takes.markup_kept {base front : Path} {n : String} (hn : ProperName n)
    (h : Takes (base.join ⟨n⟩) (front.join ⟨n⟩) i after) (hi : i.disk.IsTree) {l : Location}
    {m : String} (hm : (splitName m).2 = some "exml") :
    after.disk.entry? (l ++ [m]) = i.disk.entry? (l ++ [m]) := by
  by_cases hplace : l ++ [m] = (front.join ⟨n⟩).locate i.disk.working
  · rw [locate_join_name _ _ hn] at hplace
    obtain ⟨-, hname⟩ := List.append_inj' hplace rfl
    obtain rfl := List.singleton_inj.1 hname
    rw [h.of_markup (by rw [extension?_join_name _ hn, hm])]
  · exact (h.grows hi).outside hplace

end

namespace Tour

variable {source target : Path} {start : Disk} {t t' : Tour}

/-- The documents of a tour are the files of the disk as it was that have their extension, in the
order in which they were visited. -/
structure Finds (source : Path) (start : Disk) (t : Tour) : Prop where
  noted : ∀ q ∈ t.intake.documents, ∃ ns ∈ t.seen, q = source.below ns ∧
    q.extension? = some "exml" ∧ (Passes source ns → start.isFile q = true)
  found : ∀ ns ∈ t.seen, start.isFile (source.below ns) = true →
    (source.below ns).extension? = some "exml" → source.below ns ∈ t.intake.documents
  kept : ∀ l n content, (splitName n).2 = some "exml" →
    t.intake.disk.entry? (l ++ [n]) = some (.file content) →
      start.entry? (l ++ [n]) = some (.file content)

/-- What is visited as a file with markup was a file from the start. -/
theorem Finds.isFile (h : Finds source start t) (hsound : Sound source target start t)
    (hstart : start.IsTree) (hsource : start.isDirectory source = true) {ns : List String}
    (hns : ns ∈ t.todo) (hfile : t.intake.disk.isDirectory (source.below ns) = false)
    (hextension : (source.below ns).extension? = some "exml")
    (hpasses : Passes source ns) : start.isFile (source.below ns) = true := by
  obtain ⟨hne, hnames⟩ := hsound.names ns (List.mem_append_left _ hns)
  obtain ⟨e, he⟩ := Option.ne_none_iff_exists'.1 (hsound.listed ns (List.mem_append_left _ hns)).2
  have hwalk := hsound.tree.walk_below (hsound.grows.isDirectory hsource) hne hnames hpasses
    (e := e) (by rw [hsound.grows.working, he])
  cases e with
  | directory => simp [isDirectory, hwalk] at hfile
  | file content =>
    obtain ⟨front, n, rfl, hn, -⟩ := hsound.place hns
    rw [below_concat, extension?_join_name _ hn] at hextension
    rw [← List.append_assoc] at he
    have hold := h.kept _ n content hextension he
    rw [List.append_assoc] at hold
    exact hstart.isFile_below hsource hne hnames hpasses hold

theorem Finds.step (h : Finds source start t) (hsound : Sound source target start t)
    (hstart : start.IsTree) (hsource : start.isDirectory source = true)
    (hstep : Step source target t t') : Finds source start t' := by
  cases hstep with
  | @directory ns rest seen i d found hdirectory hmade hread =>
    refine ⟨fun q hq => ?_, fun ms hms hfile hextension => ?_, fun l n content hn hentry => ?_⟩
    · obtain ⟨ms, hms, hrest⟩ := h.noted q hq
      exact ⟨ms, List.mem_append_left _ hms, hrest⟩
    · rcases List.mem_append.1 hms with hms | hms
      · exact h.found ms hms hfile hextension
      · rw [List.mem_singleton.1 hms] at hfile
        rw [not_isDirectory_of_isFile (hsound.grows.isFile hfile)] at hdirectory
        cases hdirectory
    · -- Making directories changes no file.
      have hwrites := i.disk.makeDirectories_writes (target.below ns)
      rw [hmade] at hwrites
      exact h.kept l n content hn ((hwrites.outside id content).1 hentry)
  | @file ns rest seen i after hvisited htaken =>
    have htakes := Taking.of_takeFile htaken
    have hdocuments := htakes.documents
    refine ⟨fun q hq => ?_, fun ms hms hfile hextension => ?_, fun l m content hm hentry => ?_⟩
    · rw [hdocuments] at hq
      rcases List.mem_append.1 hq with hq | hq
      · obtain ⟨ms, hms, hrest⟩ := h.noted q hq
        exact ⟨ms, List.mem_append_left _ hms, hrest⟩
      · split at hq
        · next hextension =>
          obtain rfl := List.mem_singleton.1 hq
          exact ⟨ns, by simp, rfl, hextension,
            h.isFile hsound hstart hsource List.mem_cons_self hvisited hextension⟩
        · cases hq
    · rw [hdocuments]
      rcases List.mem_append.1 hms with hms | hms
      · exact List.mem_append_left _ (h.found ms hms hfile hextension)
      · obtain rfl := List.mem_singleton.1 hms
        rw [if_pos hextension]
        exact List.mem_append_right _ List.mem_cons_self
    · have hnext : ns ∈ ns :: rest := List.mem_cons_self
      obtain ⟨front, n, rfl, hn, -⟩ := hsound.place hnext
      rw [below_concat, below_concat] at htakes
      rw [htakes.markup_kept hn hsound.tree hm] at hentry
      exact h.kept l m content hm hentry

theorem finds_tourOf (start : Disk) (found : List String) :
    Finds source start (Intake.tourOf start found) where
  noted := nofun
  found := nofun
  kept _ _ _ _ h := h

theorem Finds.steps (h : Finds source start t) (hsound : Sound source target start t)
    (hstart : start.IsTree) (hsource : start.isDirectory source = true)
    (hsteps : Steps source target t t') : Finds source start t' := by
  induction hsteps with
  | refl => exact h
  | tail hbefore hstep ih => exact ih.step (hsound.steps hbefore) hstart hsource hstep

end Tour

namespace ImportReport

/-- Some paths are those of the files with markup below a directory. Of an entry whose path the
system does not take only the extension is known. -/
structure DocumentsBelow (disk : Disk) (source : Path) (documents : List Path) : Prop where
  files : ∀ q ∈ documents, ∃ names, (∀ n ∈ names, ProperName n) ∧ q = source.below names ∧
    q.extension? = some "exml" ∧ (Passes source names → disk.isFile q = true)
  all {names : List String} : (∀ n ∈ names, ProperName n) →
    disk.isFile (source.below names) = true → (source.below names).extension? = some "exml" →
      source.below names ∈ documents

/-- The documents that an import finds are the files with markup that were in the resources before.
-/
theorem documents_found {disk : Disk} (hdisk : disk.IsTree) {project assets : Path}
    {options : Options} {c : Compilation}
    (hc : compilation? disk project assets options = some c) :
    DocumentsBelow disk (resourcesOf project) c.intake.documents := by
  obtain ⟨made, seen, h⟩ := exists_scan hdisk hc
  obtain ⟨found, hread, hsteps⟩ := h.tour
  have hgrows := hdisk.makeDirectories_grows (targetOf disk project assets)
  have hwrites := disk.makeDirectories_writes (targetOf disk project assets)
  rw [h.target] at hgrows hwrites
  have hfinds := (Tour.finds_tourOf made found).steps
    (Tour.sound_tourOf h.tree (made_isDirectory h.target) hread) h.tree
    (hgrows.isDirectory h.resources) hsteps
  constructor
  case files =>
    intro q hq
    obtain ⟨names, hnames, rfl, hextension, hfile⟩ := hfinds.noted q hq
    obtain ⟨hnonempty, hproper⟩ := h.sound.names names (List.mem_append_right _ hnames)
    refine ⟨names, hproper, rfl, hextension, fun hpasses => ?_⟩
    obtain ⟨content, hcontent⟩ := readBytes_of_isFile (hfile hpasses)
    have hentry := h.tree.entry?_of_readBytes hcontent
    rw [locate_below _ _ hproper, hgrows.working, hwrites.outside id] at hentry
    exact hdisk.isFile_below h.resources hnonempty hproper hpasses hentry
  case all =>
    intro names hnames hfile hextension
    have hthere := hgrows.isFile hfile
    refine hfinds.found names (h.visited ?_ hnames (exists_of_isFile hthere)) hthere hextension
    rintro rfl
    have hnot := not_isDirectory_of_isFile hfile
    rw [below_nil, h.resources] at hnot
    cases hnot

end ImportReport

end MarkupScene
