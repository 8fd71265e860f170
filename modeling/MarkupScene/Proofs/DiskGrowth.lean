import MarkupScene.Proofs.DiskWalks

/-!
# Growing disks

Taking in a resource tree only adds to a disk. Directories stay directories and files stay files, so
what a walk has found is found again later, though a file may hold something else by then. The main
statements say what a disk is like after a file was written or a directory was made.
-/
namespace MarkupScene

/-- What becomes of an entry: a directory stays one, and a file stays a file. -/
inductive Entry.Stays : Entry → Entry → Prop where
  | directory : Stays .directory .directory
  | file {content other : ByteArray} : Stays (.file content) (.file other)

theorem Entry.Stays.refl (e : Entry) : e.Stays e := by
  cases e with
  | directory => exact .directory
  | file content => exact .file

namespace Disk

open MarkupScene.Path

variable {d d' d'' : Disk}

theorem entry?_put_self {l : Location} (hl : l ≠ []) (d : Disk) (e : Entry) :
    entry? (d.put l e) l = some e := by
  unfold entry? put
  rw [if_neg hl]
  exact lookup_putEntry_self l e d.entries

/-- A walk ends at a free name in a directory. -/
theorem IsTree.entry?_above_free (hd : d.IsTree) {here : Location} {ps : List (List Char)}
    {place : Place} (hhere : d.entry? here = some .directory) (h : Walks d here ps place)
    (hfree : place.entry? = none) :
    place.location ≠ [] ∧ d.entry? place.location.dropLast = some .directory := by
  induction h with
  | done here => cases hfree
  | silent _ _ ih => exact ih hhere hfree
  | up _ ih => exact ih (hd.parent hhere) hfree
  | enter _ hentry _ ih => exact ih hentry hfree
  | file => cases hfree
  | free => simpa [Place.location] using hhere

theorem IsTree.put (hd : d.IsTree) {l : Location} (hne : l ≠ []) (hl : ∀ n ∈ l, ProperName n)
    (hparent : d.entry? l.dropLast = some .directory) {e : Entry}
    (hold : d.entry? l = some .directory → e = .directory) : (d.put l e).IsTree := by
  have hkept : ∀ k, d.entry? k = some .directory → entry? (d.put l e) k = some .directory := by
    intro k hk
    by_cases hkl : k = l
    · rw [hkl] at hk ⊢
      rw [entry?_put_self hne, hold hk]
    · rw [entry?_put_of_ne d hkl, hk]
  refine ⟨hd.toProper.put hl e, fun {k e'} h => hkept _ ?_, hkept _ hd.workingDirectory⟩
  by_cases hk : k = l
  · rw [hk]
    exact hparent
  · rw [entry?_put_of_ne d hk] at h
    exact hd.parent h

/-- A change of a file tree in which nothing disappears and everything outside of some locations
stays as it is. -/
structure Grows (inside : Location → Prop) (d d' : Disk) : Prop where
  working : d'.working = d.working
  tree : d.IsTree → d'.IsTree
  stays {l : Location} {e : Entry} : d.entry? l = some e → ∃ e', d'.entry? l = some e' ∧ e.Stays e'
  outside {l : Location} : ¬inside l → d'.entry? l = d.entry? l

namespace Grows
variable {inside more : Location → Prop}

theorem refl (d : Disk) : Grows inside d d where
  working := rfl
  tree := id
  stays h := ⟨_, h, .refl _⟩
  outside _ := rfl

theorem trans (h : Grows inside d d') (h' : Grows inside d' d'') : Grows inside d d'' where
  working := h'.working.trans h.working
  tree hd := h'.tree (h.tree hd)
  stays hl := by
    obtain ⟨e, he, hstays⟩ := h.stays hl
    obtain ⟨e', he', hstays'⟩ := h'.stays he
    refine ⟨e', he', ?_⟩
    cases hstays with
    | directory => exact hstays'
    | file =>
      cases hstays' with
      | file => exact .file
  outside hl := (h'.outside hl).trans (h.outside hl)

theorem mono (hmore : ∀ l, inside l → more l) (h : Grows inside d d') : Grows more d d' where
  working := h.working
  tree := h.tree
  stays := h.stays
  outside hl := h.outside fun hin => hl (hmore _ hin)

theorem directory (h : Grows inside d d') {l : Location} (hl : d.entry? l = some .directory) :
    d'.entry? l = some .directory := by
  obtain ⟨e, he, hstays⟩ := h.stays hl
  cases hstays with
  | directory => exact he

theorem file (h : Grows inside d d') {l : Location} {content : ByteArray}
    (hl : d.entry? l = some (.file content)) : ∃ other, d'.entry? l = some (.file other) := by
  obtain ⟨e, he, hstays⟩ := h.stays hl
  cases hstays with
  | file => exact ⟨_, he⟩

theorem entry?_ne_none (h : Grows inside d d') {l : Location} (hl : d.entry? l ≠ none) :
    d'.entry? l ≠ none := by
  obtain ⟨e, he⟩ := Option.ne_none_iff_exists'.1 hl
  obtain ⟨e', he', -⟩ := h.stays he
  simp [he']

/-- A walk that has found something finds it again. -/
theorem walks (h : Grows inside d d') {here l : Location} {e : Entry} {ps : List (List Char)}
    (hwalk : Walks d here ps (.found l e)) :
    ∃ e', Walks d' here ps (.found l e') ∧ e.Stays e' := by
  -- Directories stay directories, so that the same way is gone on the later disk.
  generalize hplace : Place.found l e = place at hwalk
  induction hwalk with
  | done here =>
    obtain ⟨rfl, rfl⟩ := Place.found.inj hplace
    exact ⟨.directory, .done l, .directory⟩
  | silent hpiece _ ih =>
    obtain ⟨e', hwalk', hstays⟩ := ih hplace
    exact ⟨e', .silent hpiece hwalk', hstays⟩
  | up _ ih =>
    obtain ⟨e', hwalk', hstays⟩ := ih hplace
    exact ⟨e', .up hwalk', hstays⟩
  | enter hpiece hentry _ ih =>
    obtain ⟨e', hwalk', hstays⟩ := ih hplace
    exact ⟨e', .enter hpiece (h.directory hentry) hwalk', hstays⟩
  | file hpiece hentry hrest =>
    obtain ⟨rfl, rfl⟩ := Place.found.inj hplace
    obtain ⟨other, hother⟩ := h.file hentry
    exact ⟨.file other, .file hpiece hother hrest, .file⟩
  | free => cases hplace

theorem walk_found (h : Grows inside d d') {p : Path} {l : Location} {e : Entry}
    (hwalk : d.walk p = .ok (.found l e)) :
    ∃ e', d'.walk p = .ok (.found l e') ∧ e.Stays e' := by
  obtain ⟨e', hwalk', hstays⟩ := h.walks (walks_of_walk hwalk)
  refine ⟨e', ?_, hstays⟩
  rw [walk_of_taken (taken_of_walk hwalk), h.working, hwalk'.walkFrom_eq]

theorem isDirectory (h : Grows inside d d') {p : Path} (hp : d.isDirectory p = true) :
    d'.isDirectory p = true := by
  unfold Disk.isDirectory at hp ⊢
  split at hp
  · next l hwalk =>
    obtain ⟨e', hwalk', hstays⟩ := h.walk_found hwalk
    cases hstays with
    | directory => rw [hwalk']
  · cases hp

theorem isFile (h : Grows inside d d') {p : Path} (hp : d.isFile p = true) :
    d'.isFile p = true := by
  unfold Disk.isFile at hp ⊢
  split at hp
  · next l content hwalk =>
    obtain ⟨e', hwalk', hstays⟩ := h.walk_found hwalk
    cases hstays with
    | file => rw [hwalk']
  · cases hp

end Grows

theorem IsTree.put_grows (hd : d.IsTree) {l : Location} (hne : l ≠ [])
    (hl : ∀ n ∈ l, ProperName n) (hparent : d.entry? l.dropLast = some .directory) {e : Entry}
    (hold : ∀ old, d.entry? l = some old → old.Stays e) : Grows (· = l) d (d.put l e) where
  working := rfl
  tree _ := by
    refine hd.put hne hl hparent fun hdirectory => ?_
    cases hold _ hdirectory with
    | directory => rfl
  stays {k old} hk := by
    by_cases hkl : k = l
    · rw [hkl] at hk ⊢
      exact ⟨e, entry?_put_self hne d e, hold old hk⟩
    · exact ⟨old, by rw [entry?_put_of_ne d hkl, hk], .refl old⟩
  outside hk := entry?_put_of_ne d hk e

theorem IsTree.put_free_grows (hd : d.IsTree) {p : Path} {l : Location}
    (hwalk : d.walk p = .ok (.free l)) (e : Entry) :
    Grows (· = p.locate d.working) d (d.put l e) ∧
      entry? (d.put l e) (p.locate d.working) = some e ∧
        d.entry? (p.locate d.working) = none := by
  have hlocation : l = p.locate d.working := location_of_walk hwalk
  have hfree : d.entry? l = none := (walks_of_walk hwalk).entry?_free
  obtain ⟨hne, habove⟩ : l ≠ [] ∧ d.entry? l.dropLast = some .directory :=
    hd.entry?_above_free (hd.entry?_start _) (walks_of_walk hwalk) rfl
  rw [← hlocation]
  refine ⟨hd.put_grows hne (hd.location hwalk) habove fun old hold => ?_,
    entry?_put_self hne d e, hfree⟩
  rw [hfree] at hold
  cases hold

/-- A file that was written is there, and nothing else has changed. -/
theorem IsTree.writeBytes_grows (hd : d.IsTree) {p : Path} {content : ByteArray}
    (h : d.writeBytes p content = .ok d') :
    Grows (· = p.locate d.working) d d' ∧
      d'.entry? (p.locate d.working) = some (.file content) := by
  unfold writeBytes at h
  split at h
  · next l old hwalk =>
    obtain rfl := Except.ok.inj h
    have hentry : d.entry? l = some (.file old) := by
      have hfound := hd.entry?_of_walk hwalk
      rwa [← location_of_walk hwalk] at hfound
    have hne : l ≠ [] := by
      rintro rfl
      cases hentry
    rw [← location_of_walk hwalk]
    refine ⟨hd.put_grows hne (hd.location hwalk) (hd.parent hentry) fun other hother => ?_,
      entry?_put_self hne d _⟩
    rw [hentry] at hother
    obtain rfl := Option.some.inj hother
    exact .file
  · cases h
  · next l hwalk =>
    split at h
    · cases h
    · obtain rfl := Except.ok.inj h
      obtain ⟨hgrows, hentry, -⟩ := hd.put_free_grows hwalk (.file content)
      exact ⟨hgrows, hentry⟩
  · cases h

/-- A walk to a name that was free finds the directory there. -/
theorem walks_put_free {here l : Location} {ps : List (List Char)}
    (h : Walks d here ps (.free l)) :
    Walks (d.put l .directory) here ps (.found l .directory) := by
  have hfree : d.entry? l = none := h.entry?_free
  generalize hplace : Place.free l = place at h
  induction h with
  | done here => cases hplace
  | silent hpiece _ ih => exact .silent hpiece (ih hplace)
  | up _ ih => exact .up (ih hplace)
  | enter hpiece hentry _ ih =>
    refine .enter hpiece ?_ (ih hplace)
    rw [entry?_put_of_ne d (fun heq => ?_), hentry]
    rw [heq, hfree] at hentry
    cases hentry
  | file => cases hplace
  | free hpiece _ hrest =>
    -- Pieces that are empty stay in the new directory.
    obtain rfl := Place.free.inj hplace
    exact .enter hpiece (entry?_put_directory d _) (walks_of_empty _ _ hrest)

theorem makeDirectory_isDirectory {p : Path} (h : d.makeDirectory p = .ok d') :
    d'.isDirectory p = true := by
  unfold makeDirectory at h
  split at h
  · next l hwalk =>
    obtain rfl := Except.ok.inj h
    have htaken := taken_of_walk hwalk
    have hfound : (d.put l .directory).walk p = .ok (.found l .directory) := by
      rw [walk_of_taken htaken]
      exact (walks_put_free (walks_of_walk hwalk)).walkFrom_eq
    simp [isDirectory, hfound]
  · cases h
  · cases h

theorem IsTree.makeDirectory_grows (hd : d.IsTree) {p : Path} (h : d.makeDirectory p = .ok d') :
    Grows (· = p.locate d.working) d d' ∧ d.entry? (p.locate d.working) = none ∧
      d'.entry? (p.locate d.working) = some .directory := by
  unfold makeDirectory at h
  split at h
  · next l hwalk =>
    obtain rfl := Except.ok.inj h
    obtain ⟨hgrows, hentry, hfree⟩ := hd.put_free_grows hwalk .directory
    exact ⟨hgrows, hfree, hentry⟩
  · cases h
  · cases h

theorem IsTree.ensureDirectory_grows (hd : d.IsTree) (p : Path) :
    Grows (· = p.locate d.working) d (d.ensureDirectory p).2 := by
  unfold ensureDirectory
  split
  · next h => exact (hd.makeDirectory_grows h).1
  · exact .refl d

theorem isDirectory_of_ensured {p : Path} (h : (d.ensureDirectory p).1 = .ok ()) :
    (d.ensureDirectory p).2.isDirectory p = true := by
  unfold ensureDirectory at h ⊢
  split at h
  · next hmade => exact makeDirectory_isDirectory hmade
  · dsimp only at h ⊢
    split at h
    · next hthere => exact hthere
    · cases h

/-- A directory that was made with its parents is there. -/
theorem isDirectory_of_made {p : Path} (hp : p.text ≠ "")
    (h : (d.makeDirectories p).1 = .ok ()) : (d.makeDirectories p).2.isDirectory p = true := by
  have hempty : p.text.isEmpty = false := by simpa using hp
  unfold makeDirectories makeBelow at h ⊢
  rw [hempty, if_neg Bool.false_ne_true] at h ⊢
  cases hmake : d.makeDirectory p with
  | ok made => exact makeDirectory_isDirectory hmake
  | error fault =>
    rw [hmake] at h
    cases fault with
    | notFound =>
      dsimp only at h ⊢
      cases hparent : p.parent? with
      | none =>
        rw [hparent] at h
        cases h
      | some parent =>
        rw [hparent] at h
        dsimp only at h ⊢
        generalize d.makeBelow parent p.components.length = above at h ⊢
        rcases above with ⟨failure | ⟨⟩, made⟩
        · cases h
        · exact isDirectory_of_ensured h
    | _ =>
      dsimp only at h ⊢
      split at h
      · next hthere => exact hthere
      · cases h

/-- In a directory that is there no parents have to be made. -/
theorem makeDirectories_join {base : Path} (hbase : d.isDirectory base = true) {name : String}
    (hname : ProperName name) :
    d.makeDirectories (base.join ⟨name⟩) = d.ensureDirectory (base.join ⟨name⟩) := by
  have hmissing := walk_join_ne_missing hbase hname
  have hempty : (base.join ⟨name⟩).text.isEmpty = false := by
    simpa using join_name_ne_empty base hname
  generalize base.join ⟨name⟩ = p at hmissing hempty
  unfold makeDirectories makeBelow ensureDirectory
  rw [hempty, if_neg Bool.false_ne_true]
  cases hmake : d.makeDirectory p with
  | ok made => rfl
  | error fault =>
    cases fault with
    | notFound =>
      unfold makeDirectory at hmake
      split at hmake
      · cases hmake
      · cases hmake
      · next fault hwalk =>
        rw [Except.error.inj hmake] at hwalk
        exact absurd hwalk hmissing
    | _ => rfl

/-- The places where directories may be made for a path: its own and those of its parents. -/
theorem IsTree.makeBelow_grows {inside : Location → Prop} (near : Path → Prop) (hd : d.IsTree)
    (hnear : ∀ p q, near p → p.parent? = some q → near q)
    (hinside : ∀ p, near p → inside (p.locate d.working)) {p : Path} (hp : near p) (depth : Nat) :
    Grows inside d (d.makeBelow p depth).2 := by
  have hat : ∀ {d : Disk} (p : Path), near p → (∀ p, near p → inside (p.locate d.working)) →
      ∀ l, l = p.locate d.working → inside l := by
    rintro d p hp hinside l rfl
    exact hinside p hp
  induction depth generalizing p with
  | zero => exact (hd.ensureDirectory_grows p).mono (hat p hp hinside)
  | succ depth ih =>
    unfold makeBelow
    split
    · exact .refl d
    · cases hmake : d.makeDirectory p with
      | ok made => exact (hd.makeDirectory_grows hmake).1.mono (hat p hp hinside)
      | error fault =>
        cases fault with
        | notFound =>
          dsimp only
          cases hparent : p.parent? with
          | none => exact .refl d
          | some parent =>
            have habove := ih (hnear p parent hp hparent)
            dsimp only
            generalize d.makeBelow parent depth = above at habove
            rcases above with ⟨failure | ⟨⟩, made⟩
            · exact habove
            · have hmade : ∀ p, near p → inside (p.locate made.working) := by
                rw [show made.working = d.working from habove.working]
                exact hinside
              exact habove.trans (((habove.tree hd).ensureDirectory_grows p).mono (hat p hp hmade))
        | _ => exact .refl d

theorem IsTree.makeDirectories_grows (hd : d.IsTree) (p : Path) :
    Grows (fun _ => True) d (d.makeDirectories p).2 :=
  hd.makeBelow_grows (fun _ => True) (fun _ _ _ _ => trivial) (fun _ _ => trivial) trivial _

theorem IsTree.makeDirectories_join_grows (hd : d.IsTree) {base : Path}
    (hbase : d.isDirectory base = true) {name : String} (hname : ProperName name) :
    Grows (· = (base.join ⟨name⟩).locate d.working) d (d.makeDirectories (base.join ⟨name⟩)).2 := by
  rw [makeDirectories_join hbase hname]
  exact hd.ensureDirectory_grows _

theorem IsTree.makeDirectories_above (hd : d.IsTree) {p : Path} (hup : .up ∉ p.components) :
    Grows (· <+: p.locate d.working) d (d.makeDirectories p).2 := by
  refine hd.makeBelow_grows (fun q => .up ∉ q.components ∧
    q.locate d.working <+: p.locate d.working) ?_ (fun q hq => hq.2) ⟨hup, List.prefix_refl _⟩ _
  intro q parent hq hparent
  obtain ⟨hup, habove⟩ := locate_parent? hparent hq.1 d.working
  exact ⟨hup, habove.trans hq.2⟩

/-- A file that keeps its content reads as before. -/
theorem IsTree.readBytes_of_grows {inside : Location → Prop} (hd : d.IsTree)
    (h : Grows inside d d') {p : Path} {content : ByteArray} (hread : d.readBytes p = .ok content)
    (hkept : d'.entry? (p.locate d.working) = some (.file content)) :
    d'.readBytes p = .ok content := by
  obtain ⟨l, hwalk⟩ : ∃ l, d.walk p = .ok (.found l (.file content)) := by
    unfold readBytes at hread
    split at hread
    · next l _ hwalk =>
      obtain rfl := Except.ok.inj hread
      exact ⟨l, hwalk⟩
    · cases hread
    · cases hread
    · cases hread
  obtain ⟨e, hwalk', -⟩ := h.walk_found hwalk
  have hentry := (h.tree hd).entry?_of_walk hwalk'
  rw [h.working, hkept] at hentry
  obtain rfl := Option.some.inj hentry
  simp [readBytes, hwalk']

/-- A file that was written in a directory reads as it was written. -/
theorem IsTree.readBytes_written (hd : d.IsTree) {base : Path} (hbase : d.isDirectory base = true)
    {name : String} (hname : ProperName name) {content : ByteArray}
    (h : d.writeBytes (base.join ⟨name⟩) content = .ok d') :
    d'.readBytes (base.join ⟨name⟩) = .ok content := by
  obtain ⟨hgrows, hentry⟩ := hd.writeBytes_grows h
  obtain ⟨place, hwalk⟩ : ∃ place, d.walk (base.join ⟨name⟩) = .ok place := by
    unfold writeBytes at h
    split at h
    · exact ⟨_, by assumption⟩
    · cases h
    · exact ⟨_, by assumption⟩
    · cases h
  have htaken := taken_of_walk hwalk
  have hwalk' := walk_join (hgrows.isDirectory hbase) hname htaken
  rw [walk_join hbase hname htaken, walkFrom_name _ _ hname] at hwalk
  rw [locate_join_name base _ hname] at hentry
  rw [walkFrom_name _ _ hname, hgrows.working, hentry] at hwalk'
  split at hwalk
  · next hsize =>
    rw [if_pos hsize] at hwalk'
    simp [readBytes, hwalk']
  · cases hwalk

end Disk

end MarkupScene
