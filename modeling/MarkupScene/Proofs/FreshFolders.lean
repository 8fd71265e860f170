import MarkupScene.Proofs.DiskWrites
import MarkupScene.Proofs.ImportedPlaces
import Mathlib.Data.List.Induction
import Mathlib.Data.List.Nodup
import Mathlib.Data.List.Perm.Subperm

/-!
# Fresh folders

A project is imported into a folder whose name is not taken. Names are tried until a path leads to
no entry, and a path that cannot be walked counts as such. The main statement is that the folder is
free indeed when the assets are there, or when no step up is on the way to them.
-/
namespace MarkupScene

namespace Disk

open MarkupScene.Path

/-- A disk on which entries and the working directory lie in directories. -/
structure IsTree (d : Disk) : Prop extends d.Proper where
  parent {l : Location} {e : Entry} : d.entry? l = some e → d.entry? l.dropLast = some .directory
  workingDirectory : d.entry? d.working = some .directory

variable {d : Disk}

theorem IsTree.of_entries (hproper : d.Proper)
    (hentries : ∀ x ∈ d.entries, d.entry? x.1.dropLast = some .directory)
    (hworking : d.entry? d.working = some .directory) : d.IsTree where
  toProper := hproper
  parent {l e} h := by
    by_cases hl : l = []
    · rw [hl]
      rfl
    · rw [Disk.entry?, if_neg hl] at h
      obtain ⟨before, after, hsplit, -⟩ := List.lookup_eq_some_iff.1 h
      exact hentries (l, e) (by simp [hsplit])
  workingDirectory := hworking

theorem IsTree.entry?_below (hd : d.IsTree) {l k : Location} (hl : d.entry? l = none)
    (hk : l <+: k) : d.entry? k = none := by
  obtain ⟨names, rfl⟩ := hk
  induction names using List.reverseRec with
  | nil => rwa [List.append_nil]
  | append_singleton names n ih =>
    cases hentry : d.entry? (l ++ (names ++ [n])) with
    | none => rfl
    | some e =>
      have hparent := hd.parent hentry
      rw [← List.append_assoc, List.dropLast_concat, ih] at hparent
      cases hparent

theorem IsTree.entry?_of_walks (hd : d.IsTree) {here : Location} {ps : List (List Char)}
    {place : Place} (hhere : d.entry? here = some .directory) (h : Walks d here ps place) :
    d.entry? place.location = place.entry? := by
  induction h with
  | done here => exact hhere
  | silent _ _ ih => exact ih hhere
  | up _ ih => exact ih (hd.parent hhere)
  | enter _ hentry _ ih => exact ih hentry
  | file _ hentry _ => exact hentry
  | free _ hentry _ => exact hentry

theorem IsTree.entry?_start (hd : d.IsTree) (absolute : Bool) :
    d.entry? (if absolute then [] else d.working) = some .directory := by
  cases absolute with
  | true => rfl
  | false => exact hd.workingDirectory

theorem IsTree.exists_entry (hd : d.IsTree) {p : Path} (h : d.exists? p = true) :
    ∃ e, d.entry? (p.locate d.working) = some e := by
  unfold exists? at h
  split at h
  · next l e hwalk =>
    refine ⟨e, ?_⟩
    rw [← location_of_walk hwalk]
    exact hd.entry?_of_walks (hd.entry?_start _) (walks_of_walk hwalk)
  · cases h

theorem prefix_leads (here : Location) {ps : List (List Char)} (hup : ['.', '.'] ∉ ps) :
    here <+: leads here ps := by
  induction ps generalizing here with
  | nil => exact List.prefix_refl here
  | cons piece rest ih =>
    rw [List.mem_cons, not_or] at hup
    by_cases hsilent : piece = [] ∨ piece = ['.']
    · rw [leads_silent here hsilent]
      exact ih here hup.2
    · rw [leads_name here hsilent (Ne.symm hup.1)]
      exact (List.prefix_append here _).trans (ih _ hup.2)

/-- Without steps up a walk that misses something misses a directory above its end. -/
theorem exists_missing {here : Location} {ps : List (List Char)} (hup : ['.', '.'] ∉ ps)
    (h : d.walkFrom here ps = .error .notFound) :
    ∃ k, d.entry? k = none ∧ k <+: leads here ps := by
  induction ps generalizing here with
  | nil => cases h
  | cons piece rest ih =>
    rw [List.mem_cons, not_or] at hup
    rw [walkFrom] at h
    split at h
    · next hsilent =>
      rw [leads_silent here hsilent]
      exact ih hup.2 h
    · next hloud =>
      rw [if_neg (Ne.symm hup.1)] at h
      rw [leads_name here hloud (Ne.symm hup.1)]
      split at h
      · cases h
      · dsimp only at h
        split at h
        · exact ih hup.2 h
        · split at h <;> cases h
        · next hnone => exact ⟨_, hnone, prefix_leads _ hup.2⟩

theorem walkFrom_append {here l : Location} {ps : List (List Char)}
    (h : Walks d here ps (.found l .directory)) (rest : List (List Char)) :
    d.walkFrom here (ps ++ rest) = d.walkFrom l rest := by
  generalize hplace : Place.found l .directory = place at h
  induction h with
  | done here =>
    obtain ⟨rfl, -⟩ := Place.found.inj hplace
    rfl
  | silent hpiece _ ih => rw [List.cons_append, walkFrom_silent d _ hpiece, ih hplace]
  | up _ ih => rw [List.cons_append, walkFrom_up, ih hplace]
  | enter hpiece hentry _ ih =>
    rw [List.cons_append, walkFrom_isName d _ hpiece, hentry]
    exact ih hplace
  | file => cases hplace
  | free => cases hplace

theorem walks_of_slash {here l : Location} {ps : List (List Char)}
    (h : Walks d here (ps ++ [[]]) (.found l .directory)) :
    Walks d here ps (.found l .directory) := by
  induction ps generalizing here with
  | nil =>
    cases h with
    | silent _ h => exact h
    | enter hpiece => exact absurd (.inl rfl) hpiece.loud
  | cons piece ps ih =>
    cases h with
    | silent hpiece h => exact .silent hpiece (ih h)
    | up h => exact .up (ih h)
    | enter hpiece hentry h => exact .enter hpiece hentry (ih h)

theorem pieces_join_name {base : Path} (hbase : base.text ≠ "") {name : String}
    (hname : ProperName name) : ∃ front,
      Text.pieces '/' (base.join ⟨name⟩).text.toList = front ++ [name.toList] ∧
        (Text.pieces '/' base.text.toList = front ∨
          Text.pieces '/' base.text.toList = front ++ [[]]) := by
  obtain ⟨front, hjoin, hfront⟩ := exists_join hbase (isAbsolute_name hname)
  have hlast : Text.pieces '/' name.toList = [name.toList] :=
    Text.pieces_of_not_mem hname.2.2.2
  refine ⟨Text.pieces '/' front, ?_, ?_⟩
  · rw [hjoin, Text.pieces_append, hlast]
  · rcases hfront with hfront | hfront
    · exact .inl (by rw [hfront])
    · exact .inr (by rw [hfront, Text.pieces_append]; rfl)

theorem join_name_ne_empty (base : Path) {name : String} (hname : ProperName name) :
    (base.join ⟨name⟩).text ≠ "" := by
  intro hempty
  have hcomponents := components_join_name base hname
  generalize base.join ⟨name⟩ = joined at hempty hcomponents
  obtain ⟨text⟩ := joined
  obtain rfl : text = "" := hempty
  have hnone : (⟨""⟩ : Path).components = [] := rfl
  simp [hnone] at hcomponents

theorem walk_join_ne_missing {base : Path} (hbase : d.isDirectory base = true) {name : String}
    (hname : ProperName name) : d.walk (base.join ⟨name⟩) ≠ .error .notFound := by
  obtain ⟨l, hwalk⟩ : ∃ l, d.walk base = .ok (.found l .directory) := by
    unfold isDirectory at hbase
    split at hbase
    · next l hwalk => exact ⟨l, hwalk⟩
    · cases hbase
  have hne : base.text ≠ "" := by
    intro hempty
    simp [walk, hempty, pathLimit] at hwalk
  obtain ⟨front, hcut, hfront⟩ := pieces_join_name hne hname
  have hfound : Walks d (if base.isAbsolute then [] else d.working) front
      (.found l .directory) := by
    have h := walks_of_walk hwalk
    rcases hfront with hfront | hfront
    · rwa [hfront] at h
    · rw [hfront] at h
      exact walks_of_slash h
  intro hmissing
  have hstart := walkFrom_of_missing (join_name_ne_empty base hname) hmissing
  rw [isAbsolute_join hne (isAbsolute_name hname), hcut, walkFrom_append hfound,
    walkFrom_name d l hname] at hstart
  split at hstart
  · split at hstart <;> cases hstart
  · cases hstart

/-- Making a directory with its parents succeeds when it is there, when its name is free, or when
something above it is missing. -/
theorem walk_of_made {p : Path} (hp : p.text ≠ "") (h : (d.makeDirectories p).1 = .ok ()) :
    d.exists? p = true ∨ (∃ l, d.walk p = .ok (.free l)) ∨ d.walk p = .error .notFound := by
  have hempty : p.text.isEmpty = false := by simpa using hp
  unfold makeDirectories makeBelow at h
  rw [hempty, if_neg Bool.false_ne_true] at h
  cases hwalk : d.walk p with
  | ok place =>
    cases place with
    | found l e =>
      left
      unfold exists?
      rw [hwalk]
    | free l => exact .inr (.inl ⟨l, rfl⟩)
  | error fault =>
    unfold makeDirectory isDirectory at h
    rw [hwalk] at h
    cases fault with
    | notFound => exact .inr (.inr rfl)
    | _ => cases h

end Disk

namespace ImportReport

open MarkupScene.Path Disk

theorem candidate_injective (name : String) : Function.Injective (candidate name) := by
  have hlonger : ∀ i, candidate name (i + 1) ≠ name := by
    intro i hsame
    have hlength := congrArg (fun s => s.toList.length) hsame
    rw [toList_candidate_succ, List.length_append, List.length_cons] at hlength
    omega
  intro i j hsame
  cases i with
  | zero =>
    cases j with
    | zero => rfl
    | succ j => exact absurd hsame.symm (hlonger j)
  | succ i =>
    cases j with
    | zero => exact absurd hsame (hlonger i)
    | succ j =>
      have hchars := congrArg String.toList hsame
      rw [toList_candidate_succ, toList_candidate_succ] at hchars
      have hdigits := (List.cons.inj (List.append_cancel_left hchars)).2
      rw [← Nat.ofDigitChars_ten_toDigits (n := i + 1), hdigits, Nat.ofDigitChars_ten_toDigits]

theorem exists_free_candidate (disk : Disk) (hdisk : disk.IsTree) (assets : Path) {name : String}
    (hname : ProperName name) :
    ∃ k ≤ disk.entries.length, disk.exists? (assets.join ⟨candidate name k⟩) = false := by
  -- There are more candidates than entries, and different candidates lead to different entries.
  by_contra hall
  have htaken : ∀ k ≤ disk.entries.length,
      disk.exists? (assets.join ⟨candidate name k⟩) = true := by
    intro k hk
    by_contra hfree
    exact hall ⟨k, hk, Bool.eq_false_iff.2 hfree⟩
  -- Every candidate leads to an entry of its own.
  let taken : List Location :=
    (List.range (disk.entries.length + 1)).map fun i =>
      assets.locate disk.working ++ [candidate name i]
  have hentries : taken ⊆ disk.entries.map Prod.fst := by
    intro l hl
    obtain ⟨i, hi, rfl⟩ := List.mem_map.1 hl
    obtain ⟨e, he⟩ := hdisk.exists_entry (htaken i (Nat.le_of_lt_succ (List.mem_range.1 hi)))
    rw [locate_join_name assets _ (properName_candidate hname i)] at he
    unfold entry? at he
    rw [if_neg (by simp)] at he
    obtain ⟨before, after, hsplit, -⟩ := List.lookup_eq_some_iff.1 he
    rw [hsplit]
    simp
  have hdistinct : taken.Nodup := by
    refine List.Nodup.map (fun i j hsame => ?_) List.nodup_range
    exact candidate_injective name (List.singleton_inj.1 (List.append_cancel_left hsame))
  have hlength := (hdistinct.subperm hentries).length_le
  rw [List.length_map, List.length_map, List.length_range] at hlength
  exact Nat.not_succ_le_self _ hlength

theorem freshFolder_least (disk : Disk) (hdisk : disk.IsTree) (assets : Path) {name : String}
    (hname : ProperName name) : ∃ k ≤ disk.entries.length,
      freshFolder disk assets name = candidate name k ∧
        disk.exists? (assets.join ⟨candidate name k⟩) = false ∧
        ∀ j < k, disk.exists? (assets.join ⟨candidate name j⟩) = true := by
  obtain ⟨k, hk, hfree⟩ := exists_free_candidate disk hdisk assets hname
  unfold freshFolder
  dsimp only
  rw [List.find?_map]
  cases hfind : (List.range (disk.entries.length + 1)).find?
      ((fun folder => !disk.exists? (assets.join ⟨folder⟩)) ∘ candidate name) with
  | none =>
    have htaken := List.find?_eq_none.1 hfind k (List.mem_range.2 (Nat.lt_succ_of_le hk))
    rw [Function.comp_apply, hfree] at htaken
    exact absurd rfl htaken
  | some i =>
    obtain ⟨hfound, hi, hbefore⟩ := List.find?_range_eq_some.1 hfind
    refine ⟨i, Nat.le_of_lt_succ (List.mem_range.1 hi), rfl, by simpa using hfound, fun j hj => ?_⟩
    simpa using hbefore j hj

theorem exists_freshFolder (disk : Disk) (hdisk : disk.IsTree) (assets : Path) {name : String}
    (hname : ProperName name) :
    disk.exists? (assets.join ⟨freshFolder disk assets name⟩) = false := by
  obtain ⟨k, -, hfolder, hfree, -⟩ := freshFolder_least disk hdisk assets hname
  rwa [hfolder]

/-- The target of an import was not there before, when the assets were or when no step up is on the
way to them. -/
theorem target_free {disk : Disk} (hdisk : disk.IsTree) {project assets : Path}
    (hassets : disk.isDirectory assets = true ∨ .up ∉ assets.components)
    (hmade : (disk.makeDirectories (targetOf disk project assets)).1 = .ok ()) :
    disk.entry? ((targetOf disk project assets).locate disk.working) = none := by
  have hfolder := properName_folderOf disk project assets
  have hfresh : disk.exists? (targetOf disk project assets) = false :=
    exists_freshFolder disk hdisk assets (properName_projectName project)
  rw [targetOf] at hfresh hmade ⊢
  generalize folderOf disk project assets = folder at hfolder hfresh hmade ⊢
  have hcomponents := components_join_name assets hfolder
  have hne := join_name_ne_empty assets hfolder
  generalize htarget : assets.join ⟨folder⟩ = target at hfresh hmade hcomponents hne ⊢
  rcases walk_of_made hne hmade with hexists | ⟨l, hfree⟩ | hmissing
  · rw [hfresh] at hexists
    cases hexists
  · rw [← location_of_walk hfree]
    exact (walks_of_walk hfree).entry?_free
  · rcases hassets with hassets | hup
    · rw [← htarget] at hmissing
      exact absurd hmissing (walk_join_ne_missing hassets hfolder)
    · have hpieces : ['.', '.'] ∉ Text.pieces '/' target.text.toList := by
        intro hpiece
        have hmem := up_mem_components hpiece
        rw [hcomponents] at hmem
        rcases List.mem_append.1 hmem with hmem | hmem
        · exact hup hmem
        · cases List.mem_singleton.1 hmem
      obtain ⟨k, hk, hbelow⟩ := exists_missing hpieces (walkFrom_of_missing hne hmissing)
      rw [← locate_eq] at hbelow
      exact hdisk.entry?_below hk hbelow

end ImportReport

end MarkupScene
