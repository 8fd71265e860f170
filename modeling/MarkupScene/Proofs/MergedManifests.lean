import MarkupScene.Asset.Locator
import MarkupScene.Proofs.Dictionaries
import Mathlib.Data.List.Induction
import Mathlib.Data.List.TakeWhile

/-!
# Merged manifests

The manifests of a project go into one table, item after item. An item without a name or an address
is passed over, and a later item takes the place of an earlier one: for its own name, and for each
of its frames when it is a sheet. The main statement gives the answers of the table in terms of the
items, and says that every frame in it leads to a sheet.
-/
namespace MarkupScene

open Text

namespace Text

/-- An element with a property that none after it has. -/
def LastWith {α : Type} (p : α → Prop) (l : List α) (a : α) : Prop :=
  ∃ before rest, l = before ++ a :: rest ∧ p a ∧ ∀ b ∈ rest, ¬p b

section
variable {α β : Type} {p : α → Prop} {l : List α} {a : α}

theorem LastWith.mem (h : LastWith p l a) : a ∈ l := by
  obtain ⟨before, rest, rfl, -⟩ := h
  simp

theorem LastWith.holds (h : LastWith p l a) : p a := by
  obtain ⟨before, rest, -, ha, -⟩ := h
  exact ha

theorem exists_lastWith (ha : a ∈ l) (hp : p a) : ∃ b, LastWith p l b := by
  induction l using List.reverseRecOn with
  | nil => cases ha
  | append_singleton l b ih =>
    by_cases hb : p b
    · exact ⟨b, l, [], rfl, hb, by simp⟩
    · have hne : a ≠ b := fun h => hb (h ▸ hp)
      obtain ⟨c, before, rest, rfl, hc, hrest⟩ := ih (by simpa [hne] using ha)
      refine ⟨c, before, rest ++ [b], by simp, hc, fun d hd => ?_⟩
      rcases List.mem_append.1 hd with hd | hd
      · exact hrest d hd
      · rwa [List.mem_singleton.1 hd]

/-- Of what the elements of a list write, the last element that writes for a key decides. -/
theorem lastWritten_flatMap {writes : α → List (String × β)} {key : String} {value : β} :
    Dictionary.LastWritten (l.flatMap writes) key value ↔
      ∃ a, LastWith (fun a => ∃ entry ∈ writes a, entry.1 = key) l a ∧
        Dictionary.LastWritten (writes a) key value := by
  have hlookup : (l.flatMap writes).reverse.lookup key =
      l.reverse.findSome? fun a => (writes a).reverse.lookup key := by
    induction l with
    | nil => rfl
    | cons a rest ih =>
      simp only [List.flatMap_cons, List.reverse_append, List.lookup_append, ih, List.reverse_cons,
        List.findSome?_append, List.findSome?_singleton]
  have hnone : ∀ a, (writes a).reverse.lookup key = none ↔ ¬∃ entry ∈ writes a, entry.1 = key := by
    intro a
    simp only [List.lookup_eq_none_iff, List.mem_reverse, bne_iff_ne, not_exists, not_and]
    exact forall₂_congr fun _ _ => ne_comm
  rw [← Dictionary.lookup_reverse_eq_some_iff, hlookup, List.findSome?_eq_some_iff]
  constructor
  · rintro ⟨before, a, rest, hsplit, ha, hbefore⟩
    have hlast := Dictionary.lookup_reverse_eq_some_iff.1 ha
    refine ⟨a, ⟨rest.reverse, before.reverse, ?_, ⟨_, hlast.mem, rfl⟩, fun b hb => ?_⟩, hlast⟩
    · rw [← List.reverse_inj, hsplit]
      simp
    · exact (hnone b).1 (hbefore b (List.mem_reverse.1 hb))
  · rintro ⟨a, ⟨before, rest, rfl, -, hrest⟩, hlast⟩
    refine ⟨rest.reverse, a, before.reverse, by simp,
      Dictionary.lookup_reverse_eq_some_iff.2 hlast, fun b hb => ?_⟩
    exact (hnone b).2 (hrest b (List.mem_reverse.1 hb))

end

end Text

namespace ManifestItem

/-- An item counts when it has a name and an address. -/
def Counts (i : ManifestItem) : Prop := i.name ≠ "" ∧ i.url ≠ ""

instance : DecidablePred Counts := fun i => inferInstanceAs (Decidable (i.name ≠ "" ∧ i.url ≠ ""))

/-- A sheet that counts. -/
def IsSheet (i : ManifestItem) : Prop := i.Counts ∧ i.kind = "sheet"

instance : DecidablePred IsSheet := fun i => inferInstanceAs (Decidable (i.Counts ∧ i.kind = "sheet"))

/-- What stands between two commas, without blanks around it. -/
def Offers (i : ManifestItem) (frame : String) : Prop :=
  frame ≠ "" ∧ ∃ piece ∈ pieces ',' i.subkeys.toList, trimChars piece = frame.toList

theorem mem_frames_iff {i : ManifestItem} {frame : String} : frame ∈ i.frames ↔ i.Offers frame := by
  simp only [frames, List.mem_filterMap, List.mem_map, Option.ite_none_left_eq_some,
    Option.some.injEq, List.isEmpty_iff]
  constructor
  · rintro ⟨_, ⟨piece, hpiece, rfl⟩, hne, rfl⟩
    refine ⟨?_, piece, hpiece, by simp⟩
    simpa using hne
  · rintro ⟨hne, piece, hpiece, htrim⟩
    refine ⟨_, ⟨piece, hpiece, rfl⟩, ?_, ?_⟩
    · rw [htrim]
      simpa using hne
    · rw [htrim, String.ofList_toList]

theorem Offers.wellFormed {i : ManifestItem} {frame : String} (h : i.Offers frame) :
    frame ≠ "" ∧ Trimmed frame.toList ∧ ',' ∉ frame.toList := by
  obtain ⟨hne, piece, hpiece, htrim⟩ := h
  refine ⟨hne, htrim ▸ trimmed_trimChars piece, fun hcomma => ?_⟩
  exact not_mem_of_mem_pieces hpiece (mem_of_mem_trimChars (htrim ▸ hcomma))

/-- The address that an item gives its name. -/
def pathEntries (i : ManifestItem) : List (String × String) :=
  if i.Counts then [(i.name, i.url)] else []

/-- The frames that a sheet gives their names. -/
def frameEntries (i : ManifestItem) : List (String × (String × String)) :=
  if i.IsSheet then i.frames.map fun frame => (frame, (i.name, frame)) else []

theorem lastWritten_pathEntries {i : ManifestItem} {name url : String} :
    Dictionary.LastWritten i.pathEntries name url ↔ (i.Counts ∧ i.name = name) ∧ i.url = url := by
  unfold pathEntries
  rw [← Dictionary.lookup_reverse_eq_some_iff]
  split
  · next h =>
    rw [List.reverse_singleton, Dictionary.lookup_entry]
    simp [h, eq_comm]
  · next h => simp [h]

theorem mem_frameEntries_iff {i : ManifestItem} {key sheet frame : String} :
    (key, (sheet, frame)) ∈ i.frameEntries ↔
      (i.IsSheet ∧ i.Offers key) ∧ i.name = sheet ∧ frame = key := by
  unfold frameEntries
  split
  · next h =>
    simp only [List.mem_map, mem_frames_iff, Prod.mk.injEq, h, true_and]
    constructor
    · rintro ⟨_, hoffers, rfl, hname, rfl⟩
      exact ⟨hoffers, hname, rfl⟩
    · rintro ⟨hoffers, hname, rfl⟩
      exact ⟨_, hoffers, rfl, hname, rfl⟩
  · next h => simp [h]

theorem lastWritten_frameEntries {i : ManifestItem} {key sheet frame : String} :
    Dictionary.LastWritten i.frameEntries key (sheet, frame) ↔
      (i.IsSheet ∧ i.Offers key) ∧ i.name = sheet ∧ frame = key := by
  refine ⟨fun h => mem_frameEntries_iff.1 h.mem, fun h => ?_⟩
  obtain ⟨⟨sheet', frame'⟩, hlast⟩ := Dictionary.exists_lastWritten (mem_frameEntries_iff.2 h)
  obtain ⟨-, rfl, rfl⟩ := mem_frameEntries_iff.1 hlast.mem
  obtain ⟨-, rfl, rfl⟩ := h
  exact hlast

end ManifestItem

namespace AssetTable

open ManifestItem

/-- A new table with some manifests taken in. -/
def merged (manifests : List Manifest) : AssetTable := manifests.foldl addManifest empty

theorem foldl_insertFrame (sheet : String) (names : List String) (t : AssetTable) :
    names.foldl (fun t frame => t.insertFrame frame sheet frame) t =
      ⟨t.paths, (names.map fun frame => (frame, (sheet, frame))).foldl
        (fun d entry => d.insert entry.1 entry.2) t.frames⟩ := by
  induction names generalizing t with
  | nil => rfl
  | cons frame rest ih => exact ih _

theorem addItem_eq (t : AssetTable) (i : ManifestItem) :
    t.addItem i =
      { paths := i.pathEntries.foldl (fun d entry => d.insert entry.1 entry.2) t.paths
        frames := i.frameEntries.foldl (fun d entry => d.insert entry.1 entry.2) t.frames } := by
  have hcounts : (i.name.isEmpty || i.url.isEmpty) = true ↔ ¬i.Counts := by
    simp [Counts, or_iff_not_imp_left]
  unfold addItem pathEntries frameEntries
  by_cases h : i.Counts
  · have hread : ¬(i.name.isEmpty || i.url.isEmpty) = true := fun hskip => hcounts.1 hskip h
    rw [if_neg hread, if_pos h]
    by_cases hkind : i.kind = "sheet"
    · rw [if_pos hkind, if_pos ⟨h, hkind⟩, foldl_insertFrame]
      rfl
    · rw [if_neg hkind, if_neg fun hsheet => hkind hsheet.2]
      rfl
  · rw [if_pos (hcounts.2 h), if_neg h, if_neg fun hsheet => h hsheet.1]
    rfl

theorem merged_eq (manifests : List Manifest) :
    merged manifests =
      { paths := .ofList ((manifests.flatMap Manifest.items).flatMap pathEntries)
        frames := .ofList ((manifests.flatMap Manifest.items).flatMap frameEntries) } := by
  have hitems : ∀ t, manifests.foldl addManifest t =
      (manifests.flatMap Manifest.items).foldl addItem t := by
    intro t
    rw [List.foldl_flatMap]
    rfl
  have hentries : ∀ (items : List ManifestItem) t, items.foldl addItem t =
      { paths := (items.flatMap pathEntries).foldl (fun d entry => d.insert entry.1 entry.2) t.paths
        frames := (items.flatMap frameEntries).foldl (fun d entry => d.insert entry.1 entry.2)
          t.frames } := by
    intro items
    induction items with
    | nil => exact fun t => rfl
    | cons i rest ih =>
      intro t
      rw [List.foldl_cons, ih, addItem_eq, List.flatMap_cons, List.flatMap_cons, List.foldl_append,
        List.foldl_append]
  rw [merged, hitems, hentries]
  rfl

section
variable {manifests : List Manifest} {name url key sheet frame : String}

theorem get?_paths_merged :
    (merged manifests).paths.get? name = some url ↔
      ∃ i, LastWith (fun i => i.Counts ∧ i.name = name) (manifests.flatMap Manifest.items) i ∧
        i.url = url := by
  have hwrites : ∀ i : ManifestItem,
      (∃ entry ∈ i.pathEntries, entry.1 = name) ↔ i.Counts ∧ i.name = name := by
    intro i
    unfold pathEntries
    split
    · next h => simp [h]
    · next h => simp [h]
  rw [merged_eq, Dictionary.get?_ofList_eq_some_iff, lastWritten_flatMap]
  simp only [hwrites, lastWritten_pathEntries]
  exact exists_congr fun i => and_congr_right fun hlast => and_iff_right hlast.holds

theorem path?_merged_eq_some_iff :
    (merged manifests).path? name = some url ↔
      ∃ i, LastWith (fun i => i.Counts ∧ i.name = name) (manifests.flatMap Manifest.items) i ∧
        i.url = url := by
  rw [path?, Option.filter_eq_some_iff, get?_paths_merged, and_iff_left_iff_imp]
  rintro ⟨i, hlast, rfl⟩
  simpa using hlast.holds.1.2

/-- A frame belongs to the last sheet that offers it. -/
theorem frame?_merged_eq_some_iff :
    (merged manifests).frame? key = some (sheet, frame) ↔
      frame = key ∧ ∃ i, LastWith (fun i => i.IsSheet ∧ i.Offers key)
        (manifests.flatMap Manifest.items) i ∧ i.name = sheet := by
  have hwrites : ∀ i : ManifestItem,
      (∃ entry ∈ i.frameEntries, entry.1 = key) ↔ i.IsSheet ∧ i.Offers key := by
    intro i
    constructor
    · rintro ⟨⟨_, sheet, frame⟩, hentry, rfl⟩
      exact (mem_frameEntries_iff.1 hentry).1
    · intro h
      exact ⟨_, mem_frameEntries_iff.2 ⟨h, rfl, rfl⟩, rfl⟩
  rw [frame?, merged_eq, Dictionary.get?_ofList_eq_some_iff, lastWritten_flatMap]
  simp only [hwrites, lastWritten_frameEntries]
  constructor
  · rintro ⟨i, hlast, -, hname, hframe⟩
    exact ⟨hframe, i, hlast, hname⟩
  · rintro ⟨hframe, i, hlast, hname⟩
    exact ⟨i, hlast, hlast.holds, hname, hframe⟩

theorem exists_path_of_frame? (h : (merged manifests).frame? key = some (sheet, frame)) :
    ∃ path, (merged manifests).path? sheet = some path ∧ path ≠ "" ∧
      (merged manifests).frameQuery? sheet frame = some ⟨path, some frame⟩ := by
  obtain ⟨-, i, hlast, rfl⟩ := frame?_merged_eq_some_iff.1 h
  obtain ⟨j, hj⟩ := exists_lastWith (p := fun j => j.Counts ∧ j.name = i.name) hlast.mem
    ⟨hlast.holds.1.1, rfl⟩
  have hpath := path?_merged_eq_some_iff.2 ⟨j, hj, rfl⟩
  exact ⟨j.url, hpath, hj.holds.1.2, by rw [frameQuery?, hpath]; rfl⟩

end

/-- In the table of some manifests a name has the address of the last item of that name which has an
address, and a frame stands for itself in the last sheet that offers it. Its sheet has an address,
and so something is asked for it; its name is not empty, has no blanks around it and no commas. -/
theorem merged_answers (manifests : List Manifest) :
    let items := manifests.flatMap Manifest.items
    let t := merged manifests
    (∀ name url, t.path? name = some url ↔
      ∃ i, LastWith (fun i => i.Counts ∧ i.name = name) items i ∧ i.url = url) ∧
    (∀ name, t.path? name = none ↔ ∀ i ∈ items, ¬(i.Counts ∧ i.name = name)) ∧
    (∀ key sheet frame, t.frame? key = some (sheet, frame) ↔
      frame = key ∧ ∃ i, LastWith (fun i => i.IsSheet ∧ i.Offers key) items i ∧ i.name = sheet) ∧
    ∀ key sheet frame, t.frame? key = some (sheet, frame) →
      (∃ path, t.path? sheet = some path ∧ path ≠ "" ∧
        t.frameQuery? sheet frame = some ⟨path, some frame⟩) ∧
      (t.query? key).isSome ∧ frame ≠ "" ∧ Trimmed frame.toList ∧ ',' ∉ frame.toList := by
  intro items t
  refine ⟨fun name url => path?_merged_eq_some_iff, fun name => ?_,
    fun key sheet frame => frame?_merged_eq_some_iff, fun key sheet frame hframe => ?_⟩
  · rw [Option.eq_none_iff_forall_ne_some]
    constructor
    · intro hnone i hi hcounts
      obtain ⟨j, hj⟩ := exists_lastWith (p := fun i => i.Counts ∧ i.name = name) hi hcounts
      exact hnone j.url (path?_merged_eq_some_iff.2 ⟨j, hj, rfl⟩)
    · intro hnone url hurl
      obtain ⟨i, hlast, -⟩ := path?_merged_eq_some_iff.1 hurl
      exact hnone i hlast.mem hlast.holds
  · obtain ⟨rfl, i, hlast, -⟩ := frame?_merged_eq_some_iff.1 hframe
    obtain ⟨path, hpath, hne, hquery⟩ := exists_path_of_frame? hframe
    refine ⟨⟨path, hpath, hne, hquery⟩, ?_, hlast.holds.2.wellFormed⟩
    unfold query?
    cases t.path? frame with
    | some own => rfl
    | none =>
      rw [hframe]
      exact Option.isSome_iff_exists.2 ⟨_, hquery⟩

end AssetTable

end MarkupScene
