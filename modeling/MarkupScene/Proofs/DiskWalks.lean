import MarkupScene.Proofs.Descents
import MarkupScene.Proofs.FreshFolders

/-!
# Walks to entries

What a path finds on a disk. A path that the system takes is walked piece by piece, and one that
goes down from a directory finds the entry of the last name in it, if there is one. A directory
lists the name of each of its entries once. The main statement is that every entry below a directory
is found by its names, when the system takes them.
-/
namespace MarkupScene.Disk

open MarkupScene.Path

variable {d : Disk}

/-- Whether the system takes a path at all. -/
structure Taken (p : Path) : Prop where
  text : '\x00' ∉ p.text.toList
  size : p.text.utf8ByteSize < pathLimit
  nonempty : p.text ≠ ""

theorem taken_of_walk {p : Path} {place : Place} (h : d.walk p = .ok place) : Taken p := by
  unfold walk at h
  dsimp only at h
  split at h
  · cases h
  · next hnul =>
    split at h
    · cases h
    · next hsize =>
      split at h
      · cases h
      · next hnil => exact ⟨hnul, Nat.lt_of_not_le hsize, fun hp => hnil (by simp [hp])⟩

theorem walk_of_taken {p : Path} (h : Taken p) : d.walk p =
    d.walkFrom (if p.isAbsolute then [] else d.working) (Text.pieces '/' p.text.toList) := by
  have hnil : p.text.toList ≠ [] := fun hp => h.nonempty (String.toList_eq_nil_iff.1 hp)
  unfold walk
  dsimp only
  rw [if_neg h.text, if_neg (Nat.not_le.2 h.size), if_neg hnil]

theorem IsTree.entry?_of_walk (hd : d.IsTree) {p : Path} {l : Location} {e : Entry}
    (h : d.walk p = .ok (.found l e)) : d.entry? (p.locate d.working) = some e := by
  rw [← location_of_walk h]
  exact hd.entry?_of_walks (hd.entry?_start _) (walks_of_walk h)

theorem IsTree.entry?_of_isDirectory (hd : d.IsTree) {p : Path} (h : d.isDirectory p = true) :
    d.entry? (p.locate d.working) = some .directory := by
  unfold isDirectory at h
  split at h
  · next hwalk => exact hd.entry?_of_walk hwalk
  · cases h

theorem IsTree.entry?_of_readBytes (hd : d.IsTree) {p : Path} {content : ByteArray}
    (h : d.readBytes p = .ok content) :
    d.entry? (p.locate d.working) = some (.file content) := by
  unfold readBytes at h
  split at h
  · next hwalk =>
    obtain rfl := Except.ok.inj h
    exact hd.entry?_of_walk hwalk
  · cases h
  · cases h
  · cases h

theorem readBytes_of_isFile {p : Path} (h : d.isFile p = true) :
    ∃ content, d.readBytes p = .ok content := by
  unfold isFile at h
  split at h
  · next l content hwalk => exact ⟨content, by simp [readBytes, hwalk]⟩
  · cases h

theorem not_isDirectory_of_isFile {p : Path} (h : d.isFile p = true) : d.isDirectory p = false := by
  unfold isFile at h
  split at h
  · next hwalk => simp [isDirectory, hwalk]
  · cases h

theorem exists_of_isFile {p : Path} (h : d.isFile p = true) : d.exists? p = true := by
  unfold isFile at h
  split at h
  · next hwalk => simp [exists?, hwalk]
  · cases h

theorem exists_of_readBytes {p : Path} {content : ByteArray} (h : d.readBytes p = .ok content) :
    d.exists? p = true := by
  unfold readBytes at h
  split at h
  · next hwalk => simp [exists?, hwalk]
  · cases h
  · cases h
  · cases h

theorem exists_walk {p : Path} (h : d.exists? p = true) :
    ∃ l e, d.walk p = .ok (.found l e) := by
  unfold exists? at h
  split at h
  · next l e hwalk => exact ⟨l, e, hwalk⟩
  · cases h

theorem walk_of_isDirectory {p : Path} (h : d.isDirectory p = true) :
    d.walk p = .ok (.found (p.locate d.working) .directory) := by
  unfold isDirectory at h
  split at h
  · next l hwalk =>
    rw [hwalk, show l = p.locate d.working from location_of_walk hwalk]
  · cases h

theorem key_mem_insertEntry {α : Type} {key other : String} {value : α}
    {entries : List (String × α)} :
    other ∈ (Text.Dictionary.insertEntry key value entries).map Prod.fst ↔
      other = key ∨ other ∈ entries.map Prod.fst := by
  induction entries with
  | nil => simp [Text.Dictionary.insertEntry]
  | cons x rest ih =>
    obtain ⟨k, v⟩ := x
    unfold Text.Dictionary.insertEntry
    split
    · simp
    · split
      · next h => simp [h]
      · rw [List.map_cons, List.map_cons, List.mem_cons, List.mem_cons, ih]
        tauto

theorem mem_keys_ofList {α : Type} {key : String} {added : List (String × α)} :
    key ∈ (Text.Dictionary.ofList added).entries.map Prod.fst ↔ key ∈ added.map Prod.fst := by
  have hfold : ∀ (added : List (String × α)) (d : Text.Dictionary α),
      key ∈ (added.foldl (fun d e => d.insert e.1 e.2) d).entries.map Prod.fst ↔
        key ∈ d.entries.map Prod.fst ∨ key ∈ added.map Prod.fst := by
    intro added
    induction added with
    | nil => simp
    | cons x rest ih =>
      intro d
      rw [List.foldl_cons, ih, Text.Dictionary.insert, key_mem_insertEntry, List.map_cons,
        List.mem_cons]
      tauto
  have hnew := hfold added Text.Dictionary.empty
  simpa [Text.Dictionary.ofList, Text.Dictionary.empty] using hnew

theorem mem_namesIn {l : Location} {n : String} :
    n ∈ d.namesIn l ↔ d.entry? (l ++ [n]) ≠ none := by
  have hentry : d.entry? (l ++ [n]) ≠ none ↔ ∃ e, (l ++ [n], e) ∈ d.entries := by
    simp [ entry?, List.lookup_eq_none_iff]
  rw [namesIn, mem_keys_ofList, hentry, List.map_filterMap, List.mem_filterMap]
  constructor
  · rintro ⟨⟨k, e⟩, hk, hname⟩
    dsimp only at hname
    split at hname
    · next last hlast =>
      split at hname
      · next habove =>
        obtain rfl : last = n := by simpa using hname
        obtain ⟨front, hfront⟩ := List.getLast?_eq_some_iff.1 hlast
        rw [hfront, List.dropLast_concat] at habove
        exact ⟨e, by rwa [hfront, habove] at hk⟩
      · simp at hname
    · simp at hname
  · rintro ⟨e, he⟩
    exact ⟨(l ++ [n], e), he, by simp⟩

theorem pairwise_namesIn (d : Disk) (l : Location) : (d.namesIn l).Pairwise (· < ·) :=
  List.pairwise_map.2 (Text.Dictionary.ofList _).ascending

theorem nodup_namesIn (d : Disk) (l : Location) : (d.namesIn l).Nodup := by
  refine (d.pairwise_namesIn l).imp fun hlt heq => ?_
  rw [heq] at hlt
  exact String.lt_irrefl _ hlt

theorem exists_readDirectory {p : Path} (h : d.isDirectory p = true) :
    ∃ names, d.readDirectory p = .ok names := by
  rw [readDirectory, walk_of_isDirectory h]
  exact ⟨_, rfl⟩

theorem Proper.names_of_entry (hd : d.Proper) {l : Location} (h : d.entry? l ≠ none) :
    ∀ n ∈ l, ProperName n := by
  intro n hn
  have hl : l ≠ [] := List.ne_nil_of_mem hn
  obtain ⟨e, he⟩ := Option.ne_none_iff_exists'.1 h
  rw [ entry?, if_neg hl] at he
  obtain ⟨before, after, hsplit, -⟩ := List.lookup_eq_some_iff.1 he
  exact hd.entries (l, e) (by simp [hsplit]) n hn

theorem of_readDirectory {p : Path} {names : List String} (h : d.readDirectory p = .ok names) :
    d.isDirectory p = true ∧ names.Nodup ∧
      ∀ n, n ∈ names ↔ d.entry? (p.locate d.working ++ [n]) ≠ none := by
  unfold readDirectory at h
  split at h
  · next l hwalk =>
    obtain rfl := Except.ok.inj h
    refine ⟨by simp [isDirectory, hwalk], nodup_namesIn d l, fun n => ?_⟩
    rw [mem_namesIn, show l = p.locate d.working from location_of_walk hwalk]
  · cases h
  · cases h
  · cases h

theorem pairwise_of_readDirectory {p : Path} {names : List String}
    (h : d.readDirectory p = .ok names) : names.Pairwise (· < ·) := by
  unfold readDirectory at h
  split at h
  · next l hwalk =>
    obtain rfl := Except.ok.inj h
    exact d.pairwise_namesIn l
  · cases h
  · cases h
  · cases h

/-- A walk to a piece goes through a directory. -/
theorem exists_of_walks_append {here : Location} {ps : List (List Char)} {piece : List Char}
    (hpiece : piece ≠ []) {place : Place} (h : Walks d here (ps ++ [piece]) place) :
    ∃ l, Walks d here ps (.found l .directory) := by
  -- By induction on the pieces before the last, all of which are gone through.
  induction ps generalizing here with
  | nil => exact ⟨here, .done here⟩
  | cons first rest ih =>
    cases h with
    | silent hfirst h =>
      obtain ⟨l, hl⟩ := ih h
      exact ⟨l, .silent hfirst hl⟩
    | up h =>
      obtain ⟨l, hl⟩ := ih h
      exact ⟨l, .up hl⟩
    | enter hfirst hentry h =>
      obtain ⟨l, hl⟩ := ih h
      exact ⟨l, .enter hfirst hentry hl⟩
    | file _ _ hrest => simp at hrest
    | free _ _ hrest => simp [hpiece] at hrest

theorem Taken.of_join {base : Path} (hbase : base.text ≠ "") {name : String}
    (hname : ProperName name) (h : Taken (base.join ⟨name⟩)) : Taken base := by
  obtain ⟨gap, hjoin⟩ := exists_text_join base hname
  refine ⟨fun hnul => h.text ?_, lt_of_le_of_lt ?_ h.size, hbase⟩
  · rw [hjoin, String.toList_append]
    exact List.mem_append_left _ hnul
  · rw [hjoin, String.utf8ByteSize_append]
    exact Nat.le_add_right _ _

theorem isDirectory_of_join {base : Path} (hbase : base.text ≠ "") {name : String}
    (hname : ProperName name) {place : Place} (h : d.walk (base.join ⟨name⟩) = .ok place) :
    d.isDirectory base = true := by
  obtain ⟨front, hcut, hfront⟩ := pieces_join_name hbase hname
  have hwalk := walks_of_walk h
  rw [isAbsolute_join hbase (isAbsolute_name hname), hcut] at hwalk
  obtain ⟨l, hl⟩ := exists_of_walks_append hname.1 hwalk
  have hfound : d.walk base = .ok (.found l .directory) := by
    rw [walk_of_taken ((taken_of_walk h).of_join hbase hname)]
    rcases hfront with hfront | hfront
    · rw [hfront, hl.walkFrom_eq]
    · rw [hfront, walkFrom_append hl]
      rfl
  simp [isDirectory, hfound]

theorem exists_of_isDirectory {p : Path} (h : d.isDirectory p = true) : d.exists? p = true := by
  simp [exists?, walk_of_isDirectory h]

theorem walk_join {base : Path} (hbase : d.isDirectory base = true) {name : String}
    (hname : ProperName name) (htaken : Taken (base.join ⟨name⟩)) :
    d.walk (base.join ⟨name⟩) = d.walkFrom (base.locate d.working) [name.toList] := by
  have hwalk := walk_of_isDirectory hbase
  have hne : base.text ≠ "" := (taken_of_walk hwalk).nonempty
  obtain ⟨front, hcut, hfront⟩ := pieces_join_name hne hname
  have hfound : Walks d (if base.isAbsolute then [] else d.working) front
      (.found (base.locate d.working) .directory) := by
    have h := walks_of_walk hwalk
    rcases hfront with hfront | hfront
    · rwa [hfront] at h
    · rw [hfront] at h
      exact walks_of_slash h
  rw [walk_of_taken htaken, isAbsolute_join hne (isAbsolute_name hname), hcut,
    walkFrom_append hfound]

/-- The names on the way down from a base are names that the system takes, and so is the whole. -/
structure Passes (base : Path) (names : List String) : Prop where
  taken : Taken (base.below names)
  sizes : ∀ n ∈ names, Text.byteSize n.toList ≤ nameLimit

theorem Passes.above {base : Path} (hbase : base.text ≠ "") {names : List String} {name : String}
    (hnames : ∀ n ∈ names ++ [name], ProperName n) (h : Passes base (names ++ [name])) :
    Passes base names where
  taken := by
    have htaken := h.taken
    rw [below_concat] at htaken
    exact htaken.of_join (below_ne_empty hbase fun n hn => hnames n (by simp [hn]))
      (hnames name (by simp))
  sizes n hn := h.sizes n (by simp [hn])

/-- The system takes the names of what exists. -/
theorem passes_of_exists {base : Path} (hbase : base.text ≠ "") {names : List String}
    (hnames : ∀ n ∈ names, ProperName n) (h : d.exists? (base.below names) = true) :
    Passes base names := by
  induction names using List.reverseRec with
  | nil =>
    obtain ⟨l, e, hwalk⟩ := exists_walk h
    exact ⟨taken_of_walk hwalk, nofun⟩
  | append_singleton names n ih =>
    have hn : ProperName n := hnames n (by simp)
    have hfront : ∀ m ∈ names, ProperName m := fun m hm => hnames m (by simp [hm])
    obtain ⟨l, e, hwalk⟩ := exists_walk h
    have htaken := taken_of_walk hwalk
    have hfrontText : (base.below names).text ≠ "" := below_ne_empty hbase hfront
    rw [below_concat] at hwalk
    have hdirectory := isDirectory_of_join hfrontText hn hwalk
    have habove := ih hfront (exists_of_isDirectory hdirectory)
    rw [walk_join hdirectory hn (taken_of_walk hwalk), walkFrom_name d _ hn] at hwalk
    refine ⟨htaken, List.forall_mem_append.2 ⟨habove.sizes, List.forall_mem_singleton.2 ?_⟩⟩
    split at hwalk
    · assumption
    · cases hwalk

/-- What an entry below a directory is, the system finds, when it takes the names. -/
theorem IsTree.walk_below (hd : d.IsTree) {base : Path} (hbase : d.isDirectory base = true)
    {names : List String} (hne : names ≠ []) (hnames : ∀ n ∈ names, ProperName n)
    (hpasses : Passes base names) {e : Entry}
    (hentry : d.entry? (base.locate d.working ++ names) = some e) :
    d.walk (base.below names) = .ok (.found (base.locate d.working ++ names) e) := by
  induction names using List.reverseRec generalizing e with
  | nil => exact absurd rfl hne
  | append_singleton names n ih =>
    have hn : ProperName n := hnames n (by simp)
    have hfront : ∀ m ∈ names, ProperName m := fun m hm => hnames m (by simp [hm])
    have hparent : d.entry? (base.locate d.working ++ names) = some .directory := by
      have habove := hd.parent hentry
      rwa [← List.append_assoc, List.dropLast_concat] at habove
    have hdirectory : d.isDirectory (base.below names) = true := by
      by_cases hnil : names = []
      · subst hnil
        exact hbase
      · have hshorter := hpasses.above (taken_of_walk (walk_of_isDirectory hbase)).nonempty hnames
        simp [isDirectory, ih hnil hfront hshorter hparent]
    have htaken := hpasses.taken
    rw [below_concat] at htaken ⊢
    rw [walk_join hdirectory hn htaken, walkFrom_name d _ hn, if_pos (hpasses.sizes n (by simp)),
      locate_below _ _ hfront, List.append_assoc, hentry]

theorem IsTree.isDirectory_below {d' : Disk} (hd : d.IsTree) (hd' : d'.IsTree) {base : Path}
    (hbase : d.isDirectory base = true) {names : List String} (hnames : ∀ n ∈ names, ProperName n)
    (hworking : d'.working = d.working)
    (hsame : d'.entry? (base.locate d.working ++ names) = d.entry? (base.locate d.working ++ names))
    (h : d'.isDirectory (base.below names) = true) : d.isDirectory (base.below names) = true := by
  by_cases hne : names = []
  · subst hne
    exact hbase
  · have hentry := hd'.entry?_of_isDirectory h
    rw [locate_below _ _ hnames, hworking, hsame] at hentry
    have hpasses := passes_of_exists (taken_of_walk (walk_of_isDirectory hbase)).nonempty hnames
      (exists_of_isDirectory h)
    simp [isDirectory, hd.walk_below hbase hne hnames hpasses hentry]

end MarkupScene.Disk
