import MarkupScene.Text.Dictionary
import Mathlib.Data.List.Nodup

/-!
# Dictionaries by their answers

Entries in order are known by their answers, so two dictionaries are the same when they answer
alike, and entries with different keys can be put in in any order. Of entries with one key that are
put in one after the other the last one counts. A search among the entries finds the least key.
-/
namespace MarkupScene.Text.Dictionary

variable {α : Type}

theorem lookup_eq_none_of_lt {key : String} {entries : List (String × α)}
    (h : ∀ e ∈ entries, key < e.1) : entries.lookup key = none :=
  List.lookup_eq_none_iff.2 fun e he => bne_iff_ne.2 (Std.ne_of_lt (h e he))

theorem insertEntry_of_lt {key : String} (value : α) {entries : List (String × α)}
    (h : ∀ e ∈ entries, key < e.1) : insertEntry key value entries = (key, value) :: entries := by
  cases entries with
  | nil => rfl
  | cons e entries => exact if_pos (h e List.mem_cons_self)

theorem not_lt_of_lookup {key : String} {value : α} {rest entries : List (String × α)}
    (h : entries.Pairwise fun a b => a.1 < b.1)
    (hlookup : ∀ k, entries.lookup k = List.lookup k ((key, value) :: rest)) :
    ∃ k v more, entries = (k, v) :: more ∧ ¬key < k := by
  have hkey := hlookup key
  rw [List.lookup_cons_self] at hkey
  cases entries with
  | nil => cases hkey
  | cons e more =>
    obtain ⟨k, v⟩ := e
    refine ⟨k, v, more, rfl, fun hlt => ?_⟩
    rw [lookup_eq_none_of_lt (List.forall_mem_cons.2
      ⟨hlt, fun e he => String.lt_trans hlt ((List.pairwise_cons.1 h).1 e he)⟩)] at hkey
    cases hkey

/-- Entries in order with the same answers are the same. -/
theorem eq_of_lookup {entries entries' : List (String × α)}
    (h : entries.Pairwise fun a b => a.1 < b.1) (h' : entries'.Pairwise fun a b => a.1 < b.1)
    (hlookup : ∀ key, entries.lookup key = entries'.lookup key) : entries = entries' := by
  induction entries generalizing entries' with
  | nil =>
    cases entries' with
    | nil => rfl
    | cons e rest =>
      obtain ⟨k, v, more, heq, -⟩ := not_lt_of_lookup h hlookup
      cases heq
  | cons e rest ih =>
    obtain ⟨key, value⟩ := e
    obtain ⟨key', value', rest', rfl, hle⟩ := not_lt_of_lookup h' fun k => (hlookup k).symm
    obtain ⟨_, _, _, heq, hge⟩ := not_lt_of_lookup h hlookup
    obtain ⟨⟨rfl, rfl⟩, rfl⟩ := List.cons.inj heq |>.imp Prod.mk.inj id
    obtain rfl : key = key' := Std.le_antisymm (String.not_lt.1 hge) (String.not_lt.1 hle)
    obtain ⟨hfirst, hrest⟩ := List.pairwise_cons.1 h
    obtain ⟨hfirst', hrest'⟩ := List.pairwise_cons.1 h'
    have hvalue := hlookup key
    rw [List.lookup_cons_self, List.lookup_cons_self] at hvalue
    obtain rfl := Option.some.inj hvalue
    rw [ih hrest hrest' fun k => ?_]
    by_cases hk : k = key
    · subst hk
      rw [lookup_eq_none_of_lt hfirst, lookup_eq_none_of_lt hfirst']
    · have hother := hlookup k
      rwa [lookup_entry, lookup_entry, if_neg hk, if_neg hk] at hother

theorem mem_of_get? {d : Dictionary α} {key : String} {value : α} (h : d.get? key = some value) :
    (key, value) ∈ d.entries := by
  obtain ⟨before, after, hsplit, -⟩ := List.lookup_eq_some_iff.1 h
  simp [hsplit]

theorem eq_of_get? {d d' : Dictionary α} (h : ∀ key, d.get? key = d'.get? key) : d = d' := by
  obtain ⟨entries, hd⟩ := d
  obtain ⟨entries', hd'⟩ := d'
  obtain rfl := eq_of_lookup hd hd' h
  rfl

theorem insert_insert (d : Dictionary α) (key : String) (v w : α) :
    (d.insert key v).insert key w = d.insert key w := by
  refine eq_of_get? fun k => ?_
  simp only [get?_insert]
  split <;> rfl

theorem insert_comm (d : Dictionary α) {key other : String} (h : key ≠ other) (v w : α) :
    (d.insert key v).insert other w = (d.insert other w).insert key v := by
  refine eq_of_get? fun k => ?_
  simp only [get?_insert]
  split
  · next hk => rw [if_neg (hk ▸ h.symm)]
  · rfl

/-- Entries with keys of their own are found after they were added. -/
theorem get?_foldl_insert {entries : List (String × α)} (h : (entries.map Prod.fst).Nodup)
    (d : Dictionary α) (key : String) :
    (entries.foldl (fun d entry => d.insert entry.1 entry.2) d).get? key =
      (entries.lookup key).or (d.get? key) := by
  induction entries generalizing d with
  | nil => simp
  | cons entry rest ih =>
    obtain ⟨k, v⟩ := entry
    simp only [List.map_cons, List.nodup_cons] at h
    rw [List.foldl_cons, ih h.2, get?_insert, lookup_entry]
    by_cases hkey : key = k
    · have hrest : rest.lookup key = none := by
        rw [List.lookup_eq_none_iff]
        intro entry hentry
        have hne : key ≠ entry.1 := fun heq => h.1 (hkey ▸ heq ▸ List.mem_map_of_mem hentry)
        simpa using hne
      simp [hkey ▸ hrest, hkey]
    · simp [hkey]

theorem ofList_entries (d : Dictionary α) : ofList d.entries = d := by
  have hkeys : (d.entries.map Prod.fst).Nodup :=
    List.pairwise_map.2 (d.ascending.imp String.ne_of_lt)
  refine eq_of_get? fun key => ?_
  rw [ofList, get?_foldl_insert hkeys]
  exact Option.or_none

/-- The value of an entry that no later entry with its key follows. -/
def LastWritten (written : List (String × α)) (key : String) (value : α) : Prop :=
  ∃ before rest, written = before ++ (key, value) :: rest ∧ ∀ entry ∈ rest, entry.1 ≠ key

theorem lookup_reverse_eq_some_iff {written : List (String × α)} {key : String} {value : α} :
    written.reverse.lookup key = some value ↔ LastWritten written key value := by
  rw [List.lookup_eq_some_iff]
  constructor
  · rintro ⟨before, rest, hsplit, hbefore⟩
    refine ⟨rest.reverse, before.reverse, ?_, fun entry hentry => ?_⟩
    · rw [← List.reverse_inj, hsplit]
      simp
    · exact (bne_iff_ne.1 (hbefore entry (List.mem_reverse.1 hentry))).symm
  · rintro ⟨before, rest, rfl, hrest⟩
    refine ⟨rest.reverse, before.reverse, by simp, fun entry hentry => ?_⟩
    exact bne_iff_ne.2 (hrest entry (List.mem_reverse.1 hentry)).symm

theorem LastWritten.mem {written : List (String × α)} {key : String} {value : α}
    (h : LastWritten written key value) : (key, value) ∈ written := by
  obtain ⟨before, rest, rfl, -⟩ := h
  simp

theorem exists_lastWritten {written : List (String × α)} {entry : String × α}
    (h : entry ∈ written) : ∃ value, LastWritten written entry.1 value := by
  cases hlast : written.reverse.lookup entry.1 with
  | some value => exact ⟨value, lookup_reverse_eq_some_iff.1 hlast⟩
  | none =>
    have hne := List.lookup_eq_none_iff.1 hlast entry (List.mem_reverse.2 h)
    simp at hne

theorem lastWritten_map {β : Type} (f : α → β) {written : List (String × α)} {key : String}
    {value : β} : LastWritten (written.map fun entry => (entry.1, f entry.2)) key value ↔
      ∃ spelled, LastWritten written key spelled ∧ f spelled = value := by
  have hlookup : ∀ entries : List (String × α),
      (entries.map fun entry => (entry.1, f entry.2)).lookup key = (entries.lookup key).map f := by
    intro entries
    induction entries with
    | nil => rfl
    | cons entry rest ih =>
      rw [List.map_cons, lookup_entry, ih, lookup_entry]
      split <;> rfl
  simp only [← lookup_reverse_eq_some_iff, ← List.map_reverse, hlookup, Option.map_eq_some_iff]

theorem get?_ofList_eq_some_iff {written : List (String × α)} {key : String} {value : α} :
    (ofList written).get? key = some value ↔ LastWritten written key value := by
  have hfold : ∀ d : Dictionary α,
      (written.foldl (fun d entry => d.insert entry.1 entry.2) d).get? key =
        (written.reverse.lookup key).or (d.get? key) := by
    induction written with
    | nil => exact fun d => rfl
    | cons entry rest ih =>
      intro d
      rw [List.foldl_cons, ih, get?_insert, List.reverse_cons, List.lookup_append, lookup_entry,
        Option.or_assoc]
      split <;> rfl
  rw [← lookup_reverse_eq_some_iff, ofList, hfold]
  exact iff_of_eq (congrArg (· = some value) Option.or_none)

theorem mem_entries_iff {d : Dictionary α} {key : String} {value : α} :
    (key, value) ∈ d.entries ↔ d.get? key = some value := by
  refine ⟨fun h => ?_, mem_of_get?⟩
  obtain ⟨before, rest, hsplit⟩ := List.append_of_mem h
  have hascending := d.ascending
  rw [hsplit] at hascending
  refine List.lookup_eq_some_iff.2 ⟨before, rest, hsplit, fun entry hentry => ?_⟩
  exact bne_iff_ne.2 (String.ne_of_lt
    ((List.pairwise_append.1 hascending).2.2 entry hentry _ List.mem_cons_self)).symm

/-- A search by value finds the least key whose value fits. -/
theorem find?_entries_eq_some_iff {d : Dictionary α} (fits : α → Bool) {key : String} {value : α} :
    d.entries.find? (fun entry => fits entry.2) = some (key, value) ↔
      (d.get? key = some value ∧ fits value = true) ∧
        ∀ k v, d.get? k = some v → fits v = true → ¬k < key := by
  have hleast : ∀ {key value}, d.entries.find? (fun entry => fits entry.2) = some (key, value) →
      (d.get? key = some value ∧ fits value = true) ∧
        ∀ k v, d.get? k = some v → fits v = true → ¬k < key := by
    intro key value hfind
    obtain ⟨hfits, before, rest, hsplit, hbefore⟩ := List.find?_eq_some_iff_append.1 hfind
    refine ⟨⟨mem_entries_iff.1 (List.mem_of_find?_eq_some hfind), hfits⟩, fun k v hget hv hlt => ?_⟩
    have hmem := mem_entries_iff.2 hget
    have hascending := d.ascending
    rw [hsplit] at hmem hascending
    -- What stands before does not fit, and what stands behind has a greater key.
    rcases List.mem_append.1 hmem with hmem | hmem
    · have hnot := hbefore _ hmem
      simp [hv] at hnot
    · rcases List.mem_cons.1 hmem with heq | hmem
      · exact String.lt_irrefl key ((Prod.mk.inj heq).1 ▸ hlt)
      · have hgreater := (List.pairwise_cons.1 (List.pairwise_append.1 hascending).2.1).1 _ hmem
        exact String.lt_irrefl k (String.lt_trans hlt hgreater)
  refine ⟨hleast, ?_⟩
  rintro ⟨⟨hget, hfits⟩, hmin⟩
  cases hfind : d.entries.find? (fun entry => fits entry.2) with
  | none => exact absurd hfits (List.find?_eq_none.1 hfind _ (mem_entries_iff.2 hget))
  | some found =>
    obtain ⟨k, v⟩ := found
    obtain ⟨⟨hk, hv⟩, hmin'⟩ := hleast hfind
    obtain rfl : k = key := Std.le_antisymm (String.not_lt.1 (hmin' key value hget hfits))
      (String.not_lt.1 (hmin k v hk hv))
    rw [Option.some.inj (hk.symm.trans hget)]

end MarkupScene.Text.Dictionary
