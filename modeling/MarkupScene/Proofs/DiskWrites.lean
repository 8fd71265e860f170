import MarkupScene.Disk.Basic
import MarkupScene.Proofs.Paths

/-!
# Writes on disk

What operations on a file tree leave alone. How a walk that succeeds goes is a relation with one
constructor for each kind of piece. There are no links, so it ends where the components of its path
lead, whatever entries it meets, and the place of a file can be told from its path. The main
statements are that writing a file changes no other file and that making directories changes none at
all.
-/
namespace MarkupScene

namespace Path

/-- Where a component leads. Above the root is the root. -/
def enter (here : Location) : Component → Location
  | .root => []
  | .here => here
  | .up => here.dropLast
  | .name n => here ++ [n]

/-- Where a path leads from a directory. -/
def locate (p : Path) (here : Location) : Location := p.components.foldl enter here

theorem foldl_enter_names (here : Location) (names : List String) :
    (names.map Component.name).foldl enter here = here ++ names := by
  induction names generalizing here with
  | nil => simp
  | cons n rest ih => simp [enter, ih]

theorem locate_join_ofNames (base : Path) (here : Location) {names : List String}
    (h : ∀ n ∈ names, ProperName n) :
    (base.join (ofNames names)).locate here = base.locate here ++ names := by
  rw [locate, components_join_ofNames base h, List.foldl_append, foldl_enter_names, locate]

theorem locate_join_name (base : Path) (here : Location) {name : String} (h : ProperName name) :
    (base.join ⟨name⟩).locate here = base.locate here ++ [name] := by
  rw [← ofNames_singleton, locate_join_ofNames base here (List.forall_mem_singleton.2 h)]

def leads (here : Location) (ps : List (List Char)) : Location :=
  ((ps.map Piece.inner).filterMap (·.component?)).foldl enter here

theorem leads_silent (here : Location) {piece : List Char} (h : piece = [] ∨ piece = ['.'])
    (rest : List (List Char)) : leads here (piece :: rest) = leads here rest := by
  rw [leads, List.map_cons, List.filterMap_cons_none (by simp [Piece.inner, h])]
  rfl

theorem leads_name (here : Location) {piece : List Char} (h : ¬(piece = [] ∨ piece = ['.']))
    (hup : piece ≠ ['.', '.']) (rest : List (List Char)) :
    leads here (piece :: rest) = leads (here ++ [.ofList piece]) rest := by
  rw [leads, List.map_cons, List.filterMap_cons_some (by simp [Piece.inner, h, hup]; rfl)]
  rfl

theorem leads_of_empty (here : Location) {ps : List (List Char)} (h : ps.all (·.isEmpty) = true) :
    leads here ps = here := by
  induction ps with
  | nil => rfl
  | cons piece rest ih =>
    rw [List.all_cons, Bool.and_eq_true, List.isEmpty_iff] at h
    rw [leads_silent here (.inl h.1), ih h.2]

theorem leads_append (here : Location) (ps qs : List (List Char)) :
    leads here (ps ++ qs) = leads (leads here ps) qs := by
  rw [leads, List.map_append, List.filterMap_append, List.foldl_append]
  rfl

theorem foldl_enter_leading (here : Location) (first : List Char) (rest : List Piece) :
    ((Piece.leading first :: rest).filterMap (·.component?)).foldl enter here =
      ((Piece.inner first :: rest).filterMap (·.component?)).foldl enter here := by
  unfold Piece.leading
  split
  · next h =>
    subst h
    rfl
  · rfl

theorem locate_eq (p : Path) (here : Location) :
    p.locate here =
      leads (if p.isAbsolute then [] else here) (Text.pieces '/' p.text.toList) := by
  rw [locate, components, steps, pieces]
  cases habsolute : p.isAbsolute with
  | true =>
    obtain ⟨rest, hrest⟩ := List.head?_eq_some_iff.1 (of_decide_eq_true habsolute)
    rw [hrest]
    rfl
  | false =>
    have hhead : p.text.toList.head? ≠ some '/' := of_decide_eq_false habsolute
    obtain ⟨first, others, hcut⟩ :=
      List.exists_cons_of_ne_nil (Text.pieces_ne_nil '/' p.text.toList)
    rw [piecesOf_relative hhead hcut, hcut]
    exact foldl_enter_leading here first _

/-- Steps up in the text are components. -/
theorem up_mem_components {p : Path} (h : ['.', '.'] ∈ Text.pieces '/' p.text.toList) :
    .up ∈ p.components := by
  have hup : ∀ ps : List (List Char), ['.', '.'] ∈ ps →
      .up ∈ (ps.map Piece.inner).filterMap (·.component?) := fun ps hps =>
    List.mem_filterMap.2 ⟨_, List.mem_map_of_mem hps, component_inner_up⟩
  have hsteps : .up ∈ p.steps := by
    rw [steps, pieces]
    by_cases hhead : p.text.toList.head? = some '/'
    · obtain ⟨rest, hrest⟩ := List.head?_eq_some_iff.1 hhead
      rw [hrest, Text.pieces, if_pos rfl] at h
      rw [hrest]
      exact hup _ ((List.mem_cons.1 h).resolve_left (by decide))
    · obtain ⟨first, others, hcut⟩ :=
        List.exists_cons_of_ne_nil (Text.pieces_ne_nil '/' p.text.toList)
      rw [piecesOf_relative hhead hcut]
      rw [hcut] at h
      rcases List.mem_cons.1 h with rfl | h
      · exact List.mem_cons_self
      · rw [List.filterMap_cons]
        split
        · exact hup _ h
        · exact List.mem_cons_of_mem _ (hup _ h)
  unfold components
  split
  · exact List.mem_cons_of_mem _ hsteps
  · exact hsteps

theorem properNames_enter {here : Location} (hhere : ∀ n ∈ here, ProperName n) {c : Component}
    (hc : ∀ n, c = .name n → ProperName n) : ∀ n ∈ enter here c, ProperName n := by
  intro n hn
  cases c with
  | root => cases hn
  | here => exact hhere n hn
  | up => exact hhere n (List.dropLast_subset _ hn)
  | name m =>
    exact List.forall_mem_append.2 ⟨hhere, List.forall_mem_singleton.2 (hc m rfl)⟩ n hn

theorem properNames_locate (p : Path) {here : Location} (h : ∀ n ∈ here, ProperName n) :
    ∀ n ∈ p.locate here, ProperName n := by
  have hall : ∀ (cs : List Component) (here : Location), (∀ n ∈ here, ProperName n) →
      (∀ c ∈ cs, ∀ n, c = .name n → ProperName n) → ∀ n ∈ cs.foldl enter here, ProperName n := by
    intro cs
    induction cs with
    | nil => exact fun _ hhere _ => hhere
    | cons c rest ih =>
      intro here hhere hcs
      exact ih _ (properNames_enter hhere (hcs c List.mem_cons_self)) fun d hd =>
        hcs d (List.mem_cons_of_mem _ hd)
  refine hall _ here h fun c hc n hn => ?_
  have hsteps : c ∈ p.steps := by
    unfold components at hc
    split at hc
    · rcases List.mem_cons.1 hc with rfl | hc
      · cases hn
      · exact hc
    · exact hc
  exact (mem_steps hsteps).2 n hn

end Path

namespace Disk

open MarkupScene.Path

def Place.location : Place → Location
  | found l _ => l
  | free l => l

def Place.entry? : Place → Option Entry
  | found _ e => some e
  | free _ => none

/-- A piece that names an entry. -/
structure IsName (piece : List Char) : Prop where
  loud : ¬(piece = [] ∨ piece = ['.'])
  notUp : piece ≠ ['.', '.']
  size : Text.byteSize piece ≤ nameLimit

/-- How a walk that succeeds goes along its pieces. -/
inductive Walks (d : Disk) : Location → List (List Char) → Place → Prop where
  | done (here : Location) : Walks d here [] (.found here .directory)
  | silent {here : Location} {piece : List Char} {rest : List (List Char)} {place : Place}
      (hpiece : piece = [] ∨ piece = ['.']) (h : Walks d here rest place) :
      Walks d here (piece :: rest) place
  | up {here : Location} {rest : List (List Char)} {place : Place}
      (h : Walks d here.dropLast rest place) : Walks d here (['.', '.'] :: rest) place
  | enter {here : Location} {piece : List Char} {rest : List (List Char)} {place : Place}
      (hpiece : IsName piece) (hentry : d.entry? (here ++ [.ofList piece]) = some .directory)
      (h : Walks d (here ++ [.ofList piece]) rest place) : Walks d here (piece :: rest) place
  | file {here : Location} {piece : List Char} {rest : List (List Char)} {content : ByteArray}
      (hpiece : IsName piece) (hentry : d.entry? (here ++ [.ofList piece]) = some (.file content))
      (hrest : rest = []) :
      Walks d here (piece :: rest) (.found (here ++ [.ofList piece]) (.file content))
  | free {here : Location} {piece : List Char} {rest : List (List Char)} (hpiece : IsName piece)
      (hentry : d.entry? (here ++ [.ofList piece]) = none)
      (hrest : rest.all (·.isEmpty) = true) :
      Walks d here (piece :: rest) (.free (here ++ [.ofList piece]))

theorem walkFrom_silent (d : Disk) (here : Location) {piece : List Char}
    (hpiece : piece = [] ∨ piece = ['.']) (rest : List (List Char)) :
    d.walkFrom here (piece :: rest) = d.walkFrom here rest := by
  rw [walkFrom, if_pos hpiece]

theorem walkFrom_up (d : Disk) (here : Location) (rest : List (List Char)) :
    d.walkFrom here (['.', '.'] :: rest) = d.walkFrom here.dropLast rest := rfl

theorem walkFrom_isName (d : Disk) (here : Location) {piece : List Char} (hpiece : IsName piece)
    (rest : List (List Char)) :
    d.walkFrom here (piece :: rest) = match d.entry? (here ++ [.ofList piece]) with
      | some .directory => d.walkFrom (here ++ [.ofList piece]) rest
      | some (.file content) =>
        if rest = [] then .ok (.found (here ++ [.ofList piece]) (.file content))
        else .error .notADirectory
      | none =>
        if rest.all (·.isEmpty) then .ok (.free (here ++ [.ofList piece]))
        else .error .notFound := by
  refine (if_neg hpiece.loud).trans ((if_neg hpiece.notUp).trans ?_)
  exact if_neg (Nat.not_lt.2 hpiece.size)

theorem walkFrom_name (d : Disk) (here : Location) {name : String} (hname : ProperName name) :
    d.walkFrom here [name.toList] =
      if Text.byteSize name.toList ≤ nameLimit then
        match d.entry? (here ++ [name]) with
        | some e => .ok (.found (here ++ [name]) e)
        | none => .ok (.free (here ++ [name]))
      else .error .nameTooLong := by
  have hloud : ¬(name.toList = [] ∨ name.toList = ['.']) := not_or.2 ⟨hname.1, hname.2.1⟩
  by_cases hsize : Text.byteSize name.toList ≤ nameLimit
  · rw [if_pos hsize, walkFrom_isName d here ⟨hloud, hname.2.2.1, hsize⟩, String.ofList_toList]
    cases d.entry? (here ++ [name]) with
    | none => rfl
    | some e => cases e <;> rfl
  · rw [if_neg hsize, walkFrom, if_neg hloud, if_neg hname.2.2.1, if_pos (Nat.lt_of_not_le hsize)]

theorem walks_of_walkFrom {d : Disk} {here : Location} {ps : List (List Char)} {place : Place}
    (h : d.walkFrom here ps = .ok place) : Walks d here ps place := by
  induction ps generalizing here with
  | nil =>
    obtain rfl := Except.ok.inj h
    exact .done here
  | cons piece rest ih =>
    rw [walkFrom] at h
    split at h
    · next hsilent => exact .silent hsilent (ih h)
    · next hloud =>
      split at h
      · next hup =>
        subst hup
        exact .up (ih h)
      · next hname =>
        split at h
        · cases h
        · next hsize =>
          have hpiece : IsName piece := ⟨hloud, hname, Nat.le_of_not_lt hsize⟩
          dsimp only at h
          split at h
          · next hentry => exact .enter hpiece hentry (ih h)
          · next hentry =>
            split at h
            · next hrest =>
              obtain rfl := Except.ok.inj h
              exact .file hpiece hentry hrest
            · cases h
          · next hentry =>
            split at h
            · next hrest =>
              obtain rfl := Except.ok.inj h
              exact .free hpiece hentry hrest
            · cases h

namespace Walks
variable {d : Disk} {here : Location} {ps : List (List Char)} {place : Place}

theorem walkFrom_eq (h : Walks d here ps place) : d.walkFrom here ps = .ok place := by
  induction h with
  | done here => rfl
  | silent hpiece _ ih => rw [walkFrom_silent d _ hpiece, ih]
  | up _ ih => rw [walkFrom_up, ih]
  | enter hpiece hentry _ ih =>
    rw [walkFrom_isName d _ hpiece, hentry]
    exact ih
  | file hpiece hentry hrest =>
    rw [walkFrom_isName d _ hpiece, hentry]
    exact if_pos hrest
  | free hpiece hentry hrest =>
    rw [walkFrom_isName d _ hpiece, hentry]
    exact if_pos hrest

/-- A walk ends where its pieces lead. -/
theorem location (h : Walks d here ps place) : place.location = leads here ps := by
  induction h with
  | done here => rfl
  | silent hpiece _ ih => rw [leads_silent _ hpiece, ih]
  | up _ ih => exact ih
  | enter hpiece _ _ ih => rw [leads_name _ hpiece.loud hpiece.notUp, ih]
  | file hpiece _ hrest =>
    rw [leads_name _ hpiece.loud hpiece.notUp, hrest]
    rfl
  | free hpiece _ hrest =>
    rw [leads_name _ hpiece.loud hpiece.notUp, leads_of_empty _ hrest]
    rfl

/-- What a walk ends at is what the disk has there, unless it is a directory: one that was left by a
step up need not be an entry. -/
theorem entry? (h : Walks d here ps place) :
    place.entry? = some .directory ∨ d.entry? place.location = place.entry? := by
  induction h with
  | done here => exact .inl rfl
  | silent _ _ ih => exact ih
  | up _ ih => exact ih
  | enter _ _ _ ih => exact ih
  | file _ hentry _ => exact .inr hentry
  | free _ hentry _ => exact .inr hentry

theorem entry?_free {l : Location} (h : Walks d here ps (.free l)) : d.entry? l = none := by
  rcases h.entry? with hdirectory | hentry
  · cases hdirectory
  · exact hentry

theorem entry?_file {l : Location} {content : ByteArray}
    (h : Walks d here ps (.found l (.file content))) : d.entry? l = some (.file content) := by
  rcases h.entry? with hdirectory | hentry
  · cases hdirectory
  · exact hentry

end Walks

theorem walks_of_empty (d : Disk) (here : Location) {ps : List (List Char)}
    (h : ps.all (·.isEmpty) = true) : Walks d here ps (.found here .directory) := by
  induction ps with
  | nil => exact .done here
  | cons piece rest ih =>
    rw [List.all_cons, Bool.and_eq_true, List.isEmpty_iff] at h
    exact .silent (.inl h.1) (ih h.2)

theorem walks_of_walk {d : Disk} {p : Path} {place : Place} (h : d.walk p = .ok place) :
    Walks d (if p.isAbsolute then [] else d.working) (Text.pieces '/' p.text.toList) place := by
  unfold walk at h
  dsimp only at h
  split at h
  · cases h
  · split at h
    · cases h
    · split at h
      · cases h
      · exact walks_of_walkFrom h

theorem walkFrom_of_missing {d : Disk} {p : Path} (hp : p.text ≠ "")
    (h : d.walk p = .error .notFound) :
    d.walkFrom (if p.isAbsolute then [] else d.working) (Text.pieces '/' p.text.toList) =
      .error .notFound := by
  unfold walk at h
  dsimp only at h
  split at h
  · cases h
  · split at h
    · cases h
    · split at h
      · next hnil => exact absurd (String.toList_eq_nil_iff.1 hnil) hp
      · exact h

theorem location_of_walk {d : Disk} {p : Path} {place : Place} (h : d.walk p = .ok place) :
    place.location = p.locate d.working := by
  rw [(walks_of_walk h).location, locate_eq]

theorem lookup_putEntry_of_ne {l k : Location} (h : k ≠ l) (e : Entry)
    (entries : List (Location × Entry)) :
    (putEntry l e entries).lookup k = entries.lookup k := by
  have hne : (k == l) = false := by simpa using h
  induction entries with
  | nil => rw [putEntry, List.lookup_cons, hne]
  | cons x rest ih =>
    obtain ⟨key, value⟩ := x
    unfold putEntry
    split
    · next hkey =>
      subst hkey
      rw [List.lookup_cons, List.lookup_cons, hne]
    · rw [List.lookup_cons, List.lookup_cons, ih]

theorem lookup_putEntry_self (l : Location) (e : Entry) (entries : List (Location × Entry)) :
    (putEntry l e entries).lookup l = some e := by
  induction entries with
  | nil => simp [putEntry]
  | cons x rest ih =>
    obtain ⟨key, value⟩ := x
    unfold putEntry
    split
    · simp
    · next hkey =>
      have hne : (l == key) = false := by simpa using Ne.symm hkey
      rw [List.lookup_cons, hne, ih]

theorem mem_putEntry {l : Location} {e : Entry} {entries : List (Location × Entry)}
    {x : Location × Entry} (h : x ∈ putEntry l e entries) : x = (l, e) ∨ x ∈ entries := by
  induction entries with
  | nil => exact .inl (List.mem_singleton.1 h)
  | cons y rest ih =>
    obtain ⟨key, value⟩ := y
    unfold putEntry at h
    split at h
    · exact (List.mem_cons.1 h).imp_right (List.mem_cons_of_mem _)
    · rcases List.mem_cons.1 h with rfl | h
      · exact .inr List.mem_cons_self
      · exact (ih h).imp_right (List.mem_cons_of_mem _)

theorem entry?_put_of_ne (d : Disk) {l k : Location} (h : k ≠ l) (e : Entry) :
    entry? (d.put l e) k = d.entry? k := by
  unfold entry? put
  rw [lookup_putEntry_of_ne h]

theorem entry?_put_directory (d : Disk) (l : Location) :
    entry? (d.put l .directory) l = some .directory := by
  unfold entry? put
  split
  · rfl
  · exact lookup_putEntry_self l _ _

/-- All names on the way to an entry are names of files. -/
structure Proper (d : Disk) : Prop where
  working : ∀ n ∈ d.working, ProperName n
  entries : ∀ x ∈ d.entries, ∀ n ∈ x.1, ProperName n

theorem Proper.put {d : Disk} (hd : d.Proper) {l : Location} (hl : ∀ n ∈ l, ProperName n)
    (e : Entry) : (d.put l e).Proper where
  working := hd.working
  entries x hx := by
    rcases mem_putEntry hx with rfl | hx
    · exact hl
    · exact hd.entries x hx

theorem Proper.location {d : Disk} (hd : d.Proper) {p : Path} {place : Place}
    (h : d.walk p = .ok place) : ∀ n ∈ place.location, ProperName n := by
  rw [location_of_walk h]
  exact p.properNames_locate hd.working

/-- A change of a file tree that leaves all files outside of some locations alone. -/
structure Writes (inside : Location → Prop) (d d' : Disk) : Prop where
  working : d'.working = d.working
  proper : d.Proper → d'.Proper
  outside {l : Location} : ¬inside l → ∀ content,
    d'.entry? l = some (.file content) ↔ d.entry? l = some (.file content)

namespace Writes
variable {inside more : Location → Prop} {d d' d'' : Disk}

theorem refl (d : Disk) : Writes inside d d where
  working := rfl
  proper := id
  outside _ _ := .rfl

theorem trans (h : Writes inside d d') (h' : Writes inside d' d'') : Writes inside d d'' where
  working := h'.working.trans h.working
  proper hd := h'.proper (h.proper hd)
  outside hl content := (h'.outside hl content).trans (h.outside hl content)

theorem mono (hmore : ∀ l, inside l → more l) (h : Writes inside d d') : Writes more d d' where
  working := h.working
  proper := h.proper
  outside hl := h.outside fun hin => hl (hmore _ hin)

end Writes

/-- Writing a file changes the file where the path leads. -/
theorem writeBytes_writes {d d' : Disk} {p : Path} {content : ByteArray}
    (h : d.writeBytes p content = .ok d') : Writes (· = p.locate d.working) d d' := by
  have hput : ∀ {place : Place}, d.walk p = .ok place →
      Writes (· = p.locate d.working) d (d.put place.location (.file content)) := fun hwalk =>
    { working := rfl
      proper := fun hd => hd.put (hd.location hwalk) _
      outside := fun hl _ => by rw [entry?_put_of_ne d (location_of_walk hwalk ▸ hl)] }
  unfold writeBytes at h
  split at h
  · next hwalk =>
    obtain rfl := Except.ok.inj h
    exact hput hwalk
  · cases h
  · next hwalk =>
    split at h
    · cases h
    · obtain rfl := Except.ok.inj h
      exact hput hwalk
  · cases h

theorem writeText_writes {d d' : Disk} {p : Path} {text : String}
    (h : d.writeText p text = .ok d') : Writes (· = p.locate d.working) d d' :=
  writeBytes_writes h

theorem copy_writes {d d' : Disk} {source target : Path} (h : d.copy source target = .ok d') :
    Writes (· = target.locate d.working) d d' := by
  unfold copy at h
  split at h
  · exact writeBytes_writes h
  · cases h

theorem makeDirectory_writes {d d' : Disk} {p : Path} (h : d.makeDirectory p = .ok d') :
    Writes (fun _ => False) d d' := by
  unfold makeDirectory at h
  split at h
  · next l hwalk =>
    obtain rfl := Except.ok.inj h
    refine ⟨rfl, fun hd => hd.put (hd.location hwalk) _, fun {k} _ content => ?_⟩
    by_cases hk : k = l
    · subst hk
      rw [entry?_put_directory, (walks_of_walk hwalk).entry?_free]
      simp
    · rw [entry?_put_of_ne d hk]
  · cases h
  · cases h

theorem ensureDirectory_writes (d : Disk) (p : Path) :
    Writes (fun _ => False) d (d.ensureDirectory p).2 := by
  unfold ensureDirectory
  split
  · next h => exact makeDirectory_writes h
  · exact .refl d

theorem makeBelow_writes (d : Disk) (p : Path) (depth : Nat) :
    Writes (fun _ => False) d (d.makeBelow p depth).2 := by
  induction depth generalizing p with
  | zero => exact d.ensureDirectory_writes p
  | succ depth ih =>
    unfold makeBelow
    split
    · exact .refl d
    · split
      · next h => exact makeDirectory_writes h
      · split
        · next parent _ =>
          have hparent := ih parent
          split
          · next made hmade =>
            rw [hmade] at hparent
            exact hparent.trans (made.ensureDirectory_writes p)
          · next made hmade =>
            rw [hmade] at hparent
            exact hparent
        · exact .refl d
      · exact .refl d

/-- Making directories changes no file. -/
theorem makeDirectories_writes (d : Disk) (p : Path) :
    Writes (fun _ => False) d (d.makeDirectories p).2 :=
  d.makeBelow_writes p _

end Disk

end MarkupScene
