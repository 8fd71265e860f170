import MarkupScene.Path.Normal

/-!
# Joined and relative paths

How the operations on paths act on components. Joining names to a path puts them after its
components, and normalizing leaves them there. The parent of a normal path lacks its last component,
and a normal path is relative to a base exactly when its components start with those of the base, as
they are spelled. The main statement says where a file below a base is found relative to it.
-/
namespace MarkupScene

namespace Text

theorem pieces_append (sep : Char) (s rest : List Char) :
    pieces sep (s ++ sep :: rest) = pieces sep s ++ pieces sep rest := by
  induction s with
  | nil => simp [pieces]
  | cons c s ih =>
    rw [List.cons_append, pieces, pieces, ih]
    split
    · rfl
    · obtain ⟨p, ps, hp⟩ := List.exists_cons_of_ne_nil (pieces_ne_nil sep s)
      rw [hp]
      rfl

end Text

namespace Path

/-- The path along the given names. -/
def ofNames (names : List String) : Path := ⟨"/".intercalate names⟩

theorem ofNames_singleton (name : String) : ofNames [name] = ⟨name⟩ := rfl

theorem properName_append {stem tail : String} (hstem : '/' ∉ stem.toList)
    (htail : '/' ∉ tail.toList) (hlength : 3 ≤ tail.toList.length) :
    ProperName (stem ++ tail) := by
  have hne : ∀ cs : List Char, cs.length ≤ 2 → (stem ++ tail).toList ≠ cs := by
    intro cs hcs h
    have hsize := congrArg List.length h
    rw [String.toList_append, List.length_append] at hsize
    omega
  refine ⟨hne _ (by simp), hne _ (by simp), hne _ (by simp), ?_⟩
  rw [String.toList_append]
  simp [hstem, htail]

theorem toList_ofNames (names : List String) :
    (ofNames names).text.toList = ['/'].intercalate (names.map String.toList) := by
  rw [ofNames, String.toList_intercalate]
  rfl

theorem stepwise_names {names : List String} (h : ∀ n ∈ names, ProperName n) :
    Stepwise (names.map .name) := by
  induction names with
  | nil => exact .nil
  | cons n rest ih =>
    exact .name (h n List.mem_cons_self) (ih fun m hm => h m (List.mem_cons_of_mem _ hm))

theorem ofNames_eq (names : List String) :
    ofNames names =
      ofChars (['/'].intercalate ((names.map Component.name).map Component.chars)) := by
  have hchars : (names.map Component.name).map Component.chars = names.map String.toList := by
    rw [List.map_map]
    rfl
  rw [hchars, ← toList_ofNames, ofChars, String.ofList_toList]

theorem components_ofNames {names : List String} (h : ∀ n ∈ names, ProperName n) :
    (ofNames names).components = names.map .name := by
  rw [ofNames_eq]
  exact (stepwise_names h).components_relative

theorem isAbsolute_ofNames {names : List String} (h : ∀ n ∈ names, ProperName n) :
    (ofNames names).isAbsolute = false := by
  have hhead := (stepwise_names h).head_ne_slash
  rw [ofNames_eq, isAbsolute, ofChars, String.toList_ofList]
  exact decide_eq_false hhead

theorem isAbsolute_name {name : String} (h : ProperName name) :
    (⟨name⟩ : Path).isAbsolute = false := by
  rw [← ofNames_singleton]
  exact isAbsolute_ofNames (List.forall_mem_singleton.2 h)

def innerPieces (cs : List Char) : List Piece := (Text.pieces '/' cs).map .inner

theorem piecesOf_relative {cs first : List Char} {others : List (List Char)}
    (hhead : cs.head? ≠ some '/') (hcut : Text.pieces '/' cs = first :: others) :
    piecesOf cs = .leading first :: others.map .inner := by
  unfold piecesOf
  split
  · exact absurd rfl hhead
  · rw [hcut]

theorem piecesOf_append_slash {cs : List Char} (rest : List Char) (h : cs ≠ []) :
    piecesOf (cs ++ '/' :: rest) = piecesOf cs ++ innerPieces rest := by
  obtain ⟨c, s, rfl⟩ := List.exists_cons_of_ne_nil h
  by_cases hc : c = '/'
  · subst hc
    rw [List.cons_append, piecesOf, piecesOf, Text.pieces_append, List.map_append]
    rfl
  · have hhead : ∀ t, (c :: t).head? ≠ some '/' := fun t h => hc (Option.some.inj h)
    obtain ⟨first, others, hfirst⟩ := List.exists_cons_of_ne_nil
      (Text.pieces_ne_nil '/' (c :: s))
    have hjoined : Text.pieces '/' (c :: (s ++ '/' :: rest)) =
        first :: (others ++ Text.pieces '/' rest) := by
      rw [← List.cons_append, Text.pieces_append, hfirst, List.cons_append]
    rw [List.cons_append, piecesOf_relative (hhead s) hfirst,
      piecesOf_relative (hhead (s ++ '/' :: rest)) hjoined, List.map_append]
    rfl

theorem components_innerPieces {names : List String} (h : ∀ n ∈ names, ProperName n) :
    (innerPieces (ofNames names).text.toList).filterMap (·.component?) = names.map .name := by
  have hchars : names.map String.toList = (names.map Component.name).map Component.chars := by
    rw [List.map_map]
    rfl
  rw [toList_ofNames, hchars]
  exact (stepwise_names h).ofPieces

theorem exists_join {base p : Path} (hbase : base.text ≠ "") (hp : p.isAbsolute = false) :
    ∃ front, (base.join p).text.toList = front ++ '/' :: p.text.toList ∧
      (base.text.toList = front ∨ base.text.toList = front ++ ['/']) := by
  have hempty : base.text.isEmpty = false := by simpa using hbase
  unfold join
  rw [hp, hempty]
  by_cases hlast : base.text.toList.getLast? = some '/'
  · obtain ⟨front, hfront⟩ := List.getLast?_eq_some_iff.1 hlast
    refine ⟨front, ?_, .inr hfront⟩
    simp [hfront]
  · refine ⟨base.text.toList, ?_, .inl rfl⟩
    simp [hlast]

/-- A relative path starts where its base does. -/
theorem isAbsolute_join {base p : Path} (hbase : base.text ≠ "") (hp : p.isAbsolute = false) :
    (base.join p).isAbsolute = base.isAbsolute := by
  obtain ⟨front, hjoin, hfront⟩ := exists_join hbase hp
  have hhead : ∀ rest : List Char, front ≠ [] → (front ++ rest).head? = front.head? := by
    intro rest hne
    obtain ⟨c, cs, rfl⟩ := List.exists_cons_of_ne_nil hne
    rfl
  rw [isAbsolute, isAbsolute, hjoin]
  by_cases hnil : front = []
  · subst hnil
    rcases hfront with hfront | hfront
    · exact absurd (String.toList_eq_nil_iff.1 hfront) hbase
    · rw [hfront]
      rfl
  · rw [hhead _ hnil]
    rcases hfront with hfront | hfront
    · rw [hfront]
    · rw [hfront, hhead _ hnil]

/-- What follows a slash adds its components. -/
theorem components_append_slash (front rest : List Char) :
    (ofChars (front ++ '/' :: rest)).components =
      (ofChars (front ++ ['/'])).components ++ (innerPieces rest).filterMap (·.component?) := by
  cases front with
  | nil =>
    have habsolute : ∀ t, (ofChars ('/' :: t)).components =
        .root :: (innerPieces t).filterMap (·.component?) := by
      intro t
      simp only [components, isAbsolute, steps, Path.pieces, ofChars, String.toList_ofList,
        piecesOf, List.head?_cons, decide_true, if_true, innerPieces]
    rw [List.nil_append, List.nil_append, habsolute, habsolute]
    rfl
  | cons c front =>
    have hne : c :: front ≠ [] := List.cons_ne_nil c front
    have hsteps : ∀ t, (ofChars (c :: front ++ '/' :: t)).steps =
        (piecesOf (c :: front)).filterMap (·.component?) ++
          (innerPieces t).filterMap (·.component?) := by
      intro t
      rw [steps, Path.pieces, ofChars, String.toList_ofList, piecesOf_append_slash t hne,
        List.filterMap_append]
    have hsilent : (innerPieces []).filterMap (·.component?) = [] := rfl
    have hhead : ∀ t, (ofChars (c :: front ++ '/' :: t)).isAbsolute = decide (c = '/') := by
      intro t
      simp [isAbsolute, ofChars]
    simp only [components, hsteps, hhead, hsilent, List.append_nil]
    split
    · rfl
    · rfl

theorem components_slash {front : List Char} (h : front ≠ []) :
    (ofChars (front ++ ['/'])).components = (ofChars front).components := by
  have hsteps : (ofChars (front ++ ['/'])).steps = (ofChars front).steps := by
    rw [steps, steps, Path.pieces, Path.pieces, ofChars, ofChars, String.toList_ofList,
      String.toList_ofList, piecesOf_append_slash [] h, List.filterMap_append]
    exact List.append_nil _
  obtain ⟨c, rest, rfl⟩ := List.exists_cons_of_ne_nil h
  have hhead : (ofChars (c :: rest ++ ['/'])).isAbsolute = (ofChars (c :: rest)).isAbsolute := by
    simp [isAbsolute, ofChars]
  rw [components, components, hsteps, hhead]

theorem ofChars_toList (p : Path) : ofChars p.text.toList = p := by
  rw [ofChars, String.ofList_toList]

/-- Names that are joined come after the components. -/
theorem components_join_ofNames (base : Path) {names : List String}
    (h : ∀ n ∈ names, ProperName n) :
    (base.join (ofNames names)).components = base.components ++ names.map .name := by
  have hrelative := isAbsolute_ofNames h
  by_cases hbase : base.text = ""
  · have hjoin : base.join (ofNames names) = ofNames names := by
      simp [join, hrelative, hbase]
    have hnone : base.components = [] := by
      obtain ⟨text⟩ := base
      obtain rfl : text = "" := hbase
      rfl
    rw [hjoin, hnone, components_ofNames h]
    rfl
  · obtain ⟨front, hjoin, hfront⟩ := exists_join hbase hrelative
    rw [← ofChars_toList (base.join _), hjoin, components_append_slash, components_innerPieces h,
      ← ofChars_toList base]
    rcases hfront with hfront | hfront
    · have hne : front ≠ [] := by
        rintro rfl
        exact hbase (by simpa using hfront)
      rw [hfront, components_slash hne]
    · rw [hfront]

theorem components_join_name (base : Path) {name : String} (h : ProperName name) :
    (base.join ⟨name⟩).components = base.components ++ [.name name] := by
  rw [← ofNames_singleton, components_join_ofNames base (List.forall_mem_singleton.2 h)]
  rfl

/-- Normalizing leaves names at the end where they are. -/
theorem normalize_join_ofNames (base : Path) {names : List String}
    (h : ∀ n ∈ names, ProperName n) :
    (base.join (ofNames names)).normalize =
      ofComponents (base.normalize.components ++ names.map .name) := by
  have hstep : ∀ (names : List String) (read : List Component),
      (names.map Component.name).foldl normalStep read = (names.map .name).reverse ++ read := by
    intro names
    induction names with
    | nil => exact fun _ => rfl
    | cons n rest ih =>
      intro read
      have hname : normalStep read (.name n) = .name n :: read := by
        cases read with
        | nil => rfl
        | cons c read => cases c <;> rfl
      rw [List.map_cons, List.foldl_cons, hname, ih, List.reverse_cons, List.append_assoc]
      rfl
  rw [normalize, components_join_ofNames base h, normalStack, List.foldl_append, hstep,
    List.reverse_append, List.reverse_reverse, components_normalize, normalStack]

/-- The piece that a step of a normal path is spelled as. -/
def Component.piece (c : Component) : Piece := ⟨c.chars, some c⟩

abbrev ofSteps (absolute : Bool) (cs : List Component) : Path :=
  ofPieces absolute (cs.map Component.piece)

/-- The components of a path with given steps. -/
abbrev rooted (absolute : Bool) (cs : List Component) : List Component :=
  (if absolute then [.root] else []) ++ cs

theorem map_chars_piece (cs : List Component) :
    (cs.map Component.piece).map (·.chars) = cs.map Component.chars := by
  rw [List.map_map]
  rfl

theorem Stepwise.map_inner {cs : List Component} (h : Stepwise cs) :
    (cs.map Component.chars).map Piece.inner = cs.map Component.piece := by
  induction h with
  | nil => rfl
  | up _ ih =>
    rw [List.map_cons, List.map_cons, List.map_cons, ih]
    rfl
  | name hn _ ih =>
    rw [List.map_cons, List.map_cons, List.map_cons, ih]
    refine congrArg (· :: _) ?_
    simp [Piece.inner, Component.piece, Component.chars, hn.1, hn.2.1, hn.2.2.1]

/-- The pieces of a path that is spelled by its steps are these steps. -/
theorem pieces_ofSteps (absolute : Bool) {cs : List Component} (h : Stepwise cs) (hne : cs ≠ []) :
    (ofSteps absolute cs).pieces = cs.map Component.piece ∧
      (ofSteps absolute cs).isAbsolute = absolute := by
  have hcut : Text.pieces '/' (['/'].intercalate (cs.map Component.chars)) =
      cs.map Component.chars :=
    Text.pieces_intercalate (by simpa using hne) h.not_mem_slash
  have hhead := h.head_ne_slash
  rw [Path.pieces, isAbsolute, ofSteps, ofPieces, ofChars, String.toList_ofList, map_chars_piece]
  cases absolute with
  | true =>
    refine ⟨?_, by simp⟩
    change (Text.pieces '/' (['/'].intercalate (cs.map Component.chars))).map Piece.inner = _
    rw [hcut, h.map_inner]
  | false =>
    simp only [Bool.false_eq_true, if_false, List.nil_append]
    refine ⟨?_, decide_eq_false hhead⟩
    generalize ['/'].intercalate (cs.map Component.chars) = text at hcut hhead
    unfold piecesOf
    split
    · exact absurd rfl hhead
    · rw [hcut, ← h.map_inner]
      obtain ⟨c, rest, rfl⟩ := List.exists_cons_of_ne_nil hne
      rw [List.map_cons, List.map_cons]
      dsimp only
      rw [h.leading_eq_inner c.chars List.mem_cons_self]

theorem components_ofSteps (absolute : Bool) {cs : List Component} (h : Stepwise cs)
    (hne : cs ≠ []) : (ofSteps absolute cs).components = rooted absolute cs := by
  obtain ⟨hpieces, habsolute⟩ := pieces_ofSteps absolute h hne
  have hsteps : (ofSteps absolute cs).steps = cs := by
    rw [steps, hpieces, List.filterMap_map]
    exact List.filterMap_some
  rw [components, habsolute, hsteps]
  cases absolute <;> rfl

theorem ofSteps_names (names : List String) :
    ofSteps false (names.map .name) = ofNames names := by
  rw [ofNames_eq, ofSteps, ofPieces, map_chars_piece]
  rfl

theorem ofComponents_rooted (absolute : Bool) {cs : List Component} (h : Stepwise cs) :
    ofComponents (rooted absolute cs) = ofSteps absolute cs := by
  rw [ofSteps, ofPieces, map_chars_piece]
  cases absolute with
  | true => rfl
  | false => cases h <;> rfl

theorem NormalStack.exists_rooted {s : List Component} (h : NormalStack s) :
    ∃ absolute cs, Stepwise cs ∧ s.reverse = rooted absolute cs := by
  rcases h.stepwise with hs | ⟨cs, hcs, hs⟩
  · exact ⟨false, s.reverse, hs, rfl⟩
  · exact ⟨true, cs, hs, hcs⟩

/-- What is left of normal components without the last ones is normal. -/
theorem NormalStack.of_suffix {s t : List Component} (h : NormalStack t) (hs : s <:+ t) :
    NormalStack s := by
  induction h with
  | nil =>
    rw [List.suffix_nil.1 hs]
    exact .nil
  | root =>
    rcases List.suffix_cons_iff.1 hs with rfl | hs
    · exact .root
    · rw [List.suffix_nil.1 hs]
      exact .nil
  | up h hall ih =>
    rcases List.suffix_cons_iff.1 hs with rfl | hs
    · exact .up h hall
    · exact ih hs
  | name h hn ih =>
    rcases List.suffix_cons_iff.1 hs with rfl | hs
    · exact .name h hn
    · exact ih hs

theorem normalize_of_beginning {base p : Path}
    (h : base.components <+: p.normalize.components) :
    base.normalize.components = base.components := by
  rw [components_normalize, ← List.reverse_suffix, List.reverse_reverse] at h
  have hnormal := ((normalStack_components p).of_suffix h).normalStack_reverse
  rw [List.reverse_reverse] at hnormal
  rw [components_normalize, hnormal, List.reverse_reverse]

theorem dropWhile_silent (cs : List Component) :
    (cs.map Component.piece).dropWhile (·.isSilent) = cs.map Component.piece := by
  cases cs with
  | nil => rfl
  | cons c cs => rfl

theorem piecesFromEnd_ofSteps (absolute : Bool) {cs : List Component} (h : Stepwise cs)
    (hne : cs ≠ []) :
    (ofSteps absolute cs).piecesFromEnd = (cs.reverse.map Component.piece) := by
  rw [piecesFromEnd, (pieces_ofSteps absolute h hne).1, ← List.map_reverse, dropWhile_silent]

theorem parent?_ofSteps (absolute : Bool) {cs : List Component} {c : Component}
    (h : Stepwise (cs ++ [c])) :
    (ofSteps absolute (cs ++ [c])).parent? = some (ofSteps absolute cs) := by
  have hne : cs ++ [c] ≠ [] := by simp
  rw [parent?, piecesFromEnd_ofSteps absolute h hne, (pieces_ofSteps absolute h hne).2,
    List.reverse_append, List.reverse_singleton, List.singleton_append, List.map_cons]
  dsimp only
  rw [dropWhile_silent, ← List.map_reverse, List.reverse_reverse]

theorem fileName?_ofSteps (absolute : Bool) {cs : List Component} {n : String}
    (h : Stepwise (cs ++ [.name n])) :
    (ofSteps absolute (cs ++ [.name n])).fileName? = some n := by
  rw [fileName?, piecesFromEnd_ofSteps absolute h (by simp), List.reverse_append]
  rfl

theorem properName_of_fileName? {p : Path} {n : String} (h : p.fileName? = some n) :
    ProperName n := by
  unfold fileName? at h
  split at h
  · next m hm =>
    obtain rfl := Option.some.inj h
    obtain ⟨piece, hpiece, hname⟩ := Option.bind_eq_some_iff.1 hm
    have hmem : piece ∈ p.pieces := by
      have hend : piece ∈ p.piecesFromEnd := List.mem_of_head? hpiece
      exact List.mem_reverse.1 ((List.dropWhile_suffix _).subset hend)
    exact (mem_steps (List.mem_filterMap.2 ⟨piece, hmem, hname⟩)).2 m rfl
  · cases h

theorem dropComponents_append (cs rest : List Component) :
    dropComponents cs ((cs ++ rest).map Component.piece) = some (rest.map Component.piece) := by
  induction cs with
  | nil => cases rest <;> rfl
  | cons c cs ih => simp [dropComponents, Component.piece] at ih ⊢; exact ih

/-- Only components at the beginning can be dropped. -/
theorem prefix_of_dropComponents {cs : List Component} {ps rest : List Piece}
    (h : dropComponents cs ps = some rest) : cs <+: ps.filterMap (·.component?) := by
  induction ps generalizing cs with
  | nil =>
    cases cs with
    | nil => exact List.nil_prefix
    | cons c cs => cases h
  | cons p ps ih =>
    cases cs with
    | nil => exact List.nil_prefix
    | cons c cs =>
      rw [dropComponents] at h
      cases hp : p.component? with
      | none =>
        rw [hp] at h
        rw [List.filterMap_cons_none hp]
        exact ih h
      | some d =>
        rw [hp] at h
        dsimp only at h
        split at h
        · next hsame =>
          rw [List.filterMap_cons_some hp, hsame]
          exact List.cons_prefix_cons.2 ⟨rfl, ih h⟩
        · cases h

theorem prefix_of_relativeTo? {p base q : Path} (h : p.relativeTo? base = some q) :
    base.components <+: p.components := by
  unfold relativeTo? at h
  split at h
  · next hnone =>
    rw [hnone]
    exact List.nil_prefix
  · split at h
    · cases h
    · next habsolute =>
      obtain ⟨rest, hrest, -⟩ := Option.map_eq_some_iff.1 h
      have hprefix := prefix_of_dropComponents hrest
      have hsame : p.isAbsolute = base.isAbsolute := Decidable.not_not.1 habsolute
      rw [components, components, hsame]
      split
      · exact List.cons_prefix_cons.2 ⟨rfl, hprefix⟩
      · exact hprefix

theorem root_not_mem_steps (p : Path) : .root ∉ p.steps := fun h => (mem_steps h).1 rfl

theorem Stepwise.root_not_mem {cs : List Component} (h : Stepwise cs) : .root ∉ cs := by
  induction h with
  | nil => simp
  | up _ ih => simpa using ih
  | name _ _ ih => simpa using ih

/-- The components tell the root from the steps. -/
theorem eq_of_components_rooted {p : Path} {absolute : Bool} {cs : List Component}
    (h : p.components = rooted absolute cs) (hcs : .root ∉ cs) :
    p.isAbsolute = absolute ∧ p.steps = cs := by
  have hsteps := p.root_not_mem_steps
  rw [components] at h
  cases habsolute : p.isAbsolute with
  | true =>
    rw [habsolute, if_pos rfl] at h
    cases absolute with
    | true => exact ⟨rfl, (List.cons.inj h).2⟩
    | false =>
      have hroot : .root :: p.steps = cs := h
      exact absurd (hroot ▸ List.mem_cons_self) hcs
  | false =>
    rw [habsolute, if_neg Bool.false_ne_true] at h
    cases absolute with
    | true =>
      have hroot : p.steps = .root :: cs := h
      exact absurd (hroot ▸ List.mem_cons_self) hsteps
    | false => exact ⟨rfl, h⟩

/-- A path is relative to its first steps by the others. -/
theorem relativeTo?_steps {base : Path} {absolute : Bool} {cs rest : List Component}
    (h : Stepwise (cs ++ rest)) (hne : base.components ≠ [])
    (hbase : base.components = rooted absolute cs) :
    (ofSteps absolute (cs ++ rest)).relativeTo? base = some (ofSteps false rest) := by
  obtain ⟨hbaseAbsolute, hsteps⟩ :=
    eq_of_components_rooted hbase fun hroot => h.root_not_mem (List.mem_append_left _ hroot)
  unfold relativeTo?
  by_cases hall : cs ++ rest = []
  · obtain ⟨rfl, rfl⟩ := List.append_eq_nil_iff.1 hall
    cases absolute with
    | false => exact absurd hbase hne
    | true =>
      have habsolute : (ofSteps true ([] ++ [])).isAbsolute = true := rfl
      rw [if_neg hne, if_neg (fun h => h (habsolute.trans hbaseAbsolute.symm)), hsteps]
      rfl
  · obtain ⟨hpieces, habsolute⟩ := pieces_ofSteps absolute h hall
    rw [if_neg hne, if_neg (fun h => h (habsolute.trans hbaseAbsolute.symm)), hpieces, hsteps,
      dropComponents_append, Option.map_some, dropWhile_silent, trimEnd, ← List.map_reverse,
      dropWhile_silent, ← List.map_reverse, List.reverse_reverse]

theorem relativeTo?_empty {base : Path} {absolute : Bool} {cs : List Component}
    (h : Stepwise cs) (hbase : base.components = []) :
    (ofSteps absolute cs).relativeTo? base = some (ofSteps absolute cs) := by
  unfold relativeTo?
  rw [if_pos hbase]
  by_cases hnil : cs = []
  · subst hnil
    cases absolute <;> rfl
  · obtain ⟨hpieces, habsolute⟩ := pieces_ofSteps absolute h hnil
    rw [hpieces, habsolute, trimEnd, ← List.map_reverse, dropWhile_silent, ← List.map_reverse,
      List.reverse_reverse]

theorem exists_rooted_beginning {absolute : Bool} {steps front rest : List Component}
    (h : rooted absolute steps = front ++ rest) (hne : front ≠ []) :
    ∃ cs, steps = cs ++ rest ∧ front = rooted absolute cs := by
  cases absolute with
  | false => exact ⟨front, h, rfl⟩
  | true =>
    obtain ⟨c, cs, rfl⟩ := List.exists_cons_of_ne_nil hne
    obtain ⟨rfl, hsteps⟩ := List.cons.inj h
    exact ⟨cs, hsteps, rfl⟩

theorem Stepwise.of_append {cs ds : List Component} (h : Stepwise (cs ++ ds)) :
    Stepwise cs ∧ Stepwise ds := by
  induction cs with
  | nil => exact ⟨.nil, h⟩
  | cons c cs ih =>
    rw [List.cons_append] at h
    cases h with
    | up h => exact ⟨.up (ih h).1, (ih h).2⟩
    | name hn h => exact ⟨.name hn (ih h).1, (ih h).2⟩

theorem relativeTo?_ofSteps {base : Path} {absolute : Bool} {steps rest : List Component}
    (h : Stepwise steps) (hbase : rooted absolute steps = base.components ++ rest) :
    (ofSteps absolute steps).relativeTo? base = some (ofComponents rest) := by
  by_cases hnil : base.components = []
  · rw [relativeTo?_empty h hnil, ← ofComponents_rooted absolute h, hbase, hnil]
    rfl
  · obtain ⟨cs, rfl, hcs⟩ := exists_rooted_beginning hbase hnil
    rw [relativeTo?_steps h hnil hcs, ← ofComponents_rooted false h.of_append.2]
    rfl

theorem relativeTo?_ofSteps_eq_none {base : Path} {absolute : Bool} {steps : List Component}
    (h : Stepwise steps) (hbase : ¬base.components <+: rooted absolute steps) :
    (ofSteps absolute steps).relativeTo? base = none := by
  rw [Option.eq_none_iff_forall_ne_some]
  intro q hq
  refine hbase ?_
  have hprefix := prefix_of_relativeTo? hq
  by_cases hnil : steps = []
  · subst hnil
    cases absolute <;> exact hprefix
  · rwa [components_ofSteps absolute h hnil] at hprefix

theorem exists_spelling {p : Path} (h : p.normalize = p) :
    ∃ absolute steps, Stepwise steps ∧ p.components = rooted absolute steps ∧
      p = ofSteps absolute steps := by
  obtain ⟨absolute, steps, hsteps, hlist⟩ := (normalStack_components p).exists_rooted
  refine ⟨absolute, steps, hsteps, ?_, ?_⟩
  · rw [← hlist, ← components_normalize, h]
  · rw [← ofComponents_rooted absolute hsteps, ← hlist]
    exact h.symm

theorem ofComponents_names {names : List String} (h : ∀ n ∈ names, ProperName n) :
    ofComponents (names.map .name) = ofNames names := by
  rw [← ofSteps_names, ← ofComponents_rooted false (stepwise_names h)]
  rfl

/-- Where a file below a directory is found relative to the directory. A file is taken by its normal
path, and so the directory has to be spelled normally. -/
theorem relativeTo?_below (base : Path) {roots names : List String} {file : String}
    (hroots : roots ≠ []) (h : ∀ n ∈ roots ++ names ++ [file], ProperName n) :
    let source := (base.join (ofNames (roots ++ names ++ [file]))).normalize
    source.fileName? = some file ∧ ∃ dir, source.parent? = some dir ∧
      dir.relativeTo? (base.join (ofNames roots)) =
        if base.normalize.components = base.components then some (ofNames names) else none := by
  intro source
  obtain ⟨absolute, cs, hcs, hlist⟩ := (normalStack_components base).exists_rooted
  rw [← components_normalize] at hlist
  have hsplit : (roots ++ names ++ [file]).map Component.name =
      (roots ++ names).map Component.name ++ [.name file] := by
    rw [List.map_append]
    rfl
  have hinner : ∀ n ∈ roots ++ names, ProperName n := fun n hn => h n (List.mem_append_left _ hn)
  have hdir : Stepwise (cs ++ (roots ++ names).map .name) := hcs.append (stepwise_names hinner)
  have hall : Stepwise (cs ++ (roots ++ names).map .name ++ [.name file]) :=
    hdir.append (.name (h file (by simp)) .nil)
  have hsource : source = ofSteps absolute (cs ++ (roots ++ names).map .name ++ [.name file]) := by
    rw [show source = _ from normalize_join_ofNames base h, hlist, hsplit, List.append_assoc,
      ← List.append_assoc cs, ofComponents_rooted absolute hall]
  rw [hsource]
  refine ⟨fileName?_ofSteps absolute hall, _, parent?_ofSteps absolute hall, ?_⟩
  have hroot : ∀ n ∈ roots, ProperName n := fun n hn => hinner n (List.mem_append_left _ hn)
  have hbase := components_join_ofNames base hroot
  split
  · next hnormal =>
    have hnames : ∀ n ∈ names, ProperName n := fun n hn => hinner n (List.mem_append_right _ hn)
    rw [← ofComponents_names hnames]
    refine relativeTo?_ofSteps hdir ?_
    rw [hbase, ← hnormal, hlist, rooted, rooted, List.map_append]
    simp only [List.append_assoc]
  · next hspelled =>
    rw [Option.eq_none_iff_forall_ne_some]
    intro q hq
    -- The directory starts like the base, and so does the file in it, whose path is normal.
    have hdirPrefix := prefix_of_relativeTo? hq
    rw [components_ofSteps absolute hdir (by simp [hroots]), hbase] at hdirPrefix
    have hfile : source.components =
        rooted absolute (cs ++ (roots ++ names).map .name) ++ [.name file] := by
      rw [hsource, components_ofSteps absolute hall (by simp), rooted, rooted, ← List.append_assoc]
    refine hspelled (normalize_of_beginning
      (p := base.join (ofNames (roots ++ names ++ [file]))) ?_)
    rw [show (base.join (ofNames (roots ++ names ++ [file]))).normalize = source from rfl, hfile]
    exact ((List.prefix_append _ _).trans hdirPrefix).trans (List.prefix_append _ _)

theorem ofNames_snoc {names : List String} (hne : names ≠ []) (name : String) :
    (ofNames (names ++ [name])).text = (ofNames names).text ++ "/" ++ name := by
  have hjoin : ∀ cs : List (List Char), cs ≠ [] →
      ['/'].intercalate (cs ++ [name.toList]) = ['/'].intercalate cs ++ '/' :: name.toList := by
    intro cs hcs
    induction cs with
    | nil => exact absurd rfl hcs
    | cons c rest ih =>
      cases rest with
      | nil => simp [List.intercalate]
      | cons d rest =>
        have hrest := ih (List.cons_ne_nil d rest)
        simp only [List.intercalate, List.cons_append, List.intersperse_cons_cons,
          List.flatten_cons] at hrest ⊢
        rw [hrest]
        simp
  rw [← String.toList_inj, String.toList_append, String.toList_append, toList_ofNames,
    toList_ofNames, List.map_append, List.map_singleton, hjoin _ (by simpa using hne)]
  simp

theorem getLast?_append_ne {α : Type} {cs ds : List α} {c : α} (hne : ds ≠ [])
    (h : ds.getLast? ≠ some c) : (cs ++ ds).getLast? ≠ some c := by
  rw [List.getLast?_append]
  cases hend : ds.getLast? with
  | none => exact absurd (List.getLast?_eq_none_iff.1 hend) hne
  | some d =>
    rw [hend] at h
    exact h

theorem getLast?_ofNames {names : List String} (hne : names ≠ []) (h : ∀ n ∈ names, ProperName n) :
    (ofNames names).text.toList ≠ [] ∧ (ofNames names).text.toList.getLast? ≠ some '/' := by
  rcases List.eq_nil_or_concat names with rfl | ⟨front, n, rfl⟩
  · exact absurd rfl hne
  rw [List.concat_eq_append] at h ⊢
  have hn := h n (List.mem_append_right _ List.mem_cons_self)
  have hlast : n.toList.getLast? ≠ some '/' := fun hlast =>
    hn.2.2.2 (List.mem_of_getLast? hlast)
  have htext : ∃ cs, (ofNames (front ++ [n])).text.toList = cs ++ n.toList := by
    by_cases hfront : front = []
    · subst hfront
      exact ⟨[], rfl⟩
    · rw [ofNames_snoc hfront, String.toList_append]
      exact ⟨_, rfl⟩
  obtain ⟨cs, hcs⟩ := htext
  rw [hcs]
  exact ⟨List.append_ne_nil_of_right_ne_nil _ hn.1, getLast?_append_ne hn.1 hlast⟩

def slashed (p : Path) : String :=
  if p.text.isEmpty ∨ p.text.toList.getLast? = some '/' then p.text else p.text ++ "/"

theorem join_eq (base : Path) {p : Path} (hp : p.isAbsolute = false) :
    base.join p = ⟨base.slashed ++ p.text⟩ := by
  unfold join slashed
  rw [hp]
  split
  · next h => cases h
  · split
    · rfl
    · rfl

/-- Names can be joined all at once. -/
theorem join_ofNames_join (base : Path) {names : List String} {name : String}
    (h : ∀ n ∈ names ++ [name], ProperName n) :
    (base.join (ofNames names)).join ⟨name⟩ = base.join (ofNames (names ++ [name])) := by
  have hname : ∀ m ∈ [name], ProperName m := fun m hm => h m (List.mem_append_right _ hm)
  have hnames : ∀ m ∈ names, ProperName m := fun m hm => h m (List.mem_append_left _ hm)
  rw [← ofNames_singleton, join_eq _ (isAbsolute_ofNames hname), join_eq _ (isAbsolute_ofNames h),
    join_eq _ (isAbsolute_ofNames hnames), ofNames_singleton, slashed]
  by_cases hne : names = []
  · subst hne
    have hempty : (ofNames []).text = "" := rfl
    have hslashed : (base.slashed.isEmpty : Prop) ∨ base.slashed.toList.getLast? = some '/' := by
      unfold slashed
      split
      · next h => exact h
      · exact .inr (by simp)
    rw [hempty, String.append_empty, if_pos hslashed]
    rfl
  · obtain ⟨hfull, hlast⟩ := getLast?_ofNames hne hnames
    have hopen : ¬((base.slashed ++ (ofNames names).text).isEmpty ∨
        (base.slashed ++ (ofNames names).text).toList.getLast? = some '/') := by
      rw [String.toList_append, String.isEmpty_iff, ← String.toList_eq_nil_iff,
        String.toList_append]
      exact not_or.2 ⟨List.append_ne_nil_of_right_ne_nil _ hfull, getLast?_append_ne hfull hlast⟩
    rw [if_neg hopen, ofNames_snoc hne]
    simp only [String.append_assoc]

end Path

end MarkupScene
