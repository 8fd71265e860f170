import MarkupScene.Proofs.OutputPlaces

/-!
# Source roots

Where the prefab of a source goes, for any source root. What is left of the source below the root is
put after the output root and into the address, whatever it is. When it consists of names, both get
these names; a source root that is empty, or that consists of steps up, also takes sources that are
absolute or go up further, and what is left of these leads out of the output root. The main statement
is that a prefab is told by names exactly for the other sources.
-/
namespace MarkupScene

open MarkupScene.Path

namespace Path

theorem NormalStack.of_append {s t : List Component} (h : NormalStack (s ++ t)) :
    NormalStack s := by
  induction s with
  | nil => exact .nil
  | cons c s ih =>
    rw [List.cons_append] at h
    generalize hrest : s ++ t = rest at h ih
    cases h with
    | root =>
      rw [(List.append_eq_nil_iff.1 hrest).1]
      exact .root
    | up h hall => exact .up (ih h) fun d hd => hall d (hrest ▸ List.mem_append_left _ hd)
    | name h hn => exact .name (ih h) hn

theorem properName_of_mem {p : Path} {n : String} (h : .name n ∈ p.components) :
    ProperName n := by
  have hsteps : .name n ∈ p.steps := by
    rw [components] at h
    split at h
    · exact (List.mem_cons.1 h).resolve_left (by simp)
    · exact h
  exact (mem_steps hsteps).2 n rfl

theorem NormalStack.here_not_mem {s : List Component} (h : NormalStack s) : .here ∉ s := by
  induction h with
  | nil => simp
  | root => simp
  | up _ _ ih => simpa using ih
  | name _ _ ih => simpa using ih

theorem names_after_name {p : Path} (h : p.normalize = p) {front rest : List Component}
    {n : String} (hp : p.components = front ++ .name n :: rest) :
    ∃ names : List String, .name n :: rest = names.map .name := by
  have hnormal := normalStack_of_normal h
  rw [hp, List.reverse_append, List.reverse_cons, List.append_assoc, List.singleton_append]
    at hnormal
  obtain ⟨names, -, hlist⟩ := hnormal.names_above
  refine ⟨n :: names.reverse, ?_⟩
  rw [List.map_cons, List.map_reverse, ← hlist, List.reverse_reverse]

theorem fileName?_of_normal {p : Path} (h : p.normalize = p) {front : List Component} {n : String}
    (hlast : p.components = front ++ [.name n]) : p.fileName? = some n := by
  obtain ⟨absolute, steps, hsteps, hcomponents, rfl⟩ := exists_spelling h
  rw [hcomponents] at hlast
  rcases List.eq_nil_or_concat steps with rfl | ⟨above, c, rfl⟩
  · have hend := congrArg List.getLast? hlast
    rw [List.getLast?_concat] at hend
    cases absolute <;> cases hend
  · rw [List.concat_eq_append] at hsteps hlast ⊢
    rw [rooted, ← List.append_assoc] at hlast
    obtain rfl := (List.cons.inj (List.append_inj_right' hlast rfl)).1
    exact fileName?_ofSteps absolute hsteps

end Path

namespace PrefabLocation

/-- A location that names tell, below the output root and in the address alike. -/
structure Along (o : Options) (names : List String) (location : PrefabLocation) : Prop where
  proper : ∀ n ∈ names, ProperName n
  path : location.path.components = o.outputRoot.components ++ names.map .name
  url : location.url = "/".intercalate (trimSlashes o.targetUrl :: names)

/-- Below the source root, the directory of the source starts with the root or with a step up. -/
def Climbs (o : Options) (source : Path) : Prop :=
  ∃ c rest, (c = .root ∨ c = .up) ∧ rest ≠ [] ∧
    source.components = o.sourceRoot.components ++ c :: rest

theorem properName_fileName (source : Path) : ProperName (fileName source) := by
  rw [fileName, String.append_assoc]
  exact properName_append slash_not_mem_stem (by decide) (by decide)

theorem url_eq (o : Options) (source : Path) :
    (ofSource o source).url = "/".intercalate
      (trimSlashes o.targetUrl ::
        ((directory o source).components.map segment ++ [fileName source])) := by
  have hfile : [fileName source] = [Component.name (fileName source)].map segment := rfl
  rw [hfile, ← List.map_append, ← foldl_segments, List.foldl_append]
  rfl

theorem along_of_directory {o : Options} {source : Path} {above : List String}
    (habove : ∀ n ∈ above, ProperName n) (hdirectory : directory o source = .ofNames above) :
    (ofSource o source).Along o (above ++ [fileName source]) := by
  have hall : ∀ n ∈ above ++ [fileName source], ProperName n :=
    List.forall_mem_append.2 ⟨habove, List.forall_mem_singleton.2 (properName_fileName source)⟩
  obtain ⟨hpath, hurl⟩ := ofSource_of_directory hall hdirectory
  exact ⟨hall, by rw [hpath, components_join_ofNames _ hall], hurl⟩

theorem along_of_top {o : Options} {source : Path} (hdirectory : directory o source = ⟨""⟩) :
    (ofSource o source).Along o [fileName source] := by
  have hnames : directory o source = .ofNames [] := hdirectory
  exact along_of_directory (List.forall_mem_nil _) hnames

theorem along_of_not_below (o : Options) {source : Path} (hsource : source.normalize = source)
    (hbelow : ¬o.sourceRoot.components <+: source.components.dropLast) :
    (ofSource o source).Along o [fileName source] := by
  rcases directory_cases o hsource with ⟨rest, c, -, hcomponents, -⟩ | ⟨hdirectory, -⟩
  · refine absurd ?_ hbelow
    rw [hcomponents, List.dropLast_concat]
    exact List.prefix_append _ _
  · exact along_of_top hdirectory

theorem along_of_below (o : Options) {source : Path} (hsource : source.normalize = source)
    {above : List String} {file : String}
    (hbelow : source.components = o.sourceRoot.components ++ (above ++ [file]).map .name) :
    (ofSource o source).Along o (above ++ [(splitName file).1 ++ ".prefab"]) := by
  rw [List.map_append, List.map_singleton, ← List.append_assoc] at hbelow
  have hfile : fileName source = (splitName file).1 ++ ".prefab" := by
    rw [fileName, stem?, fileName?_of_normal hsource hbelow, Option.map_some, Option.getD_some,
      String.append_assoc]
    rfl
  rcases directory_cases o hsource with ⟨rest, c, -, hcomponents, hdirectory⟩ | ⟨-, hnone⟩
  · have hrest : rest = above.map .name :=
      List.append_cancel_left (List.append_inj_left' (hcomponents.symm.trans hbelow) rfl)
    have habove : ∀ n ∈ above, ProperName n := fun n hn =>
      properName_of_mem (p := source) (by simp [hbelow, hn])
    rw [hrest, ofComponents_names habove] at hdirectory
    exact hfile ▸ along_of_directory habove hdirectory
  · exact absurd hbelow (hnone _ _ (by simp))

/-- An address below which a climb starts has no names. -/
theorem names_ne_of_climb {c : Component} (hc : c = .root ∨ c = .up) {names more : List String}
    (hnames : ∀ n ∈ names, ProperName n) (hmore : more ≠ []) (url : String) :
    "/".intercalate (url :: segment c :: more) ≠ "/".intercalate (url :: names) := by
  intro h
  obtain ⟨m, more, rfl⟩ := List.exists_cons_of_ne_nil hmore
  cases names with
  | nil =>
    have hsize := congrArg (fun s => s.toList.length) h
    rw [String.intercalate_cons_cons] at hsize
    simp at hsize
  | cons n rest =>
    have hfirst : "/".intercalate (url :: n :: rest) = url ++ "/" ++ "/".intercalate (n :: rest) :=
      String.intercalate_cons_cons
    rw [hfirst, String.intercalate_cons_cons, String.append_right_inj,
      String.intercalate_cons_cons, String.append_assoc] at h
    have hcomponents := components_ofNames hnames
    rw [ofNames, ← h, ← ofChars_toList ⟨_⟩] at hcomponents
    dsimp only at hcomponents
    rw [String.toList_append, String.toList_append] at hcomponents
    have hslash : "/".toList = ['/'] := rfl
    rw [hslash, List.singleton_append, components_append_slash] at hcomponents
    rcases hc with rfl | rfl
    · cases (List.cons.inj hcomponents).1
    · cases (List.cons.inj hcomponents).1

/-- What is left of a source that climbs is no name, neither in the path nor in the address. -/
theorem not_along_of_climbs {o : Options} {source : Path} (hsource : source.normalize = source)
    (hclimbs : Climbs o source) (names : List String) : ¬(ofSource o source).Along o names := by
  intro halong
  obtain ⟨c, rest, hc, hne, hcomponents⟩ := hclimbs
  rcases List.eq_nil_or_concat rest with rfl | ⟨mid, d, rfl⟩
  · exact hne rfl
  have hsplit : source.components = o.sourceRoot.components ++ (c :: mid) ++ [d] := by
    rw [hcomponents, List.concat_eq_append, List.append_assoc]
    rfl
  have hd : d ≠ .root := by
    rintro rfl
    have hnormal := normalStack_of_normal hsource
    rw [hsplit, List.reverse_concat] at hnormal
    generalize hread : (o.sourceRoot.components ++ c :: mid).reverse = read at hnormal
    cases hnormal
    simp at hread
  rcases directory_cases o hsource with ⟨left, e, -, hleft, hdirectory⟩ | ⟨-, hnone⟩
  · obtain rfl : left = c :: mid :=
      List.append_cancel_left (List.append_inj_left' (hleft.symm.trans hsplit) rfl)
    have hspelled : (directory o source).components = c :: mid := by
      have hnormal := normalStack_of_normal hsource
      rw [hsplit, List.append_assoc, List.reverse_append] at hnormal
      have hleft := (hnormal.of_append.of_suffix (s := (c :: mid).reverse)
        (List.reverse_suffix.2 (List.prefix_append _ _))).components_ofComponents
      rwa [List.reverse_reverse, ← hdirectory] at hleft
    have hmore : mid.map segment ++ [fileName source] ≠ [] := by simp
    refine names_ne_of_climb hc halong.proper hmore (trimSlashes o.targetUrl) (.trans ?_ halong.url)
    rw [← List.cons_append, ← List.map_cons, ← hspelled, url_eq]
  · exact hnone _ _ hd hsplit

/-- Any other source has its prefab along names. -/
theorem along_of_not_climbs {o : Options} {source : Path} (hsource : source.normalize = source)
    (hclimbs : ¬Climbs o source) : ∃ names, (ofSource o source).Along o names := by
  rcases directory_cases o hsource with ⟨rest, c, -, hcomponents, hdirectory⟩ | ⟨hdirectory, -⟩
  · cases rest with
    | nil => exact ⟨_, along_of_top hdirectory⟩
    | cons d rest =>
      have hsplit : source.components = o.sourceRoot.components ++ d :: (rest ++ [c]) := by
        rw [hcomponents, List.append_assoc]
        rfl
      cases d with
      | root => exact absurd ⟨.root, _, .inl rfl, by simp, hsplit⟩ hclimbs
      | up => exact absurd ⟨.up, _, .inr rfl, by simp, hsplit⟩ hclimbs
      | here =>
        refine absurd (List.mem_reverse.2 ?_) (normalStack_of_normal hsource).here_not_mem
        rw [hsplit]
        exact List.mem_append_right _ List.mem_cons_self
      | name n =>
        obtain ⟨names, hnames⟩ := names_after_name hsource hsplit
        rcases List.eq_nil_or_concat names with rfl | ⟨above, m, rfl⟩
        · cases hnames
        · rw [List.concat_eq_append, List.map_append, List.map_singleton, ← List.cons_append]
            at hnames
          have habove := List.append_inj_left' hnames rfl
          have hproper : ∀ n ∈ above, ProperName n := fun k hk =>
            properName_of_mem (p := source) (by simp [hcomponents, habove, hk])
          rw [habove, ofComponents_names hproper] at hdirectory
          exact ⟨_, along_of_directory hproper hdirectory⟩
  · exact ⟨_, along_of_top hdirectory⟩

/-- The prefab of a normal source is told by names exactly when the source does not climb out of the
source root. These are the names that lead to the source, with another extension, when there are
such; and the file name alone when its directory is not below the root. -/
theorem told_by_names (o : Options) {source : Path} (hsource : source.normalize = source) :
    ((∃ names, (ofSource o source).Along o names) ↔ ¬Climbs o source) ∧
      (∀ above file, source.components = o.sourceRoot.components ++ (above ++ [file]).map .name →
        (ofSource o source).Along o (above ++ [(splitName file).1 ++ ".prefab"])) ∧
      (¬o.sourceRoot.components <+: source.components.dropLast →
        (ofSource o source).Along o [fileName source]) := by
  refine ⟨⟨?_, along_of_not_climbs hsource⟩, fun above file => along_of_below o hsource,
    along_of_not_below o hsource⟩
  rintro ⟨names, halong⟩ hclimbs
  exact not_along_of_climbs hsource hclimbs names halong

/-- A source in the source root. -/
theorem main_told_by_names :
    (⟨"res/ui/Main.exml"⟩ : Path).normalize = ⟨"res/ui/Main.exml"⟩ ∧
      (ofSource { sourceRoot := ⟨"res"⟩ } ⟨"res/ui/Main.exml"⟩).Along { sourceRoot := ⟨"res"⟩ }
        ["ui", "Main.prefab"] := by
  have hnormal : (⟨"res/ui/Main.exml"⟩ : Path).normalize = ⟨"res/ui/Main.exml"⟩ := by
    decide +kernel
  exact ⟨hnormal, (told_by_names { sourceRoot := ⟨"res"⟩ } hnormal).2.1 ["ui"] "Main.exml"
    (by decide +kernel)⟩

/-- Sources that leave an empty source root: one goes up, the other one is absolute. Both prefabs
leave the output root as well. -/
theorem empty_root_left :
    let o : Options := { outputRoot := ⟨"out"⟩ }
    ((⟨"../a/b.exml"⟩ : Path).normalize = ⟨"../a/b.exml"⟩ ∧
        ofSource o ⟨"../a/b.exml"⟩ = ⟨⟨"out/../a/b.prefab"⟩, "db://assets/../a/b.prefab"⟩ ∧
        ¬∃ names, (ofSource o ⟨"../a/b.exml"⟩).Along o names) ∧
      (⟨"/a/b.exml"⟩ : Path).normalize = ⟨"/a/b.exml"⟩ ∧
        ofSource o ⟨"/a/b.exml"⟩ = ⟨⟨"/a/b.prefab"⟩, "db://assets///a/b.prefab"⟩ ∧
        ¬∃ names, (ofSource o ⟨"/a/b.exml"⟩).Along o names := by
  intro o
  have hup : (⟨"../a/b.exml"⟩ : Path).normalize = ⟨"../a/b.exml"⟩ := by decide +kernel
  have hroot : (⟨"/a/b.exml"⟩ : Path).normalize = ⟨"/a/b.exml"⟩ := by decide +kernel
  refine ⟨⟨hup, by decide +kernel, fun ⟨names, halong⟩ => ?_⟩, hroot, by decide +kernel,
    fun ⟨names, halong⟩ => ?_⟩
  · exact not_along_of_climbs hup
      ⟨.up, [.name "a", .name "b.exml"], .inr rfl, by simp, by decide +kernel⟩ names halong
  · exact not_along_of_climbs hroot
      ⟨.root, [.name "a", .name "b.exml"], .inl rfl, by simp, by decide +kernel⟩ names halong

end PrefabLocation

end MarkupScene
