import MarkupScene.Prefab.Location
import MarkupScene.Proofs.DiskWrites

/-!
# Places of prefabs

The prefab of a source lies below the output root. The source is in normal form, and the source root
ends in a name. What the directory of such a source is relative to such a root has names alone; when
it does not lie below the root, the prefab goes to the top.
-/
namespace MarkupScene

open MarkupScene.Path

namespace Path

/-- Above a name there are only names on a normal stack. -/
theorem NormalStack.names_above {s t : List Component} {n : String}
    (h : NormalStack (s ++ .name n :: t)) :
    ∃ names : List String, (∀ m ∈ names, ProperName m) ∧ s = names.map .name := by
  induction s with
  | nil => exact ⟨[], fun _ h => (nomatch h), rfl⟩
  | cons c s ih =>
    rw [List.cons_append] at h
    generalize hrest : s ++ .name n :: t = rest at h ih
    cases h with
    | root => simp at hrest
    | up _ hall =>
      have hname := hall (.name n) (hrest ▸ List.mem_append_right _ List.mem_cons_self)
      cases hname
    | @name _ m h hm =>
      obtain ⟨names, hnames, rfl⟩ := ih h
      refine ⟨m :: names, fun k hk => ?_, rfl⟩
      rcases List.mem_cons.1 hk with rfl | hk
      · exact hm
      · exact hnames k hk

theorem normalStack_of_normal {p : Path} (h : p.normalize = p) :
    NormalStack p.components.reverse := by
  have hstack := normalStack_components p
  rwa [← List.reverse_reverse (normalStack _), ← components_normalize, h] at hstack

theorem slash_not_mem_stem {p : Path} : '/' ∉ (p.stem?.getD "").toList := by
  unfold stem?
  cases hname : p.fileName? with
  | none => simp
  | some name =>
    have hproper := (properName_of_fileName? hname).2.2.2
    rw [Option.map_some, Option.getD_some, splitName]
    split
    · exact hproper
    · exact hproper
    · next stem extension _ hsplit =>
      rw [String.toList_ofList]
      rw [Text.eq_of_splitLast hsplit] at hproper
      exact fun hslash => hproper (List.mem_append_left _ hslash)

end Path

namespace PrefabLocation

/-- The directory of a normal source is what its components have after those of the source root, if
they start with these, and nothing otherwise. -/
theorem directory_cases (o : Options) {source : Path} (hsource : source.normalize = source) :
    (∃ rest c, c ≠ .root ∧ source.components = o.sourceRoot.components ++ rest ++ [c] ∧
        directory o source = ofComponents rest) ∨
      directory o source = ⟨""⟩ ∧
        ∀ rest c, c ≠ .root → source.components ≠ o.sourceRoot.components ++ rest ++ [c] := by
  obtain ⟨absolute, steps, hsteps, hcomponents, hspelled⟩ := exists_spelling hsource
  rcases List.eq_nil_or_concat steps with rfl | ⟨above, c, rfl⟩
  · have hnone : source.parent? = none := by
      rw [hspelled]
      cases absolute <;> rfl
    refine .inr ⟨by rw [directory, hnone]; rfl, fun rest c hc h => ?_⟩
    have hlast : (rooted absolute []).getLast? = some c := by
      rw [← hcomponents, h, List.getLast?_concat]
    cases absolute with
    | false => cases hlast
    | true => exact hc (Option.some.inj hlast).symm
  · rw [List.concat_eq_append] at hsteps hcomponents hspelled
    have hlast : rooted absolute (above ++ [c]) = rooted absolute above ++ [c] :=
      (List.append_assoc _ above [c]).symm
    have hparent : source.parent? = some (ofSteps absolute above) := by
      rw [hspelled, parent?_ofSteps absolute hsteps]
    rw [hlast] at hcomponents
    by_cases hbelow : o.sourceRoot.components <+: rooted absolute above
    · obtain ⟨rest, hrest⟩ := hbelow
      refine .inl ⟨rest, c, ?_, by rw [hcomponents, hrest], ?_⟩
      · rintro rfl
        exact hsteps.root_not_mem (List.mem_append_right _ List.mem_cons_self)
      · rw [directory, hparent, Option.bind_some,
          relativeTo?_ofSteps hsteps.of_append.1 hrest.symm, Option.getD_some]
    · refine .inr ⟨?_, fun rest d _ h => hbelow ⟨rest, ?_⟩⟩
      · rw [directory, hparent, Option.bind_some,
          relativeTo?_ofSteps_eq_none hsteps.of_append.1 hbelow]
        rfl
      · rw [hcomponents] at h
        exact (List.append_inj_left' h rfl).symm

/-- The directory of a normal source is told by names, when the source root ends in one. -/
theorem directory_names {o : Options} {front : List Component} {n : String}
    (hroot : o.sourceRoot.components = front ++ [.name n]) {source : Path}
    (hsource : source.normalize = source) :
    ∃ names, (∀ m ∈ names, ProperName m) ∧ directory o source = .ofNames names := by
  rcases directory_cases o hsource with ⟨rest, c, -, hcomponents, hdirectory⟩ | ⟨hdirectory, -⟩
  · have hnormal := normalStack_of_normal hsource
    rw [hcomponents, hroot, List.append_assoc, List.append_assoc, List.reverse_append,
      List.reverse_append, List.reverse_append, List.reverse_singleton, List.reverse_singleton,
      List.singleton_append, List.append_assoc, List.singleton_append] at hnormal
    obtain ⟨names, hnames, hlist⟩ := hnormal.names_above
    cases names with
    | nil => cases hlist
    | cons m names =>
      have hproper : ∀ m ∈ names.reverse, ProperName m := fun m hm =>
        hnames m (List.mem_cons_of_mem _ (List.mem_reverse.1 hm))
      refine ⟨names.reverse, hproper, ?_⟩
      rw [hdirectory, ← ofComponents_names hproper, List.map_reverse, ← (List.cons.inj hlist).2,
        List.reverse_reverse]
  · exact ⟨[], fun _ h => (nomatch h), hdirectory⟩

/-- The names of the place of a prefab below the output root. -/
def names (o : Options) (source : Path) : List String :=
  (directory o source).components.map segment ++ [fileName source]

theorem exists_names {o : Options} {front : List Component} {n : String}
    (hroot : o.sourceRoot.components = front ++ [.name n]) {source : Path}
    (hsource : source.normalize = source) :
    ∃ above, (∀ m ∈ above ++ [fileName source], ProperName m) ∧
      directory o source = .ofNames above ∧ names o source = above ++ [fileName source] := by
  obtain ⟨above, habove, hdirectory⟩ := directory_names hroot hsource
  have hfile : ProperName (fileName source) := by
    rw [fileName, String.append_assoc]
    exact properName_append slash_not_mem_stem (by decide) (by decide)
  refine ⟨above, List.forall_mem_append.2 ⟨habove, List.forall_mem_singleton.2 hfile⟩,
    hdirectory, ?_⟩
  rw [names, hdirectory, components_ofNames habove, List.map_map]
  exact congrArg (· ++ [fileName source]) (List.map_id above)

theorem ofSource_names {o : Options} {front : List Component} {n : String}
    (hroot : o.sourceRoot.components = front ++ [.name n]) {source : Path}
    (hsource : source.normalize = source) :
    (∀ m ∈ names o source, ProperName m) ∧
      (ofSource o source).path = o.outputRoot.join (.ofNames (names o source)) := by
  obtain ⟨above, hall, hdirectory, hnames⟩ := exists_names hroot hsource
  rw [hnames, ← join_ofNames_join o.outputRoot hall, ← hdirectory]
  exact ⟨hall, rfl⟩

theorem ofSource_below_root {o : Options} {front : List Component} {n : String}
    (hroot : o.sourceRoot.components = front ++ [.name n]) {source : Path}
    (hsource : source.normalize = source) (here : Location) :
    o.outputRoot.locate here <+: (ofSource o source).path.locate here := by
  obtain ⟨hnames, hplace⟩ := ofSource_names hroot hsource
  rw [hplace, locate_join_ofNames _ here hnames]
  exact List.prefix_append _ _

end PrefabLocation

end MarkupScene
