import MarkupScene.Proofs.DiskWrites

/-!
# Normal forms of paths

A normal path is names below the root, or names after steps up. Normalizing a path makes it normal
and keeps where it leads from every directory, and normal paths that lead to the same place from
everywhere are one path. So paths have one normal form exactly when they lead to the same places,
which is why joining may normalize its base first.
-/
namespace MarkupScene.Path

/-- Paths of names below the root, or of names after steps up. -/
inductive Canonical : Path → Prop where
  | absolute {names : List String} (h : ∀ n ∈ names, ProperName n) :
      Canonical ⟨"/" ++ (ofNames names).text⟩
  | relative (ups : Nat) {names : List String} (h : ∀ n ∈ names, ProperName n) :
      Canonical (ofNames (List.replicate ups ".." ++ names))

/-- The steps of a relative normal path. -/
def climbing (ups : Nat) (names : List String) : List Component :=
  List.replicate ups .up ++ names.map .name

theorem stepwise_climbing (ups : Nat) {names : List String} (h : ∀ n ∈ names, ProperName n) :
    Stepwise (climbing ups names) := by
  induction ups with
  | zero => simpa [climbing] using stepwise_names h
  | succ ups ih => exact .up ih

theorem absolute_eq (names : List String) :
    (⟨"/" ++ (ofNames names).text⟩ : Path) = ofComponents (.root :: names.map .name) := by
  have htext := toList_ofNames names
  simp only [ofComponents, ofChars, List.map_map, Path.mk.injEq, ← String.toList_inj,
    String.toList_append, String.toList_ofList, htext]
  rfl

theorem relative_eq_chars (ups : Nat) (names : List String) :
    ofNames (List.replicate ups ".." ++ names) =
      ofChars (['/'].intercalate ((climbing ups names).map Component.chars)) := by
  have hchars : (List.replicate ups ".." ++ names).map String.toList =
      (climbing ups names).map Component.chars := by
    simp [climbing, Component.chars, Function.comp_def]
  rw [← hchars, ← toList_ofNames, ofChars_toList]

theorem relative_eq (ups : Nat) (names : List String) :
    ofNames (List.replicate ups ".." ++ names) = ofComponents (climbing ups names) := by
  rw [relative_eq_chars]
  cases ups with
  | zero => cases names <;> rfl
  | succ ups => rfl

theorem normalStack_names {s : List Component} (hs : NormalStack s) {names : List String}
    (h : ∀ n ∈ names, ProperName n) : NormalStack ((names.map .name).reverse ++ s) := by
  induction names generalizing s with
  | nil => exact hs
  | cons n rest ih =>
    have hrest := ih (.name hs (h n List.mem_cons_self)) fun m hm => h m (List.mem_cons_of_mem _ hm)
    simpa using hrest

theorem normalStack_ups (ups : Nat) : NormalStack (List.replicate ups .up) := by
  induction ups with
  | zero => exact .nil
  | succ ups ih => exact .up ih fun c hc => List.eq_of_mem_replicate hc

theorem Canonical.exists_stack {p : Path} (h : p.Canonical) :
    ∃ s, NormalStack s ∧ p = ofComponents s.reverse := by
  cases h with
  | @absolute names h =>
    refine ⟨_, normalStack_names .root h, ?_⟩
    rw [absolute_eq]
    simp
  | @relative ups names h =>
    refine ⟨_, normalStack_names (normalStack_ups ups) h, ?_⟩
    rw [relative_eq]
    simp [climbing]

theorem NormalStack.exists_names {s : List Component} (h : NormalStack s) :
    ∃ names, (∀ n ∈ names, ProperName n) ∧
      (s.reverse = .root :: names.map .name ∨ ∃ ups, s.reverse = climbing ups names) := by
  induction h with
  | nil => exact ⟨[], by simp, .inr ⟨0, rfl⟩⟩
  | root => exact ⟨[], by simp, .inl rfl⟩
  | @up s _ hall _ =>
    have hups : s = List.replicate s.length .up := List.eq_replicate_iff.2 ⟨rfl, hall⟩
    refine ⟨[], by simp, .inr ⟨s.length + 1, ?_⟩⟩
    rw [hups]
    simp [climbing, List.replicate_succ']
  | @name s n _ hn ih =>
    obtain ⟨names, hnames, hs⟩ := ih
    refine ⟨names ++ [n], by simpa [or_imp, forall_and] using ⟨hnames, hn⟩, ?_⟩
    rcases hs with hs | ⟨ups, hs⟩
    · exact .inl (by simp [hs])
    · exact .inr ⟨ups, by simp [hs, climbing]⟩

theorem canonical_normalize (p : Path) : p.normalize.Canonical := by
  obtain ⟨names, hnames, hs⟩ := (normalStack_components p).exists_names
  rw [normalize]
  rcases hs with hs | ⟨ups, hs⟩
  · rw [hs, ← absolute_eq]
    exact .absolute hnames
  · rw [hs, ← relative_eq]
    exact .relative ups hnames

theorem canonical_iff {p : Path} : p.Canonical ↔ p.normalize = p := by
  constructor
  · intro h
    obtain ⟨s, hs, rfl⟩ := h.exists_stack
    rw [normalize, hs.components_ofComponents, hs.normalStack_reverse]
  · intro h
    exact h ▸ canonical_normalize p

theorem foldl_enter_normalStep (read : List Component) (c : Component) (here : Location) :
    (normalStep read c).reverse.foldl enter here = enter (read.reverse.foldl enter here) c := by
  cases c with
  | here => rfl
  | root => cases read <;> simp [normalStep, enter]
  | name n => cases read <;> simp [normalStep, enter]
  | up =>
    cases read with
    | nil => rfl
    | cons d rest => cases d <;> simp [normalStep, enter]

theorem foldl_enter_normalStack (cs read : List Component) (here : Location) :
    (cs.foldl normalStep read).reverse.foldl enter here =
      cs.foldl enter (read.reverse.foldl enter here) := by
  induction cs generalizing read with
  | nil => rfl
  | cons c rest ih => rw [List.foldl_cons, ih, foldl_enter_normalStep, List.foldl_cons]

theorem locate_normalize (p : Path) (here : Location) :
    p.normalize.locate here = p.locate here := by
  rw [locate, components_normalize, normalStack, foldl_enter_normalStack]
  rfl

theorem foldl_enter_ups (ups : Nat) (here : Location) :
    (List.replicate ups Component.up).foldl enter here = here.take (here.length - ups) := by
  induction ups generalizing here with
  | zero => simp
  | succ ups ih =>
    rw [List.replicate_succ, List.foldl_cons, ih, enter, List.length_dropLast,
      List.dropLast_eq_take, List.take_take]
    congr 1
    omega

theorem locate_absolute {names : List String} (h : ∀ n ∈ names, ProperName n) (here : Location) :
    (⟨"/" ++ (ofNames names).text⟩ : Path).locate here = names := by
  have hcomponents : (⟨"/" ++ (ofNames names).text⟩ : Path).components =
      .root :: names.map .name := by
    rw [absolute_eq]
    exact (stepwise_names h).components_absolute
  rw [locate, hcomponents, List.foldl_cons, foldl_enter_names]
  rfl

theorem locate_relative (ups : Nat) {names : List String} (h : ∀ n ∈ names, ProperName n)
    (here : Location) :
    (ofNames (List.replicate ups ".." ++ names)).locate here =
      here.take (here.length - ups) ++ names := by
  have hcomponents : (ofNames (List.replicate ups ".." ++ names)).components =
      climbing ups names := by
    rw [relative_eq_chars]
    exact (stepwise_climbing ups h).components_relative
  rw [locate, hcomponents, climbing, List.foldl_append, foldl_enter_ups, foldl_enter_names]

/-- Canonical paths that lead to the same place from everywhere are the same. A directory without a
name tells them apart, since no path goes into one. -/
theorem Canonical.eq_of_locate {p q : Path} (hp : p.Canonical) (hq : q.Canonical)
    (h : ∀ here, p.locate here = q.locate here) : p = q := by
  have hfresh : ∀ {names : List String}, (∀ n ∈ names, ProperName n) → names.count "" = 0 :=
    fun hnames => List.count_eq_zero.2 fun hmem => (hnames _ hmem).1 rfl
  cases hp with
  | @absolute names hnames =>
    cases hq with
    | @absolute names' hnames' =>
      have hsame := h []
      rw [locate_absolute hnames, locate_absolute hnames'] at hsame
      rw [hsame]
    | @relative ups names' hnames' =>
      have hsame := h (List.replicate (ups + 1) "")
      rw [locate_absolute hnames, locate_relative ups hnames'] at hsame
      have hcount := hfresh hnames
      simp [hsame] at hcount
  | @relative ups names hnames =>
    cases hq with
    | @absolute names' hnames' =>
      have hsame := h (List.replicate (ups + 1) "")
      rw [locate_relative ups hnames, locate_absolute hnames'] at hsame
      have hcount := hfresh hnames'
      simp [← hsame] at hcount
    | @relative ups' names' hnames' =>
      have hsame := h (List.replicate (ups + ups') "")
      rw [locate_relative ups hnames, locate_relative ups' hnames'] at hsame
      have hups : ups' = ups := by
        simpa [hfresh hnames, hfresh hnames'] using congrArg (List.count "") hsame
      subst hups
      rw [List.append_cancel_left hsame]

theorem normalize_eq_iff {p q : Path} :
    p.normalize = q.normalize ↔ ∀ here, p.locate here = q.locate here := by
  constructor
  · intro h here
    rw [← locate_normalize p, h, locate_normalize]
  · intro h
    refine (canonical_normalize p).eq_of_locate (canonical_normalize q) fun here => ?_
    rw [locate_normalize, locate_normalize, h here]

/-- A joined path leads where the second path leads from where the first one does. -/
theorem locate_join (base p : Path) (here : Location) :
    (base.join p).locate here = p.locate (base.locate here) := by
  cases hp : p.isAbsolute with
  | true =>
    rw [join, if_pos hp, locate_eq, locate_eq, if_pos hp, if_pos hp]
  | false =>
    by_cases hbase : base.text = ""
    · have hnone : base.locate here = here := by
        rw [show base = ⟨""⟩ from congrArg Path.mk hbase]
        rfl
      simp [join, hp, hbase, hnone]
    · obtain ⟨front, hjoin, hfront⟩ := exists_join hbase hp
      have hstart : base.locate here =
          leads (if base.isAbsolute then [] else here) (Text.pieces '/' front) := by
        rw [locate_eq]
        rcases hfront with hfront | hfront
        · rw [hfront]
        · rw [hfront, Text.pieces_append, leads_append]
          exact leads_silent _ (.inl rfl) []
      rw [locate_eq (base.join p), isAbsolute_join hbase hp, hjoin, Text.pieces_append,
        leads_append, ← hstart, locate_eq p, hp]
      rfl

/-- Normalizing gives the one path of its shape that leads everywhere where the path leads, and may
come before joining. Paths of this shape are left as they are, and no others. -/
theorem normalize_canonical :
    (∀ p : Path, p.normalize.normalize = p.normalize ∧ p.normalize.Canonical) ∧
    (∀ p : Path, p.Canonical ↔ p.normalize = p) ∧
    (∀ (p : Path) here, p.normalize.locate here = p.locate here) ∧
    (∀ a b : Path, (a.join b).normalize = (a.normalize.join b).normalize) ∧
    ∀ p q : Path, p.normalize = q.normalize ↔ ∀ here, p.locate here = q.locate here := by
  refine ⟨fun p => ⟨normalize_normalize p, canonical_normalize p⟩, fun p => canonical_iff,
    locate_normalize, ?_, fun p q => normalize_eq_iff⟩
  intro a b
  refine normalize_eq_iff.2 fun here => ?_
  rw [locate_join, locate_join, locate_normalize]

end MarkupScene.Path
