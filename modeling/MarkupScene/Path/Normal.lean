import MarkupScene.Path.Basic

/-!
# Normal paths

Normalizing works on the text alone: dots vanish, and a step up cancels the name before it. A
step up from the root stays there, and at the start of a relative path it is kept. The main
statement is that normalizing twice is normalizing once.
-/
namespace MarkupScene.Path

/-- Takes one component onto the components read so far, last first. -/
def normalStep (read : List Component) (c : Component) : List Component :=
  match c, read with
  | .here, _ => read
  | .up, .name _ :: rest => rest
  | .up, .root :: _ => read
  | c, _ => c :: read

/-- The path with the given components, a root only at their start. -/
def ofComponents (cs : List Component) : Path :=
  match cs with
  | .root :: rest => ofChars ('/' :: ['/'].intercalate (rest.map Component.chars))
  | _ => ofChars (['/'].intercalate (cs.map Component.chars))

/-- The components of the normal path, last first. -/
def normalStack (cs : List Component) : List Component := cs.foldl normalStep []

def normalize (p : Path) : Path := ofComponents (normalStack p.components).reverse

/-- A name that a piece can stand for. -/
def ProperName (n : String) : Prop :=
  n.toList ≠ [] ∧ n.toList ≠ ['.'] ∧ n.toList ≠ ['.', '.'] ∧ '/' ∉ n.toList

instance : DecidablePred ProperName := fun n =>
  inferInstanceAs (Decidable (n.toList ≠ [] ∧ n.toList ≠ ['.'] ∧ n.toList ≠ ['.', '.'] ∧
    '/' ∉ n.toList))

/-- The components of normal paths, last first: names over steps up, or names over the root. -/
inductive NormalStack : List Component → Prop where
  | nil : NormalStack []
  | root : NormalStack [.root]
  | up {s} : NormalStack s → (∀ c ∈ s, c = .up) → NormalStack (.up :: s)
  | name {s n} : NormalStack s → ProperName n → NormalStack (.name n :: s)

theorem NormalStack.step {s : List Component} (h : NormalStack s) {c : Component}
    (hroot : c = .root → s = []) (hname : ∀ n, c = .name n → ProperName n) :
    NormalStack (normalStep s c) := by
  cases c with
  | root => rw [hroot rfl]; exact .root
  | here => cases h <;> simpa [normalStep] using by constructor <;> assumption
  | name n =>
    have := NormalStack.name h (hname n rfl)
    cases h <;> exact this
  | up =>
    cases h with
    | nil => exact .up .nil (by simp)
    | root => exact .root
    | up h hall =>
      refine .up (.up h hall) fun c hc => ?_
      rcases List.mem_cons.1 hc with rfl | hc
      · rfl
      · exact hall c hc
    | name h _ => exact h

/-- A normal stack is what its own components give. -/
theorem NormalStack.normalStack_reverse {s : List Component} (h : NormalStack s) :
    normalStack s.reverse = s := by
  induction h with
  | nil => rfl
  | root => rfl
  | @up s h hall ih =>
    simp only [normalStack, List.reverse_cons, List.foldl_append, List.foldl_cons,
      List.foldl_nil] at ih ⊢
    rw [ih]
    cases h with
    | nil => rfl
    | root => exact absurd (hall .root (by simp)) (by simp)
    | up => rfl
    | @name t n => exact absurd (hall (.name n) (by simp)) (by simp)
  | @name s n h hn ih =>
    simp only [normalStack, List.reverse_cons, List.foldl_append, List.foldl_cons,
      List.foldl_nil] at ih ⊢
    rw [ih]
    cases h <;> rfl

theorem proper_of_mem_inner {sep : List Char} {n : String} (hsep : '/' ∉ sep)
    (h : (Piece.inner sep).component? = some (.name n)) : ProperName n := by
  simp only [Piece.inner] at h
  split at h
  · simp at h
  · next h1 =>
    split at h
    · simp at h
    · next h2 =>
      simp only [Option.some.injEq, Component.name.injEq] at h
      subst h
      simp only [not_or] at h1
      exact ⟨by simpa using h1.1, by simpa using h1.2, by simpa using h2, by simpa using hsep⟩

theorem inner_ne_root (cs : List Char) : (Piece.inner cs).component? ≠ some .root := by
  simp only [Piece.inner]
  split
  · simp
  · split <;> simp

theorem mem_steps {p : Path} {c : Component} (h : c ∈ p.steps) :
    c ≠ .root ∧ ∀ n, c = .name n → ProperName n := by
  simp only [steps, List.mem_filterMap] at h
  obtain ⟨q, hq, hc⟩ := h
  have inner : ∀ cs, '/' ∉ cs → q = .inner cs →
      c ≠ .root ∧ ∀ n, c = .name n → ProperName n := by
    rintro cs hcs rfl
    refine ⟨fun e => inner_ne_root cs (hc.trans (congrArg some e)), fun n hn => ?_⟩
    exact proper_of_mem_inner hcs (hc.trans (congrArg some hn))
  simp only [pieces, piecesOf] at hq
  split at hq
  · obtain ⟨cs, hcs, rfl⟩ := List.mem_map.1 hq
    exact inner cs (Text.not_mem_of_mem_pieces hcs) rfl
  · split at hq
    · simp at hq
    · next first others hcut =>
      have hno : ∀ cs ∈ first :: others, '/' ∉ cs := fun cs hcs =>
        Text.not_mem_of_mem_pieces (hcut ▸ hcs)
      rcases List.mem_cons.1 hq with rfl | hq
      · simp only [Piece.leading] at hc
        split at hc
        · simp only [Option.some.injEq] at hc
          subst hc
          simp
        · next hdot =>
          exact inner first (hno _ (by simp)) (by simp [Piece.leading, hdot])
      · obtain ⟨cs, hcs, rfl⟩ := List.mem_map.1 hq
        exact inner cs (hno _ (by simp [hcs])) rfl

theorem normalStack_foldl {cs s : List Component} (h : NormalStack s)
    (hcs : ∀ c ∈ cs, c ≠ .root ∧ ∀ n, c = .name n → ProperName n) :
    NormalStack (cs.foldl normalStep s) := by
  induction cs generalizing s with
  | nil => exact h
  | cons c cs ih =>
    have hc := hcs c (by simp)
    exact ih (h.step (fun e => absurd e hc.1) hc.2) fun d hd => hcs d (by simp [hd])

theorem normalStack_components (p : Path) : NormalStack (normalStack p.components) := by
  simp only [normalStack, components]
  split
  · exact normalStack_foldl (s := [.root]) .root fun c hc => mem_steps hc
  · exact normalStack_foldl .nil fun c hc => mem_steps hc

theorem component_inner_name {n : String} (h : ProperName n) :
    (Piece.inner n.toList).component? = some (.name n) := by
  simp [Piece.inner, h.1, h.2.1, h.2.2.1]

theorem component_inner_up : (Piece.inner ['.', '.']).component? = some .up := rfl

/-- The steps of a normal stack below its root. -/
inductive Stepwise : List Component → Prop where
  | nil : Stepwise []
  | up {cs} : Stepwise cs → Stepwise (.up :: cs)
  | name {cs n} : ProperName n → Stepwise cs → Stepwise (.name n :: cs)

theorem Stepwise.append {cs ds : List Component} (h : Stepwise cs) (h' : Stepwise ds) :
    Stepwise (cs ++ ds) := by
  induction h with
  | nil => exact h'
  | up _ ih => exact .up ih
  | name hn _ ih => exact .name hn ih

theorem Stepwise.not_mem_slash {cs : List Component} (h : Stepwise cs) :
    ∀ s ∈ cs.map Component.chars, '/' ∉ s := by
  induction h with
  | nil => simp
  | up _ ih => simpa [Component.chars] using ih
  | name hn _ ih => simpa [Component.chars, hn.2.2.2] using ih

theorem Stepwise.components_inner {cs : List Component} (h : Stepwise cs) :
    ((cs.map Component.chars).map Piece.inner).filterMap (·.component?) = cs := by
  induction h with
  | nil => rfl
  | up _ ih =>
    simp only [List.map_cons, Component.chars, List.filterMap_cons, component_inner_up, ih]
  | name hn _ ih =>
    simp only [List.map_cons, Component.chars, List.filterMap_cons, component_inner_name hn, ih]

theorem Stepwise.ofPieces {cs : List Component} (h : Stepwise cs) :
    ((Text.pieces '/' (['/'].intercalate (cs.map Component.chars))).map
      Piece.inner).filterMap (·.component?) = cs := by
  by_cases hnil : cs = []
  · subst hnil; rfl
  · rw [Text.pieces_intercalate (by simpa using hnil) h.not_mem_slash, h.components_inner]

theorem Stepwise.head_ne_slash {cs : List Component} (h : Stepwise cs) :
    (['/'].intercalate (cs.map Component.chars)).head? ≠ some '/' := by
  cases h with
  | nil => simp [List.intercalate]
  | @up cs h =>
    cases cs <;> simp [List.intercalate, Component.chars]
  | @name cs n hn h =>
    obtain ⟨c, rest, hc⟩ := List.exists_cons_of_ne_nil hn.1
    have : c ≠ '/' := fun e => hn.2.2.2 (by simp [hc, e])
    cases cs <;> simp [List.intercalate, Component.chars, hc, this]

theorem Stepwise.leading_eq_inner {cs : List Component} (h : Stepwise cs) :
    ∀ s ∈ cs.map Component.chars, Piece.leading s = Piece.inner s := by
  induction h with
  | nil => simp
  | up _ ih => simpa [Component.chars, Piece.leading] using ih
  | name hn _ ih => simpa [Component.chars, Piece.leading, hn.2.1] using ih

theorem Stepwise.components_relative {cs : List Component} (h : Stepwise cs) :
    (ofChars (['/'].intercalate (cs.map Component.chars))).components = cs := by
  have hhead := h.head_ne_slash
  have hof := h.ofPieces
  simp only [components, isAbsolute, steps, pieces, ofChars, String.toList_ofList]
  rw [if_neg (by simpa using hhead)]
  generalize htext : ['/'].intercalate (cs.map Component.chars) = text at hhead hof ⊢
  unfold piecesOf
  split
  · simp at hhead
  · split
    · next hcut => exact absurd hcut (Text.pieces_ne_nil _ _)
    · next first others hcut =>
      rw [hcut] at hof
      by_cases hnil : cs = []
      · subst hnil
        have : text = [] := by simpa [List.intercalate] using htext.symm
        subst this
        simp only [Text.pieces, List.cons.injEq] at hcut
        obtain ⟨rfl, rfl⟩ := hcut
        rfl
      · have hfirst : first ∈ cs.map Component.chars := by
          rw [← htext, Text.pieces_intercalate (by simpa using hnil) h.not_mem_slash] at hcut
          rw [hcut]; simp
        rw [h.leading_eq_inner first hfirst]
        simpa using hof

theorem Stepwise.components_absolute {cs : List Component} (h : Stepwise cs) :
    (ofChars ('/' :: ['/'].intercalate (cs.map Component.chars))).components = .root :: cs := by
  simp only [components, isAbsolute, steps, pieces, ofChars, String.toList_ofList, piecesOf,
    List.head?_cons, decide_true, if_true, h.ofPieces]

theorem NormalStack.stepwise {s : List Component} (h : NormalStack s) :
    Stepwise s.reverse ∨ ∃ cs, s.reverse = .root :: cs ∧ Stepwise cs := by
  induction h with
  | nil => exact .inl .nil
  | root => exact .inr ⟨[], rfl, .nil⟩
  | @up s h hall ih =>
    refine .inl ?_
    rcases ih with ih | ⟨cs, hcs, _⟩
    · simpa using ih.append (.up .nil)
    · exact absurd (hall .root (by rw [← List.mem_reverse, hcs]; simp)) (by simp)
  | @name s n h hn ih =>
    rcases ih with ih | ⟨cs, hcs, hstep⟩
    · exact .inl (by simpa using ih.append (.name hn .nil))
    · exact .inr ⟨cs ++ [.name n], by simp [hcs], hstep.append (.name hn .nil)⟩

theorem NormalStack.components_ofComponents {s : List Component} (h : NormalStack s) :
    (ofComponents s.reverse).components = s.reverse := by
  rcases h.stepwise with hs | ⟨cs, hcs, hs⟩
  · have : ofComponents s.reverse =
        ofChars (['/'].intercalate (s.reverse.map Component.chars)) := by
      generalize s.reverse = cs at hs
      cases hs <;> rfl
    rw [this, hs.components_relative]
  · rw [hcs]
    exact hs.components_absolute

theorem components_normalize (p : Path) :
    p.normalize.components = (normalStack p.components).reverse :=
  (normalStack_components p).components_ofComponents

theorem normalize_normalize (p : Path) : p.normalize.normalize = p.normalize := by
  have h : normalStack p.normalize.components = normalStack p.components := by
    rw [components_normalize, (normalStack_components p).normalStack_reverse]
  rw [normalize, h, normalize]

end MarkupScene.Path
