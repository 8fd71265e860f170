import MarkupScene.Proofs.Outlines

/-!
# Document order

Ways into a tree are ordered as lists of indices. A way comes before the ways that go on from its
end, and of two ways that part the one with the smaller index comes first, which is the order of the
nodes in the document. The main statement is that a search finds nothing just when no descendant
satisfies the test, and otherwise the first of all ways to one that does. The way found leads to its
node for looking and for changing, and its name path has one name for each step.
-/
namespace MarkupScene.Node

variable {p : Node → Bool} {n m : Node} {way : List Nat}

/-- The way goes down to a descendant that satisfies the test. -/
def LeadsTo (n : Node) (p : Node → Bool) (way : List Nat) : Prop :=
  way ≠ [] ∧ ∃ m, n.descendant? way = some m ∧ p m = true

theorem leadsTo_cons {i : Nat} :
    n.LeadsTo p (i :: way) ↔
      ∃ c, n.children[i]? = some c ∧ (way = [] ∧ p c = true ∨ c.LeadsTo p way) := by
  rw [LeadsTo, descendant?_cons]
  constructor
  · rintro ⟨-, m, hm, hp⟩
    obtain ⟨c, hc, hm⟩ := Option.bind_eq_some_iff.1 hm
    refine ⟨c, hc, ?_⟩
    cases way with
    | nil =>
      obtain rfl := Option.some.inj hm
      exact .inl ⟨rfl, hp⟩
    | cons j way => exact .inr ⟨List.cons_ne_nil _ _, m, hm, hp⟩
  · rintro ⟨c, hc, ⟨rfl, hp⟩ | ⟨-, m, hm, hp⟩⟩
    · exact ⟨List.cons_ne_nil _ _, c, by rw [hc]; rfl, hp⟩
    · exact ⟨List.cons_ne_nil _ _, m, by rw [hc]; exact hm, hp⟩

theorem findAmong?_eq_none_iff {k : Nat} {children : List Node} :
    findAmong? p k children = none ↔ ∀ c ∈ children, p c = false ∧ c.find? p = none := by
  induction children generalizing k with
  | nil => exact ⟨fun _ => nofun, fun _ => rfl⟩
  | cons c rest ih =>
    rw [findAmong?, List.forall_mem_cons]
    by_cases hp : p c = true
    · simp [hp]
    · cases hc : c.find? p with
      | some way => simp [hp]
      | none => simp [hp, ih]

theorem find?_eq_none_iff : n.find? p = none ↔ ∀ way, ¬n.LeadsTo p way := by
  constructor
  · intro h way hway
    induction way generalizing n with
    | nil => exact hway.1 rfl
    | cons i way ih =>
      obtain ⟨body, children⟩ := n
      rw [find?, findAmong?_eq_none_iff] at h
      obtain ⟨c, hc, hfound⟩ := leadsTo_cons.1 hway
      obtain ⟨hp, hnone⟩ := h c (List.mem_of_getElem? hc)
      rcases hfound with ⟨-, hsatisfied⟩ | hbelow
      · exact Bool.false_ne_true (hp.symm.trans hsatisfied)
      · exact ih hnone hbelow
  · intro h
    cases hfound : n.find? p with
    | none => rfl
    | some way => exact absurd (descendant?_of_find? hfound) (h way)

/-- Every other way to a descendant that satisfies the test comes after the way found. -/
theorem lt_of_find? (h : n.find? p = some way) {other : List Nat} (hother : n.LeadsTo p other) :
    other = way ∨ way < other := by
  induction way generalizing n other with
  | nil => exact absurd rfl (descendant?_of_find? h).1
  | cons i way ih =>
    obtain ⟨body, children⟩ := n
    rw [find?] at h
    obtain ⟨before, c, after, rest, rfl, hway, hbefore, hfound⟩ := findAmong?_eq_some h
    obtain ⟨rfl, rfl⟩ := List.cons.inj hway
    rw [Nat.zero_add] at *
    cases other with
    | nil => exact absurd rfl hother.1
    | cons j other =>
      obtain ⟨d, hd, hdown⟩ := leadsTo_cons.1 hother
      rcases Nat.lt_trichotomy j before.length with hlt | rfl | hgt
      · -- an elder sibling, which the search has left behind
        rw [List.getElem?_append_left hlt] at hd
        obtain ⟨hp, hnone⟩ := hbefore d (List.mem_of_getElem? hd)
        rcases hdown with ⟨-, hsatisfied⟩ | hbelow
        · exact absurd (hp.symm.trans hsatisfied) Bool.false_ne_true
        · exact absurd hbelow (find?_eq_none_iff.1 hnone other)
      · obtain rfl : c = d := by simpa using hd
        rcases hfound with ⟨-, rfl⟩ | ⟨hp, hrest⟩
        · cases other with
          | nil => exact .inl rfl
          | cons k other => exact .inr (List.Lex.cons List.Lex.nil)
        · rcases hdown with ⟨-, hsatisfied⟩ | hbelow
          · exact absurd (hp.symm.trans hsatisfied) Bool.false_ne_true
          · exact (ih hrest hbelow).imp (congrArg _) List.Lex.cons
      · exact .inr (List.Lex.rel hgt)

theorem find?_eq_some_iff : n.find? p = some way ↔
    n.LeadsTo p way ∧ ∀ other, n.LeadsTo p other → other = way ∨ way < other := by
  refine ⟨fun h => ⟨descendant?_of_find? h, fun other hother => lt_of_find? h hother⟩, ?_⟩
  rintro ⟨hway, hfirst⟩
  cases hfound : n.find? p with
  | none => exact absurd hway (find?_eq_none_iff.1 hfound way)
  | some found =>
    rcases hfirst found (descendant?_of_find? hfound) with rfl | hlt
    · rfl
    · rcases lt_of_find? hfound hway with rfl | hgt
      · rfl
      · exact absurd hgt (List.lt_asymm hlt)

theorem descendant?_modifyAt (f : Node → Node) (h : n.descendant? way = some m) :
    (n.modifyAt f way).descendant? way = some (f m) := by
  induction way generalizing n with
  | nil =>
    obtain rfl := Option.some.inj h
    rfl
  | cons i way ih =>
    rw [descendant?_cons] at h
    obtain ⟨c, hc, hm⟩ := Option.bind_eq_some_iff.1 h
    rw [modifyAt, hc, descendant?_cons]
    change (n.children.set i (c.modifyAt f way))[i]?.bind _ = _
    rw [List.getElem?_set_self (List.getElem?_eq_some_iff.1 hc).1]
    exact ih hm

/-- A change at the end of a way shows in no node but that one and those below it. -/
theorem toBody_descendant?_modifyAt_of_not_prefix (f : Node → Node) (n : Node)
    {way other : List Nat} (h : ¬way <+: other) :
    ((n.modifyAt f way).descendant? other).map toBody = (n.descendant? other).map toBody := by
  induction way generalizing n other with
  | nil => exact absurd List.nil_prefix h
  | cons i way ih =>
    rw [modifyAt]
    split
    · next c hc =>
      cases other with
      | nil => rfl
      | cons j other =>
        rw [descendant?_cons, descendant?_cons]
        by_cases hij : i = j
        · subst hij
          rw [List.getElem?_set_self (List.getElem?_eq_some_iff.1 hc).1, hc]
          exact ih c fun hprefix => h (List.cons_prefix_cons.2 ⟨rfl, hprefix⟩)
        · rw [List.getElem?_set_ne hij]
    · rfl

theorem getElem?_namesAlong (h : n.descendant? way = some m) {k : Nat} (hk : k < way.length) :
    (n.namesAlong way)[k]? = (n.descendant? (way.take (k + 1))).map (·.name) := by
  induction way generalizing n k with
  | nil => cases hk
  | cons i way ih =>
    rw [descendant?_cons] at h
    obtain ⟨c, hc, hm⟩ := Option.bind_eq_some_iff.1 h
    rw [namesAlong, hc, List.take_succ_cons, descendant?_cons, hc, Option.bind_some]
    cases k with
    | zero => rfl
    | succ k => exact ih hm (Nat.lt_of_succ_lt_succ hk)

/-- A search finds nothing just when no descendant satisfies the test, and a way just when it is the
first in document order of those that lead to one. The way reaches a node that satisfies the test,
changing the tree there changes that node and none that is not below it, and the name path has the
names of the nodes along the way, one for each step. -/
theorem find?_first_in_document (n : Node) (p : Node → Bool) :
    (n.find? p = none ↔ ∀ way, ¬n.LeadsTo p way) ∧
    (∀ way, n.find? p = some way ↔
      n.LeadsTo p way ∧ ∀ other, n.LeadsTo p other → other = way ∨ way < other) ∧
    ∀ way, n.find? p = some way →
      (∃ m, n.descendant? way = some m ∧ p m = true ∧
        ∀ f, (n.modifyAt f way).descendant? way = some (f m) ∧
          ∀ other, ¬way <+: other →
            ((n.modifyAt f way).descendant? other).map toBody =
              (n.descendant? other).map toBody) ∧
      ∃ names, n.namePath way = "/".intercalate names ∧ names.length = way.length ∧
        ∀ k < way.length, names[k]? = (n.descendant? (way.take (k + 1))).map (·.name) := by
  refine ⟨find?_eq_none_iff, fun way => find?_eq_some_iff, fun way h => ?_⟩
  obtain ⟨-, m, hm, hp⟩ := descendant?_of_find? h
  have hchanges : ∀ f, (n.modifyAt f way).descendant? way = some (f m) ∧
      ∀ other, ¬way <+: other →
        ((n.modifyAt f way).descendant? other).map toBody =
          (n.descendant? other).map toBody :=
    fun f => ⟨descendant?_modifyAt f hm,
      fun other hother => toBody_descendant?_modifyAt_of_not_prefix f n hother⟩
  exact ⟨⟨m, hm, hp, hchanges⟩, n.namesAlong way, rfl, length_namesAlong hm,
    fun k hk => getElem?_namesAlong hm hk⟩

end MarkupScene.Node
