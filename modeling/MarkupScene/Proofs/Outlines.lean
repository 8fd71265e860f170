import MarkupScene.Proofs.NamePaths
import MarkupScene.Widget.Scrolling

/-!
# Outlines

A search looks at the names and the widgets below a node and at nothing else, and so do name paths.
What changes only the looks or the size of nodes, wherever in a tree, leaves the outline of the tree
as it is, and searches and name paths with it. Children that are added at the end come too late to
be found first.
-/
namespace MarkupScene.Node

mutual

/-- The tree with nothing but names and widgets. -/
def bare : Node → Node
  | ⟨body, children⟩ => ⟨{ name := body.name, widget := body.widget }, bareAll children⟩

def bareAll : List Node → List Node
  | [] => []
  | c :: rest => c.bare :: bareAll rest

end

/-- What searches below a node can tell. -/
def outline (n : Node) : List Node := n.children.map bare

theorem bareAll_eq_map (children : List Node) : bareAll children = children.map bare := by
  induction children with
  | nil => rfl
  | cons c rest ih => rw [bareAll, ih, List.map_cons]

theorem bare_eq (n : Node) :
    n.bare = ⟨{ name := n.name, widget := n.widget }, n.outline⟩ := by
  obtain ⟨body, children⟩ := n
  rw [bare, bareAll_eq_map]
  rfl

theorem bare_congr {n m : Node} (hname : n.name = m.name) (hwidget : n.widget = m.widget)
    (houtline : n.outline = m.outline) : n.bare = m.bare := by
  rw [bare_eq, bare_eq, hname, hwidget, houtline]

theorem name_of_bare {n m : Node} (h : n.bare = m.bare) : n.name = m.name := by
  rw [bare_eq, bare_eq] at h
  exact congrArg (·.name) h

theorem outline_of_bare {n m : Node} (h : n.bare = m.bare) : n.outline = m.outline := by
  rw [bare_eq, bare_eq] at h
  exact congrArg (·.children) h

/-- A search among children goes into the first one that it finds something in. -/
theorem findAmong?_eq_some {p : Node → Bool} {k : Nat} {children : List Node} {way : List Nat}
    (h : findAmong? p k children = some way) :
    ∃ before c after rest, children = before ++ c :: after ∧ way = (k + before.length) :: rest ∧
      (∀ b ∈ before, p b = false ∧ b.find? p = none) ∧
      (p c = true ∧ rest = [] ∨ p c = false ∧ c.find? p = some rest) := by
  induction children generalizing k with
  | nil => cases h
  | cons c rest ih =>
    rw [findAmong?] at h
    split at h
    · next hc => exact ⟨[], c, rest, [], rfl, (Option.some.inj h).symm, nofun, .inl ⟨hc, rfl⟩⟩
    · next hc =>
      have hc : p c = false := Bool.eq_false_iff.2 hc
      split at h
      · next way' hway =>
        exact ⟨[], c, rest, way', rfl, (Option.some.inj h).symm, nofun, .inr ⟨hc, hway⟩⟩
      · next hnone =>
        obtain ⟨before, d, after, tail, rfl, hway, hbefore, hfound⟩ := ih h
        refine ⟨c :: before, d, after, tail, rfl, ?_, ?_, hfound⟩
        · rw [hway, List.length_cons, Nat.add_assoc, Nat.add_comm 1]
        · exact List.forall_mem_cons.2 ⟨⟨hc, hnone⟩, hbefore⟩

theorem find?_eq_some {p : Node → Bool} {n : Node} {way : List Nat} (h : n.find? p = some way) :
    ∃ i c rest, n.children[i]? = some c ∧ way = i :: rest ∧
      (p c = true ∧ rest = [] ∨ c.find? p = some rest) := by
  obtain ⟨body, children⟩ := n
  rw [find?] at h
  obtain ⟨before, c, after, rest, rfl, hway, -, hfound⟩ := findAmong?_eq_some h
  exact ⟨before.length, c, rest, by simp, by rw [hway, Nat.zero_add], hfound.imp_right And.right⟩

theorem descendant?_of_find? {p : Node → Bool} {n : Node} {way : List Nat}
    (h : n.find? p = some way) : way ≠ [] ∧ ∃ m, n.descendant? way = some m ∧ p m = true := by
  induction way generalizing n with
  | nil =>
    obtain ⟨i, c, rest, -, hway, -⟩ := find?_eq_some h
    cases hway
  | cons i way ih =>
    obtain ⟨j, c, rest, hc, hway, hfound⟩ := find?_eq_some h
    obtain ⟨rfl, rfl⟩ := List.cons.inj hway
    refine ⟨List.cons_ne_nil _ _, ?_⟩
    rw [descendant?, hc]
    rcases hfound with ⟨hp, rfl⟩ | hfound
    · exact ⟨c, rfl, hp⟩
    · exact (ih hfound).2

theorem designated?_of_find? {p : Node → Bool} {n : Node} {way : List Nat}
    (h : n.find? p = some way) : n.designated? (n.namePath way) = some way ↔ n.Clear way := by
  obtain ⟨hne, m, hm, -⟩ := descendant?_of_find? h
  exact designated?_namePath hne hm

mutual

theorem find?_bare {p : Node → Bool} (hp : ∀ m, p m.bare = p m) :
    (n : Node) → n.bare.find? p = n.find? p
  | ⟨body, children⟩ => by
    rw [bare, find?, find?]
    exact findAmong?_bareAll hp 0 children

theorem findAmong?_bareAll {p : Node → Bool} (hp : ∀ m, p m.bare = p m) (k : Nat) :
    (children : List Node) → findAmong? p k (bareAll children) = findAmong? p k children
  | [] => rfl
  | c :: rest => by
    rw [bareAll, findAmong?, findAmong?, hp c, find?_bare hp c,
      findAmong?_bareAll hp (k + 1) rest]

end

theorem find?_congr {p : Node → Bool} (hp : ∀ m, p m.bare = p m) {n m : Node}
    (h : n.outline = m.outline) : n.find? p = m.find? p := by
  have hchildren : ∀ a : Node, a.find? p = findAmong? p 0 a.outline := by
    rintro ⟨body, children⟩
    rw [find?, outline, ← bareAll_eq_map, findAmong?_bareAll hp]
  rw [hchildren, hchildren, h]

theorem namesAlong_congr {n m : Node} (h : n.outline = m.outline) (way : List Nat) :
    n.namesAlong way = m.namesAlong way := by
  induction way generalizing n m with
  | nil => rfl
  | cons i way ih =>
    have hi := congrArg (·[i]?) h
    simp only [outline, List.getElem?_map] at hi
    rw [namesAlong, namesAlong]
    cases hc : n.children[i]? with
    | none =>
      rw [hc] at hi
      rw [Option.map_eq_none_iff.1 hi.symm]
    | some c =>
      rw [hc] at hi
      obtain ⟨d, hd, hbare⟩ := Option.map_eq_some_iff.1 hi.symm
      rw [hd]
      dsimp only
      rw [name_of_bare hbare, ih (outline_of_bare hbare)]

theorem namePath_congr {n m : Node} (h : n.outline = m.outline) (way : List Nat) :
    n.namePath way = m.namePath way := by
  rw [namePath, namePath, namesAlong_congr h]

theorem findAmong?_append {p : Node → Bool} {k : Nat} {children : List Node} {way : List Nat}
    (h : findAmong? p k children = some way) (more : List Node) :
    findAmong? p k (children ++ more) = some way := by
  induction children generalizing k with
  | nil => cases h
  | cons c rest ih =>
    rw [findAmong?] at h
    rw [List.cons_append, findAmong?]
    split at h
    · next hc =>
      rw [if_pos hc]
      exact h
    · next hc =>
      rw [if_neg hc]
      split at h
      · exact h
      · exact ih h

theorem find?_append {p : Node → Bool} {n m : Node} {way : List Nat} (h : n.find? p = some way)
    {more : List Node} (hm : m.children = n.children ++ more) : m.find? p = some way := by
  obtain ⟨body, children⟩ := n
  obtain ⟨body', children'⟩ := m
  obtain rfl : children' = children ++ more := hm
  rw [find?] at h ⊢
  exact findAmong?_append h more

theorem namePath_append {p : Node → Bool} {n m : Node} {way : List Nat} (h : n.find? p = some way)
    {more : List Node} (hm : m.children = n.children ++ more) :
    m.namePath way = n.namePath way := by
  obtain ⟨i, c, rest, hc, rfl, -⟩ := find?_eq_some h
  have hi : i < n.children.length := (List.getElem?_eq_some_iff.1 hc).1
  rw [namePath, namePath, namesAlong, namesAlong, hm, List.getElem?_append_left hi]

theorem bare_modifyAt {f : Node → Node} (hf : ∀ m, (f m).bare = m.bare) (n : Node)
    (way : List Nat) : (n.modifyAt f way).bare = n.bare := by
  induction way generalizing n with
  | nil => exact hf n
  | cons i way ih =>
    rw [modifyAt]
    split
    · next c hc =>
      refine bare_congr rfl rfl ?_
      obtain ⟨hi, rfl⟩ := List.getElem?_eq_some_iff.1 hc
      change (n.children.set i _).map bare = n.children.map bare
      rw [List.map_set, ih, ← List.getElem_map bare (h := by simpa using hi), List.set_getElem_self]
    · rfl

end MarkupScene.Node
