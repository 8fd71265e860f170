import MarkupScene.Scene.Search
import MarkupScene.Text.Split

/-!
# Name paths

A name path is cut at its slashes and followed by taking the first child with each name. The main
statement is that the path of a descendant leads back to it exactly when the way is clear: no node
on the way has an elder sibling of its name, and no name on the way holds a slash.
-/
namespace MarkupScene

namespace Text

theorem length_pieces (sep : Char) (s : List Char) : (pieces sep s).length = s.count sep + 1 := by
  induction s with
  | nil => rfl
  | cons c rest ih =>
    unfold pieces
    split
    · next h =>
      rw [List.length_cons, ih, h, List.count_cons_self]
    · next h =>
      obtain ⟨p, ps, hp⟩ := List.exists_cons_of_ne_nil (pieces_ne_nil sep rest)
      rw [hp] at ih ⊢
      rw [List.count_cons_of_ne h]
      exact ih

/-- A joined text is cut into as many pieces as were joined only if none of them is cut itself. -/
theorem not_mem_of_length_pieces {sep : Char} {ps : List (List Char)}
    (h : (pieces sep ([sep].intercalate ps)).length = ps.length) : ∀ p ∈ ps, sep ∉ p := by
  have hcount : ∀ qs : List (List Char), qs.length ≤ ([sep].intercalate qs).count sep + 1 ∧
      (([sep].intercalate qs).count sep + 1 = qs.length → ∀ q ∈ qs, sep ∉ q) := by
    intro qs
    induction qs with
    | nil => simp
    | cons q qs ih =>
      cases qs with
      | nil =>
        refine ⟨by simp, fun h r hr => ?_⟩
        obtain rfl := List.mem_singleton.1 hr
        rw [List.intercalate_singleton, List.length_singleton] at h
        exact List.count_eq_zero.1 (by omega)
      | cons r rs =>
        have hjoin : [sep].intercalate (q :: r :: rs) =
            q ++ sep :: [sep].intercalate (r :: rs) := by
          simp [List.intercalate]
        rw [hjoin, List.count_append, List.count_cons_self, List.length_cons]
        refine ⟨by omega, fun h p hp => ?_⟩
        rcases List.mem_cons.1 hp with rfl | hp
        · exact List.count_eq_zero.1 (by omega)
        · exact ih.2 (by omega) p hp
  rw [length_pieces] at h
  exact (hcount ps).2 h

end Text

namespace Node

theorem descendant?_cons (n : Node) (i : Nat) (way : List Nat) :
    n.descendant? (i :: way) = n.children[i]?.bind fun c => c.descendant? way := by
  rw [descendant?]
  cases n.children[i]? <;> rfl

theorem descendant?_append (n : Node) (above below : List Nat) :
    n.descendant? (above ++ below) = (n.descendant? above).bind fun c => c.descendant? below := by
  induction above generalizing n with
  | nil => rfl
  | cons i above ih =>
    rw [List.cons_append, descendant?_cons, descendant?_cons, Option.bind_assoc]
    simp only [ih]

theorem descendant?_child {n m : Node} {way : List Nat} {i : Nat}
    (h : n.descendant? way = some m) :
    n.descendant? (way ++ [i]) = m.children[i]? := by
  rw [descendant?_append, h, Option.bind_some, descendant?_cons]
  simp [descendant?]

/-- The way along names, with the first child of each name. -/
def follow? (n : Node) : List String → Option (List Nat)
  | [] => some []
  | name :: rest =>
    match n.children.findIdx? fun c => c.name = name with
    | some i =>
      match n.children[i]? with
      | some c => (c.follow? rest).map (i :: ·)
      | none => none
    | none => none

/-- The way that a name path designates. -/
def designated? (n : Node) (path : String) : Option (List Nat) :=
  n.follow? ((Text.pieces '/' path.toList).map String.ofList)

/-- No node on the way has an elder sibling of its name or a slash in its name. -/
def Clear (n : Node) : List Nat → Prop
  | [] => True
  | i :: way => ∃ c, n.children[i]? = some c ∧ '/' ∉ c.name.toList ∧
    (∀ b ∈ n.children.take i, b.name ≠ c.name) ∧ c.Clear way

theorem length_follow? {n : Node} {names : List String} {way : List Nat}
    (h : n.follow? names = some way) : way.length = names.length := by
  induction names generalizing n way with
  | nil =>
    obtain rfl := Option.some.inj h
    rfl
  | cons name rest ih =>
    unfold follow? at h
    split at h
    · split at h
      · obtain ⟨tail, htail, rfl⟩ := Option.map_eq_some_iff.1 h
        rw [List.length_cons, List.length_cons, ih htail]
      · cases h
    · cases h

theorem length_namesAlong {n m : Node} {way : List Nat} (h : n.descendant? way = some m) :
    (n.namesAlong way).length = way.length := by
  induction way generalizing n with
  | nil => rfl
  | cons i way ih =>
    unfold descendant? at h
    split at h
    · next c hc =>
      rw [namesAlong, hc]
      dsimp only
      rw [List.length_cons, List.length_cons, ih h]
    · cases h

theorem findIdx?_name_eq_some_iff {children : List Node} {i : Nat} {c : Node}
    (hc : children[i]? = some c) :
    (children.findIdx? fun b => b.name = c.name) = some i ↔
      ∀ b ∈ children.take i, b.name ≠ c.name := by
  obtain ⟨hi, rfl⟩ := List.getElem?_eq_some_iff.1 hc
  rw [List.findIdx?_eq_some_iff_getElem]
  constructor
  · intro hfirst b hb hname
    obtain ⟨_, -, hbefore⟩ := hfirst
    obtain ⟨j, hj, rfl⟩ := List.mem_take_iff_getElem.1 hb
    exact hbefore j (by omega) (decide_eq_true hname)
  · intro hbefore
    refine ⟨hi, decide_eq_true rfl, fun j hj hname => ?_⟩
    exact hbefore _ (List.mem_take_iff_getElem.2 ⟨j, by omega, rfl⟩) (of_decide_eq_true hname)

/-- The names along a way lead back when no elder sibling is in the way. -/
theorem follow?_namesAlong {n m : Node} {way : List Nat} (h : n.descendant? way = some m) :
    (n.follow? (n.namesAlong way) = some way ∧ ∀ name ∈ n.namesAlong way, '/' ∉ name.toList) ↔
      n.Clear way := by
  -- By induction on the way: each name must find its own child among the siblings.
  induction way generalizing n with
  | nil =>
    refine ⟨fun _ => trivial, fun _ => ⟨rfl, fun name hname => ?_⟩⟩
    cases hname
  | cons i way ih =>
    unfold descendant? at h
    split at h
    · next c hc =>
      have hnames : n.namesAlong (i :: way) = c.name :: c.namesAlong way := by
        rw [namesAlong, hc]
      rw [hnames, List.forall_mem_cons]
      have hclear := ih h
      constructor
      · rintro ⟨hfollow, hslash, hslashes⟩
        unfold follow? at hfollow
        split at hfollow
        · next j hj =>
          split at hfollow
          · next d hd =>
            obtain ⟨tail, htail, heq⟩ := Option.map_eq_some_iff.1 hfollow
            obtain ⟨rfl, rfl⟩ := List.cons.inj heq
            obtain rfl := Option.some.inj (hc.symm.trans hd)
            exact ⟨c, hc, hslash, (findIdx?_name_eq_some_iff hc).1 hj,
              hclear.1 ⟨htail, hslashes⟩⟩
          · cases hfollow
        · cases hfollow
      · rintro ⟨d, hd, hslash, hbefore, hrest⟩
        obtain rfl := Option.some.inj (hc.symm.trans hd)
        obtain ⟨hfollow, hslashes⟩ := hclear.2 hrest
        refine ⟨?_, hslash, hslashes⟩
        unfold follow?
        rw [(findIdx?_name_eq_some_iff hc).2 hbefore]
        dsimp only
        rw [hc]
        dsimp only
        rw [hfollow]
        rfl
    · cases h

theorem toList_namePath (n : Node) (way : List Nat) :
    (n.namePath way).toList = ['/'].intercalate ((n.namesAlong way).map String.toList) := by
  rw [namePath, String.toList_intercalate]
  rfl

theorem map_ofList_toList (names : List String) :
    (names.map String.toList).map String.ofList = names := by
  rw [List.map_map]
  exact List.map_id'' (fun name => String.ofList_toList) names

/-- The name path of a descendant designates it exactly when the way to it is clear. -/
theorem designated?_namePath {n m : Node} {way : List Nat} (hne : way ≠ [])
    (h : n.descendant? way = some m) :
    n.designated? (n.namePath way) = some way ↔ n.Clear way := by
  rw [← follow?_namesAlong h, designated?, toList_namePath]
  have hlength := length_namesAlong h
  have hnames : (n.namesAlong way).map String.toList ≠ [] := by
    intro hnil
    rw [List.map_eq_nil_iff.1 hnil] at hlength
    exact hne (List.length_eq_zero_iff.1 hlength.symm)
  constructor
  · intro hfollow
    have hslashes : ∀ name ∈ n.namesAlong way, '/' ∉ name.toList := by
      have hpieces := length_follow? hfollow
      rw [List.length_map] at hpieces
      have hcut : ∀ p ∈ (n.namesAlong way).map String.toList, '/' ∉ p :=
        Text.not_mem_of_length_pieces (by rw [← hpieces, List.length_map, hlength])
      exact fun name hname => hcut _ (List.mem_map_of_mem hname)
    rw [Text.pieces_intercalate hnames (List.forall_mem_map.2 hslashes), map_ofList_toList]
      at hfollow
    exact ⟨hfollow, hslashes⟩
  · rintro ⟨hfollow, hslashes⟩
    rw [Text.pieces_intercalate hnames (List.forall_mem_map.2 hslashes), map_ofList_toList]
    exact hfollow

end Node

end MarkupScene
