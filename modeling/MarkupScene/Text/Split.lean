/-!
# Cutting text at a character

`pieces` cuts at every occurrence of a separator, `splitFirst` and `splitLast` at one of them.
A text without the separator is one piece. `lines` cuts after each line feed and takes one
carriage return away with it; a text that ends in a line feed has no line after it. The size of a
text counts the one to four bytes of each of its characters.
-/
namespace MarkupScene.Text

/-- The number of bytes that a text takes up. -/
def byteSize : List Char → Nat
  | [] => 0
  | c :: rest => c.utf8Size + byteSize rest

def pieces (sep : Char) : List Char → List (List Char)
  | [] => [[]]
  | c :: rest =>
    if c = sep then [] :: pieces sep rest
    else match pieces sep rest with
      | [] => [[c]]
      | p :: ps => (c :: p) :: ps

theorem pieces_ne_nil (sep : Char) (s : List Char) : pieces sep s ≠ [] := by
  cases s with
  | nil => simp [pieces]
  | cons c rest =>
    unfold pieces
    split
    · simp
    · split <;> simp

/-- The pieces, joined by the separator again, are the text. -/
theorem intercalate_pieces (sep : Char) (s : List Char) :
    [sep].intercalate (pieces sep s) = s := by
  induction s with
  | nil => rfl
  | cons c rest ih =>
    unfold pieces
    split
    · next h =>
      obtain ⟨p, ps, hp⟩ := List.exists_cons_of_ne_nil (pieces_ne_nil sep rest)
      rw [hp] at ih ⊢
      simp [List.intercalate, h] at ih ⊢
      exact ih
    · next h =>
      obtain ⟨p, ps, hp⟩ := List.exists_cons_of_ne_nil (pieces_ne_nil sep rest)
      rw [hp] at ih ⊢
      cases ps <;> simp [List.intercalate] at ih ⊢ <;> exact ih

/-- No piece holds the separator. -/
theorem not_mem_of_mem_pieces {sep : Char} {s p : List Char} (h : p ∈ pieces sep s) :
    sep ∉ p := by
  induction s generalizing p with
  | nil => simp [pieces] at h; simp [h]
  | cons c rest ih =>
    unfold pieces at h
    split at h
    · rcases List.mem_cons.1 h with rfl | h
      · simp
      · exact ih h
    · next hc =>
      split at h
      · simp at h; subst h; simp; exact fun e => hc e.symm
      · next q qs hq =>
        rcases List.mem_cons.1 h with rfl | h
        · have := ih (p := q) (by simp [hq])
          simp [this]; exact fun e => hc e.symm
        · exact ih (by simp [hq, h])

/-- A text without the separator is its only piece. -/
theorem pieces_of_not_mem {sep : Char} {s : List Char} (h : sep ∉ s) : pieces sep s = [s] := by
  induction s with
  | nil => rfl
  | cons c rest ih =>
    simp only [List.mem_cons, not_or] at h
    simp [pieces, ih h.2, Ne.symm h.1]

theorem pieces_append_cons {sep : Char} {p : List Char} (h : sep ∉ p) (rest : List Char) :
    pieces sep (p ++ sep :: rest) = p :: pieces sep rest := by
  induction p with
  | nil => simp [pieces]
  | cons c p ih =>
    simp only [List.mem_cons, not_or] at h
    simp [pieces, ih h.2, Ne.symm h.1]

/-- Joining pieces that do not hold the separator and cutting again gives them back. -/
theorem pieces_intercalate {sep : Char} {ps : List (List Char)} (hne : ps ≠ [])
    (h : ∀ p ∈ ps, sep ∉ p) : pieces sep ([sep].intercalate ps) = ps := by
  induction ps with
  | nil => exact absurd rfl hne
  | cons p ps ih =>
    cases ps with
    | nil => simpa [List.intercalate] using pieces_of_not_mem (h p (by simp))
    | cons q qs =>
      have hq := ih (by simp) fun r hr => h r (List.mem_cons_of_mem _ hr)
      have : [sep].intercalate (p :: q :: qs) = p ++ sep :: [sep].intercalate (q :: qs) := by
        simp [List.intercalate]
      rw [this, pieces_append_cons (h p (by simp)), hq]

/-- The text before the first separator and the text after it. -/
def splitFirst (sep : Char) : List Char → Option (List Char × List Char)
  | [] => none
  | c :: rest =>
    if c = sep then some ([], rest)
    else (splitFirst sep rest).map fun (before, after) => (c :: before, after)

theorem splitFirst_eq_some_iff {sep : Char} {s front rest : List Char} :
    splitFirst sep s = some (front, rest) ↔ s = front ++ sep :: rest ∧ sep ∉ front := by
  induction s generalizing front with
  | nil => simp [splitFirst]
  | cons c s ih =>
    rw [splitFirst]
    split
    · next hc =>
      cases front with
      | nil => simp [hc]
      | cons d front =>
        simp only [Option.some.injEq, Prod.mk.injEq, List.cons_append, List.cons.injEq,
          List.mem_cons, not_or]
        grind
    · next hc =>
      cases front with
      | nil => simp [hc]
      | cons d front =>
        simp only [Option.map_eq_some_iff, Prod.exists, Prod.mk.injEq, List.cons_append,
          List.cons.injEq, List.mem_cons, not_or]
        grind

theorem eq_of_splitFirst {sep : Char} {s front rest : List Char}
    (h : splitFirst sep s = some (front, rest)) : s = front ++ sep :: rest :=
  (splitFirst_eq_some_iff.1 h).1

theorem splitFirst_append {sep : Char} {p : List Char} (h : sep ∉ p) (rest : List Char) :
    splitFirst sep (p ++ sep :: rest) = some (p, rest) :=
  splitFirst_eq_some_iff.2 ⟨rfl, h⟩

theorem splitFirst_of_not_mem {sep : Char} {s : List Char} (h : sep ∉ s) :
    splitFirst sep s = none := by
  cases hsplit : splitFirst sep s with
  | none => rfl
  | some parts =>
    rw [eq_of_splitFirst hsplit] at h
    exact absurd (List.mem_append_right _ List.mem_cons_self) h

/-- The text before the last separator and the text after it. -/
def splitLast (sep : Char) (s : List Char) : Option (List Char × List Char) :=
  (splitFirst sep s.reverse).map fun (after, before) => (before.reverse, after.reverse)

theorem splitLast_eq_some_iff {sep : Char} {s front rest : List Char} :
    splitLast sep s = some (front, rest) ↔ s = front ++ sep :: rest ∧ sep ∉ rest := by
  have hreverse : splitLast sep s = some (front, rest) ↔
      splitFirst sep s.reverse = some (rest.reverse, front.reverse) := by
    simp only [splitLast, Option.map_eq_some_iff, Prod.exists, Prod.mk.injEq]
    constructor
    · rintro ⟨after, before, hsplit, rfl, rfl⟩
      simpa using hsplit
    · intro hsplit
      exact ⟨_, _, hsplit, List.reverse_reverse _, List.reverse_reverse _⟩
  rw [hreverse, splitFirst_eq_some_iff, List.mem_reverse, List.reverse_eq_iff]
  simp

theorem eq_of_splitLast {sep : Char} {s front rest : List Char}
    (h : splitLast sep s = some (front, rest)) : s = front ++ sep :: rest :=
  (splitLast_eq_some_iff.1 h).1

theorem splitLast_append {sep : Char} {rest : List Char} (h : sep ∉ rest) (p : List Char) :
    splitLast sep (p ++ sep :: rest) = some (p, rest) :=
  splitLast_eq_some_iff.2 ⟨rfl, h⟩

/-- One line without the carriage return that stands before its line feed. -/
def dropReturn (line : List Char) : List Char :=
  match line.reverse with
  | '\r' :: rest => rest.reverse
  | _ => line

/-- All lines but the last end in a line feed; an empty last one does not count. -/
def lines (s : List Char) : List (List Char) :=
  let all := pieces '\n' s
  let last := all.getLast?.getD []
  all.dropLast.map dropReturn ++ if last.isEmpty then [] else [last]

/-- The rest of a text after a given beginning. -/
def dropStart? : List Char → List Char → Option (List Char)
  | [], s => some s
  | _ :: _, [] => none
  | p :: ps, c :: s => if p = c then dropStart? ps s else none

theorem dropStart?_eq_some_iff {p s rest : List Char} :
    dropStart? p s = some rest ↔ s = p ++ rest := by
  induction p generalizing s with
  | nil => simp [dropStart?, eq_comm]
  | cons c p ih =>
    cases s with
    | nil => simp [dropStart?]
    | cons d s =>
      by_cases h : c = d
      · simp [dropStart?, h, ih]
      · simp [dropStart?, h, Ne.symm h]

end MarkupScene.Text
