/-!
# Blank characters

A character is blank when it has the Unicode property White_Space: the twenty-five characters
listed below and no other. The zero-width space U+200B and the byte order mark U+FEFF are not
blank. A text is trimmed by dropping its blank ends, and its words are the runs between blanks.
-/
namespace MarkupScene.Text

/-- The code points of White_Space, as closed ranges in ascending order. -/
def blankRanges : List (Nat × Nat) :=
  [(0x0009, 0x000D), (0x0020, 0x0020), (0x0085, 0x0085), (0x00A0, 0x00A0), (0x1680, 0x1680),
    (0x2000, 0x200A), (0x2028, 0x2029), (0x202F, 0x202F), (0x205F, 0x205F), (0x3000, 0x3000)]

def isBlank (c : Char) : Bool :=
  blankRanges.any fun r => r.1 ≤ c.toNat && c.toNat ≤ r.2

example : blankRanges.foldl (fun n r => n + (r.2 - r.1 + 1)) 0 = 25 := by decide

def trimLeft (s : List Char) : List Char := s.dropWhile isBlank

def trimRight (s : List Char) : List Char := (s.reverse.dropWhile isBlank).reverse

def trimChars (s : List Char) : List Char := trimRight (trimLeft s)

def trim (s : String) : String := .ofList (trimChars s.toList)

/-- A text that neither starts nor ends with a blank. -/
def Trimmed (s : List Char) : Prop :=
  (∀ c, s.head? = some c → isBlank c = false) ∧ ∀ c, s.getLast? = some c → isBlank c = false

theorem not_blank_of_head?_dropWhile {s : List Char} {c : Char}
    (h : (s.dropWhile isBlank).head? = some c) : isBlank c = false := by
  have hnot := List.head?_dropWhile_not isBlank s
  rw [h] at hnot
  exact hnot

theorem trimRight_beginning (s : List Char) : trimRight s <+: s := by
  rw [← List.reverse_suffix, trimRight, List.reverse_reverse]
  exact List.dropWhile_suffix _

theorem trimmed_trimChars (s : List Char) : Trimmed (trimChars s) := by
  constructor
  · intro c hc
    obtain ⟨rest, hrest⟩ := trimRight_beginning (trimLeft s)
    have hstart : (trimLeft s).head? = some c := by
      rw [← hrest, List.head?_append, show (trimRight (trimLeft s)).head? = some c from hc]
      rfl
    exact not_blank_of_head?_dropWhile hstart
  · intro c hc
    rw [trimChars, trimRight, List.getLast?_reverse] at hc
    exact not_blank_of_head?_dropWhile hc

theorem mem_of_mem_trimChars {s : List Char} {c : Char} (h : c ∈ trimChars s) : c ∈ s :=
  (List.dropWhile_suffix _).subset ((trimRight_beginning _).subset h)

theorem dropWhile_isBlank {s : List Char} (h : ∀ c, s.head? = some c → isBlank c = false) :
    s.dropWhile isBlank = s := by
  cases s with
  | nil => rfl
  | cons c rest => rw [List.dropWhile_cons_of_neg (by simp [h c rfl])]

/-- Blanks around a trimmed text are what trimming takes away. -/
theorem trimChars_surrounded {before s after : List Char} (hs : Trimmed s) (hne : s ≠ [])
    (hbefore : ∀ c ∈ before, isBlank c = true) (hafter : ∀ c ∈ after, isBlank c = true) :
    trimChars (before ++ s ++ after) = s := by
  have hleft : trimLeft (before ++ s ++ after) = s ++ after := by
    rw [trimLeft, List.append_assoc, List.dropWhile_append_of_pos hbefore]
    obtain ⟨x, rest, rfl⟩ := List.exists_cons_of_ne_nil hne
    exact dropWhile_isBlank hs.1
  have hright : ∀ c, s.reverse.head? = some c → isBlank c = false := by
    intro c hc
    exact hs.2 c (by rwa [List.head?_reverse] at hc)
  rw [trimChars, hleft, trimRight, List.reverse_append,
    List.dropWhile_append_of_pos fun c hc => hafter c (List.mem_reverse.1 hc),
    dropWhile_isBlank hright, List.reverse_reverse]

/-- The maximal runs of characters that are not blank. `run` is the run being read. -/
def wordsFrom (run : List Char) : List Char → List (List Char)
  | [] => if run.isEmpty then [] else [run.reverse]
  | c :: rest =>
    if isBlank c then
      if run.isEmpty then wordsFrom [] rest else run.reverse :: wordsFrom [] rest
    else wordsFrom (c :: run) rest

def words (s : List Char) : List (List Char) := wordsFrom [] s

end MarkupScene.Text
