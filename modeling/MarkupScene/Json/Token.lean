import MarkupScene.Json.Number

/-!
# JSON tokens

A document is cut into brackets, separators and scalars. The text of a string or a number may
follow the grammar and still have no value: an escape that is half of a surrogate pair, or a
number beyond every finite double. Such a scalar is a token too, so that a reader can skip it.
-/
namespace MarkupScene.Json

open Numeric Text

inductive Token where
  | openArray
  | closeArray
  | openObject
  | closeObject
  | comma
  | colon
  | string (s : Option String)
  | scalar (v : Value)

namespace Token

/-- Four hexadecimal digits as a code unit. -/
def codeUnit? (a b c d : Char) : Option Nat := naturalFrom 16 0 [a, b, c, d]

/-- The characters of short escapes. -/
def shortEscape? : Char → Option Char
  | '"' => some '"'
  | '\\' => some '\\'
  | '/' => some '/'
  | 'b' => some '\x08'
  | 'f' => some '\x0c'
  | 'n' => some '\n'
  | 'r' => some '\r'
  | 't' => some '\t'
  | _ => none

/-- What stands for one character of a string or, by number, for one half of a pair. -/
inductive Mark where
  | char (c : Char)
  | unit (n : Nat)

/-- The marks up to the closing quote, after those already read, last first, and the text after
that quote. Every escape must be well formed. -/
def marks? (read : List Mark) : List Char → Option (List Mark × List Char)
  | '"' :: rest => some (read.reverse, rest)
  | '\\' :: 'u' :: a :: b :: c :: d :: rest =>
    match codeUnit? a b c d with
    | some n => marks? (.unit n :: read) rest
    | none => none
  | '\\' :: c :: rest =>
    match shortEscape? c with
    | some e => marks? (.char e :: read) rest
    | none => none
  | c :: rest => if c.toNat < 0x20 then none else marks? (.char c :: read) rest
  | [] => none

theorem length_marks? {read marks : List Mark} {s rest : List Char}
    (h : marks? read s = some (marks, rest)) : rest.length < s.length := by
  fun_induction marks? read s with
  | case1 => simp_all
  | case2 _ _ _ _ _ _ _ _ ih => have := ih h; simp; omega
  | case3 => simp at h
  | case4 _ _ _ _ _ _ ih => have := ih h; simp; omega
  | case5 => simp at h
  | case6 => simp at h
  | case7 _ _ _ _ _ _ _ ih => have := ih h; simp; omega
  | case8 => simp at h

/-- A first half of a pair takes the second half with it; a half on its own has no character. -/
def textOf? : List Mark → Option (List Char)
  | [] => some []
  | .char c :: rest => (textOf? rest).map (c :: ·)
  | .unit n :: rest =>
    if n < 0xD800 ∨ 0xE000 ≤ n then (textOf? rest).map (Char.ofNat n :: ·)
    else match rest with
      | .unit m :: rest =>
        if n < 0xDC00 ∧ 0xDC00 ≤ m ∧ m < 0xE000 then
          (textOf? rest).map (Char.ofNat (0x10000 + (n - 0xD800) * 0x400 + (m - 0xDC00)) :: ·)
        else none
      | _ => none

/-- Characters that can stand in a number. Two numbers never stand side by side, so a run of
these characters is one number or an error. -/
def isNumberChar (c : Char) : Bool :=
  c.isDigit || c = '-' || c = '+' || c = '.' || c = 'e' || c = 'E'

/-- The value of a run of such characters. -/
def number? (cs : List Char) : Option Value := (NumberText.ofChars? cs).map NumberText.value

def isWordChar (c : Char) : Bool := 'a' ≤ c && c ≤ 'z'

def word? (cs : List Char) : Option Value :=
  if cs = "null".toList then some .null
  else if cs = "true".toList then some (.bool true)
  else if cs = "false".toList then some (.bool false)
  else none

def isSpace (c : Char) : Bool := c = ' ' || c = '\t' || c = '\n' || c = '\r'

def mark? : Char → Option Token
  | '[' => some openArray
  | ']' => some closeArray
  | '{' => some openObject
  | '}' => some closeObject
  | ',' => some comma
  | ':' => some colon
  | _ => none

/-- The tokens of a document. -/
def scan? (s : List Char) : Option (List Token) :=
  match s with
  | [] => some []
  | c :: rest =>
    if isSpace c then scan? rest
    else if c = '"' then
      match h : marks? [] rest with
      | some (marks, after) =>
        have := length_marks? h
        (scan? after).map (string ((textOf? marks).map .ofList) :: ·)
      | none => none
    else if isNumberChar c then
      match number? (c :: rest.takeWhile isNumberChar) with
      | some v =>
        have := (List.dropWhile_suffix isNumberChar (l := rest)).length_le
        (scan? (rest.dropWhile isNumberChar)).map (scalar v :: ·)
      | none => none
    else if isWordChar c then
      match word? (c :: rest.takeWhile isWordChar) with
      | some v =>
        have := (List.dropWhile_suffix isWordChar (l := rest)).length_le
        (scan? (rest.dropWhile isWordChar)).map (scalar v :: ·)
      | none => none
    else
      match mark? c with
      | some t => (scan? rest).map (t :: ·)
      | none => none
termination_by s.length
decreasing_by all_goals (simp; try omega)

end Token

end MarkupScene.Json
