import MarkupScene.Text.Digits
import MarkupScene.Text.Split

/-!
# Entities

Between an ampersand and the next semicolon stands the name of a character or its code point. An
ampersand that meets another ampersand, or the end, before a semicolon is a fault. Positions
count bytes from the start of the value.
-/
namespace MarkupScene.Markup

open Text

/-- Why the number of a character reference is refused. -/
inductive ReferenceFault where
  | sign
  | empty
  | digit
  | tooLarge
  | null
  | noCharacter (code : Nat)
deriving DecidableEq, Repr

inductive EntityFault where
  | unknown (start stop : Nat) (name : String)
  | unterminated (start stop : Nat)
  | reference (fault : ReferenceFault)
deriving DecidableEq, Repr

def ReferenceFault.message : ReferenceFault → String
  | sign => "unexpected number sign"
  | empty => "cannot parse integer from empty string"
  | digit => "invalid digit found in string"
  | tooLarge => "number too large to fit in target type"
  | null => "0x0 character is not permitted in XML"
  | noCharacter code => "\x60" ++ toString code ++ "\x60 is not a valid codepoint"

def EntityFault.message : EntityFault → String
  | unknown start stop name =>
    "at " ++ toString start ++ ".." ++ toString stop ++ ": unrecognized entity \x60" ++ name ++ "\x60"
  | unterminated start stop =>
    "Error while escaping character at range " ++ toString start ++ ".." ++ toString stop ++
      ": Cannot find ';' after '&'"
  | reference fault => "invalid character reference: " ++ fault.message

/-- Reads digits from the left and stops at the first that is none or that passes four bytes. -/
def codeFrom (base code : Nat) : List Char → Except ReferenceFault Nat
  | [] => .ok code
  | c :: rest =>
    match digit? base c with
    | none => .error .digit
    | some v =>
      let next := code * base + v
      if UInt32.size ≤ next then .error .tooLarge else codeFrom base next rest

def code (base : Nat) (digits : List Char) : Except ReferenceFault Nat :=
  match digits with
  | [] => .error .empty
  | c :: _ => if c = '+' ∨ c = '-' then .error .sign else codeFrom base 0 digits

/-- The character of a reference, from the text after the number sign. -/
def referenced (number : List Char) : Except ReferenceFault Char := do
  let n ← match number with
    | 'x' :: digits => code 16 digits
    | digits => code 10 digits
  if n = 0 then .error .null
  else if n.isValidChar then .ok (Char.ofNat n)
  else .error (.noCharacter n)

def namedCharacters : List (String × Char) :=
  [("lt", '<'), ("gt", '>'), ("amp", '&'), ("apos", '\''), ("quot", '"')]

/-- The character of an entity that starts at a position, ampersand included. -/
def entity (start : Nat) (name : List Char) : Except EntityFault Char :=
  match name with
  | '#' :: number => (referenced number).mapError .reference
  | _ =>
    match namedCharacters.lookup (.ofList name) with
    | some c => .ok c
    | none => .error (.unknown (start + 1) (start + 1 + byteSize name) (.ofList name))

/-- The text of a raw value from a position on. -/
def unescape (start : Nat) (s : List Char) : Except EntityFault (List Char) :=
  match s with
  | [] => .ok []
  | '&' :: rest =>
    let isPlain (c : Char) : Bool := c ≠ '&' && c ≠ ';'
    let name := rest.takeWhile isPlain
    match h : rest.dropWhile isPlain with
    | ';' :: after =>
      have : after.length < rest.length := by
        have := (List.dropWhile_suffix isPlain (l := rest)).length_le
        rw [h] at this
        simp only [List.length_cons] at this
        omega
      do
        let c ← entity start name
        let tail ← unescape (start + byteSize name + 2) after
        return c :: tail
    | _ => .error (.unterminated start (start + 1 + byteSize rest))
  | c :: rest => do
    let tail ← unescape (start + c.utf8Size) rest
    return c :: tail
termination_by s.length
decreasing_by all_goals (simp; try omega)

end MarkupScene.Markup
