import MarkupScene.Json.Value
import MarkupScene.Numeric.Shortest

/-!
# Printing JSON

The pretty form puts every item and member on a line of its own, indented by two spaces a level;
an empty bracket stays closed. The compact form has no spaces. How a double is written is a
parameter, since files differ in that.
-/
namespace MarkupScene.Json

open Numeric Text

/-- The spelling of a character inside a string: short escapes where there are any, `\u` with
four digits for the other control characters, and all else as it is. -/
def escapeChar (c : Char) : List Char :=
  match c with
  | '"' => ['\\', '"']
  | '\\' => ['\\', '\\']
  | '\x08' => ['\\', 'b']
  | '\x0c' => ['\\', 'f']
  | '\n' => ['\\', 'n']
  | '\r' => ['\\', 'r']
  | '\t' => ['\\', 't']
  | c => if c.toNat < 0x20 then '\\' :: 'u' :: fixedDigits 16 4 c.toNat else [c]

def quoted (s : String) : String := .ofList ('"' :: s.toList.flatMap escapeChar ++ ['"'])

/-- The text of a value that holds no others. -/
def scalarText (number : Double → Option String) : Value → String
  | .null | .broken => "null"
  | .bool b => if b then "true" else "false"
  | .integer i => toString i
  | .real x => (number x).getD "null"
  | .text s => quoted s
  | .array _ | .object _ => ""

/-- The start of a line at a level. -/
def newLine (level : Nat) : String := "\n" ++ .ofList (List.replicate (2 * level) ' ')

mutual

/-- The pretty form of a value whose first line is at a level. -/
def pretty (number : Double → Option String) (level : Nat) : Value → String
  | .array [] => "[]"
  | .array (v :: rest) =>
    "[" ++ newLine (level + 1) ++ pretty number (level + 1) v ++
      prettyItems number (level + 1) rest ++ newLine level ++ "]"
  | .object [] => "\x7b\x7d"
  | .object ((key, v) :: rest) =>
    "\x7b" ++ newLine (level + 1) ++ quoted key ++ ": " ++ pretty number (level + 1) v ++
      prettyMembers number (level + 1) rest ++ newLine level ++ "\x7d"
  | v => scalarText number v

def prettyItems (number : Double → Option String) (level : Nat) : List Value → String
  | [] => ""
  | v :: rest => "," ++ newLine level ++ pretty number level v ++ prettyItems number level rest

def prettyMembers (number : Double → Option String) (level : Nat) :
    List (String × Value) → String
  | [] => ""
  | (key, v) :: rest =>
    "," ++ newLine level ++ quoted key ++ ": " ++ pretty number level v ++
      prettyMembers number level rest

end

mutual

def compact (number : Double → Option String) : Value → String
  | .array [] => "[]"
  | .array (v :: rest) => "[" ++ compact number v ++ compactItems number rest ++ "]"
  | .object [] => "\x7b\x7d"
  | .object ((key, v) :: rest) =>
    "\x7b" ++ quoted key ++ ":" ++ compact number v ++ compactMembers number rest ++ "\x7d"
  | v => scalarText number v

def compactItems (number : Double → Option String) : List Value → String
  | [] => ""
  | v :: rest => "," ++ compact number v ++ compactItems number rest

def compactMembers (number : Double → Option String) : List (String × Value) → String
  | [] => ""
  | (key, v) :: rest =>
    "," ++ quoted key ++ ":" ++ compact number v ++ compactMembers number rest

end

/-- Doubles in plain data: positional from `1e-5` to below `1e16`, with `.0` on whole numbers. -/
def dataStyle : Style where
  tiesToEven := true
  usesExponent places := places < -4 || 16 < places
  wholeSuffix := ".0"

/-- Numbers that were singles: positional from `1e-6` to below `1e13`, with `.0` on whole
numbers. -/
def singleStyle : Style where
  tiesToEven := true
  usesExponent places := places < -5 || 13 < places
  wholeSuffix := ".0"

def dataNumber (x : Double) : Option String := dataStyle.text? x

def singleNumber (x : Double) : Option String := singleStyle.text? (x.convert : Single)

end MarkupScene.Json
