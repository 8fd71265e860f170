import MarkupScene.Json.Token

/-!
# Reading JSON

Tokens are taken one at a time by a machine with a stack of open arrays and objects. The stack
gives the depth of a value: one that lies deeper than `depthLimit` brackets is broken.
-/
namespace MarkupScene.Json

/-- The greatest number of brackets around a value that has one. -/
def depthLimit : Nat := 127

/-- An open bracket with what it holds so far, last first. An object with a repeated or broken
key is kept as it is; `key` is the key whose value is being read. -/
inductive Frame where
  | array (items : List Value)
  | object (members : List (Option String × Value)) (key : Option String)

/-- What may come next. -/
inductive Expectation where
  | value
  | itemOrClose
  | key
  | keyOrClose
  | colon
  | commaOrClose
deriving DecidableEq

structure Machine where
  stack : List Frame
  expects : Expectation
  result : Option Value

namespace Machine

def start : Machine := ⟨[], .value, none⟩

/-- Puts a complete value into the innermost open bracket. -/
def put (v : Value) : List Frame → Machine
  | [] => ⟨[], .commaOrClose, some v⟩
  | .array items :: outer => ⟨.array (v :: items) :: outer, .commaOrClose, none⟩
  | .object members key :: outer => ⟨.object ((key, v) :: members) none :: outer, .commaOrClose, none⟩

/-- The members of an object, when all keys have a value. -/
def members? : List (Option String × Value) → Option (List (String × Value))
  | [] => some []
  | (key, v) :: rest => do
    let key ← key
    let rest ← members? rest
    return (key, v) :: rest

/-- The value of a closed bracket with the given number of brackets around it. -/
def close (depth : Nat) (frame : Frame) : Value :=
  if depthLimit ≤ depth then .broken
  else match frame with
    | .array items => .array items.reverse
    | .object members _ => match members? members.reverse with
      | some members => .object members
      | none => .broken

def step (m : Machine) (t : Token) : Option Machine :=
  match m.expects, t, m.stack with
  | .value, .openArray, stack => some ⟨.array [] :: stack, .itemOrClose, none⟩
  | .value, .openObject, stack => some ⟨.object [] none :: stack, .keyOrClose, none⟩
  | .value, .scalar v, stack => some (put v stack)
  | .value, .string s, stack => some (put (s.elim .broken .text) stack)
  | .itemOrClose, .closeArray, frame :: outer => some (put (close outer.length frame) outer)
  | .itemOrClose, .openArray, stack => some ⟨.array [] :: stack, .itemOrClose, none⟩
  | .itemOrClose, .openObject, stack => some ⟨.object [] none :: stack, .keyOrClose, none⟩
  | .itemOrClose, .scalar v, stack => some (put v stack)
  | .itemOrClose, .string s, stack => some (put (s.elim .broken .text) stack)
  | .keyOrClose, .closeObject, frame :: outer => some (put (close outer.length frame) outer)
  | .keyOrClose, .string s, .object members _ :: outer =>
    some ⟨.object members s :: outer, .colon, none⟩
  | .key, .string s, .object members _ :: outer => some ⟨.object members s :: outer, .colon, none⟩
  | .colon, .colon, stack => some ⟨stack, .value, none⟩
  | .commaOrClose, .comma, .array items :: outer => some ⟨.array items :: outer, .value, none⟩
  | .commaOrClose, .comma, .object members key :: outer =>
    some ⟨.object members key :: outer, .key, none⟩
  | .commaOrClose, .closeArray, .array items :: outer =>
    some (put (close outer.length (.array items)) outer)
  | .commaOrClose, .closeObject, .object members key :: outer =>
    some (put (close outer.length (.object members key)) outer)
  | _, _, _ => none

end Machine

/-- The value of a text that is one document and nothing else. -/
def read? (text : String) : Option Value := do
  let tokens ← Token.scan? text.toList
  let m ← tokens.foldlM Machine.step .start
  m.result

end MarkupScene.Json
