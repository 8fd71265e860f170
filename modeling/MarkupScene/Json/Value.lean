import MarkupScene.Numeric.Arithmetic
import MarkupScene.Text.Dictionary

/-!
# JSON values

A value is what a document says before anyone asks for a type. Objects keep their members in the
order of the document, repeated keys included, since some readers refuse a repeated key and
others take the last one. A part that follows the grammar but has no value, such as a number
beyond the range of doubles, is `broken`: whoever asks for it fails, and whoever skips it does
not notice.
-/
namespace MarkupScene.Json

open Numeric Text

inductive Value where
  | null
  | bool (b : Bool)
  | integer (i : Int)
  | real (x : Double)
  | text (s : String)
  | array (items : List Value)
  | object (members : List (String × Value))
  | broken
deriving Inhabited

namespace Value

mutual

/-- The value with each repeated key reduced to its last member and members in ascending order
of keys, when no part of it is broken. -/
def settle? : Value → Option Value
  | array items => (settleItems? items).map array
  | object members => (settleMembers? members).map fun d => object d.entries
  | broken => none
  | v => some v

def settleItems? : List Value → Option (List Value)
  | [] => some []
  | v :: rest => do
    let v ← settle? v
    let rest ← settleItems? rest
    return v :: rest

/-- Earlier members are put in after later ones, and only where their key is still free. -/
def settleMembers? : List (String × Value) → Option (Dictionary Value)
  | [] => some .empty
  | (key, v) :: rest => do
    let v ← settle? v
    let rest ← settleMembers? rest
    return if (rest.get? key).isSome then rest else rest.insert key v

end

mutual

/-- Whether a value has no broken part. -/
def isSound : Value → Bool
  | array items => soundItems items
  | object members => soundMembers members
  | broken => false
  | _ => true

def soundItems : List Value → Bool
  | [] => true
  | v :: rest => isSound v && soundItems rest

def soundMembers : List (String × Value) → Bool
  | [] => true
  | (_, v) :: rest => isSound v && soundMembers rest

end

/-- The number, or null for one that JSON cannot write. -/
def ofSingle (x : Single) : Value := if x.isFinite then real x.convert else null

def ofOption {α : Type} (f : α → Value) : Option α → Value
  | none => null
  | some a => f a

def ofNat (n : Nat) : Value := integer n

end Value

/-- A member that is left out when it has no value. -/
def memberOf? {α : Type} (key : String) (f : α → Value) : Option α → List (String × Value)
  | none => []
  | some a => [(key, f a)]

end MarkupScene.Json
