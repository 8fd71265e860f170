/-!
# Prefix codes

Codes of bits where none starts another. A code is given by the lengths of its words alone: words
are handed out in order of length, and words of one length in order. `grow` makes the tree of such
a code, and succeeds just when the words use up all there are.
-/
namespace MarkupScene.Picture

/-- Whether there are words for so many symbols of each length, from the shortest on, where `room`
words of the first length are left. -/
def wordsSuffice : (room : Nat) → List Nat → Bool
  | _, [] => true
  | room, n :: counts => n ≤ room && wordsSuffice (2 * (room - n)) counts

/-- A code: the bits of a word lead to its symbol, a zero to the left. -/
inductive CodeTree
  | leaf (symbol : Nat)
  | node (zero one : CodeTree)
deriving DecidableEq, Repr

namespace CodeTree

/-- A symbol and the length of its word. -/
structure Word where
  length : Nat
  symbol : Nat
deriving DecidableEq, Repr

/-- The tree at a depth, of at most so many levels more, from words in order, with the words that
are left. -/
def grow : (levels depth : Nat) → List Word → Option (CodeTree × List Word)
  | _, _, [] => none
  | levels, depth, w :: words =>
    if w.length = depth then some (leaf w.symbol, words)
    else
      match levels with
      | 0 => none
      | levels + 1 =>
        match grow levels (depth + 1) (w :: words) with
        | none => none
        | some (zero, rest) =>
          match grow levels (depth + 1) rest with
          | none => none
          | some (one, rest) => some (node zero one, rest)

/-- The longest word that a code may have. -/
def maxLength : Nat := 15

/-- The words of the symbols that have one, in order. -/
def wordsOf (lengths : List Nat) : List Word :=
  let words := lengths.zipIdx.map fun (length, symbol) => ⟨length, symbol⟩
  (words.filter (·.length ≠ 0)).mergeSort fun v w => v.length ≤ w.length

/-- The code with words of the given lengths, zero for symbols without one. A symbol that is alone
needs no bits, whatever its length. -/
def ofLengths? (lengths : List Nat) : Option CodeTree :=
  match wordsOf lengths with
  | [w] => some (leaf w.symbol)
  | words =>
    match grow maxLength 0 words with
    | some (tree, []) => some tree
    | _ => none

end CodeTree

end MarkupScene.Picture
