import MarkupScene.Text.Split

/-!
# Paths

A path is a text that is cut at slashes. A piece of it is silent when it is empty or a single
dot, and stands for a component otherwise; a leading slash is the root, and the leading dot of a
relative path is a component of its own. Two paths name the same place by components, but the
text is kept, since it is what messages and joined paths show.
-/
namespace MarkupScene

open Text

structure Path where
  text : String
deriving DecidableEq, Repr, Inhabited

namespace Path

inductive Component where
  | root
  | here
  | up
  | name (name : String)
deriving DecidableEq, Repr

def Component.chars : Component → List Char
  | root => []
  | here => ['.']
  | up => ['.', '.']
  | name n => n.toList

/-- A piece between slashes with the component that it stands for, none when it is silent. -/
structure Piece where
  chars : List Char
  component? : Option Component
deriving DecidableEq, Repr

namespace Piece

/-- A piece that is not at the start of a relative path. -/
def inner (chars : List Char) : Piece where
  chars := chars
  component? :=
    if chars = [] ∨ chars = ['.'] then none
    else if chars = ['.', '.'] then some .up
    else some (.name (.ofList chars))

/-- The piece at the start of a relative path. -/
def leading (chars : List Char) : Piece :=
  if chars = ['.'] then ⟨chars, some .here⟩ else inner chars

def isSilent (p : Piece) : Bool := p.component?.isNone

end Piece

def ofChars (cs : List Char) : Path := ⟨.ofList cs⟩

def isAbsolute (p : Path) : Bool := p.text.toList.head? = some '/'

/-- The pieces of a text after the leading slash, when there is one. -/
def piecesOf : List Char → List Piece
  | '/' :: rest => (Text.pieces '/' rest).map .inner
  | cs =>
    match Text.pieces '/' cs with
    | [] => []
    | first :: others => .leading first :: others.map .inner

def pieces (p : Path) : List Piece := piecesOf p.text.toList

/-- The path with the given pieces. -/
def ofPieces (absolute : Bool) (ps : List Piece) : Path :=
  ofChars ((if absolute then ['/'] else []) ++ ['/'].intercalate (ps.map (·.chars)))

/-- The components after the root. -/
def steps (p : Path) : List Component := p.pieces.filterMap (·.component?)

def components (p : Path) : List Component :=
  if p.isAbsolute then .root :: p.steps else p.steps

/-- Whether two paths have the same components. -/
def same (p q : Path) : Bool := p.components = q.components

/-- The pieces from the last one that is not silent, last first. -/
def piecesFromEnd (p : Path) : List Piece := p.pieces.reverse.dropWhile (·.isSilent)

/-- The path without its last component. The root alone and the empty path have no parent. -/
def parent? (p : Path) : Option Path :=
  match p.piecesFromEnd with
  | [] => none
  | _ :: rest => some (ofPieces p.isAbsolute (rest.dropWhile (·.isSilent)).reverse)

/-- The last component, when it is a name. -/
def fileName? (p : Path) : Option String :=
  match p.piecesFromEnd.head?.bind (·.component?) with
  | some (.name n) => some n
  | _ => none

/-- A file name before and after its last dot. A dot at the start does not count. -/
def splitName (name : String) : String × Option String :=
  match splitLast '.' name.toList with
  | none | some ([], _) => (name, none)
  | some (stem, extension) => (.ofList stem, some (.ofList extension))

def stem? (p : Path) : Option String := p.fileName?.map fun n => (splitName n).1

def extension? (p : Path) : Option String := p.fileName?.bind fun n => (splitName n).2

/-- The second path taken from the first one. An absolute path stands alone. -/
def join (base p : Path) : Path :=
  if p.isAbsolute then p
  else if base.text.isEmpty ∨ base.text.toList.getLast? = some '/' then ⟨base.text ++ p.text⟩
  else ⟨base.text ++ "/" ++ p.text⟩

/-- The pieces after those of the given components. -/
def dropComponents : List Component → List Piece → Option (List Piece)
  | [], ps => some ps
  | _ :: _, [] => none
  | c :: cs, p :: ps =>
    match p.component? with
    | none => dropComponents (c :: cs) ps
    | some d => if c = d then dropComponents cs ps else none

/-- Pieces without the silent ones at the end. -/
def trimEnd (ps : List Piece) : List Piece := (ps.reverse.dropWhile (·.isSilent)).reverse

/-- The path relative to a base that it starts with, component by component. -/
def relativeTo? (p base : Path) : Option Path :=
  if base.components = [] then some (ofPieces p.isAbsolute (trimEnd p.pieces))
  else if p.isAbsolute ≠ base.isAbsolute then none
  else (dropComponents base.steps p.pieces).map fun rest =>
    ofPieces false (trimEnd (rest.dropWhile (·.isSilent)))

end Path

end MarkupScene
