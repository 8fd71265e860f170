import MarkupScene.Scene.Node

/-!
# Searching a tree

A search goes through the descendants of a node in document order and answers with the indices
on the way down. Names along the same way give the path that is written into a behavior.
-/
namespace MarkupScene.Node

mutual

/-- The way to the first descendant that satisfies a test, in document order. -/
def find? (p : Node → Bool) : Node → Option (List Nat)
  | ⟨_, children⟩ => findAmong? p 0 children

/-- The same among children of which the first has the given index. -/
def findAmong? (p : Node → Bool) (index : Nat) : List Node → Option (List Nat)
  | [] => none
  | c :: rest =>
    if p c then some [index]
    else
      match find? p c with
      | some way => some (index :: way)
      | none => findAmong? p (index + 1) rest

end

def findNamed? (n : Node) (name : String) : Option (List Nat) := n.find? fun c => c.name = name

/-- The descendant at the end of a way. -/
def descendant? (n : Node) : List Nat → Option Node
  | [] => some n
  | i :: way =>
    match n.children[i]? with
    | some c => c.descendant? way
    | none => none

/-- The tree with the node at the end of a way changed; unchanged when the way leads nowhere. -/
def modifyAt (n : Node) (f : Node → Node) : List Nat → Node
  | [] => f n
  | i :: way =>
    match n.children[i]? with
    | some c => { n with children := n.children.set i (c.modifyAt f way) }
    | none => n

/-- The names along a way, as far as it leads. -/
def namesAlong (n : Node) : List Nat → List String
  | [] => []
  | i :: way =>
    match n.children[i]? with
    | some c => c.name :: c.namesAlong way
    | none => []

def namePath (n : Node) (way : List Nat) : String := "/".intercalate (n.namesAlong way)

end MarkupScene.Node
