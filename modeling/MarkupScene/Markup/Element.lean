import MarkupScene.Text.Dictionary
import MarkupScene.Text.Split

/-!
# Elements

An element is the only kind of node that a document keeps: its name, cut at the first colon, the
namespaces in scope, its attributes in the order of the document and its child elements. The
declarations of namespaces are no attributes; the default namespace has the empty prefix.
-/
namespace MarkupScene

open Text

structure Element where
  namePrefix : String := ""
  localName : String
  namespaces : Dictionary String := .empty
  attributes : List (String × String) := []
  children : List Element := []

namespace Element

instance : Inhabited Element := ⟨{ localName := "" }⟩

mutual

def decEq : (e e' : Element) → Decidable (e = e')
  | ⟨p, l, ns, attributes, children⟩, ⟨p', l', ns', attributes', children'⟩ =>
    have : Decidable (children = children') := decEqAll children children'
    decidable_of_iff
      (p = p' ∧ l = l' ∧ ns = ns' ∧ attributes = attributes' ∧ children = children') (by simp)

def decEqAll : (es es' : List Element) → Decidable (es = es')
  | [], [] => .isTrue rfl
  | [], _ :: _ | _ :: _, [] => .isFalse nofun
  | e :: es, e' :: es' =>
    have := decEq e e'
    have := decEqAll es es'
    decidable_of_iff (e = e' ∧ es = es') (by simp)

end

instance : DecidableEq Element := decEq

/-- An element without content from its name as written. -/
def named (name : List Char) : Element :=
  match splitFirst ':' name with
  | some (before, after) => { namePrefix := .ofList before, localName := .ofList after }
  | none => { localName := .ofList name }

/-- The name with its prefix, when there is one. -/
def qualifiedName (e : Element) : String :=
  if e.namePrefix.isEmpty then e.localName else e.namePrefix ++ ":" ++ e.localName

/-- The namespace of the element's own prefix. -/
def namespace? (e : Element) : Option String := e.namespaces.get? e.namePrefix

def attribute? (e : Element) (name : String) : Option String := e.attributes.lookup name

def child? (e : Element) (name : String) : Option Element :=
  e.children.find? fun c => c.localName = name

def addChild (e : Element) (c : Element) : Element := { e with children := e.children ++ [c] }

theorem sizeOf_child? {e c : Element} {name : String} (h : e.child? name = some c) :
    sizeOf c < sizeOf e.children :=
  List.sizeOf_lt_of_mem (List.mem_of_find?_eq_some h)

theorem sizeOf_children (e : Element) : sizeOf e.children < sizeOf e := by
  cases e
  simp only [Element.mk.sizeOf_spec]
  omega

end Element

end MarkupScene
