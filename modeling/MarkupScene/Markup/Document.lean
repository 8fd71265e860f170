import MarkupScene.Markup.Element
import MarkupScene.Markup.Event

/-!
# Documents

The events of a document are taken one by one onto a stack of open elements. A closing tag must
repeat the name of the innermost open tag as it was written and must be the qualified name of
its element; the two differ when a name starts with a colon. A document is one element with
nothing but ignored markup around it.
-/
namespace MarkupScene.Markup

open Text

inductive DocumentFault where
  | markup (fault : MarkupFault)
  | unopened (name : String)
  | crossed (expected found : String)
  | nameless
  | secondRoot (name : String)
  | badAttribute (fault : AttributeFault)
  | unclosed (name : String)
  | mismatched (expected found : String)
  | rootless
deriving DecidableEq, Repr

def DocumentFault.message : DocumentFault → String
  | markup fault => "XML error: " ++ fault.message
  | unopened name =>
    "XML error: ill-formed document: close tag \x60</" ++ name ++
      ">\x60 does not match any open tag"
  | crossed expected found =>
    "XML error: ill-formed document: expected \x60</" ++ expected ++ ">\x60, but \x60</" ++ found ++
      ">\x60 was found"
  | nameless => "XML error: Empty tag name"
  | secondRoot name => "XML error: Unexpected second root element <" ++ name ++ ">"
  | badAttribute fault => "Invalid attribute: " ++ fault.message
  | unclosed name => "Unclosed tag: " ++ name
  | mismatched expected found => "Mismatched tags: " ++ expected ++ " vs " ++ found
  | rootless => "Document has no root element"

/-- The prefix that an attribute declares a namespace for. -/
def declaredPrefix? (key : String) : Option String :=
  if key = "xmlns" then some ""
  else (dropStart? "xmlns:".toList key.toList).map .ofList

/-- An attribute declares a namespace or belongs to the element. -/
def takeAttribute (e : Element) (a : String × String) : Element :=
  match declaredPrefix? a.1 with
  | some declared => { e with namespaces := e.namespaces.insert declared a.2 }
  | none => { e with attributes := e.attributes ++ [a] }

/-- The element of an opening tag inside the given namespaces. -/
def elementOf (inherited : Dictionary String) (content : List Char) :
    Except DocumentFault Element := do
  let name := nameOf content
  if name.isEmpty then .error .nameless
  else
    let attributes ← (attributesOf content).mapError .badAttribute
    return attributes.foldl takeAttribute { Element.named name with namespaces := inherited }

/-- An element whose closing tag is still to come, with its name as written. -/
structure OpenElement where
  written : List Char
  element : Element

/-- The open elements, innermost first, and the root once it is complete. -/
structure Progress where
  stack : List OpenElement := []
  root : Option Element := none

namespace Progress

/-- Puts a complete element into the innermost open one. -/
def close (p : Progress) (e : Element) : Except DocumentFault Progress :=
  match p.stack with
  | parent :: outer =>
    .ok { p with stack := { parent with element := parent.element.addChild e } :: outer }
  | [] =>
    match p.root with
    | some _ => .error (.secondRoot e.qualifiedName)
    | none => .ok { p with root := some e }

/-- The namespaces in scope for the next element. -/
def scope (p : Progress) : Dictionary String :=
  match p.stack with
  | parent :: _ => parent.element.namespaces
  | [] => .empty

def step (p : Progress) : Event → Except DocumentFault Progress
  | .opening content selfClosing => do
    let e ← elementOf p.scope content
    if selfClosing then p.close e
    else return { p with stack := ⟨nameOf content, e⟩ :: p.stack }
  | .closing name =>
    match p.stack with
    | [] => .error (.unopened (.ofList name))
    | top :: outer =>
      if top.written ≠ name then .error (.crossed (.ofList top.written) (.ofList name))
      else if top.element.qualifiedName ≠ .ofList name then
        .error (.mismatched top.element.qualifiedName (.ofList name))
      else { p with stack := outer }.close top.element

/-- The root of a document whose events are all taken. -/
def finish (p : Progress) : Except DocumentFault Element :=
  match p.stack, p.root with
  | top :: _, _ => .error (.unclosed top.element.qualifiedName)
  | [], some root => .ok root
  | [], none => .error .rootless

end Progress

/-- The root element of a document. Of several faults the first in the text decides. -/
def readDocument (text : String) : Except DocumentFault Element := do
  let (events, fault) := scan text.toList
  let p ← events.foldlM Progress.step {}
  match fault with
  | some fault => .error (.markup fault)
  | none => p.finish

end MarkupScene.Markup
