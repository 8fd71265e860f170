import MarkupScene.Markup.Element

/-!
# Skin keys

The key of an element names its widget and finds its skin. Elements of the built-in namespace have
keys under `eui`; elsewhere the namespace is a pattern whose first star stands for the local name.
An element of any other namespace has the empty key.
-/
namespace MarkupScene

open Text

namespace Skin

/-- The prefix that always means the built-in namespace. -/
def builtInPrefix : String := "e"

def builtInNamespace : String := "http://ns.egret.com/eui"

/-- The pattern with its first star replaced. -/
def fillPattern? (pattern localName : String) : Option String :=
  (splitFirst '*' pattern.toList).map fun (before, after) =>
    .ofList before ++ localName ++ .ofList after

def key (localName namePrefix : String) (namespaces : Dictionary String) : String :=
  let uri := namespaces.get? namePrefix
  if namePrefix = builtInPrefix ∨ uri = some builtInNamespace then "eui." ++ localName
  else (uri.bind fun pattern => fillPattern? pattern localName).getD ""

/-- The widget of a key is what follows its last dot. -/
def widgetOf (key : String) : String :=
  match splitLast '.' key.toList with
  | some (_, widget) => .ofList widget
  | none => key

end Skin

def Element.skinKey (e : Element) : String := Skin.key e.localName e.namePrefix e.namespaces

end MarkupScene
