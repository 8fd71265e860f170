import MarkupScene.Widget.Image
import MarkupScene.Widget.ProgressBar
import MarkupScene.Widget.Scrolling
import MarkupScene.Widget.TextInput

/-!
# Registries

A registry knows the importers of widgets and which child elements a widget accepts. A later
registration of a widget replaces an earlier one. A widget without an importer is left as it is,
and one without a check accepts every child.
-/
namespace MarkupScene

structure Registry (ω : Type) where
  importers : List (String × Importer ω) := []
  checks : List (String × (Element → Bool)) := []

namespace Registry
variable {ω : Type}

def register (r : Registry ω) (widget : String) (i : Importer ω) : Registry ω :=
  { r with importers := (widget, i) :: r.importers }

def registerCheck (r : Registry ω) (widget : String) (accepts : Element → Bool) : Registry ω :=
  { r with checks := (widget, accepts) :: r.checks }

def importer? (r : Registry ω) (widget : String) : Option (Importer ω) :=
  r.importers.lookup widget

def accepts (r : Registry ω) (widget : String) (child : Element) : Bool :=
  match r.checks.lookup widget with
  | some check => check child
  | none => true

/-- Buttons look like their skins. -/
def button : Importer ω := fun _ _ n => pure n

/-- The importers of the built-in widgets. -/
def builtInImporters : List (String × Importer ω) :=
  [("Image", Widget.image), ("Label", Widget.label), ("EditableText", Widget.label),
    ("BitmapLabel", Widget.bitmapLabel), ("HScrollBar", Widget.scrollBar .horizontal),
    ("VScrollBar", Widget.scrollBar .vertical), ("Scroller", Widget.scroller),
    ("ProgressBar", Widget.progressBar), ("TextInput", Widget.textInput), ("Button", button)]

/-- The widgets without children of their own. -/
def leaves : List String := ["Image", "Label", "EditableText", "BitmapLabel", "Button"]

def builtIn : Registry ω where
  importers := builtInImporters
  checks := leaves.map fun widget => (widget, fun _ => false)

/-- Imports a node as a widget; a widget without an importer changes nothing. -/
def importAs (r : Registry ω) (widget : String) (scope : ImportScope ω) (e : Element)
    (n : Node) : Importing ω Node :=
  match r.importer? widget with
  | some i => i scope e n
  | none => pure n

end Registry

end MarkupScene
