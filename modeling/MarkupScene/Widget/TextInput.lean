import MarkupScene.Widget.Label

/-!
# Text inputs

The looks of a text input are taken from descendants that its skin names: `promptDisplay` and
`textDisplay` for the two texts and `Image` for the background. A skin keeps these descendants and
hides them; where the skin is used they have served and are removed.
-/
namespace MarkupScene.Widget

open Numeric

variable {ω : Type}

def promptColor : Color := .ofNumber 0xBBBBBB

def plainEditBox : EditBox where
  fontSize := defaultFontSize
  fontColor := .white
  placeholderFontSize := defaultFontSize
  placeholderColor := promptColor

/-- The first descendant with a name. -/
def namedDescendant? (n : Node) (name : String) : Option Node :=
  (n.findNamed? name).bind n.descendant?

/-- The looks of the prompt; its text only fills an empty placeholder. -/
def takePrompt (n : Node) (edit : EditBox) : EditBox :=
  match (namedDescendant? n "promptDisplay").bind (·.label?) with
  | some prompt => { edit with
    placeholderColor := prompt.color
    placeholderFontSize := prompt.fontSize
    placeholder := if edit.placeholder.isEmpty then prompt.text else edit.placeholder }
  | none => edit

def takeText (n : Node) (edit : EditBox) : EditBox :=
  match (namedDescendant? n "textDisplay").bind (·.label?) with
  | some text => { edit with fontColor := text.color, fontSize := text.fontSize }
  | none => edit

def takeBackground (n : Node) (edit : EditBox) : EditBox :=
  match ((namedDescendant? n "Image").bind (·.sprite?)).bind (·.frame) with
  | some frame => { edit with background := some frame }
  | none => edit

/-- What the element says about its text input. -/
def overlayEditBox (e : Element) (own : EditBox) : EditBox :=
  { own with
    placeholder := (e.attribute? "prompt").getD own.placeholder
    text := (e.attribute? "text").getD own.text
    maxLength := e.wordOr "maxChars" own.maxLength
    password := e.flagOr "displayAsPassword" own.password }

def editBoxOf (e : Element) (n : Node) : EditBox :=
  overlayEditBox e <| takeBackground n <| takeText n <| takePrompt n <|
    n.editBox?.getD plainEditBox

/-- The children of a text input, hidden in a skin and gone where it is used. -/
def putAside (isTemplate : Bool) (children : List Node) : List Node :=
  if isTemplate then children.map fun c => { c with active := false } else []

def textInput : Importer ω := fun scope e n =>
  scope.attach { n with children := putAside scope.isTemplate n.children }
    (.editBox (editBoxOf e n))

end MarkupScene.Widget
