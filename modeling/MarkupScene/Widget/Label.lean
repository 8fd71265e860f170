import MarkupScene.Widget.Importer

/-!
# Labels

A label shows the element's `text`. What the element does not say stays as the node's own label has
it, or as a label of size thirty has it. The line height follows the size unless `lineSpacing`
adds to it, and a declared size cuts the text off. A bitmap label takes size and line height from
its font.
-/
namespace MarkupScene.Widget

open Numeric

variable {ω : Type}

def defaultFontSize : Single := 30

def plainLabel : Label where
  fontSize := defaultFontSize
  lineHeight := defaultFontSize

def horizontalAlignOf (s : String) : HorizontalAlign :=
  if s = "center" then .center else if s = "right" then .right else .left

def verticalAlignOf (s : String) : VerticalAlign :=
  if s = "middle" then .center else if s = "bottom" then .bottom else .top

/-- The font size of an element on top of an earlier one. -/
def fontSizeOf (e : Element) (own : Single) : Single :=
  match e.filled? "size" with
  | some _ => e.singleOr "size" defaultFontSize
  | none => own

/-- The line height of an element: spacing is added to the size, a size alone is taken as it is. -/
def lineHeightOf (e : Element) (fontSize own : Single) : Single :=
  match e.filled? "lineSpacing" with
  | some _ => fontSize + e.singleOr "lineSpacing" 0
  | none => if (e.filled? "size").isSome then fontSize else own

/-- The label of an element on top of an earlier one. -/
def overlayLabel (e : Element) (own : Label) : Label :=
  let fontSize := fontSizeOf e own.fontSize
  { own with
    text := (e.attribute? "text").getD own.text
    horizontalAlign := ((e.attribute? "textAlign").map horizontalAlignOf).getD own.horizontalAlign
    verticalAlign := ((e.attribute? "verticalAlign").map verticalAlignOf).getD own.verticalAlign
    fontSize
    lineHeight := lineHeightOf e fontSize own.lineHeight
    color := (e.color? "textColor").getD own.color
    bold := e.flagOr "bold" own.bold
    italic := e.flagOr "italic" own.italic
    overflow := if e.declaresSize then .clamp else .none }

def labelOf (e : Element) (n : Node) : Label := overlayLabel e (n.label?.getD plainLabel)

def label : Importer ω := fun scope e n => scope.attach n (.label (labelOf e n))

/-- A label with a font; metrics that cannot be read change nothing. -/
def withFont (scope : ImportScope ω) (l : Label) (font : AssetRef) : Importing ω Label := do
  match ← ImportScope.ask (scope.locator.loadFont font) with
  | .ok metrics =>
    return { l with
      fontSize := metrics.fontSize, lineHeight := metrics.lineHeight, font := some font }
  | .error _ => return { l with font := some font }

def bitmapLabel : Importer ω := fun scope e n => do
  let l := labelOf e n
  match ← scope.resolve (e.textOr "font" "") with
  | some font => scope.attach n (.label (← withFont scope l font))
  | none => scope.attach n (.label l)

end MarkupScene.Widget
