import MarkupScene.Json.Decode
import MarkupScene.Numeric.Decimal
import MarkupScene.Text.Blank
import MarkupScene.Text.Split

/-!
# Bitmap fonts

A bitmap font is described as JSON or in the classic line format. From JSON the size of the font
is the width of its widest glyph and the line height the height of its highest one. The classic
format has a line of named values for each part of the description; the last line of a part
counts.
-/
namespace MarkupScene

open Json Numeric Text

structure FontMetrics where
  fontSize : Single := 0
  lineHeight : Single := 0
deriving DecidableEq, Repr, Inhabited

structure Glyph where
  id : Nat
  x : Int
  y : Int
  width : Int
  height : Int
  offsetX : Int
  offsetY : Int
deriving DecidableEq, Repr

structure BitmapFont where
  face : String
  size : Int := 0
  lineHeight : Int := 0
  file : String
  glyphs : List Glyph := []
deriving DecidableEq, Repr

/-- The place of a glyph on the texture of the font. -/
structure GlyphFrame where
  x : Int := 0
  y : Int := 0
  width : Int := 0
  height : Int := 0
  offsetX : Int := 0
  offsetY : Int := 0

namespace GlyphFrame

/-- An integer that fits in four bytes. -/
def number? (v : Value) : Option Int := (Value.word? v).map Int32.toInt

def decode? (v : Value) : Option GlyphFrame := do
  let [x, y, width, height, offsetX, offsetY] ← slots? ["x", "y", "w", "h", "offX", "offY"] v
    | none
  return {
    x := ← x.withDefault 0 number?
    y := ← y.withDefault 0 number?
    width := ← width.withDefault 0 number?
    height := ← height.withDefault 0 number?
    offsetX := ← offsetX.withDefault 0 number?
    offsetY := ← offsetY.withDefault 0 number? }

end GlyphFrame

namespace BitmapFont

/-- Takes in the glyph of a frame; its character is the first one of the frame's name. -/
def addFrame (font : BitmapFont) (entry : String × GlyphFrame) : BitmapFont :=
  match entry.1.toList with
  | [] => font
  | c :: _ =>
    let f := entry.2
    { font with
      size := max font.size f.width
      lineHeight := max font.lineHeight f.height
      glyphs := font.glyphs ++ [⟨c.toNat, f.x, f.y, f.width, f.height, f.offsetX, f.offsetY⟩] }

/-- The font of a JSON description; the face is not part of it. -/
def decode? (face : String) (v : Value) : Option BitmapFont := do
  let [file, frames] ← slots? ["file", "frames"] v | none
  let file ← file.withDefault "" Value.text?
  let frames ← frames.withDefault .empty (Value.dictionary? GlyphFrame.decode?)
  return frames.entries.foldl addFrame { face, file }

def metrics (font : BitmapFont) : FontMetrics where
  fontSize := .ofInt font.size
  lineHeight := .ofInt font.lineHeight

def infoLine (font : BitmapFont) : String :=
  "info face=\"" ++ font.face ++ "\" size=" ++ toString font.size ++
    " bold=0 italic=0 charset=\"\" unicode=0 stretchH=100 smooth=1 aa=1 padding=0,0,0,0 spacing=1,1"

def commonLine (font : BitmapFont) : String :=
  "common lineHeight=" ++ toString font.lineHeight ++ " base=0 scaleW=0 scaleH=0 pages=1 packed=0"

def pageLine (font : BitmapFont) : String := "page id=0 file=\"" ++ font.file ++ "\""

def countLine (font : BitmapFont) : String := "chars count=" ++ toString font.glyphs.length

def glyphLine (g : Glyph) : String :=
  "char id=" ++ toString g.id ++ " x=" ++ toString g.x ++ " y=" ++ toString g.y ++
    " width=" ++ toString g.width ++ " height=" ++ toString g.height ++
    " xoffset=" ++ toString g.offsetX ++ " yoffset=" ++ toString g.offsetY ++
    " xadvance=0 page=0 chnl=0"

/-- The classic description. -/
def classicText (font : BitmapFont) : String :=
  "\n".intercalate
    ([infoLine font, commonLine font, pageLine font, countLine font] ++ font.glyphs.map glyphLine)

/-- A value without the quotation marks around it. -/
def unquote (value : List Char) : List Char :=
  ((value.dropWhile (· = '"')).reverse.dropWhile (· = '"')).reverse

/-- The first of the words that gives a name a number. -/
def valueOf? (name : String) (words : List (List Char)) : Option Single :=
  words.findSome? fun word =>
    match splitFirst '=' word with
    | some (key, value) =>
      if key = name.toList then Floating.parse? (unquote value) else none
    | none => none

/-- What the lines read so far say about size and line height. -/
structure ClassicReading where
  size : Option Single := none
  lineHeight : Option Single := none

def ClassicReading.line (r : ClassicReading) (line : List Char) : ClassicReading :=
  match words line with
  | first :: rest =>
    if first = "info".toList then { r with size := valueOf? "size" rest }
    else if first = "common".toList then { r with lineHeight := valueOf? "lineHeight" rest }
    else r
  | [] => r

/-- The metrics of a classic description. Without a line height the size stands for it, and
without a size there are none. -/
def classicMetrics? (text : String) : Option FontMetrics :=
  let r := (lines text.toList).foldl ClassicReading.line {}
  r.size.map fun size => { fontSize := size, lineHeight := r.lineHeight.getD size }

end BitmapFont

end MarkupScene
