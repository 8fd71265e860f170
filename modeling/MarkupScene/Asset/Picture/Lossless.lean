import MarkupScene.Asset.Picture.Bytes
import MarkupScene.Asset.Picture.PrefixCode

/-!
# Lossless pictures

A picture is a stream of bits: its size, transforms that were applied to it, and pixels in prefix
codes. All of it has to be there, so the stream is decoded to the end; transforms are not undone,
because no value that they give can make a picture unreadable.
-/
namespace MarkupScene.Picture.Lossless

/-- Bits of a byte that has been begun, and the bytes after it. -/
structure Bits where
  begun : List Bool
  rest : Bytes
deriving DecidableEq, Repr

abbrev BitReader := StateT Bits Option

/-- The bits of a byte, the least significant one first. -/
def bitsOf (b : UInt8) : List Bool := (List.range 8).map fun i => (b.toNat >>> i) % 2 = 1

def bit : BitReader Bool := fun bits =>
  match bits.begun with
  | b :: begun => some (b, { bits with begun })
  | [] =>
    match bits.rest with
    | byte :: rest =>
      match bitsOf byte with
      | b :: begun => some (b, ⟨begun, rest⟩)
      | [] => none
    | [] => none

/-- A number of so many bits, the least significant one first. -/
def number : Nat → BitReader Nat
  | 0 => return 0
  | n + 1 => do
    let low ← bit
    let high ← number n
    return low.toNat + 2 * high

def symbol : CodeTree → BitReader Nat
  | .leaf s => return s
  | .node zero one => do
    if ← bit then symbol one else symbol zero

/-- The order in which the lengths of the words for lengths are written. -/
def lengthOrder : List Nat := [17, 18, 0, 1, 2, 3, 4, 5, 16, 6, 7, 8, 9, 10, 11, 12, 13, 14, 15]

/-- Lengths of words for so many symbols, of which at most `turns` more turns are written. A turn
is a length, or a repetition of the last length but zero or of zero. -/
def lengths (code : CodeTree) (symbols : Nat) :
    (turns : Nat) → (last : Nat) → (read : Array Nat) → BitReader (Array Nat)
  | 0, _, read => return read
  | turns + 1, last, read => do
    if symbols ≤ read.size then return read
    let s ← symbol code
    if s < 16 then lengths code symbols turns (if s = 0 then last else s) (read.push s)
    else
      let times ←
        if s = 16 then (3 + ·) <$> number 2
        else if s = 17 then (3 + ·) <$> number 3
        else (11 + ·) <$> number 7
      guard (read.size + times ≤ symbols)
      lengths code symbols turns last (read ++ Array.replicate times (if s = 16 then last else 0))

/-- The code for so many symbols: one or two of them written out, or lengths of words that are in
a code themselves. -/
def code (symbols : Nat) : BitReader CodeTree := do
  if ← bit then
    let two ← bit
    let wide ← bit
    let first ← number (if wide then 8 else 1)
    if two then
      let second ← number 8
      return .node (.leaf first) (.leaf second)
    else return .leaf first
  else
    let count ← number 4
    let written ← repeated (number 3) (4 + count)
    let places := lengthOrder.zip written
    let lengthCode ← liftM <|
      CodeTree.ofLengths? ((List.range 19).map fun i => (places.lookup i).getD 0)
    let turns ←
      if ← bit then
        let width ← number 3
        let more ← number (2 + 2 * width)
        guard (more + 2 ≤ symbols)
        pure (more + 2)
      else pure symbols
    let read ← lengths lengthCode symbols turns 8 #[]
    liftM (CodeTree.ofLengths? read.toList)

/-- The codes of one region: for the green sample, which also says what comes next, for the other
samples, and for distances. -/
structure Codes where
  green : CodeTree
  red : CodeTree
  blue : CodeTree
  alpha : CodeTree
  distance : CodeTree
deriving DecidableEq, Repr

/-- The colors that a cache with keys of so many bits has room for; none without a cache. -/
def cacheSize (cacheBits : Option Nat) : Nat := cacheBits.elim 0 (Nat.pow 2)

def codes (cacheBits : Option Nat) : BitReader Codes := do
  let green ← code (256 + 24 + cacheSize cacheBits)
  let red ← code 256
  let blue ← code 256
  let alpha ← code 256
  let distance ← code 40
  return ⟨green, red, blue, alpha, distance⟩

/-- The color of samples in the order of a pixel's bytes. -/
def colorOf (green red blue alpha : Nat) : UInt32 :=
  UInt32.ofNat (((alpha * 256 + red) * 256 + green) * 256 + blue)

/-- The only color that codes can give, when each has one word and so takes no bits. -/
def Codes.onlyColor? (c : Codes) : Option UInt32 :=
  match c.green, c.red, c.blue, c.alpha with
  | .leaf green, .leaf red, .leaf blue, .leaf alpha =>
    if green < 256 then some (colorOf green red blue alpha) else none
  | _, _, _, _ => none

/-- The pixels so far of an image, and the colors met last by their keys. -/
structure Canvas where
  pixels : Array UInt32
  cacheBits : Option Nat
  cache : Array UInt32

namespace Canvas

def empty (cacheBits : Option Nat) : Canvas :=
  ⟨#[], cacheBits, Array.replicate (cacheSize cacheBits) 0⟩

/-- The key of a color: the top bits of a product. -/
def key (cacheBits : Nat) (color : UInt32) : Nat :=
  ((0x1E35A7BD * color) >>> UInt32.ofNat (32 - cacheBits)).toNat

def push (c : Canvas) (color : UInt32) : Canvas :=
  match c.cacheBits with
  | none => { c with pixels := c.pixels.push color }
  | some bits =>
    { c with
      pixels := c.pixels.push color
      cache := c.cache.setIfInBounds (key bits color) color }

/-- A run of pixels as they stand so far back; it may reach into itself. -/
def copy (distance : Nat) : (length : Nat) → Canvas → Canvas
  | 0, c => c
  | length + 1, c => copy distance length (c.push (c.pixels.getD (c.pixels.size - distance) 0))

/-- The color of a key. -/
def cached (c : Canvas) (key : Nat) : UInt32 := c.cache.getD key 0

end Canvas

/-- How far an image of a given width has been read. What its pixels are is kept for images that
serve a picture; of the picture itself only their number is. -/
structure Raster where
  width : Nat
  size : Nat
  canvas : Option Canvas

namespace Raster

def push (r : Raster) (color : UInt32) : Raster :=
  { r with size := r.size + 1, canvas := r.canvas.map (·.push color) }

def copy (r : Raster) (distance length : Nat) : Raster :=
  { r with size := r.size + length, canvas := r.canvas.map (·.copy distance length) }

/-- All pixels at once, of one color. -/
def fill (r : Raster) (total : Nat) (color : UInt32) : Raster :=
  { r with
    size := total
    canvas := r.canvas.map fun c => { c with pixels := Array.replicate total color } }

def pushCached (r : Raster) (key : Nat) : Raster :=
  { r with size := r.size + 1, canvas := r.canvas.map fun c => c.push (c.cached key) }

end Raster

/-- Pixels above and beside a pixel, nearest first: of equally near ones the higher come first,
and what lies to the left before its mirror image. -/
def neighbours : List (Int × Int) :=
  let all : List (Int × Int) :=
    (List.range 8).flatMap fun y => (List.range 16).map fun x => (8 - Int.ofNat x, 7 - Int.ofNat y)
  let before := all.filter fun (x, y) => 0 < y ∨ 0 < x
  before.mergeSort fun (x, y) (x', y') =>
    let d := x * x + y * y
    let d' := x' * x' + y' * y'
    d < d' ∨ (d = d' ∧ (y' < y ∨ (y = y' ∧ x' ≤ x)))

/-- How far back a distance goes: the first ones name a neighbour, and no neighbour is nearer than
the pixel before. -/
def pixelsBack (width distance : Nat) : Nat :=
  match neighbours[distance - 1]? with
  | some (x, y) => (max 1 (x + y * width)).toNat
  | none => distance - neighbours.length

/-- The amount that a symbol stands for: small ones directly, others with bits that follow. -/
def amount (s : Nat) : BitReader Nat := do
  if s < 4 then return s + 1
  else
    let extra := (s - 2) / 2
    let low ← number extra
    return (2 + s % 2) * Nat.pow 2 extra + low + 1

/-- The codes of an image: regions of a power of two pixels across and down each have one of the
sets of codes. -/
structure Regions where
  bits : Nat
  across : Nat
  choice : Array Nat
  sets : Array Codes

def Regions.single (codes : Codes) : Regions := ⟨0, 0, #[0], #[codes]⟩

def Regions.codesAt? (r : Regions) (x y : Nat) : Option Codes :=
  let region := if r.bits = 0 then 0 else (y >>> r.bits) * r.across + (x >>> r.bits)
  r.choice[region]?.bind (r.sets[·]?)

/-- One pixel, a run of earlier pixels, or a color of a cache with room for so many. -/
def step (regions : Regions) (total room : Nat) (r : Raster) : BitReader Raster := do
  let codes ← liftM (regions.codesAt? (r.size % r.width) (r.size / r.width))
  let s ← symbol codes.green
  if s < 256 then
    let red ← symbol codes.red
    let blue ← symbol codes.blue
    let alpha ← symbol codes.alpha
    return r.push (colorOf s red blue alpha)
  else if s < 256 + 24 then
    let length ← amount (s - 256)
    let distance ← amount (← symbol codes.distance)
    let back := pixelsBack r.width distance
    guard (back ≤ r.size ∧ r.size + length ≤ total)
    return r.copy back length
  else
    guard (s < 256 + 24 + room)
    return r.pushCached (s - 256 - 24)

/-- The rest of an image of so many pixels, of which every step gives at least one. -/
def pixels (regions : Regions) (total room : Nat) :
    (steps : Nat) → Raster → Bits → Option (Raster × Bits)
  | 0, r, bits => some (r, bits)
  | steps + 1, r, bits =>
    if total ≤ r.size then some (r, bits)
    else
      match step regions total room r bits with
      | none => none
      | some (r, bits) => pixels regions total room steps r bits

/-- The codes of an image that has one set of them. -/
def Regions.single? (r : Regions) : Option Codes := if r.bits = 0 then r.sets[0]? else none

def image (regions : Regions) (cacheBits : Option Nat) (size : PixelSize)
    (canvas : Option Canvas) : BitReader Raster :=
  let total := size.width * size.height
  let start : Raster := ⟨size.width, 0, canvas⟩
  match regions.single?.bind Codes.onlyColor? with
  | some color => return start.fill total color
  | none => pixels regions total (cacheSize cacheBits) total start

def cacheBits : BitReader (Option Nat) := do
  if ← bit then
    let bits ← number 4
    guard (1 ≤ bits ∧ bits ≤ 11)
    return some bits
  else return none

/-- The pixels of an image that serves the picture: it has one set of codes. -/
def servingImage (width height : Nat) : BitReader (Array UInt32) := do
  let cache ← cacheBits
  let regions := Regions.single (← codes cache)
  let r ← image regions cache ⟨width, height⟩ (some (.empty cache))
  return r.canvas.elim #[] Canvas.pixels

/-- The blocks of a power of two pixels that cover so many. -/
def blocks (bits size : Nat) : Nat := (size + Nat.pow 2 bits - 1) / Nat.pow 2 bits

/-- What was done to a picture before it was coded. -/
inductive Transform
  | predictor
  | color
  | subtractGreen
  | palette
deriving DecidableEq, Repr

def Transform.ofCode : Nat → Transform
  | 0 => predictor
  | 1 => color
  | 2 => subtractGreen
  | _ => palette

/-- The bits by which a byte holds more than one pixel, for a palette of so many colors. -/
def packing (colors : Nat) : Nat :=
  if colors ≤ 2 then 3 else if colors ≤ 4 then 2 else if colors ≤ 16 then 1 else 0

/-- What a transform needs, and the width it leaves. Transforms other than a palette work on whole
pixels, so they cannot come once pixels are packed. -/
def Transform.read (size : PixelSize) (width : Nat) : Transform → BitReader Nat
  | predictor | color => do
    let bits := (← number 3) + 2
    guard (width = size.width)
    let _ ← servingImage (blocks bits width) (blocks bits size.height)
    return width
  | subtractGreen => do
    guard (width = size.width)
    return width
  | palette => do
    let colors := (← number 8) + 1
    let _ ← servingImage colors 1
    return blocks (packing colors) width

/-- The width of the image that is coded after the transforms, each of which may come once. -/
def transforms (size : PixelSize) : (left : List Transform) → (width : Nat) → (turns : Nat) →
    BitReader Nat
  | _, width, 0 => do
    guard (!(← bit))
    return width
  | left, width, turns + 1 => do
    if ← bit then
      let t := Transform.ofCode (← number 2)
      guard (t ∈ left)
      let width ← t.read size width
      transforms size (left.erase t) width turns
    else return width

/-- The codes of the picture. Regions are chosen by the middle samples of an image, and there are
as many sets as the greatest choice asks for. -/
def regions (width height : Nat) (cache : Option Nat) : BitReader Regions := do
  if ← bit then
    let bits := (← number 3) + 2
    let across := blocks bits width
    let serving ← servingImage across (blocks bits height)
    let choice := serving.map fun (color : UInt32) => ((color >>> 8).toNat % 0x10000)
    let sets ← repeated (codes cache) (choice.foldl max 0 + 1)
    return ⟨bits, across, choice, sets.toArray⟩
  else return .single (← codes cache)

/-- The pixels of a picture whose size is known. -/
def body (size : PixelSize) : BitReader Unit := do
  let width ← transforms size [.predictor, .color, .subtractGreen, .palette] size.width 4
  let cache ← cacheBits
  let regions ← regions width size.height cache
  let _ ← image regions cache ⟨width, size.height⟩ none

def Bits.start (bytes : Bytes) : Bits := ⟨[], bytes⟩

/-- Whether the bytes hold the pixels of a picture of a given size. -/
def holds (size : PixelSize) (bytes : Bytes) : Bool := (body size (.start bytes)).isSome

/-- A size of fourteen bits each way, a note on transparency, a version and the pixels. -/
def picture : BitReader PixelSize := do
  let width ← number 14
  let height ← number 14
  let _transparent ← bit
  guard ((← number 3) = 0)
  let size : PixelSize := ⟨width + 1, height + 1⟩
  body size
  return size

def size? (bytes : Bytes) : Option PixelSize := do
  let (_, rest) ← Reader.exactly [0x2F] bytes
  let (size, _) ← picture (.start rest)
  return size

end MarkupScene.Picture.Lossless
