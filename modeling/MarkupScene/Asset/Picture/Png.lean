import MarkupScene.Asset.Picture.Bytes

/-!
# Portable network graphics

A file is a row of chunks, each with a length, a kind, data and a checksum. The size stands in the
first one, but it counts only when the chunks before the image data can be read as well: those
that describe the picture must be well formed, and most of them may come only once. A chunk
without data says nothing, whatever its kind.
-/
namespace MarkupScene.Picture.Png

/-- One step of the cyclic redundancy check: eight shifts by the reversed polynomial. -/
def crcByte (crc : UInt32) (b : UInt8) : UInt32 :=
  (List.range 8).foldl
    (fun c _ => if c &&& 1 = 1 then (c >>> 1) ^^^ 0xEDB88320 else c >>> 1)
    (crc ^^^ b.toUInt32)

def crc (bytes : Bytes) : Nat := ((bytes.foldl crcByte 0xFFFFFFFF) ^^^ 0xFFFFFFFF).toNat

inductive ColorType
  | gray
  | color
  | indexed
  | grayAlpha
  | colorAlpha
deriving DecidableEq, Repr

namespace ColorType

def ofByte? (b : UInt8) : Option ColorType :=
  if b = 0 then some gray
  else if b = 2 then some color
  else if b = 3 then some indexed
  else if b = 4 then some grayAlpha
  else if b = 6 then some colorAlpha
  else none

/-- The numbers of bits per sample that go with a color type. -/
def depths : ColorType → List Nat
  | gray => [1, 2, 4, 8, 16]
  | indexed => [1, 2, 4, 8]
  | color | grayAlpha | colorAlpha => [8, 16]

/-- The samples of a pixel once palette entries are colors and transparency is a sample. -/
def samples (transparent : Bool) : ColorType → Nat
  | gray => if transparent then 2 else 1
  | color | indexed => if transparent then 4 else 3
  | grayAlpha => 2
  | colorAlpha => 4

end ColorType

structure Header where
  size : PixelSize
  depth : Nat
  color : ColorType
deriving DecidableEq, Repr

namespace Header

def read : Reader Header := do
  let width ← Reader.big 4
  let height ← Reader.big 4
  guard (width ≠ 0 ∧ height ≠ 0)
  let depth ← Reader.big 1
  let colors ← liftM (ColorType.ofByte? (← Reader.byte))
  guard (depth ∈ colors.depths)
  guard ((← Reader.byte) = 0)
  guard ((← Reader.byte) = 0)
  guard ((← Reader.byte) ≤ 1)
  return ⟨⟨width, height⟩, depth, colors⟩

/-- The bytes of so many pixels, where a sample takes one byte or, of sixteen bits, two. -/
def rowBytes (h : Header) (transparent : Bool) (width : Nat) : Nat :=
  (if h.depth = 16 then 2 else 1) * h.color.samples transparent * width

end Header

inductive Kind
  | header
  | palette
  | transparency
  | sampleBits
  | density
  | gamma
  | primaries
  | intent
  | animation
  | frame
  | frameData
  | imageData
  | ending
  | other
deriving DecidableEq, Repr

def Kind.ofBytes (bytes : Bytes) : Kind :=
  if bytes = ascii "IHDR" then header
  else if bytes = ascii "PLTE" then palette
  else if bytes = ascii "tRNS" then transparency
  else if bytes = ascii "sBIT" then sampleBits
  else if bytes = ascii "pHYs" then density
  else if bytes = ascii "gAMA" then gamma
  else if bytes = ascii "cHRM" then primaries
  else if bytes = ascii "sRGB" then intent
  else if bytes = ascii "acTL" then animation
  else if bytes = ascii "fcTL" then frame
  else if bytes = ascii "fdAT" then frameData
  else if bytes = ascii "IDAT" then imageData
  else if bytes = ascii "IEND" then ending
  else other

/-- The kinds of which there may be one chunk with data. -/
def Kind.single : Kind → Bool
  | header | palette | transparency | density | gamma | primaries | intent => true
  | sampleBits | animation | frame | frameData | imageData | ending | other => false

/-- Where in the picture a frame of an animation goes. Frames are numbered from zero. -/
structure Frame where
  number : Nat
  width : Nat
  height : Nat
  left : Nat
  top : Nat
deriving DecidableEq, Repr

namespace Frame

/-- A frame after which the previous picture stays, is cleared or comes back, and which replaces
or covers what is there. -/
def read : Reader Frame := do
  let number ← Reader.big 4
  let width ← Reader.big 4
  let height ← Reader.big 4
  let left ← Reader.big 4
  let top ← Reader.big 4
  let _delay ← Reader.take 4
  guard ((← Reader.byte) ≤ 2)
  guard ((← Reader.byte) ≤ 1)
  return ⟨number, width, height, left, top⟩

/-- A frame has pixels, and all of them lie in the picture. -/
def Fits (f : Frame) (size : PixelSize) : Prop :=
  f.width ≠ 0 ∧ f.height ≠ 0 ∧ f.left + f.width ≤ size.width ∧ f.top + f.height ≤ size.height

instance (f : Frame) (size : PixelSize) : Decidable (f.Fits size) := by
  unfold Fits
  infer_instance

end Frame

/-- What the chunks so far have said about a picture: the kinds of those that may come once, the
last frame, the bytes that are kept of them, and the length of the longest. -/
structure Description where
  header : Header
  seen : List Kind
  frame : Option Frame
  kept : Nat
  longest : Nat
deriving DecidableEq, Repr

namespace Description

def ofHeader (h : Header) (length : Nat) : Description := ⟨h, [.header], none, 0, length⟩

/-- Transparency of a picture without a sample for it: one color per sample, or entries that go
with the palette. -/
def allowsTransparency (d : Description) (data : Bytes) : Bool :=
  match d.header.color with
  | .gray => 2 ≤ data.length
  | .color => 6 ≤ data.length
  | .indexed => d.seen.contains .palette
  | .grayAlpha | .colorAlpha => false

/-- The significant bits of each sample, of which there are eight at most in a palette. -/
def allowsSampleBits (d : Description) (data : Bytes) : Bool :=
  let depth := if d.header.color = .indexed then 8 else d.header.depth
  data.length = d.header.color.samples false && data.all fun b => 1 ≤ b && b.toNat ≤ depth

/-- The frame that a chunk announces: the next number, and within the picture. -/
def nextFrame? (d : Description) (data : Bytes) : Option Frame := do
  let (f, _) ← Frame.read data
  guard (f.number = (d.frame.elim 0 (·.number + 1)) ∧ f.Fits d.header.size)
  return f

/-- Whether a chunk's data can be read; bytes after what its kind holds are passed over. -/
def accepts (d : Description) (data : Bytes) : Kind → Bool
  | .transparency => d.allowsTransparency data
  | .density => (data[8]?).any (· ≤ 1)
  | .gamma => 4 ≤ data.length
  | .primaries => 32 ≤ data.length
  | .intent => (data[0]?).any (· ≤ 3)
  | .animation => 8 ≤ data.length
  | .header | .frame => false
  | .palette | .sampleBits | .frameData | .imageData | .ending | .other => true

def see (d : Description) (kind : Kind) : Description := { d with seen := kind :: d.seen }

def keep (d : Description) (data : Bytes) : Description := { d with kept := d.kept + data.length }

/-- Significant bits count before the palette and until they are well formed, and do no harm
otherwise. -/
def readSampleBits (d : Description) (data : Bytes) : Description :=
  if d.seen.contains .palette || d.seen.contains .sampleBits then d
  else if d.allowsSampleBits data then (d.see .sampleBits).keep data
  else d.keep data

/-- The description with what a chunk says. -/
def readData? (d : Description) (kind : Kind) (data : Bytes) : Option Description :=
  if kind.single && d.seen.contains kind then none
  else
    match kind with
    | .frame => (d.nextFrame? data).map fun f => { d with frame := some f }
    | .sampleBits => some (d.readSampleBits data)
    | kind =>
      if d.accepts data kind then
        let d := if kind.single then d.see kind else d
        some (if kind = .palette ∨ kind = .transparency then d.keep data else d)
      else none

/-- The description after a chunk with data. -/
def read? (d : Description) (kind : Kind) (data : Bytes) : Option Description :=
  (d.readData? kind data).map fun d => { d with longest := max d.longest data.length }

/-- The bytes that may be taken in memory. -/
def memory : Nat := 512 * 1024 * 1024

/-- The bytes of a buffer that chunks are read into at first; it doubles until a chunk fits. -/
def buffer : Nat := 32 * 1024

/-- The bytes taken up to the image data: what is kept, and what the buffer has grown by. -/
def taken (d : Description) : Nat :=
  d.kept + (max buffer d.longest.nextPowerOfTwo - buffer)

/-- The size, when a row of the frame at hand still fits the memory and the number of bytes of
the whole picture fits a word. -/
def size? (d : Description) : Option PixelSize :=
  let size := d.header.size
  let transparent := d.seen.contains .transparency
  let width := d.frame.elim size.width (·.width)
  if d.header.rowBytes false size.width * size.height < UInt64.size ∧
      d.taken + d.header.rowBytes transparent width ≤ memory then some size
  else none

end Description

/-- A chunk that is complete. -/
structure Chunk where
  data : Bytes
  sound : Bool

/-- The data and checksum of a chunk whose length and kind have been read. -/
def Chunk.read (length : Nat) (kind : Bytes) : Reader Chunk := do
  let data ← Reader.take length
  let sum ← Reader.big 4
  return ⟨data, sum = crc (kind ++ data)⟩

/-- Whether chunks of a kind may not be skipped: their first letter is a capital. -/
def isCritical (kind : Bytes) : Bool :=
  match kind with
  | b :: _ => b &&& 0x20 = 0
  | [] => false

/-- What is known after a chunk; only the header can come first. Data count before the checksum
is looked at, and a wrong checksum does no harm to a chunk that may be skipped. -/
def step? (known : Option Description) (kind : Bytes) (chunk : Chunk) :
    Option (Option Description) := do
  let next ←
    if chunk.data.isEmpty then some known
    else
      match known with
      | none => (Header.read chunk.data).map fun h => some (.ofHeader h.1 chunk.data.length)
      | some d => (d.read? (.ofBytes kind) chunk.data).map some
  guard (chunk.sound ∨ ¬ isCritical kind)
  return next

/-- The length and the kind of the next chunk. -/
def chunkStart : Reader (Nat × Bytes) := do
  let length ← Reader.big 4
  let kind ← Reader.take 4
  return (length, kind)

theorem length_chunkStart {bytes rest : Bytes} {start : Nat × Bytes}
    (h : chunkStart bytes = some (start, rest)) : rest.length + 8 = bytes.length := by
  obtain ⟨_, _, h₁, h⟩ := Reader.bind_eq_some_iff.1 h
  obtain ⟨_, _, h₂, h⟩ := Reader.bind_eq_some_iff.1 h
  obtain ⟨_, rfl⟩ := Reader.pure_eq_some_iff.1 h
  have := Reader.length_of_big h₁
  have := Reader.length_of_take h₂
  omega

theorem length_chunk {length : Nat} {kind bytes rest : Bytes} {chunk : Chunk}
    (h : Chunk.read length kind bytes = some (chunk, rest)) : rest.length ≤ bytes.length := by
  obtain ⟨_, _, h₁, h⟩ := Reader.bind_eq_some_iff.1 h
  obtain ⟨_, _, h₂, h⟩ := Reader.bind_eq_some_iff.1 h
  obtain ⟨_, rfl⟩ := Reader.pure_eq_some_iff.1 h
  have := Reader.length_of_take h₁
  have := Reader.length_of_big h₂
  omega

/-- The size that the chunks give up to the start of the data of the image or of a frame. A frame
has data only after a chunk that announces it, and these start with a number of their own. -/
def chunks? (known : Option Description) (bytes : Bytes) : Option PixelSize :=
  match h : chunkStart bytes with
  | none => none
  | some ((length, kind), body) =>
    if known.isNone && Kind.ofBytes kind ≠ .header then none
    else if Kind.ofBytes kind = .imageData then known.bind (·.size?)
    else if Kind.ofBytes kind = .frameData then
      known.bind fun d => if d.frame.isSome ∧ 4 ≤ length then d.size? else none
    else
      match h' : Chunk.read length kind body with
      | none => none
      | some (chunk, rest) =>
        if Kind.ofBytes kind = .ending then none
        else
          match step? known kind chunk with
          | none => none
          | some next =>
            have : rest.length < bytes.length := by
              have := length_chunkStart h
              have := length_chunk h'
              omega
            chunks? next rest
termination_by bytes.length

def signature : Bytes := [0x89, 0x50, 0x4E, 0x47, 0x0D, 0x0A, 0x1A, 0x0A]

def size? (bytes : Bytes) : Option PixelSize := do
  let (_, chunks) ← Reader.exactly signature bytes
  chunks? none chunks

end MarkupScene.Picture.Png
