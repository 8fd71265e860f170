import MarkupScene.Asset.Picture.Lossless
import MarkupScene.Asset.Picture.Lossy

/-!
# Web pictures

A file is a row of chunks. It is one lossy or lossless picture, or starts with a header that gives
the size of a canvas; what is to be shown on the canvas must be readable too, though its own size
does not matter. Of an animation only the first frame has to be readable.
-/
namespace MarkupScene.Picture.Webp

inductive Kind
  | lossy
  | lossless
  | extended
  | animation
  | frame
  | alpha
  | profile
  | note
  | container
  | unknown
deriving DecidableEq, Repr

def Kind.ofBytes (bytes : Bytes) : Kind :=
  if bytes = ascii "VP8 " then lossy
  else if bytes = ascii "VP8L" then lossless
  else if bytes = ascii "VP8X" then extended
  else if bytes = ascii "ANIM" then animation
  else if bytes = ascii "ANMF" then frame
  else if bytes = ascii "ALPH" then alpha
  else if bytes = ascii "ICCP" then profile
  else if bytes = ascii "EXIF" ∨ bytes = ascii "XMP " then note
  else if bytes = ascii "RIFF" ∨ bytes = ascii "WEBP" then container
  else unknown

structure Chunk where
  kind : Kind
  data : Bytes
deriving DecidableEq, Repr

/-- The next chunk. A length beyond the end of the file means the rest of it, and an odd length
has one byte more behind it, which is dropped. -/
def chunk : Reader Chunk := do
  let kind ← Reader.take 4
  let length ← Reader.little 4
  let padded ← modifyGet fun rest => rest.splitAt (length + length % 2)
  return ⟨.ofBytes kind, if length % 2 = 0 then padded else padded.dropLast⟩

theorem length_chunk {bytes rest : Bytes} {c : Chunk} (h : chunk bytes = some (c, rest)) :
    rest.length < bytes.length := by
  obtain ⟨_, _, h₁, h⟩ := Reader.bind_eq_some_iff.1 h
  obtain ⟨length, body, h₂, h⟩ := Reader.bind_eq_some_iff.1 h
  obtain ⟨padded, after, h₃, h⟩ := Reader.bind_eq_some_iff.1 h
  obtain ⟨_, rfl⟩ := Reader.pure_eq_some_iff.1 h
  have h₃ : some (body.splitAt (length + length % 2)) = some (padded, after) := h₃
  have := Reader.length_of_take h₁
  have := Reader.length_of_little h₂
  simp only [List.splitAt_eq, Option.some.injEq, Prod.mk.injEq] at h₃
  obtain ⟨_, rfl⟩ := h₃
  simp only [List.length_drop]
  omega

/-- The chunks of a file, and whether it ends with the last of them: up to three bytes more are
passed over, but not a kind without a length. -/
def chunks (bytes : Bytes) : List Chunk × Bool :=
  match h : chunk bytes with
  | some (c, rest) =>
    have := length_chunk h
    let (others, complete) := chunks rest
    (c :: others, complete)
  | none => ([], bytes.length < 4)
termination_by bytes.length

/-- The number of values in an alpha channel: as many as it has bytes, or, compressed, as the
picture has pixels. -/
def alphaCount (size : PixelSize) : Reader Nat := do
  let info ← Reader.byte
  guard (info &&& 0xC0 = 0 ∧ info &&& 0x30 ≤ 0x10 ∧ info &&& 0x03 ≤ 1)
  let values ← get
  if info &&& 0x03 = 0 then return values.length
  else
    guard (size.width < UInt16.size ∧ size.height < UInt16.size ∧ Lossless.holds size values)
    return size.width * size.height

/-- Whether an alpha channel goes with the lossy picture in the chunk after it. -/
def alphaReads (size : PixelSize) (alpha next : Chunk) : Bool :=
  match alphaCount size alpha.data, Lossy.size? next.data with
  | some (count, _), some picture =>
    next.kind = .lossy && count = picture.width * picture.height
  | _, _ => false

/-- Whether a picture of some kind can be read that is to fill a given size. -/
def pictureReads (size : PixelSize) (bytes : Bytes) : Bool :=
  match chunk bytes with
  | none => false
  | some (c, rest) =>
    match c.kind with
    | .lossy => (Lossy.size? c.data).isSome
    | .lossless => (Lossless.size? c.data).isSome
    | .alpha => (chunk rest).any fun next => alphaReads size c next.1
    | .extended | .animation | .frame | .profile | .note | .container | .unknown => false

/-- The size of an animation's frame, which must lie on the canvas. -/
def frameSize (canvas : PixelSize) : Reader PixelSize := do
  let left ← Reader.little 3
  let top ← Reader.little 3
  let width ← Reader.little 3
  let height ← Reader.little 3
  let _duration ← Reader.take 3
  let info ← Reader.byte
  guard (2 * left + (width + 1) ≤ canvas.width ∧ 2 * top + (height + 1) ≤ canvas.height)
  guard (info &&& 0xFC = 0)
  return ⟨width + 1, height + 1⟩

def frameReads (canvas : PixelSize) (data : Bytes) : Bool :=
  match frameSize canvas data with
  | none => false
  | some (size, picture) => pictureReads size picture

/-- What has been met so far: an animation's description, one of its frames, a still picture. -/
structure Shown where
  animation : Bool
  frame : Bool
  still : Bool
deriving DecidableEq, Repr

namespace Shown

def nothing : Shown := ⟨false, false, false⟩

/-- An animation shows frames; only without one is a still picture shown. -/
def complete (s : Shown) : Bool := if s.animation then s.frame else s.still

/-- What the chunks after the header show. Of each thing the first one has to be readable. Unknown
chunks may only end the file. -/
def read? (canvas : PixelSize) : List Chunk → Shown → Option Shown
  | [], s => some s
  | c :: others, s =>
    match c.kind with
    | .profile | .note => read? canvas others s
    | .animation =>
      if s.animation || 6 ≤ c.data.length then read? canvas others { s with animation := true }
      else none
    | .frame =>
      if s.frame || frameReads canvas c.data then read? canvas others { s with frame := true }
      else none
    | .lossy =>
      if s.still || (Lossy.size? c.data).isSome then read? canvas others { s with still := true }
      else none
    | .lossless =>
      if s.still || (Lossless.size? c.data).isSome then
        read? canvas others { s with still := true }
      else none
    | .alpha =>
      if s.still then read? canvas others s
      else
        match others with
        | next :: others =>
          if alphaReads canvas c next then read? canvas others { s with still := true } else none
        | [] => none
    | .unknown => if others.all (·.kind = .unknown) then some s else none
    | .extended | .container => none

end Shown

/-- The canvas of an extended header, whose pixels can be counted in a word. -/
def canvas : Reader PixelSize := do
  let flags ← Reader.byte
  let reserved ← Reader.little 3
  let width ← Reader.little 3
  let height ← Reader.little 3
  guard (flags &&& 0xC1 = 0 ∧ reserved = 0)
  guard ((width + 1) * (height + 1) < UInt32.size)
  return ⟨width + 1, height + 1⟩

def extended? (header rest : Bytes) : Option PixelSize := do
  let (size, _) ← canvas header
  let (others, complete) := chunks rest
  let shown ← Shown.read? size others .nothing
  guard (complete ∧ shown.complete)
  return size

/-- The length in the container's header says nothing. -/
def size? (bytes : Bytes) : Option PixelSize := do
  let (_, rest) ← Reader.exactly (ascii "RIFF") bytes
  let (_, rest) ← Reader.take 4 rest
  let (_, rest) ← Reader.exactly (ascii "WEBP") rest
  let (first, rest) ← chunk rest
  match first.kind with
  | .lossy => Lossy.size? first.data
  | .lossless => Lossless.size? first.data
  | .extended => extended? first.data rest
  | .animation | .frame | .alpha | .profile | .note | .container | .unknown => none

end MarkupScene.Picture.Webp
