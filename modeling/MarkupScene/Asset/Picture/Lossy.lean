import MarkupScene.Asset.Picture.Bytes

/-!
# Lossy pictures

A key frame is a short plain header, a first partition in an arithmetic code, and one, two, four
or eight partitions of coefficients. Coded bits never run out, since past the end of a partition
they go on as zeros; what can go wrong is the plain header, the color space, and partitions that
are missing or too short to begin.
-/
namespace MarkupScene.Picture.Lossy

/-- A place in a partition: the bits that are looked at, the width of the interval they lie in,
how many bits of the last byte have been used, and the bytes to come. -/
structure Coded where
  window : Nat
  range : Nat
  used : Nat
  rest : Bytes
deriving DecidableEq, Repr

namespace Coded

/-- The start of a partition, which takes two bytes. -/
def start? : Bytes → Option Coded
  | a :: b :: rest => some ⟨bigEndian [a, b], 255, 0, rest⟩
  | _ => none

/-- The place with the interval twice as wide and one more bit in view. -/
def shift (s : Coded) : Coded :=
  if s.used = 7 then
    ⟨s.window * 2 + (s.rest.head?.elim 0 UInt8.toNat), s.range * 2, 0, s.rest.tail⟩
  else ⟨s.window * 2, s.range * 2, s.used + 1, s.rest⟩

/-- The place with the interval at least half of its full width, after so many shifts at most. -/
def widen : Nat → Coded → Coded
  | 0, s => s
  | n + 1, s => if s.range < 128 then widen n s.shift else s

/-- A bit that is as likely to be set as not. -/
def flag : StateM Coded Bool := fun s =>
  let split := 1 + (s.range - 1) / 2
  if split * 256 ≤ s.window then
    (true, widen 7 { s with window := s.window - split * 256, range := s.range - split })
  else (false, widen 7 { s with range := split })

/-- A number of so many bits, the most significant one first. -/
def number : Nat → StateM Coded Nat
  | 0 => return 0
  | n + 1 => do
    let high ← flag
    let low ← number n
    return high.toNat * Nat.pow 2 n + low

/-- A flag, and a number of so many bits if it is set. -/
def optional (bits : Nat) : StateM Coded Unit := do
  if ← flag then
    let _ ← number bits

end Coded

open Coded

/-- Quantizers and filter levels of up to four segments, each a number and a sign, and how the
segments are told apart. -/
def segmentation : StateM Coded Unit := do
  if ← flag then
    let map ← flag
    if ← flag then
      let _ ← flag
      let _ ← repeated (optional 8) 4
      let _ ← repeated (optional 7) 4
    if map then
      let _ ← repeated (optional 8) 3

/-- Filter adjustments for four kinds of reference and four modes, each a number and a sign. -/
def filterAdjustments : StateM Coded Unit := do
  if ← flag then
    if ← flag then
      let _ ← repeated (optional 7) 8

/-- Whether the color space is a reserved one, and the number of coefficient partitions. -/
def frameHeader : StateM Coded (Bool × Nat) := do
  let reserved ← flag
  let _clamping ← flag
  segmentation
  let _filter ← number 10
  filterAdjustments
  let partitions ← number 2
  return (reserved, Nat.pow 2 partitions)

/-- Partitions of the given sizes, each with the two bytes that start it. -/
def partitions : List Nat → Reader Unit
  | [] => return
  | size :: sizes => do
    let bytes ← Reader.take size
    guard (2 ≤ bytes.length)
    partitions sizes

/-- The size of a key frame. The sizes of the partitions but the last come before them, of three
bytes each; the last one takes the rest. -/
def read : Reader PixelSize := do
  let tag ← Reader.little 3
  guard (tag % 2 = 0)
  Reader.exactly [0x9D, 0x01, 0x2A]
  let width ← Reader.little 2
  let height ← Reader.little 2
  let first ← Reader.take (tag / 32)
  let start ← liftM (start? first)
  let (reserved, count) := (frameHeader.run start).1
  guard (!reserved)
  partitions (← repeated (Reader.little 3) (count - 1))
  guard (2 ≤ (← get).length)
  return ⟨width % 0x4000, height % 0x4000⟩

def size? (bytes : Bytes) : Option PixelSize := (read bytes).map Prod.fst

end MarkupScene.Picture.Lossy
