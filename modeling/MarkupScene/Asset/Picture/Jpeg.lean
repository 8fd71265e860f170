import MarkupScene.Asset.Picture.Bytes
import MarkupScene.Asset.Picture.PrefixCode

/-!
# Photographic pictures

A file is a row of segments, each behind a marker. The size stands in the first frame header; the
tables and notes before it must be well formed, and the frame must be one that can be decoded.
-/
namespace MarkupScene.Picture.Jpeg

/-- The bytes from the code of the next marker on: a marker is a byte of ones, any number of
times, and a code that is neither zero nor all ones. -/
def nextMarker : Bytes → Bytes
  | 0xFF :: code :: rest =>
    if code = 0xFF then nextMarker (code :: rest)
    else if code = 0 then nextMarker rest
    else code :: rest
  | _ :: rest => nextMarker rest
  | [] => []

theorem length_nextMarker (bytes : Bytes) : (nextMarker bytes).length ≤ bytes.length := by
  fun_induction nextMarker bytes <;> simp_all <;> omega

/-- Quantization tables: each has a byte for its width and place, and sixty-four steps of one or
two bytes, none of which is zero. -/
def quantizationTables : Bytes → Bool
  | [] => true
  | b :: rest =>
    let width := (b >>> 4).toNat + 1
    let steps := rest.take (64 * width)
    width ≤ 2 && b &&& 0x0F ≤ 3 && steps.length = 64 * width &&
      (List.range 64).all (fun i => bigEndian ((steps.drop (i * width)).take width) ≠ 0) &&
      quantizationTables (rest.drop (64 * width))
termination_by bytes => bytes.length
decreasing_by
  simp only [List.length_drop, List.length_cons]
  omega

/-- Prefix codes: each has a byte for its class and place, the numbers of words of each length up
to sixteen, and the symbols, of which there are one to 256. -/
def codeTables : Bytes → Bool
  | [] => true
  | b :: rest =>
    let counts := (rest.take 16).map UInt8.toNat
    let symbols := counts.foldl (· + ·) 0
    let tail := rest.drop 16
    b >>> 4 ≤ 1 && b &&& 0x0F ≤ 3 && counts.length = 16 && 1 ≤ symbols && symbols ≤ 256 &&
      symbols ≤ tail.length && wordsSuffice 2 counts && codeTables (tail.drop symbols)
termination_by bytes => bytes.length
decreasing_by
  simp only [List.length_drop, List.length_cons]
  omega

/-- The note of one program names a color transform; there are three. -/
def knownTransform (data : Bytes) : Bool :=
  !(ascii "Adobe\x00").isPrefixOf data || (data[11]?).all (· ≤ 2)

/-- Whether a segment may come before the frame and its data can be read. -/
def segmentReads (code : UInt8) (data : Bytes) : Bool :=
  if code = 0xC4 then codeTables data
  else if code = 0xDB then quantizationTables data
  else if code = 0xDD then data.length = 2
  else if code = 0xEE then knownTransform data
  else (0xE0 ≤ code && code ≤ 0xEF) || code = 0xFE

/-- How a frame is coded, of the ways that can be decoded. -/
inductive Process
  | baseline
  | extended
  | progressive
  | lossless
deriving DecidableEq, Repr

def Process.ofCode? (code : UInt8) : Option Process :=
  if code = 0xC0 then some baseline
  else if code = 0xC1 then some extended
  else if code = 0xC2 then some progressive
  else if code = 0xC3 then some lossless
  else none

/-- The bits of a sample. -/
def Process.allowsPrecision (process : Process) (bits : Nat) : Bool :=
  bits = 8 || (process = lossless && 2 ≤ bits && bits ≤ 16)

/-- The samples of one component: their density across and down, and their quantization table. -/
structure Component where
  name : UInt8
  across : Nat
  down : Nat
  table : Nat
deriving DecidableEq, Repr

def Component.read : Reader Component := do
  let name ← Reader.byte
  let density ← Reader.byte
  let table ← Reader.byte
  return ⟨name, (density >>> 4).toNat, (density &&& 0x0F).toNat, table.toNat⟩

def Component.Sound (process : Process) (c : Component) : Prop :=
  1 ≤ c.across ∧ c.across ≤ 4 ∧ 1 ≤ c.down ∧ c.down ≤ 4 ∧
    c.table ≤ (if process = .lossless then 0 else 3)

instance (process : Process) (c : Component) : Decidable (c.Sound process) := by
  unfold Component.Sound
  infer_instance

/-- Whether samples can be spread over the picture, given the densest ones: a whole number of times
less dense in both directions, or dense enough in one and by half too thin in the other at most. A
direction of one pixel is dense enough. -/
def Component.spreads (c : Component) (across down : Nat) (size : PixelSize) : Bool :=
  let fullAcross := c.across = across || size.width = 1
  let fullDown := c.down = down || size.height = 1
  let halfAcross := c.across * 2 = across
  let halfDown := c.down * 2 = down
  (fullAcross && fullDown) || (fullDown && halfAcross) || (fullAcross && halfDown) ||
    (halfAcross && halfDown) || (across % c.across = 0 && down % c.down = 0)

/-- The size in a frame header. -/
def frameSize (process : Process) : Reader PixelSize := do
  let precision ← Reader.big 1
  let height ← Reader.big 2
  let width ← Reader.big 2
  let count ← Reader.big 1
  let components ← repeated Component.read count
  let size : PixelSize := ⟨width, height⟩
  let across := (components.map Component.across).foldl max 0
  let down := (components.map Component.down).foldl max 0
  guard (process.allowsPrecision precision ∧ height ≠ 0 ∧ width ≠ 0 ∧ (← get) = [])
  guard (count = 1 ∨ count = 3 ∨ count = 4)
  guard (components.Pairwise fun c d => c.name ≠ d.name)
  guard (∀ c ∈ components, c.Sound process)
  guard (components.all fun c => c.spreads across down size)
  return size

/-- The size of the first frame. -/
def firstFrame? (bytes : Bytes) : Option PixelSize :=
  match h : nextMarker bytes with
  | code :: l1 :: l0 :: rest =>
    let length := bigEndian [l1, l0]
    let data := rest.take (length - 2)
    if length < 2 ∨ data.length < length - 2 then none
    else
      match Process.ofCode? code with
      | some process => (frameSize process data).map Prod.fst
      | none =>
        if segmentReads code data then
          have : (rest.drop (length - 2)).length < bytes.length := by
            have := length_nextMarker bytes
            rw [h] at this
            simp only [List.length_cons, List.length_drop] at this ⊢
            omega
          firstFrame? (rest.drop (length - 2))
        else none
  | _ => none
termination_by bytes.length
decreasing_by exact this

def size? (bytes : Bytes) : Option PixelSize := do
  let (_, segments) ← Reader.exactly [0xFF, 0xD8] bytes
  firstFrame? segments

end MarkupScene.Picture.Jpeg
