import MarkupScene.Asset.Picture.Bytes

/-!
# Graphics interchange format

The size stands in the screen descriptor. It counts only when the color table and the extensions
after it can be read, up to the first block of another kind.
-/
namespace MarkupScene.Picture.Gif

/-- The bytes of the color table that follows the screen descriptor. -/
def colorTableSize (flags : UInt8) : Nat :=
  if flags &&& 0x80 = 0 then 0 else 3 * Nat.pow 2 ((flags &&& 7).toNat + 1)

/-- The data of a row of blocks whose first one has the given length. Each block is followed by
the length of the next, and a length of zero ends the row; the first block may be empty. -/
def blocks? (length : Nat) (bytes : Bytes) : Option (Bytes × Bytes) :=
  match h : Reader.take length bytes with
  | none | some (_, []) => none
  | some (data, next :: rest) =>
    if next = 0 then some (data, rest)
    else
      have : rest.length < bytes.length := by
        have := (Reader.take_eq_some_iff.1 h).1
        simp only [this, List.length_append, List.length_cons]
        omega
      (blocks? next.toNat rest).map fun more => (data ++ more.1, more.2)
termination_by bytes.length

theorem length_blocks {length : Nat} {bytes data rest : Bytes}
    (h : blocks? length bytes = some (data, rest)) : rest.length < bytes.length := by
  fun_induction blocks? length bytes generalizing data with
  | case1 | case2 => simp at h
  | case3 length bytes front tail ht =>
    obtain ⟨rfl, rfl⟩ := by simpa using h
    simp only [(Reader.take_eq_some_iff.1 ht).1, List.length_append, List.length_cons]
    omega
  | case4 length bytes front next tail ht _ this ih =>
    simp only [Option.map_eq_some_iff, Prod.exists, Prod.mk.injEq] at h
    obtain ⟨_, _, hm, _, rfl⟩ := h
    have := ih hm
    omega

def introducer : UInt8 := 0x21

def trailer : UInt8 := 0x3B

/-- Extensions are texts, comments, those of applications, and controls of four bytes. -/
def isExtension (label : UInt8) (data : Bytes) : Bool :=
  label = 0x01 || label = 0xFE || label = 0xFF || (label = 0xF9 && data.length = 4)

/-- Whether a block that is no extension can be begun: that takes its first byte and one more,
where the trailer after an extension stands for itself. -/
def reachesPicture : Bytes → Bool
  | kind :: label :: rest =>
    if kind = introducer then
      match rest with
      | [] => false
      | length :: body =>
        match h : blocks? length.toNat body with
        | none => false
        | some (data, next) =>
          have := length_blocks h
          isExtension label data && (next.head? = some trailer || reachesPicture next)
    else true
  | _ => false
termination_by bytes => bytes.length

def read : Reader PixelSize := do
  let version ← Reader.take 6
  guard (version = ascii "GIF87a" ∨ version = ascii "GIF89a")
  let width ← Reader.little 2
  let height ← Reader.little 2
  let flags ← Reader.byte
  let _background ← Reader.take 2
  let _colors ← Reader.take (colorTableSize flags)
  guard (reachesPicture (← get))
  return ⟨width, height⟩

def size? (bytes : Bytes) : Option PixelSize := (read bytes).map Prod.fst

end MarkupScene.Picture.Gif
