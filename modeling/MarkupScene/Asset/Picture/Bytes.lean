/-!
# Bytes of a picture file

Numbers in either order of bytes, and readers that take bytes from the front of a file and fail
at its end. Pictures differ in everything else.
-/
namespace MarkupScene

/-- A size in pixels. -/
structure PixelSize where
  width : Nat
  height : Nat
deriving DecidableEq, Repr

namespace Picture

abbrev Bytes := List UInt8

/-- The number whose most significant byte comes first. -/
def bigEndian (bytes : Bytes) : Nat := bytes.foldl (fun n b => n * 256 + b.toNat) 0

/-- The number whose least significant byte comes first. -/
def littleEndian (bytes : Bytes) : Nat := bigEndian bytes.reverse

def ascii (s : String) : Bytes := s.toList.map fun c => c.toNat.toUInt8

/-- The same reading a number of times. -/
@[specialize] def repeated {m : Type → Type} [Monad m] {α : Type} (read : m α) : Nat → m (List α)
  | 0 => return []
  | n + 1 => do
    let first ← read
    let others ← repeated read n
    return first :: others

/-- What can be read from the front of a file: a value and the bytes after it, or nothing. -/
abbrev Reader := StateT Bytes Option

namespace Reader

/-- A given number of bytes. -/
def take (n : Nat) : Reader Bytes := fun bytes =>
  let front := bytes.take n
  if front.length = n then some (front, bytes.drop n) else none

def byte : Reader UInt8
  | b :: rest => some (b, rest)
  | [] => none

/-- A number of so many bytes, the most significant one first. -/
def big (n : Nat) : Reader Nat := bigEndian <$> take n

/-- A number of so many bytes, the least significant one first. -/
def little (n : Nat) : Reader Nat := littleEndian <$> take n

/-- The given bytes and no others. -/
def exactly (expected : Bytes) : Reader Unit := do
  let found ← take expected.length
  guard (found = expected)

theorem pure_eq_some_iff {a b : α} {bytes rest : Bytes} :
    (pure a : Reader α) bytes = some (b, rest) ↔ a = b ∧ bytes = rest := by
  show some (a, bytes) = some (b, rest) ↔ _
  simp

theorem bind_eq_some_iff {x : Reader α} {f : α → Reader β} {b : β} {bytes rest : Bytes} :
    (x >>= f) bytes = some (b, rest) ↔
      ∃ a middle, x bytes = some (a, middle) ∧ f a middle = some (b, rest) := by
  show (x bytes).bind (fun p => f p.1 p.2) = some (b, rest) ↔ _
  simp [Option.bind_eq_some_iff]

theorem map_eq_some_iff {x : Reader α} {f : α → β} {b : β} {bytes rest : Bytes} :
    (f <$> x) bytes = some (b, rest) ↔ ∃ a, x bytes = some (a, rest) ∧ f a = b := by
  show (x bytes).bind (fun p => some (f p.1, p.2)) = some (b, rest) ↔ _
  simp only [Option.bind_eq_some_iff, Prod.exists, Option.some.injEq, Prod.mk.injEq]
  constructor
  · rintro ⟨a, _, h, hb, rfl⟩
    exact ⟨a, h, hb⟩
  · rintro ⟨a, h, hb⟩
    exact ⟨a, rest, h, hb, rfl⟩

theorem take_eq_some_iff {n : Nat} {bytes front rest : Bytes} :
    take n bytes = some (front, rest) ↔ bytes = front ++ rest ∧ front.length = n := by
  simp only [take]
  split
  · next h =>
    simp only [Option.some.injEq, Prod.mk.injEq]
    constructor
    · rintro ⟨rfl, rfl⟩
      exact ⟨(List.take_append_drop n bytes).symm, h⟩
    · rintro ⟨rfl, rfl⟩
      simp
  · next h =>
    simp only [reduceCtorEq, false_iff, not_and]
    rintro rfl hn
    exact h (by simp [← hn])

theorem length_of_big {n value : Nat} {bytes rest : Bytes} (h : big n bytes = some (value, rest)) :
    rest.length + n = bytes.length := by
  obtain ⟨_, h, _⟩ := map_eq_some_iff.1 h
  obtain ⟨rfl, rfl⟩ := take_eq_some_iff.1 h
  simp [Nat.add_comm]

theorem length_of_little {n value : Nat} {bytes rest : Bytes}
    (h : little n bytes = some (value, rest)) : rest.length + n = bytes.length := by
  obtain ⟨_, h, _⟩ := map_eq_some_iff.1 h
  obtain ⟨rfl, rfl⟩ := take_eq_some_iff.1 h
  simp [Nat.add_comm]

theorem length_of_take {n : Nat} {front bytes rest : Bytes}
    (h : take n bytes = some (front, rest)) : rest.length + n = bytes.length := by
  obtain ⟨rfl, rfl⟩ := take_eq_some_iff.1 h
  simp [Nat.add_comm]

end Reader

end Picture

end MarkupScene
