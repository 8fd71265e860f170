import MarkupScene.Markup.Entity

/-!
# Attributes of a tag

The content of a tag after its name is a row of keys, equals signs and quoted values. Blanks may
stand before a key and on both sides of the equals sign, and none are needed between attributes.
A key runs to an equals sign or a blank and has at least one character, which may itself be an
equals sign. Positions count bytes from the start of the tag's name.
-/
namespace MarkupScene.Markup

open Text

inductive AttributeFault where
  | keyUnfollowed (position : Nat)
  | valueMissing (position : Nat)
  | valueUnquoted (position : Nat)
  | quoteUnclosed (position : Nat) (quote : Char)
  | repeated (position previous : Nat)
  | entity (fault : EntityFault)
deriving DecidableEq, Repr

def AttributeFault.message : AttributeFault → String
  | keyUnfollowed position =>
    "position " ++ toString position ++
      ": attribute key must be directly followed by \x60=\x60 or space"
  | valueMissing position =>
    "position " ++ toString position ++ ": \x60=\x60 must be followed by an attribute value"
  | valueUnquoted position =>
    "position " ++ toString position ++
      ": attribute value must be enclosed in \x60\"\x60 or \x60'\x60"
  | quoteUnclosed position quote =>
    "position " ++ toString position ++ ": missing closing quote \x60" ++ quote.toString ++
      "\x60 in attribute value"
  | repeated position previous =>
    "position " ++ toString position ++
      ": duplicated attribute, previous declaration at position " ++ toString previous
  | entity fault => fault.message

/-- The blanks of markup. -/
def isSpace (c : Char) : Bool := c = ' ' || c = '\t' || c = '\r' || c = '\n'

/-- A row of characters that stands at a position. -/
structure Cursor where
  position : Nat
  rest : List Char

namespace Cursor

/-- Moves past the characters that satisfy a test. -/
def skip (p : Char → Bool) (c : Cursor) : Cursor :=
  ⟨c.position + byteSize (c.rest.takeWhile p), c.rest.dropWhile p⟩

/-- Moves past one character. -/
def next (c : Cursor) : Cursor :=
  match c.rest with
  | [] => c
  | x :: rest => ⟨c.position + x.utf8Size, rest⟩

theorem length_skip (p : Char → Bool) (c : Cursor) : (c.skip p).rest.length ≤ c.rest.length :=
  (List.dropWhile_suffix p (l := c.rest)).length_le

theorem length_next (c : Cursor) : c.next.rest.length ≤ c.rest.length := by
  unfold next
  split <;> simp_all

end Cursor

structure RawAttribute where
  key : List Char
  keyAt : Nat
  value : List Char

def isKeyChar (c : Char) : Bool := c ≠ '=' && !isSpace c

/-- The attribute at a cursor and the cursor after it, none when only blanks are left. `stop` is
the size of the content, and `seen` holds the attributes before this one. -/
def nextAttribute (stop : Nat) (seen : List RawAttribute) (c : Cursor) :
    Except AttributeFault (Option (RawAttribute × Cursor)) :=
  let atKey := c.skip isSpace
  match atKey.rest with
  | [] => .ok none
  | first :: more =>
    let key := first :: more.takeWhile isKeyChar
    let atEquals := (atKey.next.skip isKeyChar).skip isSpace
    if atEquals.rest.head? ≠ some '=' then
      .error (.keyUnfollowed (if atEquals.rest.isEmpty then stop else atEquals.position))
    else match seen.find? fun a => a.key = key with
      | some previous => .error (.repeated atKey.position previous.keyAt)
      | none =>
        let atValue := atEquals.next.skip isSpace
        match atValue.rest with
        | [] => .error (.valueMissing stop)
        | quote :: quoted =>
          if quote = '"' ∨ quote = '\'' then
            let atClose := atValue.next.skip (· ≠ quote)
            if atClose.rest.isEmpty then .error (.quoteUnclosed stop quote)
            else .ok (some (⟨key, atKey.position, quoted.takeWhile (· ≠ quote)⟩, atClose.next))
          else .error (.valueUnquoted atValue.position)

theorem length_nextAttribute {stop : Nat} {seen : List RawAttribute} {c after : Cursor}
    {a : RawAttribute} (h : nextAttribute stop seen c = .ok (some (a, after))) :
    after.rest.length < c.rest.length := by
  simp only [nextAttribute] at h
  split at h
  · simp at h
  · next first more hkey =>
    split at h
    · simp at h
    · split at h
      · simp at h
      · split at h
        · simp at h
        · split at h
          · split at h
            · simp at h
            · simp only [Except.ok.injEq, Option.some.injEq, Prod.mk.injEq] at h
              obtain ⟨_, rfl⟩ := h
              have h0 := c.length_skip isSpace
              have h1 : (c.skip isSpace).next.rest.length < (c.skip isSpace).rest.length := by
                simp [Cursor.next, hkey]
              refine Nat.lt_of_le_of_lt ?_ (Nat.lt_of_lt_of_le h1 h0)
              refine Nat.le_trans (Cursor.length_next _) ?_
              refine Nat.le_trans (Cursor.length_skip _ _) ?_
              refine Nat.le_trans (Cursor.length_next _) ?_
              refine Nat.le_trans (Cursor.length_skip _ _) ?_
              refine Nat.le_trans (Cursor.length_next _) ?_
              refine Nat.le_trans (Cursor.length_skip _ _) ?_
              exact Cursor.length_skip _ _
          · simp at h

/-- All attributes from a cursor on, each checked before the next one is looked at. -/
def attributesFrom (stop : Nat) (seen : List RawAttribute) (c : Cursor) :
    Except AttributeFault (List (String × String)) :=
  match h : nextAttribute stop seen c with
  | .error fault => .error fault
  | .ok none => .ok []
  | .ok (some (a, after)) =>
    have := length_nextAttribute h
    do
      let value ← (unescape 0 a.value).mapError .entity
      let rest ← attributesFrom stop (seen ++ [a]) after
      return (.ofList a.key, .ofList value) :: rest
termination_by c.rest.length

/-- The name at the start of a tag's content. -/
def nameOf (content : List Char) : List Char := content.takeWhile fun c => !isSpace c

/-- The attributes after the name, in the order of the document. -/
def attributesOf (content : List Char) : Except AttributeFault (List (String × String)) :=
  attributesFrom (byteSize content) []
    ⟨byteSize (nameOf content), content.dropWhile fun c => !isSpace c⟩

end MarkupScene.Markup
