import MarkupScene.Json.Value

/-!
# Decoding JSON

A record is decoded from an object or from an array that lists its fields in order. Members that
are no fields are skipped unseen, and a field that is given twice is an error. A field that an
object leaves out is `omitted` and one that an array ends before is `cutOff`; an optional field
without a default may be omitted but not cut off.
-/
namespace MarkupScene.Json

open Numeric Text

abbrev Decoder (α : Type) := Value → Option α

namespace Value

def text? : Decoder String
  | text s => some s
  | _ => none

def bool? : Decoder Bool
  | bool b => some b
  | _ => none

def integerIn? (low high : Int) : Decoder Int
  | integer i => if low ≤ i ∧ i ≤ high then some i else none
  | _ => none

/-- A signed integer of four bytes. -/
def word? : Decoder Int32 := fun v => (integerIn? Int32.minValue.toInt Int32.maxValue.toInt v).map .ofInt

def byte? : Decoder UInt8 := fun v => (integerIn? 0 255 v).map fun i => .ofNat i.toNat

/-- The nearest single, from an integer or from a double. -/
def single? : Decoder Single
  | integer i => some (.ofInt i)
  | real x => some x.convert
  | _ => none

def option? {α : Type} (d : Decoder α) : Decoder (Option α)
  | null => some none
  | v => (d v).map some

def list? {α : Type} (d : Decoder α) : Decoder (List α)
  | array items => items.mapM d
  | _ => none

/-- Every member is decoded, also one whose key comes again later. -/
def dictionary? {α : Type} (d : Decoder α) : Decoder (Dictionary α)
  | object members => do
    let entries ← members.mapM fun m => (d m.2).map fun a => (m.1, a)
    return .ofList entries
  | _ => none

/-- One of several names: a string, or an object whose only key is the name and whose value says
nothing. -/
def choice? {α : Type} (saysNothing : Value → Bool) (choices : List (String × α)) : Decoder α
  | text s => choices.lookup s
  | object [(s, v)] => if saysNothing v then choices.lookup s else none
  | _ => none

def isNull : Value → Bool
  | null => true
  | _ => false

/-- Null or the empty object. -/
def isEmptyOrNull : Value → Bool
  | null | object [] => true
  | _ => false

end Value

inductive Slot where
  | given (v : Value)
  | omitted
  | cutOff

namespace Slot
variable {α : Type}

def required (d : Decoder α) : Slot → Option α
  | given v => d v
  | _ => none

def withDefault (default : α) (d : Decoder α) : Slot → Option α
  | given v => d v
  | _ => some default

def optional (d : Decoder α) : Slot → Option (Option α)
  | given v => v.option? d
  | omitted => some none
  | cutOff => none

/-- An optional field that may be missing in both forms. -/
def optionalOrDefault (d : Decoder α) : Slot → Option (Option α) :=
  withDefault none (·.option? d)

end Slot

/-- The members of an object under one key. -/
def valuesOf (members : List (String × Value)) (name : String) : List Value :=
  (members.filter fun m => m.1 = name).map (·.2)

/-- The slot of a field in an object. -/
def slotIn? (members : List (String × Value)) (name : String) : Option Slot :=
  match valuesOf members name with
  | [] => some .omitted
  | [v] => some (.given v)
  | _ => none

/-- The slots of a record's fields. -/
def slots? (names : List String) : Value → Option (List Slot)
  | .object members => names.mapM (slotIn? members)
  | .array items =>
    if items.length ≤ names.length then
      some (items.map .given ++ List.replicate (names.length - items.length) .cutOff)
    else none
  | _ => none

theorem sizeOf_valuesOf {members : List (String × Value)} {name : String} {v : Value}
    (h : v ∈ valuesOf members name) : sizeOf v < sizeOf members := by
  simp only [valuesOf, List.mem_map, List.mem_filter] at h
  obtain ⟨m, ⟨hm, _⟩, rfl⟩ := h
  have := List.sizeOf_lt_of_mem hm
  obtain ⟨k, v⟩ := m
  simp only [Prod.mk.sizeOf_spec] at this ⊢
  omega

theorem sizeOf_of_mapM_slotIn? {members : List (String × Value)} {names : List String}
    {slots : List Slot} (h : names.mapM (slotIn? members) = some slots) {v : Value}
    (hv : .given v ∈ slots) : sizeOf v < sizeOf members := by
  induction names generalizing slots with
  | nil => simp at h; subst h; simp at hv
  | cons name names ih =>
    simp only [List.mapM_cons, Option.bind_eq_bind, Option.bind_eq_some_iff,
      Option.pure_def, Option.some.injEq] at h
    obtain ⟨slot, hslot, rest, hrest, rfl⟩ := h
    rcases List.mem_cons.1 hv with rfl | hv
    · simp only [slotIn?] at hslot
      split at hslot
      · simp at hslot
      · next w hw =>
        simp only [Option.some.injEq, Slot.given.injEq] at hslot
        subst hslot
        exact sizeOf_valuesOf (show w ∈ valuesOf members name by simp [hw])
      · simp at hslot
    · exact ih hrest hv

/-- What a slot holds is a part of the record. -/
theorem sizeOf_of_slots? {names : List String} {record : Value} {slots : List Slot}
    (h : slots? names record = some slots) {v : Value} (hv : .given v ∈ slots) :
    sizeOf v < sizeOf record := by
  cases record with
  | object members =>
    have := sizeOf_of_mapM_slotIn? h hv
    simp only [Value.object.sizeOf_spec]
    omega
  | array items =>
    simp only [slots?] at h
    split at h
    · simp only [Option.some.injEq] at h
      subst h
      rcases List.mem_append.1 hv with hv | hv
      · obtain ⟨w, hw, e⟩ := List.mem_map.1 hv
        cases e
        have := List.sizeOf_lt_of_mem hw
        simp only [Value.array.sizeOf_spec]
        omega
      · simp at hv
    · simp at h
  | _ => simp [slots?] at h

end MarkupScene.Json
