import MarkupScene.Asset.DiskLocator
import MarkupScene.Proofs.ReadValues

/-!
# Parts of values

A value has parts along ways of keys through its objects. Printing and reading a value again reads
its parts again. Putting a border into the members of a companion puts one part in, and all parts
that do not lie on the way there or below it are as before. The main statements are that, and that
borders of different targets can be put in in any order.
-/
namespace MarkupScene.Json

open Numeric Text

namespace Value
variable {number : Double → Option String}

def at? : Value → List String → Option Value
  | v, [] => some v
  | object members, key :: way => (members.lookup key).bind (·.at? way)
  | _, _ :: _ => none

theorem at?_insert (d : Dictionary Value) (key : String) (v : Value) (other : String)
    (way : List String) :
    (object (d.insert key v).entries).at? (other :: way) =
      if other = key then v.at? way else (object d.entries).at? (other :: way) := by
  change ((d.insert key v).get? other).bind (·.at? way) = _
  rw [Dictionary.get?_insert]
  split <;> rfl

theorem at?_nil (v : Value) : v.at? [] = some v := by
  cases v <;> rfl

theorem at?_append (v : Value) (way rest : List String) :
    v.at? (way ++ rest) = (v.at? way).bind (·.at? rest) := by
  induction way generalizing v with
  | nil => rw [at?_nil, List.nil_append, Option.bind_some]
  | cons key way ih =>
    cases v with
    | object members =>
      change (members.lookup key).bind (·.at? (way ++ rest)) =
        ((members.lookup key).bind (·.at? way)).bind (·.at? rest)
      cases members.lookup key with
      | none => rfl
      | some v => exact ih v
    | _ => rfl

theorem at?_singleton (d : Dictionary Value) (key : String) :
    (object d.entries).at? [key] = d.get? key := by
  change (d.get? key).bind (·.at? []) = d.get? key
  cases d.get? key with
  | none => rfl
  | some v => exact v.at?_nil

theorem at?_of_get? {d : Dictionary Value} {key : String} {v : Value} (h : d.get? key = some v)
    (way : List String) : (object d.entries).at? (key :: way) = v.at? way := by
  change (d.get? key).bind (·.at? way) = _
  rw [h]
  rfl

theorem at?_number {cs : List Char} {v : Value} (h : Token.number? cs = some v) (key : String)
    (way : List String) : v.at? (key :: way) = none := by
  obtain ⟨t, -, rfl⟩ := Option.map_eq_some_iff.1 h
  unfold NumberText.value
  split
  · rfl
  · split <;> rfl

theorem at?_rereadDouble (x : Double) (key : String) (way : List String) :
    (rereadDouble number x).at? (key :: way) = none := by
  unfold rereadDouble
  split
  · next text _ =>
    cases hread : Token.number? text.toList with
    | none => rfl
    | some v => exact at?_number hread key way
  · rfl

theorem lookup_rereadMembers (members : List (String × Value)) (key : String) :
    (rereadMembers number members).lookup key =
      (members.lookup key).map (Value.reread number) := by
  induction members with
  | nil => rfl
  | cons m members ih =>
    obtain ⟨k, v⟩ := m
    rw [rereadMembers, Dictionary.lookup_entry, Dictionary.lookup_entry, ih]
    split <;> rfl

theorem at?_reread (v : Value) (way : List String) :
    (v.reread number).at? way = (v.at? way).map (Value.reread number) := by
  induction way generalizing v with
  | nil => simp [at?]
  | cons key way ih =>
    cases v with
    | object members =>
      change ((rereadMembers number members).lookup key).bind (·.at? way) =
        ((members.lookup key).bind (·.at? way)).map (Value.reread number)
      rw [lookup_rereadMembers]
      cases members.lookup key with
      | none => rfl
      | some v => exact ih v
    | real x => exact at?_rereadDouble x key way
    | _ => rfl

/-- Whether a value reads as itself when it has been printed. -/
def Steady (number : Double → Option String) (v : Value) : Prop := v.reread number = v

/-- A property of values in so many brackets that objects have with their members. -/
structure Layered (P : Nat → Value → Prop) : Prop where
  inside {room : Nat} {members : List (String × Value)} : P (room + 1) (object members) →
    ∀ m ∈ members, P room m.2
  around {room : Nat} {d : Dictionary Value} : (∀ e ∈ d.entries, P room e.2) →
    P (room + 1) (object d.entries)

theorem layered_fits : Layered Fits where
  inside h := fitMembers_iff.1 h.2
  around h := ⟨Nat.succ_pos _, fitMembers_iff.2 h⟩

theorem layered_settled : Layered fun _ v => v.Settled where
  inside h := settled_members h
  around h := settled_object h

theorem rereadMembers_eq_iff {members : List (String × Value)} :
    rereadMembers number members = members ↔ ∀ m ∈ members, m.2.Steady number := by
  induction members with
  | nil => simp [rereadMembers]
  | cons m members ih =>
    obtain ⟨key, v⟩ := m
    simp [rereadMembers, Steady, ih]

theorem layered_steady (number : Double → Option String) : Layered fun _ v => v.Steady number where
  inside h := rereadMembers_eq_iff.1 (object.inj h)
  around h := congrArg object (rereadMembers_eq_iff.2 h)

end Value

end MarkupScene.Json

namespace MarkupScene.DiskLocator

open Json Text

/-- The way in a companion to what is replaced when a border is written. -/
def borderWay : Option String → List String
  | none => ["border"]
  | some name => ["subMetas", name]

/-- What is put there: a border, or an entry that holds nothing else. -/
def borderEntry (border : Value) : Option String → Value
  | none => border
  | some _ => .object [("border", border)]

/-- The entries of frames in a companion, when there is a place for them. -/
def frames? (members : Dictionary Value) : Option (Dictionary Value) :=
  match members.get? "subMetas" with
  | none => some .empty
  | some (.object frames) => some (.ofList frames)
  | some _ => none

/-- Whether a companion has a place for a border: one for entries of frames, if it is a frame's. -/
def Takes (members : Dictionary Value) (frame : Option String) : Prop :=
  frame.isSome → (frames? members).isSome

variable {members : Dictionary Value} {frame other : Option String} {border : Value}

theorem putFrameBorder_eq (members : Dictionary Value) (name : String) (border : Value) :
    putFrameBorder members name border =
      match frames? members with
      | some frames => members.insert "subMetas"
          (.object (frames.insert name (borderEntry border (some name))).entries)
      | none => members := by
  unfold putFrameBorder frames?
  cases members.get? "subMetas" with
  | none => rfl
  | some v => cases v <;> rfl

theorem frames?_insert_border (members : Dictionary Value) (border : Value) :
    frames? (members.insert "border" border) = frames? members := by
  unfold frames?
  rw [Dictionary.get?_insert, if_neg (by decide)]

theorem frames?_insert_frames (members frames : Dictionary Value) :
    frames? (members.insert "subMetas" (.object frames.entries)) = some frames := by
  unfold frames?
  rw [Dictionary.get?_insert, if_pos rfl]
  exact congrArg some frames.ofList_entries

/-- Borders of different targets can be put in in any order. -/
theorem putBorder_comm (members : Dictionary Value) (h : frame ≠ other) (border edge : Value) :
    putBorder (putBorder members frame border) other edge =
      putBorder (putBorder members other edge) frame border := by
  have hwhole : ∀ (name : String) (border edge : Value),
      putFrameBorder (members.insert "border" border) name edge =
        (putFrameBorder members name edge).insert "border" border := by
    intro name border edge
    rw [putFrameBorder_eq, putFrameBorder_eq, frames?_insert_border]
    cases frames? members with
    | none => rfl
    | some frames => exact Dictionary.insert_comm _ (by decide) _ _
  cases frame with
  | none =>
    cases other with
    | none => exact absurd rfl h
    | some name => exact hwhole name border edge
  | some name =>
    cases other with
    | none => exact (hwhole name edge border).symm
    | some other =>
      have hne : name ≠ other := fun heq => h (congrArg some heq)
      change putFrameBorder (putFrameBorder members name border) other edge =
        putFrameBorder (putFrameBorder members other edge) name border
      rw [putFrameBorder_eq members, putFrameBorder_eq members]
      cases hframes : frames? members with
      | none =>
        dsimp only
        rw [putFrameBorder_eq, putFrameBorder_eq, hframes]
      | some frames =>
        dsimp only
        rw [putFrameBorder_eq, putFrameBorder_eq, frames?_insert_frames, frames?_insert_frames]
        dsimp only
        rw [Dictionary.insert_insert, Dictionary.insert_insert, Dictionary.insert_comm _ hne]

theorem takes_putBorder (h : Takes members frame) :
    Takes (putBorder members other border) frame := by
  intro hframe
  have hframes := h hframe
  cases other with
  | none => exact (frames?_insert_border members border).symm ▸ hframes
  | some name =>
    obtain ⟨frames, hsome⟩ := Option.isSome_iff_exists.1 hframes
    change (frames? (putFrameBorder members name border)).isSome = true
    rw [putFrameBorder_eq, hsome]
    dsimp only
    rw [frames?_insert_frames]
    rfl

theorem borderWay_apart (h : frame ≠ other) :
    ¬borderWay frame <+: borderWay other ∧ ¬borderWay other <+: borderWay frame := by
  cases frame with
  | none =>
    cases other with
    | none => exact absurd rfl h
    | some name => simp [borderWay]
  | some name =>
    cases other with
    | none => simp [borderWay]
    | some other =>
      have hne : name ≠ other := fun heq => h (congrArg some heq)
      simp [borderWay, hne, Ne.symm hne]

theorem at?_putBorder_self (h : Takes members frame) :
    (Value.object (putBorder members frame border).entries).at? (borderWay frame) =
      some (borderEntry border frame) := by
  cases frame with
  | none =>
    change (Value.object (members.insert "border" border).entries).at? ["border"] = some border
    rw [Value.at?_singleton, Dictionary.get?_insert, if_pos rfl]
  | some name =>
    obtain ⟨frames, hframes⟩ := Option.isSome_iff_exists.1 (h rfl)
    change (Value.object (putFrameBorder members name border).entries).at? ["subMetas", name] = _
    rw [putFrameBorder_eq, hframes]
    dsimp only
    rw [Value.at?_insert, if_pos rfl, Value.at?_singleton, Dictionary.get?_insert, if_pos rfl]

/-- The entries of frames are the parts below their key. -/
theorem at?_frames {frames : Dictionary Value} (hsettled : ∀ e ∈ members.entries, e.2.Settled)
    (hframes : frames? members = some frames) (key : String) (way : List String) :
    (Value.object frames.entries).at? (key :: way) =
      (Value.object members.entries).at? ("subMetas" :: key :: way) := by
  unfold frames? at hframes
  split at hframes
  · next hnone =>
    obtain rfl := Option.some.inj hframes
    change _ = (members.get? "subMetas").bind (·.at? (key :: way))
    rw [hnone]
    rfl
  · next old hold =>
    obtain rfl := Option.some.inj hframes
    have hmember : (Value.object old).Settled := hsettled _ (Dictionary.mem_of_get? hold)
    obtain ⟨d, -, hd⟩ := Value.settle?_object hmember
    obtain rfl := Value.object.inj hd
    rw [Value.at?_of_get? hold, Dictionary.ofList_entries]
  · cases hframes

/-- What does not lie on the way to a border or below it is as before. -/
theorem at?_putBorder_of_apart (hsettled : ∀ e ∈ members.entries, e.2.Settled) {way : List String}
    (h : Takes members frame → ¬way <+: borderWay frame ∧ ¬borderWay frame <+: way) :
    (Value.object (putBorder members frame border).entries).at? way =
      (Value.object members.entries).at? way := by
  cases frame with
  | none =>
    obtain ⟨hway, hborder⟩ := h fun h => nomatch h
    cases way with
    | nil => exact absurd List.nil_prefix hway
    | cons key way =>
      have hkey : key ≠ "border" := by
        rintro rfl
        exact hborder (List.prefix_append ["border"] way)
      change (Value.object (members.insert "border" border).entries).at? (key :: way) = _
      rw [Value.at?_insert, if_neg hkey]
  | some name =>
    change (Value.object (putFrameBorder members name border).entries).at? way = _
    rw [putFrameBorder_eq]
    cases hframes : frames? members with
    | none => rfl
    | some frames =>
      obtain ⟨hway, hborder⟩ := h fun _ => Option.isSome_iff_exists.2 ⟨frames, hframes⟩
      dsimp only
      rcases way with _ | ⟨key, way⟩
      · exact absurd List.nil_prefix hway
      · rw [Value.at?_insert]
        split
        · next hkey =>
          subst hkey
          rcases way with _ | ⟨next, way⟩
          · exact absurd (List.prefix_append ["subMetas"] [name]) hway
          · have hnext : next ≠ name := by
              rintro rfl
              exact hborder (List.prefix_append ["subMetas", next] way)
            rw [Value.at?_insert, if_neg hnext, at?_frames hsettled hframes]
        · rfl

/-- What holds of a border and of all members of a companion still does when it is put in. -/
theorem putBorder_layered {P : Nat → Value → Prop} (hP : Value.Layered P) {n : Nat}
    (hmembers : ∀ e ∈ members.entries, P (n + 3) e.2) (hborder : ∀ room, P (room + 1) border) :
    ∀ e ∈ (putBorder members frame border).entries, P (n + 3) e.2 := by
  cases frame with
  | none =>
    intro e he
    rcases Dictionary.mem_insertEntry he with rfl | he
    · exact hborder _
    · exact hmembers e he
  | some name =>
    change ∀ e ∈ (putFrameBorder members name border).entries, P (n + 3) e.2
    rw [putFrameBorder_eq]
    cases hframes : frames? members with
    | none => exact hmembers
    | some frames =>
      have hentry : P (n + 2) (.object [("border", border)]) :=
        hP.around (d := Dictionary.empty.insert "border" border)
          (List.forall_mem_singleton.2 (hborder n))
      have hold : ∀ e ∈ frames.entries, P (n + 2) e.2 := by
        unfold frames? at hframes
        split at hframes
        · obtain rfl := Option.some.inj hframes
          exact List.forall_mem_nil _
        · next old hold =>
          obtain rfl := Option.some.inj hframes
          exact fun e he => hP.inside (hmembers _ (Dictionary.mem_of_get? hold)) e
            (Dictionary.mem_ofList he)
        · cases hframes
      intro e he
      rcases Dictionary.mem_insertEntry he with rfl | he
      · refine hP.around fun e he => ?_
        rcases Dictionary.mem_insertEntry he with rfl | he
        · exact hentry
        · exact hold e he
      · exact hmembers e he

end MarkupScene.DiskLocator
