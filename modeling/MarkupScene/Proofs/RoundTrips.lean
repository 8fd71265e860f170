import MarkupScene.Prefab.Basic
import MarkupScene.Proofs.BoundReferences
import MarkupScene.Proofs.Rounding

/-!
# Prefabs read back

A prefab that is decoded from its own encoding is the same prefab, member by member: a field that
is left out or null is an absent option, and a behavior is told by its tag. The main statement is
that this holds exactly for prefabs whose numbers are all finite, since a number that is not finite
is encoded as null.
-/
namespace MarkupScene

open Json Numeric

def Fill.singles (f : Fill) : List Single := [f.start, f.range]

namespace Behavior

def singles : Behavior → List Single
  | sprite s => s.fill.elim [] Fill.singles
  | label l => [l.fontSize, l.lineHeight]
  | progressBar b => [b.totalLength, b.progress]
  | editBox e => [e.fontSize, e.placeholderFontSize]
  | scrollBar _ | scrollView _ | mask _ => []

end Behavior

def Constraint.singles (c : Constraint) : List Single := [c.left, c.right, c.top, c.bottom]

/-- The numbers that say where a node is and how it is drawn there. -/
def Body.layoutSingles (b : Body) : List Single :=
  [b.anchor.x, b.anchor.y, b.position.x, b.position.y, b.rotation, b.scaleX, b.scaleY] ++
    b.widthPercent.toList ++ b.heightPercent.toList ++ b.constraint.elim [] Constraint.singles

/-- The numbers of a node, those of its behaviors and its constraint included. -/
def Body.singles (b : Body) : List Single :=
  [b.size.width, b.size.height] ++ b.layoutSingles ++ b.behaviors.flatMap Behavior.singles

def AllFinite (xs : List Single) : Prop := ∀ x ∈ xs, x.isFinite = true

@[simp] theorem allFinite_nil : AllFinite [] := nofun

@[simp] theorem allFinite_cons {x : Single} {xs : List Single} :
    AllFinite (x :: xs) ↔ x.isFinite = true ∧ AllFinite xs := List.forall_mem_cons

theorem allFinite_pair {x y : Single} :
    AllFinite [x, y] ↔ x.isFinite = true ∧ y.isFinite = true := by
  rw [allFinite_cons, allFinite_cons, and_iff_left allFinite_nil]

@[simp] theorem allFinite_append {xs ys : List Single} :
    AllFinite (xs ++ ys) ↔ AllFinite xs ∧ AllFinite ys := List.forall_mem_append

namespace Json

theorem Value.single?_ofSingle (x : Single) :
    single? (ofSingle x) = if x.isFinite then some x else none := by
  unfold ofSingle
  split
  · next h => exact congrArg some (Single.convert_convert h)
  · rfl

theorem Value.single?_ofSingle_iff {x : Single} :
    single? (ofSingle x) = some x ↔ x.isFinite = true := by
  rw [single?_ofSingle]
  split <;> simp_all

/-- The members of an object with some of its fields left out. -/
def present (fields : List (String × Option Value)) : List (String × Value) :=
  fields.filterMap fun p => p.2.map fun v => (p.1, v)

/-- The slot of a field that may be left out. -/
def Slot.ofOption : Option Value → Slot
  | some v => .given v
  | none => .omitted

theorem valuesOf_eq_nil {members : List (String × Value)} {name : String}
    (h : name ∉ members.map Prod.fst) : valuesOf members name = [] := by
  rw [valuesOf, List.map_eq_nil_iff, List.filter_eq_nil_iff]
  exact fun m hm hname => h (of_decide_eq_true hname ▸ List.mem_map_of_mem hm)

theorem valuesOf_present {fields : List (String × Option Value)} {name : String}
    (h : name ∉ fields.map Prod.fst) : valuesOf (present fields) name = [] := by
  refine valuesOf_eq_nil fun hname => h ?_
  obtain ⟨m, hm, rfl⟩ := List.mem_map.1 hname
  obtain ⟨p, hp, hsome⟩ := List.mem_filterMap.1 hm
  obtain ⟨v, -, rfl⟩ := Option.map_eq_some_iff.1 hsome
  exact List.mem_map_of_mem hp

theorem slotIn?_present {fields : List (String × Option Value)}
    (hkeys : (fields.map Prod.fst).Nodup) {name : String} {v? : Option Value}
    (h : (name, v?) ∈ fields) : slotIn? (present fields) name = some (.ofOption v?) := by
  induction fields with
  | nil => cases h
  | cons p rest ih =>
    obtain ⟨key, w?⟩ := p
    rw [List.map_cons, List.nodup_cons] at hkeys
    rcases List.mem_cons.1 h with heq | hrest
    · obtain ⟨rfl, rfl⟩ := Prod.mk.inj heq
      have hnone := valuesOf_present hkeys.1
      cases v? with
      | none =>
        have hsame : present ((name, none) :: rest) = present rest := rfl
        rw [slotIn?, hsame, hnone]
        rfl
      | some v =>
        have hsame : valuesOf (present ((name, some v) :: rest)) name =
            v :: valuesOf (present rest) name := by
          simp [valuesOf, present]
        rw [slotIn?, hsame, hnone]
        rfl
    · have hmem : name ∈ rest.map Prod.fst := List.mem_map_of_mem hrest
      have hne : key ≠ name := fun he => hkeys.1 (he ▸ hmem)
      have hsame : valuesOf (present ((key, w?) :: rest)) name =
          valuesOf (present rest) name := by
        cases w? <;> simp [valuesOf, present, hne]
      rw [slotIn?, hsame]
      exact ih hkeys.2 hrest

theorem slots?_present {fields : List (String × Option Value)} {names : List String}
    (hnames : fields.map Prod.fst = names) (hkeys : names.Nodup) :
    slots? names (.object (present fields)) = some (fields.map fun p => .ofOption p.2) := by
  subst hnames
  rw [slots?, List.mapM_map]
  have hall : ∀ p ∈ fields, (slotIn? (present fields) ∘ Prod.fst) p = some (.ofOption p.2) :=
    fun p hp => slotIn?_present hkeys hp
  generalize slotIn? (present fields) ∘ Prod.fst = slot at hall
  clear hkeys
  induction fields with
  | nil => rfl
  | cons p rest ih =>
    rw [List.forall_mem_cons] at hall
    rw [List.mapM_cons, hall.1, ih hall.2]
    rfl

theorem slots?_object {members : List (String × Value)} {names : List String}
    (hnames : members.map Prod.fst = names) (hkeys : names.Nodup) :
    slots? names (.object members) = some (members.map fun m => .given m.2) := by
  have hpresent : present (members.map fun m => (m.1, some m.2)) = members := by
    simp [present, List.filterMap_map]
  have hslots : slots? names (.object (present (members.map fun m => (m.1, some m.2)))) = _ :=
    slots?_present (by rw [List.map_map]; exact hnames) hkeys
  rw [hpresent, List.map_map] at hslots
  exact hslots

namespace Value

@[simp] theorem text?_text (s : String) : text? (.text s) = some s := rfl

@[simp] theorem bool?_bool (b : Bool) : bool? (.bool b) = some b := rfl

@[simp] theorem byte?_ofNat (n : UInt8) : byte? (.ofNat n.toNat) = some n := by
  have hn := n.toNat_lt
  have hbounds : (0 : Int) ≤ n.toNat ∧ (n.toNat : Int) ≤ 255 := by omega
  rw [byte?, ofNat, integerIn?, if_pos hbounds]
  exact congrArg some UInt8.ofNat_toNat

@[simp] theorem word?_toInt (i : Int32) : word? (.integer i.toInt) = some i := by
  rw [word?, integerIn?, if_pos ⟨i.minValue_le_toInt, i.toInt_le⟩]
  exact congrArg some i.ofInt_toInt

@[simp] theorem option?_text (o : Option String) : option? text? (ofOption text o) = some o := by
  cases o <;> rfl

end Value

end Json

@[simp] theorem SizeMode.nameIn?_name (m : SizeMode) : nameIn? choices (.text m.name) = some m := by
  cases m <;> rfl

@[simp] theorem SpriteKind.nameIn?_name (k : SpriteKind) :
    nameIn? choices (.text k.name) = some k := by
  cases k <;> rfl

@[simp] theorem Axis.nameIn?_name (a : Axis) : nameIn? choices (.text a.name) = some a := by
  cases a <;> rfl

@[simp] theorem HorizontalAlign.nameIn?_name (a : HorizontalAlign) :
    nameIn? choices (.text a.name) = some a := by
  cases a <;> rfl

@[simp] theorem VerticalAlign.nameIn?_name (a : VerticalAlign) :
    nameIn? choices (.text a.name) = some a := by
  cases a <;> rfl

@[simp] theorem Overflow.nameIn?_name (o : Overflow) : nameIn? choices (.text o.name) = some o := by
  cases o <;> rfl

@[simp] theorem ProgressMode.nameIn?_name (m : ProgressMode) :
    nameIn? choices (.text m.name) = some m := by
  cases m <;> rfl

@[simp] theorem Color.decode?_encode (c : Color) : decode? c.encode = some c := by
  cases c
  rw [decode?, encode, slots?_object]
  · simp [Slot.required]
  · rfl
  · decide

theorem Point.decode?_encode {p : Point} :
    decode? p.encode = some p ↔ AllFinite [p.x, p.y] := by
  cases p
  rw [decode?, encode, slots?_object]
  · simp [Slot.required, Option.bind_eq_some_iff, Value.single?_ofSingle_iff]
  · rfl
  · decide

theorem Size.decode?_encode {s : Size} :
    decode? s.encode = some s ↔ AllFinite [s.width, s.height] := by
  cases s
  rw [decode?, encode, slots?_object]
  · simp [Slot.required, Option.bind_eq_some_iff, Value.single?_ofSingle_iff]
  · rfl
  · decide

@[simp] theorem AssetRef.decode?_encode (r : AssetRef) : decode? r.encode = some r := by
  obtain ⟨path, frame⟩ := r
  have hpresent : encode ⟨path, frame⟩ =
      .object (present [("path", some (.text path)), ("frame", frame.map .text)]) := by
    cases frame <;> rfl
  rw [decode?, hpresent, slots?_present]
  · cases frame <;> rfl
  · rfl
  · decide

@[simp] theorem AssetRef.option?_encode (o : Option AssetRef) :
    (Value.ofOption encode o).option? decode? = some o := by
  cases o with
  | none => rfl
  | some r => exact congrArg (Option.map some) r.decode?_encode

@[simp] theorem PrefabRef.decode?_encode (r : PrefabRef) : decode? r.encode = some r := rfl

theorem Fill.decode?_encode {f : Fill} : decode? f.encode = some f ↔ AllFinite f.singles := by
  cases f
  rw [decode?, encode, slots?_object]
  · simp [Slot.required, singles, Option.bind_eq_some_iff, Value.single?_ofSingle_iff]
  · rfl
  · decide

theorem Fill.option?_encode {o : Option Fill} :
    (Value.ofOption encode o).option? decode? = some o ↔ AllFinite (o.elim [] singles) := by
  cases o with
  | none => simp [Value.ofOption, Value.option?]
  | some f =>
    change (decode? f.encode).map some = some (some f) ↔ _
    simp [decode?_encode]

theorem Constraint.decode?_encode {c : Constraint} :
    decode? c.encode = some c ↔ AllFinite c.singles := by
  cases c
  rw [decode?, encode, slots?_object]
  · simp [Slot.required, singles, Option.bind_eq_some_iff, Value.single?_ofSingle_iff]
  · rfl
  · decide

namespace Behavior

theorem decodeSprite?_fields {s : Sprite} :
    decodeSprite? (.object (spriteFields s)) = some s ↔ AllFinite (sprite s).singles := by
  cases s
  rw [decodeSprite?, spriteFields, slots?_object]
  · simp [Slot.required, Slot.optional, Fill.option?_encode, singles, Option.bind_eq_some_iff]
  · rfl
  · decide

theorem decodeLabel?_fields {l : Label} :
    decodeLabel? (.object (labelFields l)) = some l ↔ AllFinite (label l).singles := by
  cases l
  rw [decodeLabel?, labelFields, slots?_object]
  · simp [Slot.required, Slot.optional, singles, Option.bind_eq_some_iff,
      Value.single?_ofSingle_iff]
  · rfl
  · decide

theorem decodeScrollBar?_fields (b : ScrollBar) :
    decodeScrollBar? (.object (scrollBarFields b)) = some b := by
  cases b
  rw [decodeScrollBar?, scrollBarFields, slots?_object]
  · simp [Slot.required, Slot.optional]
  · rfl
  · decide

theorem decodeScrollView?_fields (v : ScrollView) :
    decodeScrollView? (.object (scrollViewFields v)) = some v := by
  cases v
  rw [decodeScrollView?, scrollViewFields, slots?_object]
  · simp [Slot.required, Slot.optional]
  · rfl
  · decide

theorem decodeMask?_fields (m : Mask) : decodeMask? (.object (maskFields m)) = some m := rfl

theorem decodeProgressBar?_fields {b : ProgressBar} :
    decodeProgressBar? (.object (progressBarFields b)) = some b ↔
      AllFinite (progressBar b).singles := by
  cases b
  rw [decodeProgressBar?, progressBarFields, slots?_object]
  · simp [Slot.required, Slot.optional, singles, Option.bind_eq_some_iff,
      Value.single?_ofSingle_iff]
  · rfl
  · decide

theorem decodeEditBox?_fields {e : EditBox} :
    decodeEditBox? (.object (editBoxFields e)) = some e ↔ AllFinite (editBox e).singles := by
  cases e
  rw [decodeEditBox?, editBoxFields, slots?_object]
  · simp [Slot.required, Slot.optional, singles, Option.bind_eq_some_iff,
      Value.single?_ofSingle_iff]
  · rfl
  · decide

/-- The record of a behavior is decoded by the name of its kind. -/
theorem decodeAs?_fields {b : Behavior} :
    decodeAs? b.kind.name (.object b.fields) = some b ↔ AllFinite b.singles := by
  cases b with
  | sprite s =>
    change (decodeSprite? (.object (spriteFields s))).map sprite = _ ↔ _
    simp [decodeSprite?_fields]
  | label l =>
    change (decodeLabel? (.object (labelFields l))).map label = _ ↔ _
    simp [decodeLabel?_fields]
  | scrollBar b =>
    change (decodeScrollBar? (.object (scrollBarFields b))).map scrollBar = _ ↔ _
    simp [decodeScrollBar?_fields, singles]
  | scrollView v =>
    change (decodeScrollView? (.object (scrollViewFields v))).map scrollView = _ ↔ _
    simp [decodeScrollView?_fields, singles]
  | mask m =>
    change (decodeMask? (.object (maskFields m))).map mask = _ ↔ _
    simp [decodeMask?_fields, singles]
  | progressBar b =>
    change (decodeProgressBar? (.object (progressBarFields b))).map progressBar = _ ↔ _
    simp [decodeProgressBar?_fields]
  | editBox e =>
    change (decodeEditBox? (.object (editBoxFields e))).map editBox = _ ↔ _
    simp [decodeEditBox?_fields]

theorem type_not_mem_fields (b : Behavior) : "type" ∉ b.fields.map Prod.fst := by
  cases b <;> simp [fields, spriteFields, labelFields, scrollBarFields, scrollViewFields,
    maskFields, progressBarFields, editBoxFields]

theorem tagged?_encode (b : Behavior) :
    tagged? b.encode = some (b.kind.name, .object b.fields) := by
  have htype := b.type_not_mem_fields
  have hone : valuesOf (("type", .text b.kind.name) :: b.fields) "type" = [.text b.kind.name] := by
    change Value.text b.kind.name :: valuesOf b.fields "type" = _
    rw [valuesOf_eq_nil htype]
  have hrest : (("type", Value.text b.kind.name) :: b.fields).filter (fun m => m.1 ≠ "type") =
      b.fields := by
    rw [List.filter_cons_of_neg (by simp), List.filter_eq_self]
    exact fun m hm => decide_eq_true fun he => htype (he ▸ List.mem_map_of_mem hm)
  rw [encode, tagged?, hone]
  dsimp only
  rw [hrest]

theorem isSound_ofSingle (x : Single) : (Value.ofSingle x).isSound = true := by
  unfold Value.ofSingle
  split <;> rfl

theorem isSound_ofOption {α : Type} {f : α → Value} (h : ∀ a, (f a).isSound = true)
    (o : Option α) : (Value.ofOption f o).isSound = true := by
  cases o with
  | none => rfl
  | some a => exact h a

theorem isSound_encode (b : Behavior) : b.encode.isSound = true := by
  have hasset : ∀ r : AssetRef, r.encode.isSound = true := by
    rintro ⟨path, frame⟩
    cases frame <;> rfl
  have hfill : ∀ f : Fill, f.encode.isSound = true := by
    intro f
    simp [Fill.encode, Value.isSound, Value.soundMembers, isSound_ofSingle]
  have htext : ∀ o : Option String, (Value.ofOption .text o).isSound = true :=
    isSound_ofOption fun _ => rfl
  cases b <;>
    simp [encode, fields, spriteFields, labelFields, scrollBarFields, scrollViewFields, maskFields,
      progressBarFields, editBoxFields, Value.isSound, Value.soundMembers, isSound_ofSingle,
      isSound_ofOption, hasset, hfill, htext, Color.encode, Value.ofNat]

theorem decode?_encode {b : Behavior} : decode? b.encode = some b ↔ AllFinite b.singles := by
  rw [decode?, if_pos b.isSound_encode, b.tagged?_encode]
  exact decodeAs?_fields

end Behavior

theorem mapM_map_eq_some_iff {α : Type} {f : α → Value} {d : Decoder α} {as : List α} :
    (as.map f).mapM d = some as ↔ ∀ a ∈ as, d (f a) = some a := by
  induction as with
  | nil => simp
  | cons a rest ih =>
    rw [List.map_cons, List.mapM_cons, List.forall_mem_cons, ← ih]
    simp [Option.bind_eq_some_iff]

theorem Behavior.list?_encode {bs : List Behavior} :
    Value.list? decode? (.array (bs.map encode)) = some bs ↔ AllFinite (bs.flatMap singles) := by
  rw [Value.list?, mapM_map_eq_some_iff]
  simp only [decode?_encode, AllFinite, List.mem_flatMap]
  exact ⟨fun h x ⟨b, hb, hx⟩ => h b hb x hx, fun h b hb x hx => h x ⟨b, hb, hx⟩⟩

namespace Json.Slot

theorem optionalOrDefault_text {o : Option String} :
    (ofOption (o.map .text)).optionalOrDefault Value.text? = some o := by
  cases o <;> rfl

theorem optionalOrDefault_single {o : Option Single} :
    (ofOption (o.map .ofSingle)).optionalOrDefault Value.single? = some o ↔
      AllFinite o.toList := by
  cases o with
  | none => simp [ofOption, optionalOrDefault, withDefault]
  | some x =>
    change Value.option? Value.single? (.ofSingle x) = some (some x) ↔ AllFinite [x]
    rw [allFinite_cons, and_iff_left allFinite_nil, ← Value.single?_ofSingle_iff]
    unfold Value.ofSingle
    split
    · change (Value.single? (.real x.convert)).map some = _ ↔ _
      simp
    · constructor <;> (intro h; cases h)

end Json.Slot

theorem PrefabRef.optionalOrDefault_encode {o : Option PrefabRef} :
    (Slot.ofOption (o.map encode)).optionalOrDefault decode? = some o := by
  cases o <;> rfl

theorem Constraint.optionalOrDefault_encode {o : Option Constraint} :
    (Slot.ofOption (o.map encode)).optionalOrDefault decode? = some o ↔
      AllFinite (o.elim [] singles) := by
  cases o with
  | none => simp [Slot.ofOption, Slot.optionalOrDefault, Slot.withDefault]
  | some c =>
    change (decode? c.encode).map some = some (some c) ↔ _
    simp [decode?_encode]

namespace Node

theorem slots?_encode (n : Node) :
    slots? fieldNames n.encode = some
      [.given (.text n.name), .ofOption (n.widget.map .text), .given n.size.encode,
        .given n.anchor.encode, .given n.position.encode, .given (.ofSingle n.rotation),
        .given (.ofSingle n.scaleX), .given (.ofSingle n.scaleY), .given (.ofNat n.opacity.toNat),
        .given (.bool n.active), .ofOption (n.widthPercent.map .ofSingle),
        .ofOption (n.heightPercent.map .ofSingle), .ofOption (n.skin.map PrefabRef.encode),
        .ofOption (n.constraint.map Constraint.encode),
        .given (.array (n.behaviors.map Behavior.encode)),
        .given (.array (encodeAll n.children))] := by
  have hpresent : n.encode = .object (present
      [("name", some (.text n.name)), ("widget", n.widget.map .text), ("size", some n.size.encode),
        ("anchor", some n.anchor.encode), ("position", some n.position.encode),
        ("rotation", some (.ofSingle n.rotation)), ("scale_x", some (.ofSingle n.scaleX)),
        ("scale_y", some (.ofSingle n.scaleY)), ("opacity", some (.ofNat n.opacity.toNat)),
        ("active", some (.bool n.active)), ("width_percent", n.widthPercent.map .ofSingle),
        ("height_percent", n.heightPercent.map .ofSingle), ("skin", n.skin.map PrefabRef.encode),
        ("constraint", n.constraint.map Constraint.encode),
        ("behaviors", some (.array (n.behaviors.map Behavior.encode))),
        ("children", some (.array (encodeAll n.children)))]) := by
    obtain ⟨⟨_, widget, _, _, _, _, _, _, _, _, widthPercent, heightPercent, skin, constraint, _⟩,
      _⟩ := n
    cases widget <;> cases widthPercent <;> cases heightPercent <;> cases skin <;>
      cases constraint <;> rfl
  rw [hpresent, slots?_present]
  · rfl
  · rfl
  · decide

theorem decodeBody?_encode {n : Node} {slots : List Slot}
    (h : slots? fieldNames n.encode = some slots) :
    decodeBody? slots = some n.toBody ↔ AllFinite n.toBody.singles := by
  rw [slots?_encode] at h
  obtain rfl := Option.some.inj h
  clear h
  obtain ⟨⟨_, _, _, _, _, _, _, _, _, _, _, _, _, _, _⟩, _⟩ := n
  simp [decodeBody?, Slot.required, Slot.withDefault, Slot.optionalOrDefault_text,
    Slot.optionalOrDefault_single, PrefabRef.optionalOrDefault_encode,
    Constraint.optionalOrDefault_encode, Behavior.list?_encode, Size.decode?_encode,
    Point.decode?_encode, Value.single?_ofSingle_iff, Option.bind_eq_some_iff, Body.singles,
    Body.layoutSingles, and_assoc]

/-- A node is decoded from its own fields and from its children. -/
theorem decode?_eq {v : Value} {slots : List Slot} {items : List Value}
    (h : slots? fieldNames v = some slots) (hlast : slots.getLast? = some (.given (.array items))) :
    decode? v = do
      let body ← decodeBody? slots
      let children ← items.mapM decode?
      return ⟨body, children⟩ := by
  rw [decode?]
  split
  · next hnone => cases h.symm.trans hnone
  · next slots' hslots =>
    cases h.symm.trans hslots
    split
    · next items' hitems =>
      cases hlast.symm.trans hitems
      rw [List.mapM_subtype fun _ _ => rfl, List.unattach_attach]
    · next v hne hv =>
      cases hlast.symm.trans hv
      exact absurd rfl (hne items)
    · next hne _ => exact absurd hlast (hne items)

theorem every_iff {p : Node → Prop} {n : Node} :
    n.Every p ↔ p n ∧ ∀ c ∈ n.children, c.Every p :=
  ⟨fun h => ⟨h.root, h.children⟩, fun h => .node h.1 h.2⟩

mutual

theorem decode?_encode (n : Node) :
    decode? n.encode = some n ↔ n.Every fun m => AllFinite m.toBody.singles := by
  obtain ⟨body, children⟩ := n
  have hslots := slots?_encode ⟨body, children⟩
  rw [decode?_eq hslots rfl, every_iff, ← decodeBody?_encode hslots,
    ← decodeAll?_encodeAll children]
  simp [Option.bind_eq_some_iff]

theorem decodeAll?_encodeAll (ns : List Node) :
    (encodeAll ns).mapM decode? = some ns ↔
      ∀ n ∈ ns, n.Every fun m => AllFinite m.toBody.singles := by
  cases ns with
  | nil => simp [encodeAll]
  | cons n rest =>
    rw [encodeAll, List.mapM_cons, List.forall_mem_cons, ← decode?_encode n,
      ← decodeAll?_encodeAll rest]
    simp [Option.bind_eq_some_iff]

end

end Node

theorem Prefab.decode?_encode (p : Prefab) :
    decode? p.encode = (Node.decode? p.root.encode).map fun root => { p with root } := by
  obtain ⟨source, outputPath, url, root⟩ := p
  rw [decode?, encode, slots?_object]
  · simp [Slot.required, Option.map_eq_bind]
  · rfl
  · decide

theorem Prefab.decode?_eq_some_iff (p : Prefab) :
    decode? p.encode = some p ↔ Node.decode? p.root.encode = some p.root := by
  rw [decode?_encode, Option.map_eq_some_iff]
  constructor
  · rintro ⟨root, hroot, heq⟩
    rw [hroot, ← congrArg Prefab.root heq]
  · exact fun hroot => ⟨p.root, hroot, rfl⟩

/-- A prefab is read back from its encoding exactly when every number in it is finite: those of all
nodes at any depth, with their constraints and behaviors. -/
theorem Prefab.read_back_iff (p : Prefab) :
    decode? p.encode = some p ↔
      p.root.Every fun n => ∀ x ∈ n.toBody.singles, x.isFinite = true := by
  rw [decode?_eq_some_iff, Node.decode?_encode]
  rfl

end MarkupScene
