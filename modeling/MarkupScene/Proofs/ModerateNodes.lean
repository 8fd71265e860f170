import MarkupScene.Proofs.Magnitudes
import MarkupScene.Proofs.RoundTrips

/-!
# Moderate nodes

Numbers of attributes are taken as they are, however great, and a number that passes the greatest
single is infinite. Moderate numbers leave room for the sums that layout and labels take of them,
and shares of at most one keep the sizes of children within those of their parents. The main
statement is that a node that is laid out for a moderate element in a moderate parent has finite
numbers only and is a moderate parent again.
-/
namespace MarkupScene

open Numeric Floating

/-- The power of two that moderate numbers do not exceed. It is less than the greatest power of the
singles by two, for sums of two sums. -/
def moderatePower : Nat := 125

def Length.isModerate : Length → Bool
  | points x => x.within moderatePower
  | percent fraction => fraction.within 0

def Size.isModerate (s : Size) : Bool :=
  s.width.within moderatePower && s.height.within moderatePower

namespace Element

/-- The attributes that are stored as numbers or enter into such, lengths apart. -/
def numberNames : List String :=
  ["x", "y", "anchorOffsetX", "anchorOffsetY", "scaleX", "scaleY", "rotation", "left", "right",
    "top", "bottom", "size", "lineSpacing", "value", "maximum"]

/-- The length in the first of several attributes that is filled in. -/
def length? (e : Element) (names : List String) : Option Length :=
  (e.firstFilled? names).bind Length.parse?

/-- Whether the numbers of an element are moderate and its shares at most one. -/
def isModerate (e : Element) : Bool :=
  (e.length? widthNames).all Length.isModerate && (e.length? heightNames).all Length.isModerate &&
    numberNames.all fun name => (e.single? name).all (within moderatePower)

mutual

/-- Whether a test holds of an element and of all elements in it. -/
def every (p : Element → Bool) : Element → Bool
  | ⟨before, name, namespaces, attributes, children⟩ =>
    p ⟨before, name, namespaces, attributes, children⟩ && everyOf p children

def everyOf (p : Element → Bool) : List Element → Bool
  | [] => true
  | c :: rest => every p c && everyOf p rest

end

variable {p : Element → Bool} {e : Element}

theorem everyOf_iff {es : List Element} :
    everyOf p es = true ↔ ∀ e ∈ es, e.every p = true := by
  induction es with
  | nil => simp [everyOf]
  | cons e rest ih => simp [everyOf, ih]

theorem every_iff : e.every p = true ↔ p e = true ∧ ∀ c ∈ e.children, c.every p = true := by
  cases e
  rw [every, Bool.and_eq_true, everyOf_iff]

theorem every_candidates (h : e.every p = true) : ∀ k ∈ e.candidates, k.every p = true := by
  have hchildren := (every_iff.1 h).2
  unfold candidates inlineSkin?
  cases hblock : e.child? "skinName" with
  | none => exact hchildren
  | some block =>
    have hskins := (every_iff.1 (hchildren block (List.mem_of_find?_eq_some hblock))).2
    intro k hk
    rw [Option.map_some, Option.getD_some] at hk
    split at hk
    · cases hk
    · next skin rest heq =>
      exact (every_iff.1 (hskins skin (heq ▸ List.mem_cons_self))).2 k hk

variable (he : e.isModerate = true)
include he

theorem single?_within {name : String} (hname : name ∈ numberNames) {x : Single}
    (hx : e.single? name = some x) : x.within moderatePower = true := by
  rw [isModerate, Bool.and_eq_true, List.all_eq_true] at he
  simpa [hx] using he.2 name hname

theorem singleOr_within {name : String} (hname : name ∈ numberNames) {default : Single}
    (hdefault : default.within moderatePower = true) :
    (e.singleOr name default).within moderatePower = true := by
  unfold singleOr
  cases hx : e.single? name with
  | none => exact hdefault
  | some x => exact single?_within he hname hx

end Element

theorem zero_within (a : Nat) : (0 : Single).within a = true :=
  within_iff.2 ⟨false, 0, by decide +kernel, Nat.zero_le _⟩

theorem one_within (a : Nat) : (1 : Single).within a = true :=
  within_mono (Nat.zero_le a) (by decide +kernel)

theorem zero_isFinite : (0 : Single).isFinite = true := isFinite_of_within (zero_within 0)

theorem one_isFinite : (1 : Single).isFinite = true := isFinite_of_within (one_within 0)

/-- What a placement takes from a moderate element. -/
structure Placement.Moderate (p : Placement) : Prop where
  width : p.width.all Length.isModerate = true
  height : p.height.all Length.isModerate = true
  numbers : ∀ x ∈ [p.x, p.y, p.anchorOffsetX, p.anchorOffsetY, p.scaleX, p.scaleY, p.rotation],
    x.within moderatePower = true
  edges : ∀ edge ∈ [p.left, p.right, p.top, p.bottom], ∀ x, edge = some x →
    x.within moderatePower = true

theorem Placement.ofElement_moderate {e : Element} (he : e.isModerate = true) :
    (Placement.ofElement e).Moderate := by
  have hlengths := he
  rw [Element.isModerate, Bool.and_eq_true, Bool.and_eq_true] at hlengths
  have hnumber : ∀ name ∈ Element.numberNames,
      (e.singleOr name 0).within moderatePower = true ∧
        (e.singleOr name 1).within moderatePower = true := fun name hname =>
    ⟨e.singleOr_within he hname (zero_within _), e.singleOr_within he hname (one_within _)⟩
  refine ⟨hlengths.1.1, hlengths.1.2, ?_, ?_⟩
  · simp only [Element.numberNames, List.forall_mem_cons] at hnumber
    simp only [ofElement, List.forall_mem_cons]
    grind
  · have hedge : ∀ name ∈ Element.numberNames, ∀ x, e.single? name = some x →
        x.within moderatePower = true := fun name hname x => e.single?_within he hname
    simp only [Element.numberNames, List.forall_mem_cons] at hedge
    simp only [ofElement, List.forall_mem_cons]
    grind

theorem dimension_within {declared : Option Length} {parent own : Single} (inherits : Bool)
    (hdeclared : declared.all Length.isModerate = true)
    (hparent : parent.within moderatePower = true) (hown : own.within moderatePower = true) :
    (dimension declared parent inherits own).within moderatePower = true := by
  cases declared with
  | none =>
    unfold dimension
    cases inherits with
    | true => exact hown
    | false => exact zero_within _
  | some length =>
    cases length with
    | points x => exact hdeclared
    | percent fraction =>
      have hproduct := mul_within (by decide) hdeclared hparent
      rwa [Nat.zero_add] at hproduct

/-- What is known of an axis when the placement and the parent are moderate. -/
structure AxisInput.Moderate (i : AxisInput) : Prop where
  fraction {f : Single} : i.fraction = some f → f.within 0 = true
  parent {x : Single} : i.parent = some x → x.within moderatePower = true
  start {x : Single} : i.start = some x → x.within moderatePower = true
  finish {x : Single} : i.finish = some x → x.within moderatePower = true

namespace AxisRule

theorem remaining_within {parent fraction : Single} (hparent : parent.within moderatePower = true)
    (hfraction : fraction.within 0 = true) :
    (parent * (1 - fraction)).within (moderatePower + 1) = true :=
  mul_within (by decide) hparent (sub_within (by decide) (one_within 0) hfraction)

theorem share_isFinite {remaining : Single} {start finish : Option Single}
    (hremaining : remaining.within (moderatePower + 1) = true)
    (hstart : ∀ x, start = some x → x.within moderatePower = true)
    (hfinish : ∀ x, finish = some x → x.within moderatePower = true) :
    AllFinite [(share remaining start finish).1, (share remaining start finish).2] := by
  have hrest : ∀ x : Single, x.within moderatePower = true → (remaining - x).isFinite = true :=
    fun x hx => isFinite_of_within
      (sub_within (by decide) hremaining (within_mono (Nat.le_succ _) hx))
  have hhalf : (remaining / 2).isFinite = true :=
    isFinite_of_within (half_within (by decide) hremaining)
  rw [allFinite_pair]
  cases start with
  | some s =>
    have hs := hstart s rfl
    cases finish with
    | some e => exact ⟨isFinite_of_within hs, isFinite_of_within (hfinish e rfl)⟩
    | none => exact ⟨isFinite_of_within hs, hrest s hs⟩
  | none =>
    cases finish with
    | some e => exact ⟨hrest e (hfinish e rfl), isFinite_of_within (hfinish e rfl)⟩
    | none => exact ⟨hhalf, hhalf⟩

theorem ofEdges_isFinite {start finish : Option Single} (center : Option Single)
    (hstart : ∀ x, start = some x → x.within moderatePower = true)
    (hfinish : ∀ x, finish = some x → x.within moderatePower = true) :
    AllFinite [(ofEdges start finish center).start, (ofEdges start finish center).finish] := by
  have hgetD : ∀ edge : Option Single, (∀ x, edge = some x → x.within moderatePower = true) →
      (edge.getD 0).isFinite = true := by
    intro edge hedge
    cases edge with
    | none => exact zero_isFinite
    | some x => exact isFinite_of_within (hedge x rfl)
  unfold ofEdges
  split
  · exact allFinite_pair.2 ⟨zero_isFinite, zero_isFinite⟩
  · exact allFinite_pair.2 ⟨hgetD start hstart, hgetD finish hfinish⟩

theorem ofInput_isFinite {i : AxisInput} (hi : i.Moderate) :
    AllFinite [(ofInput i).start, (ofInput i).finish] := by
  unfold ofInput
  split
  · next f x hfraction hparent =>
    exact share_isFinite (remaining_within (hi.parent hparent) (hi.fraction hfraction))
      (fun _ => hi.start) fun _ => hi.finish
  · exact ofEdges_isFinite i.center (fun _ => hi.start) fun _ => hi.finish

end AxisRule

namespace Placement
variable {p : Placement} {parent : Option Size}

theorem fraction_within {declared : Option Length} (h : declared.all Length.isModerate = true)
    {f : Single} (hf : declared.bind Length.fraction? = some f) : f.within 0 = true := by
  obtain ⟨length, rfl, hlength⟩ := Option.bind_eq_some_iff.1 hf
  cases length with
  | points x => cases hlength
  | percent g =>
    obtain rfl := Option.some.inj hlength
    exact h

theorem sides_within (hparent : parent.all Size.isModerate = true) {s : Size}
    (hs : parent = some s) :
    s.width.within moderatePower = true ∧ s.height.within moderatePower = true := by
  subst hs
  exact Bool.and_eq_true_iff.1 hparent

theorem Moderate.horizontal (hp : p.Moderate) (hparent : parent.all Size.isModerate = true) :
    (p.horizontal parent).Moderate where
  fraction hf := fraction_within hp.width hf
  parent hx := by
    obtain ⟨s, hs, rfl⟩ := Option.map_eq_some_iff.1 hx
    exact (sides_within hparent hs).1
  start hx := hp.edges p.left (by simp) _ hx
  finish hx := hp.edges p.right (by simp) _ hx

theorem Moderate.vertical (hp : p.Moderate) (hparent : parent.all Size.isModerate = true) :
    (p.vertical parent).Moderate where
  fraction hf := fraction_within hp.height hf
  parent hx := by
    obtain ⟨s, hs, rfl⟩ := Option.map_eq_some_iff.1 hx
    exact (sides_within hparent hs).2
  start hx := hp.edges p.top (by simp) _ hx
  finish hx := hp.edges p.bottom (by simp) _ hx

theorem Moderate.constraint (hp : p.Moderate) (hparent : parent.all Size.isModerate = true) :
    AllFinite ((p.constraint? parent).elim [] Constraint.singles) := by
  unfold constraint?
  split
  · have hhorizontal := AxisRule.ofInput_isFinite (hp.horizontal hparent)
    have hvertical := AxisRule.ofInput_isFinite (hp.vertical hparent)
    exact allFinite_append.2 ⟨hhorizontal, hvertical⟩
  · exact allFinite_nil

end Placement

/-- A behavior with finite numbers. The size of a label is moderate, since its line height may be
measured again. -/
structure Behavior.Moderate (b : Behavior) : Prop where
  finite : AllFinite b.singles
  fontSize {l : Label} : b = .label l → l.fontSize.within moderatePower = true

theorem Behavior.Moderate.of_finite {b : Behavior} (hlabel : b.label? = none)
    (hfinite : AllFinite b.singles) : b.Moderate :=
  ⟨hfinite, fun h => by subst h; cases hlabel⟩

/-- A node with finite numbers and a moderate size. -/
structure Body.Moderate (b : Body) : Prop where
  size : b.size.isModerate = true
  layout : AllFinite b.layoutSingles
  behaviors : ∀ a ∈ b.behaviors, a.Moderate

/-- A tree of nodes with finite numbers and moderate sizes. -/
abbrev Node.Moderate (n : Node) : Prop := n.Every fun m => m.toBody.Moderate

theorem Size.isModerate_iff {s : Size} : s.isModerate = true ↔
    s.width.within moderatePower = true ∧ s.height.within moderatePower = true :=
  Bool.and_eq_true_iff

theorem Size.isModerate_zero : (({} : Size)).isModerate = true := by decide +kernel

theorem Body.Moderate.allFinite {b : Body} (hb : b.Moderate) : AllFinite b.singles := by
  obtain ⟨hwidth, hheight⟩ := Size.isModerate_iff.1 hb.size
  have hsize : AllFinite [b.size.width, b.size.height] :=
    allFinite_pair.2 ⟨isFinite_of_within hwidth, isFinite_of_within hheight⟩
  refine allFinite_append.2 ⟨allFinite_append.2 ⟨hsize, hb.layout⟩, fun x hx => ?_⟩
  obtain ⟨a, ha, hx⟩ := List.mem_flatMap.1 hx
  exact (hb.behaviors a ha).finite x hx

section
variable {p : Placement} {parent : Option Size} {n : Node}

theorem Size.getD_isModerate (hparent : parent.all Size.isModerate = true) :
    (parent.getD {}).isModerate = true := by
  cases parent with
  | none => exact Size.isModerate_zero
  | some s => exact hparent

theorem Node.size_arrange_isModerate (axis : YAxis) (hp : p.Moderate)
    (hparent : parent.all Size.isModerate = true) (hn : n.size.isModerate = true) :
    (n.arrange axis p parent).size.isModerate = true := by
  obtain ⟨houterWidth, houterHeight⟩ := Size.isModerate_iff.1 (Size.getD_isModerate hparent)
  obtain ⟨hwidth, hheight⟩ := Size.isModerate_iff.1 hn
  exact Size.isModerate_iff.2 ⟨dimension_within _ hp.width houterWidth hwidth,
    dimension_within _ hp.height houterHeight hheight⟩

theorem YAxis.place_isFinite (axis : YAxis) {parentHeight y offset : Single}
    (hheight : parentHeight.within moderatePower = true) (hy : y.within moderatePower = true)
    (hoffset : offset.within moderatePower = true) :
    (axis.place parentHeight y offset).isFinite = true := by
  cases axis with
  | anchorOffset => exact isFinite_of_within (sub_within (by decide) hoffset hy)
  | parentFlip =>
    have hflipped := sub_within (by decide) hheight hy
    exact isFinite_of_within (add_within (by decide) hflipped (within_mono (Nat.le_succ _) hoffset))

/-- Layout gives a node moderate numbers; the behaviors are those that it has. -/
theorem Node.arrange_moderate (axis : YAxis) (hp : p.Moderate)
    (hparent : parent.all Size.isModerate = true) (hn : n.toBody.Moderate) :
    (n.arrange axis p parent).toBody.Moderate := by
  refine ⟨size_arrange_isModerate axis hp hparent hn.size, ?_, hn.behaviors⟩
  have hnumbers := hp.numbers
  simp only [List.forall_mem_cons] at hnumbers
  obtain ⟨hx, hy, hanchorX, hanchorY, hscaleX, hscaleY, hrotation, -⟩ := hnumbers
  have houter := (Size.isModerate_iff.1 (Size.getD_isModerate hparent)).2
  have hpositionX : (p.x - p.anchorOffsetX).isFinite = true :=
    isFinite_of_within (sub_within (by decide) hx hanchorX)
  have hpositionY := axis.place_isFinite houter hy hanchorY
  have hfractions : ∀ {declared : Option Length}, declared.all Length.isModerate = true →
      AllFinite (declared.bind Length.fraction?).toList := by
    intro declared hdeclared f hf
    exact isFinite_of_within (Placement.fraction_within hdeclared (Option.mem_toList.1 hf))
  refine allFinite_append.2 ⟨allFinite_append.2 ⟨allFinite_append.2 ⟨?_, hfractions hp.width⟩,
    hfractions hp.height⟩, hp.constraint hparent⟩
  simp only [allFinite_cons, allFinite_nil, and_true]
  exact ⟨zero_isFinite, one_isFinite, hpositionX, hpositionY, isFinite_of_within hrotation,
    isFinite_of_within hscaleX, isFinite_of_within hscaleY⟩

end

end MarkupScene
