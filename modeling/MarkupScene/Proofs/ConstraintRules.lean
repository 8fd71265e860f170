import MarkupScene.Proofs.ExactArithmetic
import MarkupScene.Proofs.ImportedBodies

/-!
# Constraint rules

The rule of an axis is of one of three kinds, by precedence: the edges of a share of the parent,
the center, the edges as they are given. The distances that a share leaves are the same expressions
in single precision and in fractions. As fractions they add up with the share to the side of the
parent, and so do the numbers themselves when no step is rounded. The main statement is what the
constraint of a placement is.
-/
namespace MarkupScene

open Numeric Floating

section

variable {α : Type} [OfNat α 1] [OfNat α 2] [Sub α] [Mul α] [Div α]

/-- The distances from both edges of something that takes a share of an outer side, with numbers of
any kind. -/
def sharedEdges (outer share : α) (start finish : Option α) : α × α :=
  let remaining := outer * (1 - share)
  match start, finish with
  | some s, some e => (s, e)
  | some s, none => (s, remaining - s)
  | none, some e => (remaining - e, e)
  | none, none => (remaining / 2, remaining / 2)

theorem sharedEdges_start (outer share s : α) (finish : Option α) :
    (sharedEdges outer share (some s) finish).1 = s := by
  cases finish <;> rfl

theorem sharedEdges_finish (outer share e : α) (start : Option α) :
    (sharedEdges outer share start (some e)).2 = e := by
  cases start <;> rfl

end

theorem AxisRule.share_eq (outer share : Single) (start finish : Option Single) :
    AxisRule.share (outer * (1 - share)) start finish = sharedEdges outer share start finish := by
  cases start <;> cases finish <;> rfl

theorem sharedEdges_sum {α : Type} [Field α] [NeZero (2 : α)] (outer share : α)
    {start finish : Option α} (hmissing : start = none ∨ finish = none) :
    (sharedEdges outer share start finish).1 + (sharedEdges outer share start finish).2 +
      share * outer = outer := by
  cases start with
  | none =>
    cases finish with
    | none =>
      simp only [sharedEdges, add_halves]
      ring
    | some e =>
      simp only [sharedEdges]
      ring
  | some s =>
    obtain rfl : finish = none := hmissing.resolve_left nofun
    simp only [sharedEdges]
    ring

/-- An edge that is given is pinned at its distance. -/
inductive AxisRule.Edge : Option Single → Bool → Single → Prop
  | given (distance : Single) : Edge (some distance) true distance
  | missing : Edge none false 0

/-- The share of the parent is known. -/
def AxisInput.Shared (i : AxisInput) : Prop := i.fraction.isSome = true ∧ i.parent.isSome = true

def AxisInput.Centered (i : AxisInput) : Prop := ∃ c, i.center = some c ∧ c.same 0 = true

/-- What becomes of one axis. -/
inductive AxisRule.Follows (i : AxisInput) : AxisRule → Prop
  | shared {fraction parent start finish : Single} (hfraction : i.fraction = some fraction)
      (hparent : i.parent = some parent)
      (hedges : sharedEdges parent fraction i.start i.finish = (start, finish)) :
      Follows i { alignStart := true, alignEnd := true, start, finish }
  | centered (hshared : ¬i.Shared) (hcenter : i.Centered) : Follows i { center := true }
  | pinned {alignStart alignEnd : Bool} {start finish : Single} (hshared : ¬i.Shared)
      (hcenter : ¬i.Centered) (hstart : Edge i.start alignStart start)
      (hfinish : Edge i.finish alignEnd finish) :
      Follows i { alignStart, alignEnd, start, finish }

namespace AxisRule

variable {i : AxisInput} {r : AxisRule}

theorem edge_iff {edge : Option Single} {aligned : Bool} {distance : Single} :
    Edge edge aligned distance ↔ aligned = edge.isSome ∧ distance = edge.getD 0 := by
  constructor
  · intro h
    cases h with
    | given => exact ⟨rfl, rfl⟩
    | missing => exact ⟨rfl, rfl⟩
  · rintro ⟨rfl, rfl⟩
    cases edge with
    | none => exact .missing
    | some distance => exact .given distance

theorem centered_iff : i.Centered ↔ (i.center.any fun c => c.same 0) = true := by
  rw [Option.any_eq_true, AxisInput.Centered]

theorem ofInput_of_not_shared (h : ¬i.Shared) : ofInput i = ofEdges i.start i.finish i.center := by
  unfold ofInput
  split
  · next hfraction hparent =>
    exact absurd ⟨by rw [hfraction]; rfl, by rw [hparent]; rfl⟩ h
  · rfl

/-- The rules are told by the three kinds. -/
theorem follows_iff : Follows i r ↔ r = ofInput i := by
  constructor
  · intro h
    cases h with
    | shared hfraction hparent hedges =>
      rw [ofInput, hfraction, hparent]
      simp only [share_eq, hedges]
    | centered hshared hcenter =>
      rw [ofInput_of_not_shared hshared, ofEdges, if_pos (centered_iff.1 hcenter)]
    | pinned hshared hcenter hstart hfinish =>
      obtain ⟨rfl, rfl⟩ := edge_iff.1 hstart
      obtain ⟨rfl, rfl⟩ := edge_iff.1 hfinish
      rw [ofInput_of_not_shared hshared, ofEdges, if_neg (mt centered_iff.2 hcenter)]
  · rintro rfl
    by_cases hshared : i.Shared
    · obtain ⟨fraction, hfraction⟩ := Option.isSome_iff_exists.1 hshared.1
      obtain ⟨parent, hparent⟩ := Option.isSome_iff_exists.1 hshared.2
      rw [ofInput, hfraction, hparent]
      simp only [share_eq]
      exact .shared hfraction hparent rfl
    · rw [ofInput_of_not_shared hshared, ofEdges]
      split
      · next hcenter => exact .centered hshared (centered_iff.2 hcenter)
      · next hcenter =>
        exact .pinned hshared (mt centered_iff.1 hcenter) (edge_iff.2 ⟨rfl, rfl⟩)
          (edge_iff.2 ⟨rfl, rfl⟩)

end AxisRule

/-- The distances of a share in exact arithmetic. -/
def exactEdges (outer share : Single) (start finish : Option Single) : ℚ × ℚ :=
  sharedEdges outer.value share.value (start.map value) (finish.map value)

/-- All numbers are finite and no step of the calculation is rounded. -/
structure Unrounded (outer share : Single) (start finish : Option Single) : Prop where
  known : outer.isFinite = true ∧ share.isFinite = true
  given : ∀ edge ∈ [start, finish], ∀ x, edge = some x → x.isFinite = true
  rest : Representable .single (1 - share.value)
  remaining : Representable .single (outer.value * (1 - share.value))
  edges : Representable .single (exactEdges outer share start finish).1 ∧
    Representable .single (exactEdges outer share start finish).2
  side : Representable .single (share.value * outer.value)

theorem Unrounded.edges_eq {outer share : Single} {start finish : Option Single}
    (h : Unrounded outer share start finish) :
    (sharedEdges outer share start finish).1.value? =
        some (exactEdges outer share start finish).1 ∧
      (sharedEdges outer share start finish).2.value? =
        some (exactEdges outer share start finish).2 := by
  obtain ⟨⟨houter, hshare⟩, hgiven, hrest, hremaining, hedges, -⟩ := h
  have hstart : ∀ s, start = some s → s.isFinite = true := hgiven start (by simp)
  have hfinish : ∀ e, finish = some e → e.isFinite = true := hgiven finish (by simp)
  have hleft : (outer * (1 - share)).value? = some (outer.value * (1 - share.value)) :=
    value?_mul (value?_of_isFinite houter)
      (value?_sub value?_one (value?_of_isFinite hshare) hrest) hremaining
  cases start with
  | none =>
    cases finish with
    | none =>
      have hhalf := value?_div hleft value?_two two_ne_zero hedges.1
      exact ⟨hhalf, hhalf⟩
    | some e =>
      have he := value?_of_isFinite (hfinish e rfl)
      exact ⟨value?_sub hleft he hedges.1, he⟩
  | some s =>
    have hs := value?_of_isFinite (hstart s rfl)
    cases finish with
    | none => exact ⟨hs, value?_sub hleft hs hedges.2⟩
    | some e => exact ⟨hs, value?_of_isFinite (hfinish e rfl)⟩

/-- What a share of the parent makes of an axis, where the node has got a side. -/
structure AxisRule.Fills (r : AxisRule) (i : AxisInput) (outer share side : Single) : Prop where
  aligned : r.alignStart = true ∧ r.alignEnd = true ∧ r.center = false
  start : ∀ s, i.start = some s → r.start = s
  finish : ∀ e, i.finish = some e → r.finish = e
  even : i.start = none → i.finish = none → r.start = r.finish
  exact : i.start = none ∨ i.finish = none →
    (exactEdges outer share i.start i.finish).1 + (exactEdges outer share i.start i.finish).2 +
      share.value * outer.value = outer.value
  unrounded : Unrounded outer share i.start i.finish →
    r.start.value? = some (exactEdges outer share i.start i.finish).1 ∧
      r.finish.value? = some (exactEdges outer share i.start i.finish).2 ∧
        side.value? = some (share.value * outer.value)

theorem AxisRule.Follows.fills {i : AxisInput} {r : AxisRule} {outer share side : Single}
    (h : r.Follows i) (hshare : i.fraction = some share) (houter : i.parent = some outer)
    (hside : side = share * outer) : r.Fills i outer share side := by
  cases h with
  | centered hshared => exact absurd ⟨by rw [hshare]; rfl, by rw [houter]; rfl⟩ hshared
  | pinned hshared => exact absurd ⟨by rw [hshare]; rfl, by rw [houter]; rfl⟩ hshared
  | @shared share' outer' start finish hshare' houter' hedges =>
    obtain rfl := Option.some.inj (hshare.symm.trans hshare')
    obtain rfl := Option.some.inj (houter.symm.trans houter')
    obtain rfl : (sharedEdges outer share i.start i.finish).1 = start := congrArg Prod.fst hedges
    obtain rfl : (sharedEdges outer share i.start i.finish).2 = finish := congrArg Prod.snd hedges
    refine ⟨⟨rfl, rfl, rfl⟩, fun s hs => ?_, fun e he => ?_, fun hs he => ?_, fun hmissing => ?_,
      fun hexact => ?_⟩
    · change (sharedEdges outer share i.start i.finish).1 = s
      rw [hs, sharedEdges_start]
    · change (sharedEdges outer share i.start i.finish).2 = e
      rw [he, sharedEdges_finish]
    · change (sharedEdges outer share i.start i.finish).1 =
        (sharedEdges outer share i.start i.finish).2
      rw [hs, he]
      rfl
    · have hnone : i.start.map value = none ∨ i.finish.map value = none := by
        simpa only [Option.map_eq_none_iff] using hmissing
      exact sharedEdges_sum outer.value share.value hnone
    · rw [hside]
      exact ⟨hexact.edges_eq.1, hexact.edges_eq.2, value?_mul (value?_of_isFinite hexact.known.2)
        (value?_of_isFinite hexact.known.1) hexact.side⟩

/-- What a placement says about an axis. -/
def Placement.input (p : Placement) (parent : Option Size) : Axis → AxisInput
  | .horizontal => p.horizontal parent
  | .vertical => p.vertical parent

def Constraint.rule (c : Constraint) : Axis → AxisRule
  | .horizontal => ⟨c.alignLeft, c.alignRight, c.left, c.right, c.alignHorizontalCenter⟩
  | .vertical => ⟨c.alignTop, c.alignBottom, c.top, c.bottom, c.alignVerticalCenter⟩

/-- Neither edges nor a center nor a share are given. -/
structure AxisInput.Free (i : AxisInput) : Prop where
  fraction : i.fraction = none
  start : i.start = none
  finish : i.finish = none
  center : i.center = none

namespace Placement

variable {p : Placement} {parent : Option Size} {axis : Axis}

theorem constraint?_eq_none_iff :
    p.constraint? parent = none ↔ ∀ axis, (p.input parent axis).Free := by
  have hcondition : (p.hasEdges || p.widthFraction?.isSome || p.heightFraction?.isSome) = false ↔
      ∀ axis, (p.input parent axis).Free := by
    simp only [hasEdges, Bool.or_eq_false_iff, Option.isSome_eq_false_iff,
      Option.isNone_iff_eq_none]
    constructor
    · rintro ⟨⟨⟨⟨⟨⟨⟨hleft, hright⟩, htop⟩, hbottom⟩, hcenter⟩, hmiddle⟩, hwidth⟩, hheight⟩ axis
      cases axis with
      | horizontal => exact ⟨hwidth, hleft, hright, hcenter⟩
      | vertical => exact ⟨hheight, htop, hbottom, hmiddle⟩
    · intro hfree
      obtain ⟨hwidth, hleft, hright, hcenter⟩ := hfree .horizontal
      obtain ⟨hheight, htop, hbottom, hmiddle⟩ := hfree .vertical
      exact ⟨⟨⟨⟨⟨⟨⟨hleft, hright⟩, htop⟩, hbottom⟩, hcenter⟩, hmiddle⟩, hwidth⟩, hheight⟩
  rw [← hcondition, constraint?]
  split
  · next hgiven => simp [hgiven]
  · next hgiven => simp [Bool.eq_false_iff.2 hgiven]

theorem rule_of_constraint? {c : Constraint} (h : p.constraint? parent = some c) (axis : Axis) :
    c.rule axis = .ofInput (p.input parent axis) := by
  rw [constraint?] at h
  split at h
  · obtain rfl := Option.some.inj h
    cases axis with
    | horizontal => rfl
    | vertical => rfl
  · cases h

end Placement

def Size.swapped (s : Size) : Size := ⟨s.height, s.width⟩

def Placement.swapped (p : Placement) : Placement where
  width := p.height
  height := p.width
  x := p.y
  y := p.x
  anchorOffsetX := p.anchorOffsetY
  anchorOffsetY := p.anchorOffsetX
  alpha := p.alpha
  scaleX := p.scaleY
  scaleY := p.scaleX
  rotation := p.rotation
  visible := p.visible
  left := p.top
  right := p.bottom
  top := p.left
  bottom := p.right
  horizontalCenter := p.verticalCenter
  verticalCenter := p.horizontalCenter

def Constraint.swapped (c : Constraint) : Constraint where
  alignLeft := c.alignTop
  alignRight := c.alignBottom
  alignTop := c.alignLeft
  alignBottom := c.alignRight
  alignHorizontalCenter := c.alignVerticalCenter
  alignVerticalCenter := c.alignHorizontalCenter
  left := c.top
  right := c.bottom
  top := c.left
  bottom := c.right

theorem Placement.constraint?_swapped (p : Placement) (parent : Option Size) :
    p.swapped.constraint? (parent.map Size.swapped) =
      (p.constraint? parent).map Constraint.swapped := by
  have hhorizontal : p.swapped.horizontal (parent.map Size.swapped) = p.vertical parent := by
    cases parent <;> rfl
  have hvertical : p.swapped.vertical (parent.map Size.swapped) = p.horizontal parent := by
    cases parent <;> rfl
  have hcondition : (p.swapped.hasEdges || p.swapped.widthFraction?.isSome ||
      p.swapped.heightFraction?.isSome) =
        (p.hasEdges || p.widthFraction?.isSome || p.heightFraction?.isSome) := by
    change (p.top.isSome || p.bottom.isSome || p.left.isSome || p.right.isSome ||
      p.verticalCenter.isSome || p.horizontalCenter.isSome || p.heightFraction?.isSome ||
        p.widthFraction?.isSome) = (p.left.isSome || p.right.isSome || p.top.isSome ||
      p.bottom.isSome || p.horizontalCenter.isSome || p.verticalCenter.isSome ||
        p.widthFraction?.isSome || p.heightFraction?.isSome)
    ac_rfl
  rw [constraint?, constraint?, hcondition, hhorizontal, hvertical]
  split <;> rfl

/-- A placement makes no constraint just when both axes are free. Otherwise the rule of an axis is
the one that its own input makes it: the edges of a share of a known parent, a center, or the edges
that are given. A share keeps the edges that are given, and both are the same when none is. In exact
arithmetic they add up with the share to the side of the parent as soon as one is missing, and as
long as no step is rounded they are the exact ones, as is the side that layout gives the node.
Exchanging the axes of the placement and of the parent exchanges those of the constraint. -/
theorem Placement.constraint_contract (p : Placement) (parent : Option Size) :
    (p.constraint? parent = none ↔ ∀ axis, (p.input parent axis).Free) ∧
    (∀ c, p.constraint? parent = some c → ∀ axis,
      (∀ r, c.rule axis = r ↔ r.Follows (p.input parent axis)) ∧
      ∀ (share : Single) (outer : Size) (n : Node) (yAxis : YAxis),
        p.fraction? axis = some share → parent = some outer →
          (c.rule axis).Fills (p.input parent axis) (outer.along axis) share
            ((n.arrange yAxis p parent).size.along axis)) ∧
    p.swapped.constraint? (parent.map Size.swapped) =
      (p.constraint? parent).map Constraint.swapped := by
  refine ⟨constraint?_eq_none_iff, fun c hc axis => ⟨fun r => ?_, ?_⟩, p.constraint?_swapped parent⟩
  · rw [AxisRule.follows_iff, rule_of_constraint? hc, eq_comm]
  · intro share outer n yAxis hshare hparent
    have hfollows := AxisRule.follows_iff.2 (rule_of_constraint? hc axis)
    have hside := Node.along_arrange (n := n) hshare yAxis parent
    rw [hparent] at hfollows hside ⊢
    refine hfollows.fills ?_ ?_ hside
    · cases axis with
      | horizontal => exact hshare
      | vertical => exact hshare
    · cases axis with
      | horizontal => rfl
      | vertical => rfl

theorem half_unrounded : exactEdges 200 (1 / 2) (some 10) none = (10, 90) ∧
    value (1 / 2 : Single) * value (200 : Single) = 100 ∧
    Unrounded 200 (1 / 2) (some 10) none := by
  have houter : (200 : Single).value? = some 200 := by decide +kernel
  have hshare : (1 / 2 : Single).value? = some (1 / 2) := by decide +kernel
  have hstart : (10 : Single).value? = some 10 := by decide +kernel
  have hremaining : (100 : Single).value? = some 100 := by decide +kernel
  have hfinish : (90 : Single).value? = some 90 := by decide +kernel
  have hedges : exactEdges 200 (1 / 2) (some 10) none = (10, 90) := by
    simp only [exactEdges, sharedEdges, value_of_value? houter, value_of_value? hshare,
      value_of_value? hstart, Option.map_some, Option.map_none]
    norm_num
  refine ⟨hedges, ?_, ⟨isFinite_of_value? houter, isFinite_of_value? hshare⟩, ?_, ?_, ?_, ?_, ?_⟩
  · rw [value_of_value? houter, value_of_value? hshare]
    norm_num
  · intro edge hedge x hx
    simp only [List.mem_cons, List.not_mem_nil, or_false] at hedge
    rcases hedge with rfl | rfl
    · obtain rfl := Option.some.inj hx
      exact isFinite_of_value? hstart
    · cases hx
  · refine ⟨1 / 2, hshare.trans (congrArg some ?_)⟩
    rw [value_of_value? hshare]
    norm_num
  · refine ⟨100, hremaining.trans (congrArg some ?_)⟩
    rw [value_of_value? houter, value_of_value? hshare]
    norm_num
  · rw [hedges]
    exact ⟨⟨10, hstart⟩, ⟨90, hfinish⟩⟩
  · refine ⟨100, hremaining.trans (congrArg some ?_)⟩
    rw [value_of_value? houter, value_of_value? hshare]
    norm_num

/-- Half of a parent of 200 points, at 10 points from its start. -/
theorem Placement.half_beside_edge :
    let p : Placement := { width := some (.percent (1 / 2)), left := some 10 }
    ∃ c, p.constraint? (some ⟨200, 100⟩) = some c ∧ c.rule .vertical = {} ∧
      (c.rule .horizontal).start.value? = some 10 ∧
      (c.rule .horizontal).finish.value? = some 90 ∧
      (({ name := "n" } : Node).arrange .anchorOffset p (some ⟨200, 100⟩)).size.width.value? =
        some 100 := by
  intro p
  obtain ⟨hedges, hside, hunrounded⟩ := half_unrounded
  obtain ⟨-, hrules, -⟩ := constraint_contract p (some ⟨200, 100⟩)
  obtain ⟨c, hc⟩ : ∃ c, p.constraint? (some ⟨200, 100⟩) = some c := ⟨_, rfl⟩
  have hvertical : c.rule .vertical = {} := by
    refine ((hrules c hc .vertical).1 {}).2 (.pinned ?_ ?_ .missing .missing)
    · rintro ⟨hshare, -⟩
      cases hshare
    · rintro ⟨_, hcenter, -⟩
      cases hcenter
  obtain ⟨hfirst, hlast, hwidth⟩ :=
    ((hrules c hc .horizontal).2 _ _ { name := "n" } .anchorOffset rfl rfl).unrounded hunrounded
  exact ⟨c, hc, hvertical, hfirst.trans (congrArg (fun edges => some edges.1) hedges),
    hlast.trans (congrArg (fun edges => some edges.2) hedges), hwidth.trans (congrArg some hside)⟩

end MarkupScene
