import MarkupScene.Proofs.ImportedBodies

/-!
# Viewports

A scroller stretches its viewport: where a side of the viewport is zero it becomes the scroller's.
This is the only change of size that an importer makes below the node that it is given. It shows
in the finished tree, since the scroller becomes a scroll view and the search for its viewport still
finds the node. The main statement is that importers leave the sides of all other nodes, the shares
that they were given as and their skins as they are.
-/
namespace MarkupScene

open Numeric

variable {ω : Type}

namespace Node

/-- A scroll view that has the node at the end of a way as its viewport, by name or as a
container. -/
def Scrolls (n : Node) (way : List Nat) : Prop :=
  n.has .scrollView = true ∧
    (n.findNamed? "viewport" = some way ∨ n.find? Widget.isContainer = some way)

/-- A scroll view in the tree has the node as its viewport. -/
def IsViewport (root : Node) (way : List Nat) : Prop :=
  ∃ above below s, way = above ++ below ∧ root.descendant? above = some s ∧ s.Scrolls below

/-- What becomes of a side at the end of a way. -/
inductive Became (j : Journal ω) (axis : Axis) : Node → List Nat → Single → Single → Prop where
  | kept (root : Node) (way : List Nat) (side : Single) : Became j axis root way side side
  | trans {root : Node} {way : List Nat} {a b c : Single} :
      Became j axis root way a b → Became j axis root way b c → Became j axis root way a c
  /-- A zero of a viewport becomes the side that the scroll view had before it became what it is. -/
  | stretched {root s : Node} {way above below : List Nat} {zero outer : Single}
      (split : way = above ++ below) (scroller : root.descendant? above = some s)
      (scrolls : s.Scrolls below) (isZero : zero.same 0 = true)
      (became : Became j axis root above outer (s.size.along axis)) :
      Became j axis root way zero outer
  /-- The viewport was stretched in a skin that was stored before and is copied here. -/
  | inSkin {root s : Node} {way above below : List Nat} {a b : Single} {q : Prefab}
      {handle : PrefabRef} (view : root.IsViewport way) (split : way = above ++ below)
      (copy : root.descendant? above = some s) (skin : s.skin = some handle)
      (stored : .stored q (.ok handle) ∈ j) (before : Became j axis q.root below a b) :
      Became j axis root way a b

variable {j : Journal ω} {axis : Axis} {n m k d d' : Node} {way : List Nat}

theorem Became.eq_of_not_isViewport {a b : Single} (h : Became j axis n way a b)
    (hview : ¬n.IsViewport way) : b = a := by
  induction h with
  | kept => rfl
  | trans _ _ ihab ihbc => exact (ihbc hview).trans (ihab hview)
  | stretched split scroller scrolls => exact absurd ⟨_, _, _, split, scroller, scrolls⟩ hview
  | inSkin view => exact absurd view hview

theorem outline_descendant? (h : m.outline = n.outline) (way : List Nat) :
    (m.descendant? way).map outline = (n.descendant? way).map outline := by
  induction way generalizing n m with
  | nil => exact congrArg some h
  | cons i way ih =>
    have hi := congrArg (·[i]?) h
    simp only [outline, List.getElem?_map] at hi
    rw [descendant?_cons, descendant?_cons]
    cases hn : n.children[i]? with
    | none =>
      rw [hn] at hi
      rw [Option.map_eq_none_iff.1 hi]
    | some c =>
      rw [hn] at hi
      obtain ⟨c', hc', hbare⟩ := Option.map_eq_some_iff.1 hi
      rw [hc']
      exact ih (outline_of_bare hbare)

/-- A change at the end of one way leaves the nodes at the ends of all others as they are. -/
theorem toBody_descendant?_modifyAt {f : Node → Node} (hf : ∀ c, (f c).children = c.children)
    (n : Node) (target way : List Nat) :
    ((n.modifyAt f target).descendant? way).map Node.toBody =
      if way = target then (n.descendant? target).map fun c => (f c).toBody
      else (n.descendant? way).map Node.toBody := by
  induction target generalizing n way with
  | nil =>
    cases way with
    | nil => rfl
    | cons i way =>
      rw [modifyAt, descendant?_cons, descendant?_cons, hf]
      simp
  | cons j target ih =>
    rw [modifyAt]
    cases way with
    | nil =>
      cases n.children[j]? with
      | none => rfl
      | some c => rfl
    | cons i way =>
      cases hj : n.children[j]? with
      | none =>
        simp only [descendant?_cons, hj, List.cons.injEq]
        by_cases hij : i = j
        · simp [hij, hj]
        · simp [hij]
      | some c =>
        simp only [descendant?_cons, hj, List.cons.injEq]
        by_cases hij : j = i
        · subst hij
          rw [List.getElem?_set_self (List.getElem?_eq_some_iff.1 hj).1, hj]
          simpa using ih c way
        · simp [List.getElem?_set_ne hij, Ne.symm hij]

/-- What is left of a node at the end of a way when the tree has become another. -/
structure Kept (j : Journal ω) (root : Node) (way : List Nat) (d d' : Node) : Prop where
  fraction (axis : Axis) : d'.fraction? axis = d.fraction? axis
  skin : d'.skin = d.skin
  scrolls {below : List Nat} : d.Scrolls below → d'.Scrolls below
  side (axis : Axis) : Became j axis root way (d.size.along axis) (d'.size.along axis)

theorem Kept.refl (j : Journal ω) (root : Node) (way : List Nat) (d : Node) :
    Kept j root way d d := ⟨fun _ => rfl, rfl, id, fun _ => .kept _ _ _⟩

/-- What is left of the node itself, apart from its children. -/
structure BodyKept (j : Journal ω) (root : Node) (way : List Nat) (d d' : Body) : Prop where
  widthPercent : d'.widthPercent = d.widthPercent
  heightPercent : d'.heightPercent = d.heightPercent
  skin : d'.skin = d.skin
  kinds : d.behaviors.map Behavior.kind ⊆ d'.behaviors.map Behavior.kind
  side (axis : Axis) : Became j axis root way (d.size.along axis) (d'.size.along axis)

theorem BodyKept.refl (j : Journal ω) (root : Node) (way : List Nat) (d : Body) :
    BodyKept j root way d d := ⟨rfl, rfl, rfl, List.Subset.refl _, fun _ => .kept _ _ _⟩

theorem Kept.of_body {root : Node} (h : BodyKept j root way d.toBody d'.toBody)
    (hfind : ∀ (t : Target) found, d.find? t.test = some found → d'.find? t.test = some found) :
    Kept j root way d d' := by
  constructor
  case fraction =>
    intro axis
    cases axis with
    | horizontal => exact h.widthPercent
    | vertical => exact h.heightPercent
  case skin => exact h.skin
  case scrolls =>
    rintro below ⟨hscrolls, hfound⟩
    refine ⟨?_, hfound.imp (hfind (.named "viewport") below) (hfind .container below)⟩
    rw [has_iff_mem] at hscrolls ⊢
    exact h.kinds hscrolls
  case side => exact h.side

/-- A tree has become a part of another, at the end of a way. -/
structure Embeds (j : Journal ω) (above : List Nat) (n m : Node) : Prop where
  nodes {way : List Nat} {d : Node} : n.descendant? way = some d →
    ∃ d', m.descendant? (above ++ way) = some d' ∧ Kept j m (above ++ way) d d'

theorem IsViewport.map {above : List Nat} (hview : n.IsViewport way)
    (hnodes : ∀ way s, n.descendant? way = some s → ∃ s', m.descendant? (above ++ way) = some s' ∧
      ∀ below, s.Scrolls below → s'.Scrolls below) : m.IsViewport (above ++ way) := by
  obtain ⟨before, below, s, rfl, hs, hscrolls⟩ := hview
  obtain ⟨s', hs', hkept⟩ := hnodes before s hs
  exact ⟨_, below, s', (List.append_assoc ..).symm, hs', hkept below hscrolls⟩

theorem not_isViewport (h : ∀ above s, above <+: way → n.descendant? above = some s →
    s.has .scrollView = false) : ¬n.IsViewport way := by
  rintro ⟨above, below, s, rfl, hs, hscrolls⟩
  have hnone := h above s (List.prefix_append ..) hs
  rw [hscrolls.1] at hnone
  cases hnone

theorem Embeds.isViewport {above : List Nat} (h : Embeds j above n m) (hview : n.IsViewport way) :
    m.IsViewport (above ++ way) := by
  refine hview.map fun way s hs => ?_
  obtain ⟨s', hs', hkept⟩ := h.nodes hs
  exact ⟨s', hs', fun _ => hkept.scrolls⟩

theorem Embeds.became {above : List Nat} (h : Embeds j above n m) {a b : Single}
    (hab : Became j axis n way a b) : Became j axis m (above ++ way) a b := by
  induction hab with
  | kept => exact .kept _ _ _
  | trans _ _ ihab ihbc => exact .trans (ihab h) (ihbc h)
  | stretched split scroller scrolls isZero _ ih =>
    obtain ⟨s', hs', hkept⟩ := h.nodes scroller
    refine .stretched ?_ hs' (hkept.scrolls scrolls) isZero (.trans (ih h) (hkept.side axis))
    rw [split, List.append_assoc]
  | inSkin view split copy skin stored before =>
    obtain ⟨s', hs', hkept⟩ := h.nodes copy
    refine .inSkin (h.isViewport view) ?_ hs' (hkept.skin.trans skin) stored before
    rw [split, List.append_assoc]

theorem Embeds.child {i : Nat} (h : n.children[i]? = some d) : Embeds j [i] d n := by
  refine ⟨fun {way s} hs => ⟨s, ?_, .refl _ _ _ _⟩⟩
  rw [List.singleton_append, descendant?_cons, h]
  exact hs

theorem Embeds.append {more : List Node} (hchildren : m.children = n.children ++ more)
    (hbody : BodyKept j m [] n.toBody m.toBody) : Embeds j [] n m := by
  refine ⟨fun {way s} hs => ?_⟩
  cases way with
  | nil =>
    obtain rfl := Option.some.inj hs
    exact ⟨m, rfl, .of_body hbody fun t found hfound => find?_append hfound hchildren⟩
  | cons i way =>
    refine ⟨s, ?_, .refl _ _ _ _⟩
    rw [List.nil_append, descendant?_cons]
    rw [descendant?_cons] at hs
    obtain ⟨c, hc, -⟩ := Option.bind_eq_some_iff.1 hs
    rw [hchildren, List.getElem?_append_left (List.getElem?_eq_some_iff.1 hc).1]
    exact hs

/-- A tree has become another in which only sides of viewports have changed. -/
structure Settles (j : Journal ω) (n m : Node) : Prop where
  outline : m.outline = n.outline
  kept {way : List Nat} {d d' : Node} : n.descendant? way = some d → m.descendant? way = some d' →
    Kept j m way d d'

theorem exists_descendant? (houtline : m.outline = n.outline) (hd : n.descendant? way = some d) :
    ∃ d', m.descendant? way = some d' ∧ d'.outline = d.outline := by
  have hway := outline_descendant? houtline way
  rw [hd] at hway
  exact Option.map_eq_some_iff.1 hway

theorem Settles.embeds (h : Settles j n m) : Embeds j [] n m := by
  refine ⟨fun {way d} hd => ?_⟩
  obtain ⟨d', hd', -⟩ := exists_descendant? h.outline hd
  exact ⟨d', hd', h.kept hd hd'⟩

theorem Settles.refl (j : Journal ω) (n : Node) : Settles j n n := by
  refine ⟨rfl, fun {way d d'} hd hd' => ?_⟩
  obtain rfl := Option.some.inj (hd.symm.trans hd')
  exact .refl _ _ _ _

theorem Settles.trans (hnm : Settles j n m) (hmk : Settles j m k) : Settles j n k := by
  refine ⟨hmk.outline.trans hnm.outline, fun {way d d''} hd hd'' => ?_⟩
  obtain ⟨d', hd', -⟩ := exists_descendant? hnm.outline hd
  have hfirst := hnm.kept hd hd'
  have hsecond := hmk.kept hd' hd''
  constructor
  case fraction => exact fun axis => (hsecond.fraction axis).trans (hfirst.fraction axis)
  case skin => exact hsecond.skin.trans hfirst.skin
  case scrolls => exact fun h => hsecond.scrolls (hfirst.scrolls h)
  case side => exact fun axis => .trans (hmk.embeds.became (hfirst.side axis)) (hsecond.side axis)

theorem viewport_congr (houtline : m.outline = n.outline)
    (h : n.findNamed? "viewport" = some way ∨ n.find? Widget.isContainer = some way) :
    m.findNamed? "viewport" = some way ∨ m.find? Widget.isContainer = some way :=
  h.imp (find?_congr (Target.named "viewport").test_bare houtline).trans
    (find?_congr Target.container.test_bare houtline).trans

theorem Scrolls.congr (h : n.Scrolls way) (houtline : m.outline = n.outline)
    (hscrolls : n.has .scrollView = true → m.has .scrollView = true) : m.Scrolls way :=
  ⟨hscrolls h.1, viewport_congr houtline h.2⟩

theorem Settles.of_bodies (houtline : m.outline = n.outline)
    (hbodies : ∀ way d d', n.descendant? way = some d → m.descendant? way = some d' →
      BodyKept j m way d.toBody d'.toBody) : Settles j n m := by
  refine ⟨houtline, fun {way d d'} hd hd' => ?_⟩
  obtain ⟨d'', hd'', hsame⟩ := exists_descendant? houtline hd
  obtain rfl := Option.some.inj (hd'.symm.trans hd'')
  refine .of_body (hbodies way d d' hd hd') fun t found hfound => ?_
  rw [find?_congr t.test_bare hsame, hfound]

/-- The node itself may get other behaviors, and the scroll view among them stays. -/
theorem Settles.behaviors (n : Node) {bs : List Behavior}
    (hkinds : n.behaviors.map Behavior.kind ⊆ bs.map Behavior.kind) :
    Settles j n { n with behaviors := bs } := by
  refine .of_bodies rfl fun way d d' hd hd' => ?_
  cases way with
  | nil =>
    obtain rfl := Option.some.inj hd
    obtain rfl := Option.some.inj hd'
    exact ⟨rfl, rfl, rfl, hkinds, fun _ => .kept _ _ _⟩
  | cons i way =>
    rw [descendant?_cons] at hd hd'
    obtain rfl := Option.some.inj (hd.symm.trans hd')
    exact .refl _ _ _ _

theorem Settles.modifyAt {f : Node → Node} (hbare : ∀ c, (f c).bare = c.bare)
    (hchildren : ∀ c, (f c).children = c.children) (n : Node) (target : List Nat)
    (hkept : ∀ d, BodyKept j (n.modifyAt f target) target d.toBody (f d).toBody) :
    Settles j n (n.modifyAt f target) := by
  refine .of_bodies (outline_of_bare (bare_modifyAt hbare n target)) fun way d d' hd hd' => ?_
  have hbody := toBody_descendant?_modifyAt hchildren n target way
  rw [hd', hd] at hbody
  by_cases hway : way = target
  · subst hway
    rw [if_pos rfl, hd] at hbody
    rw [show d'.toBody = (f d).toBody from Option.some.inj hbody]
    exact hkept d
  · rw [if_neg hway] at hbody
    rw [show d'.toBody = d.toBody from Option.some.inj hbody]
    exact .refl _ _ _ _

/-- Behaviors of what was found, if anything was, may change within their kinds. -/
theorem Settles.retouch {f : Node → Node}
    (hf : ∀ d, ∃ bs, f d = { d with behaviors := bs } ∧
      bs.map Behavior.kind = d.behaviors.map Behavior.kind)
    (n : Node) (found : Option (List Nat)) :
    Settles j n (match found with
      | some way => n.modifyAt f way
      | none => n) := by
  cases found with
  | none => exact .refl j n
  | some way =>
    apply Settles.modifyAt
    · intro c
      obtain ⟨bs, hc, -⟩ := hf c
      rw [hc]
      exact bare_congr rfl rfl rfl
    · intro c
      obtain ⟨bs, hc, -⟩ := hf c
      rw [hc]
    · intro d
      obtain ⟨bs, hd, hkinds⟩ := hf d
      rw [hd]
      refine ⟨rfl, rfl, rfl, ?_, fun _ => .kept _ _ _⟩
      rw [hkinds]
      exact List.Subset.refl _

/-- A scroll view may stretch its viewport. -/
theorem Settles.stretch (hscrolls : n.Scrolls way) :
    Settles j n (n.modifyAt (fun c => { c with size := Widget.fillSize n.size c.size }) way) := by
  let f : Node → Node := fun c => { c with size := Widget.fillSize n.size c.size }
  have hbare : ∀ c : Node, (f c).bare = c.bare := (Widget.fillSize_harmless n.size).bare
  have hne : way ≠ [] := by
    rcases hscrolls.2 with h | h
    · exact (descendant?_of_find? h).1
    · exact (descendant?_of_find? h).1
  have hroot : (n.modifyAt f way).toBody = n.toBody := toBody_modifyAt hne n
  have hscrolls' : (n.modifyAt f way).Scrolls way := by
    refine hscrolls.congr (outline_of_bare (bare_modifyAt hbare n way)) fun h => ?_
    rw [has, hroot]
    exact h
  have hzero : ∀ (zero : Single) axis, zero.same 0 = true →
      Became j axis (n.modifyAt f way) way zero (n.size.along axis) := by
    intro zero axis isZero
    refine .stretched (List.nil_append way).symm rfl hscrolls' isZero ?_
    rw [hroot]
    exact .kept _ _ _
  refine .modifyAt hbare (fun _ => rfl) n way fun d =>
    ⟨rfl, rfl, rfl, List.Subset.refl _, fun axis => ?_⟩
  -- A side that is not zero stays, and one that is zero becomes the scroll view's.
  have hside : (f d).size.along axis = if (d.size.along axis).same 0 then n.size.along axis
      else d.size.along axis := by
    cases axis <;> rfl
  change Became j axis _ way (d.size.along axis) ((f d).size.along axis)
  rw [hside]
  split
  · next isZero => exact hzero _ axis isZero
  · exact .kept _ _ _

/-- Hidden children are what they were. -/
theorem Settles.hide (n : Node) :
    Settles j n { n with children := n.children.map fun c => { c with active := false } } := by
  have houtline : Node.outline { n with children := n.children.map fun c =>
      { c with active := false } } = n.outline := by
    change (n.children.map _).map bare = n.children.map bare
    rw [List.map_map]
    exact List.map_congr_left fun c _ => bare_congr rfl rfl rfl
  refine .of_bodies houtline fun way d d' hd hd' => ?_
  cases way with
  | nil =>
    obtain rfl := Option.some.inj hd
    obtain rfl := Option.some.inj hd'
    exact .refl _ _ _ _
  | cons i way =>
    rw [descendant?_cons] at hd hd'
    obtain ⟨c, hc, hd⟩ := Option.bind_eq_some_iff.1 hd
    rw [List.getElem?_map, hc] at hd'
    cases way with
    | nil =>
      obtain rfl := Option.some.inj hd
      obtain rfl := Option.some.inj hd'
      exact ⟨rfl, rfl, rfl, List.Subset.refl _, fun _ => .kept _ _ _⟩
    | cons k way =>
      rw [Option.map_some, Option.bind_some, descendant?_cons] at hd'
      rw [descendant?_cons] at hd
      obtain rfl := Option.some.inj (hd.symm.trans hd')
      exact .refl _ _ _ _

end Node

def Importer.Settles (i : Importer ω) : Prop :=
  ∀ (j : Journal ω) scope e n, (i scope e n).Makes (n.Settles j)

namespace Widget

open Importing

theorem attach_settles (j : Journal ω) (scope : ImportScope ω) (n : Node) (b : Behavior) :
    (scope.attach n b).Makes (n.Settles j) :=
  (Makes.attached scope n b).imp fun _ ⟨_, hmade, hkinds, _⟩ => hmade ▸ .behaviors n hkinds

theorem attach_settles_of {j : Journal ω} {n k : Node} (hk : n.Settles j k)
    (scope : ImportScope ω) (b : Behavior) : (scope.attach k b).Makes (n.Settles j) :=
  (attach_settles j scope k b).imp fun _ h => hk.trans h

theorem label_settles : (label : Importer ω).Settles := fun j scope _ n => attach_settles j scope n _

theorem bitmapLabel_settles : (bitmapLabel : Importer ω).Settles := by
  intro j scope e n
  refine .last fun font => ?_
  cases font with
  | some font => exact .last fun _ => attach_settles j scope n _
  | none => exact attach_settles j scope n _

theorem scrollBar_settles (direction : Axis) : (scrollBar direction : Importer ω).Settles :=
  fun _ scope _ n => attach_settles_of
    (.retouch (fun d => ⟨_, rfl, Node.kinds_changeFirstSprite _ d.behaviors⟩) n _) scope _

theorem progressBar_settles : (progressBar : Importer ω).Settles := by
  intro j scope e n
  have hfill : ∀ fill (d : Node), ∃ bs, fillSprite fill d = { d with behaviors := bs } ∧
      bs.map Behavior.kind = d.behaviors.map Behavior.kind := fun _ d =>
    ⟨_, rfl, Node.kinds_changeFirstSprite _ d.behaviors⟩
  have htext : ∀ (f : Label → Label) (d : Node), ∃ bs, d.mapLabel f = { d with behaviors := bs } ∧
      bs.map Behavior.kind = d.behaviors.map Behavior.kind := fun _ d =>
    ⟨_, rfl, Node.kinds_changeFirstLabel _ d.behaviors⟩
  exact attach_settles_of ((Node.Settles.retouch (hfill _) n _).trans (.retouch (htext _) _ _))
    scope _

theorem modifyAt_behaviors {f : Node → Node} {way : List Nat} (h : way ≠ []) (n : Node)
    (bs : List Behavior) :
    { n.modifyAt f way with behaviors := bs } =
      Node.modifyAt { n with behaviors := bs } f way := by
  cases way with
  | nil => exact absurd rfl h
  | cons i way =>
    rw [Node.modifyAt, Node.modifyAt]
    cases n.children[i]? <;> rfl

theorem scroller_settles : (scroller : Importer ω).Settles := by
  intro j scope e n
  unfold scroller
  dsimp only
  refine .bind (Makes.attached scope _ _) fun k ⟨bs, hk, hkinds, hkind⟩ => ?_
  refine attach_settles_of ?_ scope _
  subst hk
  cases hway : viewport? n with
  | none =>
    rw [hway] at hkinds
    exact .behaviors n hkinds
  | some way =>
    rw [hway] at hkinds
    have hne := ne_nil_of_viewport? hway
    have hscrolls : Node.Scrolls { n with behaviors := bs } way := by
      refine ⟨(Node.has_iff_mem _ _).2 (hkind rfl), ?_⟩
      exact Node.viewport_congr (n := n) rfl (find?_of_viewport? hway)
    have hbehaviors : n.behaviors.map Behavior.kind ⊆ bs.map Behavior.kind := by
      have hsame := congrArg Body.behaviors
        (Node.toBody_modifyAt (f := fun c => { c with size := fillSize n.size c.size }) hne n)
      dsimp only at hkinds hsame
      rwa [hsame] at hkinds
    dsimp only
    rw [modifyAt_behaviors hne]
    refine (Node.Settles.behaviors n hbehaviors).trans ?_
    exact .stretch hscrolls

theorem textInput_settles (j : Journal ω) (scope : ImportScope ω)
    (htemplate : scope.isTemplate = true) (e : Element) (n : Node) :
    (textInput scope e n).Makes (n.Settles j) := by
  unfold textInput
  rw [htemplate]
  exact attach_settles_of (.hide n) scope _

end Widget

end MarkupScene
