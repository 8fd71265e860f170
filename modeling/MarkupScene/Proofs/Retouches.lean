import MarkupScene.Proofs.Viewports

/-!
# Retouches

An import retouches a tree: what it may do is bound to few places, and at each of them to few things.
A scroll bar and a progress bar retouch the sprite of their thumb, a progress bar the text of its
label, a scroller the sides of its viewport that are zero, and a text input hides its children or
drops them. The main statement is that nothing else happens: every node that is left stands where it
stood and is, but for its size, its visibility and its behaviors, the node that it was.
-/
namespace MarkupScene

variable {ω : Type}

namespace Node
variable {n m k : Node} {b : Behavior} {bs cs : List Behavior} {kinds : List Behavior.Kind}

/-- The node with a behavior attached, or as it was when it refuses. -/
def attached (n : Node) (b : Behavior) : Node := (n.attach b).toOption.getD n

/-- What is left of behaviors besides those of some kinds. -/
def besides (kinds : List Behavior.Kind) (bs : List Behavior) : List Behavior :=
  bs.filter fun a => a.kind ∉ kinds

theorem besides_replaceKind (h : b.kind ∈ kinds) (bs : List Behavior) :
    besides kinds (replaceKind b bs) = besides kinds bs := by
  induction bs with
  | nil => rfl
  | cons a rest ih =>
    rw [replaceKind]
    split
    · next hkind => simp [besides, hkind, h]
    · simp only [besides] at ih
      simp only [besides, List.filter_cons, ih]

/-- How attaching can end, as a node. -/
theorem attached_cases (n : Node) (b : Behavior) :
    (n.has b.kind = true ∧ n.attached b = { n with behaviors := replaceKind b n.behaviors }) ∨
      (n.has b.kind = false ∧ n.attached b = { n with behaviors := n.behaviors ++ [b] }) ∨
      (n.Refuses b.kind ∧ n.attached b = n) := by
  unfold attached
  cases hattach : n.attach b with
  | error conflict => exact .inr (.inr ⟨refuses_of_attach hattach, rfl⟩)
  | ok made =>
    unfold attach at hattach
    split at hattach
    · next hkind => exact .inl ⟨hkind, (Except.ok.inj hattach).symm⟩
    · next hkind =>
      have habsent : n.has b.kind = false := by simpa [has] using hkind
      have hmade : { n with behaviors := n.behaviors ++ [b] } = made := by
        dsimp only at hattach
        split at hattach
        · split at hattach
          · cases hattach
          · exact Except.ok.inj hattach
        · exact Except.ok.inj hattach
      exact .inr (.inl ⟨habsent, hmade.symm⟩)

theorem exists_attached (n : Node) (kinds : List Behavior.Kind) (h : b.kind ∈ kinds) : ∃ bs,
    n.attached b = { n with behaviors := bs } ∧ besides kinds bs = besides kinds n.behaviors := by
  obtain ⟨-, hmade⟩ | ⟨-, hmade⟩ | ⟨-, hmade⟩ := n.attached_cases b
  · exact ⟨_, hmade, besides_replaceKind h _⟩
  · exact ⟨_, hmade, by simp [besides, h]⟩
  · exact ⟨n.behaviors, hmade.trans (by cases n; rfl), rfl⟩

end Node

theorem Importing.Makes.attached_eq (scope : ImportScope ω) (n : Node) (b : Behavior) :
    Makes (scope.attach n b) fun made => made = n.attached b := by
  unfold ImportScope.attach Node.attached
  cases n.attach b with
  | ok made => exact pure rfl
  | error conflict => exact last fun _ => pure rfl

namespace Node
variable {n m k : Node} {may : List Nat → Body → Body → Prop} {way target : List Nat}

def attachedKinds : String → List Behavior.Kind
  | "Image" => [.sprite]
  | "Label" | "EditableText" | "BitmapLabel" => [.label]
  | "HScrollBar" | "VScrollBar" => [.scrollBar]
  | "Scroller" => [.scrollView, .mask]
  | "ProgressBar" => [.progressBar]
  | "TextInput" => [.editBox]
  | _ => []

/-- A body with its first sprite changed by a function. -/
inductive SpriteChanged (f : Sprite → Sprite) (d : Body) : Body → Prop where
  | first {before after : List Behavior} {s : Sprite} (split : d.behaviors = before ++ .sprite s :: after)
      (earlier : ∀ b ∈ before, b.kind ≠ .sprite) :
      SpriteChanged f d { d with behaviors := before ++ .sprite (f s) :: after }

/-- A body with its first label changed by a function. -/
inductive LabelChanged (f : Label → Label) (d : Body) : Body → Prop where
  | first {before after : List Behavior} {l : Label} (split : d.behaviors = before ++ .label l :: after)
      (earlier : ∀ b ∈ before, b.kind ≠ .label) :
      LabelChanged f d { d with behaviors := before ++ .label (f l) :: after }

/-- A side is what it was, or it was zero and is the outer one. -/
def Filled (outer side side' : Numeric.Single) : Prop :=
  side' = side ∨ side.same 0 = true ∧ side' = outer

/-- What the import of a node as a widget may do to the node at the end of a way. -/
inductive Retouched (widget : String) (isTemplate : Bool) (n : Node) : List Nat → Body → Body → Prop
    where
  | left (way : List Nat) (d : Body) : Retouched widget isTemplate n way d d
  /-- The node itself may get other behaviors of the kinds that its widget attaches. -/
  | own {d : Body} {bs : List Behavior}
      (others : besides (attachedKinds widget) bs = besides (attachedKinds widget) d.behaviors) :
      Retouched widget isTemplate n [] d { d with behaviors := bs }
  /-- An image may get another size as well. -/
  | image {d : Body} {size : Size} {bs : List Behavior} (isImage : widget = "Image")
      (others : besides [.sprite] bs = besides [.sprite] d.behaviors) :
      Retouched widget isTemplate n [] d { d with size, behaviors := bs }
  /-- The sprite of the first thumb of a scroll bar stretches. -/
  | handle {way : List Nat} {d d' : Body} (isBar : widget = "HScrollBar" ∨ widget = "VScrollBar")
      (found : n.findNamed? "thumb" = some way)
      (changed : SpriteChanged (fun s => { s with sizeMode := .custom }) d d') :
      Retouched widget isTemplate n way d d'
  /-- A side of zero of the viewport of a scroller becomes the scroller's. -/
  | viewport {way : List Nat} {d : Body} {size : Size} (isScroller : widget = "Scroller")
      (found : Widget.viewport? n = some way) (width : Filled n.size.width d.size.width size.width)
      (height : Filled n.size.height d.size.height size.height) :
      Retouched widget isTemplate n way d { d with size }
  /-- The sprite of the first thumb of a progress bar is filled. -/
  | thumb {way : List Nat} {d d' : Body} (fill : Fill) (isBar : widget = "ProgressBar")
      (found : n.findNamed? "thumb" = some way)
      (changed : SpriteChanged (fun s => { s with kind := .filled, fill := some fill }) d d') :
      Retouched widget isTemplate n way d d'
  /-- The first label display of a progress bar shows a text. -/
  | labelDisplay {way : List Nat} {d d' : Body} (text : String) (isBar : widget = "ProgressBar")
      (found : n.findNamed? "labelDisplay" = some way)
      (changed : LabelChanged (fun l => { l with text }) d d') :
      Retouched widget isTemplate n way d d'
  /-- A child of a text input is hidden in a skin. -/
  | hidden {i : Nat} {d : Body} (isInput : widget = "TextInput") (inSkin : isTemplate = true) :
      Retouched widget isTemplate n [i] d { d with active := false }

theorem Retouched.rel (widget : String) (isTemplate : Bool) (n : Node) (way : List Nat)
    (d : Option Body) : Option.Rel (Retouched widget isTemplate n way) d d := by
  cases d with
  | none => exact .none
  | some d => exact .some (.left way d)

/-- The same places are taken in two trees, and the nodes there have become others as they may. -/
def Becomes (may : List Nat → Body → Body → Prop) (n m : Node) : Prop :=
  ∀ way, Option.Rel (may way) ((n.descendant? way).map Node.toBody)
    ((m.descendant? way).map Node.toBody)

theorem Becomes.refl (hmay : ∀ way d, may way d d) (n : Node) : n.Becomes may n := by
  intro way
  cases n.descendant? way with
  | none => exact .none
  | some d => exact .some (hmay way _)

/-- What stays the same in every change stays the same at every place. -/
theorem Becomes.map {α : Type} {g : Body → α} (h : n.Becomes may m) (way : List Nat)
    (hg : ∀ d d', may way d d' → g d' = g d) :
    ((m.descendant? way).map fun d => g d.toBody) = (n.descendant? way).map fun d => g d.toBody := by
  have hway := h way
  cases hn : n.descendant? way with
  | none =>
    cases hm : m.descendant? way with
    | none => rfl
    | some d' =>
      rw [hn, hm] at hway
      cases hway
  | some d =>
    cases hm : m.descendant? way with
    | none =>
      rw [hn, hm] at hway
      cases hway
    | some d' =>
      rw [hn, hm] at hway
      cases hway with
      | some hmay => exact congrArg some (hg _ _ hmay)

theorem Becomes.modifyAt {f : Node → Node} (h : n.Becomes may m)
    (hchildren : ∀ c, (f c).children = c.children)
    (hsame : (m.descendant? target).map Node.toBody = (n.descendant? target).map Node.toBody)
    (hmay : ∀ d : Node, may target d.toBody (f d).toBody) : n.Becomes may (m.modifyAt f target) := by
  intro way
  rw [toBody_descendant?_modifyAt hchildren]
  split
  · next hway =>
    subst hway
    rw [← hsame]
    cases m.descendant? way with
    | none => exact .none
    | some d => exact .some (hmay d)
  · exact h way

theorem Becomes.modifyFound {f : Node → Node} {found : Option (List Nat)}
    (hk : k = match found with
      | some way => m.modifyAt f way
      | none => m)
    (h : n.Becomes may m) (hchildren : ∀ c, (f c).children = c.children)
    (hsame : ∀ way, found = some way →
      (m.descendant? way).map Node.toBody = (n.descendant? way).map Node.toBody)
    (hmay : ∀ way, found = some way → ∀ d : Node, may way d.toBody (f d).toBody) :
    n.Becomes may k := by
  subst hk
  cases found with
  | none => exact h
  | some way => exact h.modifyAt hchildren (hsame way rfl) (hmay way rfl)

theorem changeFirstSprite_cases (f : Sprite → Sprite) (bs : List Behavior) :
    changeFirstSprite f bs = bs ∨ ∃ before s after, bs = before ++ .sprite s :: after ∧
      (∀ b ∈ before, b.kind ≠ .sprite) ∧
        changeFirstSprite f bs = before ++ .sprite (f s) :: after := by
  fun_induction changeFirstSprite f bs with
  | case1 => exact .inl rfl
  | case2 s rest => exact .inr ⟨[], s, rest, rfl, by simp, rfl⟩
  | case3 b rest hb ih =>
    have hkind : b.kind ≠ .sprite := by
      cases b with
      | sprite s => exact absurd rfl (hb s)
      | _ => simp [Behavior.kind]
    obtain hsame | ⟨before, s, after, rfl, hbefore, hchanged⟩ := ih
    · exact .inl (by rw [hsame])
    · exact .inr ⟨b :: before, s, after, rfl, by simpa [hkind] using hbefore, by rw [hchanged]; rfl⟩

theorem changeFirstLabel_cases (f : Label → Label) (bs : List Behavior) :
    changeFirstLabel f bs = bs ∨ ∃ before l after, bs = before ++ .label l :: after ∧
      (∀ b ∈ before, b.kind ≠ .label) ∧
        changeFirstLabel f bs = before ++ .label (f l) :: after := by
  fun_induction changeFirstLabel f bs with
  | case1 => exact .inl rfl
  | case2 l rest => exact .inr ⟨[], l, rest, rfl, by simp, rfl⟩
  | case3 b rest hb ih =>
    have hkind : b.kind ≠ .label := by
      cases b with
      | label l => exact absurd rfl (hb l)
      | _ => simp [Behavior.kind]
    obtain hsame | ⟨before, l, after, rfl, hbefore, hchanged⟩ := ih
    · exact .inl (by rw [hsame])
    · exact .inr ⟨b :: before, l, after, rfl, by simpa [hkind] using hbefore, by rw [hchanged]; rfl⟩

theorem mapSprite_cases (f : Sprite → Sprite) (d : Node) :
    (d.mapSprite f).toBody = d.toBody ∨ SpriteChanged f d.toBody (d.mapSprite f).toBody := by
  unfold mapSprite
  obtain hsame | ⟨before, s, after, hsplit, hbefore, hchanged⟩ :=
    changeFirstSprite_cases f d.behaviors
  · exact .inl (by rw [hsame])
  · rw [hchanged]
    exact .inr (.first hsplit hbefore)

theorem mapLabel_cases (f : Label → Label) (d : Node) :
    (d.mapLabel f).toBody = d.toBody ∨ LabelChanged f d.toBody (d.mapLabel f).toBody := by
  unfold mapLabel
  obtain hsame | ⟨before, l, after, hsplit, hbefore, hchanged⟩ :=
    changeFirstLabel_cases f d.behaviors
  · exact .inl (by rw [hsame])
  · rw [hchanged]
    exact .inr (.first hsplit hbefore)

/-- What an import may not change of a node. -/
def fixed (d : Body) : Body := { d with size := {}, active := true, behaviors := [] }

/-- What an import of a node as a widget makes of its tree. -/
structure Retouches (widget : String) (isTemplate : Bool) (n made : Node) : Prop where
  /-- The same nodes are there, and what has become of each is bound to its place. -/
  kept : (widget = "TextInput" → isTemplate = true) →
    n.Becomes (Retouched widget isTemplate n) made
  /-- A text input that is no skin keeps nothing below it, and all of itself but an edit box. -/
  emptied : widget = "TextInput" → isTemplate = false → made.children = [] ∧
    Retouched widget isTemplate n [] n.toBody made.toBody
  /-- Every node that is left is where it was and is the same but for size, visibility and
  behaviors. -/
  fixed {way : List Nat} {d' : Node} : made.descendant? way = some d' →
    ∃ d, n.descendant? way = some d ∧ fixed d'.toBody = fixed d.toBody

variable {widget : String} {isTemplate : Bool} {d d' : Body}

theorem SpriteChanged.fixed {f : Sprite → Sprite} (h : SpriteChanged f d d') :
    Node.fixed d' = Node.fixed d := by
  cases h
  rfl

theorem LabelChanged.fixed {f : Label → Label} (h : LabelChanged f d d') :
    Node.fixed d' = Node.fixed d := by
  cases h
  rfl

theorem Retouched.fixed (h : Retouched widget isTemplate n way d d') :
    Node.fixed d' = Node.fixed d := by
  cases h with
  | handle _ _ changed => exact changed.fixed
  | thumb _ _ _ changed => exact changed.fixed
  | labelDisplay _ _ _ changed => exact changed.fixed
  | _ => rfl

theorem Becomes.fixed (h : n.Becomes (Retouched widget isTemplate n) m) {d' : Node}
    (hd' : m.descendant? way = some d') :
    ∃ d, n.descendant? way = some d ∧ Node.fixed d'.toBody = Node.fixed d.toBody := by
  have hway := h.map way fun _ _ hretouched => hretouched.fixed
  rw [hd'] at hway
  obtain ⟨d, hd, hfixed⟩ := Option.map_eq_some_iff.1 hway.symm
  exact ⟨d, hd, hfixed.symm⟩

theorem Retouches.of_becomes (h : n.Becomes (Retouched widget isTemplate n) m)
    (hwidget : widget = "TextInput" → isTemplate = true) : Retouches widget isTemplate n m := by
  refine ⟨fun _ => h, fun hinput hnone => ?_, fun hd => h.fixed hd⟩
  rw [hwidget hinput] at hnone
  cases hnone

/-- The tree has been retouched, and the node itself has at most got behaviors of the kinds of its
widget. -/
structure Dressed (widget : String) (isTemplate : Bool) (n m : Node) : Prop where
  becomes : n.Becomes (Retouched widget isTemplate n) m
  body : ∃ bs, m.toBody = { n.toBody with behaviors := bs } ∧
    besides (attachedKinds widget) bs = besides (attachedKinds widget) n.behaviors

theorem Dressed.retouches (h : Dressed widget isTemplate n m)
    (hwidget : widget = "TextInput" → isTemplate = true) : Retouches widget isTemplate n m :=
  .of_becomes h.becomes hwidget

theorem Dressed.of_becomes (h : n.Becomes (Retouched widget isTemplate n) m)
    (hsame : m.toBody = n.toBody) : Dressed widget isTemplate n m :=
  ⟨h, n.behaviors, hsame, rfl⟩

theorem Dressed.attached {b : Behavior} (h : Dressed widget isTemplate n m)
    (hb : b.kind ∈ attachedKinds widget) : Dressed widget isTemplate n (m.attached b) := by
  obtain ⟨bs, hbody, hbs⟩ := h.body
  obtain ⟨cs, hattached, hcs⟩ := m.exists_attached _ hb
  have hbehaviors : m.behaviors = bs := congrArg Body.behaviors hbody
  have hothers : besides (attachedKinds widget) cs = besides (attachedKinds widget) n.behaviors := by
    rw [hcs, hbehaviors, hbs]
  have hown : { m.toBody with behaviors := cs } = { n.toBody with behaviors := cs } := by
    rw [hbody]
  rw [hattached]
  refine ⟨fun way => ?_, cs, hown, hothers⟩
  cases way with
  | nil =>
    change Option.Rel _ (some n.toBody) (some { m.toBody with behaviors := cs })
    rw [hown]
    exact .some (.own hothers)
  | cons i way => exact h.becomes (i :: way)

end Node

namespace Widget

open Importing Node

variable {n m : Node} {widget : String} {isTemplate : Bool}

theorem attach_dressed (scope : ImportScope ω) {b : Behavior}
    (hm : Dressed widget isTemplate n m) (hb : b.kind ∈ attachedKinds widget) :
    (scope.attach m b).Makes (Dressed widget isTemplate n) :=
  (Makes.attached_eq scope m b).imp fun _ hmade => hmade ▸ hm.attached hb

theorem attach_label_dressed
    (hwidget : widget = "Label" ∨ widget = "EditableText" ∨ widget = "BitmapLabel")
    (scope : ImportScope ω) (n : Node) (l : Label) :
    (scope.attach n (.label l)).Makes (Dressed widget scope.isTemplate n) := by
  have hkind : .label ∈ attachedKinds widget := by
    obtain rfl | rfl | rfl := hwidget <;> exact List.mem_cons_self
  exact attach_dressed scope (.of_becomes (.refl Retouched.left n) rfl) hkind

theorem label_retouches (hwidget : widget = "Label" ∨ widget = "EditableText")
    (scope : ImportScope ω) (e : Element) (n : Node) :
    (label scope e n).Makes (Dressed widget scope.isTemplate n) :=
  attach_label_dressed (hwidget.imp_right .inl) scope n (labelOf e n)

theorem bitmapLabel_retouches (scope : ImportScope ω) (e : Element) (n : Node) :
    (bitmapLabel scope e n).Makes (Dressed "BitmapLabel" scope.isTemplate n) := by
  have hattach := attach_label_dressed (.inr (.inr rfl)) scope n
  refine .last fun font => ?_
  cases font with
  | some font => exact .last fun _ => hattach _
  | none => exact hattach _

theorem becomes_thumb {f : Sprite → Sprite} {k : Node}
    (hk : k = match n.findNamed? "thumb" with
      | some way => n.modifyAt (Node.mapSprite f) way
      | none => n)
    (hmay : ∀ way, n.findNamed? "thumb" = some way → ∀ d d', SpriteChanged f d d' →
      Retouched widget isTemplate n way d d') : n.Becomes (Retouched widget isTemplate n) k := by
  refine .modifyFound hk (.refl Retouched.left n) (fun _ => rfl) (fun _ _ => rfl)
    fun way hway d => ?_
  obtain hsame | hchanged := d.mapSprite_cases f
  · rw [hsame]
    exact .left way d.toBody
  · exact hmay way hway _ _ hchanged

theorem scrollBar_retouches (hwidget : widget = "HScrollBar" ∨ widget = "VScrollBar")
    (direction : Axis) (scope : ImportScope ω) (e : Element) (n : Node) :
    (scrollBar direction scope e n).Makes (Dressed widget scope.isTemplate n) := by
  have hkind : .scrollBar ∈ attachedKinds widget := by
    obtain rfl | rfl := hwidget <;> exact List.mem_cons_self
  refine attach_dressed scope (.of_becomes ?_ ?_) hkind
  · exact becomes_thumb rfl fun way hway _ _ => .handle hwidget hway
  · exact toBody_modifyFound n stretchSprite fun _ => ne_nil_of_findNamed?

theorem filled_fillSize (outer inner : Size) :
    Filled outer.width inner.width (fillSize outer inner).width ∧
      Filled outer.height inner.height (fillSize outer inner).height := by
  have hside : ∀ outer side : Numeric.Single,
      Filled outer side (if side.same 0 then outer else side) := by
    intro outer side
    split
    · next hzero => exact .inr ⟨hzero, rfl⟩
    · exact .inl rfl
  exact ⟨hside _ _, hside _ _⟩

theorem scroller_retouches (scope : ImportScope ω) (e : Element) (n : Node) :
    (scroller scope e n).Makes (Dressed "Scroller" scope.isTemplate n) := by
  refine .bind (attach_dressed scope (.of_becomes ?_ ?_) List.mem_cons_self) fun k hk =>
    attach_dressed scope hk (List.mem_cons_of_mem _ List.mem_cons_self)
  · refine .modifyFound rfl (.refl Retouched.left n) (fun _ => rfl) (fun _ _ => rfl)
      fun way hway d => ?_
    have hfilled := filled_fillSize n.size d.size
    exact .viewport rfl hway hfilled.1 hfilled.2
  · exact toBody_modifyFound n (fun c => { c with size := fillSize n.size c.size })
      fun _ => ne_nil_of_viewport?

theorem ne_of_findNamed? {name name' : String} {way way' : List Nat}
    (h : n.findNamed? name = some way) (h' : n.findNamed? name' = some way')
    (hne : name ≠ name') : way ≠ way' := by
  rintro rfl
  obtain ⟨-, d, hd, hname⟩ := descendant?_of_find? h
  obtain ⟨-, d', hd', hname'⟩ := descendant?_of_find? h'
  obtain rfl := Option.some.inj (hd.symm.trans hd')
  exact hne ((of_decide_eq_true hname).symm.trans (of_decide_eq_true hname'))

/-- The label display is found where it was and has not been changed with the thumb. -/
theorem labelDisplay_of_thumb {f : Sprite → Sprite} {k : Node} {way : List Nat}
    (hk : k = match n.findNamed? "thumb" with
      | some way => n.modifyAt (Node.mapSprite f) way
      | none => n)
    (hway : k.findNamed? "labelDisplay" = some way) : n.findNamed? "labelDisplay" = some way ∧
      (k.descendant? way).map Node.toBody = (n.descendant? way).map Node.toBody := by
  subst hk
  cases hthumb : n.findNamed? "thumb" with
  | none =>
    rw [hthumb] at hway
    exact ⟨hway, rfl⟩
  | some thumb =>
    rw [hthumb] at hway
    have houtline := outline_of_bare (bare_modifyAt (mapSprite_harmless f).bare n thumb)
    have hfound : n.findNamed? "labelDisplay" = some way :=
      (find?_congr (Target.named "labelDisplay").test_bare houtline).symm.trans hway
    refine ⟨hfound, ?_⟩
    dsimp only
    rw [toBody_descendant?_modifyAt (f := Node.mapSprite f) fun _ => rfl,
      if_neg (ne_of_findNamed? hfound hthumb (by decide))]

theorem progressBar_retouches (scope : ImportScope ω) (e : Element) (n : Node) :
    (progressBar scope e n).Makes (Dressed "ProgressBar" scope.isTemplate n) := by
  refine attach_dressed scope (.of_becomes ?_ ?_) List.mem_cons_self
  · refine .modifyFound rfl (becomes_thumb rfl fun way hway _ _ => .thumb _ rfl hway)
      (fun _ => rfl) (fun way hway => (labelDisplay_of_thumb rfl hway).2) fun way hway d => ?_
    obtain hsame | hchanged := d.mapLabel_cases _
    · rw [hsame]
      exact .left way d.toBody
    · exact .labelDisplay _ rfl (labelDisplay_of_thumb rfl hway).1 hchanged
  · refine (toBody_modifyFound _ _ fun _ => ne_nil_of_findNamed?).trans ?_
    exact toBody_modifyFound n _ fun _ => ne_nil_of_findNamed?

theorem image_retouches (scope : ImportScope ω) (e : Element) (n : Node) :
    (image scope e n).Makes (Retouches "Image" scope.isTemplate n) := by
  have hattach : ∀ (size : Size) (s : Sprite), (scope.attach { n with size } (.sprite s)).Makes
      (Retouches "Image" scope.isTemplate n) := by
    intro size s
    refine (Makes.attached_eq scope _ _).imp fun made hmade => ?_
    obtain ⟨bs, hattached, hothers⟩ :=
      Node.exists_attached { n with size } (b := .sprite s) [.sprite] List.mem_cons_self
    rw [hmade, hattached]
    refine .of_becomes (fun way => ?_) (by simp)
    cases way with
    | nil => exact .some (.image rfl hothers)
    | cons i way => exact Becomes.refl Retouched.left n (i :: way)
  unfold image
  refine .last fun sprite => ?_
  dsimp only
  split
  · exact .last fun _ => .last fun _ => hattach _ _
  · exact .last fun _ => .last fun _ => hattach _ _

theorem becomes_hidden (n : Node) : n.Becomes (Retouched "TextInput" true n)
    { n with children := n.children.map fun c => { c with active := false } } := by
  intro way
  cases way with
  | nil => exact .some (.left [] n.toBody)
  | cons i way =>
    rw [descendant?_cons, descendant?_cons]
    dsimp only
    rw [List.getElem?_map]
    cases n.children[i]? with
    | none => exact .none
    | some c =>
      cases way with
      | nil => exact .some (.hidden rfl rfl)
      | cons k way => exact Retouched.rel _ _ _ _ _

theorem textInput_retouches (scope : ImportScope ω) (e : Element) (n : Node) :
    (textInput scope e n).Makes (Retouches "TextInput" scope.isTemplate n) := by
  unfold textInput
  cases htemplate : scope.isTemplate with
  | true =>
    have hhidden : Dressed "TextInput" true n
        { n with children := putAside true n.children } := .of_becomes (becomes_hidden n) rfl
    exact (attach_dressed scope hhidden List.mem_cons_self).imp fun _ hmade =>
      hmade.retouches fun _ => rfl
  | false =>
    refine (Makes.attached_eq scope _ _).imp fun made hmade => ?_
    obtain ⟨bs, hattached, hothers⟩ :=
      Node.exists_attached { n with children := putAside false n.children }
        (b := .editBox (editBoxOf e n)) (attachedKinds "TextInput") List.mem_cons_self
    rw [hmade, hattached]
    have hkept : ¬("TextInput" = "TextInput" → false = true) := fun h => nomatch h rfl
    refine ⟨fun h => absurd h hkept, fun _ _ => ⟨rfl, .own hothers⟩, fun {way d'} hd' => ?_⟩
    cases way with
    | nil =>
      obtain rfl := Option.some.inj hd'
      exact ⟨n, rfl, rfl⟩
    | cons i way =>
      rw [descendant?_cons] at hd'
      cases hd'

end Widget

/-- An import does to a tree what its widget is bound to, and nothing else. -/
theorem Registry.importAs_retouches (widget : String) (scope : ImportScope ω) (e : Element)
    (n : Node) (s : Surroundings ω) :
    Node.Retouches widget scope.isTemplate n ((builtIn.importAs widget scope e n) s).1 := by
  have hsame : n.Becomes (Node.Retouched widget scope.isTemplate n) n :=
    .refl Node.Retouched.left n
  unfold importAs
  cases hi : (builtIn : Registry ω).importer? widget with
  | none =>
    refine .of_becomes hsame ?_
    rintro rfl
    cases hi
  | some i =>
    have hmem : (widget, i) ∈ builtInImporters := mem_of_importer? hi
    simp only [builtInImporters, List.mem_cons, Prod.mk.injEq, List.not_mem_nil, or_false] at hmem
    rcases hmem with ⟨rfl, rfl⟩ | ⟨rfl, rfl⟩ | ⟨rfl, rfl⟩ | ⟨rfl, rfl⟩ | ⟨rfl, rfl⟩ | ⟨rfl, rfl⟩ |
      ⟨rfl, rfl⟩ | ⟨rfl, rfl⟩ | ⟨rfl, rfl⟩ | ⟨rfl, rfl⟩
    · exact Widget.image_retouches scope e n s
    · exact (Widget.label_retouches (.inl rfl) scope e n s).retouches
        (absurd · (by decide))
    · exact (Widget.label_retouches (.inr rfl) scope e n s).retouches
        (absurd · (by decide))
    · exact (Widget.bitmapLabel_retouches scope e n s).retouches
        (absurd · (by decide))
    · exact (Widget.scrollBar_retouches (.inl rfl) _ scope e n s).retouches
        (absurd · (by decide))
    · exact (Widget.scrollBar_retouches (.inr rfl) _ scope e n s).retouches
        (absurd · (by decide))
    · exact (Widget.scroller_retouches scope e n s).retouches
        (absurd · (by decide))
    · exact (Widget.progressBar_retouches scope e n s).retouches
        (absurd · (by decide))
    · exact Widget.textInput_retouches scope e n s
    · exact .of_becomes hsame (absurd · (by decide))

end MarkupScene
