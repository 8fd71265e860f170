import MarkupScene.Proofs.ImporterFrames
import MarkupScene.Proofs.TreeInvariants

/-!
# What imports leave of a node

An importer may give the node itself another size and other behaviors, the size only as long as the
element declares none. Everything else that layout has decided about the node stays. The main
statements say where a grown node is and how large a share of its parent it takes.
-/
namespace MarkupScene

open Numeric

variable {ω : Type}

namespace Node
variable {n m : Node}

theorem toBody_modifyAt {f : Node → Node} {way : List Nat} (h : way ≠ []) (n : Node) :
    (n.modifyAt f way).toBody = n.toBody := by
  cases way with
  | nil => exact absurd rfl h
  | cons i way =>
    rw [modifyAt]
    split <;> rfl

/-- What an import leaves of a node. -/
structure Imported (e : Element) (n made : Node) : Prop where
  body : made.toBody = { n.toBody with size := made.size, behaviors := made.behaviors }
  size : e.declaresSize = true → made.size = n.size

theorem Imported.refl (e : Element) (n : Node) : Imported e n n := ⟨rfl, fun _ => rfl⟩

theorem Imported.of_toBody {e : Element} {k made : Node} (hk : k.toBody = n.toBody)
    {bs : List Behavior} (hmade : made = { k with behaviors := bs }) : Imported e n made := by
  obtain ⟨body, children⟩ := k
  obtain rfl : body = n.toBody := hk
  subst hmade
  exact ⟨rfl, fun _ => rfl⟩

/-- A node with another renderer and none of a kind. -/
structure Refuses (n : Node) (kind : Behavior.Kind) : Prop where
  renderer : kind.isRenderer = true
  absent : ∀ a ∈ n.behaviors, a.kind ≠ kind
  present : ∃ a ∈ n.behaviors, a.kind.isRenderer = true

theorem Refuses.attach {b : Behavior} (h : n.Refuses b.kind) :
    ∃ conflict, n.attach b = .error conflict := by
  obtain ⟨other, hother, hrenderer⟩ := h.present
  have habsent : ¬(n.behaviors.any fun a => a.kind = b.kind) = true := by simpa using h.absent
  unfold Node.attach
  rw [if_neg habsent]
  cases hfound : (n.behaviors.map Behavior.kind).find? (·.isRenderer) with
  | some existing => exact ⟨⟨existing, b.kind⟩, if_pos h.renderer⟩
  | none =>
    rw [List.find?_eq_none] at hfound
    exact absurd hrenderer (hfound _ (List.mem_map_of_mem hother))

theorem refuses_of_attach {b : Behavior} {conflict : Conflict}
    (h : n.attach b = .error conflict) : n.Refuses b.kind := by
  unfold Node.attach at h
  split at h
  · cases h
  · next habsent =>
    dsimp only at h
    split at h
    · next existing hfound =>
      obtain ⟨other, hother, rfl⟩ := List.mem_map.1 (List.mem_of_find?_eq_some hfound)
      split at h
      · next hrenderer =>
        exact ⟨hrenderer, by simpa using habsent, other, hother, List.find?_some hfound⟩
      · cases h
    · cases h

end Node

namespace Importing.Makes

/-- Attaching changes nothing but the behaviors and takes no kind away; anything but a renderer is
attached for sure. -/
theorem attached (scope : ImportScope ω) (n : Node) (b : Behavior) :
    Makes (scope.attach n b) fun made => ∃ bs, made = { n with behaviors := bs } ∧
      n.behaviors.map Behavior.kind ⊆ bs.map Behavior.kind ∧
        (b.kind.isRenderer = false → b.kind ∈ bs.map Behavior.kind) := by
  unfold ImportScope.attach
  cases hm : n.attach b with
  | ok m =>
    obtain ⟨bs, rfl, -, hkinds, hkind⟩ := Node.attach_ok hm
    exact pure ⟨bs, rfl, hkinds, fun _ => hkind⟩
  | error conflict =>
    have hrenderer := (Node.refuses_of_attach hm).renderer
    refine last fun _ => pure ⟨n.behaviors, by cases n; rfl, List.Subset.refl _, fun h => ?_⟩
    rw [hrenderer] at h
    cases h

end Importing.Makes

def Importer.KeepsBody (i : Importer ω) : Prop :=
  ∀ scope e n, (i scope e n).Makes (Node.Imported e n)

namespace Widget

open Importing

/-- What was found is below the node, so that changing it leaves the node itself alone. -/
theorem toBody_modifyFound (n : Node) (f : Node → Node) {found : Option (List Nat)}
    (h : ∀ way, found = some way → way ≠ []) :
    (match found with
      | some way => n.modifyAt f way
      | none => n).toBody = n.toBody := by
  cases found with
  | none => rfl
  | some way => exact Node.toBody_modifyAt (h way rfl) n

theorem ne_nil_of_findNamed? {n : Node} {name : String} {way : List Nat}
    (h : n.findNamed? name = some way) : way ≠ [] :=
  (Node.descendant?_of_find? h).1

theorem find?_of_viewport? {n : Node} {way : List Nat} (h : viewport? n = some way) :
    n.findNamed? "viewport" = some way ∨ n.find? isContainer = some way := by
  unfold viewport? at h
  cases hnamed : n.findNamed? "viewport" with
  | some other =>
    rw [hnamed] at h
    exact .inl h
  | none =>
    rw [hnamed] at h
    exact .inr h

theorem ne_nil_of_viewport? {n : Node} {way : List Nat} (h : viewport? n = some way) :
    way ≠ [] := by
  rcases find?_of_viewport? h with h | h
  · exact ne_nil_of_findNamed? h
  · exact (Node.descendant?_of_find? h).1

theorem attach_keepsBody (scope : ImportScope ω) {e : Element} {n k : Node} (b : Behavior)
    (hk : k.toBody = n.toBody) : (scope.attach k b).Makes (Node.Imported e n) :=
  (Makes.attached scope k b).imp fun _ ⟨_, hmade, _⟩ => .of_toBody hk hmade

/-- An image changes the size, when none is declared, and the behaviors. -/
theorem image_made (scope : ImportScope ω) (e : Element) (n : Node) :
    (image scope e n).Makes fun made => ∃ size bs, made = { n with size, behaviors := bs } ∧
      (e.declaresSize = true → size = n.size) ∧
        n.behaviors.map Behavior.kind ⊆ bs.map Behavior.kind := by
  have hattach : ∀ (size : Size) (s : Sprite), (e.declaresSize = true → size = n.size) →
      (scope.attach { n with size } (.sprite s)).Makes fun made =>
        ∃ size bs, made = { n with size, behaviors := bs } ∧
          (e.declaresSize = true → size = n.size) ∧
            n.behaviors.map Behavior.kind ⊆ bs.map Behavior.kind := fun size s hsize =>
    (Makes.attached scope { n with size } (.sprite s)).imp fun _ ⟨bs, hmade, hkinds, _⟩ =>
      ⟨size, bs, hmade, hsize, hkinds⟩
  unfold image
  refine .last fun sprite => ?_
  dsimp only
  split
  · refine .bind (q := fun size => size = n.size) (.pure rfl) fun size hsize => ?_
    exact .last fun _ => hattach size _ fun _ => hsize
  · next hdeclared =>
    exact .last fun size => .last fun _ => hattach size _ fun h => absurd h hdeclared

theorem image_keepsBody : (image : Importer ω).KeepsBody := by
  intro scope e n
  refine (image_made scope e n).imp fun made ⟨size, bs, hmade, hsize, _⟩ => ?_
  subst hmade
  exact ⟨rfl, hsize⟩

theorem label_keepsBody : (label : Importer ω).KeepsBody :=
  fun scope _ _ => attach_keepsBody scope _ rfl

theorem bitmapLabel_keepsBody : (bitmapLabel : Importer ω).KeepsBody := by
  intro scope e n
  refine .last fun font => ?_
  cases font with
  | some font => exact .last fun _ => attach_keepsBody scope _ rfl
  | none => exact attach_keepsBody scope _ rfl

theorem scrollBar_keepsBody (direction : Axis) : (scrollBar direction : Importer ω).KeepsBody :=
  fun scope _ n => attach_keepsBody scope _
    (toBody_modifyFound n stretchSprite fun _ => ne_nil_of_findNamed?)

theorem scroller_keepsBody : (scroller : Importer ω).KeepsBody := by
  intro scope e n
  unfold scroller
  dsimp only
  have hfilled := toBody_modifyFound n (fun c => { c with size := fillSize n.size c.size })
    fun _ => ne_nil_of_viewport? (n := n)
  refine .bind (Makes.attached scope _ _) fun k ⟨bs, hk, _⟩ => ?_
  refine (Makes.attached scope k _).imp fun made ⟨cs, hmade, _⟩ => ?_
  subst hk
  exact .of_toBody hfilled hmade

theorem progressBar_keepsBody : (progressBar : Importer ω).KeepsBody := by
  intro scope e n
  have hfilled : ∀ fill, (match n.findNamed? "thumb" with
      | some way => n.modifyAt (fillSprite fill) way
      | none => n).toBody = n.toBody := fun fill =>
    toBody_modifyFound n (fillSprite fill) fun _ => ne_nil_of_findNamed?
  refine attach_keepsBody scope _ ?_
  exact (toBody_modifyFound _ _ fun _ => ne_nil_of_findNamed?).trans (hfilled _)

theorem textInput_keepsBody : (textInput : Importer ω).KeepsBody :=
  fun scope _ _ => attach_keepsBody scope _ rfl

end Widget

theorem Registry.OnlyBuiltIn.keepsBody {r : Registry ω} (hr : r.OnlyBuiltIn) {w : String}
    {i : Importer ω} (h : r.importer? w = some i) : i.KeepsBody := by
  obtain ⟨entry, hentry, rfl⟩ := hr w i h
  exact builtIn_cases Widget.image_keepsBody Widget.label_keepsBody Widget.bitmapLabel_keepsBody
    Widget.scrollBar_keepsBody Widget.scroller_keepsBody Widget.progressBar_keepsBody
    Widget.textInput_keepsBody (fun _ e n => .pure (.refl e n)) hentry

def Size.along (s : Size) : Axis → Single
  | .horizontal => s.width
  | .vertical => s.height

/-- The share of the parent's side that a side of the node was given as. -/
def Node.fraction? (n : Node) : Axis → Option Single
  | .horizontal => n.widthPercent
  | .vertical => n.heightPercent

def Placement.fraction? (p : Placement) : Axis → Option Single
  | .horizontal => p.widthFraction?
  | .vertical => p.heightFraction?

theorem Element.declaresSize_of_fraction? {e : Element} {axis : Axis} {f : Single}
    (h : (Placement.ofElement e).fraction? axis = some f) : e.declaresSize = true := by
  have hfilled : ∀ names : List String,
      ((e.firstFilled? names).bind Length.parse?).bind Length.fraction? = some f →
        (e.firstFilled? names).isSome = true := by
    intro names hnames
    obtain ⟨length, hlength, -⟩ := Option.bind_eq_some_iff.1 hnames
    obtain ⟨text, htext, -⟩ := Option.bind_eq_some_iff.1 hlength
    simp [htext]
  unfold declaresSize
  cases axis with
  | horizontal => simp [hfilled widthNames h]
  | vertical => simp [hfilled heightNames h]

theorem Placement.dimension_of_fraction {declared : Option Length} {f : Single}
    (h : declared.bind Length.fraction? = some f) (outer : Single) (inherits : Bool)
    (own : Single) : dimension declared outer inherits own = f * outer := by
  obtain ⟨length, rfl, hlength⟩ := Option.bind_eq_some_iff.1 h
  cases length with
  | points x => cases hlength
  | percent g =>
    obtain rfl := Option.some.inj hlength
    rfl

theorem Node.along_arrange {n : Node} {p : Placement} {axis : Axis} {f : Single}
    (h : p.fraction? axis = some f) (yAxis : YAxis) (parent : Option Size) :
    (n.arrange yAxis p parent).size.along axis = f * (parent.getD {}).along axis := by
  cases axis with
  | horizontal => exact Placement.dimension_of_fraction h _ _ _
  | vertical => exact Placement.dimension_of_fraction h _ _ _

namespace Setting
variable {setting : Setting ω}

theorem importNode_keepsBody (hregistry : setting.registry.OnlyBuiltIn) {source : Path}
    {e : Element} {override widget : Option String} {n made : Node} {s t : Session ω}
    (hmade : (setting.importNode source e override widget n).run s = (.ok made, t)) :
    Node.Imported e n made := by
  apply importNode_induction hmade
  · exact .refl e n
  · intro w i scope around _ hi
    exact hregistry.keepsBody hi scope e n around

theorem Grown.along_of_fraction (hregistry : setting.registry.OnlyBuiltIn)
    {begins : Element → Option String → Node → Prop} {source : Path} {e : Element}
    {override : Option String} {parent : Option Size} {n : Node}
    (hn : setting.Grown begins source e override parent n) {axis : Axis} {f : Single}
    (hf : n.fraction? axis = some f) : n.size.along axis = f * (parent.getD {}).along axis := by
  cases hn with
  | @node _ _ _ fresh _ kids _ _ _ _ _ himported =>
    have himport := importNode_keepsBody hregistry himported
    have hplacement : (Placement.ofElement e).fraction? axis = some f := by
      rw [← hf]
      cases axis with
      | horizontal => exact (congrArg Body.widthPercent himport.body).symm
      | vertical => exact (congrArg Body.heightPercent himport.body).symm
    rw [himport.size (Element.declaresSize_of_fraction? hplacement)]
    exact Node.along_arrange hplacement setting.options.yAxis parent

end Setting

end MarkupScene
