import MarkupScene.Scene.Behavior

/-!
# Nodes

A scene is a tree of nodes. What a node is on its own, everything but its children, is its
`Body`. The origin of a node is its top left corner, which is (0, 1) with the vertical axis
upwards. Attaching a behavior replaces the one of its kind; a second renderer is refused.
-/
namespace MarkupScene

open Numeric

/-- How a node follows its parent when the parent is resized. -/
structure Constraint where
  alignLeft : Bool := false
  alignRight : Bool := false
  alignTop : Bool := false
  alignBottom : Bool := false
  alignHorizontalCenter : Bool := false
  alignVerticalCenter : Bool := false
  left : Single := 0
  right : Single := 0
  top : Single := 0
  bottom : Single := 0
deriving DecidableEq, Repr

/-- The corner that a position refers to. -/
def topLeft : Point := ⟨0, 1⟩

structure Body where
  name : String
  widget : Option String := none
  size : Size := {}
  anchor : Point := topLeft
  position : Point := {}
  rotation : Single := 0
  scaleX : Single := 1
  scaleY : Single := 1
  opacity : UInt8 := 255
  active : Bool := true
  /-- The fraction of the parent's width that the width was given as. -/
  widthPercent : Option Single := none
  heightPercent : Option Single := none
  /-- The prefab that the node was copied from. -/
  skin : Option PrefabRef := none
  constraint : Option Constraint := none
  behaviors : List Behavior := []
deriving DecidableEq, Repr

structure Node extends Body where
  children : List Node := []

namespace Node

instance : Inhabited Node := ⟨{ name := "" }⟩

mutual

def decideEq : (a b : Node) → Decidable (a = b)
  | ⟨body, children⟩, ⟨body', children'⟩ =>
    if h : body = body' then
      match decideAllEq children children' with
      | isTrue h' => isTrue (by rw [h, h'])
      | isFalse h' => isFalse fun e => h' (by cases e; rfl)
    else isFalse fun e => h (by cases e; rfl)

def decideAllEq : (as bs : List Node) → Decidable (as = bs)
  | [], [] => isTrue rfl
  | [], _ :: _ => isFalse nofun
  | _ :: _, [] => isFalse nofun
  | a :: as, b :: bs =>
    match decideEq a b, decideAllEq as bs with
    | isTrue h, isTrue h' => isTrue (by rw [h, h'])
    | isFalse h, _ => isFalse fun e => h (by cases e; rfl)
    | _, isFalse h => isFalse fun e => h (by cases e; rfl)

end

instance : DecidableEq Node := decideEq

def addChild (n c : Node) : Node := { n with children := n.children ++ [c] }

def isSkinInstance (n : Node) : Bool := n.skin.isSome

/-- A renderer met another renderer. -/
structure Conflict where
  existing : Behavior.Kind
  rejected : Behavior.Kind
deriving DecidableEq, Repr

/-- The behaviors with the first one of a kind replaced. -/
def replaceKind (b : Behavior) : List Behavior → List Behavior
  | [] => []
  | a :: rest => if a.kind = b.kind then b :: rest else a :: replaceKind b rest

def attach (n : Node) (b : Behavior) : Except Conflict Node :=
  if n.behaviors.any fun a => a.kind = b.kind then
    .ok { n with behaviors := replaceKind b n.behaviors }
  else
    let renderer? := (n.behaviors.map (·.kind)).find? (·.isRenderer)
    match renderer? with
    | some existing =>
      if b.kind.isRenderer then .error ⟨existing, b.kind⟩
      else .ok { n with behaviors := n.behaviors ++ [b] }
    | none => .ok { n with behaviors := n.behaviors ++ [b] }

def has (n : Node) (kind : Behavior.Kind) : Bool := n.behaviors.any fun a => a.kind = kind

def sprite? (n : Node) : Option Sprite := n.behaviors.findSome? (·.sprite?)

def label? (n : Node) : Option Label := n.behaviors.findSome? (·.label?)

def editBox? (n : Node) : Option EditBox := n.behaviors.findSome? (·.editBox?)

/-- The behaviors with the first sprite changed. -/
def changeFirstSprite (f : Sprite → Sprite) : List Behavior → List Behavior
  | [] => []
  | .sprite s :: rest => .sprite (f s) :: rest
  | b :: rest => b :: changeFirstSprite f rest

def mapSprite (f : Sprite → Sprite) (n : Node) : Node :=
  { n with behaviors := changeFirstSprite f n.behaviors }

/-- The behaviors with the first label changed. -/
def changeFirstLabel (f : Label → Label) : List Behavior → List Behavior
  | [] => []
  | .label l :: rest => .label (f l) :: rest
  | b :: rest => b :: changeFirstLabel f rest

def mapLabel (f : Label → Label) (n : Node) : Node :=
  { n with behaviors := changeFirstLabel f n.behaviors }

mutual

/-- The number of nodes below a node. -/
def descendantCount : Node → Nat
  | ⟨_, children⟩ => countAll children

def countAll : List Node → Nat
  | [] => 0
  | c :: rest => 1 + descendantCount c + countAll rest

end

end Node

end MarkupScene
