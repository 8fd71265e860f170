import MarkupScene.Compile.Session

/-!
# Building nodes

A node is built from an element in four steps: it starts plain or as a copy of a skin, is laid out,
takes in the nodes of its children, and is given the meaning of its widget. The children come from
a `skinName` block when the element has one, and from the element itself otherwise. How a skin is
copied, and with it how nodes start, is left open here.
-/
namespace MarkupScene

namespace Element

/-- A node is named by its `id`, or else by the local name of its element. -/
def nodeName (e : Element) : String := (e.attribute? "id").getD e.localName

/-- The children of the first element in the first `skinName` block. -/
def inlineSkin? (e : Element) : Option (List Element) :=
  (e.child? "skinName").map fun block =>
    match block.children with
    | [] => []
    | skin :: _ => skin.children

/-- The elements that can become children of the node. -/
def candidates (e : Element) : List Element := e.inlineSkin?.getD e.children

theorem sizeOf_candidates (e : Element) : sizeOf e.candidates < sizeOf e := by
  have hchildren := e.sizeOf_children
  unfold candidates inlineSkin?
  cases hblock : e.child? "skinName" with
  | none => simpa using hchildren
  | some block =>
    have hblock' := sizeOf_child? hblock
    have hskins := block.sizeOf_children
    simp only [Option.map_some, Option.getD_some]
    split
    · simp only [List.nil.sizeOf_spec]
      omega
    · next skin rest hskin =>
      have hskin' := skin.sizeOf_children
      rw [hskin, List.cons.sizeOf_spec] at hskins
      omega

end Element

/-- The files that hold skins. -/
abbrev SkinTable.File (t : SkinTable) := { p : Path // p ∈ t.paths }

namespace SkinTable

/-- The file of a key. -/
def file? (t : SkinTable) (key : String) : Option t.File :=
  match h : t.get? key with
  | some p => some ⟨p, mem_paths_of_get? h⟩
  | none => none

/-- The skin of an element: the `skinName` attribute is tried as a key before the element's own
key. -/
def fileFor? (t : SkinTable) (e : Element) : Option t.File :=
  (e.attribute? "skinName").bind t.file? <|> t.file? e.skinKey

end SkinTable

/-- The widget of an element. The root of a skin file has the widget of its key instead. -/
def widgetFor (e : Element) (override : Option String) : Option String :=
  match override with
  | some widget => some widget
  | none => if e.skinKey.isEmpty then none else some (Skin.widgetOf e.skinKey)

namespace Setting
variable {ω : Type}

/-- How a copy of a skin under a given name is made. -/
abbrev Instantiate (setting : Setting ω) := setting.skins.File → String → Run ω Node

/-- How the node of an element starts, given the widget that takes the place of the element's. -/
abbrev Starting (ω : Type) := Element → Option String → Run ω Node

/-- The node that an element starts from. -/
def startNode (setting : Setting ω) (instantiate : setting.Instantiate) (e : Element)
    (override : Option String) : Run ω Node :=
  if override.isSome || e.inlineSkin?.isSome then pure { name := e.nodeName }
  else
    match setting.skins.fileFor? e with
    | some file => instantiate file e.nodeName
    | none => pure { name := e.nodeName }

/-- Whether a child element becomes a node under a widget. -/
def acceptsUnder (setting : Setting ω) (widget : Option String) (child : Element) : Bool :=
  match widget with
  | some w => setting.registry.accepts w child
  | none => true

/-- The node with the meaning of its widget. -/
def importNode (setting : Setting ω) (source : Path) (e : Element) (override widget : Option String)
    (n : Node) : Run ω Node :=
  match widget with
  | some w =>
    let scope : ImportScope ω :=
      { assets := setting.assets, locator := setting.locator, source,
        isTemplate := override.isSome }
    Run.importing (setting.registry.importAs w scope e n)
  | none => pure n

mutual

/-- The node of an element in a parent of the given size. -/
def build (setting : Setting ω) (start : Starting ω) (source : Path) (e : Element)
    (override : Option String) (parent : Option Size) : Run ω Node := do
  let fresh ← start e override
  let placed := fresh.arrange setting.options.yAxis (.ofElement e) parent
  let widget := widgetFor e override
  let children ← buildAll setting start source widget placed.size e.candidates
  setting.importNode source e override widget
    { placed with widget, children := placed.children ++ children }
termination_by sizeOf e
decreasing_by exact e.sizeOf_candidates

/-- The nodes of those elements that a widget accepts. -/
def buildAll (setting : Setting ω) (start : Starting ω) (source : Path)
    (widget : Option String) (size : Size) : List Element → Run ω (List Node)
  | [] => pure []
  | c :: rest => do
    let first ←
      if setting.acceptsUnder widget c then
        List.singleton <$> build setting start source c none (some size)
      else pure []
    let others ← buildAll setting start source widget size rest
    return first ++ others
termination_by cs => sizeOf cs

end

end Setting

end MarkupScene
