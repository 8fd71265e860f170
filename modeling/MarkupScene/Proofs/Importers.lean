import MarkupScene.Compile.Session
import Mathlib.Data.List.Forall2

/-!
# Importers of widgets

What the built-in importers have in common. They report missing assets and refused behaviors only,
never a file that could not be read. And as long as the locator always gives the same answers, the
node that they make depends on nothing but the element and the node that they are given.
-/
namespace MarkupScene

variable {ω ω' α β : Type}

/-- The number of parse failures of a file among diagnostics, under whatever spelling. -/
def parseFailures (ds : List Diagnostic) (path : Path) : Nat :=
  ds.countP fun d => d.kind = .parseFailure ∧ d.file.normalize = path

theorem parseFailures_append (ds es : List Diagnostic) (path : Path) :
    parseFailures (ds ++ es) path = parseFailures ds path + parseFailures es path :=
  List.countP_append

/-- The parse failures among diagnostics. -/
def failuresOf (ds : List Diagnostic) : List Diagnostic :=
  ds.filter fun d => d.kind = .parseFailure

theorem failuresOf_append (ds es : List Diagnostic) :
    failuresOf (ds ++ es) = failuresOf ds ++ failuresOf es :=
  List.filter_append ..

theorem parseFailures_eq (ds : List Diagnostic) (path : Path) :
    parseFailures ds path = (failuresOf ds).countP fun d => d.file.normalize = path := by
  unfold parseFailures failuresOf
  rw [List.countP_filter]
  refine congrArg (List.countP · ds) (funext fun d => ?_)
  rw [Bool.decide_and, Bool.and_comm]

/-- What the locator is asked for depends on the question alone. -/
structure Locator.Constant (l : Locator ω) : Prop where
  resolve (path : String) (frame : Option String) (w w' : ω) :
    (l.resolve path frame w).1 = (l.resolve path frame w').1
  textureSize (asset : AssetRef) (w w' : ω) :
    (l.textureSize asset w).1 = (l.textureSize asset w').1
  loadFont (asset : AssetRef) (w w' : ω) : (l.loadFont asset w).1 = (l.loadFont asset w').1

namespace Importing

/-- An action that reports no parse failure. -/
def Quiet (m : Importing ω α) : Prop :=
  ∀ s path, parseFailures (m s).2.diagnostics path = parseFailures s.diagnostics path

/-- An action that leaves the parse failures as they are. -/
def KeepsFailures (m : Importing ω α) : Prop :=
  ∀ s, failuresOf (m s).2.diagnostics = failuresOf s.diagnostics

/-- An action with the same result everywhere. -/
def Constant (m : Importing ω α) : Prop := ∀ s s', (m s).1 = (m s').1

theorem bind_apply (m : Importing ω α) (f : α → Importing ω β) (s : Surroundings ω) :
    (m >>= f) s = f (m s).1 (m s).2 := rfl

theorem KeepsFailures.quiet {m : Importing ω α} (h : KeepsFailures m) : Quiet m := by
  intro s path
  rw [parseFailures_eq, parseFailures_eq, h s]

/-- A property of actions that the built-in importers are made of: steps in a row, questions to the
locator, and reports of anything but a file that cannot be read. -/
structure Closed (scope : ImportScope ω) (P : (α : Type) → Importing ω α → Prop) : Prop where
  pure {α : Type} (a : α) : P α (Pure.pure a)
  bind {α β : Type} {m : Importing ω α} {f : α → Importing ω β} :
    P α m → (∀ a, P β (f a)) → P β (m >>= f)
  locate (path : String) (frame : Option String) :
    P (Option AssetRef) (ImportScope.ask (scope.locator.resolve path frame))
  textureSize (asset : AssetRef) :
    P (Option Size) (ImportScope.ask (scope.locator.textureSize asset))
  loadFont (asset : AssetRef) :
    P (Except Failure FontMetrics) (ImportScope.ask (scope.locator.loadFont asset))
  /-- What comes of writing a border is not looked at. -/
  setBorder (asset : AssetRef) (grid : Rect) :
    P Unit (do let _ ← ImportScope.ask (scope.locator.setBorder asset grid))
  report {kind : DiagnosticKind} (message : String) (h : kind ≠ .parseFailure) :
    P Unit (scope.report kind message)

theorem keepsFailures_closed (scope : ImportScope ω) :
    Closed scope fun _ m => m.KeepsFailures where
  pure _ _ := rfl
  bind hm hf s := by rw [bind_apply, hf, hm]
  locate _ _ _ := rfl
  textureSize _ _ := rfl
  loadFont _ _ := rfl
  setBorder _ _ _ := rfl
  report {kind} message h s := by
    have hnone : failuresOf [⟨kind, scope.source, message⟩] = [] := by
      simp [failuresOf, h]
    change failuresOf (s.diagnostics ++ [_]) = _
    rw [failuresOf_append, hnone, List.append_nil]

theorem constant_closed {scope : ImportScope ω} (h : scope.locator.Constant) :
    Closed scope fun _ m => m.Constant where
  pure _ _ _ := rfl
  bind hm hf s s' := by
    rw [bind_apply, bind_apply, hm s s']
    exact hf _ _ _
  locate path frame s s' := h.resolve path frame s.world s'.world
  textureSize asset s s' := h.textureSize asset s.world s'.world
  loadFont asset s s' := h.loadFont asset s.world s'.world
  setBorder _ _ _ _ := rfl
  report _ _ _ _ := rfl

/-- A relation between actions, perhaps on different outsides, that holds of what the built-in
importers are made of in two scopes with the same assets. -/
structure Paired (scope : ImportScope ω) (scope' : ImportScope ω')
    (P : (α : Type) → Importing ω α → Importing ω' α → Prop) : Prop where
  assets : scope'.assets = scope.assets
  isTemplate : scope'.isTemplate = scope.isTemplate
  pure {α : Type} (a : α) : P α (Pure.pure a) (Pure.pure a)
  bind {α β : Type} {m : Importing ω α} {m' : Importing ω' α} {f : α → Importing ω β}
    {f' : α → Importing ω' β} : P α m m' → (∀ a, P β (f a) (f' a)) → P β (m >>= f) (m' >>= f')
  locate (path : String) (frame : Option String) : P (Option AssetRef)
    (ImportScope.ask (scope.locator.resolve path frame))
    (ImportScope.ask (scope'.locator.resolve path frame))
  textureSize (asset : AssetRef) : P (Option Size)
    (ImportScope.ask (scope.locator.textureSize asset))
    (ImportScope.ask (scope'.locator.textureSize asset))
  loadFont (asset : AssetRef) : P (Except Failure FontMetrics)
    (ImportScope.ask (scope.locator.loadFont asset))
    (ImportScope.ask (scope'.locator.loadFont asset))
  setBorder (asset : AssetRef) (grid : Rect) : P Unit
    (do let _ ← ImportScope.ask (scope.locator.setBorder asset grid))
    (do let _ ← ImportScope.ask (scope'.locator.setBorder asset grid))
  report {kind : DiagnosticKind} (message : String) (h : kind ≠ .parseFailure) :
    P Unit (scope.report kind message) (scope'.report kind message)

theorem Closed.paired {scope : ImportScope ω} {P : (α : Type) → Importing ω α → Prop}
    (h : Closed scope P) : Paired scope scope fun α m _ => P α m where
  assets := rfl
  isTemplate := rfl
  pure := h.pure
  bind := h.bind
  locate := h.locate
  textureSize := h.textureSize
  loadFont := h.loadFont
  setBorder := h.setBorder
  report := h.report

namespace Paired
variable {scope : ImportScope ω} {scope' : ImportScope ω'}
  {P : (α : Type) → Importing ω α → Importing ω' α → Prop}

theorem resolve (h : Paired scope scope' P) (name : String) :
    P _ (scope.resolve name) (scope'.resolve name) := by
  have hfound : ∀ found : Option AssetRef, P _
      (if found.isNone then do
        scope.report .unresolvedResource ("resource '" ++ name ++ "' not found")
        return found
      else return found)
      (if found.isNone then do
        scope'.report .unresolvedResource ("resource '" ++ name ++ "' not found")
        return found
      else return found) := by
    intro found
    cases found with
    | none => exact h.bind (h.report _ (by decide)) fun _ => h.pure none
    | some asset => exact h.pure (some asset)
  unfold ImportScope.resolve
  rw [h.assets]
  cases name.isEmpty with
  | true => exact h.pure none
  | false =>
    cases scope.assets.query? name with
    | none => exact h.bind (h.pure none) hfound
    | some query => exact h.bind (h.locate _ _) hfound

theorem attach (h : Paired scope scope' P) (n : Node) (b : Behavior) :
    P _ (scope.attach n b) (scope'.attach n b) := by
  unfold ImportScope.attach
  cases n.attach b with
  | ok made => exact h.pure made
  | error conflict => exact h.bind (h.report _ (by decide)) fun _ => h.pure n

theorem sourcedSprite (h : Paired scope scope' P) (e : Element) (n : Node) :
    P _ (Widget.sourcedSprite scope e n) (Widget.sourcedSprite scope' e n) := by
  unfold Widget.sourcedSprite
  cases e.filled? "source" with
  | some name => exact h.bind (h.resolve name) fun _ => h.pure _
  | none => exact h.pure _

theorem naturalSize (h : Paired scope scope' P) (sprite : Sprite) (own : Size) :
    P _ (Widget.naturalSize scope sprite own) (Widget.naturalSize scope' sprite own) := by
  unfold Widget.naturalSize
  cases sprite.frame with
  | some asset => exact h.bind (h.textureSize asset) fun _ => h.pure _
  | none => exact h.pure own

theorem writeBorder (h : Paired scope scope' P) (sprite : Sprite) (grid : Option Rect) :
    P _ (Widget.writeBorder scope sprite grid) (Widget.writeBorder scope' sprite grid) := by
  unfold Widget.writeBorder
  cases grid with
  | none => exact h.pure ()
  | some grid =>
    cases sprite.frame with
    | none => exact h.pure ()
    | some asset => exact h.setBorder asset grid

theorem image (h : Paired scope scope' P) (e : Element) (n : Node) :
    P _ (Widget.image scope e n) (Widget.image scope' e n) := by
  unfold Widget.image
  refine h.bind (h.sourcedSprite e n) fun sprite => ?_
  dsimp only
  cases e.declaresSize with
  | true =>
    exact h.bind (h.pure n.size) fun _ => h.bind (h.writeBorder sprite _) fun _ => h.attach _ _
  | false =>
    exact h.bind (h.naturalSize sprite n.size) fun _ =>
      h.bind (h.writeBorder sprite _) fun _ => h.attach _ _

theorem label (h : Paired scope scope' P) (e : Element) (n : Node) :
    P _ (Widget.label scope e n) (Widget.label scope' e n) :=
  h.attach n _

theorem withFont (h : Paired scope scope' P) (l : Label) (font : AssetRef) :
    P _ (Widget.withFont scope l font) (Widget.withFont scope' l font) := by
  refine h.bind (h.loadFont font) fun metrics => ?_
  cases metrics with
  | ok metrics => exact h.pure _
  | error failure => exact h.pure _

theorem bitmapLabel (h : Paired scope scope' P) (e : Element) (n : Node) :
    P _ (Widget.bitmapLabel scope e n) (Widget.bitmapLabel scope' e n) := by
  refine h.bind (h.resolve _) fun font => ?_
  cases font with
  | some font => exact h.bind (h.withFont _ font) fun _ => h.attach n _
  | none => exact h.attach n _

theorem scrollBar (h : Paired scope scope' P) (direction : Axis) (e : Element) (n : Node) :
    P _ (Widget.scrollBar direction scope e n) (Widget.scrollBar direction scope' e n) :=
  h.attach _ _

theorem scroller (h : Paired scope scope' P) (e : Element) (n : Node) :
    P _ (Widget.scroller scope e n) (Widget.scroller scope' e n) :=
  h.bind (h.attach _ _) fun n => h.attach n _

theorem progressBar (h : Paired scope scope' P) (e : Element) (n : Node) :
    P _ (Widget.progressBar scope e n) (Widget.progressBar scope' e n) :=
  h.attach _ _

theorem textInput (h : Paired scope scope' P) (e : Element) (n : Node) :
    P _ (Widget.textInput scope e n) (Widget.textInput scope' e n) := by
  unfold Widget.textInput
  rw [h.isTemplate]
  exact h.attach _ _

/-- The built-in importers are related one by one. -/
theorem importers (h : Paired scope scope' P) :
    List.Forall₂ (fun (entry : String × Importer ω) (entry' : String × Importer ω') =>
      entry.1 = entry'.1 ∧ ∀ e n, P _ (entry.2 scope e n) (entry'.2 scope' e n))
      Registry.builtInImporters Registry.builtInImporters := by
  unfold Registry.builtInImporters
  apply List.Forall₂.cons ⟨rfl, h.image⟩
  apply List.Forall₂.cons ⟨rfl, h.label⟩
  apply List.Forall₂.cons ⟨rfl, h.label⟩
  apply List.Forall₂.cons ⟨rfl, h.bitmapLabel⟩
  apply List.Forall₂.cons ⟨rfl, h.scrollBar .horizontal⟩
  apply List.Forall₂.cons ⟨rfl, h.scrollBar .vertical⟩
  apply List.Forall₂.cons ⟨rfl, h.scroller⟩
  apply List.Forall₂.cons ⟨rfl, h.progressBar⟩
  apply List.Forall₂.cons ⟨rfl, h.textInput⟩
  exact .cons ⟨rfl, fun _ n => h.pure n⟩ .nil

theorem importAs (h : Paired scope scope' P) (widget : String) (e : Element) (n : Node) :
    P _ ((Registry.builtIn : Registry ω).importAs widget scope e n)
      ((Registry.builtIn : Registry ω').importAs widget scope' e n) := by
  have himporters := h.importers
  unfold Registry.importAs Registry.importer? Registry.builtIn
  generalize (Registry.builtInImporters : List (String × Importer ω)) = importers at himporters ⊢
  generalize (Registry.builtInImporters : List (String × Importer ω')) = importers' at himporters ⊢
  dsimp only
  induction himporters with
  | nil => exact h.pure n
  | @cons entry entry' rest rest' hentry _ ih =>
    rw [List.lookup_cons, List.lookup_cons, ← hentry.1]
    cases widget == entry.1 with
    | true => exact hentry.2 e n
    | false => exact ih

end Paired

end Importing

namespace Importer

def Quiet (i : Importer ω) : Prop := ∀ scope e n, (i scope e n).Quiet

def KeepsFailures (i : Importer ω) : Prop := ∀ scope e n, (i scope e n).KeepsFailures

/-- The node depends on the locator's answers alone, besides what the importer is given. -/
def Determined (i : Importer ω) : Prop :=
  ∀ scope e n, scope.locator.Constant → (i scope e n).Constant

end Importer

namespace Registry

theorem mem_of_importer? {r : Registry ω} {widget : String} {i : Importer ω}
    (h : r.importer? widget = some i) : (widget, i) ∈ r.importers := by
  obtain ⟨before, after, hsplit, -⟩ := List.lookup_eq_some_iff.1 h
  rw [hsplit]
  exact List.mem_append_right _ List.mem_cons_self

/-- A property of the built-in importers is a property of each of them. -/
theorem builtIn_cases {motive : Importer ω → Prop} (image : motive Widget.image)
    (label : motive Widget.label) (bitmapLabel : motive Widget.bitmapLabel)
    (scrollBar : ∀ direction, motive (Widget.scrollBar direction))
    (scroller : motive Widget.scroller) (progressBar : motive Widget.progressBar)
    (textInput : motive Widget.textInput) (button : motive button) {entry : String × Importer ω}
    (h : entry ∈ builtInImporters) : motive entry.2 := by
  simp only [builtInImporters, List.mem_cons, List.not_mem_nil, or_false] at h
  rcases h with rfl | rfl | rfl | rfl | rfl | rfl | rfl | rfl | rfl | rfl
  · exact image
  · exact label
  · exact label
  · exact bitmapLabel
  · exact scrollBar .horizontal
  · exact scrollBar .vertical
  · exact scroller
  · exact progressBar
  · exact textInput
  · exact button

/-- A registry of built-in importers alone, under whatever names. -/
def OnlyBuiltIn (r : Registry ω) : Prop :=
  ∀ w i, r.importer? w = some i → ∃ entry ∈ builtInImporters, entry.2 = i

theorem builtIn_onlyBuiltIn : (builtIn : Registry ω).OnlyBuiltIn :=
  fun w i h => ⟨(w, i), mem_of_importer? h, rfl⟩

theorem OnlyBuiltIn.closed {r : Registry ω} (hr : r.OnlyBuiltIn) {w : String} {i : Importer ω}
    (h : r.importer? w = some i) {scope : ImportScope ω}
    {P : (α : Type) → Importing ω α → Prop} (hP : Importing.Closed scope P) (e : Element)
    (n : Node) : P _ (i scope e n) := by
  obtain ⟨entry, hentry, rfl⟩ := hr w i h
  have hpaired := hP.paired
  exact builtIn_cases (motive := fun i => P _ (i scope e n)) (hpaired.image e n) (hpaired.label e n)
    (hpaired.bitmapLabel e n) (fun direction => hpaired.scrollBar direction e n)
    (hpaired.scroller e n) (hpaired.progressBar e n) (hpaired.textInput e n) (hP.pure n) hentry

theorem OnlyBuiltIn.keepsFailures {r : Registry ω} (hr : r.OnlyBuiltIn) {w : String}
    {i : Importer ω} (h : r.importer? w = some i) : i.KeepsFailures :=
  fun scope e n => hr.closed h (Importing.keepsFailures_closed scope) e n

theorem OnlyBuiltIn.quiet {r : Registry ω} (hr : r.OnlyBuiltIn) {w : String} {i : Importer ω}
    (h : r.importer? w = some i) : i.Quiet :=
  fun scope e n => (hr.keepsFailures h scope e n).quiet

theorem OnlyBuiltIn.determined {r : Registry ω} (hr : r.OnlyBuiltIn) {w : String} {i : Importer ω}
    (h : r.importer? w = some i) : i.Determined :=
  fun _ e n hlocator => hr.closed h (Importing.constant_closed hlocator) e n

end Registry

end MarkupScene
