import MarkupScene.Proofs.Rules
import Mathlib.Data.List.Forall2

/-!
# Growth

What a built tree consists of. Building an element reaches the elements below it that become nodes,
and the node of each is grown: it starts in some way, is laid out, takes in the grown nodes of its
children and is imported. The main statement is that building grows a node, whatever is promised
about the ways in which nodes start; a grown node depends on nothing else.
-/
namespace MarkupScene.Setting

variable {ω : Type}

def lookup? (setting : Setting ω) (e : Element) (override : Option String) :
    Option setting.skins.File :=
  if override.isSome || e.inlineSkin?.isSome then none else setting.skins.fileFor? e

/-- The elements that become the children of a node. -/
def accepted (setting : Setting ω) (e : Element) (override : Option String) : List Element :=
  e.candidates.filter (setting.acceptsUnder (widgetFor e override))

/-- The node before its import, from the node that it starts as and its children. -/
def assembled (setting : Setting ω) (e : Element) (override : Option String) (parent : Option Size)
    (fresh : Node) (kids : List Node) : Node :=
  let placed := fresh.arrange setting.options.yAxis (.ofElement e) parent
  { placed with widget := widgetFor e override, children := placed.children ++ kids }

/-- The size of a node when its children are built. -/
def innerSize (setting : Setting ω) (e : Element) (parent : Option Size) (fresh : Node) : Size :=
  (fresh.arrange setting.options.yAxis (.ofElement e) parent).size

/-- The elements that become nodes when a root is built. -/
inductive Reaches (setting : Setting ω) (root : Element) (widget : Option String) :
    Element → Option String → Prop where
  | root : Reaches setting root widget root widget
  | child {e override k} : Reaches setting root widget e override →
      k ∈ setting.accepted e override → Reaches setting root widget k none

/-- The nodes that building can make of elements, given the ways in which nodes can start. -/
inductive Grown (setting : Setting ω) (begins : Element → Option String → Node → Prop)
    (source : Path) : Element → Option String → Option Size → Node → Prop where
  | node {e : Element} {override : Option String} {parent : Option Size} {fresh made : Node}
      {kids : List Node} {s t : Session ω} (start : begins e override fresh)
      (length : (setting.accepted e override).length = kids.length)
      (children : ∀ k n, (k, n) ∈ (setting.accepted e override).zip kids →
        Grown setting begins source k none (some (setting.innerSize e parent fresh)) n)
      (imported : (setting.importNode source e override (widgetFor e override)
        (setting.assembled e override parent fresh kids)).run s = (.ok made, t)) :
      Grown setting begins source e override parent made

theorem mem_zip_of_lt {α β : Type} {as : List α} {bs : List β} {i : Nat} (ha : i < as.length)
    (hb : i < bs.length) : (as[i], bs[i]) ∈ as.zip bs := by
  have h : i < (as.zip bs).length := by
    rw [List.length_zip]
    omega
  have hmem := List.getElem_mem h
  rwa [List.getElem_zip] at hmem

theorem startNode_eq (setting : Setting ω) (copy : setting.Instantiate) (e : Element)
    (override : Option String) :
    setting.startNode copy e override =
      match setting.lookup? e override with
      | some file => copy file e.nodeName
      | none => pure { name := e.nodeName } := by
  unfold startNode lookup?
  cases override.isSome || e.inlineSkin?.isSome with
  | true => rfl
  | false => rfl

namespace Grown
variable {setting : Setting ω} {begins begins' : Element → Option String → Node → Prop}
  {source : Path} {root e : Element} {widget override : Option String} {parent : Option Size}
  {n n' : Node}

theorem mono (hn : Grown setting begins source e override parent n)
    (h : ∀ e override n, begins e override n → begins' e override n) :
    Grown setting begins' source e override parent n := by
  induction hn with
  | node hstart hlength _ himported ih => exact .node (h _ _ _ hstart) hlength ih himported

theorem restrict (hn : Grown setting begins source e override parent n)
    (h : setting.Reaches root widget e override) :
    Grown setting (fun e override n => setting.Reaches root widget e override ∧
      begins e override n) source e override parent n := by
  induction hn with
  | node hstart hlength _ himported ih =>
    refine .node ⟨h, hstart⟩ hlength (fun k n hk => ?_) himported
    exact ih k n hk (h.child (List.of_mem_zip hk).1)

theorem unique (hn : Grown setting begins source e override parent n)
    (hn' : Grown setting begins' source e override parent n')
    (hstarts : ∀ e override n n', begins e override n → begins' e override n' → n = n')
    (himports : ∀ e override widget n made made' s s' t t',
      (setting.importNode source e override widget n).run s = (.ok made, t) →
        (setting.importNode source e override widget n).run s' = (.ok made', t') → made = made') :
    n = n' := by
  induction hn generalizing n' with
  | @node e override parent fresh made kids s t hstart hlength hchildren himported ih =>
    cases hn' with
    | @node _ _ _ fresh' made' kids' s' t' hstart' hlength' hchildren' himported' =>
      obtain rfl := hstarts _ _ _ _ hstart hstart'
      have hkids : kids = kids' := by
        refine List.ext_getElem (hlength.symm.trans hlength') fun i hi hi' => ?_
        have hk : i < (setting.accepted e override).length := hlength ▸ hi
        exact ih _ _ (mem_zip_of_lt hk hi) (hchildren' _ _ (mem_zip_of_lt hk hi'))
      subst hkids
      exact himports _ _ _ _ _ _ _ _ _ _ himported himported'

end Grown

theorem build_congr {setting : Setting ω} {begin begin' : Starting ω} {source : Path}
    {root : Element} {widget : Option String}
    (h : ∀ e override, setting.Reaches root widget e override →
      begin e override = begin' e override) (parent : Option Size) :
    setting.build begin source root widget parent =
      setting.build begin' source root widget parent := by
  refine Setting.build.induct setting begin source
    (fun e override parent => setting.Reaches root widget e override →
      setting.build begin source e override parent =
        setting.build begin' source e override parent)
    (fun under size es =>
      (∀ k ∈ es.filter (setting.acceptsUnder under), setting.Reaches root widget k none) →
      setting.buildAll begin source under size es = setting.buildAll begin' source under size es)
    ?_ ?_ ?_ ?_ root widget parent .root
  · intro e override parent ih he
    rw [Setting.build, Setting.build, h e override he]
    refine bind_congr fun fresh => ?_
    dsimp only
    rw [ih fresh fun k hk => he.child hk]
  · intro under size _
    rw [buildAll, buildAll]
  · intro under size k rest haccept ihrest ihk hall
    rw [List.filter_cons_of_pos haccept] at hall
    rw [buildAll, buildAll, ihk (hall k List.mem_cons_self),
      ihrest fun k hk => hall k (List.mem_cons_of_mem _ hk)]
  · intro under size k rest hreject ihrest hall
    rw [List.filter_cons_of_neg hreject] at hall
    rw [buildAll, buildAll, ihrest hall]
    simp only [hreject]
    rfl

theorem build_grown (setting : Setting ω) {begin : Starting ω} {source : Path} {c : Contract ω}
    {root : Element} {widget : Option String}
    (begins : Session ω → Element → Option String → Node → Prop)
    (hmoves : ∀ {s t e override n}, c.moves s t → begins s e override n → begins t e override n)
    (hstarts : ∀ e override, setting.Reaches root widget e override →
      Run.Meets c (fun _ => True) (begin e override) fun n s => begins s e override n)
    (himports : ∀ e override widget n,
      Run.Meets c (fun _ => True) (setting.importNode source e override widget n)
        fun _ _ => True) :
    Run.Meets c (fun _ => True) (setting.build begin source root widget none)
      fun n s => setting.Grown (begins s) source root widget none n := by
  have hgrown : ∀ {s t e override parent n}, c.moves s t →
      setting.Grown (begins s) source e override parent n →
      setting.Grown (begins t) source e override parent n := fun hmove hn =>
    hn.mono fun _ _ _ => hmoves hmove
  -- By induction on building, for a node and for a list of children at once.
  refine Setting.build.induct setting begin source
    (fun e override parent => setting.Reaches root widget e override →
      Run.Meets c (fun _ => True) (setting.build begin source e override parent)
        fun n s => setting.Grown (begins s) source e override parent n)
    (fun under size es =>
      (∀ k ∈ es.filter (setting.acceptsUnder under), setting.Reaches root widget k none) →
      Run.Meets c (fun _ => True) (setting.buildAll begin source under size es) fun kids s =>
        List.Forall₂ (fun k n => setting.Grown (begins s) source k none (some size) n)
          (es.filter (setting.acceptsUnder under)) kids)
    ?_ ?_ ?_ ?_ root widget none .root
  · intro e override parent ih he
    rw [Setting.build]
    refine (hstarts e override he).bind fun fresh => ?_
    have hkids := (ih fresh fun k hk => he.child hk).frame
      (fun s => begins s e override fresh) fun s t hmove => hmoves hmove
    refine (hkids.imp (fun s hs => ⟨hs, trivial⟩) fun kids s hs => hs).bind fun kids => ?_
    -- The import may change the session, and starts and children are grown after it as before.
    have himport := (himports e override (widgetFor e override)
      (setting.assembled e override parent fresh kids)).recorded.frame
      (fun s => begins s e override fresh ∧
        List.Forall₂ (fun k n => setting.Grown (begins s) source k none
          (some (setting.innerSize e parent fresh)) n) (setting.accepted e override) kids)
      fun s t hmove hs => ⟨hmoves hmove hs.1, hs.2.imp fun k n => hgrown hmove⟩
    refine himport.imp (fun s hs => ⟨hs, trivial⟩) fun made t ht => ?_
    obtain ⟨⟨hstart, hall⟩, -, s, hmade⟩ := ht
    obtain ⟨hlength, hpairs⟩ := List.forall₂_iff_zip.1 hall
    exact .node hstart hlength (fun k n hk => hpairs hk) hmade
  · intro under size _
    rw [buildAll]
    exact .pure fun s _ => .nil
  · intro under size k rest haccept ihrest ihk hall
    rw [List.filter_cons_of_pos haccept] at hall ⊢
    rw [buildAll]
    simp only [haccept, if_true]
    have hk := ihk (hall k List.mem_cons_self)
    have hfirst : Run.Meets c (fun _ => True)
        (List.singleton <$> setting.build begin source k none (some size))
        fun first s => ∃ n, first = [n] ∧ setting.Grown (begins s) source k none (some size) n :=
      .map (hk.imp (fun _ h => h) fun n s hn => ⟨n, rfl, hn⟩)
    refine hfirst.bind fun first => ?_
    have hrest := (ihrest fun k hk => hall k (List.mem_cons_of_mem _ hk)).frame
      (fun s => ∃ n, first = [n] ∧ setting.Grown (begins s) source k none (some size) n)
      fun s t hmove hs => hs.imp fun n hn => ⟨hn.1, hgrown hmove hn.2⟩
    refine (hrest.imp (fun s hs => ⟨hs, trivial⟩) fun _ _ hs => hs).bind fun others => .pure ?_
    rintro s ⟨⟨n, rfl, hn⟩, hothers⟩
    exact .cons hn hothers
  · intro under size k rest hreject ihrest hall
    rw [List.filter_cons_of_neg hreject] at hall ⊢
    rw [buildAll]
    simp only [hreject]
    have hfirst : Run.Meets c (fun _ => True) (pure ([] : List Node)) fun first _ => first = [] :=
      .pure fun _ _ => rfl
    refine hfirst.bind fun first => ?_
    have hrest := (ihrest hall).frame (fun _ => first = []) fun _ _ _ hs => hs
    refine (hrest.imp (fun s hs => ⟨hs, trivial⟩) fun _ _ hs => hs).bind fun others => .pure ?_
    rintro s ⟨rfl, hothers⟩
    exact hothers

end MarkupScene.Setting
