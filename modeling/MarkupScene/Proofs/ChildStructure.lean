import MarkupScene.Proofs.Growth

/-!
# Children of built nodes

Where the children of a node come from. An element offers the elements that can become children:
those of its first `skinName` block, or its own when it has none. Building an element starts its node,
builds the offered elements that its widget accepts, one after another, and puts their nodes after
the children that the node started with; only then the importer acts. An element that is not accepted
takes no part in this. The main statement is that deleting such elements leaves the building of all
others as it is, as long as no check and no importer looks at what was deleted.
-/
namespace MarkupScene

variable {ω : Type}

namespace Element

/-- What an element offers as children, and the element that offers others in their place. -/
inductive Offers : Element → List Element → (List Element → Element) → Prop where
  | direct {e : Element} (h : ∀ c ∈ e.children, c.localName ≠ "skinName") :
      Offers e e.children fun cs => { e with children := cs }
  | noSkin {e block : Element} {front back : List Element}
      (children : e.children = front ++ block :: back)
      (first : ∀ c ∈ front, c.localName ≠ "skinName") (name : block.localName = "skinName")
      (empty : block.children = []) : Offers e [] fun _ => e
  | skin {e block skin : Element} {front back rest : List Element}
      (children : e.children = front ++ block :: back)
      (first : ∀ c ∈ front, c.localName ≠ "skinName") (name : block.localName = "skinName")
      (skins : block.children = skin :: rest) :
      Offers e skin.children fun cs =>
        { e with
          children :=
            front ++ { block with children := { skin with children := cs } :: rest } :: back }

theorem child?_of_first {e block : Element} {front back : List Element} {name : String}
    (children : e.children = front ++ block :: back) (first : ∀ c ∈ front, c.localName ≠ name)
    (hname : block.localName = name) : e.child? name = some block := by
  have hnone : front.find? (fun c => c.localName = name) = none := by
    rw [List.find?_eq_none]
    exact fun c hc => by simpa using first c hc
  rw [child?, children, List.find?_append, hnone, Option.none_or, List.find?_cons_of_pos]
  simpa using hname

theorem child?_eq_none {e : Element} {name : String} (h : ∀ c ∈ e.children, c.localName ≠ name) :
    e.child? name = none := by
  rw [child?, List.find?_eq_none]
  exact fun c hc => by simpa using h c hc

namespace Offers
variable {e : Element} {cs cs' : List Element} {f : List Element → Element}

theorem candidates_eq (h : e.Offers cs f) : e.candidates = cs := by
  cases h with
  | direct h =>
    rw [candidates, inlineSkin?, child?_eq_none h]
    rfl
  | noSkin children first name empty =>
    rw [candidates, inlineSkin?, child?_of_first children first name]
    simp [empty]
  | skin children first name skins =>
    rw [candidates, inlineSkin?, child?_of_first children first name]
    simp [skins]

/-- The element in whose place others are offered has the same name and attributes, has a block when it
had one, and offers these. -/
theorem replace (h : e.Offers cs f) (hcs : cs'.map (·.localName) ⊆ cs.map (·.localName)) :
    (∃ children, f cs' = { e with children }) ∧
      (f cs').inlineSkin?.isSome = e.inlineSkin?.isSome ∧ (f cs').candidates = cs' := by
  cases h with
  | direct h =>
    have hnone : ∀ c ∈ ({ e with children := cs' } : Element).children,
        c.localName ≠ "skinName" := by
      intro c hc hname
      obtain ⟨d, hd, hsame⟩ := List.mem_map.1 (hcs (List.mem_map_of_mem hc))
      exact h d hd (hsame.trans hname)
    refine ⟨⟨cs', rfl⟩, ?_, (Offers.direct hnone).candidates_eq⟩
    rw [inlineSkin?, inlineSkin?, child?_eq_none h, child?_eq_none hnone]
  | noSkin children first name empty =>
    have hnil : cs' = [] := by simpa using hcs
    refine ⟨⟨e.children, by cases e; rfl⟩, rfl, ?_⟩
    rw [hnil]
    exact (Offers.noSkin children first name empty).candidates_eq
  | @skin block skin front back rest children first name skins =>
    let offering : Element := { skin with children := cs' }
    let block' : Element := { block with children := offering :: rest }
    let e' : Element := { e with children := front ++ block' :: back }
    have hname : block'.localName = "skinName" := name
    have hchildren : e'.children = front ++ block' :: back := rfl
    have hskins : block'.children = offering :: rest := rfl
    refine ⟨⟨_, rfl⟩, ?_, (Offers.skin hchildren first hname hskins).candidates_eq⟩
    change e'.inlineSkin?.isSome = e.inlineSkin?.isSome
    rw [inlineSkin?, inlineSkin?, child?_of_first children first name,
      child?_of_first hchildren first hname]
    rfl

end Offers

theorem exists_offers (e : Element) : ∃ f, e.Offers e.candidates f := by
  have hsome : ∃ cs f, e.Offers cs f := by
    cases hblock : e.child? "skinName" with
    | none =>
      rw [child?, List.find?_eq_none] at hblock
      exact ⟨_, _, .direct fun c hc => by simpa using hblock c hc⟩
    | some block =>
      obtain ⟨hname, front, back, hchildren, hfirst⟩ := List.find?_eq_some_iff_append.1 hblock
      have hname : block.localName = "skinName" := by simpa using hname
      have hfirst : ∀ c ∈ front, c.localName ≠ "skinName" := fun c hc => by
        simpa using hfirst c hc
      cases hskins : block.children with
      | nil => exact ⟨_, _, .noSkin hchildren hfirst hname hskins⟩
      | cons skin rest => exact ⟨_, _, .skin hchildren hfirst hname hskins⟩
  obtain ⟨cs, f, hoffers⟩ := hsome
  exact ⟨f, hoffers.candidates_eq ▸ hoffers⟩

end Element

namespace Setting
variable {setting : Setting ω} {start : Starting ω} {source : Path} {e e' : Element}
  {override : Option String} {s t : Session ω}

/-- Elements are built one after another. -/
inductive InTurn (setting : Setting ω) (start : Starting ω) (source : Path) (size : Size) :
    List Element → Session ω → List Node → Session ω → Prop where
  | nil {s : Session ω} : InTurn setting start source size [] s [] s
  | cons {c : Element} {rest : List Element} {s t u : Session ω} {n : Node} {kids : List Node} :
      (setting.build start source c none (some size)).run s = (.ok n, t) →
      InTurn setting start source size rest t kids u →
      InTurn setting start source size (c :: rest) s (n :: kids) u

/-- How the node of an element starts while the files on a stack are being compiled: plain when it has
no skin, or none that can be waited for or read, and as a copy of the skin otherwise. -/
inductive Fresh (setting : Setting ω) (stack : List Path) (e : Element)
    (override : Option String) (s : Session ω) : Node → Session ω → Prop where
  | plain : setting.lookup? e override = none →
      Fresh setting stack e override s { name := e.nodeName } s
  | cyclic {file} : setting.lookup? e override = some file → isOn stack file.1 = true →
      Fresh setting stack e override s { name := e.nodeName } s
  | unread {file answer t} : setting.lookup? e override = some file → isOn stack file.1 = false →
      (setting.compileFile stack file.1).run s = (.ok answer, t) →
      t.cache.skin? file.1 = none → Fresh setting stack e override s { name := e.nodeName } t
  | copied {file answer skin t} : setting.lookup? e override = some file →
      isOn stack file.1 = false → (setting.compileFile stack file.1).run s = (.ok answer, t) →
      t.cache.skin? file.1 = some skin →
      Fresh setting stack e override s
        { skin.root with name := e.nodeName, skin := some skin.handle } t

/-- How nodes start while the files on a stack are being compiled. -/
def starting (setting : Setting ω) (stack : List Path) : Starting ω :=
  setting.startNode (setting.instantiate stack fun file _ => setting.compileFile stack file.1)

/-- What building an element does: its node starts, the offered elements that its widget accepts are
built in turn, and the importer gets the node with their nodes after the children of the start. -/
inductive Assembles (setting : Setting ω) (stack : List Path) (source : Path) (e : Element)
    (override : Option String) (parent : Option Size) (s : Session ω) (made : Node)
    (t : Session ω) : Prop where
  | node {fresh before : Node} {offered : List Element} {replacing : List Element → Element}
      {kids : List Node} {s₁ s₂ : Session ω} (start : setting.Fresh stack e override s fresh s₁)
      (offers : e.Offers offered replacing)
      (children : setting.InTurn (setting.starting stack) source
        (setting.innerSize e parent fresh)
        (offered.filter (setting.acceptsUnder (widgetFor e override))) s₁ kids s₂)
      (placed : before = setting.assembled e override parent fresh kids)
      (together : before.children = fresh.children ++ kids)
      (imported : (setting.importNode source e override (widgetFor e override) before).run s₂ =
        (.ok made, t)) :
      Assembles setting stack source e override parent s made t

theorem of_run_bind {α β : Type} {m : Run ω α} {f : α → Run ω β} {b : β}
    (h : (m >>= f).run s = (.ok b, t)) :
    ∃ a u, m.run s = (.ok a, u) ∧ (f a).run u = (.ok b, t) := by
  rw [Run.run_bind] at h
  rcases hm : m.run s with ⟨failure | a, u⟩
  · rw [hm] at h
    cases h
  · rw [hm] at h
    exact ⟨a, u, rfl, h⟩

theorem buildAll_accepted {widget : Option String} {c : Element}
    (h : setting.acceptsUnder widget c = true) (size : Size) (rest : List Element) :
    setting.buildAll start source widget size (c :: rest) = (do
      let n ← setting.build start source c none (some size)
      let others ← setting.buildAll start source widget size rest
      return n :: others) := by
  rw [buildAll, if_pos h, map_eq_pure_bind, bind_assoc]
  exact bind_congr fun n => pure_bind _ _

theorem buildAll_rejected {widget : Option String} {c : Element}
    (h : setting.acceptsUnder widget c = false) (size : Size) (rest : List Element) :
    setting.buildAll start source widget size (c :: rest) =
      setting.buildAll start source widget size rest := by
  rw [buildAll, if_neg (by rw [h]; decide), pure_bind]
  exact bind_pure _

/-- The nodes of a list are those of the elements that are accepted, built in turn. -/
theorem inTurn_of_buildAll {widget : Option String} {size : Size} {cs : List Element}
    {kids : List Node}
    (h : (setting.buildAll start source widget size cs).run s = (.ok kids, t)) :
    setting.InTurn start source size (cs.filter (setting.acceptsUnder widget)) s kids t := by
  induction cs generalizing s kids with
  | nil =>
    rw [buildAll] at h
    obtain ⟨hkids, rfl⟩ := Prod.mk.inj h
    obtain rfl := Except.ok.inj hkids
    exact .nil
  | cons c rest ih =>
    cases haccepts : setting.acceptsUnder widget c with
    | true =>
      rw [buildAll_accepted haccepts] at h
      obtain ⟨n, u, hn, h⟩ := of_run_bind h
      obtain ⟨others, v, hothers, h⟩ := of_run_bind h
      obtain ⟨hkids, rfl⟩ := Prod.mk.inj h
      obtain rfl := Except.ok.inj hkids
      rw [List.filter_cons_of_pos haccepts]
      exact .cons hn (ih hothers)
    | false =>
      rw [buildAll_rejected haccepts] at h
      rw [List.filter_cons_of_neg (by rw [haccepts]; decide)]
      exact ih h

/-- A node starts plain or as a copy. -/
theorem fresh_of_starting {stack : List Path} {n : Node}
    (h : (setting.starting stack e override).run s = (.ok n, t)) :
    setting.Fresh stack e override s n t := by
  rw [starting, startNode_eq] at h
  cases hlookup : setting.lookup? e override with
  | none =>
    rw [hlookup] at h
    obtain ⟨hn, rfl⟩ := Prod.mk.inj h
    obtain rfl := Except.ok.inj hn
    exact .plain hlookup
  | some file =>
    rw [hlookup] at h
    dsimp only at h
    unfold instantiate at h
    split at h
    · next hoff =>
      obtain ⟨answer, u, hcompile, h⟩ := of_run_bind h
      obtain ⟨hn, rfl⟩ := Prod.mk.inj h
      obtain rfl := Except.ok.inj hn
      cases hskin : u.cache.skin? file.1 with
      | none => exact .unread hlookup hoff hcompile hskin
      | some skin => exact .copied hlookup hoff hcompile hskin
    · next hon =>
      obtain ⟨hn, rfl⟩ := Prod.mk.inj h
      obtain rfl := Except.ok.inj hn
      exact .cyclic hlookup (by simpa using hon)

theorem assembles_of_build {stack : List Path} {parent : Option Size} {made : Node}
    (h : (setting.build (setting.starting stack) source e override parent).run s = (.ok made, t)) :
    setting.Assembles stack source e override parent s made t := by
  rw [build] at h
  obtain ⟨fresh, s₁, hfresh, h⟩ := of_run_bind h
  obtain ⟨kids, s₂, hkids, himported⟩ := of_run_bind h
  obtain ⟨f, hoffers⟩ := e.exists_offers
  exact .node (fresh_of_starting hfresh) hoffers (inTurn_of_buildAll hkids) rfl rfl himported

/-- One subtree below an element is deleted whose root the widget above it does not accept. -/
inductive Deletes (setting : Setting ω) : Option String → Element → Element → Prop where
  | here {override e c before after f} : e.Offers (before ++ c :: after) f →
      setting.acceptsUnder (widgetFor e override) c = false →
      Deletes setting override e (f (before ++ after))
  | inside {override e c c' before after f} : e.Offers (before ++ c :: after) f →
      setting.acceptsUnder (widgetFor e override) c = true → Deletes setting none c c' →
      Deletes setting override e (f (before ++ c' :: after))

/-- Checks and importers do not look at what is deleted. -/
structure OverlooksDeleted (setting : Setting ω) : Prop where
  accepts (widget : String) {c c' : Element} : setting.Deletes none c c' →
    setting.registry.accepts widget c' = setting.registry.accepts widget c
  imports {widget : String} {i : Importer ω} : setting.registry.importer? widget = some i →
    ∀ {override e e'}, setting.Deletes override e e' → ∀ scope n, i scope e' n = i scope e n

theorem buildAll_append (setting : Setting ω) (start : Starting ω) (source : Path)
    (widget : Option String) (size : Size) (cs ds : List Element) :
    setting.buildAll start source widget size (cs ++ ds) = (do
      let kids ← setting.buildAll start source widget size cs
      let more ← setting.buildAll start source widget size ds
      return kids ++ more) := by
  induction cs with
  | nil => simp [buildAll]
  | cons c rest ih =>
    rw [List.cons_append]
    cases haccepts : setting.acceptsUnder widget c with
    | true =>
      rw [buildAll_accepted haccepts, buildAll_accepted haccepts, ih]
      simp
    | false => rw [buildAll_rejected haccepts, buildAll_rejected haccepts, ih]

theorem names_of_deleted (before after : List Element) (c : Element) :
    (before ++ after).map (·.localName) ⊆ (before ++ c :: after).map (·.localName) :=
  List.map_subset _ ((List.sublist_cons_self c after).append_left before).subset

theorem names_of_changed {before after : List Element} {c c' : Element}
    (h : ∃ children, c' = { c with children }) :
    (before ++ c' :: after).map (·.localName) ⊆ (before ++ c :: after).map (·.localName) := by
  obtain ⟨children, rfl⟩ := h
  simp

theorem Deletes.same (h : setting.Deletes override e e') :
    (∃ children, e' = { e with children }) ∧ e'.inlineSkin?.isSome = e.inlineSkin?.isSome := by
  induction h with
  | here hoffers _ =>
    obtain ⟨hchildren, hblock, -⟩ := hoffers.replace (names_of_deleted _ _ _)
    exact ⟨hchildren, hblock⟩
  | inside hoffers _ _ ih =>
    obtain ⟨hchildren, hblock, -⟩ := hoffers.replace (names_of_changed ih.1)
    exact ⟨hchildren, hblock⟩

theorem Deletes.startNode_eq (h : setting.Deletes override e e') (copy : setting.Instantiate)
    (other : Option String) : setting.startNode copy e' other = setting.startNode copy e other := by
  obtain ⟨⟨children, rfl⟩, hblock⟩ := h.same
  unfold startNode
  rw [hblock]
  rfl

section
variable (hover : setting.OverlooksDeleted)
  (hstart : ∀ {override e e'}, setting.Deletes override e e' → start e' override = start e override)

include hover hstart

theorem Deletes.build_eq_of (h : setting.Deletes override e e') (parent : Option Size)
    (hkids : ∀ size, setting.buildAll start source (widgetFor e override) size e'.candidates =
      setting.buildAll start source (widgetFor e override) size e.candidates) :
    setting.build start source e' override parent =
      setting.build start source e override parent := by
  have himport : ∀ widget n, setting.importNode source e' override widget n =
      setting.importNode source e override widget n := by
    intro widget n
    rw [importNode_eq, importNode_eq]
    cases hi : widget.bind setting.registry.importer? with
    | none => rfl
    | some i =>
      obtain ⟨w, -, hw⟩ := Option.bind_eq_some_iff.1 hi
      dsimp only
      rw [hover.imports hw h]
  rw [build, build, hstart h]
  refine bind_congr fun fresh => ?_
  obtain ⟨children, hsame⟩ := h.same.1
  have hwidget : widgetFor e' override = widgetFor e override := by rw [hsame]; rfl
  have hplacement : Placement.ofElement e' = Placement.ofElement e := by rw [hsame]; rfl
  simp only [hwidget, hplacement, hkids, himport]

/-- Deleting what is not accepted does not change how an element is built. -/
theorem Deletes.build_eq (h : setting.Deletes override e e') (parent : Option Size) :
    setting.build start source e' override parent =
      setting.build start source e override parent := by
  induction h generalizing parent with
  | @here override e c before after f hoffers hrejected =>
    refine (Deletes.here hoffers hrejected).build_eq_of hover hstart parent fun size => ?_
    rw [hoffers.candidates_eq, (hoffers.replace (names_of_deleted _ _ _)).2.2,
      buildAll_append, buildAll_append, buildAll_rejected hrejected]
  | @inside override e c c' before after f hoffers haccepted hdeletes ih =>
    refine (Deletes.inside hoffers haccepted hdeletes).build_eq_of hover hstart parent
      fun size => ?_
    have haccepted' : setting.acceptsUnder (widgetFor e override) c' = true := by
      rw [← haccepted]
      unfold acceptsUnder
      cases widgetFor e override with
      | none => rfl
      | some w => exact hover.accepts w hdeletes
    rw [hoffers.candidates_eq, (hoffers.replace (names_of_changed hdeletes.same.1)).2.2,
      buildAll_append, buildAll_append, buildAll_accepted haccepted,
      buildAll_accepted haccepted', ih]

end

end Setting

end MarkupScene
