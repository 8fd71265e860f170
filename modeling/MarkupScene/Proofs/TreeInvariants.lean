import MarkupScene.Proofs.Accounts
import MarkupScene.Proofs.Runs

/-!
# Invariants of trees

The trees of a run grow out of each other: a node starts plain or as a copy of a tree that was
stored before, takes in the trees of its children and is imported. A property of trees is an
invariant when these steps keep it. The main statement is that every tree that goes to the store
then has the property, given what was stored before it.
-/
namespace MarkupScene

variable {ω : Type}

namespace Journal

/-- Each tree that went to the store has a property, given the part of the journal before it. -/
def Founded (property : Journal ω → Node → Prop) (j : Journal ω) : Prop :=
  ∀ before p result after, j = before ++ .stored p result :: after → property before p.root

variable {property : Journal ω → Node → Prop} {j : Journal ω}

theorem Founded.nil (property : Journal ω → Node → Prop) : Founded property [] := by
  intro before p result after h
  simp at h

theorem Founded.append (hj : j.Founded property) {x : Event ω}
    (hx : ∀ p result, x = .stored p result → property j p.root) :
    Founded property (j ++ [x]) := by
  intro before p result after hsplit
  rcases List.eq_nil_or_concat after with rfl | ⟨later, y, rfl⟩
  · obtain ⟨rfl, h⟩ := List.append_inj' hsplit rfl
    exact hx p result (List.singleton_inj.1 h)
  · rw [List.concat_eq_append, ← List.cons_append, ← List.append_assoc] at hsplit
    exact hj before p result later (List.append_inj' hsplit rfl).1

theorem Founded.of_mem (hj : j.Founded property)
    (hmono : ∀ {before after n}, before ⊆ after → property before n → property after n)
    {p : Prefab} {result : Except Failure PrefabRef} (hp : .stored p result ∈ j) :
    property j p.root := by
  obtain ⟨before, after, rfl⟩ := List.append_of_mem hp
  exact hmono (List.subset_append_left _ _) (hj before p result after rfl)

end Journal

namespace Setting

/-- Properties of the nodes that elements start as and of finished trees. Both may depend on the
journal and outlast what is added to it, and what is copied from a finished tree is a start. -/
structure Passing (setting : Setting ω) (begun done : Journal ω → Node → Prop) : Prop where
  mono_begun {j k : Journal ω} {n : Node} : j ⊆ k → begun j n → begun k n
  mono_done {j k : Journal ω} {n : Node} : j ⊆ k → done j n → done k n
  plain (j : Journal ω) (name : String) : begun j { name }
  copy {j : Journal ω} {path : Path} {root : Node} {handle : PrefabRef} (name : String) :
    .stored (setting.prefabOf path root) (.ok handle) ∈ j → done j root →
      begun j { root with name, skin := some handle }

/-- Properties that trees keep while they grow. -/
structure TreeInvariant (setting : Setting ω) (begun done : Journal ω → Node → Prop) : Prop
    extends Passing setting begun done where
  /-- A node that takes in finished children is finished by its import. -/
  grow {j : Journal ω} {begins : Element → Option String → Node → Prop} {source : Path}
    {e : Element} {override : Option String} {parent : Option Size} {fresh made : Node}
    {kids : List Node} {s t : Session ω} :
    begun j fresh →
      (∀ c ∈ kids, done j c ∧ ∃ k ∈ setting.accepted e override,
        setting.Grown begins source k none (some (setting.innerSize e parent fresh)) c) →
      (setting.importNode source e override (widgetFor e override)
        (setting.assembled e override parent fresh kids)).run s = (.ok made, t) → done j made

/-- Properties that trees keep while they grow out of elements that are allowed in parents of their
sizes. -/
structure GuardedInvariant (setting : Setting ω) (allowed : Element → Option Size → Prop)
    (begun done : Journal ω → Node → Prop) : Prop extends Passing setting begun done where
  /-- The elements below an allowed one are allowed in its node. -/
  inner {j : Journal ω} {e k : Element} {override : Option String} {parent : Option Size}
    {fresh : Node} : allowed e parent → begun j fresh → k ∈ setting.accepted e override →
      allowed k (some (setting.innerSize e parent fresh))
  grow {j : Journal ω} {begins : Element → Option String → Node → Prop} {source : Path}
    {e : Element} {override : Option String} {parent : Option Size} {fresh made : Node}
    {kids : List Node} {s t : Session ω} :
    allowed e parent → begun j fresh →
      (∀ c ∈ kids, done j c ∧ ∃ k ∈ setting.accepted e override,
        setting.Grown begins source k none (some (setting.innerSize e parent fresh)) c) →
      (setting.importNode source e override (widgetFor e override)
        (setting.assembled e override parent fresh kids)).run s = (.ok made, t) → done j made

/-- The documents of the files that a run comes to have a property. A document is read in the state
in which the run comes to its file. -/
def Reads (setting : Setting ω) (p : Element → Prop) (j : Journal ω) : Prop :=
  ∀ below path before e, .began below path before ∈ j →
    setting.sources.document path before.world = .ok e → p e

theorem importNode_cases {setting : Setting ω} {source : Path} {e : Element}
    {override widget : Option String} {n made : Node} {s t : Session ω}
    (hmade : (setting.importNode source e override widget n).run s = (.ok made, t)) :
    made = n ∨ ∃ w i around, widget = some w ∧ setting.registry.importer? w = some i ∧
      made = (i (setting.importScope source override) e n around).1 := by
  rw [importNode_eq] at hmade
  cases himporter : widget.bind setting.registry.importer? with
  | none =>
    rw [himporter] at hmade
    exact .inl (Except.ok.inj (congrArg Prod.fst hmade)).symm
  | some i =>
    rw [himporter] at hmade
    obtain ⟨w, hw, hi⟩ := Option.bind_eq_some_iff.1 himporter
    exact .inr ⟨w, i, _, hw, hi, (Except.ok.inj (congrArg Prod.fst hmade)).symm⟩

theorem importNode_induction {setting : Setting ω} {motive : Node → Prop} {source : Path}
    {e : Element} {override widget : Option String} {n made : Node} {s t : Session ω}
    (hmade : (setting.importNode source e override widget n).run s = (.ok made, t))
    (unchanged : motive n)
    (imported : ∀ w i scope around, widget = some w → setting.registry.importer? w = some i →
      motive (i scope e n around).1) : motive made := by
  rcases importNode_cases hmade with rfl | ⟨w, i, around, hw, hi, rfl⟩
  · exact unchanged
  · exact imported w i _ around hw hi

theorem Reads.mono {setting : Setting ω} {p : Element → Prop} {j k : Journal ω} (h : j ⊆ k)
    (hk : setting.Reads p k) : setting.Reads p j :=
  fun below path before e hbegan => hk below path before e (h hbegan)

section
variable {setting : Setting ω} {allowed : Element → Option Size → Prop}
  {begun done : Journal ω → Node → Prop} {stack : List Path} {s t : Session (Watched ω)}

theorem TreeInvariant.guarded (h : setting.TreeInvariant begun done) :
    setting.GuardedInvariant (fun _ _ => True) begun done where
  toPassing := h.toPassing
  inner _ _ _ := trivial
  grow _ := h.grow

/-- Trees that grow from nodes with the property of starts are finished. -/
theorem GuardedInvariant.grown (h : setting.GuardedInvariant allowed begun done) {j : Journal ω}
    {begins : Element → Option String → Node → Prop} {source : Path} {e : Element}
    {override : Option String} {parent : Option Size} {n : Node}
    (hbegins : ∀ e override n, begins e override n → begun j n) (he : allowed e parent)
    (hn : setting.Grown begins source e override parent n) : done j n := by
  induction hn with
  | @node e override parent fresh made kids s t hstart hlength hchildren himported ih =>
    have hfresh := hbegins _ _ _ hstart
    have hkids : ∀ c ∈ kids, done j c ∧ ∃ k ∈ setting.accepted e override,
        setting.Grown begins source k none (some (setting.innerSize e parent fresh)) c := by
      intro c hc
      obtain ⟨i, hi, rfl⟩ := List.getElem_of_mem hc
      have hpair := mem_zip_of_lt (hlength ▸ hi) hi
      have hmem := (List.of_mem_zip hpair).1
      exact ⟨ih _ _ hpair (h.inner he hfresh hmem), _, hmem, hchildren _ _ hpair⟩
    exact h.grow he hfresh hkids himported

/-- The starts and the stored trees of a session have their properties. -/
structure TreesKept (begun done : Journal ω → Node → Prop) (s : Session (Watched ω)) : Prop where
  started {x : Start} {n : Node} : .started x ∈ s.journal → x.result = .ok n → begun s.journal n
  founded : s.journal.Founded done

theorem GuardedInvariant.step (h : setting.GuardedInvariant allowed begun done)
    (haccounted : setting.Accounted s) (hs : TreesKept begun done s)
    (hstep : setting.Step stack s t) (hreads : setting.Reads (allowed · none) s.journal) :
    TreesKept begun done t := by
  have hsub : s.journal ⊆ t.journal := fun _ hx => hstep.mem_journal hx
  constructor
  case started =>
    intro x n hx hn
    apply h.mono_begun hsub
    rcases hstep.started_cases hx with hx | hstarts
    · exact hs.started hx hn
    · have horigin := haccounted.origin hstarts
      rw [hn] at horigin
      -- A copied root is known to be done, any other node starts plain.
      cases horigin with
      | plain => exact h.plain _ _
      | cyclic => exact h.plain _ _
      | unread => exact h.plain _ _
      | copied _ _ hstored => exact h.copy _ hstored (hs.founded.of_mem h.mono_done hstored)
  case founded =>
    have hready : ∀ {below path root}, setting.Ready stack below path root s →
        done s.journal root := by
      intro below path root ready
      obtain ⟨before, e, hbegan, hdocument, hgrown⟩ := ready.built
      exact h.grown (fun _ _ _ hn => hs.started hn rfl) (hreads _ _ _ _ hbegan hdocument) hgrown
    cases hstep with
    | skipped => exact hs.founded
    | stored ready =>
      apply hs.founded.append
      intro p result hp
      obtain ⟨rfl, -⟩ := Event.stored.inj hp
      exact hready ready
    | refused ready =>
      apply hs.founded.append
      intro p result hp
      obtain ⟨rfl, -⟩ := Event.stored.inj hp
      exact hready ready
    | _ => exact hs.founded.append fun _ _ hp => nomatch hp

theorem GuardedInvariant.kept (h : setting.GuardedInvariant allowed begun done) (world : ω)
    (paths : List Path)
    (hreads : setting.Reads (allowed · none)
      (setting.watchEach paths { world := { world } }).journal) :
    TreesKept begun done (setting.watchEach paths { world := { world } }) := by
  let kept (s : Session (Watched ω)) : Prop :=
    setting.Accounted s ∧ (setting.Reads (allowed · none) s.journal → TreesKept begun done s)
  have hsteps : ∀ {s t}, kept s → setting.Step [] s t → kept t := fun hs hstep =>
    ⟨hs.1.step hstep, fun hreads =>
      have hearlier := hreads.mono fun _ hx => hstep.mem_journal hx
      h.step hs.1 (hs.2 hearlier) hstep hearlier⟩
  have hnew : TreesKept begun done ({ world := { world } } : Session (Watched ω)) :=
    ⟨(fun hx => nomatch hx), .nil done⟩
  exact (setting.watchEach_induction (motive := kept) ⟨.new setting _ rfl, fun _ => hnew⟩ hsteps
    paths).2 hreads

theorem GuardedInvariant.founded (h : setting.GuardedInvariant allowed begun done) (world : ω)
    (paths : List Path) (hreads : setting.Reads (allowed · none) (setting.runJournal world paths)) :
    (setting.runJournal world paths).Founded done :=
  watchRun_induction (motive := fun s => setting.Reads (allowed · none) s.journal →
    s.journal.Founded done) (fun paths hreads => (h.kept world paths hreads).founded) paths hreads

theorem TreeInvariant.kept (h : setting.TreeInvariant begun done) (world : ω)
    (paths : List Path) : TreesKept begun done (setting.watchEach paths { world := { world } }) :=
  h.guarded.kept world paths fun _ _ _ _ _ _ => trivial

theorem TreeInvariant.founded (h : setting.TreeInvariant begun done) (world : ω)
    (paths : List Path) : (setting.runJournal world paths).Founded done :=
  h.guarded.founded world paths fun _ _ _ _ _ _ => trivial

end

end Setting

end MarkupScene
