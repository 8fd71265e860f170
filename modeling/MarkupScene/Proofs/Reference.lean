import Mathlib.Data.Set.Finite.Basic
import MarkupScene.Proofs.CompileOnce

/-!
# The meaning of files

Without a cache the root of a file is what building makes of its markup when every skin that is
looked up starts as a copy of the root of its own file. When no file refers to itself through others
this determines the roots of all files, given how the store answers prefabs. The main statement is
that in a calm run every stored root is this meaning, so that it is the same whatever was compiled
before. A store that answers a prefab differently from call to call tells what was compiled before,
and so does an importer that looks at more than its node.
-/
namespace MarkupScene

variable {ω : Type}

namespace SkinTable

theorem map_file? (t : SkinTable) (key : String) : (t.file? key).map (·.1) = t.get? key := by
  unfold file?
  split <;> simp [*]

end SkinTable

/-- The handle of a prefab depends on the prefab alone. -/
def Store.Constant (store : Store ω) : Prop :=
  ∀ p w w', (store.persist p w).1 = (store.persist p w').1

namespace Setting

/-- The path of the skin that an element looks up. The root of a skin file looks none up, and
neither does an element that brings its skin along. -/
def skinPath? (setting : Setting ω) (e : Element) (override : Option String) : Option Path :=
  if override.isSome || e.inlineSkin?.isSome then none
  else (e.attribute? "skinName").bind setting.skins.get? <|> setting.skins.get? e.skinKey

/-- How nodes start when the roots of the skins are given, and how the store answers prefabs. -/
def referenceStart (setting : Setting ω) (answer : Prefab → PrefabRef)
    (meaning : Path → Option Node) (e : Element) (override : Option String) : Node :=
  match (setting.skinPath? e override).bind fun path =>
    (meaning path).map (setting.prefabOf path) with
  | some skin => { skin.root with name := e.nodeName, skin := some (answer skin) }
  | none => { name := e.nodeName }

/-- The root of a file, built in a new session from the roots of skins. -/
def referenceRoot (setting : Setting ω) (world : ω) (answer : Prefab → PrefabRef)
    (meaning : Path → Option Node) (path : Path) : Option Node :=
  match setting.sources.document path world with
  | .error _ => none
  | .ok e =>
    ((setting.build (fun e override => pure (setting.referenceStart answer meaning e override))
      path e (setting.rootWidget? path) none).run { world }).1.toOption

/-- The files mean the roots that are built from what they mean. -/
def IsMeaning (setting : Setting ω) (world : ω) (answer : Prefab → PrefabRef)
    (meaning : Path → Option Node) : Prop :=
  ∀ path, meaning path = setting.referenceRoot world answer meaning path

/-- No file refers to itself, be it through others. -/
def Acyclic (setting : Setting ω) (world : ω) : Prop :=
  ∀ path, ¬Relation.TransGen (setting.Refers world) path path

/-- In a journal the store answers as a function of the prefab. -/
def AnsweredBy (j : Journal ω) (answer : Prefab → PrefabRef) : Prop :=
  ∀ p handle, .stored p (.ok handle) ∈ j → answer p = handle

/-- The store gives a prefab the same handle in both runs. -/
def AnswersAlike (j j' : Journal ω) : Prop :=
  ∀ p handle handle', .stored p (.ok handle) ∈ j → .stored p (.ok handle') ∈ j' → handle = handle'

/-- A setting in which nothing but the handles of the store can depend on the outside. -/
structure Steady (setting : Setting ω) : Prop where
  locator : setting.locator.Constant
  registry : setting.registry.OnlyBuiltIn
  sources (path : Path) (world world' : ω) :
    setting.sources.read path world = setting.sources.read path world'
  store (p : Prefab) (world : ω) : ∃ handle, (setting.store.persist p world).1 = .ok handle

section
variable {setting : Setting ω} {world : ω}

theorem Refers.mem_paths {p q : Path} (h : setting.Refers world p q) : q ∈ setting.skins.paths := by
  obtain ⟨-, -, -, file, -, -, -, rfl⟩ := h
  exact file.2

theorem wellFounded_of_irrefl {refers : Path → Path → Prop}
    (hpaths : ∀ {p q}, refers p q → q ∈ setting.skins.paths)
    (hirrefl : ∀ p, ¬Relation.TransGen refers p p) : WellFounded fun q p => refers p q := by
  -- Skin files are finitely many, and every file refers to skin files alone.
  let Below : setting.skins.File → setting.skins.File → Prop := fun q p =>
    Relation.TransGen refers p.1 q.1
  have hfinite : Finite setting.skins.File := (List.finite_toSet setting.skins.paths).to_subtype
  have htrans : IsTrans setting.skins.File Below := ⟨fun _ _ _ hab hbc => hbc.trans hab⟩
  have hirrefl : Std.Irrefl Below := ⟨fun p => hirrefl p.1⟩
  have hbelow : WellFounded Below := Finite.wellFounded_of_trans_of_irrefl Below
  have hfile : ∀ file : setting.skins.File, Acc (fun q p => refers p q) file.1 := by
    intro file
    induction file using hbelow.induction with
    | _ file ih => exact ⟨_, fun q hq => ih ⟨q, hpaths hq⟩ (.single hq)⟩
  exact ⟨fun p => ⟨_, fun q hq => hfile ⟨q, hpaths hq⟩⟩⟩

theorem Acyclic.wellFounded (h : setting.Acyclic world) :
    WellFounded fun q p => setting.Refers world p q :=
  wellFounded_of_irrefl Refers.mem_paths h

theorem map_lookup? (setting : Setting ω) (e : Element) (override : Option String) :
    (setting.lookup? e override).map (·.1) = setting.skinPath? e override := by
  unfold lookup? skinPath? SkinTable.fileFor?
  split
  · rfl
  · rw [← setting.skins.map_file? e.skinKey]
    cases e.attribute? "skinName" with
    | none => rfl
    | some name =>
      dsimp only [Option.bind_some]
      rw [← setting.skins.map_file? name]
      cases setting.skins.file? name <;> rfl

theorem referenceRoot_congr {answer : Prefab → PrefabRef} {meaning meaning' : Path → Option Node}
    {path : Path} (h : ∀ q, setting.Refers world path q → meaning q = meaning' q) :
    setting.referenceRoot world answer meaning path =
      setting.referenceRoot world answer meaning' path := by
  unfold referenceRoot
  cases hdocument : setting.sources.document path world with
  | error failure => rfl
  | ok root =>
    dsimp only
    -- Only starts of elements that are reached count, and these look up files referred to.
    rw [build_congr fun e override he => ?_]
    unfold referenceStart
    rw [← map_lookup?]
    cases hlookup : setting.lookup? e override with
    | none => rfl
    | some file =>
      have hrefers : setting.Refers world path file.1 :=
        ⟨root, e, override, file, hdocument, he, hlookup, rfl⟩
      dsimp only [Option.map_some, Option.bind_some]
      rw [h file.1 hrefers]

theorem IsMeaning.unique (hacyclic : setting.Acyclic world) {answer : Prefab → PrefabRef}
    {meaning meaning' : Path → Option Node} (h : setting.IsMeaning world answer meaning)
    (h' : setting.IsMeaning world answer meaning') : meaning = meaning' := by
  funext path
  induction path using hacyclic.wellFounded.induction with
  | _ path ih =>
    rw [h path, h' path]
    exact referenceRoot_congr ih

open Classical in
theorem exists_meaning (hacyclic : setting.Acyclic world) (answer : Prefab → PrefabRef) :
    ∃ meaning, setting.IsMeaning world answer meaning := by
  let meaning : Path → Option Node := hacyclic.wellFounded.fix fun path means =>
    setting.referenceRoot world answer
      (fun q => if h : setting.Refers world path q then means q h else none) path
  refine ⟨meaning, fun path => ?_⟩
  refine (hacyclic.wellFounded.fix_eq _ path).trans (referenceRoot_congr fun q hq => ?_)
  exact dif_pos hq

variable {paths : List Path} {j : Journal ω}

theorem Called.transGen (hcalm : setting.Calm world (setting.journal world paths))
    {below : List Path} {path : Path}
    (hcalled : setting.Called (setting.journal world paths) below path) {q : Path}
    (hq : q ∈ below) : Relation.TransGen (setting.Refers world) q path := by
  induction below generalizing path with
  | nil => cases hq
  | cons caller below ih =>
    cases hcalled with
    | skin hbegan hrefers =>
      have hcaller : setting.Refers world caller path := hcalm.refers hbegan hrefers
      obtain ⟨-, -, hcalled'⟩ := (setting.accounted world paths).began hbegan
      rcases List.mem_cons.1 hq with rfl | hq
      · exact .single hcaller
      · exact (ih hcalled' hq).tail hcaller

theorem isOn_eq_false (hacyclic : setting.Acyclic world)
    (hcalm : setting.Calm world (setting.journal world paths)) {below : List Path} {path : Path}
    (hcalled : setting.Called (setting.journal world paths) below path)
    (hnormal : path.normalize = path) {q : Path} (hrefers : setting.Refers world path q) :
    isOn (path :: below) q = false := by
  refine Bool.eq_false_iff.2 fun hon => ?_
  have hq := SkinTable.normalize_of_mem_paths hrefers.mem_paths
  rcases hcalled.mem_of_isOn hnormal hq hon with rfl | hbelow
  · exact hacyclic q (.single hrefers)
  · exact hacyclic q ((hcalled.transGen hcalm hbelow).tail hrefers)

theorem importNode_unique (hlocator : setting.locator.Constant)
    (hregistry : ∀ w i, setting.registry.importer? w = some i → i.Determined) (source : Path)
    (e : Element) (override widget : Option String) (n : Node) {made made' : Node}
    {s s' t t' : Session ω}
    (hmade : (setting.importNode source e override widget n).run s = (.ok made, t))
    (hmade' : (setting.importNode source e override widget n).run s' = (.ok made', t')) :
    made = made' := by
  rw [importNode_eq] at hmade hmade'
  cases himporter : widget.bind setting.registry.importer? with
  | none =>
    rw [himporter] at hmade hmade'
    obtain rfl := Except.ok.inj (congrArg Prod.fst hmade)
    exact Except.ok.inj (congrArg Prod.fst hmade')
  | some i =>
    rw [himporter] at hmade hmade'
    obtain rfl := Except.ok.inj (congrArg Prod.fst hmade)
    obtain rfl := Except.ok.inj (congrArg Prod.fst hmade')
    obtain ⟨w, -, hi⟩ := Option.bind_eq_some_iff.1 himporter
    exact hregistry w i hi _ e n hlocator _ _

theorem exists_referenceRoot (setting : Setting ω) (answer : Prefab → PrefabRef)
    (meaning : Path → Option Node) {path : Path} {e : Element}
    (hdocument : setting.sources.document path world = .ok e) :
    ∃ root, setting.referenceRoot world answer meaning path = some root ∧
      setting.Grown (fun e override n => n = setting.referenceStart answer meaning e override) path
        e (setting.rootWidget? path) none root := by
  let trivially : Contract ω :=
    { holds := fun _ => True, moves := fun _ _ => True, fails := fun _ _ => False
      refl := fun _ => trivial, trans := fun _ _ => trivial }
  have himport : ∀ e override widget n, Run.Meets trivially (fun _ => True)
      (setting.importNode path e override widget n) fun _ _ => True := by
    intro e override widget n s _ _
    cases widget with
    | none => exact ⟨trivial, trivial, trivial⟩
    | some w => exact ⟨trivial, trivial, trivial⟩
  have hgrown : Run.Meets trivially (fun _ => True)
      (setting.build (fun e override => pure (setting.referenceStart answer meaning e override))
        path e (setting.rootWidget? path) none)
      fun n _ => setting.Grown
        (fun e override n => n = setting.referenceStart answer meaning e override) path e
        (setting.rootWidget? path) none n :=
    setting.build_grown
      (fun _ e override n => n = setting.referenceStart answer meaning e override)
      (fun _ h => h) (fun _ _ _ => .pure fun _ _ => rfl) himport
  have hbuild := hgrown { world } trivial trivial
  unfold referenceRoot
  rw [hdocument]
  dsimp only
  generalize ExceptT.run (setting.build _ _ _ _ _) _ = done at hbuild ⊢
  rcases done with ⟨failure | root, t⟩
  · exact hbuild.2.2.elim
  · exact ⟨root, rfl, hbuild.2.2⟩

theorem Calm.referenceStart_eq (hacyclic : setting.Acyclic world)
    (hcalm : setting.Calm world (setting.journal world paths)) {answer : Prefab → PrefabRef}
    (hanswer : AnsweredBy (setting.journal world paths) answer) {meaning : Path → Option Node}
    (hmeaning : setting.IsMeaning world answer meaning) {path : Path}
    (ih : ∀ q, setting.Refers world path q → ∀ root handle,
      .stored (setting.prefabOf q root) (.ok handle) ∈ setting.journal world paths →
        meaning q = some root)
    {below : List Path} (hcalled : setting.Called (setting.journal world paths) below path)
    (hnormal : path.normalize = path) {e : Element} {override : Option String} {n : Node}
    (hrefers : ∀ file, setting.lookup? e override = some file → setting.Refers world path file.1)
    (hn : Begins (setting.journal world paths) (path :: below) e override n) :
    n = setting.referenceStart answer meaning e override := by
  unfold referenceStart
  rw [← map_lookup?]
  cases hlookup : setting.lookup? e override with
  | none =>
    rw [plain_of_lookup_eq_none hn hlookup]
    rfl
  | some file =>
    rw [Option.map_some, Option.bind_some]
    cases hcalm.startsFrom hn hlookup with
    | cyclic hon =>
      rw [isOn_eq_false hacyclic hcalm hcalled hnormal (hrefers file hlookup)] at hon
      cases hon
    | unread hdocument =>
      have hnone : meaning file.1 = none := by
        rw [hmeaning, referenceRoot, hdocument]
      rw [hnone]
      rfl
    | copied _ hstored =>
      rw [ih _ (hrefers file hlookup) _ _ hstored]
      dsimp only [Option.map_some]
      rw [hanswer _ _ hstored]
      rfl

theorem Calm.meaning_of_stored (hacyclic : setting.Acyclic world)
    (hlocator : setting.locator.Constant)
    (hregistry : ∀ w i, setting.registry.importer? w = some i → i.Determined)
    (hcalm : setting.Calm world (setting.journal world paths)) {answer : Prefab → PrefabRef}
    (hanswer : AnsweredBy (setting.journal world paths) answer) {meaning : Path → Option Node}
    (hmeaning : setting.IsMeaning world answer meaning) {path : Path} {root : Node}
    {handle : PrefabRef}
    (hstored : .stored (setting.prefabOf path root) (.ok handle) ∈ setting.journal world paths) :
    meaning path = some root := by
  -- By induction along the references.
  induction path using hacyclic.wellFounded.induction generalizing root handle with
  | _ path ih =>
    obtain ⟨hnormal, below, e, hdocument, hcalled, hgrown⟩ := hcalm.built hstored
    obtain ⟨built, hbuilt, hreference⟩ :=
      setting.exists_referenceRoot answer meaning hdocument
    rw [hmeaning path, hbuilt]
    -- Trees that grow from the same starts by the same imports are the same.
    refine congrArg some ((hgrown.restrict .root).unique hreference ?_ ?_).symm
    · rintro e override n _ ⟨he, hn⟩ rfl
      exact hcalm.referenceStart_eq hacyclic hanswer hmeaning
        (fun q hq root handle hstored => ih q hq hstored) hcalled hnormal
        (fun file hlookup => ⟨_, e, override, file, hdocument, he, hlookup, rfl⟩) hn
    · exact fun e override widget n _ _ _ _ _ _ => importNode_unique hlocator hregistry path e
        override widget n

theorem answersAlike_self (setting : Setting ω) (world : ω) (paths : List Path) :
    AnswersAlike (setting.journal world paths) (setting.journal world paths) := by
  -- The file of a prefab is stored once.
  intro p handle handle' hp hp'
  have haccounted := setting.accounted world paths
  obtain ⟨path, root, rfl, -⟩ := haccounted.stored hp
  have hsame := (haccounted.kept hp).symm.trans (haccounted.kept hp')
  cases hsame
  rfl

open Classical in
theorem exists_answer (h : AnswersAlike j j) : ∃ answer, AnsweredBy j answer := by
  let answer : Prefab → PrefabRef := fun p =>
    if h : ∃ handle, .stored p (.ok handle) ∈ j then h.choose else default
  refine ⟨answer, fun p handle hp => ?_⟩
  have hex : ∃ handle, .stored p (.ok handle) ∈ j := ⟨handle, hp⟩
  exact (dif_pos hex).trans (h p _ _ hex.choose_spec hp)

/-- What a run stores is what its files mean, and a file of the run that means a root is stored. -/
structure Follows (setting : Setting ω) (world : ω) (paths : List Path)
    (meaning : Path → Option Node) : Prop where
  stored {p handle} : .stored p (.ok handle) ∈ setting.journal world paths →
    meaning p.source = some p.root
  complete {path root} : path ∈ paths → meaning path.normalize = some root →
    ∃ handle, .stored (setting.prefabOf path.normalize root) (.ok handle) ∈
      setting.journal world paths

theorem Calm.follows (hacyclic : setting.Acyclic world) (hlocator : setting.locator.Constant)
    (hregistry : ∀ w i, setting.registry.importer? w = some i → i.Determined)
    (hcalm : setting.Calm world (setting.journal world paths)) {answer : Prefab → PrefabRef}
    (hanswer : AnsweredBy (setting.journal world paths) answer) {meaning : Path → Option Node}
    (hmeaning : setting.IsMeaning world answer meaning) : setting.Follows world paths meaning := by
  have hstored : ∀ {path root handle}, .stored (setting.prefabOf path root) (.ok handle) ∈
      setting.journal world paths → meaning path = some root :=
    hcalm.meaning_of_stored hacyclic hlocator hregistry hanswer hmeaning
  constructor
  case stored =>
    intro p handle hp
    obtain ⟨path, root, rfl, -⟩ := (setting.accounted world paths).stored hp
    exact hstored hp
  case complete =>
    intro path root hpath hroot
    cases hdocument : setting.sources.document path.normalize world with
    | error failure =>
      rw [hmeaning, referenceRoot, hdocument] at hroot
      cases hroot
    | ok e =>
      obtain ⟨built, handle, hbuilt⟩ := hcalm.stored_of_document hpath hdocument
      obtain rfl := Option.some.inj ((hstored hbuilt).symm.trans hroot)
      exact ⟨handle, hbuilt⟩

/-- Calm runs store the roots that the files mean without a cache. What a file means depends on how
the store answers, but on no run: two runs in which the store answers alike store the same prefab of
a file, whatever they compiled before it. -/
theorem run_follows_meaning (hacyclic : setting.Acyclic world)
    (hlocator : setting.locator.Constant)
    (hregistry : ∀ w i, setting.registry.importer? w = some i → i.Determined) :
    (∀ answer, ∃ meaning, setting.IsMeaning world answer meaning ∧
      (∀ other, setting.IsMeaning world answer other → other = meaning) ∧
      ∀ paths, setting.Calm world (setting.journal world paths) →
        AnsweredBy (setting.journal world paths) answer → setting.Follows world paths meaning) ∧
    (∀ paths, ∃ answer, AnsweredBy (setting.journal world paths) answer) ∧
    ∀ paths paths', setting.Calm world (setting.journal world paths) →
      setting.Calm world (setting.journal world paths') →
      AnswersAlike (setting.journal world paths) (setting.journal world paths') →
      ∀ p p' handle handle', .stored p (.ok handle) ∈ setting.journal world paths →
        .stored p' (.ok handle') ∈ setting.journal world paths' → p.source = p'.source →
          p = p' := by
  refine ⟨fun answer => ?_, fun paths => exists_answer (setting.answersAlike_self world paths), ?_⟩
  · obtain ⟨meaning, hmeaning⟩ := exists_meaning hacyclic answer
    exact ⟨meaning, hmeaning, fun other hother => hother.unique hacyclic hmeaning,
      fun paths hcalm hanswer => hcalm.follows hacyclic hlocator hregistry hanswer hmeaning⟩
  · intro paths paths' hcalm hcalm' halike p p' handle handle' hp hp' hsource
    -- One function answers in both runs, and the files have one meaning for it.
    have hboth : AnswersAlike (setting.journal world paths ++ setting.journal world paths')
        (setting.journal world paths ++ setting.journal world paths') := by
      intro q answered answered' hq hq'
      rcases List.mem_append.1 hq with hq | hq <;> rcases List.mem_append.1 hq' with hq' | hq'
      · exact setting.answersAlike_self world paths q _ _ hq hq'
      · exact halike q _ _ hq hq'
      · exact (halike q _ _ hq' hq).symm
      · exact setting.answersAlike_self world paths' q _ _ hq hq'
    obtain ⟨answer, hanswer⟩ := exists_answer hboth
    obtain ⟨meaning, hmeaning⟩ := exists_meaning hacyclic answer
    have hfollows : setting.Follows world paths meaning :=
      hcalm.follows hacyclic hlocator hregistry
        (fun q _ hq => hanswer q _ (List.mem_append_left _ hq)) hmeaning
    have hfollows' : setting.Follows world paths' meaning :=
      hcalm'.follows hacyclic hlocator hregistry
        (fun q _ hq => hanswer q _ (List.mem_append_right _ hq)) hmeaning
    have hroot := (hfollows.stored hp).symm.trans (hsource ▸ hfollows'.stored hp')
    obtain ⟨path, root, rfl, -⟩ := (setting.accounted world paths).stored hp
    obtain ⟨path', root', rfl, -⟩ := (setting.accounted world paths').stored hp'
    obtain rfl : path = path' := hsource
    obtain rfl : root = root' := Option.some.inj hroot
    rfl

theorem answersAlike_of_constant (h : setting.store.Constant) (world world' : ω)
    (paths paths' : List Path) :
    AnswersAlike (setting.journal world paths) (setting.journal world' paths') := by
  intro p handle handle' hp hp'
  obtain ⟨w, hw⟩ := exists_persist hp
  obtain ⟨w', hw'⟩ := exists_persist hp'
  rw [h p w w', hw'] at hw
  exact (Except.ok.inj hw).symm

theorem acyclic_of_not_refers (h : ∀ p ∈ setting.skins.paths, ∀ q, ¬setting.Refers world p q) :
    setting.Acyclic world := by
  intro path hcycle
  obtain ⟨q, hq, -⟩ := Relation.TransGen.head'_iff.1 hcycle
  obtain ⟨p, -, hp⟩ := Relation.TransGen.tail'_iff.1 hcycle
  exact h path hp.mem_paths q hq

theorem not_refers_of_leaf {path : Path} {e : Element}
    (hdocument : setting.sources.document path world = .ok e) (hleaf : e.candidates = [])
    (hlookup : setting.lookup? e (setting.rootWidget? path) = none) (q : Path) :
    ¬setting.Refers world path q := by
  rintro ⟨root, k, override, file, hread, hreaches, hfound, -⟩
  obtain rfl := Except.ok.inj (hdocument.symm.trans hread)
  have honly : k = e ∧ override = setting.rootWidget? path := by
    clear hfound
    induction hreaches with
    | root => exact ⟨rfl, rfl⟩
    | child _ hk ih =>
      obtain ⟨rfl, -⟩ := ih
      rw [accepted, hleaf] at hk
      cases hk
  obtain ⟨rfl, rfl⟩ := honly
  rw [hlookup] at hfound
  cases hfound

end

theorem openLocator_constant : (Locator.openLocator : Locator ω).Constant :=
  ⟨fun _ _ _ _ => rfl, fun _ _ _ => rfl, fun _ _ _ => rfl⟩

theorem oneSkin_acyclic : oneSkin.Acyclic () := by
  refine acyclic_of_not_refers fun p hp => ?_
  rw [oneSkin_paths p hp]
  exact not_refers_of_leaf (oneSkin_document () _) rfl (by decide +kernel)

/-- The run over a button alone and the run over its skin first store the root that the button
means, which is a copy of its skin. -/
theorem oneSkin_follows_meaning :
    oneSkin.Acyclic () ∧ ∃ answer meaning root handle handle',
      oneSkin.IsMeaning () answer meaning ∧ meaning ⟨"main.exml"⟩ = some root ∧
        root.isSkinInstance = true ∧
        .stored (oneSkin.prefabOf ⟨"main.exml"⟩ root) (.ok handle) ∈
          oneSkin.journal () [⟨"main.exml"⟩] ∧
        .stored (oneSkin.prefabOf ⟨"main.exml"⟩ root) (.ok handle') ∈
          oneSkin.journal () [⟨"button.exml"⟩, ⟨"main.exml"⟩] := by
  let alone : List Path := [⟨"main.exml"⟩]
  let after : List Path := [⟨"button.exml"⟩, ⟨"main.exml"⟩]
  have halike : AnswersAlike (oneSkin.journal () alone) (oneSkin.journal () after) :=
    answersAlike_of_constant (fun _ _ _ => rfl) () () alone after
  obtain ⟨hmeans, hanswered, hsame⟩ := run_follows_meaning oneSkin_acyclic openLocator_constant
    fun _ _ h => Registry.builtIn_onlyBuiltIn.determined h
  obtain ⟨answer, hanswer⟩ := hanswered alone
  obtain ⟨meaning, hmeaning, -, hfollows⟩ := hmeans answer
  obtain ⟨root, handle, hstored, hroot⟩ :=
    oneSkin.exists_stored_of_known () alone ⟨"main.exml"⟩ (by decide +kernel)
      (fun root => root.isSkinInstance) (by decide +kernel)
  obtain ⟨root', handle', hstored', -⟩ :=
    oneSkin.exists_stored_of_known () after ⟨"main.exml"⟩ (by decide +kernel)
      (fun _ => true) (by decide +kernel)
  have hprefab := hsame alone after (oneSkin_calm alone) (oneSkin_calm after) halike _ _ _ _ hstored
    hstored' rfl
  rw [← hprefab] at hstored'
  exact ⟨oneSkin_acyclic, answer, meaning, root, handle, handle', hmeaning,
    (hfollows alone (oneSkin_calm alone) hanswer).stored hstored, hroot, hstored, hstored'⟩

/-- A button and its skin, with a store that counts. -/
def countingStore : Setting Nat where
  skins := SkinTable.empty.insert "eui.Button" ⟨"button.exml"⟩
  sources :=
    { read := fun path _ =>
        if path = ⟨"other.exml"⟩ then .ok "<e:Group/>" else .ok "<e:Button/>" }
  locator := .openLocator
  store := { persist := fun _ n => (.ok ⟨toString n⟩, n + 1) }

/-- A label that shows whether anything was reported before, and a file that is lost. -/
def curious : Setting Unit where
  registry := Registry.builtIn.register "Label" fun _ _ n s =>
    ({ n with active := s.diagnostics.isEmpty }, s)
  sources :=
    { read := fun path _ =>
        if path = ⟨"lost.exml"⟩ then .error .notFound else .ok "<e:Label/>" }
  locator := .openLocator
  store := .memory

/-- A skin whose key names no widget. -/
def nameless : Setting Unit where
  skins := SkinTable.empty.insert "eui." ⟨"main.exml"⟩
  sources := { read := fun _ _ => .ok "<e:Group/>" }
  locator := .openLocator
  store := .memory

theorem countingStore_steady : countingStore.Steady :=
  ⟨openLocator_constant, Registry.builtIn_onlyBuiltIn, fun _ _ _ => rfl,
    fun _ n => ⟨⟨toString n⟩, rfl⟩⟩

/-- What was compiled before shows in the handles of a store that counts, and through an importer
that looks at the report. A root has the widget of its skin only when the key names one. -/
theorem history_matters :
    (countingStore.Acyclic 0 ∧ countingStore.Steady ∧ ∃ p p' handle handle',
      .stored p (.ok handle) ∈ countingStore.journal 0 [⟨"main.exml"⟩] ∧
        .stored p' (.ok handle') ∈ countingStore.journal 0 [⟨"other.exml"⟩, ⟨"main.exml"⟩] ∧
          p.source = p'.source ∧ p.root ≠ p'.root) ∧
    (curious.Acyclic () ∧ curious.locator.Constant ∧ curious.store.Constant ∧
      (∀ paths, curious.Calm () (curious.journal () paths)) ∧ ∃ p p' handle handle',
        .stored p (.ok handle) ∈ curious.journal () [⟨"main.exml"⟩] ∧
          .stored p' (.ok handle') ∈ curious.journal () [⟨"lost.exml"⟩, ⟨"main.exml"⟩] ∧
            p.source = p'.source ∧ p.root ≠ p'.root) ∧
    nameless.Acyclic () ∧ nameless.Steady ∧ ∃ key p handle,
      nameless.skins.keyOf? ⟨"main.exml"⟩ = some key ∧
        .stored p (.ok handle) ∈ nameless.journal () [⟨"main.exml"⟩] ∧
          p.source = ⟨"main.exml"⟩ ∧ p.root.widget ≠ some (Skin.widgetOf key) := by
  refine ⟨?counting, ?curious, ?nameless⟩
  case counting =>
    have hskin : ∀ p ∈ countingStore.skins.paths, p = ⟨"button.exml"⟩ := by decide +kernel
    have hacyclic : countingStore.Acyclic 0 := by
      refine acyclic_of_not_refers fun p hp => ?_
      rw [hskin p hp]
      exact not_refers_of_leaf (oneSkin_document () _) rfl (by decide +kernel)
    exact ⟨hacyclic, countingStore_steady,
      countingStore.exists_stored_apart 0 [⟨"main.exml"⟩] [⟨"other.exml"⟩, ⟨"main.exml"⟩]
        ⟨"main.exml"⟩ (by decide +kernel) (fun root => root.skin = some ⟨"0"⟩)
        (by decide +kernel) (by decide +kernel)⟩
  case curious =>
    refine ⟨acyclic_of_not_refers fun p hp => ?_, openLocator_constant, fun _ _ _ => rfl,
      calm_of_still (fun p _ => ⟨⟨p.url⟩, rfl⟩) (fun _ _ _ => rfl) (), ?_⟩
    · cases hp
    · exact curious.exists_stored_apart () [⟨"main.exml"⟩] [⟨"lost.exml"⟩, ⟨"main.exml"⟩]
        ⟨"main.exml"⟩ (by decide +kernel) (·.active) (by decide +kernel) (by decide +kernel)
  case nameless =>
    have hskin : ∀ p ∈ nameless.skins.paths, p = ⟨"main.exml"⟩ := by decide +kernel
    have hacyclic : nameless.Acyclic () := by
      refine acyclic_of_not_refers fun p hp => ?_
      rw [hskin p hp]
      exact not_refers_of_leaf (show nameless.sources.document _ () =
        .ok { namePrefix := "e", localName := "Group" } by decide +kernel) rfl (by decide +kernel)
    obtain ⟨root, handle, hstored, hroot⟩ :=
      nameless.exists_stored_of_known () [⟨"main.exml"⟩] ⟨"main.exml"⟩ (by decide +kernel)
        (fun root => root.widget ≠ some (Skin.widgetOf "eui.")) (by decide +kernel)
    exact ⟨hacyclic, ⟨openLocator_constant, Registry.builtIn_onlyBuiltIn, fun _ _ _ => rfl,
      fun p _ => ⟨⟨p.url⟩, rfl⟩⟩, "eui.", _, handle, by decide +kernel, hstored, rfl,
      of_decide_eq_true hroot⟩

end Setting

end MarkupScene
