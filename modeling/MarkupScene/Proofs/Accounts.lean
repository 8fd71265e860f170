import MarkupScene.Asset.Catalog
import MarkupScene.Proofs.Steps

/-!
# Accounts

What is known about a file and what a node starts from can be accounted for by the journal alone: a
file that failed was read in vain, a compiled one was stored as it is kept, a stored root was built
from the markup of its file, and a copy was made of a stored root. The main statement is that after
every run all of this holds. What follows from the journal then holds of the run.
-/
namespace MarkupScene

variable {ω : Type}

theorem Path.eq_of_components {p q : Path} (hp : p.normalize = p) (hq : q.normalize = q)
    (h : p.components = q.components) : p = q := by
  rw [← hp, ← hq, normalize, normalize, h]

namespace Setting

/-- The root of a file was built from the markup that was read when a visit of the file began. -/
def Built (setting : Setting ω) (j : Journal ω) (path : Path) (root : Node) : Prop :=
  ∃ below before e, .began below path before ∈ j ∧
    setting.sources.document path before.world = .ok e ∧
    setting.Grown (Begins j (path :: below)) path e (setting.rootWidget? path) none root

/-- Why a node started as it did. -/
inductive Origin (setting : Setting ω) (j : Journal ω) (stack : List Path) (e : Element)
    (override : Option String) : Except Failure Node → Prop where
  | plain : setting.lookup? e override = none →
      Origin setting j stack e override (.ok { name := e.nodeName })
  | cyclic {file} : setting.lookup? e override = some file → isOn stack file.1 = true →
      Origin setting j stack e override (.ok { name := e.nodeName })
  | unread {file below before failure} : setting.lookup? e override = some file →
      isOn stack file.1 = false → .began below file.1 before ∈ j →
      setting.sources.document file.1 before.world = .error failure →
      Origin setting j stack e override (.ok { name := e.nodeName })
  | copied {file root handle} : setting.lookup? e override = some file →
      isOn stack file.1 = false → .stored (setting.prefabOf file.1 root) (.ok handle) ∈ j →
      Origin setting j stack e override
        (.ok { root with name := e.nodeName, skin := some handle })
  | stopped {file failure p} : setting.lookup? e override = some file →
      isOn stack file.1 = false → .stored p (.error failure) ∈ j →
      Origin setting j stack e override (.error failure)

/-- The journal accounts for what the session knows and for its own events. -/
structure Accounted (setting : Setting ω) (s : Session (Watched ω)) : Prop where
  failed {p} : p.normalize = p → s.cache.get? p = some .failed →
    ∃ below before failure, .began below p before ∈ s.journal ∧
      setting.sources.document p before.world = .error failure
  compiled {p skin} : p.normalize = p → s.cache.get? p = some (.compiled skin) →
    .stored (setting.prefabOf p skin.root) (.ok skin.handle) ∈ s.journal
  kept {p root handle} : .stored (setting.prefabOf p root) (.ok handle) ∈ s.journal →
    s.cache.get? p = some (.compiled ⟨handle, root⟩)
  began {below p before} : .began below p before ∈ s.journal →
    isOn below p = false ∧ p.normalize = p ∧ setting.Called s.journal below p
  started {x} : .started x ∈ s.journal →
    setting.Origin s.journal x.stack x.element x.override x.result
  stored {p result} : .stored p result ∈ s.journal →
    ∃ path root, p = setting.prefabOf path root ∧ path.normalize = path ∧
      setting.Built s.journal path root
  ran {v} : .visited v ∈ s.journal →
    (setting.compileFile v.stack v.path).run v.before = (v.result, v.after)
  answered {v r} : .visited v ∈ s.journal → v.result = .ok r →
    v.path.normalize = v.path ∧ s.cache.answer? v.path = some r
  stopped {v failure} : .visited v ∈ s.journal → v.result = .error failure →
    ∃ p, .stored p (.error failure) ∈ s.journal

section
variable {setting : Setting ω} {stack : List Path} {s t : Session (Watched ω)} {j j' : Journal ω}

theorem Called.mono (h : j ⊆ j') {below : List Path} {path : Path}
    (hcalled : setting.Called j below path) : setting.Called j' below path := by
  cases hcalled with
  | outside => exact .outside
  | skin hbegan hrefers => exact .skin (h hbegan) hrefers

theorem Built.mono (h : j ⊆ j') {path : Path} {root : Node} (hbuilt : setting.Built j path root) :
    setting.Built j' path root := by
  obtain ⟨below, before, e, hbegan, hdocument, hgrown⟩ := hbuilt
  exact ⟨below, before, e, h hbegan, hdocument, hgrown.mono fun _ _ _ hn => h hn⟩

theorem Origin.mono (h : j ⊆ j') {e : Element} {override : Option String}
    {result : Except Failure Node} (horigin : setting.Origin j stack e override result) :
    setting.Origin j' stack e override result := by
  cases horigin with
  | plain hlookup => exact .plain hlookup
  | cyclic hlookup hon => exact .cyclic hlookup hon
  | unread hlookup hoff hbegan hdocument => exact .unread hlookup hoff (h hbegan) hdocument
  | copied hlookup hoff hstored => exact .copied hlookup hoff (h hstored)
  | stopped hlookup hoff hp => exact .stopped hlookup hoff (h hp)

theorem Step.began_cases (hstep : setting.Step stack s t) {below : List Path} {p : Path}
    {before : Session ω} (h : .began below p before ∈ t.journal) :
    .began below p before ∈ s.journal ∨
      isOn below p = false ∧ p.normalize = p ∧ setting.Called s.journal below p := by
  cases hstep with
  | began inside off normal called =>
    rcases List.mem_append.1 h with h | h
    · exact .inl h
    · obtain ⟨rfl, rfl, rfl⟩ : below = _ ∧ p = _ ∧ before = _ := by simpa using h
      exact .inr ⟨off, normal, called⟩
  | _ => exact .inl (by simpa using h)

theorem Step.started_cases (hstep : setting.Step stack s t) {x : Start}
    (h : .started x ∈ t.journal) :
    .started x ∈ s.journal ∨ setting.Starts s x.stack x.element x.override x.result := by
  cases hstep with
  | started starts =>
    rcases List.mem_append.1 h with h | h
    · exact .inl h
    · obtain rfl : x = _ := by simpa using h
      exact .inr starts
  | _ => exact .inl (by simpa using h)

theorem Step.stored_cases (hstep : setting.Step stack s t) {p : Prefab}
    {result : Except Failure PrefabRef} (h : .stored p result ∈ t.journal) :
    .stored p result ∈ s.journal ∨
      ∃ below path root, p = setting.prefabOf path root ∧
        setting.Ready stack below path root s := by
  cases hstep with
  | stored ready _ =>
    rcases List.mem_append.1 h with h | h
    · exact .inl h
    · obtain ⟨rfl, -⟩ : p = _ ∧ result = _ := by simpa using h
      exact .inr ⟨_, _, _, rfl, ready⟩
  | refused ready _ =>
    rcases List.mem_append.1 h with h | h
    · exact .inl h
    · obtain ⟨rfl, -⟩ : p = _ ∧ result = _ := by simpa using h
      exact .inr ⟨_, _, _, rfl, ready⟩
  | _ => exact .inl (by simpa using h)

theorem Step.visited_cases (hstep : setting.Step stack s t) {v : Visit ω}
    (h : .visited v ∈ t.journal) :
    .visited v ∈ s.journal ∨ t = s.note (.visited v) ∧ setting.Ends stack v s := by
  cases hstep with
  | visited ends =>
    rcases List.mem_append.1 h with h | h
    · exact .inl h
    · obtain rfl : v = _ := by simpa using h
      exact .inr ⟨rfl, ends⟩
  | _ => exact .inl (by simpa using h)

theorem Accounted.origin (hs : setting.Accounted s) {e : Element} {override : Option String}
    {result : Except Failure Node} (hstarts : setting.Starts s stack e override result) :
    setting.Origin s.journal stack e override result := by
  cases hstarts with
  | plain hlookup => exact .plain hlookup
  | cyclic hlookup hon => exact .cyclic hlookup hon
  | stopped hlookup hoff hp => exact .stopped hlookup hoff hp
  | @copied file state hlookup hoff hstate =>
    have hnormal := SkinTable.normalize_of_mem_paths file.2
    unfold SkinCache.skin?
    rw [hstate]
    cases state with
    | failed =>
      obtain ⟨below, before, failure, hbegan, hdocument⟩ := hs.failed hnormal hstate
      exact .unread hlookup hoff hbegan hdocument
    | compiled skin => exact .copied hlookup hoff (hs.compiled hnormal hstate)

theorem Accounted.failed_step (hs : setting.Accounted s) (hstep : setting.Step stack s t) {p : Path}
    (hp : p.normalize = p) (hfailed : t.cache.get? p = some .failed) :
    ∃ below before failure, .began below p before ∈ t.journal ∧
      setting.sources.document p before.world = .error failure := by
  have hold : s.cache.get? p = some .failed → ∃ below before failure,
      .began below p before ∈ t.journal ∧
        setting.sources.document p before.world = .error failure := by
    intro hknown
    obtain ⟨below, before, failure, hbegan, hdocument⟩ := hs.failed hp hknown
    exact ⟨below, before, failure, hstep.mem_journal hbegan, hdocument⟩
  cases hstep with
  | @skipped below path failure s inside off normal began unknown unread =>
    rw [Session.cache_skip, SkinCache.get?_put] at hfailed
    split at hfailed
    · next h =>
      obtain rfl := Path.eq_of_components hp normal h
      exact ⟨below, _, failure, began, unread⟩
    · exact hold hfailed
  | stored ready persist =>
    rw [Session.cache_keep, SkinCache.get?_put] at hfailed
    split at hfailed
    · cases hfailed
    · exact hold hfailed
  | _ => exact hold hfailed

theorem Accounted.compiled_step (hs : setting.Accounted s) (hstep : setting.Step stack s t)
    {p : Path} {skin : CachedSkin} (hp : p.normalize = p)
    (hcompiled : t.cache.get? p = some (.compiled skin)) :
    .stored (setting.prefabOf p skin.root) (.ok skin.handle) ∈ t.journal := by
  have hold : s.cache.get? p = some (.compiled skin) →
      .stored (setting.prefabOf p skin.root) (.ok skin.handle) ∈ t.journal := fun hknown =>
    hstep.mem_journal (hs.compiled hp hknown)
  cases hstep with
  | skipped =>
    rw [Session.cache_skip, SkinCache.get?_put] at hcompiled
    split at hcompiled
    · cases hcompiled
    · exact hold hcompiled
  | stored ready persist =>
    rw [Session.cache_keep, SkinCache.get?_put] at hcompiled
    split at hcompiled
    · next h =>
      obtain rfl := Path.eq_of_components hp ready.normal h
      obtain rfl := SourceState.compiled.inj (Option.some.inj hcompiled)
      exact List.mem_append_right _ List.mem_cons_self
    · exact hold hcompiled
  | _ => exact hold hcompiled

theorem Accounted.kept_step (hs : setting.Accounted s) (hstep : setting.Step stack s t) {p : Path}
    {root : Node} {handle : PrefabRef}
    (hstored : .stored (setting.prefabOf p root) (.ok handle) ∈ t.journal) :
    t.cache.get? p = some (.compiled ⟨handle, root⟩) := by
  have hold : .stored (setting.prefabOf p root) (.ok handle) ∈ s.journal →
      t.cache.get? p = some (.compiled ⟨handle, root⟩) := fun h =>
    hstep.get?_of_known (hs.kept h)
  cases hstep with
  | stored ready persist =>
    rcases List.mem_append.1 hstored with h | h
    · exact hold h
    · obtain ⟨hsame, hresult⟩ := Event.stored.inj (List.mem_singleton.1 h)
      obtain rfl : p = _ := congrArg Prefab.source hsame
      obtain rfl : root = _ := congrArg Prefab.root hsame
      obtain rfl := Except.ok.inj hresult
      rw [Session.cache_keep, SkinCache.get?_put_self]
  | _ => exact hold (by simpa using hstored)

/-- A step keeps the account. -/
theorem Accounted.step (hs : setting.Accounted s) (hstep : setting.Step stack s t) :
    setting.Accounted t := by
  have hsub : s.journal ⊆ t.journal := fun _ hx => hstep.mem_journal hx
  -- What the account says of old events holds on; a step adds one event at most.
  constructor
  case failed => exact hs.failed_step hstep
  case compiled => exact hs.compiled_step hstep
  case kept => exact hs.kept_step hstep
  case began =>
    intro below p before h
    rcases hstep.began_cases h with h | ⟨hoff, hnormal, hcalled⟩
    · exact ⟨(hs.began h).1, (hs.began h).2.1, (hs.began h).2.2.mono hsub⟩
    · exact ⟨hoff, hnormal, hcalled.mono hsub⟩
  case started =>
    intro x h
    rcases hstep.started_cases h with h | h
    · exact (hs.started h).mono hsub
    · exact (hs.origin h).mono hsub
  case stored =>
    intro p result h
    rcases hstep.stored_cases h with h | ⟨below, path, root, rfl, ready⟩
    · obtain ⟨path, root, rfl, hnormal, hbuilt⟩ := hs.stored h
      exact ⟨path, root, rfl, hnormal, hbuilt.mono hsub⟩
    · obtain ⟨before, e, hbegan, hdocument, hgrown⟩ := ready.built
      have hbuilt : setting.Built s.journal path root :=
        ⟨below, before, e, hbegan, hdocument, hgrown⟩
      exact ⟨path, root, rfl, ready.normal, hbuilt.mono hsub⟩
  case ran =>
    intro v h
    rcases hstep.visited_cases h with h | ⟨-, ends⟩
    · exact hs.ran h
    · exact ends.ran
  case answered =>
    intro v r h hr
    rcases hstep.visited_cases h with h | ⟨rfl, ends⟩
    · obtain ⟨hnormal, hanswer⟩ := hs.answered h hr
      obtain ⟨state, hstate, rfl⟩ := Option.map_eq_some_iff.1 hanswer
      exact ⟨hnormal, by rw [SkinCache.answer?, hstep.get?_of_known hstate]; rfl⟩
    · exact ⟨ends.normal, ends.answers hr⟩
  case stopped =>
    intro v failure h hfailure
    rcases hstep.visited_cases h with h | ⟨rfl, ends⟩
    · exact (hs.stopped h hfailure).imp fun _ hp => hsub hp
    · exact (ends.fails hfailure).imp fun _ hp => hsub hp

theorem Accounted.new (setting : Setting ω) (w : Watched ω) (hw : w.journal = []) :
    setting.Accounted { world := w } := by
  have hnone : ∀ x, x ∉ Session.journal { world := w } := fun x hx => by
    rw [Session.journal, hw] at hx
    cases hx
  constructor
  case failed => exact fun _ h => nomatch h
  case compiled => exact fun _ h => nomatch h
  case kept => exact fun h => absurd h (hnone _)
  case began => exact fun h => absurd h (hnone _)
  case started => exact fun h => absurd h (hnone _)
  case stored => exact fun h => absurd h (hnone _)
  case ran => exact fun h => absurd h (hnone _)
  case answered => exact fun h => absurd h (hnone _)
  case stopped => exact fun h => absurd h (hnone _)

/-- After every run the journal accounts for it. -/
theorem accounted (setting : Setting ω) (world : ω) (paths : List Path) :
    setting.Accounted (setting.watchEach paths { world := { world } }) :=
  setting.watchEach_induction (.new setting _ rfl) .step paths

end

theorem exists_stored_of_known (setting : Setting ω) (world : ω) (paths : List Path) (path : Path)
    (hnormal : path.normalize = path) (test : Node → Bool)
    (h : ((setting.compileEach paths { world }).cache.skin? path).any
      (fun skin => test skin.root) = true) :
    ∃ root handle, .stored (setting.prefabOf path root) (.ok handle) ∈
      setting.journal world paths ∧ test root = true := by
  obtain ⟨skin, hskin, htest⟩ := (Option.any_eq_true _ _).1 h
  rw [show setting.compileEach paths { world } = _ from
    (setting.forget_watchEach paths { world := { world } }).symm] at hskin
  refine ⟨skin.root, skin.handle, ?_, htest⟩
  refine (setting.accounted world paths).compiled hnormal ?_
  unfold SkinCache.skin? at hskin
  split at hskin
  · next other hother =>
    obtain rfl := Option.some.inj hskin
    exact hother
  · cases hskin

/-- Runs store different roots for a source when a test tells them apart. -/
theorem exists_stored_apart (setting : Setting ω) (world : ω) (paths paths' : List Path)
    (path : Path) (hnormal : path.normalize = path) (test : Node → Bool)
    (h : ((setting.compileEach paths { world }).cache.skin? path).any
      (fun skin => test skin.root) = true)
    (h' : ((setting.compileEach paths' { world }).cache.skin? path).any
      (fun skin => !test skin.root) = true) :
    ∃ p p' handle handle', .stored p (.ok handle) ∈ setting.journal world paths ∧
      .stored p' (.ok handle') ∈ setting.journal world paths' ∧
        p.source = p'.source ∧ p.root ≠ p'.root := by
  obtain ⟨root, handle, hstored, hroot⟩ :=
    setting.exists_stored_of_known world paths path hnormal test h
  obtain ⟨root', handle', hstored', hroot'⟩ :=
    setting.exists_stored_of_known world paths' path hnormal (fun root => !test root) h'
  refine ⟨_, _, handle, handle', hstored, hstored', rfl, fun heq : root = root' => ?_⟩
  rw [← heq, hroot] at hroot'
  cases hroot'

/-- The handle of a stored prefab is what the store answers to the prefab. -/
theorem exists_persist {setting : Setting ω} {world : ω} {paths : List Path} {p : Prefab}
    {result : Except Failure PrefabRef} (h : .stored p result ∈ setting.journal world paths) :
    ∃ w, (setting.store.persist p w).1 = result := by
  refine setting.watchEach_induction (motive := fun s => .stored p result ∈ s.journal →
    ∃ w, (setting.store.persist p w).1 = result) (fun h => nomatch h) ?_ paths h
  intro s t ih hstep h
  cases hstep with
  | stored ready persist =>
    rcases List.mem_append.1 h with h | h
    · exact ih h
    · obtain ⟨rfl, rfl⟩ := Event.stored.inj (List.mem_singleton.1 h)
      exact ⟨_, congrArg Prod.fst persist⟩
  | refused ready persist =>
    rcases List.mem_append.1 h with h | h
    · exact ih h
    · obtain ⟨rfl, rfl⟩ := Event.stored.inj (List.mem_singleton.1 h)
      exact ⟨_, congrArg Prod.fst persist⟩
  | _ => exact ih (by simpa using h)

theorem Called.exists_began {setting : Setting ω} {world : ω} {paths below : List Path}
    {path : Path} (hcalled : setting.Called (setting.journal world paths) below path) {q : Path}
    (hq : q ∈ below) :
    ∃ inner before, .began inner q before ∈ setting.journal world paths := by
  induction below generalizing path with
  | nil => cases hq
  | cons caller below ih =>
    cases hcalled with
    | skin hbegan _ =>
      rcases List.mem_cons.1 hq with rfl | hq
      · exact ⟨_, _, hbegan⟩
      · exact ih ((setting.accounted world paths).began hbegan).2.2 hq

theorem Called.mem_of_isOn {setting : Setting ω} {world : ω} {paths below : List Path} {path : Path}
    (hcalled : setting.Called (setting.journal world paths) below path)
    (hnormal : path.normalize = path) {q : Path} (hq : q.normalize = q)
    (hon : isOn (path :: below) q = true) : q = path ∨ q ∈ below := by
  obtain ⟨p, hp, hsame⟩ := List.any_eq_true.1 hon
  have hcomponents : p.components = q.components := of_decide_eq_true hsame
  rcases List.mem_cons.1 hp with rfl | hp
  · exact .inl (Path.eq_of_components hq hnormal hcomponents.symm)
  · obtain ⟨inner, before, hbegan⟩ := hcalled.exists_began hp
    obtain ⟨-, hpnormal, -⟩ := (setting.accounted world paths).began hbegan
    rw [Path.eq_of_components hq hpnormal hcomponents.symm]
    exact .inr hp

/-- Every call of a run is a visit below nothing. -/
theorem visited_of_call (setting : Setting ω) (world : ω) (earlier : List Path) (path : Path)
    (later : List Path) :
    let before := setting.compileEach earlier { world }
    .visited ⟨[], path.normalize, before, ((setting.compile path).run before).1,
      ((setting.compile path).run before).2⟩ ∈
        setting.journal world (earlier ++ path :: later) := by
  dsimp only
  have hsplit : setting.watchEach (earlier ++ path :: later) { world := { world } } =
      setting.watchEach later ((setting.watchFile [] path.normalize).run
        (setting.watchEach earlier { world := { world } })).2 := List.foldl_append
  unfold Setting.journal
  rw [hsplit]
  refine (setting.watchEach_steps later _).mem_journal ?_
  rw [show setting.compile path = setting.compileFile [] path.normalize from rfl,
    show setting.compileEach earlier { world } = _ from
      (setting.forget_watchEach earlier { world := { world } }).symm,
    ← setting.watchFile_mirrors [] path.normalize]
  rw [watchFile, Run.run_noting]
  exact List.mem_append_right _ List.mem_cons_self

/-- In a calm run the store does not fail, and the files that are visited read as they did at the
beginning. -/
structure Calm (setting : Setting ω) (world : ω) (j : Journal ω) : Prop where
  accepted {p failure} : .stored p (.error failure) ∉ j
  unchanged {below path before} : .began below path before ∈ j →
    setting.sources.document path before.world = setting.sources.document path world

/-- What a node that looks up a skin starts as in a calm run. -/
inductive StartsFrom (setting : Setting ω) (world : ω) (j : Journal ω) (stack : List Path)
    (file : Path) (name : String) : Node → Prop where
  | cyclic : isOn stack file = true → StartsFrom setting world j stack file name { name }
  | unread {failure} : setting.sources.document file world = .error failure →
      StartsFrom setting world j stack file name { name }
  | copied {root handle} : isOn stack file = false →
      .stored (setting.prefabOf file root) (.ok handle) ∈ j →
      StartsFrom setting world j stack file name { root with name, skin := some handle }

theorem calm_of_still {setting : Setting ω}
    (hstore : ∀ p world, ∃ handle, (setting.store.persist p world).1 = .ok handle)
    (hsources : ∀ path world world', setting.sources.read path world =
      setting.sources.read path world') (world : ω) (paths : List Path) :
    setting.Calm world (setting.journal world paths) := by
  refine ⟨fun {p failure} h => ?_, fun {_ path before} _ => ?_⟩
  · obtain ⟨w, hw⟩ := exists_persist h
    obtain ⟨handle, hhandle⟩ := hstore p w
    rw [hw] at hhandle
    cases hhandle
  · unfold Sources.document
    rw [hsources path before.world world]

/-- Every file holds a button, and one of the files is the skin of buttons. -/
def oneSkin : Setting Unit where
  skins := SkinTable.empty.insert "eui.Button" ⟨"button.exml"⟩
  sources := { read := fun _ _ => .ok "<e:Button/>" }
  locator := .openLocator
  store := .memory

theorem oneSkin_calm (paths : List Path) : oneSkin.Calm () (oneSkin.journal () paths) :=
  calm_of_still (fun p _ => ⟨⟨p.url⟩, rfl⟩) (fun _ _ _ => rfl) () paths

theorem elementOf_button : Markup.elementOf .empty "e:Button".toList =
    .ok { namePrefix := "e", localName := "Button" } := by
  have hname : Element.named (Markup.nameOf "e:Button".toList) =
      { namePrefix := "e", localName := "Button" } := rfl
  have hempty : (Markup.nameOf "e:Button".toList).isEmpty = false := rfl
  have hattributes : Markup.attributesOf "e:Button".toList = .ok [] := by decide +kernel
  unfold Markup.elementOf
  rw [hattributes]
  dsimp only
  rw [hempty, hname]
  rfl

theorem oneSkin_document (world : Unit) (path : Path) :
    oneSkin.sources.document path world = .ok { namePrefix := "e", localName := "Button" } := by
  have hscan : Markup.scan "<e:Button/>".toList = ([.opening "e:Button".toList true], none) := by
    decide +kernel
  have hread : Markup.readDocument "<e:Button/>" =
      .ok { namePrefix := "e", localName := "Button" } := by
    unfold Markup.readDocument
    rw [hscan]
    change (do
      let p ← (Markup.elementOf .empty "e:Button".toList >>= Markup.Progress.close {}) >>= pure
      p.finish) = _
    rw [elementOf_button]
    rfl
  change (Markup.readDocument "<e:Button/>").mapError _ = _
  rw [hread]
  rfl

theorem oneSkin_paths : ∀ p ∈ oneSkin.skins.paths, p = ⟨"button.exml"⟩ := by decide +kernel

theorem oneSkin_refers {world : Unit} {p q : Path} (h : oneSkin.Refers world p q) :
    q = ⟨"button.exml"⟩ := by
  obtain ⟨-, -, -, file, -, -, -, rfl⟩ := h
  exact oneSkin_paths _ file.2

section
variable {setting : Setting ω} {world : ω} {paths : List Path} {path : Path}

/-- In a calm run a file that is visited refers to what it referred to at the beginning. -/
theorem Calm.refers (hcalm : setting.Calm world (setting.journal world paths)) {below : List Path}
    {before : Session ω} (hbegan : .began below path before ∈ setting.journal world paths)
    {q : Path} (h : setting.Refers before.world path q) : setting.Refers world path q := by
  unfold Refers at h ⊢
  rwa [hcalm.unchanged hbegan] at h

theorem Calm.answered (hcalm : setting.Calm world (setting.journal world paths)) {v : Visit ω}
    (hv : .visited v ∈ setting.journal world paths) : ∃ r, v.result = .ok r := by
  cases hresult : v.result with
  | error failure =>
    obtain ⟨p, hp⟩ := (setting.accounted world paths).stopped hv hresult
    exact absurd hp hcalm.accepted
  | ok r => exact ⟨r, rfl⟩

theorem Calm.exists_started (hcalm : setting.Calm world (setting.journal world paths))
    {stack : List Path} {e : Element} {override : Option String} {result : Except Failure Node}
    (hstarted : .started ⟨stack, e, override, result⟩ ∈ setting.journal world paths) :
    ∃ n, result = .ok n := by
  have horigin : setting.Origin (setting.journal world paths) stack e override result :=
    (setting.accounted world paths).started hstarted
  cases horigin with
  | plain _ => exact ⟨_, rfl⟩
  | cyclic _ _ => exact ⟨_, rfl⟩
  | unread _ _ _ _ => exact ⟨_, rfl⟩
  | copied _ _ _ => exact ⟨_, rfl⟩
  | stopped _ _ hp => exact absurd hp hcalm.accepted

theorem Calm.startsFrom (hcalm : setting.Calm world (setting.journal world paths))
    {stack : List Path} {e : Element} {override : Option String} {n : Node}
    (hn : Begins (setting.journal world paths) stack e override n) {file : setting.skins.File}
    (hlookup : setting.lookup? e override = some file) :
    setting.StartsFrom world (setting.journal world paths) stack file.1 e.nodeName n := by
  have horigin : setting.Origin (setting.journal world paths) stack e override (.ok n) :=
    (setting.accounted world paths).started hn
  have hfiles : ∀ {other}, setting.lookup? e override = some other → file = other := fun h =>
    Option.some.inj (hlookup.symm.trans h)
  cases horigin with
  | plain hnone =>
    rw [hlookup] at hnone
    cases hnone
  | cyclic h hon =>
    obtain rfl := hfiles h
    exact .cyclic hon
  | unread h _ hbegan hdocument =>
    obtain rfl := hfiles h
    exact .unread ((hcalm.unchanged hbegan).symm.trans hdocument)
  | copied h hoff hstored =>
    obtain rfl := hfiles h
    exact .copied hoff hstored

theorem plain_of_lookup_eq_none
    {stack : List Path} {e : Element} {override : Option String} {n : Node}
    (hn : Begins (setting.journal world paths) stack e override n)
    (hlookup : setting.lookup? e override = none) : n = { name := e.nodeName } := by
  have horigin : setting.Origin (setting.journal world paths) stack e override (.ok n) :=
    (setting.accounted world paths).started hn
  cases horigin with
  | plain => rfl
  | cyclic h => rfl
  | unread h => rfl
  | copied h =>
    rw [hlookup] at h
    cases h

/-- In a calm run no call fails. -/
theorem Calm.run_compileAll (hcalm : setting.Calm world (setting.journal world paths)) :
    (setting.compileAll paths).run { world } = (.ok (), setting.compileEach paths { world }) := by
  have hok : ∀ earlier rest, earlier ++ rest = paths →
      ((setting.compileAll rest).run (setting.compileEach earlier { world })).1 = .ok () := by
    intro earlier rest hsplit
    induction rest generalizing earlier with
    | nil => rfl
    | cons path rest ih =>
      have hv := setting.visited_of_call world earlier path rest
      rw [hsplit] at hv
      obtain ⟨r, hr⟩ := hcalm.answered hv
      have hnext : setting.compileEach (earlier ++ [path]) { world } =
          ((setting.compile path).run (setting.compileEach earlier { world })).2 :=
        List.foldl_append
      have hrest := ih (earlier ++ [path]) (by rw [← hsplit, List.append_assoc]; rfl)
      rw [hnext] at hrest
      rw [compileAll, Run.run_bind]
      dsimp only at hr
      generalize (setting.compile path).run (setting.compileEach earlier { world }) = done
        at hr hrest ⊢
      rcases done with ⟨failure | answer, t⟩
      · cases hr
      · exact hrest
  have hrun : (setting.compileAll paths).run { world } =
      (.ok (), ((setting.compileAll paths).run { world }).2) := Prod.ext (hok [] paths rfl) rfl
  rw [compileEach_of_compileAll hrun]
  exact hrun

theorem Calm.stored_of_visited (hcalm : setting.Calm world (setting.journal world paths))
    {v : Visit ω} (hv : .visited v ∈ setting.journal world paths) {e : Element}
    (hdocument : setting.sources.document v.path world = .ok e) :
    ∃ root handle, .stored (setting.prefabOf v.path root) (.ok handle) ∈
      setting.journal world paths := by
  obtain ⟨r, hr⟩ := hcalm.answered hv
  have haccounted := setting.accounted world paths
  obtain ⟨hnormal, hanswer⟩ := haccounted.answered hv hr
  obtain ⟨state, hstate, -⟩ := Option.map_eq_some_iff.1 hanswer
  cases state with
  | failed =>
    obtain ⟨below, before, failure, hbegan, hfailure⟩ := haccounted.failed hnormal hstate
    rw [hcalm.unchanged hbegan, hdocument] at hfailure
    cases hfailure
  | compiled skin => exact ⟨_, _, haccounted.compiled hnormal hstate⟩

theorem Calm.stored_of_document (hcalm : setting.Calm world (setting.journal world paths))
    (hpath : path ∈ paths) {e : Element}
    (hdocument : setting.sources.document path.normalize world = .ok e) :
    ∃ root handle, .stored (setting.prefabOf path.normalize root) (.ok handle) ∈
      setting.journal world paths := by
  obtain ⟨earlier, later, hsplit⟩ := List.append_of_mem hpath
  have hv := setting.visited_of_call world earlier path later
  dsimp only at hv
  rw [← hsplit] at hv
  exact hcalm.stored_of_visited hv hdocument

/-- In a calm run what is stored was built from the markup of its file. -/
theorem Calm.built (hcalm : setting.Calm world (setting.journal world paths)) {root : Node}
    {result : Except Failure PrefabRef}
    (hstored : .stored (setting.prefabOf path root) result ∈ setting.journal world paths) :
    path.normalize = path ∧ ∃ below e, setting.sources.document path world = .ok e ∧
      setting.Called (setting.journal world paths) below path ∧
      setting.Grown (Begins (setting.journal world paths) (path :: below)) path e
        (setting.rootWidget? path) none root := by
  obtain ⟨other, otherRoot, hsame, hnormal, below, before, e, hbegan, hdocument, hgrown⟩ :=
    (setting.accounted world paths).stored hstored
  obtain rfl : path = other := congrArg Prefab.source hsame
  obtain rfl : root = otherRoot := congrArg Prefab.root hsame
  rw [hcalm.unchanged hbegan] at hdocument
  exact ⟨hnormal, below, e, hdocument, ((setting.accounted world paths).began hbegan).2.2, hgrown⟩

end

end Setting

end MarkupScene
