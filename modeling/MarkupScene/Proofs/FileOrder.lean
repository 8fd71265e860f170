import MarkupScene.Proofs.Nesting
import MarkupScene.Proofs.Reference

/-!
# The order of files

A run over the same files in another order stores the same files at the same places. It stores the
same roots for all files from which no two different files are reached that refer to each other. In
such a cycle the file that is entered last finds the others still being compiled, and which one that
is depends on the order.
-/
namespace MarkupScene

variable {ω : Type}

namespace Setting

/-- Among a file and the files that it refers to, directly or through others, no two refer to each
other. A file that refers to itself is no obstacle. -/
def Untangled (setting : Setting ω) (world : ω) (path : Path) : Prop :=
  ∀ p q, Relation.ReflTransGen (setting.Refers world) path p →
    Relation.ReflTransGen (setting.Refers world) p q →
      Relation.ReflTransGen (setting.Refers world) q p → p = q

section
variable {setting : Setting ω} {world : ω} {paths paths' : List Path} {path : Path}

theorem Untangled.of_refers (h : setting.Untangled world path) {q : Path}
    (hrefers : setting.Refers world path q) : setting.Untangled world q :=
  fun r t hr => h r t (.head hrefers hr)

theorem Acyclic.untangled (h : setting.Acyclic world) (path : Path) :
    setting.Untangled world path := by
  intro p q _ hpq hqp
  rcases Relation.reflTransGen_iff_eq_or_transGen.1 hpq with heq | hpq
  · exact heq.symm
  · exact absurd (hpq.trans_left hqp) (h p)

theorem wellFounded_untangled (setting : Setting ω) (world : ω) :
    WellFounded fun q p => setting.Untangled world p ∧ setting.Refers world p q ∧ q ≠ p := by
  refine wellFounded_of_irrefl (fun h => h.2.1.mem_paths) fun p hcycle => ?_
  obtain ⟨q, ⟨huntangled, hrefers, hne⟩, hback⟩ := Relation.TransGen.head'_iff.1 hcycle
  have hback : Relation.ReflTransGen (setting.Refers world) q p :=
    Relation.ReflTransGen.mono (fun _ _ h => h.2.1) _ _ hback
  exact hne (huntangled p q .refl (.single hrefers) hback).symm

theorem untangled_of_one_skin {q : Path} (h : ∀ p ∈ setting.skins.paths, p = q) (path : Path) :
    setting.Untangled world path := by
  have hskin : ∀ {p r}, Relation.ReflTransGen (setting.Refers world) p r → r = p ∨ r = q := by
    intro p r hpr
    rcases Relation.reflTransGen_iff_eq_or_transGen.1 hpr with heq | hpr
    · exact .inl heq
    · obtain ⟨_, -, hr⟩ := Relation.TransGen.tail'_iff.1 hpr
      exact .inr (h r hr.mem_paths)
  intro p r _ hpr hrp
  rcases hskin hpr with hr | hr
  · exact hr.symm
  · rcases hskin hrp with hp | hp
    · exact hp
    · rw [hp, hr]

theorem Untangled.isOn_iff (huntangled : setting.Untangled world path)
    (hcalm : setting.Calm world (setting.journal world paths)) {below : List Path}
    (hcalled : setting.Called (setting.journal world paths) below path)
    (hnormal : path.normalize = path) {q : Path} (hrefers : setting.Refers world path q) :
    isOn (path :: below) q = true ↔ q = path := by
  constructor
  · intro hon
    rcases hcalled.mem_of_isOn hnormal (SkinTable.normalize_of_mem_paths hrefers.mem_paths) hon with
      h | h
    · exact h
    · have hback := (hcalled.transGen hcalm h).to_reflTransGen
      exact (huntangled path q .refl (.single hrefers) hback).symm
  · rintro rfl
    rw [isOn_cons, Path.same, decide_eq_true rfl, Bool.true_or]

theorem Calm.start_unique (hcalm : setting.Calm world (setting.journal world paths))
    (hcalm' : setting.Calm world (setting.journal world paths'))
    (halike : AnswersAlike (setting.journal world paths) (setting.journal world paths'))
    (huntangled : setting.Untangled world path)
    (ih : ∀ q, setting.Refers world path q → q ≠ path → ∀ {root root' handle handle'},
      .stored (setting.prefabOf q root) (.ok handle) ∈ setting.journal world paths →
      .stored (setting.prefabOf q root') (.ok handle') ∈ setting.journal world paths' →
        root = root')
    {below below' : List Path} (hcalled : setting.Called (setting.journal world paths) below path)
    (hcalled' : setting.Called (setting.journal world paths') below' path)
    (hnormal : path.normalize = path) {e : Element} {override : Option String} {n n' : Node}
    (hrefers : ∀ file, setting.lookup? e override = some file → setting.Refers world path file.1)
    (hn : Begins (setting.journal world paths) (path :: below) e override n)
    (hn' : Begins (setting.journal world paths') (path :: below') e override n') : n = n' := by
  cases hlookup : setting.lookup? e override with
  | none =>
    rw [plain_of_lookup_eq_none hn hlookup, plain_of_lookup_eq_none hn' hlookup]
  | some file =>
    have hon := huntangled.isOn_iff hcalm hcalled hnormal (hrefers file hlookup)
    have hon' := huntangled.isOn_iff hcalm' hcalled' hnormal (hrefers file hlookup)
    -- In both runs the skin is being compiled exactly when it is the file itself.
    have hsame : isOn (path :: below) file.1 = isOn (path :: below') file.1 :=
      Bool.eq_iff_iff.2 (hon.trans hon'.symm)
    have hstarts := hcalm.startsFrom hn hlookup
    have hstarts' := hcalm'.startsFrom hn' hlookup
    cases hstarts with
    | cyclic h =>
      cases hstarts' with
      | cyclic | unread => rfl
      | copied hoff' _ =>
        rw [← hsame, h] at hoff'
        cases hoff'
    | unread h =>
      cases hstarts' with
      | cyclic | unread => rfl
      | copied _ hstored' =>
        obtain ⟨-, -, e, hdocument, -⟩ := hcalm'.built hstored'
        rw [h] at hdocument
        cases hdocument
    | @copied root handle hoff hstored =>
      cases hstarts' with
      | cyclic h' =>
        rw [← hsame, hoff] at h'
        cases h'
      | unread h' =>
        obtain ⟨-, -, e, hdocument, -⟩ := hcalm.built hstored
        rw [h'] at hdocument
        cases hdocument
      | @copied root' handle' _ hstored' =>
        have hne : file.1 ≠ path := fun h => by
          rw [hon.2 h] at hoff
          cases hoff
        obtain rfl := ih file.1 (hrefers file hlookup) hne hstored hstored'
        obtain rfl := halike _ handle handle' hstored hstored'
        rfl

theorem Calm.untangled_root_unique (hcalm : setting.Calm world (setting.journal world paths))
    (hcalm' : setting.Calm world (setting.journal world paths'))
    (hlocator : setting.locator.Constant)
    (hregistry : ∀ w i, setting.registry.importer? w = some i → i.Determined)
    (halike : AnswersAlike (setting.journal world paths) (setting.journal world paths'))
    (huntangled : setting.Untangled world path) {root root' : Node} {handle handle' : PrefabRef}
    (hstored : .stored (setting.prefabOf path root) (.ok handle) ∈ setting.journal world paths)
    (hstored' : .stored (setting.prefabOf path root') (.ok handle') ∈
      setting.journal world paths') : root = root' := by
  -- By induction along the references of untangled files to others than themselves.
  induction path using (setting.wellFounded_untangled world).induction
    generalizing root root' handle handle' with
  | _ path ih =>
    obtain ⟨hnormal, below, e, hdocument, hcalled, hgrown⟩ := hcalm.built hstored
    obtain ⟨-, below', e', hdocument', hcalled', hgrown'⟩ := hcalm'.built hstored'
    obtain rfl := Except.ok.inj (hdocument.symm.trans hdocument')
    refine (hgrown.restrict .root).unique hgrown' ?_ ?_
    · rintro k override n n' ⟨hk, hn⟩ hn'
      refine hcalm.start_unique hcalm' halike huntangled (fun q hq hne => ?_) hcalled hcalled'
        hnormal (fun file hlookup => ⟨e, k, override, file, hdocument, hk, hlookup, rfl⟩) hn hn'
      exact ih q ⟨huntangled, hq, hne⟩ (huntangled.of_refers hq)
    · exact fun k override widget n _ _ _ _ _ _ => importNode_unique hlocator hregistry path k
        override widget n

/-- Two runs store the same files at the same places, with the same roots for untangled files. -/
structure SamePrefabs (setting : Setting ω) (world : ω) (paths paths' : List Path) : Prop where
  /-- No call fails, so that the journals are those of the whole runs. -/
  completed : (setting.compileAll paths).run { world } =
    (.ok (), setting.compileEach paths { world })
  completed' : (setting.compileAll paths').run { world } =
    (.ok (), setting.compileEach paths' { world })
  sources (path : Path) :
    (∃ p handle, .stored p (.ok handle) ∈ setting.journal world paths ∧ p.source = path) ↔
      ∃ p handle, .stored p (.ok handle) ∈ setting.journal world paths' ∧ p.source = path
  places {p p' handle handle'} : .stored p (.ok handle) ∈ setting.journal world paths →
    .stored p' (.ok handle') ∈ setting.journal world paths' → p.source = p'.source →
      p.outputPath = p'.outputPath ∧ p.url = p'.url
  prefabs {p p' handle handle'} : .stored p (.ok handle) ∈ setting.journal world paths →
    .stored p' (.ok handle') ∈ setting.journal world paths' → p.source = p'.source →
      setting.Untangled world p.source → p = p'
  prefabs_of_acyclic {p p' handle handle'} : .stored p (.ok handle) ∈ setting.journal world paths →
    .stored p' (.ok handle') ∈ setting.journal world paths' → p.source = p'.source →
      setting.Acyclic world → p = p'

theorem Calm.exists_stored_iff (hcalm : setting.Calm world (setting.journal world paths)) :
    (∃ p handle, .stored p (.ok handle) ∈ setting.journal world paths ∧ p.source = path) ↔
      setting.Involves world paths path ∧ ∃ e, setting.sources.document path world = .ok e := by
  rw [← hcalm.stored_iff]
  constructor
  · rintro ⟨p, handle, hp, rfl⟩
    obtain ⟨path, root, rfl, -⟩ := (setting.accounted world paths).stored hp
    exact ⟨root, handle, hp⟩
  · rintro ⟨root, handle, hp⟩
    exact ⟨_, handle, hp, rfl⟩

/-- The order of the files of a run does not matter to what it stores, but for files that are
tangled. -/
theorem file_order_irrelevant (hlocator : setting.locator.Constant)
    (hregistry : ∀ w i, setting.registry.importer? w = some i → i.Determined)
    (horder : paths.Perm paths') (hcalm : setting.Calm world (setting.journal world paths))
    (hcalm' : setting.Calm world (setting.journal world paths'))
    (halike : AnswersAlike (setting.journal world paths) (setting.journal world paths')) :
    setting.SamePrefabs world paths paths' := by
  have hprefabs : ∀ {p p' handle handle'},
      .stored p (.ok handle) ∈ setting.journal world paths →
      .stored p' (.ok handle') ∈ setting.journal world paths' → p.source = p'.source →
        setting.Untangled world p.source → p = p' := by
    intro p p' handle handle' hp hp' hsource huntangled
    obtain ⟨path, root, rfl, -⟩ := (setting.accounted world paths).stored hp
    obtain ⟨path', root', rfl, -⟩ := (setting.accounted world paths').stored hp'
    obtain rfl : path = path' := hsource
    rw [hcalm.untangled_root_unique hcalm' hlocator hregistry halike huntangled hp hp']
  constructor
  case completed => exact hcalm.run_compileAll
  case completed' => exact hcalm'.run_compileAll
  case sources =>
    intro path
    have hinvolves : setting.Involves world paths path ↔ setting.Involves world paths' path :=
      exists_congr fun p => and_congr_left fun _ => horder.mem_iff
    rw [hcalm.exists_stored_iff, hcalm'.exists_stored_iff, hinvolves]
  case places =>
    intro p p' handle handle' hp hp' hsource
    obtain ⟨path, root, rfl, -⟩ := (setting.accounted world paths).stored hp
    obtain ⟨path', root', rfl, -⟩ := (setting.accounted world paths').stored hp'
    obtain rfl : path = path' := hsource
    exact ⟨rfl, rfl⟩
  case prefabs => exact hprefabs
  case prefabs_of_acyclic =>
    exact fun hp hp' hsource hacyclic => hprefabs hp hp' hsource (hacyclic.untangled _)

end

/-- A skin that uses itself, and files that use it. -/
def selfSkin : Setting Unit where
  skins := SkinTable.empty.insert "eui.Loop" ⟨"loop.exml"⟩
  sources := { read := fun _ _ => .ok "<e:Group><e:Loop/></e:Group>" }
  locator := .openLocator
  store := .memory

/-- A file with an instance of such a skin is stored alike before the skin is listed and after. -/
theorem selfSkin_file_order :
    selfSkin.Untangled () ⟨"main.exml"⟩ ∧
      selfSkin.SamePrefabs () [⟨"loop.exml"⟩, ⟨"main.exml"⟩] [⟨"main.exml"⟩, ⟨"loop.exml"⟩] ∧
      ∃ p handle handle',
        .stored p (.ok handle) ∈ selfSkin.journal () [⟨"loop.exml"⟩, ⟨"main.exml"⟩] ∧
          .stored p (.ok handle') ∈ selfSkin.journal () [⟨"main.exml"⟩, ⟨"loop.exml"⟩] ∧
            p.source = ⟨"main.exml"⟩ ∧ p.root.children.map (·.isSkinInstance) = [true] := by
  let paths : List Path := [⟨"loop.exml"⟩, ⟨"main.exml"⟩]
  let paths' : List Path := [⟨"main.exml"⟩, ⟨"loop.exml"⟩]
  have hcalm : ∀ files, selfSkin.Calm () (selfSkin.journal () files) :=
    calm_of_still (fun p _ => ⟨⟨p.url⟩, rfl⟩) (fun _ _ _ => rfl) ()
  have hskin : ∀ p ∈ selfSkin.skins.paths, p = ⟨"loop.exml"⟩ := by decide +kernel
  have huntangled : selfSkin.Untangled () ⟨"main.exml"⟩ := untangled_of_one_skin hskin _
  have hstore : selfSkin.store.Constant := fun _ _ _ => rfl
  have hsame := file_order_irrelevant openLocator_constant
    (fun _ _ h => Registry.builtIn_onlyBuiltIn.determined h) (List.Perm.swap _ _ _) (hcalm paths)
    (hcalm paths') (answersAlike_of_constant hstore () () paths paths')
  obtain ⟨root, handle, hstored, hroot⟩ :=
    selfSkin.exists_stored_of_known () paths ⟨"main.exml"⟩ (by decide +kernel)
      (fun root => root.children.map (·.isSkinInstance) = [true]) (by decide +kernel)
  obtain ⟨root', handle', hstored', -⟩ :=
    selfSkin.exists_stored_of_known () paths' ⟨"main.exml"⟩ (by decide +kernel)
      (fun _ => true) (by decide +kernel)
  have hprefab := hsame.prefabs hstored hstored' rfl huntangled
  rw [← hprefab] at hstored'
  exact ⟨huntangled, hsame, _, handle, handle', hstored, hstored', rfl, of_decide_eq_true hroot⟩

/-- Two skins that use each other. -/
def mutualSkins : Setting Unit where
  skins := (SkinTable.empty.insert "eui.A" ⟨"a.exml"⟩).insert "eui.B" ⟨"b.exml"⟩
  sources :=
    { read := fun path _ =>
        if path = ⟨"a.exml"⟩ then .ok "<e:Group><e:B/></e:Group>"
        else .ok "<e:Group><e:A/></e:Group>" }
  locator := .openLocator
  store := .memory

/-- Of two skins that use each other the one that is compiled first has an instance of the other,
which itself has a plain node. When the store counts, handles tell the order. -/
theorem file_order_matters :
    (mutualSkins.Steady ∧ ∃ p p' handle handle',
      .stored p (.ok handle) ∈ mutualSkins.journal () [⟨"a.exml"⟩, ⟨"b.exml"⟩] ∧
        .stored p' (.ok handle') ∈ mutualSkins.journal () [⟨"b.exml"⟩, ⟨"a.exml"⟩] ∧
          p.source = p'.source ∧ p.root ≠ p'.root) ∧
    (countingStore.Steady ∧ (∀ path, countingStore.Untangled 0 path) ∧ ∃ p p' handle handle',
      .stored p (.ok handle) ∈ countingStore.journal 0 [⟨"main.exml"⟩, ⟨"other.exml"⟩] ∧
        .stored p' (.ok handle') ∈ countingStore.journal 0 [⟨"other.exml"⟩, ⟨"main.exml"⟩] ∧
          p.source = p'.source ∧ p.root ≠ p'.root) := by
  constructor
  · refine ⟨⟨openLocator_constant, Registry.builtIn_onlyBuiltIn, fun _ _ _ => rfl,
      fun p _ => ⟨⟨p.url⟩, rfl⟩⟩, ?_⟩
    exact mutualSkins.exists_stored_apart () [⟨"a.exml"⟩, ⟨"b.exml"⟩] [⟨"b.exml"⟩, ⟨"a.exml"⟩]
      ⟨"b.exml"⟩ (by decide +kernel)
      (fun root => root.children.all fun child => !child.isSkinInstance)
      (by decide +kernel) (by decide +kernel)
  · have hskin : ∀ p ∈ countingStore.skins.paths, p = ⟨"button.exml"⟩ := by decide +kernel
    exact ⟨countingStore_steady, untangled_of_one_skin hskin,
      countingStore.exists_stored_apart 0 [⟨"main.exml"⟩, ⟨"other.exml"⟩]
        [⟨"other.exml"⟩, ⟨"main.exml"⟩] ⟨"main.exml"⟩ (by decide +kernel)
        (fun root => root.skin = some ⟨"0"⟩) (by decide +kernel) (by decide +kernel)⟩

end Setting

end MarkupScene
