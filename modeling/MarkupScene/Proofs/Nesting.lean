import MarkupScene.Proofs.Accounts

/-!
# Nested visits

Visits nest: what begins during the visit of a file ends during it, and is further up the stack.
So a run starts with its own files only, and every file that was on a stack has been visited when
the run is over. The main statement is that a calm run stores the files that it can read among its
own and those that these refer to, directly or through others, whatever their order.
-/
namespace MarkupScene.Setting

variable {ω : Type}

/-- Every visit that begins below the files on a stack ends. -/
def Nested (stack : List Path) (j : Journal ω) : Prop :=
  ∀ below path before, .began below path before ∈ j → stack <:+ below ∧
    ∃ result after, .visited ⟨below, path, before, result, after⟩ ∈ j

/-- A step in which only such visits begin. -/
def Nests (stack : List Path) {α : Type} (m : Run (Watched ω) α) : Prop :=
  ∀ s, ∃ added, (m.run s).2.journal = s.journal ++ added ∧ Nested stack added

/-- The part of a journal in which a file is visited. -/
inductive VisitOf (stack : List Path) (path : Path) : Journal ω → Prop where
  | mk {inner before result after} : Nested (path :: stack) inner →
      VisitOf stack path
        (.began stack path before :: (inner ++ [.visited ⟨stack, path, before, result, after⟩]))

section
variable {setting : Setting ω} {stack : List Path} {path : Path} {j k : Journal ω}

theorem Nested.append (hj : Nested stack j) (hk : Nested stack k) : Nested stack (j ++ k) := by
  intro below path before h
  rcases List.mem_append.1 h with h | h
  · obtain ⟨hbelow, result, after, hv⟩ := hj below path before h
    exact ⟨hbelow, result, after, List.mem_append_left _ hv⟩
  · obtain ⟨hbelow, result, after, hv⟩ := hk below path before h
    exact ⟨hbelow, result, after, List.mem_append_right _ hv⟩

theorem nested_nil : Nested stack ([] : Journal ω) := fun _ _ _ h => nomatch h

theorem VisitOf.nested (h : VisitOf stack path j) : Nested stack j := by
  obtain ⟨hinner⟩ := h
  intro below p before h
  rcases List.mem_cons.1 h with h | h
  · obtain ⟨rfl, rfl, rfl⟩ := Event.began.inj h
    exact ⟨List.suffix_refl _, _, _, List.mem_cons_of_mem _ (List.mem_append_right _
      List.mem_cons_self)⟩
  · rcases List.mem_append.1 h with h | h
    · obtain ⟨hbelow, result, after, hv⟩ := hinner below p before h
      exact ⟨(List.suffix_cons _ _).trans hbelow, result, after,
        List.mem_cons_of_mem _ (List.mem_append_left _ hv)⟩
    · cases List.mem_singleton.1 h

theorem VisitOf.eq_of_began (h : VisitOf stack path j) {p : Path} {before : Session ω}
    (hp : .began stack p before ∈ j) : p = path := by
  obtain ⟨hinner⟩ := h
  rcases List.mem_cons.1 hp with hp | hp
  · exact (Event.began.inj hp).2.1
  · rcases List.mem_append.1 hp with hp | hp
    · obtain ⟨hlonger, -⟩ := hinner stack p before hp
      exact absurd hlonger.length_le (Nat.not_succ_le_self _)
    · cases List.mem_singleton.1 hp

end

namespace Nests
variable {setting : Setting ω} {stack : List Path} {α β : Type} {m : Run (Watched ω) α}

theorem of_still (h : ∀ s, ∃ added, (m.run s).2.journal = s.journal ++ added ∧
    ∀ below path before, .began below path before ∉ added) : Nests stack m := by
  intro s
  obtain ⟨added, hadded, hnone⟩ := h s
  exact ⟨added, hadded, fun below path before hp => absurd hp (hnone below path before)⟩

theorem pure (a : α) : Nests stack (Pure.pure a : Run (Watched ω) α) := fun _ =>
  ⟨[], (List.append_nil _).symm, nested_nil⟩

theorem bind {f : α → Run (Watched ω) β} (hm : Nests stack m) (hf : ∀ a, Nests stack (f a)) :
    Nests stack (m >>= f) := by
  intro s
  obtain ⟨added, hadded, hnested⟩ := hm s
  rw [Run.run_bind]
  generalize m.run s = first at hadded ⊢
  rcases first with ⟨failure | a, t⟩
  · exact ⟨added, hadded, hnested⟩
  · obtain ⟨more, hmore, hmoreNested⟩ := hf a t
    dsimp only at hadded ⊢
    exact ⟨added ++ more, by rw [hmore, hadded, List.append_assoc], hnested.append hmoreNested⟩

theorem noting {event : Session ω → Except Failure α → Session ω → Event ω} (hm : Nests stack m)
    (hevent : ∀ s result t below path before, event s result t ≠ .began below path before) :
    Nests stack (Run.noting event m) := by
  intro s
  obtain ⟨added, hadded, hnested⟩ := hm s
  rw [Run.run_noting]
  refine ⟨added ++ [event s.forget (m.run s).1 (m.run s).2.forget], ?_, hnested.append ?_⟩
  · rw [Session.journal_note, hadded, List.append_assoc]
  · exact fun _ _ _ hp => absurd (List.mem_singleton.1 hp).symm (hevent _ _ _ _ _ _)

end Nests

/-- Nested visits only, whatever a run is compared to. -/
def nesting (stack : List Path) : Coupling (Watched ω) (Watched ω) where
  related m _ := Nests stack m
  pure := .pure
  bind := .bind

section
variable {setting : Setting ω} {stack : List Path} {path : Path}

theorem importNode_nests (source : Path) (e : Element) (override widget : Option String)
    (n : Node) : Nests stack (setting.watched.importNode source e override widget n) := by
  refine .of_still fun s => ?_
  obtain ⟨-, hcases⟩ := setting.run_importNode source e override widget n s
  rcases hcases with hsame | ⟨-, -, -, -, after, -, -, hafter⟩
  · rw [hsame]
    exact ⟨[], (List.append_nil _).symm, fun _ _ _ => List.not_mem_nil⟩
  · rw [hafter]
    exact ⟨_, rfl, fun _ _ _ h => nomatch List.mem_singleton.1 h⟩

theorem look_nests (path : Path) : Nests stack (setting.watched.look path) := by
  refine .of_still fun s => ⟨[], ?_, fun _ _ _ => List.not_mem_nil⟩
  obtain ⟨-, hcases⟩ := setting.watched.run_look path s
  rw [List.append_nil]
  rcases hcases with hsame | ⟨reason, hskip⟩
  · rw [hsame]
  · rw [hskip]
    rfl

theorem copyKnown_nests (path : Path) (name : String) :
    Nests stack (copyKnown path name : Run (Watched ω) Node) :=
  .of_still fun _ => ⟨[], (List.append_nil _).symm, fun _ _ _ => List.not_mem_nil⟩

theorem finish_nests (path : Path) (root : Node) :
    Nests stack (setting.watched.finish path root) := by
  refine .of_still fun s => ?_
  rw [run_finish_watched]
  rcases setting.store.persist (setting.prefabOf path root) s.forget.world with
    ⟨failure | handle, world⟩
  · exact ⟨_, rfl, fun _ _ _ h => nomatch List.mem_singleton.1 h⟩
  · exact ⟨_, rfl, fun _ _ _ h => nomatch List.mem_singleton.1 h⟩

theorem nesting_coupled (setting : Setting ω) (stack : List Path) :
    setting.watched.Coupled (nesting stack) setting.watched where
  options := rfl
  skins := rfl
  checks := rfl
  importing := importNode_nests
  looking := look_nests
  copying := copyKnown_nests
  finishing := finish_nests

theorem compileWith_nests {begin : Starting (Watched ω)}
    (hstart : ∀ e override, Nests stack (begin e override)) (path : Path) :
    Nests stack (setting.watched.compileWith begin path) := by
  have hstart : ∀ e override, (nesting stack).related (begin e override) (begin e override) :=
    hstart
  exact compileWith_coupled (setting.nesting_coupled stack) hstart path

theorem watchStart_nests
    {visit : (file : setting.skins.File) → isOn stack file.1 = false →
      Run (Watched ω) (Option PrefabRef)} (hvisit : ∀ file h, Nests stack (visit file h))
    (e : Element) (override : Option String) :
    Nests stack (setting.watchStart stack visit e override) := by
  refine Nests.noting ?_ fun _ _ _ _ _ _ => nofun
  rw [startNode_eq]
  cases setting.watched.lookup? e override with
  | none => exact .pure _
  | some file =>
    dsimp only
    unfold instantiate
    split
    · next hoff => exact (hvisit file hoff).bind fun _ => copyKnown_nests file.1 e.nodeName
    · exact .pure _

theorem watchFile_nests (setting : Setting ω) (stack : List Path) (path : Path)
    (s : Session (Watched ω)) :
    ∃ added, ((setting.watchFile stack path).run s).2.journal = s.journal ++ added ∧
      VisitOf stack path added := by
  induction stack, path using compileFile.induct setting generalizing s with
  | case1 stack path ih =>
    have hvisit : ∀ (file : setting.skins.File) (_ : isOn (path :: stack) file.1 = false),
        Nests (path :: stack) (setting.watchFile (path :: stack) file.1) := by
      intro file hfile s
      obtain ⟨added, hadded, hvisit⟩ := ih file hfile s
      exact ⟨added, hadded, hvisit.nested⟩
    have hcompile : Nests (path :: stack) (setting.watched.compileWith
        (setting.watchStart (path :: stack) fun file _ =>
          setting.watchFile (path :: stack) file.1) path) :=
      compileWith_nests (watchStart_nests hvisit) path
    obtain ⟨inner, hinner, hnested⟩ := hcompile (s.note (.began stack path s.forget))
    rw [watchFile, Run.run_noting, Run.run_bind, Run.run_modify]
    dsimp only
    generalize (setting.watched.compileWith _ _).run _ = done at hinner ⊢
    have hvisitOf : VisitOf stack path (.began stack path s.forget ::
        (inner ++ [.visited ⟨stack, path, s.forget, done.1, done.2.forget⟩])) := .mk hnested
    refine ⟨_, ?_, hvisitOf⟩
    rw [Session.journal_note, hinner, Session.journal_note, List.append_assoc, List.append_assoc]
    rfl

theorem watchEach_nests (setting : Setting ω) (paths : List Path) (s : Session (Watched ω)) :
    ∃ added, (setting.watchEach paths s).journal = s.journal ++ added ∧ Nested [] added ∧
      ∀ path before, .began [] path before ∈ added → ∃ p ∈ paths, p.normalize = path := by
  unfold watchEach
  induction paths generalizing s with
  | nil => exact ⟨[], (List.append_nil _).symm, nested_nil, fun _ _ h => nomatch h⟩
  | cons p rest ih =>
    obtain ⟨first, hfirst, hvisit⟩ := setting.watchFile_nests [] p.normalize s
    obtain ⟨others, hothers, hnested, hbegan⟩ := ih ((setting.watchFile [] p.normalize).run s).2
    refine ⟨first ++ others, ?_, hvisit.nested.append hnested, fun path before h => ?_⟩
    · rw [List.foldl_cons, hothers, hfirst, List.append_assoc]
    · rcases List.mem_append.1 h with h | h
      · exact ⟨p, List.mem_cons_self, (hvisit.eq_of_began h).symm⟩
      · obtain ⟨q, hq, hnormal⟩ := hbegan path before h
        exact ⟨q, List.mem_cons_of_mem _ hq, hnormal⟩

variable {world : ω} {paths : List Path}

theorem visited_of_began {below : List Path} {before : Session ω}
    (h : .began below path before ∈ setting.journal world paths) :
    ∃ result after, .visited ⟨below, path, before, result, after⟩ ∈
      setting.journal world paths := by
  obtain ⟨added, hadded, hnested, -⟩ := setting.watchEach_nests paths { world := { world } }
  obtain rfl : setting.journal world paths = added := hadded
  exact (hnested below path before h).2

theorem exists_of_began {before : Session ω}
    (h : .began [] path before ∈ setting.journal world paths) :
    ∃ p ∈ paths, p.normalize = path := by
  obtain ⟨added, hadded, -, hbegan⟩ := setting.watchEach_nests paths { world := { world } }
  obtain rfl : setting.journal world paths = added := hadded
  exact hbegan path before h

/-- A run involves its own files and those that these refer to, directly or through others. -/
def Involves (setting : Setting ω) (world : ω) (paths : List Path) (path : Path) : Prop :=
  ∃ p ∈ paths, Relation.ReflTransGen (setting.Refers world) p.normalize path

theorem Calm.involves (hcalm : setting.Calm world (setting.journal world paths))
    {below : List Path} {before : Session ω}
    (hbegan : .began below path before ∈ setting.journal world paths) :
    setting.Involves world paths path := by
  induction below generalizing path before with
  | nil =>
    obtain ⟨p, hp, rfl⟩ := exists_of_began hbegan
    exact ⟨p, hp, .refl⟩
  | cons caller below ih =>
    obtain ⟨-, -, hcalled⟩ := (setting.accounted world paths).began hbegan
    cases hcalled with
    | skin hcaller hrefers =>
      obtain ⟨p, hp, hreaches⟩ := ih hcaller
      exact ⟨p, hp, hreaches.tail (hcalm.refers hcaller hrefers)⟩

theorem Grown.exists_start {begins : Element → Option String → Node → Prop} {source : Path}
    {root e : Element} {widget override : Option String} {n : Node}
    (hn : setting.Grown begins source root widget none n)
    (he : setting.Reaches root widget e override) : ∃ fresh, begins e override fresh := by
  have hgrown : ∃ parent made, setting.Grown begins source e override parent made := by
    induction he with
    | root => exact ⟨_, _, hn⟩
    | @child e override k _ hk ih =>
      obtain ⟨parent, made, hmade⟩ := ih
      cases hmade with
      | @node _ _ _ fresh _ kids _ _ _ hlength hchildren _ =>
        obtain ⟨i, hi, rfl⟩ := List.getElem_of_mem hk
        exact ⟨_, _, hchildren _ _ (mem_zip_of_lt hi (hlength ▸ hi))⟩
  obtain ⟨parent, made, hmade⟩ := hgrown
  cases hmade with
  | node hstart => exact ⟨_, hstart⟩

/-- In a calm run a file that is stored refers to files that are stored when they can be read. -/
theorem Calm.stored_of_refers (hcalm : setting.Calm world (setting.journal world paths))
    {p : Path} {root : Node} {handle : PrefabRef}
    (hstored : .stored (setting.prefabOf p root) (.ok handle) ∈ setting.journal world paths)
    (hrefers : setting.Refers world p path) {e : Element}
    (hdocument : setting.sources.document path world = .ok e) :
    ∃ root handle, .stored (setting.prefabOf path root) (.ok handle) ∈
      setting.journal world paths := by
  obtain ⟨hnormal, below, e', hparent, hcalled, hgrown⟩ := hcalm.built hstored
  obtain ⟨other, k, override, file, hother, hreaches, hlookup, rfl⟩ := hrefers
  obtain rfl := Except.ok.inj (hother.symm.trans hparent)
  obtain ⟨fresh, hstart⟩ := hgrown.exists_start hreaches
  cases hcalm.startsFrom hstart hlookup with
  | cyclic hon =>
    -- The file is still being compiled here, and its visit ends later.
    rcases hcalled.mem_of_isOn hnormal (SkinTable.normalize_of_mem_paths file.2) hon with h | h
    · rw [h]
      exact ⟨_, _, hstored⟩
    · obtain ⟨inner, before, hbegan⟩ := hcalled.exists_began h
      obtain ⟨result, after, hv⟩ := visited_of_began hbegan
      exact hcalm.stored_of_visited hv hdocument
  | unread hfailure =>
    rw [hdocument] at hfailure
    cases hfailure
  | copied _ hskin => exact ⟨_, _, hskin⟩

/-- A calm run stores the files that it involves and that can be read. -/
theorem Calm.stored_iff (hcalm : setting.Calm world (setting.journal world paths)) :
    (∃ root handle, .stored (setting.prefabOf path root) (.ok handle) ∈
        setting.journal world paths) ↔
      setting.Involves world paths path ∧ ∃ e, setting.sources.document path world = .ok e := by
  constructor
  · rintro ⟨root, handle, hstored⟩
    obtain ⟨other, _, hsame, -, below, before, _, hbegan, -⟩ :=
      (setting.accounted world paths).stored hstored
    obtain rfl : path = other := congrArg Prefab.source hsame
    obtain ⟨-, -, e, hdocument, -⟩ := hcalm.built hstored
    exact ⟨hcalm.involves hbegan, e, hdocument⟩
  · rintro ⟨⟨p, hp, hreaches⟩, e, hdocument⟩
    induction hreaches generalizing e with
    | refl => exact hcalm.stored_of_document hp hdocument
    | tail _ hrefers ih =>
      have ⟨parent, _, _, _, hparent, _⟩ := hrefers
      obtain ⟨root, handle, hstored⟩ := ih parent hparent
      exact hcalm.stored_of_refers hstored hrefers hdocument

end

end MarkupScene.Setting
