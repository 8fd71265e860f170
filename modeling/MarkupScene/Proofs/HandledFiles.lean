import MarkupScene.Proofs.Agreement
import MarkupScene.Proofs.FileLists
import MarkupScene.Proofs.Nesting
import MarkupScene.Proofs.Reference
import MarkupScene.Proofs.Runs

/-!
# Handled files

A file is handled when the store has accepted its prefab or when it was skipped. A step handles one
file at most, and only one that is not known yet, so that no file is handled twice. The main
statements are about runs that succeed and have the skins among their files: they handle their files
and no others, and when the skins come first, their prefabs are stored first.
-/
namespace MarkupScene.Setting

open ImportReport

variable {ω : Type}

/-- The files whose prefabs the store has accepted, and those that were skipped. -/
def handled (s : Session (Watched ω)) : List Path :=
  s.journal.accepted.map (·.1.source) ++ s.report.skipped.map (·.path)

/-- Handled files are different, and each of them was visited. -/
structure HandledOnce (s : Session (Watched ω)) : Prop where
  nodup : (handled s).Nodup
  began : ∀ path ∈ handled s, ∃ below before, .began below path before ∈ s.journal

section
variable {setting : Setting ω} {stack : List Path} {s t : Session (Watched ω)} {path : Path}

/-- What a step adds to the prefabs that were accepted and to the files that were skipped: nothing,
or one file that is being visited and not known. -/
theorem Step.adds (hstep : setting.Step stack s t) :
    ∃ stored skipped, t.journal.accepted = s.journal.accepted ++ stored ∧
      t.report.skipped = s.report.skipped ++ skipped ∧
      (stored = [] ∧ skipped = [] ∨ ∃ path below before,
        stored.map (·.1.source) ++ skipped.map (·.path) = [path] ∧ s.cache.get? path = none ∧
          .began below path before ∈ s.journal) := by
  cases hstep with
  | @skipped below path failure s inside off normal began unknown unread =>
    exact ⟨[], [⟨path, failure.message⟩], (List.append_nil _).symm, rfl,
      .inr ⟨path, below, _, rfl, unknown, began⟩⟩
  | @stored below path root handle world s ready persist =>
    obtain ⟨before, e, hbegan, -, -⟩ := ready.built
    exact ⟨[(setting.prefabOf path root, handle)], [], Journal.accepted_append _ _,
      (List.append_nil _).symm, .inr ⟨path, below, before, rfl, ready.unknown, hbegan⟩⟩
  | _ =>
    exact ⟨[], [], Journal.accepted_append _ _, (List.append_nil _).symm, .inl ⟨rfl, rfl⟩⟩

theorem Agreed.known_of_handled (hs : Agreed s) (h : path ∈ handled s) :
    s.cache.get? path ≠ none := by
  rcases List.mem_append.1 h with h | h
  · obtain ⟨⟨p, handle⟩, hp, rfl⟩ := List.mem_map.1 h
    rw [(hs.compiled p.source ⟨handle, p.root⟩).2 ⟨p, hp, decide_eq_true rfl, rfl⟩]
    exact Option.some_ne_none _
  · obtain ⟨f, hf, rfl⟩ := List.mem_map.1 h
    rw [(hs.failed f.path).2 ⟨f, hf, decide_eq_true rfl⟩]
    exact Option.some_ne_none _

theorem HandledOnce.step (hs : HandledOnce s) (hagreed : Agreed s)
    (hstep : setting.Step stack s t) : HandledOnce t := by
  have hold : ∀ path ∈ handled s, ∃ below before, .began below path before ∈ t.journal := by
    intro path hpath
    obtain ⟨below, before, hbegan⟩ := hs.began path hpath
    exact ⟨below, before, hstep.mem_journal hbegan⟩
  obtain ⟨stored, skipped, hstored, hskipped, hadds⟩ := hstep.adds
  have hperm : (handled t).Perm
      ((stored.map (·.1.source) ++ skipped.map (·.path)) ++ handled s) := by
    rw [handled, hstored, hskipped, List.map_append, List.map_append, handled]
    refine .trans (.append_right _ List.perm_append_comm) ?_
    rw [List.append_assoc, List.append_assoc]
    refine .append_left _ ?_
    rw [← List.append_assoc]
    exact List.perm_append_comm
  rcases hadds with ⟨rfl, rfl⟩ | ⟨path, below, before, hpath, hunknown, hbegan⟩
  · exact ⟨hperm.nodup_iff.2 hs.nodup, fun p hp => hold p (hperm.mem_iff.1 hp)⟩
  · rw [hpath] at hperm
    constructor
    · refine hperm.nodup_iff.2 (List.nodup_cons.2 ⟨fun hhandled => ?_, hs.nodup⟩)
      exact hagreed.known_of_handled hhandled hunknown
    · intro p hp
      rcases List.mem_cons.1 (hperm.mem_iff.1 hp) with rfl | hp
      · exact ⟨below, before, hstep.mem_journal hbegan⟩
      · exact hold p hp

theorem Steps.accepted (hsteps : setting.Steps stack s t) :
    ∃ more, t.journal.accepted = s.journal.accepted ++ more ∧
      ∀ c ∈ more, s.cache.get? c.1.source = none := by
  induction hsteps with
  | refl => exact ⟨[], (List.append_nil _).symm, nofun⟩
  | @tail t u hbefore hstep ih =>
    obtain ⟨more, hmore, hnew⟩ := ih
    obtain ⟨stored, skipped, hstored, -, hadds⟩ := hstep.adds
    refine ⟨more ++ stored, by rw [hstored, hmore, List.append_assoc], fun c hc => ?_⟩
    rcases List.mem_append.1 hc with hc | hc
    · exact hnew c hc
    · rcases hadds with ⟨rfl, -⟩ | ⟨path, -, -, hpath, hunknown, -⟩
      · cases hc
      · have hsource : c.1.source ∈ [path] := by
          rw [← hpath]
          exact List.mem_append_left _ (List.mem_map_of_mem hc)
        rw [List.mem_singleton.1 hsource]
        cases hs : s.cache.get? path with
        | none => rfl
        | some state =>
          rw [Steps.get?_of_known hbefore hs] at hunknown
          cases hunknown

end

section
variable {setting : Setting ω} {world : ω} {files : List Path} {path : Path}

theorem handledOnce (setting : Setting ω) (world : ω) (paths : List Path) :
    HandledOnce (setting.watchEach paths { world := { world } }) := by
  have hnew : HandledOnce ({ world := { world } } : Session (Watched ω)) := ⟨.nil, nofun⟩
  refine (setting.watchEach_induction (motive := fun s => Agreed s ∧ HandledOnce s)
    ⟨setting.agreed world [], hnew⟩ ?_ paths).2
  rintro s t ⟨hagreed, honce⟩ hstep
  exact ⟨hagreed.step hstep, honce.step hagreed hstep⟩

theorem call_of_ok {earlier later : List Path}
    (h : ((setting.watchAll (earlier ++ path :: later)).run { world := { world } }).1 = .ok ()) :
    ∃ r, ((setting.compile path).run (setting.compileEach earlier { world })).1 = .ok r := by
  rw [watchAll_append, Run.run_bind] at h
  cases hfirst : (setting.watchAll earlier).run { world := { world } } with
  | mk result t =>
    rw [hfirst] at h
    cases result with
    | error failure => cases h
    | ok answer =>
      have hend : t = setting.watchEach earlier { world := { world } } := by
        rw [← watchRun_of_ok (by rw [hfirst]), watchRun, hfirst]
      have hmirrors := setting.watchFile_mirrors [] path.normalize t
      dsimp only at h
      rw [watchAll, Run.run_bind] at h
      rw [← show t.forget = setting.compileEach earlier { world } by
        rw [hend, forget_watchEach]; rfl, compile, ← hmirrors]
      generalize (setting.watchFile [] path.normalize).run t = call at h ⊢
      rcases call with ⟨failure | r, u⟩
      · cases h
      · exact ⟨r, rfl⟩

theorem known_of_ok (h : ((setting.watchAll files).run { world := { world } }).1 = .ok ())
    (hpath : path ∈ files) :
    (setting.watchEach files { world := { world } }).cache.get? path.normalize ≠ none := by
  obtain ⟨earlier, later, rfl⟩ := List.append_of_mem hpath
  obtain ⟨r, hr⟩ := call_of_ok h
  have hvisited := setting.visited_of_call world earlier path later
  obtain ⟨-, hanswer⟩ := (setting.accounted world _).answered hvisited hr
  obtain ⟨state, hstate, -⟩ := Option.map_eq_some_iff.1 hanswer
  rw [hstate]
  exact Option.some_ne_none state

theorem mem_of_began {below : List Path} {before : Session ω}
    (hnormal : ∀ p ∈ files, p.normalize = p) (hskins : setting.skins.paths ⊆ files)
    (h : .began below path before ∈ setting.journal world files) : path ∈ files := by
  obtain ⟨-, -, hcalled⟩ := (setting.accounted world files).began h
  cases hcalled with
  | outside =>
    obtain ⟨p, hp, hsame⟩ := exists_of_began h
    rw [hnormal p hp] at hsame
    exact hsame ▸ hp
  | skin _ hrefers => exact hskins hrefers.mem_paths

theorem handled_of_known {paths : List Path} (hpath : path.normalize = path)
    (h : (setting.watchEach paths { world := { world } }).cache.get? path ≠ none) :
    path ∈ handled (setting.watchEach paths { world := { world } }) := by
  have hagreed := setting.agreed world paths
  have hsame : ∀ p ∈ handled (setting.watchEach paths { world := { world } }),
      p.same path = true → p = path := by
    intro p hp hsame
    obtain ⟨below, before, hbegan⟩ := (setting.handledOnce world paths).began p hp
    obtain ⟨-, hnormal, -⟩ := (setting.accounted world paths).began hbegan
    exact Path.eq_of_components hnormal hpath (of_decide_eq_true hsame)
  obtain ⟨state, hstate⟩ := Option.ne_none_iff_exists'.1 h
  cases state with
  | failed =>
    obtain ⟨f, hf, hfpath⟩ := (hagreed.failed path).1 hstate
    have hmem : f.path ∈ handled (setting.watchEach paths { world := { world } }) :=
      List.mem_append_right _ (List.mem_map_of_mem hf)
    rwa [← hsame _ hmem hfpath]
  | compiled skin =>
    obtain ⟨p, hp, hppath, -⟩ := (hagreed.compiled path skin).1 hstate
    have hmem : p.source ∈ handled (setting.watchEach paths { world := { world } }) :=
      List.mem_append_left _ (List.mem_map_of_mem (f := (·.1.source)) hp)
    rwa [← hsame _ hmem hppath]

theorem handled_perm (hfiles : Distinct files) (hskins : setting.skins.paths ⊆ files)
    (h : ((setting.watchAll files).run { world := { world } }).1 = .ok ()) :
    (handled (setting.watchRun world files)).Perm files := by
  rw [watchRun_of_ok h]
  have honce := setting.handledOnce world files
  refine (List.perm_ext_iff_of_nodup honce.nodup hfiles.nodup).2 fun path => ?_
  constructor
  · intro hpath
    obtain ⟨below, before, hbegan⟩ := honce.began path hpath
    exact mem_of_began hfiles.normal hskins hbegan
  · intro hpath
    have hnormal := hfiles.normal path hpath
    have hknown := known_of_ok h hpath
    rw [hnormal] at hknown
    exact handled_of_known hnormal hknown

theorem skins_stored_first (hskins : setting.skins.paths <+: files)
    (h : ((setting.watchAll files).run { world := { world } }).1 = .ok ()) :
    ∃ front back, (setting.runJournal world files).accepted = front ++ back ∧
      (∀ c ∈ front, c.1.source ∈ setting.skins.paths) ∧
        ∀ c ∈ back, c.1.source ∉ setting.skins.paths := by
  obtain ⟨rest, rfl⟩ := hskins
  have hfirst : ((setting.watchAll setting.skins.paths).run { world := { world } }).1 = .ok () := by
    rw [watchAll_append, Run.run_bind] at h
    generalize (setting.watchAll setting.skins.paths).run _ = first at h ⊢
    rcases first with ⟨failure | answer, t⟩
    · cases h
    · rfl
  have hsplit : setting.watchEach (setting.skins.paths ++ rest) { world := { world } } =
      setting.watchEach rest (setting.watchEach setting.skins.paths { world := { world } }) :=
    List.foldl_append
  obtain ⟨back, hback, hnew⟩ := (setting.watchEach_steps rest
    (setting.watchEach setting.skins.paths { world := { world } })).accepted
  rw [← hsplit, ← watchRun_of_ok h] at hback
  refine ⟨_, back, hback, fun c hc => ?_, fun c hc hskin => ?_⟩
  · have hperm := handled_perm (distinct_paths setting.skins) (List.Subset.refl _) hfirst
    rw [watchRun_of_ok hfirst] at hperm
    exact hperm.mem_iff.1 (List.mem_append_left _ (List.mem_map_of_mem hc))
  · have hknown := known_of_ok hfirst hskin
    rw [SkinTable.normalize_of_mem_paths hskin] at hknown
    exact hknown (hnew c hc)

end

end MarkupScene.Setting
