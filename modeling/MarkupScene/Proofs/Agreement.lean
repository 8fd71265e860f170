import MarkupScene.Proofs.Accounts
import MarkupScene.Proofs.Importers

/-!
# Report, cache and store

What a compiler reports, what it knows about its files and what the store accepted agree after
every sequence of compile calls, also when the store failed in some of them. A step changes all of
them together or none: a file becomes known as failed when it is reported as skipped, and as
compiled when the store has accepted it and its handle is reported.
-/
namespace MarkupScene

variable {ω : Type}

namespace Setting

/-- A session agrees with its journal. -/
structure Agreed (s : Session (Watched ω)) : Prop where
  stored : s.report.stored = s.journal.accepted.map (·.2)
  failed (path : Path) : s.cache.get? path = some .failed ↔
    ∃ f ∈ s.report.skipped, f.path.same path = true
  compiled (path : Path) (skin : CachedSkin) : s.cache.get? path = some (.compiled skin) ↔
    ∃ p, (p, skin.handle) ∈ s.journal.accepted ∧ p.source.same path = true ∧ p.root = skin.root
  distinct : s.report.skipped.Pairwise fun f g => f.path.same g.path = false

section
variable {setting : Setting ω} {stack : List Path} {s t : Session (Watched ω)}

theorem Agreed.congr (hs : Agreed s) (hcache : t.cache = s.cache)
    (hstored : t.report.stored = s.report.stored) (hskipped : t.report.skipped = s.report.skipped)
    (haccepted : t.journal.accepted = s.journal.accepted) : Agreed t where
  stored := by rw [hstored, haccepted, hs.stored]
  failed path := by rw [hcache, hskipped, hs.failed]
  compiled path skin := by rw [hcache, haccepted, hs.compiled]
  distinct := by rw [hskipped]; exact hs.distinct

theorem Agreed.not_skipped (hs : Agreed s) {path : Path} (hunknown : s.cache.get? path = none) :
    ¬∃ f ∈ s.report.skipped, f.path.same path = true := by
  rw [← hs.failed, hunknown]
  exact nofun

theorem Agreed.not_accepted (hs : Agreed s) {path : Path} (hunknown : s.cache.get? path = none)
    (skin : CachedSkin) :
    ¬∃ p, (p, skin.handle) ∈ s.journal.accepted ∧ p.source.same path = true ∧
      p.root = skin.root := by
  rw [← hs.compiled, hunknown]
  exact nofun

theorem Agreed.skip (hs : Agreed s) {path : Path} (hunknown : s.cache.get? path = none)
    (reason : String) : Agreed (s.skip path reason) := by
  have hcache : (s.skip path reason).cache = s.cache.put path .failed := rfl
  have hskipped : (s.skip path reason).report.skipped = s.report.skipped ++ [⟨path, reason⟩] := rfl
  constructor
  case stored => exact hs.stored
  case failed =>
    intro other
    rw [hcache, hskipped, SkinCache.get?_put]
    split
    · next hsame =>
      have hlast : path.same other = true := decide_eq_true hsame.symm
      simp [hlast]
    · next hother =>
      have hlast : path.same other = false := decide_eq_false fun h => hother h.symm
      simp [hlast, hs.failed]
  case compiled =>
    intro other skin
    rw [hcache, SkinCache.get?_put]
    split
    · next hsame =>
      have hother : s.cache.get? other = none := (s.cache.get?_congr hsame).trans hunknown
      exact iff_of_false nofun (hs.not_accepted hother skin)
    · exact hs.compiled other skin
  case distinct =>
    rw [hskipped, List.pairwise_append]
    refine ⟨hs.distinct, List.pairwise_singleton _ _, fun f hf g hg => ?_⟩
    obtain rfl := List.mem_singleton.1 hg
    exact Bool.eq_false_iff.2 fun hsame => hs.not_skipped hunknown ⟨f, hf, hsame⟩

theorem Agreed.keep (hs : Agreed s) {path : Path} (hunknown : s.cache.get? path = none)
    (setting : Setting ω) (root : Node) (handle : PrefabRef) (world : ω) :
    Agreed
      ((s.answered (setting.prefabOf path root) (.ok handle) world).keep path handle root) := by
  let p := setting.prefabOf path root
  let t := (s.answered p (.ok handle) world).keep path handle root
  have hcache : t.cache = s.cache.put path (.compiled ⟨handle, root⟩) := rfl
  have hstored : t.report.stored = s.report.stored ++ [handle] := rfl
  have haccepted : t.journal.accepted = s.journal.accepted ++ [(p, handle)] :=
    Journal.accepted_append _ _
  have hsource : p.source = path := rfl
  -- The file was not known, so that no earlier entry of it can disagree.
  constructor
  case stored =>
    change t.report.stored = t.journal.accepted.map (·.2)
    rw [hstored, haccepted, List.map_append, hs.stored]
    rfl
  case failed =>
    intro other
    change t.cache.get? other = _ ↔ ∃ f ∈ s.report.skipped, _
    rw [hcache, SkinCache.get?_put]
    split
    · next hsame =>
      have hother : s.cache.get? other = none := (s.cache.get?_congr hsame).trans hunknown
      exact iff_of_false nofun (hs.not_skipped hother)
    · exact hs.failed other
  case compiled =>
    intro other skin
    change t.cache.get? other = _ ↔ ∃ q, (q, skin.handle) ∈ t.journal.accepted ∧ _
    rw [hcache, haccepted, SkinCache.get?_put]
    split
    · next hsame =>
      have hother : s.cache.get? other = none := (s.cache.get?_congr hsame).trans hunknown
      constructor
      · intro h
        obtain rfl := SourceState.compiled.inj (Option.some.inj h)
        exact ⟨p, List.mem_append_right _ List.mem_cons_self, decide_eq_true hsame.symm, rfl⟩
      · rintro ⟨q, hq, hqsame, hroot⟩
        rcases List.mem_append.1 hq with hq | hq
        · exact absurd ⟨q, hq, hqsame, hroot⟩ (hs.not_accepted hother skin)
        · obtain ⟨rfl, hhandle⟩ := Prod.mk.inj (List.mem_singleton.1 hq)
          obtain ⟨skinHandle, skinRoot⟩ := skin
          obtain rfl : skinHandle = handle := hhandle
          obtain rfl : root = skinRoot := hroot
          rfl
    · next hother =>
      rw [hs.compiled]
      constructor
      · rintro ⟨q, hq, hrest⟩
        exact ⟨q, List.mem_append_left _ hq, hrest⟩
      · rintro ⟨q, hq, hqsame, hroot⟩
        rcases List.mem_append.1 hq with hq | hq
        · exact ⟨q, hq, hqsame, hroot⟩
        · obtain ⟨rfl, -⟩ := Prod.mk.inj (List.mem_singleton.1 hq)
          have hcomponents : path.components = other.components := of_decide_eq_true hqsame
          exact absurd hcomponents.symm hother
  case distinct => exact hs.distinct

theorem Agreed.step (hs : Agreed s) (hstep : setting.Step stack s t) : Agreed t := by
  cases hstep with
  | skipped inside off normal began unknown unread => exact hs.skip unknown _
  | @stored below path root handle world s ready persist =>
    exact hs.keep ready.unknown setting root handle world
  | refused ready persist =>
    refine hs.congr rfl rfl rfl ?_
    rw [Session.journal_answered, Journal.accepted_append]
    exact List.append_nil _
  | imported importer acts =>
    refine hs.congr rfl rfl rfl ?_
    rw [Session.journal_surround, Journal.accepted_append]
    exact List.append_nil _
  | _ =>
    refine hs.congr rfl rfl rfl ?_
    rw [Session.journal_note, Journal.accepted_append]
    exact List.append_nil _

theorem agreed (setting : Setting ω) (world : ω) (paths : List Path) :
    Agreed (setting.watchEach paths { world := { world } }) := by
  have hnew : Agreed ({ world := { world } } : Session (Watched ω)) := by
    constructor
    case stored => rfl
    case failed => exact fun path => iff_of_false nofun fun ⟨_, hf, _⟩ => nomatch hf
    case compiled => exact fun path skin => iff_of_false nofun fun ⟨_, hp, _⟩ => nomatch hp
    case distinct => exact .nil
  exact setting.watchEach_induction hnew .step paths

/-- As long as importers leave parse failures alone, they are those of the skipped files. -/
theorem failuresOf_watchEach {world : ω} {paths : List Path}
    (h : ∀ w i, setting.registry.importer? w = some i → i.KeepsFailures) :
    let t := setting.watchEach paths { world := { world } }
    failuresOf t.report.diagnostics =
      t.report.skipped.map fun f => ⟨.parseFailure, f.path, f.reason⟩ := by
  refine setting.watchEach_induction
    (motive := fun t => failuresOf t.report.diagnostics =
      t.report.skipped.map fun f => ⟨.parseFailure, f.path, f.reason⟩) rfl ?_ paths
  intro s t ih hstep
  cases hstep with
  | @skipped below path failure s =>
    have hdiagnostics : (s.skip path failure.message).report.diagnostics =
        s.report.diagnostics ++ [⟨.parseFailure, path, failure.message⟩] := rfl
    have hskipped : (s.skip path failure.message).report.skipped =
        s.report.skipped ++ [⟨path, failure.message⟩] := rfl
    rw [hdiagnostics, hskipped, failuresOf_append, ih, List.map_append]
    rfl
  | @imported w i scope e n made after s importer acts =>
    have hkept := h w i importer scope e n ⟨s.forget.world, s.report.diagnostics⟩
    rw [acts] at hkept
    exact hkept.trans ih
  | _ => exact ih

end

/-- How the report and the cache after compile calls agree with the store. -/
structure Agrees (setting : Setting ω) (world : ω) (paths : List Path) : Prop where
  /-- The handles that the store returned, in the order of its calls. -/
  stored : (setting.compileEach paths { world }).report.stored =
    (setting.journal world paths).accepted.map (·.2)
  failed (path : Path) :
    (setting.compileEach paths { world }).cache.get? path = some .failed ↔
      ∃ f ∈ (setting.compileEach paths { world }).report.skipped, f.path.same path = true
  distinct : (setting.compileEach paths { world }).report.skipped.Pairwise
    fun f g => f.path.same g.path = false
  /-- The parse failures, in their order, are those of the skipped files. -/
  reported : (∀ w i, setting.registry.importer? w = some i → i.KeepsFailures) →
    failuresOf (setting.compileEach paths { world }).report.diagnostics =
      (setting.compileEach paths { world }).report.skipped.map
        fun f => ⟨.parseFailure, f.path, f.reason⟩
  reported_of_builtIn : setting.registry.OnlyBuiltIn →
    failuresOf (setting.compileEach paths { world }).report.diagnostics =
      (setting.compileEach paths { world }).report.skipped.map
        fun f => ⟨.parseFailure, f.path, f.reason⟩
  compiled (path : Path) (handle : PrefabRef) (root : Node) :
    (setting.compileEach paths { world }).cache.get? path = some (.compiled ⟨handle, root⟩) ↔
      ∃ p, (p, handle) ∈ (setting.journal world paths).accepted ∧
        p.source.same path = true ∧ p.root = root

/-- After every sequence of compile calls report, cache and store agree. -/
theorem report_agrees (setting : Setting ω) (world : ω) (paths : List Path) :
    setting.Agrees world paths := by
  have hagreed := setting.agreed world paths
  have hforget : setting.compileEach paths { world } =
      (setting.watchEach paths { world := { world } }).forget :=
    (setting.forget_watchEach paths { world := { world } }).symm
  constructor
  case stored =>
    rw [hforget]
    exact hagreed.stored
  case failed =>
    rw [hforget]
    exact hagreed.failed
  case distinct =>
    rw [hforget]
    exact hagreed.distinct
  case reported =>
    rw [hforget]
    exact failuresOf_watchEach
  case reported_of_builtIn =>
    rw [hforget]
    exact fun hbuiltIn => failuresOf_watchEach fun _ _ => hbuiltIn.keepsFailures
  case compiled =>
    rw [hforget]
    exact fun path handle root => hagreed.compiled path ⟨handle, root⟩

end Setting

end MarkupScene
