import MarkupScene.Proofs.ImporterFrames
import MarkupScene.Proofs.Steps

/-!
# What runs leave alone

A run reaches the outside through the importers and the store. Sprites show assets that were found
by their names, in skins too, and so the borders that a run writes are those of known assets. The
main statement is that a run moves the outside as its locator and its store move it.
-/
namespace MarkupScene

variable {ω α β : Type}

namespace Node

abbrev Shows (known : AssetRef → Prop) (n : Node) : Prop :=
  n.Every fun m => ∀ s asset, .sprite s ∈ m.behaviors → s.frame = some asset → known asset

theorem mem_changeFirstSprite {f : Sprite → Sprite} {bs : List Behavior} {a : Behavior}
    (h : a ∈ changeFirstSprite f bs) : a ∈ bs ∨ ∃ s, .sprite s ∈ bs ∧ a = .sprite (f s) := by
  induction bs with
  | nil => cases h
  | cons b rest ih =>
    cases b with
    | sprite s =>
      rcases List.mem_cons.1 h with rfl | h
      · exact .inr ⟨s, List.mem_cons_self, rfl⟩
      · exact .inl (List.mem_cons_of_mem _ h)
    | _ =>
      rcases List.mem_cons.1 h with rfl | h
      · exact .inl List.mem_cons_self
      · exact (ih h).imp (List.mem_cons_of_mem _) fun ⟨s, hs, ha⟩ =>
          ⟨s, List.mem_cons_of_mem _ hs, ha⟩

theorem mem_changeFirstLabel {f : Label → Label} {bs : List Behavior} {a : Behavior}
    (h : a ∈ changeFirstLabel f bs) : a ∈ bs ∨ ∃ l, .label l ∈ bs ∧ a = .label (f l) := by
  induction bs with
  | nil => cases h
  | cons b rest ih =>
    cases b with
    | label l =>
      rcases List.mem_cons.1 h with rfl | h
      · exact .inr ⟨l, List.mem_cons_self, rfl⟩
      · exact .inl (List.mem_cons_of_mem _ h)
    | _ =>
      rcases List.mem_cons.1 h with rfl | h
      · exact .inl List.mem_cons_self
      · exact (ih h).imp (List.mem_cons_of_mem _) fun ⟨l, hl, ha⟩ =>
          ⟨l, List.mem_cons_of_mem _ hl, ha⟩

namespace Shows
variable {known : AssetRef → Prop} {n m : Node}

theorem plain (name : String) : Shows known { name } :=
  .node (fun _ _ h => nomatch h) fun _ hc => nomatch hc

theorem congr (hn : n.Shows known) (hbehaviors : m.behaviors = n.behaviors)
    (hchildren : ∀ c ∈ m.children, c.Shows known) : m.Shows known :=
  .node (fun s asset hs => hn.root s asset (hbehaviors ▸ hs)) hchildren

theorem lasting (known : AssetRef → Prop) :
    Lasting known fun m => ∀ s asset, .sprite s ∈ m.behaviors → s.frame = some asset →
      known asset where
  children _ hn := hn
  size _ hn := hn
  active _ hn := hn
  mapSprite hf hn s asset hs hasset := by
    rcases mem_changeFirstSprite hs with hs | ⟨t, ht, heq⟩
    · exact hn s asset hs hasset
    · obtain rfl := Behavior.sprite.inj heq
      exact hn t asset ht (hf t ▸ hasset)
  mapLabel _ hn s asset hs := by
    rcases mem_changeFirstLabel hs with hs | ⟨_, -, heq⟩
    · exact hn s asset hs
    · cases heq
  attach hb hm hn := by
    obtain ⟨bs, rfl, hmem, -⟩ := attach_ok hm
    intro s asset hs hasset
    rcases hmem _ hs with hs | hs
    · exact hn s asset hs hasset
    · exact hb s asset hs.symm hasset
  shown hs hasset hn := by
    obtain ⟨b, hb, hsprite⟩ := List.exists_of_findSome?_eq_some hs
    cases b with
    | sprite s =>
      obtain rfl := Option.some.inj hsprite
      exact hn _ _ hb hasset
    | _ => cases hsprite

end Shows

end Node

theorem Run.Meets.next {c : Contract ω} {m : Run ω α} {f : α → Run ω β} {p : α → Prop}
    {last : β → Session ω → Prop} (hm : Meets c (fun _ => True) m fun a _ => p a)
    (hf : ∀ a, p a → Meets c (fun _ => True) (f a) last) :
    Meets c (fun _ => True) (m >>= f) last :=
  hm.bind fun a s hs ha => hf a ha s hs trivial

/-- Sessions in which skins show known assets and the outside moves as it may. -/
def Motion.contract (m : Motion ω) (known : AssetRef → Prop) : Contract ω where
  holds s := ∀ path skin, s.cache.get? path = some (.compiled skin) → skin.root.Shows known
  moves s t := m.moves s.world t.world
  fails _ _ := True
  refl s := m.refl s.world
  trans := m.trans

namespace Setting

/-- A setting in which the locator, the importers and the store move the outside as it may. -/
structure Heeds (setting : Setting ω) (m : Motion ω) (known : AssetRef → Prop) : Prop where
  locator : setting.locator.Serves m setting.assets known
  importers {w : String} {i : Importer ω} : setting.registry.importer? w = some i →
    i.Keeps m known fun n => ∀ s asset, .sprite s ∈ n.behaviors → s.frame = some asset →
      known asset
  store {path : Path} (root : Node) (w : ω) : path.normalize = path →
    m.moves w (setting.store.persist (setting.prefabOf path root) w).2

section
variable {setting : Setting ω} {m : Motion ω} {known : AssetRef → Prop}

theorem importNode_shows (h : setting.Heeds m known) (source : Path) (e : Element)
    (override widget : Option String) {n : Node} (hn : n.Shows known) :
    Run.Meets (m.contract known) (fun _ => True) (setting.importNode source e override widget n)
      fun made _ => made.Shows known := by
  intro s hs _
  rw [importNode_eq]
  cases himporter : widget.bind setting.registry.importer? with
  | none => exact ⟨hs, m.refl _, hn⟩
  | some i =>
    obtain ⟨w, -, hi⟩ := Option.bind_eq_some_iff.1 himporter
    obtain ⟨hmoves, hmade⟩ := h.importers hi (setting.importScope source override) e n h.locator hn
      ⟨s.world, s.report.diagnostics⟩
    exact ⟨hs, hmoves, hmade⟩

/-- Building shows known assets when the starts of nodes do. -/
theorem build_shows (h : setting.Heeds m known) {begin : Starting ω}
    (hbegin : ∀ e override, Run.Meets (m.contract known) (fun _ => True) (begin e override)
      fun n _ => n.Shows known)
    (source : Path) (e : Element) (override : Option String) (parent : Option Size) :
    Run.Meets (m.contract known) (fun _ => True) (setting.build begin source e override parent)
      fun n _ => n.Shows known := by
  refine build.induct setting begin source
    (fun e override parent => Run.Meets (m.contract known) (fun _ => True)
      (setting.build begin source e override parent) fun n _ => n.Shows known)
    (fun widget size es => Run.Meets (m.contract known) (fun _ => True)
      (setting.buildAll begin source widget size es) fun kids _ => ∀ c ∈ kids, c.Shows known)
    ?_ ?_ ?_ ?_ e override parent
  · intro e override parent ih
    rw [build]
    refine .next (hbegin e override) fun fresh hfresh => ?_
    refine .next (ih fresh) fun kids hkids => importNode_shows h source e override _ ?_
    refine hfresh.congr rfl fun c hc => ?_
    exact (List.mem_append.1 hc).elim (hfresh.children c) (hkids c)
  · intro widget size
    rw [buildAll]
    exact .pure fun _ _ _ hc => absurd hc List.not_mem_nil
  · intro widget size k rest haccept ihrest ihk
    rw [buildAll]
    simp only [haccept, if_true]
    have hfirst : Run.Meets (m.contract known) (fun _ => True)
        (List.singleton <$> setting.build begin source k none (some size))
        fun kids _ => ∀ c ∈ kids, c.Shows known :=
      .map (ihk.imp (fun _ h => h) fun n _ hn c hc => List.mem_singleton.1 hc ▸ hn)
    refine .next hfirst fun first hfirst => .next ihrest fun others hothers => .pure ?_
    exact fun _ _ c hc => (List.mem_append.1 hc).elim (hfirst c) (hothers c)
  · intro widget size k rest hreject ihrest
    rw [buildAll]
    simp only [hreject]
    have hfirst : Run.Meets (m.contract known) (fun _ => True) (pure ([] : List Node))
        fun kids _ => ∀ c ∈ kids, c.Shows known := .pure fun _ _ _ hc => absurd hc List.not_mem_nil
    refine .next hfirst fun first hfirst => .next ihrest fun others hothers => .pure ?_
    exact fun _ _ c hc => (List.mem_append.1 hc).elim (hfirst c) (hothers c)

theorem look_shows (setting : Setting ω) (path : Path) :
    Run.Meets (m.contract known) (fun _ => True) (setting.look path) fun _ _ => True := by
  intro s hs _
  obtain ⟨⟨answer, hanswer⟩, hafter⟩ := setting.run_look path s
  generalize (setting.look path).run s = done at hanswer hafter
  obtain ⟨result, t⟩ := done
  obtain rfl : result = .ok answer := hanswer
  rcases hafter with hsame | ⟨reason, hskip⟩
  · obtain rfl : t = s := hsame
    exact ⟨hs, m.refl _, trivial⟩
  · obtain rfl : t = s.skip path reason := hskip
    refine ⟨fun p skin hskin => ?_, m.refl _, trivial⟩
    rw [Session.cache_skip, SkinCache.get?_put] at hskin
    split at hskin
    · cases hskin
    · exact hs p skin hskin

theorem copyKnown_shows (path : Path) (name : String) :
    Run.Meets (m.contract known) (fun _ => True) (copyKnown (ω := ω) path name)
      fun n _ => n.Shows known := by
  intro s hs _
  refine ⟨hs, m.refl _, ?_⟩
  change (copyOf (s.cache.skin? path) name).Shows known
  unfold SkinCache.skin?
  split
  · next skin hskin =>
    have hroot := hs path skin hskin
    exact hroot.congr rfl hroot.children
  · exact .plain name

theorem finish_shows (h : setting.Heeds m known) {path : Path} (hpath : path.normalize = path)
    {root : Node} (hroot : root.Shows known) :
    Run.Meets (m.contract known) (fun _ => True) (setting.finish path root) fun _ _ => True := by
  intro s hs _
  have hmoves := h.store root s.world hpath
  rw [run_finish]
  generalize setting.store.persist (setting.prefabOf path root) s.world = answer at hmoves
  rcases answer with ⟨failure | handle, world⟩
  · exact ⟨hs, hmoves, trivial⟩
  · refine ⟨fun p skin hskin => ?_, hmoves, trivial⟩
    rw [Session.cache_keep, SkinCache.get?_put] at hskin
    split at hskin
    · obtain rfl := SourceState.compiled.inj (Option.some.inj hskin)
      exact hroot
    · exact hs p skin hskin

theorem compileFile_shows (h : setting.Heeds m known) (stack : List Path) {path : Path}
    (hpath : path.normalize = path) :
    Run.Meets (m.contract known) (fun _ => True) (setting.compileFile stack path)
      fun _ _ => True := by
  induction stack, path using compileFile.induct setting with
  | case1 stack path ih =>
    have hstart : ∀ e override, Run.Meets (m.contract known) (fun _ => True)
        (setting.startNode (setting.instantiate (path :: stack) fun file _ =>
          setting.compileFile (path :: stack) file.1) e override) fun n _ => n.Shows known := by
      intro e override
      rw [startNode_eq]
      cases setting.lookup? e override with
      | none => exact .pure fun _ _ => .plain _
      | some file =>
        dsimp only
        unfold instantiate
        split
        · next hoff =>
          exact .next (ih file hoff (SkinTable.normalize_of_mem_paths file.2)) fun _ _ =>
            copyKnown_shows file.1 e.nodeName
        · exact .pure fun _ _ => .plain _
    rw [compileFile, compileWith_eq]
    refine .next (look_shows setting path) fun look _ => ?_
    cases look with
    | inl answer => exact .pure fun _ _ => trivial
    | inr e =>
      refine .next (build_shows h hstart path e _ none) fun root hroot => ?_
      exact .next (finish_shows h hpath hroot) fun _ _ => .pure fun _ _ => trivial

theorem compileAll_shows (h : setting.Heeds m known) (paths : List Path) :
    Run.Meets (m.contract known) (fun _ => True) (setting.compileAll paths) fun _ _ => True := by
  induction paths with
  | nil => exact .pure fun _ _ => trivial
  | cons path rest ih =>
    rw [compileAll]
    exact .next (compileFile_shows h [] path.normalize_normalize) fun _ _ => ih

theorem run_moves (h : setting.Heeds m known) (paths : List Path) (world : ω) :
    m.moves world (setting.run paths world).2 := by
  have hrun := compileAll_shows h paths { world } (fun _ _ hskin => nomatch hskin) trivial
  unfold run
  generalize (setting.compileAll paths).run { world } = done at hrun
  rcases done with ⟨failure | answer, t⟩
  · exact hrun.2.1
  · exact hrun.2.1

end

end Setting

end MarkupScene
