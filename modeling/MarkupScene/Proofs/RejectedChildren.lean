import MarkupScene.Asset.DiskLocator
import MarkupScene.Proofs.FilledAttributes
import MarkupScene.Proofs.RewordedFiles

/-!
# Rejected children

Markup that a widget does not accept as a child has no effect. Two runs over files that differ in such
markup alone do the same steps: they know and report the same all the way. The main statement says
where the children of nodes come from, and that the two runs have the same result, bring the same
prefabs to the store and ask the locator the same. Checks and importers must not look at what is
deleted for that, and nothing outside of the runs may.
-/
namespace MarkupScene

variable {ω : Type}

namespace Setting

/-- Other sources, on an outside that is alike, have the same files up to what is not accepted as a
child, and neither the importers nor the store tell the outsides apart. -/
structure Redacts (setting : Setting ω) (sources : Sources ω) (alike : ω → ω → Prop)
    (paths : List Path) : Prop where
  document {path : Path} {w w' : ω} : setting.MayRead paths path → alike w w' →
    SameOutcome (Relation.ReflTransGen (setting.Deletes (setting.rootWidget? path)))
      (setting.sources.document path w) (sources.document path w')
  importer {widget : String} {i : Importer ω} : setting.registry.importer? widget = some i →
    ∀ source override e n, (i (setting.importScope source override) e n).Overlooks alike
  persist {path : Path} (root : Node) : setting.MayRead paths path →
    Agree alike (setting.store.persist (setting.prefabOf path root))
      (setting.store.persist (setting.prefabOf path root))

section
variable {setting : Setting ω} {sources : Sources ω} {alike : ω → ω → Prop} {paths : List Path}

theorem redacts_iff : setting.Redacts sources alike paths ↔
    setting.Rewords sources (fun override => Relation.ReflTransGen (setting.Deletes override)) alike
      paths :=
  ⟨fun h => ⟨h.document, h.importer, h.persist⟩, fun h => ⟨h.document, h.importer, h.persist⟩⟩

theorem OverlooksDeleted.buildsSame (hover : setting.OverlooksDeleted) :
    setting.BuildsSame fun override => Relation.ReflTransGen (setting.Deletes override) := by
  intro override e e' h copy source parent
  induction h with
  | refl => rfl
  | tail _ hlast ih =>
    rw [← ih]
    exact hlast.build_eq hover (fun {other _ _} hdeletes => hdeletes.startNode_eq copy other) parent

theorem run_agrees (h : setting.Redacts sources alike paths) (hover : setting.OverlooksDeleted)
    {w w' : ω} (hw : alike w w') :
    (setting.run paths w).1 = ((setting.reading sources).run paths w').1 ∧
      alike (setting.run paths w).2 ((setting.reading sources).run paths w').2 :=
  (redacts_iff.1 h).run_agrees hover.buildsSame hw

theorem Deletes.congr {ω' : Type} {setting' : Setting ω'}
    (haccepts : setting'.acceptsUnder = setting.acceptsUnder) {override : Option String}
    {e e' : Element} (h : setting.Deletes override e e') : setting'.Deletes override e e' := by
  induction h with
  | here hoffers hrejected => exact .here hoffers (haccepts ▸ hrejected)
  | inside hoffers haccepted _ ih => exact .inside hoffers (haccepts ▸ haccepted) ih

theorem deletes_watched {override : Option String} {e e' : Element} :
    setting.watched.Deletes override e e' ↔ setting.Deletes override e e' :=
  ⟨fun h => h.congr (by rfl), fun h => h.congr (by rfl)⟩

theorem OverlooksDeleted.watched (h : setting.OverlooksDeleted) :
    setting.watched.OverlooksDeleted where
  accepts widget _ _ hdeletes := h.accepts widget (deletes_watched.1 hdeletes)
  imports {widget i} hi override e e' hdeletes scope n := by
    obtain ⟨j, hj, rfl⟩ := exists_importer_watched hi
    funext s
    unfold Importer.watched
    rw [h.imports hj (deletes_watched.1 hdeletes)]

theorem Redacts.watched (h : setting.Redacts sources alike paths) :
    setting.watched.Redacts sources.watched
      (fun w w' => alike w.world w'.world ∧ w.journal.calls = w'.journal.calls) paths :=
  redacts_iff.2 <| (redacts_iff.1 h).watched.mono fun _ _ _ =>
    Relation.ReflTransGen.mono (fun _ _ => deletes_watched.2) _ _

end

theorem overlooksDeleted_of_childless {setting : Setting ω}
    (accepts : ∀ widget (c : Element) children,
      setting.registry.accepts widget { c with children } = setting.registry.accepts widget c)
    (imports : ∀ {widget i}, setting.registry.importer? widget = some i →
      ∀ scope (e : Element) children n, i scope { e with children } n = i scope e n) :
    setting.OverlooksDeleted where
  accepts widget c c' hdeletes := by
    obtain ⟨⟨children, rfl⟩, -⟩ := hdeletes.same
    exact accepts widget c children
  imports {widget i} hi override e e' hdeletes scope n := by
    obtain ⟨⟨children, rfl⟩, -⟩ := hdeletes.same
    exact imports hi scope e children n

theorem overlooksDeleted_of_builtIn {setting : Setting ω} (h : setting.registry = .builtIn) :
    setting.OverlooksDeleted := by
  refine overlooksDeleted_of_childless ?_ ?_
  · intro widget c children
    rw [h]
    exact Registry.builtIn_accepts widget c _
  · intro widget i hi scope e children n
    rw [h] at hi
    exact Registry.builtIn_overlooks hi scope e _ n (.of_attributes _ rfl)

/-- Just before its importer acts, a node has the children of its start, followed by the nodes of the
offered elements that its widget accepts, and what is not accepted is inert: runs over files that
differ in it alone have the same result, bring the same prefabs to the store, ask the locator the same
and leave outsides that are alike, when checks and importers do not look at it and the outside does
not tell the runs apart. -/
theorem rejected_children_inert :
    (∀ (setting : Setting ω) stack source e override parent s made t,
      (setting.build (setting.starting stack) source e override parent).run s = (.ok made, t) →
        setting.Assembles stack source e override parent s made t) ∧
    ∀ (setting : Setting (Traced ω)) (l : Locator ω) sources (alike : Traced ω → Traced ω → Prop)
      paths w w', setting.locator = l.traced → setting.OverlooksDeleted →
        setting.Redacts sources alike paths → (∀ w w', alike w w' → w.calls = w'.calls) →
          alike w w' → setting.SameRuns sources paths w w' ∧
            alike (setting.run paths w).2 ((setting.reading sources).run paths w').2 := by
  constructor
  · intro setting stack source e override parent s made t hbuild
    exact assembles_of_build hbuild
  · -- A traced locator is what makes the calls those of the locator; the proof needs no more of it.
    intro setting l sources alike paths w w' _ hover hredacts hcalls hw
    obtain ⟨hresult, hend⟩ := run_agrees hredacts hover hw
    have hwatched : alike (Watched.mk w []).world (Watched.mk w' []).world ∧
        (Watched.mk w []).journal.calls = (Watched.mk w' []).journal.calls := ⟨hw, rfl⟩
    obtain ⟨-, -, hstored⟩ := run_agrees hredacts.watched hover.watched hwatched
    exact ⟨⟨hresult, hstored, hcalls _ _ hend⟩, hend⟩

theorem deletes_only {setting : Setting ω} {name : String} {attributes : List (String × String)}
    {c : Element} (hname : c.localName ≠ "skinName")
    (hrejected : setting.acceptsUnder (widgetFor (tag name attributes [c]) none) c = false) :
    setting.Deletes none (tag name attributes [c]) (tag name attributes []) := by
  have hoffers : (tag name attributes [c]).Offers ([] ++ c :: [])
      fun cs => { tag name attributes [c] with children := cs } :=
    .direct fun _ hd => List.mem_singleton.1 hd ▸ hname
  exact .here hoffers hrejected

theorem poster_redacts {d d' : Disk} {e e' : Element}
    (hwith : Sources.onDisk.document ⟨"main.exml"⟩ { disk := d } = .ok e)
    (hwithout : Sources.onDisk.document ⟨"main.exml"⟩ { disk := d' } = .ok e')
    (hdeletes : poster.traced.Deletes none e e') :
    poster.traced.Redacts poster.traced.sources (OtherDisk d d') [⟨"main.exml"⟩] :=
  redacts_iff.2 (poster_rewords hwith hwithout (.single hdeletes))

def captioned : Disk := oneFile "<e:Image source=\"a\"><e:Label/></e:Image>"

def uncaptioned : Disk := oneFile "<e:Image source=\"a\"/>"

theorem captioned_redacts :
    poster.traced.Redacts poster.traced.sources (OtherDisk captioned uncaptioned)
      [⟨"main.exml"⟩] := by
  have hdeletes : poster.traced.Deletes none
      (tag "Image" [("source", "a")] [tag "Label" [] []]) (tag "Image" [("source", "a")] []) :=
    deletes_only (by decide) (by decide +kernel)
  exact poster_redacts (by decide +kernel) (by decide +kernel) hdeletes

/-- The label of the poster shows nowhere. -/
theorem poster_without_caption :
    (∃ made t, (poster.build (poster.starting []) ⟨"main.exml"⟩
        (tag "Image" [("source", "a")] [tag "Label" [] []]) none none).run { world := {} } =
          (.ok made, t) ∧
      poster.Assembles [] ⟨"main.exml"⟩ (tag "Image" [("source", "a")] [tag "Label" [] []]) none
        none { world := {} } made t) ∧
    poster.traced.SameRuns poster.traced.sources [⟨"main.exml"⟩]
      { world := { disk := captioned } } { world := { disk := uncaptioned } } ∧
    (poster.traced.run [⟨"main.exml"⟩] { world := { disk := captioned } }).2.calls =
      [.resolve "a.png" none, .textureSize { path := "a.png" }] := by
  refine ⟨?_, ?_, by decide +kernel⟩
  · let e := tag "Image" [("source", "a")] [tag "Label" [] []]
    have hbuilt : ((poster.build (poster.starting []) ⟨"main.exml"⟩ e none none).run
        { world := {} }).1.toOption.isSome = true := by
      decide +kernel
    rcases hrun : (poster.build (poster.starting []) ⟨"main.exml"⟩ e none none).run
        { world := {} } with ⟨failure | made, t⟩
    · rw [hrun] at hbuilt
      cases hbuilt
    · exact ⟨made, t, rfl, rejected_children_inert.1 poster _ _ _ _ _ _ _ _ hrun⟩
  · have hcalls : ∀ w w', OtherDisk captioned uncaptioned w w' → w.calls = w'.calls := by
      rintro _ _ ⟨w, calls⟩
      rfl
    exact (rejected_children_inert.2 poster.traced .openLocator _ _ _ _ _ rfl
      (overlooksDeleted_of_builtIn rfl) captioned_redacts hcalls (.disks {} [])).1

theorem deletes_in_group {setting : Setting ω} {name : String}
    {attributes : List (String × String)} {c : Element} (houter : name ≠ "skinName")
    (haccepted : setting.acceptsUnder (widgetFor (tag "Group" [] [tag name attributes [c]]) none)
      (tag name attributes [c]) = true)
    (hname : c.localName ≠ "skinName")
    (hrejected : setting.acceptsUnder (widgetFor (tag name attributes [c]) none) c = false) :
    setting.Deletes none (tag "Group" [] [tag name attributes [c]])
      (tag "Group" [] [tag name attributes []]) := by
  have hoffers : (tag "Group" [] [tag name attributes [c]]).Offers
      ([] ++ tag name attributes [c] :: [])
      fun cs => { tag "Group" [] [tag name attributes [c]] with children := cs } :=
    .direct fun _ hd => List.mem_singleton.1 hd ▸ houter
  exact .inside hoffers haccepted (deletes_only hname hrejected)

/-- A group takes only what has children. -/
def picky : Setting (Traced Unit) where
  registry := Registry.builtIn.registerCheck "Group" fun c => !c.children.isEmpty
  sources := { read := fun _ _ => .ok "<e:Group><e:Image><e:Label/></e:Image></e:Group>" }
  locator := Locator.openLocator.traced
  store := .memory

def withoutCaption : Sources (Traced Unit) where
  read _ _ := .ok "<e:Group><e:Image/></e:Group>"

/-- A label whose font is the file of the label. -/
def ownFont : Setting World where
  assets := AssetTable.empty.insert "f" "main.exml"
  sources := .onDisk
  locator := DiskLocator.locator ⟨""⟩
  store := .memory

def withMetrics : Disk :=
  oneFile ("<e:Group><e:BitmapLabel font='f'>" ++
    "<e:Group id='\ninfo size=7\ncommon lineHeight=9\n'/></e:BitmapLabel></e:Group>")

def withoutMetrics : Disk := oneFile "<e:Group><e:BitmapLabel font='f'/></e:Group>"

theorem picky_tells : ¬picky.SameRuns withoutCaption [⟨"main.exml"⟩] { world := () }
    { world := () } := by
  intro h
  have hstored := congrArg (fun calls => calls.map fun c => c.1.root.children.length) h.stored
  revert hstored
  decide +kernel

theorem ownFont_tells : ¬ownFont.traced.SameRuns ownFont.traced.sources [⟨"main.exml"⟩]
    { world := { disk := withMetrics } } { world := { disk := withoutMetrics } } := by
  intro h
  have hstored := congrArg (fun calls => calls.map fun c => c.1.root.children.map Node.label?)
    h.stored
  revert hstored
  decide +kernel

/-- Deletions show where a check looks at children, and where a file is used as an asset as well. -/
theorem deletions_show :
    (∃ e e', picky.sources.document ⟨"main.exml"⟩ { world := () } = .ok e ∧
      withoutCaption.document ⟨"main.exml"⟩ { world := () } = .ok e' ∧ picky.Deletes none e e' ∧
      ¬picky.SameRuns withoutCaption [⟨"main.exml"⟩] { world := () } { world := () }) ∧
    ∃ e e', ownFont.sources.document ⟨"main.exml"⟩ { disk := withMetrics } = .ok e ∧
      ownFont.sources.document ⟨"main.exml"⟩ { disk := withoutMetrics } = .ok e' ∧
      ownFont.traced.Deletes none e e' ∧
      ¬ownFont.traced.SameRuns ownFont.traced.sources [⟨"main.exml"⟩]
        { world := { disk := withMetrics } } { world := { disk := withoutMetrics } } := by
  constructor
  · refine ⟨tag "Group" [] [tag "Image" [] [tag "Label" [] []]], tag "Group" [] [tag "Image" [] []],
      by decide +kernel, by decide +kernel, ?_, picky_tells⟩
    exact deletes_in_group (by decide) (by decide +kernel) (by decide) (by decide +kernel)
  · let metrics := tag "Group" [("id", "\ninfo size=7\ncommon lineHeight=9\n")] []
    refine ⟨tag "Group" [] [tag "BitmapLabel" [("font", "f")] [metrics]],
      tag "Group" [] [tag "BitmapLabel" [("font", "f")] []],
      by decide +kernel, by decide +kernel, ?_, ownFont_tells⟩
    exact deletes_in_group (by decide) (by decide +kernel) (by decide) (by decide +kernel)

end Setting

end MarkupScene
