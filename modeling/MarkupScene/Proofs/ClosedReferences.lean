import MarkupScene.Proofs.Agreement
import MarkupScene.Proofs.ImporterFrames
import MarkupScene.Proofs.Runs

/-!
# Closed references

A node that is a copy of a skin names the prefab that the skin was stored as. Importers change looks
and sizes and hide or remove children, but name no other prefab. The main statement is that the
prefabs of a run are closed under skins: each skin that a stored tree names, at any depth, was
answered by the store before the tree was stored, and so the report lists it before the tree.
-/
namespace MarkupScene

variable {ω : Type}

namespace Node

/-- All skins that a tree names, at any depth, are known. -/
abbrev Borrows (known : PrefabRef → Prop) (n : Node) : Prop :=
  n.Every fun m => ∀ handle, m.skin = some handle → known handle

variable {known known' : PrefabRef → Prop} {n m : Node}

namespace Borrows

theorem mono (h : ∀ handle, known handle → known' handle) (hn : n.Borrows known) :
    n.Borrows known' :=
  Every.mono (fun _ hm handle hskin => h handle (hm handle hskin)) hn

theorem plain (name : String) : Borrows known { name } :=
  .node (fun _ h => nomatch h) fun _ hc => nomatch hc

theorem congr (hn : n.Borrows known) (hskin : m.skin = n.skin)
    (hchildren : ∀ c ∈ m.children, c.Borrows known) : m.Borrows known :=
  .node (fun handle h => hn.root handle (hskin ▸ h)) hchildren

theorem copy (hn : n.Borrows known) (name : String) {handle : PrefabRef} (h : known handle) :
    Borrows known { n with name, skin := some handle } := by
  refine .node (fun other hother => ?_) hn.children
  obtain rfl := Option.some.inj hother
  exact h

theorem lasting (known : PrefabRef → Prop) :
    Lasting (fun _ => True) fun m => ∀ handle, m.skin = some handle → known handle where
  children _ hn := hn
  size _ hn := hn
  active _ hn := hn
  mapSprite _ hn := hn
  mapLabel _ hn := hn
  attach _ hm hn := by
    obtain ⟨bs, rfl, -⟩ := attach_ok hm
    exact hn
  shown _ _ _ := trivial

end Borrows

end Node

/-- An importer after which a tree names no other skins than before. -/
def Importer.KeepsSkins (i : Importer ω) : Prop :=
  ∀ known scope e n, Node.Borrows known n → (i scope e n).Makes (Node.Borrows known)

theorem Registry.OnlyBuiltIn.keepsSkins {r : Registry ω} (hr : r.OnlyBuiltIn) {w : String}
    {i : Importer ω} (h : r.importer? w = some i) : i.KeepsSkins := by
  obtain ⟨entry, hentry, rfl⟩ := hr w i h
  intro known scope e n hn
  exact builtIn_every hentry (Node.Borrows.lasting known) scope e hn

namespace Journal

/-- The store answered with a handle. -/
def Answered (j : Journal ω) (handle : PrefabRef) : Prop := ∃ q, .stored q (.ok handle) ∈ j

theorem Answered.mono {j k : Journal ω} {handle : PrefabRef} (hsub : j ⊆ k)
    (h : j.Answered handle) : k.Answered handle :=
  h.imp fun _ hq => hsub hq

/-- The trees that went to the store name skins that the store had answered with before. -/
def Closed (j : Journal ω) : Prop :=
  ∀ before p result after, j = before ++ .stored p result :: after →
    p.root.Borrows (Answered before)

/-- The elements before the one that a member of a filtered list comes from. -/
theorem exists_of_filterMap {α β : Type} {f : α → Option β} {l : List α} {i : Nat} {b : β}
    (h : (l.filterMap f)[i]? = some b) :
    ∃ before a after, l = before ++ a :: after ∧ f a = some b ∧
      before.filterMap f = (l.filterMap f).take i := by
  induction l generalizing i with
  | nil => cases h
  | cons x rest ih =>
    cases hx : f x with
    | none =>
      rw [List.filterMap_cons_none hx] at h ⊢
      obtain ⟨before, a, after, rfl, ha, hbefore⟩ := ih h
      exact ⟨x :: before, a, after, rfl, ha, by rw [List.filterMap_cons_none hx, hbefore]⟩
    | some y =>
      rw [List.filterMap_cons_some hx] at h ⊢
      cases i with
      | zero => exact ⟨[], x, rest, rfl, hx.trans h, rfl⟩
      | succ i =>
        obtain ⟨before, a, after, rfl, ha, hbefore⟩ := ih h
        refine ⟨x :: before, a, after, rfl, ha, ?_⟩
        rw [List.filterMap_cons_some hx, hbefore, List.take_succ_cons]

theorem exists_of_accepted {j : Journal ω} {i : Nat} {p : Prefab} {handle : PrefabRef}
    (h : j.accepted[i]? = some (p, handle)) :
    ∃ before after, j = before ++ .stored p (.ok handle) :: after ∧
      accepted before = j.accepted.take i := by
  obtain ⟨before, x, after, hsplit, hx, hbefore⟩ := exists_of_filterMap h
  refine ⟨before, after, ?_, hbefore⟩
  cases x with
  | stored q result =>
    cases result with
    | error failure => cases hx
    | ok other =>
      obtain ⟨rfl, rfl⟩ := Prod.mk.inj (Option.some.inj hx)
      exact hsplit
  | _ => cases hx

end Journal

namespace Setting

section
variable {setting : Setting ω}

theorem borrowing (hkeeps : ∀ w i, setting.registry.importer? w = some i → i.KeepsSkins) :
    setting.TreeInvariant (fun j n => n.Borrows j.Answered) (fun j n => n.Borrows j.Answered) where
  mono_begun h hn := hn.mono fun _ hanswered => hanswered.mono h
  mono_done h hn := hn.mono fun _ hanswered => hanswered.mono h
  plain _ name := .plain name
  copy name hstored hroot := hroot.copy name ⟨_, hstored⟩
  grow {j _ _ e override parent fresh _ kids _ _} hfresh hkids himported := by
    have hassembled :
        (setting.assembled e override parent fresh kids).Borrows j.Answered := by
      refine hfresh.congr rfl fun c hc => ?_
      rcases List.mem_append.1 hc with hc | hc
      · exact hfresh.children c hc
      · exact (hkids c hc).1
    apply importNode_induction himported hassembled
    intro w i scope around _ himporter
    exact hkeeps w i himporter _ scope e _ hassembled around

/-- The nodes that were started name skins that the store has answered with, and the journal is
closed. -/
structure ClosedSession (s : Session (Watched ω)) : Prop where
  started {x n} : .started x ∈ s.journal → x.result = .ok n → n.Borrows s.journal.Answered
  closed : s.journal.Closed

theorem closedSession (hkeeps : ∀ w i, setting.registry.importer? w = some i → i.KeepsSkins)
    (world : ω) (paths : List Path) :
    ClosedSession (setting.watchEach paths { world := { world } }) := by
  have hkept := (borrowing hkeeps).kept world paths
  exact ⟨hkept.started, hkept.founded⟩

end

/-- The skins that the prefabs of a run name come from earlier prefabs of the run. -/
structure ClosedUnderSkins (setting : Setting ω) (world : ω) (paths : List Path) : Prop where
  /-- A skin that a tree names, at any depth, was answered before the tree went to the store. -/
  earlier {before p result after way} {n : Node} {skin : PrefabRef} :
    setting.runJournal world paths = before ++ .stored p result :: after →
      p.root.descendant? way = some n → n.skin = some skin →
        ∃ q, .stored q (.ok skin) ∈ before
  /-- The report lists the handles of the accepted prefabs. -/
  reported {report} : (setting.run paths world).1 = .ok report →
    report.stored = (setting.runJournal world paths).accepted.map (·.2)
  /-- It lists a skin before the trees that name it. -/
  ordered {report : Report} {i : Nat} {p : Prefab} {handle way} {n : Node} {skin : PrefabRef} :
    (setting.run paths world).1 = .ok report →
    (setting.runJournal world paths).accepted[i]? = some (p, handle) →
      p.root.descendant? way = some n → n.skin = some skin →
        report.stored[i]? = some handle ∧ ∃ k < i, report.stored[k]? = some skin

/-- Runs are closed under skins as long as importers name no skins of their own. -/
theorem run_closedUnderSkins {setting : Setting ω}
    (hkeeps : ∀ w i, setting.registry.importer? w = some i → i.KeepsSkins) (world : ω)
    (paths : List Path) : setting.ClosedUnderSkins world paths := by
  have hclosed : (setting.runJournal world paths).Closed :=
    watchRun_induction (motive := fun s => s.journal.Closed)
      (fun paths => (closedSession hkeeps world paths).closed) paths
  have hreported : ∀ {report}, (setting.run paths world).1 = .ok report →
      report.stored = (setting.runJournal world paths).accepted.map (·.2) := by
    intro report hreport
    rw [(report_of_run hreport).2]
    exact watchRun_induction (motive := fun s => s.report.stored = s.journal.accepted.map (·.2))
      (fun paths => (setting.agreed world paths).stored) paths
  constructor
  case earlier =>
    intro before p result after way n skin hsplit hn hskin
    exact (hclosed before p result after hsplit).descendant hn skin hskin
  case reported => exact hreported
  case ordered =>
    intro report i p handle way n skin hreport hi hn hskin
    obtain ⟨before, after, hsplit, hbefore⟩ := Journal.exists_of_accepted hi
    obtain ⟨q, hq⟩ := (hclosed before p _ after hsplit).descendant hn skin hskin
    have hskinAccepted := Journal.mem_accepted.2 hq
    rw [hbefore] at hskinAccepted
    obtain ⟨k, hk, hqk⟩ := List.mem_take_iff_getElem.1 hskinAccepted
    rw [hreported hreport]
    refine ⟨by rw [List.getElem?_map, hi]; rfl, k, by omega, ?_⟩
    rw [List.getElem?_map, List.getElem?_eq_getElem (by omega), hqk]
    rfl

/-- A button comes second and names its skin, which the report lists first. -/
theorem oneSkin_closedUnderSkins :
    (∀ w i, oneSkin.registry.importer? w = some i → i.KeepsSkins) ∧
      ∃ report p handle skin, (oneSkin.run [⟨"main.exml"⟩] ()).1 = .ok report ∧
        (oneSkin.runJournal () [⟨"main.exml"⟩]).accepted[1]? = some (p, handle) ∧
        p.root.skin = some skin ∧ report.stored[1]? = some handle ∧
        ∃ k < 1, report.stored[k]? = some skin := by
  have hkeeps : ∀ w i, oneSkin.registry.importer? w = some i → i.KeepsSkins := fun _ _ =>
    Registry.OnlyBuiltIn.keepsSkins Registry.builtIn_onlyBuiltIn
  have hskins : ((oneSkin.runJournal () [⟨"main.exml"⟩]).accepted.map fun c => c.1.root.skin)[1]? =
      some (some ⟨"db://assets/button.prefab"⟩) := by decide +kernel
  have hok : (oneSkin.run [⟨"main.exml"⟩] ()).1.isOk = true := by decide +kernel
  rw [List.getElem?_map] at hskins
  obtain ⟨⟨p, handle⟩, hsecond, hskin⟩ := Option.map_eq_some_iff.1 hskins
  cases hreport : (oneSkin.run [⟨"main.exml"⟩] ()).1 with
  | error failure =>
    rw [hreport] at hok
    cases hok
  | ok report =>
    have hroot : p.root.descendant? [] = some p.root := rfl
    have hordered :=
      (run_closedUnderSkins hkeeps () [⟨"main.exml"⟩]).ordered hreport hsecond hroot hskin
    exact ⟨hkeeps, report, p, handle, _, rfl, hsecond, hskin, hordered⟩

end Setting

end MarkupScene
