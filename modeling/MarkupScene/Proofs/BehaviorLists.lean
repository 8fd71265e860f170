import MarkupScene.Proofs.ImporterFrames
import MarkupScene.Proofs.TreeInvariants
import Mathlib.Data.List.Nodup

/-!
# Lists of behaviors

A node has at most one behavior of each kind and at most one renderer. Attaching is the only way to
come by a behavior: it puts the new behavior in the place of the one of its kind, or at the end, or
is refused because of the one renderer that is there. The main statement is that this holds of every
node that arises from plain nodes by attaching, edits of children, copies and built-in importers, and
so at every depth of every tree that goes to the store.
-/
namespace MarkupScene

variable {ω : Type}

namespace Node

/-- A node whose behaviors do not stand against each other. -/
structure Consistent (n : Node) : Prop where
  kinds : (n.behaviors.map Behavior.kind).Nodup
  renderers : n.behaviors.countP (fun b => b.kind.isRenderer) ≤ 1

/-- How attaching a behavior ends. -/
inductive Attached (n : Node) (b : Behavior) : Except Conflict Node → Prop where
  /-- The one behavior of the kind is replaced in its place. -/
  | replaced {before : List Behavior} {old : Behavior} {after : List Behavior}
      (split : n.behaviors = before ++ old :: after) (kind : old.kind = b.kind)
      (elsewhere : ∀ a ∈ before ++ after, a.kind ≠ b.kind) :
      Attached n b (.ok { n with behaviors := before ++ b :: after })
  /-- The behavior is new, and no two renderers meet. -/
  | appended (absent : ∀ a ∈ n.behaviors, a.kind ≠ b.kind)
      (free : b.kind.isRenderer = true → ∀ a ∈ n.behaviors, a.kind.isRenderer = false) :
      Attached n b (.ok { n with behaviors := n.behaviors ++ [b] })
  /-- A new renderer meets the one that is there. -/
  | refused {before : List Behavior} {other : Behavior} {after : List Behavior}
      (split : n.behaviors = before ++ other :: after)
      (absent : ∀ a ∈ n.behaviors, a.kind ≠ b.kind) (renderer : b.kind.isRenderer = true)
      (present : other.kind.isRenderer = true)
      (alone : ∀ a ∈ before ++ after, a.kind.isRenderer = false) :
      Attached n b (.error ⟨other.kind, b.kind⟩)

/-- The nodes that come about when behaviors are attached or changed, children are edited, nodes are
copied under other names and skins, and built-in importers act. -/
inductive Arises : Node → Prop where
  | new (name : String) : Arises { name }
  | child {n c : Node} : Arises n → c ∈ n.children → Arises c
  /-- Everything but the behaviors may change, and children may come and go. -/
  | edited {n m : Node} : Arises n → m.behaviors = n.behaviors → (∀ c ∈ m.children, Arises c) →
      Arises m
  | attached {n m : Node} {b : Behavior} : Arises n → n.attach b = .ok m → Arises m
  | sprite {n : Node} (f : Sprite → Sprite) : Arises n → Arises (n.mapSprite f)
  | label {n : Node} (f : Label → Label) : Arises n → Arises (n.mapLabel f)
  | imported {ω : Type} {n : Node} {entry : String × Importer ω} (scope : ImportScope ω)
      (e : Element) (around : Surroundings ω) : Arises n → entry ∈ Registry.builtInImporters →
      Arises (entry.2 scope e n around).1

variable {n m : Node} {b : Behavior}

theorem replaceKind_split {bs : List Behavior} (h : b.kind ∈ bs.map Behavior.kind) :
    ∃ before old after, bs = before ++ old :: after ∧ old.kind = b.kind ∧
      (∀ a ∈ before, a.kind ≠ b.kind) ∧ replaceKind b bs = before ++ b :: after := by
  induction bs with
  | nil => simp at h
  | cons a rest ih =>
    by_cases ha : a.kind = b.kind
    · exact ⟨[], a, rest, rfl, ha, by simp, by simp [replaceKind, ha]⟩
    · have hrest : b.kind ∈ rest.map Behavior.kind := by
        simpa [Ne.symm ha] using h
      obtain ⟨before, old, after, rfl, hold, hbefore, hreplaced⟩ := ih hrest
      refine ⟨a :: before, old, after, rfl, hold, ?_, by simp [replaceKind, ha, hreplaced]⟩
      simpa [ha] using hbefore

theorem find?_renderer_split {bs : List Behavior} {kind : Behavior.Kind}
    (h : (bs.map Behavior.kind).find? (·.isRenderer) = some kind) :
    ∃ before other after, bs = before ++ other :: after ∧ other.kind = kind ∧
      kind.isRenderer = true := by
  have hrenderer := List.find?_some h
  obtain ⟨other, hother, rfl⟩ := List.mem_map.1 (List.mem_of_find?_eq_some h)
  obtain ⟨before, after, rfl⟩ := List.append_of_mem hother
  exact ⟨before, other, after, rfl, rfl, hrenderer⟩

theorem Consistent.elsewhere (hn : n.Consistent) {before after : List Behavior} {old : Behavior}
    (h : n.behaviors = before ++ old :: after) : ∀ a ∈ before ++ after, a.kind ≠ old.kind := by
  have hkinds := hn.kinds
  rw [h, List.map_append, List.map_cons, List.nodup_middle, List.nodup_cons, ← List.map_append]
    at hkinds
  intro a ha heq
  exact hkinds.1 (heq ▸ List.mem_map_of_mem ha)

theorem Consistent.alone (hn : n.Consistent) {before after : List Behavior} {other : Behavior}
    (h : n.behaviors = before ++ other :: after) (hother : other.kind.isRenderer = true) :
    ∀ a ∈ before ++ after, a.kind.isRenderer = false := by
  have hrenderers := hn.renderers
  simp only [h, List.countP_append, List.countP_cons, hother, if_true] at hrenderers
  have hzero : (before ++ after).countP (fun b => b.kind.isRenderer) = 0 := by
    rw [List.countP_append]
    omega
  intro a ha
  simpa using List.countP_eq_zero.1 hzero a ha

theorem Consistent.attached (hn : n.Consistent) (b : Behavior) : n.Attached b (n.attach b) := by
  unfold attach
  split
  · next hkind =>
    have hmem : b.kind ∈ n.behaviors.map Behavior.kind := (has_iff_mem n b.kind).1 hkind
    obtain ⟨before, old, after, hsplit, hold, -, hreplaced⟩ := replaceKind_split hmem
    rw [hreplaced]
    exact .replaced hsplit hold fun a ha heq => hn.elsewhere hsplit a ha (heq.trans hold.symm)
  · next hkind =>
    have habsent : ∀ a ∈ n.behaviors, a.kind ≠ b.kind := by simpa using hkind
    dsimp only
    split
    · next kind hfound =>
      obtain ⟨before, other, after, hsplit, rfl, hother⟩ := find?_renderer_split hfound
      split
      · next hrenderer => exact .refused hsplit habsent hrenderer hother (hn.alone hsplit hother)
      · next hrenderer => exact .appended habsent fun h => absurd h hrenderer
    · next hfound =>
      refine .appended habsent fun _ a ha => ?_
      rw [List.find?_eq_none] at hfound
      simpa using hfound _ (List.mem_map_of_mem ha)

theorem Consistent.of_kinds (hn : n.Consistent)
    (h : m.behaviors.map Behavior.kind = n.behaviors.map Behavior.kind) : m.Consistent := by
  have hcount : ∀ k : Node, k.behaviors.countP (fun b => b.kind.isRenderer) =
      (k.behaviors.map Behavior.kind).countP Behavior.Kind.isRenderer := by
    intro k
    rw [List.countP_map]
    rfl
  constructor
  · rw [h]
    exact hn.kinds
  · rw [hcount, h, ← hcount]
    exact hn.renderers

theorem Consistent.attach (hn : n.Consistent) (h : n.attach b = .ok m) : m.Consistent := by
  have hattached := hn.attached b
  rw [h] at hattached
  cases hattached with
  | replaced hsplit hkind _ =>
    apply hn.of_kinds
    simp [hsplit, hkind]
  | appended habsent hfree =>
    constructor
    · rw [List.map_append, List.nodup_append]
      refine ⟨hn.kinds, by simp, ?_⟩
      simpa using habsent
    · rw [List.countP_append]
      by_cases hrenderer : b.kind.isRenderer = true
      · have hzero : n.behaviors.countP (fun b => b.kind.isRenderer) = 0 := by
          simpa [List.countP_eq_zero] using hfree hrenderer
        simp [hzero, hrenderer]
      · simpa [hrenderer] using hn.renderers

theorem consistent_plain (name : String) : Consistent { name } := ⟨.nil, Nat.zero_le 1⟩

theorem Consistent.lasting : Lasting (fun _ => True) Consistent where
  children _ hn := hn.of_kinds rfl
  size _ hn := hn.of_kinds rfl
  active _ hn := hn.of_kinds rfl
  mapSprite _ hn := hn.of_kinds (kinds_changeFirstSprite _ _)
  mapLabel _ hn := hn.of_kinds (kinds_changeFirstLabel _ _)
  attach _ hm hn := hn.attach hm
  shown _ _ _ := trivial

theorem Arises.consistent (hn : n.Arises) : n.Every Consistent := by
  induction hn with
  | new name => exact .node (consistent_plain name) fun _ hc => nomatch hc
  | child _ hc ih => exact ih.children _ hc
  | edited _ hbehaviors _ ih ihchildren =>
    exact .node (ih.root.of_kinds (by rw [hbehaviors])) ihchildren
  | attached _ hm ih =>
    obtain ⟨bs, rfl, -⟩ := attach_ok hm
    exact .node (ih.root.attach hm) ih.children
  | sprite f _ ih =>
    exact .node (ih.root.of_kinds (kinds_changeFirstSprite f _)) ih.children
  | label f _ ih =>
    exact .node (ih.root.of_kinds (kinds_changeFirstLabel f _)) ih.children
  | imported scope e around _ hentry ih =>
    exact Registry.builtIn_every hentry Consistent.lasting scope e ih around

end Node

namespace Setting
variable {setting : Setting ω}

theorem arising (hregistry : setting.registry.OnlyBuiltIn) :
    setting.TreeInvariant (fun _ => Node.Arises) (fun _ => Node.Arises) where
  mono_begun _ hn := hn
  mono_done _ hn := hn
  plain _ name := .new name
  copy _ _ hroot := .edited hroot rfl fun _ hc => .child hroot hc
  grow {j begins source e override parent fresh made kids s t} hfresh hkids himported := by
    have hkept : ∀ c ∈ fresh.children, c.Arises := fun _ hc => .child hfresh hc
    have hassembled : (setting.assembled e override parent fresh kids).Arises := by
      refine .edited hfresh rfl fun c hc => ?_
      exact (List.mem_append.1 hc).elim (hkept c) fun hc => (hkids c hc).1
    apply importNode_induction himported hassembled
    intro w i scope around _ hi
    obtain ⟨entry, hentry, rfl⟩ := hregistry w i hi
    exact .imported scope e around hassembled hentry

/-- What lists of behaviors look like, and what attaching does to them. -/
structure BehaviorsConsistent (setting : Setting ω) (world : ω) (paths : List Path) : Prop where
  /-- No node in a tree that arises has two behaviors of a kind or two renderers. -/
  arisen {n m : Node} {way : List Nat} : n.Arises → n.descendant? way = some m → m.Consistent
  /-- Attaching replaces in place, appends or refuses, and leaves all else alone. -/
  attached {n : Node} (b : Behavior) : n.Arises → n.Attached b (n.attach b)
  /-- It refuses exactly a new renderer where another one is. -/
  refused {n : Node} (b : Behavior) : n.Arises → ((∃ conflict, n.attach b = .error conflict) ↔
    b.kind.isRenderer = true ∧ n.has b.kind = false ∧
      ∃ a ∈ n.behaviors, a.kind.isRenderer = true)
  /-- An importer keeps a node that refuses, and reports both renderers. -/
  reported {scope : ImportScope ω} {n : Node} {b : Behavior} {conflict : Node.Conflict}
    (around : Surroundings ω) : n.attach b = .error conflict →
      scope.attach n b around = (n, { around with
        diagnostics := around.diagnostics ++ [⟨.behaviorConflict, scope.source,
          "node '" ++ n.name ++ "' cannot add " ++ conflict.rejected.name ++ " (has " ++
            conflict.existing.name ++ ")"⟩] })
  /-- The trees that go to the store arise in this way. -/
  stored {p : Prefab} {result : Except Failure PrefabRef} {way : List Nat} {n : Node} :
    .stored p result ∈ setting.runJournal world paths → p.root.descendant? way = some n →
      p.root.Arises ∧ n.Consistent

/-- The lists of behaviors of all nodes are consistent, whatever the run is over. -/
theorem behaviors_consistent (hregistry : setting.registry.OnlyBuiltIn) (world : ω)
    (paths : List Path) : setting.BehaviorsConsistent world paths := by
  -- Every claim about a node follows from its list of behaviors being consistent.
  constructor
  case arisen => exact fun hn hm => hn.consistent.descendant hm
  case attached => exact fun b hn => hn.consistent.root.attached b
  case refused =>
    intro n b hn
    have hattached := hn.consistent.root.attached b
    constructor
    · rintro ⟨conflict, hconflict⟩
      rw [hconflict] at hattached
      cases hattached with
      | @refused _ other _ hsplit habsent hrenderer hother _ =>
        refine ⟨hrenderer, ?_, other, by simp [hsplit], hother⟩
        simpa [Node.has] using habsent
    · rintro ⟨hrenderer, habsent, a, ha, hother⟩
      generalize n.attach b = result at hattached ⊢
      cases hattached with
      | @replaced _ old _ hsplit hkind _ =>
        have hpresent : n.has b.kind = true := by simp [Node.has, hsplit, hkind]
        rw [habsent] at hpresent
        cases hpresent
      | appended _ hfree =>
        rw [hfree hrenderer a ha] at hother
        cases hother
      | refused => exact ⟨_, rfl⟩
  case reported =>
    intro scope n b conflict around hconflict
    unfold ImportScope.attach
    rw [hconflict]
    rfl
  case stored =>
    intro p result way n hp hn
    have hroot : p.root.Arises :=
      ((arising hregistry).founded world paths).of_mem (fun _ hn => hn) hp
    exact ⟨hroot, hroot.consistent.descendant hn⟩

/-- A node with a sprite refuses a mask, and the button of a run is consistent. -/
theorem behaviors_consistent_button :
    oneSkin.registry.OnlyBuiltIn ∧
      (∃ conflict, Node.attach { name := "a", behaviors := [.sprite {}] } (.mask {}) =
        .error conflict) ∧
      ∃ p handle, .stored p (.ok handle) ∈ oneSkin.runJournal () [⟨"main.exml"⟩] ∧
        p.root.widget = some "Button" ∧ p.root.Consistent := by
  have hregistry : oneSkin.registry.OnlyBuiltIn := Registry.builtIn_onlyBuiltIn
  have hconsistent := behaviors_consistent hregistry () [⟨"main.exml"⟩]
  have hshown : Node.Arises { name := "a", behaviors := [.sprite {}] } :=
    .attached (b := .sprite {}) (.new "a") rfl
  have hwidgets :
      ((oneSkin.runJournal () [⟨"main.exml"⟩]).accepted.map fun c => c.1.root.widget)[1]? =
        some (some "Button") := by decide +kernel
  rw [List.getElem?_map] at hwidgets
  obtain ⟨⟨p, handle⟩, hsecond, hwidget⟩ := Option.map_eq_some_iff.1 hwidgets
  have hstored := Journal.mem_accepted.1 (List.mem_of_getElem? hsecond)
  have hroot : p.root.descendant? [] = some p.root := rfl
  refine ⟨hregistry, ?_, p, handle, hstored, hwidget, (hconsistent.stored hstored hroot).2⟩
  exact (hconsistent.refused (.mask {}) hshown).2 ⟨rfl, rfl, .sprite {}, List.mem_cons_self, rfl⟩

end Setting

end MarkupScene
