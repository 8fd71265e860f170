import MarkupScene.Proofs.RefusedRenderers

/-!
# Resolutions

A symbolic name may have a path of its own, stand for a frame of a sheet and be a sheet and a frame
with a dot between them, all at once. The first of these that applies decides, also when it leads
nowhere. The main statement is that the locator is asked what this one tells and nothing else, that
its answer is the outcome, and that a name without an asset is reported once.
-/
namespace MarkupScene

variable {ω : Type}

namespace AssetTable

variable {t : AssetTable} {name sheet frame path : String} {q q' : AssetQuery}

/-- The path of a name, which is not empty. -/
def Locates (t : AssetTable) (name path : String) : Prop :=
  t.paths.get? name = some path ∧ path ≠ ""

/-- The question that a name asks. A name with a path stands for nothing else, and one that stands
for a frame is not cut at its dots. -/
inductive Asks (t : AssetTable) (name : String) : AssetQuery → Prop
  | path {path : String} (hpath : t.Locates name path) : Asks t name ⟨path, none⟩
  | frame {sheet frame path : String} (hnone : ∀ path, ¬t.Locates name path)
      (hframe : t.frames.get? name = some (sheet, frame)) (hsheet : t.Locates sheet path) :
      Asks t name ⟨path, some frame⟩
  | dotted {sheet frame path : String} (hnone : ∀ path, ¬t.Locates name path)
      (hframe : t.frames.get? name = none) (hname : name = sheet ++ "." ++ frame)
      (hlast : '.' ∉ frame.toList) (hsheet : t.Locates sheet path) :
      Asks t name ⟨path, some frame⟩

theorem path?_eq_some_iff : t.path? name = some path ↔ t.Locates name path := by
  rw [path?, Option.filter_eq_some_iff, Locates]
  simp

theorem path?_eq_none_iff : t.path? name = none ↔ ∀ path, ¬t.Locates name path := by
  simp only [← path?_eq_some_iff, Option.eq_none_iff_forall_ne_some]

theorem frameQuery?_eq_some_iff :
    t.frameQuery? sheet frame = some q ↔ ∃ path, t.Locates sheet path ∧ q = ⟨path, some frame⟩ := by
  rw [frameQuery?, Option.map_eq_some_iff]
  exact exists_congr fun path => and_congr path?_eq_some_iff eq_comm

theorem splitName_iff :
    Text.splitLast '.' name.toList = some (sheet.toList, frame.toList) ↔
      name = sheet ++ "." ++ frame ∧ '.' ∉ frame.toList := by
  rw [Text.splitLast_eq_some_iff, ← String.toList_inj]
  simp

theorem asks_of_query? (h : t.query? name = some q) : t.Asks name q := by
  unfold query? at h
  cases hpath : t.path? name with
  | some path =>
    rw [hpath] at h
    obtain rfl := Option.some.inj h
    exact .path (path?_eq_some_iff.1 hpath)
  | none =>
    rw [hpath] at h
    have hnone := path?_eq_none_iff.1 hpath
    dsimp only at h
    cases hframe : t.frame? name with
    | some entry =>
      rw [hframe] at h
      obtain ⟨path, hsheet, rfl⟩ := frameQuery?_eq_some_iff.1 h
      exact .frame hnone hframe hsheet
    | none =>
      rw [hframe] at h
      obtain ⟨⟨sheet, frame⟩, hsplit, hquery⟩ := Option.bind_eq_some_iff.1 h
      obtain ⟨path, hsheet, rfl⟩ := frameQuery?_eq_some_iff.1 hquery
      have hname : Text.splitLast '.' name.toList =
          some ((String.ofList sheet).toList, (String.ofList frame).toList) := by
        rw [hsplit, String.toList_ofList, String.toList_ofList]
      obtain ⟨hjoined, hlast⟩ := splitName_iff.1 hname
      exact .dotted hnone hframe hjoined hlast hsheet

theorem Asks.query? (h : t.Asks name q) : t.query? name = some q := by
  unfold AssetTable.query?
  cases h with
  | path hpath => rw [path?_eq_some_iff.2 hpath]
  | frame hnone hframe hsheet =>
    rw [path?_eq_none_iff.2 hnone, show t.frame? name = _ from hframe]
    exact frameQuery?_eq_some_iff.2 ⟨_, hsheet, rfl⟩
  | @dotted sheet frame path hnone hframe hname hlast hsheet =>
    rw [path?_eq_none_iff.2 hnone, show t.frame? name = _ from hframe]
    dsimp only
    rw [splitName_iff.2 ⟨hname, hlast⟩, Option.bind_some, String.ofList_toList,
      String.ofList_toList]
    exact frameQuery?_eq_some_iff.2 ⟨_, hsheet, rfl⟩

theorem query?_eq_some_iff : t.query? name = some q ↔ t.Asks name q :=
  ⟨asks_of_query?, Asks.query?⟩

theorem Asks.unique (h : t.Asks name q) (h' : t.Asks name q') : q' = q :=
  Option.some.inj ((query?_eq_some_iff.2 h').symm.trans (query?_eq_some_iff.2 h))

end AssetTable

def AssetQuery.call (q : AssetQuery) : LocatorCall := .resolve q.path q.frame

/-- What the locator is asked for a name, what it finds and what becomes of the outside. -/
inductive ImportScope.Resolves (scope : ImportScope ω) (name : String) (w : ω) :
    List AssetQuery → Option AssetRef → ω → Prop
  | unnamed (hname : name = "") : Resolves scope name w [] none w
  | unknown (hname : name ≠ "") (hnone : ∀ q, ¬scope.assets.Asks name q) :
      Resolves scope name w [] none w
  | asked {q : AssetQuery} (hname : name ≠ "") (hasks : scope.assets.Asks name q) :
      Resolves scope name w [q] ((scope.locator.resolve q.path q.frame).run w).1
        ((scope.locator.resolve q.path q.frame).run w).2

/-- Nothing is left open. -/
theorem ImportScope.Resolves.unique {scope : ImportScope ω} {name : String} {w v v' : ω}
    {queries queries' : List AssetQuery} {found found' : Option AssetRef}
    (h : scope.Resolves name w queries found v) (h' : scope.Resolves name w queries' found' v') :
    queries' = queries ∧ found' = found ∧ v' = v := by
  cases h with
  | unnamed hname =>
    cases h' with
    | unnamed => exact ⟨rfl, rfl, rfl⟩
    | unknown hname' => exact absurd hname hname'
    | asked hname' => exact absurd hname hname'
  | unknown hname hnone =>
    cases h' with
    | unnamed hname' => exact absurd hname' hname
    | unknown => exact ⟨rfl, rfl, rfl⟩
    | asked _ hasks => exact absurd hasks (hnone _)
  | asked hname hasks =>
    cases h' with
    | unnamed hname' => exact absurd hname' hname
    | unknown _ hnone => exact absurd hasks (hnone _)
    | asked _ hasks' =>
      obtain rfl := hasks.unique hasks'
      exact ⟨rfl, rfl, rfl⟩

namespace ImportScope

variable {scope : ImportScope ω} {name : String}

/-- What is reported of a name: that there is no such asset, unless there is no name. -/
def reports (scope : ImportScope ω) (name : String) (found : Option AssetRef) : List Diagnostic :=
  if name ≠ "" ∧ found = none then
    [⟨.unresolvedResource, scope.source, "resource '" ++ name ++ "' not found"⟩]
  else []

theorem resolve_unnamed (scope : ImportScope ω) (s : Surroundings ω) :
    scope.resolve "" s = (none, s) := rfl

theorem resolve_of_named (hname : name ≠ "") (s : Surroundings ω) :
    scope.resolve name s =
      match scope.assets.query? name with
      | none => (none, { s with diagnostics := s.diagnostics ++ scope.reports name none })
      | some q =>
        (((scope.locator.resolve q.path q.frame).run s.world).1,
          { world := ((scope.locator.resolve q.path q.frame).run s.world).2
            diagnostics := s.diagnostics ++
              scope.reports name ((scope.locator.resolve q.path q.frame).run s.world).1 }) := by
  have hempty : name.isEmpty = false := by simpa using hname
  have hnone : scope.reports name none =
      [⟨.unresolvedResource, scope.source, "resource '" ++ name ++ "' not found"⟩] :=
    if_pos ⟨hname, rfl⟩
  have hsome : ∀ asset, scope.reports name (some asset) = [] := fun _ =>
    if_neg fun hfound => nomatch hfound.2
  rw [resolve, hempty, if_neg Bool.false_ne_true]
  cases scope.assets.query? name with
  | none =>
    dsimp only
    rw [hnone]
    rfl
  | some q =>
    dsimp only
    rw [Importing.bind_apply]
    have hask : ask (scope.locator.resolve q.path q.frame) s =
        (((scope.locator.resolve q.path q.frame).run s.world).1,
          { s with world := ((scope.locator.resolve q.path q.frame).run s.world).2 }) := rfl
    rw [hask]
    generalize (scope.locator.resolve q.path q.frame).run s.world = answer
    obtain ⟨_ | asset, w⟩ := answer
    · rw [hnone]
      rfl
    · rw [hsome, List.append_nil]
      rfl

/-- A name is resolved in one way: the empty one without a question, and any other with the question
that it asks, if there is one. The outcome is the answer to it, also of a locator that lists its
calls. There is one report when nothing was found, which names the source, and none otherwise. -/
theorem resolve_asks_once (scope : ImportScope ω) (name : String) (s : Surroundings (Traced ω)) :
    ∃ queries found w,
      (∀ queries' found' w', scope.Resolves name s.world.world queries' found' w' ↔
        queries' = queries ∧ found' = found ∧ w' = w) ∧
      queries.length ≤ 1 ∧
      scope.resolve name s.untraced =
        (found, { world := w, diagnostics := s.diagnostics ++ scope.reports name found }) ∧
      scope.traced.resolve name s =
        (found,
          { world := { world := w, calls := s.world.calls ++ queries.map AssetQuery.call }
            diagnostics := s.diagnostics ++ scope.reports name found }) := by
  have hone : ∀ {queries found w}, scope.Resolves name s.world.world queries found w →
      ∀ queries' found' w', scope.Resolves name s.world.world queries' found' w' ↔
        queries' = queries ∧ found' = found ∧ w' = w := by
    intro queries found w h queries' found' w'
    refine ⟨h.unique, ?_⟩
    rintro ⟨rfl, rfl, rfl⟩
    exact h
  by_cases hname : name = ""
  · refine ⟨[], none, s.world.world, hone (.unnamed hname), Nat.zero_le 1, ?_⟩
    rw [hname, resolve_unnamed, resolve_unnamed, reports, if_neg fun h => h.1 rfl,
      List.append_nil, List.map_nil, List.append_nil]
    exact ⟨rfl, rfl⟩
  · rw [resolve_of_named hname, resolve_of_named hname]
    cases hquery : scope.assets.query? name with
    | none =>
      have hnone : ∀ q, ¬scope.assets.Asks name q := by
        intro q hasks
        rw [AssetTable.query?_eq_some_iff.2 hasks] at hquery
        cases hquery
      refine ⟨[], none, s.world.world, hone (.unknown hname hnone), Nat.zero_le 1, rfl, ?_⟩
      rw [show scope.traced.assets.query? name = none from hquery, List.map_nil, List.append_nil]
      rfl
    | some q =>
      have hasks := AssetTable.query?_eq_some_iff.1 hquery
      refine ⟨[q], _, _, hone (.asked hname hasks), Nat.le_refl 1, rfl, ?_⟩
      rw [show scope.traced.assets.query? name = some q from hquery]
      rfl

end ImportScope

end MarkupScene
