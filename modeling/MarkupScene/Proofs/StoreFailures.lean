import MarkupScene.Proofs.Accounts

/-!
# Failing stores

A run fails exactly when a call of the store fails, and with the failure of that call, which is the
last one; nothing else that goes wrong ends a run. When a store fails at one call and was like
another store before, then until that call the run does what the run with the other store does.
-/
namespace MarkupScene

variable {ω α β : Type}

/-- A prefab that goes to the store, with the answer. -/
abbrev StoreCall := Prefab × Except Failure PrefabRef

namespace StoreCall

def AllAccepted (calls : List StoreCall) : Prop := ∀ c ∈ calls, ∃ handle, c.2 = .ok handle

def handles (calls : List StoreCall) : List PrefabRef := calls.filterMap fun c => c.2.toOption

/-- The calls of a step that ends with a result: all are accepted, or the last one fails, and the
step fails with it. -/
inductive Settle : List StoreCall → Except Failure α → Prop where
  | accepted {calls a} : AllAccepted calls → Settle calls (.ok a)
  | refused {calls p failure} : AllAccepted calls →
      Settle (calls ++ [(p, .error failure)]) (.error failure)

theorem AllAccepted.append {calls more : List StoreCall} (h : AllAccepted calls)
    (hmore : AllAccepted more) : AllAccepted (calls ++ more) := by
  intro c hc
  rcases List.mem_append.1 hc with hc | hc
  · exact h c hc
  · exact hmore c hc

theorem AllAccepted.not_mem {calls : List StoreCall} (h : AllAccepted calls) {p : Prefab}
    {failure : Failure} : (p, .error failure) ∉ calls := by
  intro hp
  obtain ⟨handle, hhandle⟩ := h _ hp
  cases hhandle

theorem Settle.append {calls more : List StoreCall} {result : Except Failure α}
    (h : AllAccepted calls) (hmore : Settle more result) : Settle (calls ++ more) result := by
  cases hmore with
  | accepted haccepted => exact .accepted (h.append haccepted)
  | refused haccepted =>
    rw [← List.append_assoc]
    exact .refused (h.append haccepted)

theorem Settle.map {calls : List StoreCall} {result : Except Failure α}
    (h : Settle calls result) (f : α → β) : Settle calls (result.map f) := by
  cases h with
  | accepted haccepted => exact .accepted haccepted
  | refused haccepted => exact .refused haccepted

theorem Settle.of_failing {calls earlier later : List StoreCall} {result : Except Failure α}
    (h : Settle calls result) {p : Prefab} {failure : Failure}
    (hcalls : calls = earlier ++ (p, .error failure) :: later) :
    later = [] ∧ AllAccepted earlier ∧ result = .error failure := by
  cases h with
  | accepted haccepted =>
    have hmem : (p, .error failure) ∈ calls := by simp [hcalls]
    exact absurd hmem haccepted.not_mem
  | @refused accepted q other haccepted =>
    rcases later.eq_nil_or_concat with rfl | ⟨rest, last, rfl⟩
    · obtain ⟨rfl, hlast⟩ := List.append_inj' hcalls rfl
      obtain ⟨-, hfailure⟩ := Prod.mk.inj (List.cons.inj hlast).1
      exact ⟨rfl, haccepted, by rw [Except.error.inj hfailure]⟩
    · -- The failing call would be among the accepted ones.
      rw [List.concat_eq_append, ← List.cons_append, ← List.append_assoc] at hcalls
      obtain ⟨rfl, -⟩ := List.append_inj' hcalls rfl
      exact absurd (List.mem_append_right _ List.mem_cons_self) haccepted.not_mem

theorem Settle.error_iff {calls : List StoreCall} {result : Except Failure α}
    (h : Settle calls result) (failure : Failure) :
    result = .error failure ↔ ∃ p, (p, .error failure) ∈ calls := by
  constructor
  · rintro rfl
    cases h with
    | refused _ => exact ⟨_, List.mem_append_right _ List.mem_cons_self⟩
  · rintro ⟨p, hp⟩
    obtain ⟨earlier, later, hcalls⟩ := List.append_of_mem hp
    exact (h.of_failing hcalls).2.2

/-- The calls of a run that was cut short by a failure after some calls of a whole run. -/
def CutAfter (n : Nat) (whole : List StoreCall) (failure : Failure) (part : List StoreCall) :
    Prop :=
  ∃ p answer, whole[n]? = some (p, answer) ∧ part = whole.take n ++ [(p, .error failure)]

theorem CutAfter.append {n : Nat} {whole part : List StoreCall} {failure : Failure}
    (h : CutAfter n whole failure part) (more : List StoreCall) :
    CutAfter n (whole ++ more) failure part := by
  obtain ⟨p, answer, hcall, hpart⟩ := h
  obtain ⟨hlt, -⟩ := List.getElem?_eq_some_iff.1 hcall
  refine ⟨p, answer, ?_, ?_⟩
  · rw [List.getElem?_append_left hlt, hcall]
  · rw [List.take_append_of_le_length (Nat.le_of_lt hlt), hpart]

end StoreCall

open StoreCall

/-- A store that does as another in its first calls and fails in the one after. The journal tells it
how often it was called. -/
structure Store.FailsAfter (n : Nat) (faulty : Store (Watched ω)) (store : Store ω) : Prop where
  agrees {p : Prefab} {w : Watched ω} : w.journal.calls.length < n →
    faulty.persist p w = store.watched.persist p w
  fails {p : Prefab} {w : Watched ω} : w.journal.calls.length = n → ∃ failure world,
    faulty.persist p w = (.error failure, ⟨world, w.journal ++ [.stored p (.error failure)]⟩)

/-- A store that fails after some calls and is like another store otherwise. -/
def Store.failingAfter (n : Nat) (failure : Failure) (store : Store ω) : Store (Watched ω) where
  persist p := fun w =>
    if w.journal.calls.length = n then
      (.error failure, { w with journal := w.journal ++ [.stored p (.error failure)] })
    else store.watched.persist p w

theorem Store.failsAfter_failingAfter (n : Nat) (failure : Failure) (store : Store ω) :
    FailsAfter n (store.failingAfter n failure) store where
  agrees h := if_neg (Nat.ne_of_lt h)
  fails h := ⟨failure, _, if_pos h⟩

namespace Run

/-- The store calls of a step settle its result, and the report lists their handles. -/
def Settled (m : Run (Watched ω) α) : Prop :=
  ∀ s, ∃ calls, (m.run s).2.journal.calls = s.journal.calls ++ calls ∧
    (m.run s).2.report.stored = s.report.stored ++ handles calls ∧ Settle calls (m.run s).1

/-- A step that does not fail and has nothing to do with the store. -/
def Still (m : Run (Watched ω) α) : Prop :=
  ∀ s, (∃ a, (m.run s).1 = .ok a) ∧ (m.run s).2.journal.calls = s.journal.calls ∧
    (m.run s).2.report.stored = s.report.stored

theorem Still.settled {m : Run (Watched ω) α} (h : Still m) : Settled m := by
  intro s
  obtain ⟨⟨a, ha⟩, hcalls, hstored⟩ := h s
  refine ⟨[], ?_, ?_, ?_⟩
  · rw [hcalls, List.append_nil]
  · rw [hstored]
    exact (List.append_nil _).symm
  · rw [ha]
    exact .accepted fun _ hc => nomatch hc

theorem Settled.bind {m : Run (Watched ω) α} {f : α → Run (Watched ω) β} (hm : Settled m)
    (hf : ∀ a, Settled (f a)) : Settled (m >>= f) := by
  intro s
  obtain ⟨calls, hcalls, hstored, hsettle⟩ := hm s
  rw [run_bind]
  generalize m.run s = first at hcalls hstored hsettle ⊢
  rcases first with ⟨failure | a, t⟩
  · cases hsettle with
    | refused haccepted => exact ⟨_, hcalls, hstored, .refused haccepted⟩
  · cases hsettle with
    | accepted haccepted =>
      obtain ⟨more, hmore, hmoreStored, hmoreSettle⟩ := hf a t
      dsimp only at hcalls hstored ⊢
      refine ⟨calls ++ more, ?_, ?_, hmoreSettle.append haccepted⟩
      · rw [hmore, hcalls, List.append_assoc]
      · rw [hmoreStored, hstored, handles, handles, handles, List.filterMap_append,
          List.append_assoc]

/-- A step and the same step with a store that fails after some calls: as long as there are not
more calls both do the same, and otherwise the latter is cut short. -/
structure Interrupts (n : Nat) (m faulty : Run (Watched ω) α) : Prop where
  settled : m.Settled
  cut (s : Session (Watched ω)) : s.journal.calls.length ≤ n →
    (m.run s).2.journal.calls.length ≤ n ∧ faulty.run s = m.run s ∨
      ∃ failure t, faulty.run s = (.error failure, t) ∧
        CutAfter n (m.run s).2.journal.calls failure t.journal.calls

theorem Still.interrupts {n : Nat} {m : Run (Watched ω) α} (h : Still m) : Interrupts n m m where
  settled := h.settled
  cut s hs := .inl ⟨by rw [(h s).2.1]; exact hs, rfl⟩

theorem Interrupts.bind {n : Nat} {m faulty : Run (Watched ω) α} {f g : α → Run (Watched ω) β}
    (hm : Interrupts n m faulty) (hf : ∀ a, Interrupts n (f a) (g a)) :
    Interrupts n (m >>= f) (faulty >>= g) where
  settled := hm.settled.bind fun a => (hf a).settled
  cut s hs := by
    have hcut := hm.cut s hs
    rw [run_bind, run_bind]
    generalize m.run s = first at hcut ⊢
    rcases hcut with ⟨hfew, hsame⟩ | ⟨failure, t, hfaulty, hcut⟩
    · rw [hsame]
      rcases first with ⟨failure | a, u⟩
      · exact .inl ⟨hfew, rfl⟩
      · exact (hf a).cut u hfew
    · refine .inr ⟨failure, t, by rw [hfaulty], ?_⟩
      rcases first with ⟨other | a, u⟩
      · exact hcut
      · obtain ⟨more, hmore, -, -⟩ := (hf a).settled u
        dsimp only
        rw [hmore]
        exact hcut.append more

def interruption (n : Nat) : Coupling (Watched ω) (Watched ω) where
  related := Interrupts n
  pure a := Still.interrupts fun _ => ⟨⟨a, rfl⟩, rfl, rfl⟩
  bind := .bind

end Run

namespace Setting

def storedIn (setting : Setting ω) (faulty : Store (Watched ω)) : Setting (Watched ω) :=
  { setting.watched with store := faulty }

section
variable {setting : Setting ω} {n : Nat} {faulty : Store (Watched ω)}

theorem importNode_still (setting : Setting ω) (source : Path) (e : Element)
    (override widget : Option String) (node : Node) :
    (setting.watched.importNode source e override widget node).Still := by
  intro s
  obtain ⟨hmade, hcases⟩ := setting.run_importNode source e override widget node s
  rcases hcases with hsame | ⟨-, -, -, -, after, -, -, hafter⟩
  · rw [hsame]
    exact ⟨hmade, rfl, rfl⟩
  · rw [hafter]
    exact ⟨hmade, (Journal.calls_append _ _).trans (List.append_nil _), rfl⟩

theorem look_still (setting : Setting ω) (path : Path) : (setting.watched.look path).Still := by
  intro s
  obtain ⟨hanswer, hcases⟩ := setting.watched.run_look path s
  rcases hcases with hsame | ⟨reason, hskip⟩
  · rw [hsame]
    exact ⟨hanswer, rfl, rfl⟩
  · rw [hskip]
    exact ⟨hanswer, rfl, rfl⟩

theorem calls_finish (setting : Setting ω) (path : Path) (root : Node) (s : Session (Watched ω)) :
    let done := (setting.watched.finish path root).run s
    done.2.journal.calls = s.journal.calls ++ [(setting.prefabOf path root, done.1)] ∧
      done.2.report.stored =
        s.report.stored ++ handles [(setting.prefabOf path root, done.1)] := by
  dsimp only
  rw [run_finish_watched]
  rcases setting.store.persist (setting.prefabOf path root) s.forget.world with
    ⟨failure | handle, world⟩
  · exact ⟨Journal.calls_append _ _, (List.append_nil _).symm⟩
  · exact ⟨Journal.calls_append _ _, rfl⟩

theorem finish_settled (setting : Setting ω) (path : Path) (root : Node) :
    (setting.watched.finish path root).Settled := by
  intro s
  obtain ⟨hcalls, hstored⟩ := setting.calls_finish path root s
  refine ⟨_, hcalls, hstored, ?_⟩
  generalize (setting.watched.finish path root).run s = done
  rcases done with ⟨failure | handle, t⟩
  · have hnone : AllAccepted [] := fun _ hc => nomatch hc
    exact .refused hnone
  · refine .accepted fun c hc => ?_
    rw [List.mem_singleton.1 hc]
    exact ⟨handle, rfl⟩

theorem finish_interrupts (hfaulty : Store.FailsAfter n faulty setting.store) (path : Path)
    (root : Node) :
    Run.Interrupts n (setting.watched.finish path root)
      ((setting.storedIn faulty).finish path root) where
  settled := setting.finish_settled path root
  cut s hs := by
    obtain ⟨hcalls, -⟩ := setting.calls_finish path root s
    rcases Nat.lt_or_eq_of_le hs with hlt | heq
    · left
      constructor
      · rw [hcalls, List.length_append, List.length_singleton]
        exact hlt
      · rw [run_finish, run_finish]
        rw [show (setting.storedIn faulty).store = faulty from rfl,
          show (setting.storedIn faulty).prefabOf path root = setting.watched.prefabOf path root
            from rfl, hfaulty.agrees hlt]
        rfl
    · right
      obtain ⟨failure, world, hfails⟩ :=
        hfaulty.fails (p := setting.prefabOf path root) (w := s.world) heq
      let t : Session (Watched ω) := s.answered (setting.prefabOf path root) (.error failure) world
      have hrun : ((setting.storedIn faulty).finish path root).run s = (.error failure, t) := by
        rw [run_finish, show (setting.storedIn faulty).store = faulty from rfl,
          show (setting.storedIn faulty).prefabOf path root = setting.prefabOf path root from rfl,
          hfails]
        rfl
      have hpart : t.journal.calls =
          s.journal.calls ++ [(setting.prefabOf path root, .error failure)] :=
        Journal.calls_append _ _
      refine ⟨failure, t, hrun, ⟨setting.prefabOf path root,
        ((setting.watched.finish path root).run s).1, ?_, ?_⟩⟩
      · rw [hcalls, ← heq, List.getElem?_append_right (Nat.le_refl _), Nat.sub_self]
        rfl
      · rw [hcalls, ← heq, List.take_left, hpart]

theorem storedIn_coupled (hfaulty : Store.FailsAfter n faulty setting.store) :
    setting.watched.Coupled (Run.interruption n) (setting.storedIn faulty) where
  options := rfl
  skins := rfl
  checks := rfl
  importing source e override widget node :=
    (setting.importNode_still source e override widget node).interrupts
  looking path := (setting.look_still path).interrupts
  copying _ _ := Run.Still.interrupts fun _ => ⟨⟨_, rfl⟩, rfl, rfl⟩
  finishing := finish_interrupts hfaulty

def storeCalls (setting : Setting ω) (world : ω) (paths : List Path) : List StoreCall :=
  (setting.watched.run paths { world }).2.journal.calls

theorem run_eq (setting : Setting ω) (paths : List Path) (world : ω) :
    setting.run paths world =
      let done := (setting.compileAll paths).run { world }
      (done.1.map fun _ => done.2.report, done.2.world) := rfl

theorem run_watched (setting : Setting ω) (paths : List Path) (world : ω) :
    let done := setting.watched.run paths { world }
    (done.1, done.2.world) = setting.run paths world := by
  have hmirrors := compileAll_coupled setting.watched_coupled paths { world := { world } }
  dsimp only
  rw [run_eq, run_eq]
  dsimp only
  rw [← show _ = (setting.compileAll paths).run { world } from hmirrors]
  rfl

theorem compileAll_interrupts (hfaulty : Store.FailsAfter n faulty setting.store)
    (paths : List Path) :
    Run.Interrupts n (setting.watched.compileAll paths)
      ((setting.storedIn faulty).compileAll paths) :=
  compileAll_coupled (storedIn_coupled hfaulty) paths

/-- The calls of the store settle the result of a run, and its report lists their handles. -/
theorem run_settled (setting : Setting ω) (world : ω) (paths : List Path) :
    Settle (setting.storeCalls world paths) (setting.run paths world).1 ∧
      ∀ report, (setting.run paths world).1 = .ok report →
        report.stored = handles (setting.storeCalls world paths) := by
  have hfaulty := Store.failsAfter_failingAfter 0 (.store "store offline") setting.store
  obtain ⟨calls, hcalls, hstored, hsettle⟩ :=
    (compileAll_interrupts hfaulty paths).settled { world := { world } }
  have hsame : setting.storeCalls world paths = calls := hcalls
  have hrun := setting.run_watched paths world
  dsimp only at hrun
  rw [← hrun, hsame, run_eq]
  refine ⟨hsettle.map _, fun report hreport => ?_⟩
  dsimp only at hreport
  generalize (setting.watched.compileAll paths).run _ = done at hstored hreport
  rcases done with ⟨failure | answer, t⟩
  · cases hreport
  · obtain rfl := Except.ok.inj hreport
    exact hstored

/-- A run stops with the store, and with nothing else. -/
structure StopsWithStore (setting : Setting ω) (world : ω) (paths : List Path) : Prop where
  failed_iff (failure : Failure) : (setting.run paths world).1 = .error failure ↔
    ∃ p, (p, .error failure) ∈ setting.storeCalls world paths
  last {earlier later p failure} :
    setting.storeCalls world paths = earlier ++ (p, .error failure) :: later →
      later = [] ∧ AllAccepted earlier ∧ (setting.run paths world).1 = .error failure
  stored {report} : (setting.run paths world).1 = .ok report →
    report.stored = handles (setting.storeCalls world paths)

/-- How a run with a store that fails after some calls compares to one with the store that it is
like until then. -/
structure LosesNothing (setting : Setting ω) (world : ω) (paths : List Path) (n : Nat)
    (faulty : Store (Watched ω)) : Prop where
  spared : (setting.storeCalls world paths).length ≤ n →
    (setting.storedIn faulty).run paths { world } = setting.watched.run paths { world }
  cut : n < (setting.storeCalls world paths).length → ∃ failure,
    ((setting.storedIn faulty).run paths { world }).1 = .error failure ∧
      CutAfter n (setting.storeCalls world paths) failure
        ((setting.storedIn faulty).run paths { world }).2.journal.calls

/-- Only a failing store stops a run, and it stops the run at once. A store that fails at one call
and is like the store of the setting before cuts the run short at this call. -/
theorem run_stops_with_store (setting : Setting ω) (world : ω) (paths : List Path) :
    setting.StopsWithStore world paths ∧
      ∀ n faulty, Store.FailsAfter n faulty setting.store →
        setting.LosesNothing world paths n faulty := by
  obtain ⟨hsettle, hstored⟩ := setting.run_settled world paths
  refine ⟨⟨hsettle.error_iff, hsettle.of_failing, hstored _⟩, fun n faulty hfaulty => ?_⟩
  have hcut := (compileAll_interrupts hfaulty paths).cut { world := { world } } (Nat.zero_le n)
  constructor
  case spared =>
    intro hfew
    rw [run_eq, run_eq]
    rcases hcut with ⟨-, hsame⟩ | ⟨failure, t, -, hcut⟩
    · rw [hsame]
    · obtain ⟨p, answer, hcall, -⟩ := hcut
      obtain ⟨hlt, -⟩ := List.getElem?_eq_some_iff.1 hcall
      exact absurd hfew (Nat.not_le_of_lt hlt)
  case cut =>
    intro hmany
    rcases hcut with ⟨hfew, -⟩ | ⟨failure, t, hfails, hcut⟩
    · exact absurd hfew (Nat.not_le_of_lt hmany)
    · refine ⟨failure, ?_, ?_⟩
      · rw [run_eq, hfails]
        rfl
      · rw [run_eq, hfails]
        exact hcut

end

/-- The run over a button and its skin, with a store that accepts the skin alone. -/
theorem oneSkin_stops_with_store :
    let faulty := oneSkin.store.failingAfter 1 (.store "store offline")
    let done := (oneSkin.storedIn faulty).run [⟨"button.exml"⟩, ⟨"main.exml"⟩] { world := () }
    Store.FailsAfter 1 faulty oneSkin.store ∧ ∃ failure p answer q, done.1 = .error failure ∧
      done.2.journal.calls = [(p, answer), (q, .error failure)] := by
  let paths : List Path := [⟨"button.exml"⟩, ⟨"main.exml"⟩]
  have hmany : (oneSkin.storeCalls () paths).length = 2 := by decide +kernel
  have hfaulty := Store.failsAfter_failingAfter 1 (.store "store offline") oneSkin.store
  obtain ⟨failure, hfails, q, -, -, hcut⟩ :=
    ((oneSkin.run_stops_with_store () paths).2 1 _ hfaulty).cut (by rw [hmany]; decide)
  have hfirst : ∃ first, (oneSkin.storeCalls () paths).take 1 = [first] :=
    List.length_eq_one_iff.1 (by rw [List.length_take, hmany]; rfl)
  obtain ⟨⟨p, answer⟩, hfirst⟩ := hfirst
  rw [hfirst] at hcut
  exact ⟨hfaulty, failure, p, answer, q, hfails, hcut⟩

end Setting

end MarkupScene
