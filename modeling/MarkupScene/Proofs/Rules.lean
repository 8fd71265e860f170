import MarkupScene.Compile.Compile

/-!
# Rules for runs

How the steps of a run are reasoned about. A contract says what holds in every session of a run, how
one session may follow another, and what a failure tells. A step that keeps a contract may promise
more about its result, and steps in a row keep what each of them keeps.
-/
namespace MarkupScene

variable {ω α β : Type}

namespace Run

theorem run_get (s : Session ω) : (get : Run ω (Session ω)).run s = (.ok s, s) := rfl

theorem run_modify (f : Session ω → Session ω) (s : Session ω) :
    (modify f : Run ω PUnit).run s = (.ok ⟨⟩, f s) := rfl

theorem run_bind (m : Run ω α) (f : α → Run ω β) (s : Session ω) :
    (m >>= f).run s =
      match m.run s with
      | (.ok a, t) => (f a).run t
      | (.error failure, t) => (.error failure, t) := by
  change (match m.run s with | (r, t) => (ExceptT.bindCont f r).run t) = _
  rcases m.run s with ⟨failure | a, t⟩ <;> rfl

theorem run_map (f : α → β) (m : Run ω α) (s : Session ω) :
    (f <$> m).run s = ((m.run s).1.map f, (m.run s).2) := by
  rw [map_eq_pure_bind, run_bind]
  rcases m.run s with ⟨failure | a, t⟩ <;> rfl

theorem run_importing (action : Importing ω α) (s : Session ω) :
    (importing action).run s =
      (.ok (action ⟨s.world, s.report.diagnostics⟩).1,
        { s with
          world := (action ⟨s.world, s.report.diagnostics⟩).2.world
          report := { s.report with
            diagnostics := (action ⟨s.world, s.report.diagnostics⟩).2.diagnostics } }) := rfl

theorem run_persist (store : Store ω) (p : Prefab) (s : Session ω) :
    (persist store p).run s =
      ((store.persist p s.world).1, { s with world := (store.persist p s.world).2 }) := by
  rw [persist, run_bind, run_get]
  dsimp only
  rcases store.persist p s.world with ⟨failure | handle, world⟩ <;> rfl

end Run

namespace Setting

/-- What importers are told about where they import. -/
def importScope (setting : Setting ω) (source : Path) (override : Option String) : ImportScope ω :=
  { assets := setting.assets, locator := setting.locator, source, isTemplate := override.isSome }

/-- An import lets the importer of the widget act, and does nothing when there is none. -/
theorem importNode_eq (setting : Setting ω) (source : Path) (e : Element)
    (override widget : Option String) (n : Node) :
    setting.importNode source e override widget n =
      match widget.bind setting.registry.importer? with
      | some i => Run.importing (i (setting.importScope source override) e n)
      | none => pure n := by
  cases widget with
  | none => rfl
  | some w =>
    unfold importNode Registry.importAs
    dsimp only [Option.bind_some]
    cases setting.registry.importer? w <;> rfl

end Setting

/-- What a proof about runs keeps track of: a property of all sessions, how one session may follow
another, and what a failure tells about the session in which it ends the run. -/
structure Contract (ω : Type) where
  holds : Session ω → Prop
  moves : Session ω → Session ω → Prop
  fails : Failure → Session ω → Prop
  refl (s : Session ω) : moves s s
  trans {s t u : Session ω} : moves s t → moves t u → moves s u

/-- The ends of a step from a session that keep a contract and a promise about the result. -/
def Contract.Allows (c : Contract ω) (s : Session ω) (after : α → Session ω → Prop) :
    Except Failure α × Session ω → Prop
  | (.ok a, t) => c.holds t ∧ c.moves s t ∧ after a t
  | (.error failure, t) => c.holds t ∧ c.moves s t ∧ c.fails failure t

namespace Run

/-- A step keeps a contract and a promise in every session in which `before` holds. -/
def Meets (c : Contract ω) (before : Session ω → Prop) (m : Run ω α)
    (after : α → Session ω → Prop) : Prop :=
  ∀ s, c.holds s → before s → c.Allows s after (m.run s)

namespace Meets
variable {c : Contract ω} {before before' : Session ω → Prop} {m : Run ω α}
  {after after' : α → Session ω → Prop}

theorem pure {a : α} (h : ∀ s, before s → after a s) : Meets c before (Pure.pure a) after :=
  fun s hs hb => ⟨hs, c.refl s, h s hb⟩

theorem bind {f : α → Run ω β} {last : β → Session ω → Prop} (hm : Meets c before m after)
    (hf : ∀ a, Meets c (after a) (f a) last) : Meets c before (m >>= f) last := by
  intro s hs hb
  have h := hm s hs hb
  rw [run_bind]
  generalize m.run s = first at h ⊢
  rcases first with ⟨failure | a, t⟩
  · exact h
  · obtain ⟨ht, hmove, ha⟩ := h
    have h' := hf a t ht ha
    dsimp only
    generalize (f a).run t = second at h' ⊢
    rcases second with ⟨failure | b, u⟩
    · exact ⟨h'.1, c.trans hmove h'.2.1, h'.2.2⟩
    · exact ⟨h'.1, c.trans hmove h'.2.1, h'.2.2⟩

theorem imp (hm : Meets c before m after) (hbefore : ∀ s, before' s → before s)
    (hafter : ∀ a s, after a s → after' a s) : Meets c before' m after' := by
  intro s hs hb
  have h := hm s hs (hbefore s hb)
  generalize m.run s = done at h ⊢
  rcases done with ⟨failure | a, t⟩
  · exact h
  · exact ⟨h.1, h.2.1, hafter a t h.2.2⟩

/-- What holds before a step and outlasts the moves of the contract holds after it. -/
theorem frame (hm : Meets c before m after) (kept : Session ω → Prop)
    (hkept : ∀ s t, c.moves s t → kept s → kept t) :
    Meets c (fun s => kept s ∧ before s) m fun a s => kept s ∧ after a s := by
  intro s hs hb
  have h := hm s hs hb.2
  generalize m.run s = done at h ⊢
  rcases done with ⟨failure | a, t⟩
  · exact h
  · exact ⟨h.1, h.2.1, hkept s t h.2.1 hb.1, h.2.2⟩

theorem recorded (hm : Meets c before m after) :
    Meets c before m fun a t => after a t ∧ ∃ s, m.run s = (.ok a, t) := by
  intro s hs hb
  have h := hm s hs hb
  generalize hdone : m.run s = done at h ⊢
  rcases done with ⟨failure | a, t⟩
  · exact h
  · exact ⟨h.1, h.2.1, h.2.2, s, hdone⟩

theorem map {f : α → β} {last : β → Session ω → Prop}
    (hm : Meets c before m fun a => last (f a)) : Meets c before (f <$> m) last := by
  rw [map_eq_pure_bind]
  exact hm.bind fun a => pure fun _ h => h

end Meets

end Run

end MarkupScene
