import MarkupScene.Proofs.FileRoles
import MarkupScene.Proofs.Tours

/-!
# Visits

What a tour has visited and what it will. Of two entries that are still to be visited none lies in
the other, and none of them was visited or lies above anything that was, so that no visit is made
twice. Whatever was in a directory when it was visited is visited as well. The main statement is
that each visit keeps all of this and changes the disk at the place of the visited entry alone.
-/
namespace MarkupScene

open MarkupScene.Path Disk

/-- A file that is taken in changes the disk at its place alone. -/
theorem Takes.grows {source place : Path} {i after : Intake} (h : Takes source place i after)
    (hi : i.disk.IsTree) :
    Grows (· = place.locate i.disk.working) i.disk after.disk := by
  cases h with
  | noted => exact .refl _
  | undecoded => exact .refl _
  | occupied => exact .refl _
  | copied _ _ _ hwrite => exact (hi.writeBytes_grows hwrite).1
  | converted _ _ hwrite => exact (hi.writeBytes_grows hwrite).1

namespace Tour

/-- Neither of two entries is the other one or lies in it. -/
def Apart (ns ms : List String) : Prop := ¬ns <+: ms ∧ ¬ms <+: ns

theorem Apart.child {ns ms : List String} (h : Apart ns ms) (n : String) :
    Apart (ns ++ [n]) ms := by
  constructor
  · exact fun hbelow => h.1 ((List.prefix_append ns [n]).trans hbelow)
  · intro hbelow
    rcases List.prefix_concat_iff.1 hbelow with rfl | hbelow
    · exact h.1 (List.prefix_append ns [n])
    · exact h.2 hbelow

theorem apart_children {ns : List String} {n m : String} (h : n ≠ m) :
    Apart (ns ++ [n]) (ns ++ [m]) := by
  have hne : ∀ {n m : String}, n ≠ m → ¬ns ++ [n] <+: ns ++ [m] := by
    intro n m h hbelow
    have hsame := hbelow.eq_of_length (by simp)
    exact h (List.singleton_inj.1 (List.append_cancel_left hsame))
  exact ⟨hne h, hne (Ne.symm h)⟩

variable {source target : Path} {start : Disk} {t t' : Tour}

/-- What holds between two visits of a tour of a tree. -/
structure Sound (source target : Path) (start : Disk) (t : Tour) : Prop where
  tree : t.intake.disk.IsTree
  grows : Grows (fun l => ∃ ns ∈ t.seen, l = target.locate start.working ++ ns)
    start t.intake.disk
  names : ∀ ns ∈ t.todo ++ t.seen, ns ≠ [] ∧ ∀ n ∈ ns, ProperName n
  listed : ∀ ns ∈ t.todo ++ t.seen,
    t.intake.disk.isDirectory (source.below ns.dropLast) = true ∧
      t.intake.disk.entry? (source.locate start.working ++ ns) ≠ none
  places : ∀ ns ∈ t.todo, t.intake.disk.isDirectory (target.below ns.dropLast) = true
  apart : t.todo.Pairwise Apart
  ahead : ∀ ns ∈ t.todo, ∀ ms ∈ t.seen, ¬ns <+: ms
  once : t.seen.Nodup
  closed : ∀ ns n, ns = [] ∨ ns ∈ t.seen → start.isDirectory (source.below ns) = true →
    start.entry? (source.locate start.working ++ (ns ++ [n])) ≠ none →
      ns ++ [n] ∈ t.todo ++ t.seen

/-- A visit, and the children that it has found. -/
structure Visit (source target : Path) (t t' : Tour) (ns : List String)
    (rest children : List (List String)) : Prop where
  todo : t.todo = ns :: rest
  after : t'.todo = children ++ rest
  seen : t'.seen = t.seen ++ [ns]
  grows : Grows (· = target.locate t.intake.disk.working ++ ns) t.intake.disk t'.intake.disk
  found : ∀ child ∈ children, t'.intake.disk.isDirectory (source.below ns) = true ∧
    t'.intake.disk.isDirectory (target.below ns) = true ∧ ∃ n, child = ns ++ [n] ∧ ProperName n ∧
      t'.intake.disk.entry? (source.locate t.intake.disk.working ++ child) ≠ none
  distinct : children.Pairwise Apart
  complete : t.intake.disk.isDirectory (source.below ns) = true → ∀ n,
    t'.intake.disk.entry? (source.locate t.intake.disk.working ++ (ns ++ [n])) ≠ none →
      ns ++ [n] ∈ children

theorem Sound.place (h : Sound source target start t) {ns : List String} (hns : ns ∈ t.todo) :
    ∃ front n, ns = front ++ [n] ∧ ProperName n ∧
      t.intake.disk.isDirectory (target.below front) = true := by
  obtain ⟨hne, hproper⟩ := h.names ns (List.mem_append_left _ hns)
  have hplace := h.places ns hns
  rcases List.eq_nil_or_concat ns with rfl | ⟨front, n, rfl⟩
  · exact absurd rfl hne
  · rw [List.concat_eq_append] at hproper hplace ⊢
    rw [List.dropLast_concat] at hplace
    exact ⟨front, n, rfl, hproper n (by simp), hplace⟩

/-- Each step is a visit. -/
theorem Sound.visit (h : Sound source target start t) (hstep : Step source target t t') :
    ∃ ns rest children, Visit source target t t' ns rest children := by
  cases hstep with
  | @directory ns rest seen i d found hdirectory hmade hread =>
    refine ⟨ns, rest, found.map (ns ++ [·]), ?_⟩
    have hns : ∀ n ∈ ns, ProperName n := (h.names ns (by simp)).2
    obtain ⟨front, n, rfl, hn, hplace⟩ := h.place (show ns ∈ ns :: rest from List.mem_cons_self)
    have hgrows := h.tree.makeDirectories_join_grows hplace hn
    rw [← below_concat, hmade, locate_below _ _ hns] at hgrows
    have htree : d.IsTree := hgrows.tree h.tree
    have htarget : d.isDirectory (target.below (front ++ [n])) = true := by
      have hne : (target.below (front ++ [n])).text ≠ "" := by
        rw [below_concat]
        exact join_name_ne_empty _ hn
      have hthere := isDirectory_of_made hne (d := i.disk) (by rw [hmade])
      rwa [hmade] at hthere
    obtain ⟨hsource, hnodup, hlisted⟩ := of_readDirectory hread
    rw [locate_below _ _ hns] at hlisted
    have hworking : d.working = i.disk.working := hgrows.working
    refine ⟨rfl, rfl, rfl, hgrows, ?_, ?_, ?_⟩
    · intro child hchild
      obtain ⟨m, hm, rfl⟩ := List.mem_map.1 hchild
      have hproper : ProperName m := htree.toProper.mem_readDirectory hread m hm
      refine ⟨hsource, htarget, m, rfl, hproper, ?_⟩
      have hentry := (hlisted m).1 hm
      rwa [hworking, List.append_assoc] at hentry
    · exact .map _ (fun m k hmk => apart_children hmk) hnodup
    · intro _ m hm
      refine List.mem_map_of_mem ((hlisted m).2 ?_)
      rwa [hworking, List.append_assoc]
  | @file ns rest seen i after hfile htaken =>
    refine ⟨ns, rest, [], rfl, rfl, rfl, ?_, nofun, .nil, ?_⟩
    · have hgrows := (Taking.of_takeFile htaken).grows h.tree
      rwa [locate_below _ _ (h.names ns (by simp)).2] at hgrows
    · intro hdirectory
      rw [hfile] at hdirectory
      cases hdirectory

section
variable {ns : List String} {rest children : List (List String)}

theorem Visit.mem (hvisit : Visit source target t t' ns rest children) {ms : List String} :
    ms ∈ t'.todo ++ t'.seen ↔ ms ∈ children ∨ ms ∈ t.todo ++ t.seen := by
  rw [hvisit.after, hvisit.seen, hvisit.todo]
  simp only [List.mem_append, List.mem_cons, List.not_mem_nil, or_false]
  tauto

theorem Visit.mem_todo (hvisit : Visit source target t t' ns rest children) :
    ns ∈ t.todo ∧ ∀ ms ∈ rest, ms ∈ t.todo := by
  rw [hvisit.todo]
  exact ⟨List.mem_cons_self, fun ms hms => List.mem_cons_of_mem _ hms⟩

theorem Visit.exists_child (hvisit : Visit source target t t' ns rest children)
    {child : List String} (hchild : child ∈ children) : ∃ n, child = ns ++ [n] ∧ ProperName n := by
  obtain ⟨-, -, n, hsame, hn, -⟩ := hvisit.found child hchild
  exact ⟨n, hsame, hn⟩

theorem Visit.apart_rest (hvisit : Visit source target t t' ns rest children)
    (hpairs : t.todo.Pairwise Apart) : (∀ ms ∈ rest, Apart ns ms) ∧ rest.Pairwise Apart := by
  rwa [hvisit.todo, List.pairwise_cons] at hpairs

theorem Visit.apart (hvisit : Visit source target t t' ns rest children)
    (hpairs : t.todo.Pairwise Apart) : t'.todo.Pairwise Apart := by
  obtain ⟨hns, hrest⟩ := hvisit.apart_rest hpairs
  rw [hvisit.after, List.pairwise_append]
  refine ⟨hvisit.distinct, hrest, fun child hchild ms hms => ?_⟩
  obtain ⟨n, rfl, -⟩ := hvisit.exists_child hchild
  exact (hns ms hms).child n

theorem Visit.ahead (hvisit : Visit source target t t' ns rest children)
    (hpairs : t.todo.Pairwise Apart) (hahead : ∀ ns ∈ t.todo, ∀ ms ∈ t.seen, ¬ns <+: ms) :
    ∀ ns ∈ t'.todo, ∀ ms ∈ t'.seen, ¬ns <+: ms := by
  intro ms hms ks hks hbelow
  rw [hvisit.after] at hms
  rw [hvisit.seen] at hks
  rcases List.mem_append.1 hms with hms | hms
  · obtain ⟨n, rfl, -⟩ := hvisit.exists_child hms
    rcases List.mem_append.1 hks with hks | hks
    · exact hahead ns hvisit.mem_todo.1 ks hks ((List.prefix_append ns [n]).trans hbelow)
    · rw [List.mem_singleton.1 hks] at hbelow
      have hlength := hbelow.length_le
      rw [List.length_append, List.length_singleton] at hlength
      omega
  · rcases List.mem_append.1 hks with hks | hks
    · exact hahead ms (hvisit.mem_todo.2 ms hms) ks hks hbelow
    · rw [List.mem_singleton.1 hks] at hbelow
      exact ((hvisit.apart_rest hpairs).1 ms hms).2 hbelow

theorem Visit.once (hvisit : Visit source target t t' ns rest children)
    (hahead : ∀ ns ∈ t.todo, ∀ ms ∈ t.seen, ¬ns <+: ms) (honce : t.seen.Nodup) :
    t'.seen.Nodup := by
  rw [hvisit.seen, List.nodup_append]
  refine ⟨honce, List.nodup_singleton ns, fun ms hms ks hks => ?_⟩
  rw [List.mem_singleton.1 hks]
  rintro rfl
  exact hahead ms hvisit.mem_todo.1 ms hms (List.prefix_refl ms)

end

/-- A visit keeps what holds between two visits. -/
theorem Sound.step (h : Sound source target start t) (hstep : Step source target t t') :
    Sound source target start t' := by
  obtain ⟨ns, rest, children, hvisit⟩ := h.visit hstep
  have hworking : t.intake.disk.working = start.working := h.grows.working
  have hgrows := hvisit.grows
  have hfound := hvisit.found
  have hcomplete := hvisit.complete
  rw [hworking] at hgrows hfound hcomplete
  obtain ⟨hns, hrest⟩ := hvisit.mem_todo
  -- What was seen is never seen again, and the new entries lie in the one just visited.
  constructor
  case tree => exact hgrows.tree h.tree
  case grows =>
    refine (h.grows.mono ?_).trans (hgrows.mono ?_)
    · rintro l ⟨ms, hms, rfl⟩
      exact ⟨ms, by simp [hvisit.seen, hms], rfl⟩
    · rintro l rfl
      exact ⟨ns, by simp [hvisit.seen], rfl⟩
  case names =>
    intro ms hms
    rcases hvisit.mem.1 hms with hms | hms
    · obtain ⟨n, rfl, hn⟩ := hvisit.exists_child hms
      have hproper := (h.names ns (List.mem_append_left _ hns)).2
      exact ⟨by simp, List.forall_mem_append.2 ⟨hproper, List.forall_mem_singleton.2 hn⟩⟩
    · exact h.names ms hms
  case listed =>
    intro ms hms
    rcases hvisit.mem.1 hms with hms | hms
    · obtain ⟨hsource, -, n, rfl, -, hentry⟩ := hfound ms hms
      rw [List.dropLast_concat]
      exact ⟨hsource, hentry⟩
    · obtain ⟨hsource, hentry⟩ := h.listed ms hms
      exact ⟨hgrows.isDirectory hsource, hgrows.entry?_ne_none hentry⟩
  case places =>
    intro ms hms
    rw [hvisit.after] at hms
    rcases List.mem_append.1 hms with hms | hms
    · obtain ⟨-, htarget, n, rfl, -, -⟩ := hfound ms hms
      rwa [List.dropLast_concat]
    · exact hgrows.isDirectory (h.places ms (hrest ms hms))
  case apart => exact hvisit.apart h.apart
  case ahead => exact hvisit.ahead h.apart h.ahead
  case once => exact hvisit.once h.ahead h.once
  case closed =>
    intro ms n hms hdirectory hentry
    rw [hvisit.seen] at hms
    by_cases hsame : ms = ns
    · subst hsame
      have hnow := hcomplete (h.grows.isDirectory hdirectory) n
        (hgrows.entry?_ne_none (h.grows.entry?_ne_none hentry))
      exact hvisit.mem.2 (.inl hnow)
    · refine hvisit.mem.2 (.inr (h.closed ms n ?_ hdirectory hentry))
      simpa [hsame] using hms

/-- What a tour starts with. -/
theorem sound_tourOf (hstart : start.IsTree) (htarget : start.isDirectory target = true)
    {found : List String} (hread : start.readDirectory source = .ok found) :
    Sound source target start (Intake.tourOf start found) := by
  obtain ⟨hsource, hnodup, hlisted⟩ := of_readDirectory hread
  have hmem : ∀ ns, ns ∈ found.map ([·]) ++ [] → ∃ n ∈ found, ns = [n] := by
    intro ns hns
    rw [List.append_nil] at hns
    obtain ⟨n, hn, rfl⟩ := List.mem_map.1 hns
    exact ⟨n, hn, rfl⟩
  constructor
  case tree => exact hstart
  case grows => exact .refl _
  case names =>
    intro ns hns
    obtain ⟨n, hn, rfl⟩ := hmem ns hns
    exact ⟨by simp, List.forall_mem_singleton.2 (hstart.toProper.mem_readDirectory hread n hn)⟩
  case listed =>
    intro ns hns
    obtain ⟨n, hn, rfl⟩ := hmem ns hns
    exact ⟨hsource, (hlisted n).1 hn⟩
  case places =>
    intro ns hns
    obtain ⟨n, hn, rfl⟩ := List.mem_map.1 hns
    exact htarget
  case apart => exact .map _ (fun n m hne => @apart_children [] n m hne) hnodup
  case ahead => nofun
  case once => exact .nil
  case closed =>
    intro ns n hns _ hentry
    obtain rfl : ns = [] := by simpa [Intake.tourOf] using hns
    have hn := (hlisted n).2 hentry
    simp [Intake.tourOf, hn]

theorem Sound.steps (h : Sound source target start t) (hsteps : Steps source target t t') :
    Sound source target start t' := by
  induction hsteps with
  | refl => exact h
  | tail _ hstep ih => exact ih.step hstep

/-- In the end everything was visited that was in a directory from the start. -/
theorem Sound.complete (h : Sound source target start t) (hend : t.todo = [])
    (hstart : start.IsTree) (hsource : source.text ≠ "") {ns : List String} (hne : ns ≠ [])
    (hnames : ∀ n ∈ ns, ProperName n)
    (hdirectory : start.isDirectory (source.below ns.dropLast) = true)
    (hentry : start.entry? (source.locate start.working ++ ns) ≠ none) : ns ∈ t.seen := by
  induction ns using List.reverseRec with
  | nil => exact absurd rfl hne
  | append_singleton front n ih =>
    have hfront : ∀ m ∈ front, ProperName m := fun m hm => hnames m (by simp [hm])
    rw [List.dropLast_concat] at hdirectory
    have hknown : front = [] ∨ front ∈ t.seen := by
      rcases List.eq_nil_or_concat front with rfl | ⟨above, m, rfl⟩
      · exact .inl rfl
      · rw [List.concat_eq_append] at *
        refine .inr (ih (by simp) hfront ?_ ?_)
        · have hwalk := walk_of_isDirectory hdirectory
          rw [below_concat] at hwalk
          rw [List.dropLast_concat]
          exact isDirectory_of_join (below_ne_empty hsource fun k hk => hfront k (by simp [hk]))
            (hfront m (by simp)) hwalk
        · have hthere := hstart.entry?_of_isDirectory hdirectory
          rw [locate_below _ _ hfront] at hthere
          rw [hthere]
          exact Option.some_ne_none _
    have hmem := h.closed front n hknown hdirectory hentry
    rwa [hend, List.nil_append] at hmem

theorem Sound.kept (h : Sound source target start t)
    (hclear : ∀ ns, ns ≠ [] → start.entry? (target.locate start.working ++ ns) = none)
    {l : Location} {e : Entry} (hl : start.entry? l = some e) :
    t.intake.disk.entry? l = some e := by
  rw [h.grows.outside, hl]
  rintro ⟨ns, hns, rfl⟩
  rw [hclear ns (h.names ns (List.mem_append_right _ hns)).1] at hl
  cases hl

/-- When nothing was below the target, no place is taken before its entry is visited. -/
theorem Sound.fresh (h : Sound source target start t)
    (hclear : ∀ ns, ns ≠ [] → start.entry? (target.locate start.working ++ ns) = none)
    {ns : List String} (hns : ns ∈ t.todo) :
    t.intake.disk.entry? (target.locate start.working ++ ns) = none := by
  rw [h.grows.outside, hclear ns (h.names ns (List.mem_append_left _ hns)).1]
  rintro ⟨ms, hms, hsame⟩
  rw [List.append_cancel_left hsame] at hns
  exact h.ahead ms hns ms hms (List.prefix_refl ms)

theorem Step.files (hstep : Step source target t t') :
    ∃ ns added, t'.seen = t.seen ++ [ns] ∧ t'.intake.files = t.intake.files ++ added ∧
      (added = [] ∨ ∃ role, added = [⟨source.below ns, role⟩] ∧
        ∀ out, role.output? = some out → out = target.below ns) := by
  cases hstep with
  | @directory ns => exact ⟨ns, [], rfl, by simp, .inl rfl⟩
  | @file ns _ _ _ _ _ htaken =>
    obtain ⟨added, hfiles, hadded⟩ := (Taking.of_takeFile htaken).files
    exact ⟨ns, added, rfl, hfiles, hadded⟩

/-- Visits are recorded once at most, in their order, and a file is written to its own place. -/
structure Recorded (source target : Path) (t : Tour) : Prop where
  paths : (t.intake.files.map (·.path)).Sublist (t.seen.map source.below)
  outputs : ∀ f ∈ t.intake.files, ∀ out, f.role.output? = some out →
    ∃ ns ∈ t.seen, f.path = source.below ns ∧ out = target.below ns

theorem Recorded.step (h : Recorded source target t) (hstep : Step source target t t') :
    Recorded source target t' := by
  obtain ⟨ns, added, hseen, hfiles, hadded⟩ := hstep.files
  constructor
  · rw [hseen, hfiles, List.map_append, List.map_append]
    refine h.paths.append ?_
    rcases hadded with rfl | ⟨role, rfl, -⟩
    · exact List.nil_sublist _
    · exact List.Sublist.refl _
  · intro f hf out hout
    rw [hseen]
    rw [hfiles] at hf
    rcases List.mem_append.1 hf with hf | hf
    · obtain ⟨ms, hms, hpath, hplace⟩ := h.outputs f hf out hout
      exact ⟨ms, List.mem_append_left _ hms, hpath, hplace⟩
    · rcases hadded with rfl | ⟨role, rfl, hrole⟩
      · cases hf
      · obtain rfl := List.mem_singleton.1 hf
        exact ⟨ns, by simp, rfl, hrole out hout⟩

theorem Recorded.steps (h : Recorded source target t) (hsteps : Steps source target t t') :
    Recorded source target t' := by
  induction hsteps with
  | refl => exact h
  | tail _ hstep ih => exact ih.step hstep

theorem recorded_tourOf (disk : Disk) (found : List String) :
    Recorded source target (Intake.tourOf disk found) where
  paths := List.nil_sublist _
  outputs := nofun

end Tour

end MarkupScene
