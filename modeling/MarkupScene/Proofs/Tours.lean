import MarkupScene.Project.Intake
import MarkupScene.Proofs.DiskGrowth
import MarkupScene.Proofs.IntakeFrames
import Mathlib.Logic.Relation

/-!
# Tours

A resource tree is walked by a recursion with a bound on its depth. A tour is the same walk one
visit at a time: it keeps the names on the way down to everything that is still to be visited, and
the children of a directory come first once the directory was visited. Tours know no bound. The main
statements are that each walk is a tour and that the bound is never used up, since each level makes
the target longer.
-/
namespace MarkupScene

open MarkupScene.Path Disk

/-- A walk between two visits. -/
structure Tour where
  todo : List (List String)
  seen : List (List String) := []
  intake : Intake

namespace Tour

variable {source target : Path}

/-- Visiting what comes next. A directory is made in the target before it is read. -/
inductive Step (source target : Path) : Tour → Tour → Prop where
  | directory {ns rest seen i d found} :
      i.disk.isDirectory (source.below ns) = true →
      i.disk.makeDirectories (target.below ns) = (.ok (), d) →
      d.readDirectory (source.below ns) = .ok found →
      Step source target ⟨ns :: rest, seen, i⟩
        ⟨found.map (ns ++ [·]) ++ rest, seen ++ [ns], { i with disk := d }⟩
  | file {ns rest seen i after} :
      i.disk.isDirectory (source.below ns) = false →
      (Taking.takeFile (source.below ns) (target.below ns)).run i = (.ok (), after) →
      Step source target ⟨ns :: rest, seen, i⟩ ⟨rest, seen ++ [ns], after⟩

abbrev Steps (source target : Path) : Tour → Tour → Prop :=
  Relation.ReflTransGen (Step source target)

/-- Where a tour stops: at its end, or at a visit that fails. -/
inductive Stops (source target : Path) : Tour → Except Failure Unit × Intake → Prop where
  | done {seen i} : Stops source target ⟨[], seen, i⟩ (.ok (), i)
  | making {ns rest seen i fault d} :
      i.disk.isDirectory (source.below ns) = true →
      i.disk.makeDirectories (target.below ns) = (.error fault, d) →
      Stops source target ⟨ns :: rest, seen, i⟩
        (.error (.disk (target.below ns) fault), { i with disk := d })
  | reading {ns rest seen i d fault} :
      i.disk.isDirectory (source.below ns) = true →
      i.disk.makeDirectories (target.below ns) = (.ok (), d) →
      d.readDirectory (source.below ns) = .error fault →
      Stops source target ⟨ns :: rest, seen, i⟩
        (.error (.disk (source.below ns) fault), { i with disk := d })
  | file {ns rest seen i failure after} :
      i.disk.isDirectory (source.below ns) = false →
      (Taking.takeFile (source.below ns) (target.below ns)).run i = (.error failure, after) →
      Stops source target ⟨ns :: rest, seen, i⟩ (.error failure, after)

theorem Step.deterministic {t a b : Tour} (h : Step source target t a)
    (h' : Step source target t b) : a = b := by
  cases h <;> cases h' <;> grind

theorem Stops.not_step {t a : Tour} {outcome : Except Failure Unit × Intake}
    (h : Stops source target t outcome) : ¬Step source target t a := by
  intro hstep
  cases h <;> cases hstep <;> grind

theorem Stops.deterministic {t : Tour} {o o' : Except Failure Unit × Intake}
    (h : Stops source target t o) (h' : Stops source target t o') : o = o' := by
  cases h <;> cases h' <;> grind

theorem Steps.unique {start t t' : Tour} {o o' : Except Failure Unit × Intake}
    (h : Steps source target start t) (hstop : Stops source target t o)
    (h' : Steps source target start t') (hstop' : Stops source target t' o') :
    t = t' ∧ o = o' := by
  induction h using Relation.ReflTransGen.head_induction_on with
  | refl =>
    obtain rfl | ⟨next, hstep, -⟩ := h'.cases_head
    · exact ⟨rfl, hstop.deterministic hstop'⟩
    · exact absurd hstep hstop.not_step
  | head hstep _ ih =>
    obtain rfl | ⟨next, hstep', hrest⟩ := h'.cases_head
    · exact absurd hstep hstop'.not_step
    · rw [hstep'.deterministic hstep] at hrest
      exact ih hrest

/-- A tour that starts with some entries comes to the rest of it, or stops before. -/
def Leads (source target : Path) (first : List (List String)) (i : Intake) :
    Except Failure Unit × Intake → Prop
  | (.ok (), after) => ∀ rest seen, ∃ visited,
      Steps source target ⟨first ++ rest, seen, i⟩ ⟨rest, seen ++ visited, after⟩
  | (.error failure, after) => ∀ rest seen, ∃ t,
      Steps source target ⟨first ++ rest, seen, i⟩ t ∧ Stops source target t (.error failure, after)

theorem Leads.nil (i : Intake) : Leads source target [] i (.ok (), i) :=
  fun rest seen => ⟨[], by rw [List.append_nil]; exact .refl⟩

theorem Leads.append {first second : List (List String)} {i j : Intake}
    {outcome : Except Failure Unit × Intake} (h : Leads source target first i (.ok (), j))
    (h' : Leads source target second j outcome) :
    Leads source target (first ++ second) i outcome := by
  rcases outcome with ⟨failure | ⟨⟩, after⟩
  · intro rest seen
    obtain ⟨visited, hfirst⟩ := h (second ++ rest) seen
    obtain ⟨t, hsecond, hstop⟩ := h' rest (seen ++ visited)
    rw [List.append_assoc]
    exact ⟨t, hfirst.trans hsecond, hstop⟩
  · intro rest seen
    obtain ⟨visited, hfirst⟩ := h (second ++ rest) seen
    obtain ⟨more, hsecond⟩ := h' rest (seen ++ visited)
    rw [List.append_assoc] at hsecond ⊢
    exact ⟨visited ++ more, hfirst.trans hsecond⟩

theorem Leads.stop {first : List (List String)} {i after : Intake} {failure : Failure}
    (h : Leads source target first i (.error failure, after)) (second : List (List String)) :
    Leads source target (first ++ second) i (.error failure, after) := by
  intro rest seen
  rw [List.append_assoc]
  exact h (second ++ rest) seen

/-- A directory leads where its children lead. -/
theorem Leads.directory {ns : List String} {i : Intake} {d : Disk} {found : List String}
    {outcome : Except Failure Unit × Intake}
    (hdirectory : i.disk.isDirectory (source.below ns) = true)
    (hmade : i.disk.makeDirectories (target.below ns) = (.ok (), d))
    (hread : d.readDirectory (source.below ns) = .ok found)
    (h : Leads source target (found.map (ns ++ [·])) { i with disk := d } outcome) :
    Leads source target [ns] i outcome := by
  have hstep : ∀ rest seen, Step source target ⟨[ns] ++ rest, seen, i⟩
      ⟨found.map (ns ++ [·]) ++ rest, seen ++ [ns], { i with disk := d }⟩ :=
    fun _ _ => .directory hdirectory hmade hread
  rcases outcome with ⟨failure | ⟨⟩, after⟩
  · intro rest seen
    obtain ⟨t, hsteps, hstop⟩ := h rest (seen ++ [ns])
    exact ⟨t, .head (hstep rest seen) hsteps, hstop⟩
  · intro rest seen
    obtain ⟨visited, hsteps⟩ := h rest (seen ++ [ns])
    rw [List.append_assoc] at hsteps
    exact ⟨[ns] ++ visited, .head (hstep rest seen) hsteps⟩

theorem Leads.of_stops {ns : List String} {i after : Intake} {failure : Failure}
    (h : ∀ rest seen, Stops source target ⟨ns :: rest, seen, i⟩ (.error failure, after)) :
    Leads source target [ns] i (.error failure, after) :=
  fun rest seen => ⟨⟨ns :: rest, seen, i⟩, .refl, h rest seen⟩

end Tour

namespace Taking

open Tour

variable {source target : Path}

theorem run_names (directory : Path) (i : Intake) :
    (names directory).run i =
      match i.disk.readDirectory directory with
      | .ok found => (.ok found, i)
      | .error fault => (.error (.disk directory fault), i) := by
  unfold names
  rw [run_get_bind]
  cases i.disk.readDirectory directory <;> rfl

theorem run_makeDirectories (path : Path) (i : Intake) :
    (makeDirectories path).run i =
      match i.disk.makeDirectories path with
      | (.ok (), d) => (.ok (), { i with disk := d })
      | (.error fault, d) => (.error (.disk path fault), { i with disk := d }) := by
  unfold makeDirectories
  rw [run_get_bind]
  rcases i.disk.makeDirectories path with ⟨fault | ⟨⟩, d⟩ <;> rfl

theorem forM_leads {f : String → Taking Unit} {ns : List String} (kept : Intake → Prop)
    {found : List String}
    (hf : ∀ n ∈ found, ∀ i, kept i → Leads source target [ns ++ [n]] i ((f n).run i) ∧
      kept ((f n).run i).2) {i : Intake} (hi : kept i) :
    Leads source target (found.map (ns ++ [·])) i ((found.forM f).run i) := by
  induction found generalizing i with
  | nil => exact .nil i
  | cons n rest ih =>
    obtain ⟨hfirst, hkept⟩ := hf n List.mem_cons_self i hi
    have hrest := fun j hj => ih (fun m hm => hf m (List.mem_cons_of_mem _ hm)) (i := j) hj
    rw [List.map_cons, ← List.singleton_append, List.forM_eq_forM, List.forM_cons, run_bind]
    generalize (f n).run i = first at hfirst hkept ⊢
    rcases first with ⟨failure | ⟨⟩, after⟩
    · exact hfirst.stop _
    · exact hfirst.append (hrest after hkept)

theorem taken_of_made {d : Disk} {p : Path} (hp : p.text ≠ "")
    (h : (d.makeDirectories p).1 = .ok ()) : Taken p := by
  have hmade := isDirectory_of_made hp h
  unfold isDirectory at hmade
  split at hmade
  · next hwalk => exact taken_of_walk hwalk
  · cases hmade

theorem depth_pos {depth : Nat} {ns : List String} (hns : ∀ n ∈ ns, ProperName n)
    (hdepth : pathLimit ≤ depth + ns.length) (hplace : ns = [] ∨ Taken (target.below ns)) :
    ∃ below, depth = below + 1 := by
  refine Nat.exists_eq_succ_of_ne_zero fun hzero => ?_
  rcases hplace with rfl | htaken
  · rw [hzero] at hdepth
    exact absurd hdepth (by decide)
  · have hlength := length_le_size_below target hns
    have hsize := htaken.size
    omega

theorem takeTree_unread {depth : Nat} {source : Path} (target : Path) {i : Intake}
    {fault : DiskFault} (hread : i.disk.readDirectory source = .error fault) :
    (takeTree (depth + 1) source target).run i = (.error (.disk source fault), i) := by
  rw [takeTree, run_bind, run_names, hread]

theorem takeTree_proper (depth : Nat) (source target : Path) {i : Intake}
    (hi : i.disk.Proper) : ((takeTree depth source target).run i).2.disk.Proper :=
  (takeTree_keeps depth source (List.nil_prefix (l := target.locate i.disk.working)) i rfl
    hi).1.proper hi

theorem takeFile_proper (source target : Path) {i : Intake} (hi : i.disk.Proper) :
    ((takeFile source target).run i).2.disk.Proper := by
  have hkeeps : Keeps i.disk.working (fun _ => True) (takeFile source target) fun _ => True :=
    takeFile_keeps trivial
  exact (hkeeps i rfl hi).1.proper hi

/-- A walk below a place in the target is a tour, when its depth is enough for the longest path. -/
theorem takeTree_leads (depth : Nat) {ns : List String} {i : Intake} (hproper : i.disk.Proper)
    (hns : ∀ n ∈ ns, ProperName n) (hdepth : pathLimit ≤ depth + ns.length)
    (hplace : ns = [] ∨ Taken (target.below ns)) {found : List String}
    (hread : i.disk.readDirectory (source.below ns) = .ok found) :
    Leads source target (found.map (ns ++ [·])) i
      ((takeTree depth (source.below ns) (target.below ns)).run i) := by
  -- Each level takes one off the depth and adds one name, so that their sum stays enough.
  induction depth generalizing ns i found with
  | zero =>
    obtain ⟨below, hzero⟩ := depth_pos hns hdepth hplace
    cases hzero
  | succ depth ih =>
    rw [takeTree, run_bind, run_names, hread]
    refine forM_leads (fun i => i.disk.Proper) (fun n hn j hj => ?_) hproper
    have hname : ProperName n := hproper.mem_readDirectory hread n hn
    have hchild : ∀ m ∈ ns ++ [n], ProperName m :=
      List.forall_mem_append.2 ⟨hns, List.forall_mem_singleton.2 hname⟩
    have hdepth' : pathLimit ≤ depth + (ns ++ [n]).length := by
      rw [List.length_append, List.length_singleton]
      omega
    have hplace' : (target.below (ns ++ [n])).text ≠ "" := by
      rw [below_concat]
      exact join_name_ne_empty _ hname
    dsimp only
    rw [run_get_bind, ← below_concat, ← below_concat]
    generalize ns ++ [n] = child at hchild hdepth' hplace'
    cases hdirectory : j.disk.isDirectory (source.below child) with
    | false =>
      rw [if_neg Bool.false_ne_true]
      have hkept := takeFile_proper (source.below child) (target.below child) hj
      cases htaken : (takeFile (source.below child) (target.below child)).run j with
      | mk result after =>
        rw [htaken] at hkept
        refine ⟨?_, hkept⟩
        cases result with
        | error failure => exact .of_stops fun _ _ => .file hdirectory htaken
        | ok a => exact fun rest seen => ⟨[child], .single (.file hdirectory htaken)⟩
    | true =>
      rw [if_pos rfl, run_bind, run_makeDirectories]
      have hmadeProper := (j.disk.makeDirectories_writes (target.below child)).proper hj
      cases hmade : j.disk.makeDirectories (target.below child) with
      | mk result d =>
        rw [hmade] at hmadeProper
        cases result with
        | error fault =>
          exact ⟨.of_stops fun _ _ => .making hdirectory hmade, hmadeProper⟩
        | ok made =>
          have htaken : Taken (target.below child) := taken_of_made hplace' (by rw [hmade])
          cases hread' : d.readDirectory (source.below child) with
          | error fault =>
            obtain ⟨below, rfl⟩ := depth_pos hchild hdepth' (.inr htaken)
            dsimp only
            rw [takeTree_unread _ hread']
            exact ⟨.of_stops fun _ _ => .reading hdirectory hmade hread', hmadeProper⟩
          | ok found' =>
            refine ⟨.directory hdirectory hmade hread' ?_, takeTree_proper _ _ _ hmadeProper⟩
            exact ih hmadeProper hchild hdepth' (.inr htaken) hread'

end Taking

namespace Intake

open Tour

/-- The tour of a tree that is about to be taken in. -/
def tourOf (disk : Disk) (found : List String) : Tour := ⟨found.map ([·]), [], { disk }⟩

/-- Taking in a tree is a tour of what is found in it, whatever the depth, when that is enough for
the longest path. -/
theorem takeTree_tour {disk : Disk} (hdisk : disk.Proper) {source : Path} (target : Path)
    {found : List String} (hread : disk.readDirectory source = .ok found) {depth : Nat}
    (hdepth : pathLimit ≤ depth) :
    ∃ t, Steps source target (tourOf disk found) t ∧
      Stops source target t ((Taking.takeTree depth source target).run { disk }) := by
  have hleads : Leads source target (found.map ([] ++ [·])) { disk }
      ((Taking.takeTree depth (source.below []) (target.below [])).run { disk }) :=
    @Taking.takeTree_leads source target depth [] { disk } hdisk (fun _ h => nomatch h) hdepth
      (.inl rfl) found hread
  rw [below_nil, below_nil] at hleads
  have hstart : tourOf disk found = ⟨found.map ([] ++ [·]) ++ [], [], { disk }⟩ := by
    rw [List.append_nil]
    rfl
  rw [hstart]
  generalize (Taking.takeTree depth source target).run { disk } = outcome at hleads
  rcases outcome with ⟨failure | ⟨⟩, after⟩
  · exact hleads [] []
  · obtain ⟨visited, hsteps⟩ := hleads [] []
    exact ⟨_, hsteps, .done⟩

theorem ofTree_unread {disk : Disk} {source : Path} (target : Path) {fault : DiskFault}
    (hread : disk.readDirectory source = .error fault) :
    ofTree disk source target = (.error (.disk source fault), { disk }) := by
  obtain ⟨below, hlimit⟩ : ∃ below, pathLimit = below + 1 := ⟨4095, rfl⟩
  rw [ofTree, hlimit]
  exact Taking.takeTree_unread target hread

theorem takeTree_depth {disk : Disk} (hdisk : disk.Proper) (source target : Path) {depth : Nat}
    (hdepth : pathLimit ≤ depth) :
    (Taking.takeTree depth source target).run { disk } = ofTree disk source target := by
  cases hread : disk.readDirectory source with
  | error fault =>
    obtain ⟨below, rfl⟩ : ∃ below, depth = below + 1 :=
      @Taking.depth_pos target depth [] (fun _ h => nomatch h) hdepth (.inl rfl)
    exact (Taking.takeTree_unread target hread).trans (ofTree_unread target hread).symm
  | ok found =>
    obtain ⟨t, hsteps, hstop⟩ := takeTree_tour hdisk target hread hdepth
    obtain ⟨t', hsteps', hstop'⟩ := takeTree_tour hdisk target hread (Nat.le_refl pathLimit)
    exact (hsteps.unique hstop hsteps' hstop').2

end Intake

end MarkupScene
