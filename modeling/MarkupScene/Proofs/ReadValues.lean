import MarkupScene.Proofs.Dictionaries
import MarkupScene.Proofs.PrintedValues

/-!
# Read values

What is known of a value that was read. It lies in no more brackets than the reader allows, and its
integers fit in eight bytes, so that it can be printed and read again. The main statements are that
this holds of what is read and of what is settled, and that a settled value is settled for good.
-/
namespace MarkupScene.Json

open Numeric Text

variable {room : Nat}

theorem fitItems_iff {items : List Value} :
    FitItems room items ↔ ∀ v ∈ items, v.Fits room := by
  induction items with
  | nil => simp [FitItems]
  | cons v items ih => simp [FitItems, ih]

theorem fitMembers_iff {members : List (String × Value)} :
    FitMembers room members ↔ ∀ m ∈ members, m.2.Fits room := by
  induction members with
  | nil => simp [FitMembers]
  | cons m members ih => simp [FitMembers, ih]

theorem toInteger?_inWords {t : NumberText} {i : Int} (h : t.toInteger? = some i) : InWords i := by
  unfold NumberText.toInteger? at h
  have hlimit : NumberText.wordLimit = 2 ^ 64 := rfl
  dsimp only at h
  unfold InWords
  split at h
  · cases h
  · split at h
    · split at h
      · obtain rfl := Option.some.inj h
        omega
      · cases h
    · split at h
      · obtain rfl := Option.some.inj h
        omega
      · cases h

namespace Token

/-- A token whose value fits anywhere. -/
def Fits : Token → Prop
  | .scalar v => ∀ room, v.Fits room
  | _ => True

theorem number?_fits {cs : List Char} {v : Value} (h : number? cs = some v) : v.Fits room := by
  obtain ⟨t, -, rfl⟩ := Option.map_eq_some_iff.1 h
  unfold NumberText.value
  split
  · next hinteger => exact toInteger?_inWords hinteger
  · split <;> trivial

theorem word?_fits {cs : List Char} {v : Value} (h : word? cs = some v) : v.Fits room := by
  unfold word? at h
  split_ifs at h <;> cases h <;> trivial

/-- The values of scanned tokens fit anywhere. -/
theorem scan?_fits {s : List Char} {ts : List Token} (h : scan? s = some ts) :
    ∀ t ∈ ts, t.Fits := by
  have hcons : ∀ {t : Token} {o : Option (List Token)}, t.Fits →
      (∀ {us}, o = some us → ∀ u ∈ us, u.Fits) →
      ∀ {ts}, o.map (t :: ·) = some ts → ∀ u ∈ ts, u.Fits := by
    intro t o ht ho ts hts
    obtain ⟨us, hus, rfl⟩ := Option.map_eq_some_iff.1 hts
    exact List.forall_mem_cons.2 ⟨ht, ho hus⟩
  fun_induction scan? s generalizing ts with
  | case1 =>
    obtain rfl := Option.some.inj h
    exact fun _ h => nomatch h
  | case2 c rest hspace ih => exact ih h
  | case3 rest marks after hmarks _ _ ih =>
    refine hcons ?_ ih h
    trivial
  | case5 c rest _ _ _ v hv _ ih =>
    refine hcons ?_ ih h
    exact fun _ => number?_fits hv
  | case7 c rest _ _ _ _ v hv _ ih =>
    refine hcons ?_ ih h
    exact fun _ => word?_fits hv
  | case9 c rest _ _ _ _ t ht ih =>
    refine hcons ?_ ih h
    unfold mark? at ht
    split at ht <;> cases ht <;> trivial
  | case4 | case6 | case8 | case10 => cases h

end Token

/-- Whether what an open bracket holds fits in so many brackets. -/
def Frame.Fits (room : Nat) : Frame → Prop
  | .array items => ∀ v ∈ items, v.Fits room
  | .object members _ => ∀ m ∈ members, m.2.Fits room

/-- Open brackets whose values fit in the brackets that the reader still allows there. -/
def FitStack : List Frame → Prop
  | [] => True
  | frame :: outer => frame.Fits (depthLimit - (outer.length + 1)) ∧ FitStack outer

namespace Machine

structure Fits (m : Machine) : Prop where
  stack : FitStack m.stack
  result : ∀ v ∈ m.result, v.Fits depthLimit

theorem members?_mem {members : List (Option String × Value)} {named : List (String × Value)}
    (h : members? members = some named) : ∀ m ∈ named, (some m.1, m.2) ∈ members := by
  induction members generalizing named with
  | nil =>
    obtain rfl := Option.some.inj h
    exact fun _ h => nomatch h
  | cons m members ih =>
    obtain ⟨key, v⟩ := m
    obtain ⟨key, rfl, h⟩ := Option.bind_eq_some_iff.1 h
    obtain ⟨rest, hrest, h⟩ := Option.bind_eq_some_iff.1 h
    obtain rfl := Option.some.inj h
    exact List.forall_mem_cons.2
      ⟨List.mem_cons_self, fun m hm => List.mem_cons_of_mem _ (ih hrest m hm)⟩

theorem put_fits {v : Value} {stack : List Frame} (hv : v.Fits (depthLimit - stack.length))
    (hstack : FitStack stack) : (put v stack).Fits := by
  cases stack with
  | nil => exact ⟨trivial, fun w hw => Option.some.inj hw ▸ hv⟩
  | cons frame outer =>
    obtain ⟨hframe, houter⟩ := hstack
    cases frame with
    | array items => exact ⟨⟨List.forall_mem_cons.2 ⟨hv, hframe⟩, houter⟩, fun _ h => nomatch h⟩
    | object members key =>
      exact ⟨⟨List.forall_mem_cons.2 ⟨hv, hframe⟩, houter⟩, fun _ h => nomatch h⟩

theorem close_fits {depth : Nat} {frame : Frame} (h : frame.Fits (depthLimit - (depth + 1))) :
    (close depth frame).Fits (depthLimit - depth) := by
  unfold close
  split
  · trivial
  · next hdepth =>
    have hroom : 0 < depthLimit - depth := by omega
    rw [← Nat.sub_sub] at h
    cases frame with
    | array items => exact ⟨hroom, fitItems_iff.2 fun v hv => h v (List.mem_reverse.1 hv)⟩
    | object members key =>
      dsimp only
      split
      · next named hnamed =>
        refine ⟨hroom, fitMembers_iff.2 fun m hm => ?_⟩
        exact h _ (List.mem_reverse.1 (members?_mem hnamed m hm))
      · trivial

theorem step_fits {m m' : Machine} {t : Token} (hm : m.Fits) (ht : t.Fits)
    (h : step m t = some m') : m'.Fits := by
  have hstack := hm.stack
  have htext : ∀ s : Option String,
      (s.elim .broken .text : Value).Fits (depthLimit - m.stack.length) := by
    intro s
    cases s <;> trivial
  unfold step at h
  split at h
  case h_18 => cases h
  all_goals obtain rfl := Option.some.inj h
  -- A bracket opens.
  case h_1 | h_2 | h_6 | h_7 => exact ⟨⟨List.forall_mem_nil _, hstack⟩, fun _ h => nomatch h⟩
  -- A scalar comes.
  case h_3 | h_8 => exact put_fits (ht _) hstack
  case h_4 | h_9 => exact put_fits (htext _) hstack
  -- A bracket closes.
  case h_5 hopen | h_10 hopen | h_16 hopen | h_17 hopen =>
    rw [hopen] at hstack
    exact put_fits (close_fits hstack.1) hstack.2
  -- A key is read, or a mark.
  case h_13 => exact ⟨hstack, fun _ h => nomatch h⟩
  case h_11 hopen | h_12 hopen | h_14 hopen | h_15 hopen =>
    rw [hopen] at hstack
    exact ⟨hstack, fun _ h => nomatch h⟩

theorem foldlM_fits {ts : List Token} (hts : ∀ t ∈ ts, t.Fits) {m m' : Machine} (hm : m.Fits)
    (h : ts.foldlM step m = some m') : m'.Fits := by
  induction ts generalizing m with
  | nil =>
    obtain rfl := Option.some.inj h
    exact hm
  | cons t ts ih =>
    obtain ⟨ht, hts⟩ := List.forall_mem_cons.1 hts
    rw [List.foldlM_cons] at h
    obtain ⟨middle, hstep, h⟩ := Option.bind_eq_some_iff.1 h
    exact ih hts (step_fits hm ht hstep) h

end Machine

theorem read?_fits {text : String} {v : Value} (h : read? text = some v) : v.Fits depthLimit := by
  obtain ⟨ts, hts, h⟩ := Option.bind_eq_some_iff.1 h
  obtain ⟨m, hm, h⟩ := Option.bind_eq_some_iff.1 h
  have hstart : Machine.start.Fits := ⟨trivial, fun _ h => nomatch h⟩
  exact (Machine.foldlM_fits (Token.scan?_fits hts) hstart hm).result v h

/-- A value with no broken part, whose keys are in ascending order. -/
def Value.Settled (v : Value) : Prop := v.settle? = some v

namespace Value

theorem settle?_object {members : List (String × Value)} {v : Value}
    (h : (object members).settle? = some v) :
    ∃ d, settleMembers? members = some d ∧ v = object d.entries := by
  rw [settle?] at h
  obtain ⟨d, hd, rfl⟩ := Option.map_eq_some_iff.1 h
  exact ⟨d, hd, rfl⟩

theorem settle?_array {items : List Value} {v : Value} (h : (array items).settle? = some v) :
    ∃ settled, settleItems? items = some settled ∧ v = array settled := by
  rw [settle?] at h
  obtain ⟨settled, hsettled, rfl⟩ := Option.map_eq_some_iff.1 h
  exact ⟨settled, hsettled, rfl⟩

theorem mem_settleItems? {items settled : List Value} (h : settleItems? items = some settled) :
    ∀ u ∈ settled, ∃ v ∈ items, v.settle? = some u := by
  induction items generalizing settled with
  | nil =>
    obtain rfl := Option.some.inj h
    exact List.forall_mem_nil _
  | cons v items ih =>
    rw [settleItems?] at h
    obtain ⟨u, hu, h⟩ := Option.bind_eq_some_iff.1 h
    obtain ⟨rest, hrest, h⟩ := Option.bind_eq_some_iff.1 h
    obtain rfl := Option.some.inj h
    refine List.forall_mem_cons.2 ⟨⟨v, List.mem_cons_self, hu⟩, fun w hw => ?_⟩
    obtain ⟨x, hx, hsettle⟩ := ih hrest w hw
    exact ⟨x, List.mem_cons_of_mem _ hx, hsettle⟩

theorem mem_settleMembers? {members : List (String × Value)} {d : Dictionary Value}
    (h : settleMembers? members = some d) :
    ∀ e ∈ d.entries, ∃ m ∈ members, m.2.settle? = some e.2 := by
  induction members generalizing d with
  | nil =>
    obtain rfl := Option.some.inj h
    exact List.forall_mem_nil _
  | cons m members ih =>
    obtain ⟨key, v⟩ := m
    rw [settleMembers?] at h
    obtain ⟨u, hu, h⟩ := Option.bind_eq_some_iff.1 h
    obtain ⟨rest, hrest, h⟩ := Option.bind_eq_some_iff.1 h
    obtain rfl := Option.some.inj h
    have hbelow : ∀ e ∈ rest.entries, ∃ m ∈ (key, v) :: members, m.2.settle? = some e.2 := by
      intro e he
      obtain ⟨m, hm, hsettle⟩ := ih hrest e he
      exact ⟨m, List.mem_cons_of_mem _ hm, hsettle⟩
    intro e he
    split at he
    · exact hbelow e he
    · rcases Dictionary.mem_insertEntry he with rfl | he
      · exact ⟨(key, v), List.mem_cons_self, hu⟩
      · exact hbelow e he

theorem settleItems?_settled {items : List Value} (h : ∀ v ∈ items, v.Settled) :
    settleItems? items = some items := by
  induction items with
  | nil => rfl
  | cons v items ih =>
    obtain ⟨hv, hitems⟩ := List.forall_mem_cons.1 h
    rw [settleItems?, ih hitems, show v.settle? = some v from hv]
    rfl

/-- Members that are settled and in order are left as they are. -/
theorem settleMembers?_entries {entries : List (String × Value)}
    (hascending : entries.Pairwise fun a b => a.1 < b.1)
    (hentries : ∀ e ∈ entries, e.2.Settled) :
    settleMembers? entries = some ⟨entries, hascending⟩ := by
  induction entries with
  | nil => rfl
  | cons e entries ih =>
    obtain ⟨key, v⟩ := e
    obtain ⟨hv, hentries⟩ := List.forall_mem_cons.1 hentries
    obtain ⟨hfirst, hrest⟩ := List.pairwise_cons.1 hascending
    have hfree : (⟨entries, hrest⟩ : Dictionary Value).get? key = none :=
      Dictionary.lookup_eq_none_of_lt hfirst
    have hfront : (⟨entries, hrest⟩ : Dictionary Value).insert key v =
        ⟨(key, v) :: entries, hascending⟩ := by
      unfold Dictionary.insert
      simp only [Dictionary.insertEntry_of_lt v hfirst]
    rw [settleMembers?, ih hrest hentries, show v.settle? = some v from hv, Option.bind_eq_bind,
      Option.bind_some, Option.bind_eq_bind, Option.bind_some, hfree, hfront]
    rfl

theorem settled_object {d : Dictionary Value} (h : ∀ e ∈ d.entries, e.2.Settled) :
    (object d.entries).Settled := by
  unfold Settled
  rw [settle?, settleMembers?_entries d.ascending h]
  rfl

/-- What is settled stays as it is. -/
theorem settled_of_settle? {v u : Value} (h : v.settle? = some u) : u.Settled := by
  cases v with
  | array items =>
    obtain ⟨settled, hsettled, rfl⟩ := settle?_array h
    have hitems : ∀ w ∈ settled, w.Settled := by
      intro w hw
      obtain ⟨x, hx, hsettle⟩ := mem_settleItems? hsettled w hw
      have := List.sizeOf_lt_of_mem hx
      exact settled_of_settle? hsettle
    unfold Settled
    rw [settle?, settleItems?_settled hitems]
    rfl
  | object members =>
    obtain ⟨d, hd, rfl⟩ := settle?_object h
    refine settled_object fun e he => ?_
    obtain ⟨m, hm, hsettle⟩ := mem_settleMembers? hd e he
    have := List.sizeOf_lt_of_mem hm
    have hsize : sizeOf m = 1 + sizeOf m.1 + sizeOf m.2 := rfl
    exact settled_of_settle? hsettle
  | broken => cases h
  | _ =>
    obtain rfl := Option.some.inj h
    rfl
termination_by sizeOf v
decreasing_by all_goals subst_vars; simp; omega

theorem settled_members {members : List (String × Value)} (h : (object members).Settled) :
    ∀ m ∈ members, m.2.Settled := by
  obtain ⟨d, hd, heq⟩ := settle?_object h
  obtain rfl := object.inj heq
  intro m hm
  obtain ⟨_, -, hsettle⟩ := mem_settleMembers? hd m hm
  exact settled_of_settle? hsettle

theorem fits_of_settle? {v u : Value} {room : Nat} (h : v.settle? = some u) (hv : v.Fits room) :
    u.Fits room := by
  cases v with
  | array items =>
    obtain ⟨settled, hsettled, rfl⟩ := settle?_array h
    refine ⟨hv.1, fitItems_iff.2 fun w hw => ?_⟩
    obtain ⟨x, hx, hsettle⟩ := mem_settleItems? hsettled w hw
    have := List.sizeOf_lt_of_mem hx
    exact fits_of_settle? hsettle (fitItems_iff.1 hv.2 x hx)
  | object members =>
    obtain ⟨d, hd, rfl⟩ := settle?_object h
    refine ⟨hv.1, fitMembers_iff.2 fun e he => ?_⟩
    obtain ⟨m, hm, hsettle⟩ := mem_settleMembers? hd e he
    have := List.sizeOf_lt_of_mem hm
    have hsize : sizeOf m = 1 + sizeOf m.1 + sizeOf m.2 := rfl
    exact fits_of_settle? hsettle (fitMembers_iff.1 hv.2 m hm)
  | broken => cases h
  | _ =>
    obtain rfl := Option.some.inj h
    exact hv
termination_by sizeOf v
decreasing_by all_goals subst_vars; simp; omega

end Value

end MarkupScene.Json
