import MarkupScene.Proofs.DiskWrites
import Mathlib.Data.List.Induction
import Mathlib.Data.List.TakeWhile

/-!
# Ways down and up

A path can be followed down from a base, one name after the other, and up from its parent to the
next one. Each name on the way down is a component more, and each parent is a component less. The
main statements say where such paths lead.
-/
namespace MarkupScene.Path

/-- The path to a place below a base, by the names on the way down. -/
def below (base : Path) (names : List String) : Path := names.foldl (fun p n => p.join ⟨n⟩) base

@[simp] theorem below_nil (base : Path) : base.below [] = base := rfl

@[simp] theorem below_concat (base : Path) (names : List String) (name : String) :
    base.below (names ++ [name]) = (base.below names).join ⟨name⟩ := by
  simp [below]

theorem locate_below (base : Path) (here : Location) {names : List String}
    (h : ∀ n ∈ names, ProperName n) :
    (base.below names).locate here = base.locate here ++ names := by
  induction names using List.reverseRec with
  | nil => simp
  | append_singleton names n ih =>
    have hn : ProperName n := h n (by simp)
    have hnames : ∀ m ∈ names, ProperName m := fun m hm => h m (by simp [hm])
    rw [below_concat, locate_join_name _ _ hn, ih hnames, List.append_assoc]

theorem exists_text_join (base : Path) {name : String} (h : ProperName name) :
    ∃ gap, (base.join ⟨name⟩).text = base.text ++ (gap ++ name) := by
  rw [join_eq base (isAbsolute_name h), slashed]
  split
  · exact ⟨"", by simp⟩
  · exact ⟨"/", by simp [String.append_assoc]⟩

theorem length_le_size_below (base : Path) {names : List String} (h : ∀ n ∈ names, ProperName n) :
    names.length ≤ (base.below names).text.utf8ByteSize := by
  induction names using List.reverseRec with
  | nil => simp
  | append_singleton names n ih =>
    have hn : ProperName n := h n (by simp)
    have hlength := ih fun m hm => h m (by simp [hm])
    have hsize : n.utf8ByteSize ≠ 0 := by
      rw [Ne, String.utf8ByteSize_eq_zero_iff]
      rintro rfl
      exact hn.1 rfl
    obtain ⟨gap, hjoin⟩ := exists_text_join (base.below names) hn
    rw [below_concat, hjoin, String.utf8ByteSize_append, String.utf8ByteSize_append,
      List.length_append, List.length_singleton]
    omega

theorem below_ne_empty {base : Path} (hbase : base.text ≠ "") {names : List String}
    (h : ∀ n ∈ names, ProperName n) : (base.below names).text ≠ "" := by
  induction names using List.reverseRec with
  | nil => exact hbase
  | append_singleton names n ih =>
    obtain ⟨gap, hjoin⟩ := exists_text_join (base.below names) (h n (by simp))
    rw [below_concat, hjoin, Ne, String.append_eq_empty_iff, not_and_or]
    exact .inl (ih fun m hm => h m (by simp [hm]))

theorem below_injective (base : Path) {names others : List String}
    (h : ∀ n ∈ names, ProperName n) (hothers : ∀ n ∈ others, ProperName n)
    (hsame : base.below names = base.below others) : names = others := by
  have hlocate := locate_below base [] h
  rw [hsame, locate_below base [] hothers] at hlocate
  exact (List.append_cancel_left hlocate).symm

/-- The last name of a path is its file name. -/
theorem fileName?_join_name (base : Path) {name : String} (h : ProperName name) :
    (base.join ⟨name⟩).fileName? = some name := by
  have hcomponent : (Piece.inner name.toList).component? = some (.name name) :=
    component_inner_name h
  have hpieces : ∃ front, (base.join ⟨name⟩).pieces = front ++ [Piece.inner name.toList] := by
    have hinner : innerPieces name.toList = [Piece.inner name.toList] := by
      rw [innerPieces, Text.pieces_of_not_mem h.2.2.2]
      rfl
    by_cases hbase : base.text = ""
    · have hjoin : base.join ⟨name⟩ = ⟨name⟩ := by simp [join, isAbsolute_name h, hbase]
      have hhead : name.toList.head? ≠ some '/' := of_decide_eq_false (isAbsolute_name h)
      refine ⟨[], ?_⟩
      rw [hjoin, Path.pieces]
      unfold piecesOf
      split
      · next heq => exact absurd (by simp [heq]) hhead
      · rw [Text.pieces_of_not_mem h.2.2.2]
        simp [Piece.leading, h.2.1]
    · obtain ⟨front, hjoin, -⟩ := exists_join hbase (isAbsolute_name h)
      cases front with
      | nil => exact ⟨[], by rw [Path.pieces, hjoin]; exact hinner⟩
      | cons c front =>
        refine ⟨piecesOf (c :: front), ?_⟩
        rw [Path.pieces, hjoin, piecesOf_append_slash _ (by simp)]
        rw [hinner]
  obtain ⟨front, hfront⟩ := hpieces
  have hlast : (base.join ⟨name⟩).piecesFromEnd = Piece.inner name.toList :: front.reverse := by
    rw [piecesFromEnd, hfront, List.reverse_append]
    simp [Piece.isSilent, hcomponent]
  simp [fileName?, hlast, hcomponent]

theorem chars_leading (cs : List Char) : (Piece.leading cs).chars = cs := by
  unfold Piece.leading
  split <;> rfl

theorem components_ofPieces_absolute {p : Path} (habsolute : p.isAbsolute = true) (k : Nat) :
    (ofPieces true (p.pieces.take k)).components =
      rooted true ((p.pieces.take k).filterMap (·.component?)) := by
  obtain ⟨t, ht⟩ := List.head?_eq_some_iff.1 (of_decide_eq_true habsolute)
  have hpieces : p.pieces = (Text.pieces '/' t).map .inner := by
    rw [Path.pieces, ht]
    rfl
  have hno : ∀ s ∈ (Text.pieces '/' t).take k, '/' ∉ s := fun s hs =>
    Text.not_mem_of_mem_pieces (List.mem_of_mem_take hs)
  have hchars : (((Text.pieces '/' t).take k).map Piece.inner).map (·.chars) =
      (Text.pieces '/' t).take k := by
    rw [List.map_map]
    exact List.map_id _
  have hcut : ((Text.pieces '/' (['/'].intercalate ((Text.pieces '/' t).take k))).map
      Piece.inner).filterMap (·.component?) =
        (((Text.pieces '/' t).take k).map Piece.inner).filterMap (·.component?) := by
    by_cases hnil : (Text.pieces '/' t).take k = []
    · rw [hnil]
      rfl
    · rw [Text.pieces_intercalate hnil hno]
  rw [hpieces, ← List.map_take, ofPieces, hchars]
  simp only [components, isAbsolute, steps, Path.pieces, ofChars, String.toList_ofList,
    piecesOf, if_true, List.singleton_append, List.head?_cons, decide_true, hcut]
  rfl

/-- The first pieces of a text that does not start at a separator do not start at one either. -/
theorem head?_intercalate_take {text first : List Char} {others : List (List Char)}
    (hhead : text.head? ≠ some '/') (hcut : Text.pieces '/' text = first :: others) (k : Nat) :
    (['/'].intercalate (first :: others.take k)).head? ≠ some '/' := by
  have hjoin := Text.intercalate_pieces '/' text
  rw [hcut] at hjoin
  cases hfirst : first with
  | nil =>
    cases others with
    | nil => simp [List.intercalate]
    | cons other others =>
      rw [hfirst] at hjoin
      exact absurd (by rw [← hjoin]; rfl) hhead
  | cons c cs =>
    have hc : c ≠ '/' := by
      rintro rfl
      have hmem : first ∈ Text.pieces '/' text := hcut ▸ List.mem_cons_self
      exact Text.not_mem_of_mem_pieces hmem (by rw [hfirst]; exact List.mem_cons_self)
    cases others.take k <;> simp [List.intercalate, hc]

theorem components_ofPieces_relative {p : Path} (hrelative : p.isAbsolute = false) (k : Nat) :
    (ofPieces false (p.pieces.take k)).components =
      rooted false ((p.pieces.take k).filterMap (·.component?)) := by
  have hhead : p.text.toList.head? ≠ some '/' := of_decide_eq_false hrelative
  obtain ⟨first, others, hcut⟩ :=
    List.exists_cons_of_ne_nil (Text.pieces_ne_nil '/' p.text.toList)
  have hpieces : p.pieces = .leading first :: others.map .inner := piecesOf_relative hhead hcut
  cases k with
  | zero => rfl
  | succ k =>
    have hno : ∀ s ∈ first :: others.take k, '/' ∉ s := by
      intro s hs
      refine Text.not_mem_of_mem_pieces (s := p.text.toList) ?_
      rw [hcut]
      exact List.mem_of_mem_take (i := k + 1) hs
    have hchars : ((Piece.leading first :: (others.take k).map Piece.inner).map (·.chars)) =
        first :: others.take k := by
      rw [List.map_cons, List.map_map, chars_leading]
      exact congrArg _ (List.map_id _)
    have hfirst := head?_intercalate_take hhead hcut k
    have hagain := Text.pieces_intercalate (List.cons_ne_nil _ _) hno
    rw [hpieces, List.take_succ_cons, ← List.map_take, ofPieces, hchars,
      if_neg Bool.false_ne_true, List.nil_append]
    generalize ['/'].intercalate (first :: others.take k) = text at hfirst hagain
    have hjoined : (ofChars text).isAbsolute = false := by
      simpa [isAbsolute, ofChars] using hfirst
    rw [components, hjoined, steps, Path.pieces, ofChars, String.toList_ofList,
      piecesOf_relative hfirst hagain]
    rfl

theorem components_ofPieces_take (p : Path) (k : Nat) :
    (ofPieces p.isAbsolute (p.pieces.take k)).components =
      rooted p.isAbsolute ((p.pieces.take k).filterMap (·.component?)) := by
  cases habsolute : p.isAbsolute with
  | true => exact components_ofPieces_absolute habsolute k
  | false => exact components_ofPieces_relative habsolute k

/-- The last piece that tells a component, with silent pieces before and after it. -/
theorem exists_last_loud {ps : List Piece} {c : Piece} {rest : List Piece}
    (h : ps.reverse.dropWhile (·.isSilent) = c :: rest) :
    ∃ between silent d, ps = (rest.dropWhile (·.isSilent)).reverse ++ (between ++ c :: silent) ∧
      between.filterMap (·.component?) = [] ∧ silent.filterMap (·.component?) = [] ∧
        c.component? = some d := by
  have hquiet : ∀ qs : List Piece, (∀ q ∈ qs, q.isSilent = true) →
      qs.filterMap (·.component?) = [] := by
    intro qs hqs
    rw [List.filterMap_eq_nil_iff]
    exact fun q hq => Option.isNone_iff_eq_none.1 (hqs q hq)
  have hloud : c.isSilent ≠ true := by
    have hhead := List.head?_dropWhile_not (·.isSilent) ps.reverse
    rw [h] at hhead
    simpa using hhead
  obtain ⟨d, hd⟩ : ∃ d, c.component? = some d := by
    refine Option.ne_none_iff_exists'.1 fun hnone => hloud ?_
    rw [Piece.isSilent, hnone]
    rfl
  refine ⟨(rest.takeWhile (·.isSilent)).reverse, (ps.reverse.takeWhile (·.isSilent)).reverse, d,
    ?_, ?_, ?_, hd⟩
  · have hsplit := List.takeWhile_append_dropWhile (p := (·.isSilent)) (l := ps.reverse)
    rw [h, ← List.takeWhile_append_dropWhile (p := (·.isSilent)) (l := rest)] at hsplit
    have hagain := congrArg List.reverse hsplit
    simp only [List.reverse_append, List.reverse_cons, List.reverse_reverse, List.append_assoc,
      List.singleton_append] at hagain
    exact hagain.symm
  · exact hquiet _ fun q hq => List.mem_takeWhile_imp (List.mem_reverse.1 hq)
  · exact hquiet _ fun q hq => List.mem_takeWhile_imp (List.mem_reverse.1 hq)

theorem components_parent? {p q : Path} (h : p.parent? = some q) :
    ∃ c, c ≠ .root ∧ p.components = q.components ++ [c] := by
  unfold parent? at h
  split at h
  · cases h
  · next c rest hend =>
    obtain rfl := Option.some.inj h
    obtain ⟨between, silent, d, hpieces, hbetween, hsilent, hd⟩ := exists_last_loud hend
    have hparent := components_ofPieces_take p (rest.dropWhile (·.isSilent)).reverse.length
    rw [hpieces, List.take_left] at hparent
    have hstep : d ∈ p.steps := List.mem_filterMap.2 ⟨c, by simp [hpieces], hd⟩
    refine ⟨d, (mem_steps hstep).1, ?_⟩
    rw [hparent, components, steps, hpieces, List.filterMap_append, List.filterMap_append, hbetween,
      List.filterMap_cons, hd, hsilent]
    cases p.isAbsolute <;> simp [rooted]

theorem locate_parent? {p q : Path} (h : p.parent? = some q) (hup : .up ∉ p.components)
    (here : Location) : .up ∉ q.components ∧ q.locate here <+: p.locate here := by
  obtain ⟨c, hroot, hc⟩ := components_parent? h
  have hlocate : p.locate here = enter (q.locate here) c := by
    rw [locate, locate, hc, List.foldl_append]
    rfl
  rw [hc, List.mem_append, not_or, List.mem_singleton] at hup
  refine ⟨hup.1, ?_⟩
  rw [hlocate]
  cases c with
  | root => exact absurd rfl hroot
  | here => exact List.prefix_refl _
  | up => exact absurd rfl hup.2
  | name n => exact List.prefix_append _ _

end MarkupScene.Path
