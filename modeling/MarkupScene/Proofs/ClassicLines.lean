import MarkupScene.Asset.Font
import MarkupScene.Proofs.Containment
import MarkupScene.Proofs.PrintedValues

/-!
# Lines of classic font descriptions

Of a classic description each line says something on its own: the words of a line do not reach over
its end, and the last line that opens with the name of a part decides about that part. The main
statements are that a text is read as what its lines say, one after another, and that the lines of a
JSON document say nothing about a font.
-/
namespace MarkupScene

namespace Text

theorem wordsFrom_append_blank {c : Char} (hc : isBlank c = true) (s rest run : List Char) :
    wordsFrom run (s ++ c :: rest) = wordsFrom run s ++ words rest := by
  induction s generalizing run with
  | nil =>
    cases run with
    | nil => simp [wordsFrom, words, hc]
    | cons d run => simp [wordsFrom, words, hc]
  | cons d s ih =>
    simp only [List.cons_append, wordsFrom]
    split
    · split
      · exact ih []
      · rw [ih [], List.cons_append]
    · exact ih (d :: run)

theorem words_append_blank {c : Char} (hc : isBlank c = true) (s rest : List Char) :
    words (s ++ c :: rest) = words s ++ words rest :=
  wordsFrom_append_blank hc s rest []

theorem solid_of_all {s : List Char} (h : (s.all fun c => !isBlank c) = true) :
    ∀ c ∈ s, isBlank c = false := by
  simpa using h

theorem wordsFrom_of_solid {s : List Char} (hs : ∀ c ∈ s, isBlank c = false) {run : List Char}
    (hrun : run ≠ []) : wordsFrom run s = [run.reverse ++ s] := by
  induction s generalizing run with
  | nil => simp [wordsFrom, hrun]
  | cons c s ih =>
    have hc := hs c List.mem_cons_self
    have hrest := ih (fun d hd => hs d (List.mem_cons_of_mem _ hd)) (List.cons_ne_nil c run)
    simp [wordsFrom, hc, hrest]

theorem words_of_solid {s : List Char} (hs : ∀ c ∈ s, isBlank c = false) (hne : s ≠ []) :
    words s = [s] := by
  obtain ⟨c, s, rfl⟩ := List.exists_cons_of_ne_nil hne
  have hc := hs c List.mem_cons_self
  have hrest := wordsFrom_of_solid (fun d hd => hs d (List.mem_cons_of_mem _ hd))
    (List.cons_ne_nil c [])
  simpa [words, wordsFrom, hc] using hrest

theorem wordsFrom_solid_append {front : List Char} (hfront : ∀ c ∈ front, isBlank c = false)
    (run s : List Char) : wordsFrom run (front ++ s) = wordsFrom (front.reverse ++ run) s := by
  induction front generalizing run with
  | nil => rfl
  | cons c front ih =>
    have hc := hfront c List.mem_cons_self
    have hrest := ih (fun d hd => hfront d (List.mem_cons_of_mem _ hd)) (c :: run)
    simp [wordsFrom, hc, hrest]

theorem not_mem_wordsFrom {c : Char} {s run : List Char} (hs : c ∉ s) (hrun : c ∉ run) :
    ∀ word ∈ wordsFrom run s, c ∉ word := by
  induction s generalizing run with
  | nil =>
    unfold wordsFrom
    split
    · simp
    · simpa using hrun
  | cons d s ih =>
    simp only [List.mem_cons, not_or] at hs
    have hrest := ih hs.2 List.not_mem_nil
    unfold wordsFrom
    split
    · split
      · exact hrest
      · exact List.forall_mem_cons.2 ⟨by simpa using hrun, hrest⟩
    · exact ih hs.2 (by simp [hs.1, hrun])

theorem exists_wordsFrom_of_not_mem {c : Char} {s : List Char} (hs : c ∉ s) {run : List Char}
    (hrun : run ≠ []) : ∃ w others, wordsFrom run s = (run.reverse ++ w) :: others ∧
      ∀ word ∈ others, c ∉ word := by
  induction s generalizing run with
  | nil => exact ⟨[], [], by simp [wordsFrom, hrun], by simp⟩
  | cons d s ih =>
    simp only [List.mem_cons, not_or] at hs
    rw [wordsFrom]
    split
    · exact ⟨[], wordsFrom [] s, by simp [hrun], not_mem_wordsFrom hs.2 List.not_mem_nil⟩
    · obtain ⟨w, others, hwords, hothers⟩ := ih hs.2 (List.cons_ne_nil d run)
      exact ⟨d :: w, others, by simp [hwords], hothers⟩

theorem head?_wordsFrom (s : List Char) {run : List Char} (hrun : run ≠ []) :
    ∃ w, (wordsFrom run s).head? = some (run.reverse ++ w) := by
  induction s generalizing run with
  | nil => exact ⟨[], by simp [wordsFrom, hrun]⟩
  | cons c s ih =>
    rw [wordsFrom]
    split
    · exact ⟨[], by simp [hrun]⟩
    · obtain ⟨w, hw⟩ := ih (List.cons_ne_nil c run)
      refine ⟨c :: w, ?_⟩
      simpa using hw

theorem head?_words {c : Char} (hc : isBlank c = false) (s : List Char) :
    ∃ w, (words (c :: s)).head? = some (c :: w) := by
  simpa [words, wordsFrom, hc] using head?_wordsFrom s (List.cons_ne_nil c [])

theorem words_dropReturn (line : List Char) : words (dropReturn line) = words line := by
  unfold dropReturn
  split
  · next rest hline =>
    have hsplit : line = rest.reverse ++ ['\r'] := by
      rw [← List.reverse_reverse line, hline, List.reverse_cons]
    rw [hsplit, words_append_blank (by decide)]
    simp [words, wordsFrom]
  · rfl

theorem pieces_intercalate_flatMap (sep : Char) {parts : List (List Char)} (hne : parts ≠ []) :
    pieces sep ([sep].intercalate parts) = parts.flatMap (pieces sep) := by
  induction parts with
  | nil => exact absurd rfl hne
  | cons first parts ih =>
    cases parts with
    | nil => simp
    | cons second parts =>
      rw [List.intercalate_cons_cons, List.append_assoc, List.singleton_append, pieces_append,
        ih (List.cons_ne_nil _ _)]
      rfl

theorem pieces_of_not_mem_append {sep : Char} {front : List Char} (h : sep ∉ front)
    (s : List Char) : ∃ first others, pieces sep s = first :: others ∧
      pieces sep (front ++ s) = (front ++ first) :: others := by
  obtain ⟨first, others, hs⟩ := List.exists_cons_of_ne_nil (pieces_ne_nil sep s)
  refine ⟨first, others, hs, ?_⟩
  induction front with
  | nil => exact hs
  | cons c front ih =>
    simp only [List.mem_cons, not_or] at h
    rw [List.cons_append, pieces, if_neg (Ne.symm h.1), ih h.2]
    rfl

end Text

namespace BitmapFont

open Numeric Text

/-- Whether the first word of a line is a tag. -/
def Opens (tag : String) (line : List Char) : Prop := (words line).head? = some tag.toList

/-- What a line says about a part: nothing when it opens otherwise, and maybe no number. -/
def toldBy (tag name : String) (line : List Char) : Option (Option Single) :=
  match words line with
  | first :: rest => if first = tag.toList then some (valueOf? name rest) else none
  | [] => none

/-- What the last of the lines that open with a tag says. -/
def told (tag name : String) : List (List Char) → Option (Option Single)
  | [] => none
  | line :: rest => (told tag name rest).or (toldBy tag name line)

theorem toldBy_eq_none_iff {tag name : String} {line : List Char} :
    toldBy tag name line = none ↔ ¬Opens tag line := by
  unfold toldBy Opens
  cases words line with
  | nil => simp
  | cons first rest => simp

theorem told_append (tag name : String) (front rest : List (List Char)) :
    told tag name (front ++ rest) = (told tag name rest).or (told tag name front) := by
  induction front with
  | nil => simp [told]
  | cons line front ih => simp [told, ih, Option.or_assoc]

theorem told_eq_none_iff {tag name : String} {lines : List (List Char)} :
    told tag name lines = none ↔ ∀ line ∈ lines, ¬Opens tag line := by
  induction lines with
  | nil => simp [told]
  | cons line lines ih =>
    simp only [told, Option.or_eq_none_iff, ih, toldBy_eq_none_iff, List.forall_mem_cons]
    exact and_comm

namespace ClassicReading

theorem line_eq (r : ClassicReading) (line : List Char) :
    r.line line = { size := (toldBy "info" "size" line).getD r.size
                    lineHeight := (toldBy "common" "lineHeight" line).getD r.lineHeight } := by
  have hother : "info".toList ≠ "common".toList := by decide
  unfold ClassicReading.line toldBy
  cases words line with
  | nil => rfl
  | cons first rest =>
    dsimp only
    by_cases hinfo : first = "info".toList
    · subst hinfo
      rw [if_pos rfl, if_pos rfl, if_neg hother]
      rfl
    · rw [if_neg hinfo, if_neg hinfo]
      by_cases hcommon : first = "common".toList
      · rw [if_pos hcommon, if_pos hcommon]
        rfl
      · rw [if_neg hcommon, if_neg hcommon]
        rfl

theorem foldl_line (lines : List (List Char)) (r : ClassicReading) :
    lines.foldl ClassicReading.line r =
      { size := (told "info" "size" lines).getD r.size
        lineHeight := (told "common" "lineHeight" lines).getD r.lineHeight } := by
  induction lines generalizing r with
  | nil => rfl
  | cons line lines ih =>
    rw [List.foldl_cons, ih, line_eq]
    simp only [told]
    congr 1
    · cases told "info" "size" lines <;> rfl
    · cases told "common" "lineHeight" lines <;> rfl

theorem foldl_lines (s : List Char) (r : ClassicReading) :
    (lines s).foldl ClassicReading.line r = (pieces '\n' s).foldl ClassicReading.line r := by
  have hreturn : ∀ (r : ClassicReading) (line : List Char), r.line (dropReturn line) = r.line line := by
    intro r line
    unfold ClassicReading.line
    rw [words_dropReturn]
  obtain ⟨front, last, hpieces⟩ : ∃ front last, pieces '\n' s = front ++ [last] :=
    ⟨_, _, (List.dropLast_append_getLast (pieces_ne_nil '\n' s)).symm⟩
  have hlast : (if last.isEmpty then [] else [last]).foldl ClassicReading.line
      (front.foldl ClassicReading.line r) = (front.foldl ClassicReading.line r).line last := by
    cases last with
    | nil => rfl
    | cons c last => rfl
  unfold lines
  simp only [hpieces, List.dropLast_concat, List.getLast?_concat, Option.getD_some,
    List.foldl_append, List.foldl_map, hreturn, List.foldl_cons, List.foldl_nil, hlast]

end ClassicReading

theorem classicMetrics?_eq (text : String) :
    classicMetrics? text =
      ((told "info" "size" (pieces '\n' text.toList)).getD none).map fun size =>
        { fontSize := size
          lineHeight :=
            ((told "common" "lineHeight" (pieces '\n' text.toList)).getD none).getD size } := by
  unfold classicMetrics?
  rw [ClassicReading.foldl_lines, ClassicReading.foldl_line]

end BitmapFont

namespace Json

open Text BitmapFont

namespace Token

theorem not_mem_of_naturalFrom {base acc n : Nat} {s : List Char}
    (h : naturalFrom base acc s = some n) : '\n' ∉ s := by
  induction s generalizing acc with
  | nil => simp
  | cons c s ih =>
    obtain ⟨v, hv, hrest⟩ := Option.bind_eq_some_iff.1 h
    have hc : c ≠ '\n' := by
      rintro rfl
      simp [digit?] at hv
    simp [hc.symm, ih hrest]

/-- A string ends on its line. -/
theorem exists_of_marks? {read marks : List Mark} {s rest : List Char}
    (h : marks? read s = some (marks, rest)) : ∃ front, s = front ++ rest ∧ '\n' ∉ front := by
  fun_induction marks? read s with
  | case1 read after =>
    obtain ⟨-, rfl⟩ := Prod.mk.inj (Option.some.inj h)
    exact ⟨['"'], rfl, by decide⟩
  | case2 read a b c d after n hunit ih =>
    obtain ⟨front, rfl, hfront⟩ := ih h
    have hdigits := not_mem_of_naturalFrom hunit
    refine ⟨'\\' :: 'u' :: a :: b :: c :: d :: front, rfl, ?_⟩
    simp only [List.mem_cons, List.not_mem_nil, or_false, not_or] at hdigits ⊢
    exact ⟨by decide, by decide, hdigits.1, hdigits.2.1, hdigits.2.2.1, hdigits.2.2.2, hfront⟩
  | case4 read c after _ e hescape ih =>
    obtain ⟨front, rfl, hfront⟩ := ih h
    have hc : c ≠ '\n' := by
      rintro rfl
      cases hescape
    refine ⟨'\\' :: c :: front, rfl, ?_⟩
    simp [hc.symm, hfront]
  | case7 read c after _ _ _ hcontrol ih =>
    obtain ⟨front, rfl, hfront⟩ := ih h
    have hc : c ≠ '\n' := by
      rintro rfl
      exact hcontrol (by decide)
    refine ⟨c :: front, rfl, ?_⟩
    simp [hc.symm, hfront]
  | case3 | case5 | case6 | case8 => cases h

theorem unopened_of_token {c : Char} {front rest : List Char} (hblank : isBlank c = false)
    (hc : c ≠ 'i') (hline : '\n' ∉ c :: front)
    (hrest : ∀ line ∈ pieces '\n' rest, ¬Opens "info" line) :
    ∀ line ∈ pieces '\n' (c :: (front ++ rest)), ¬Opens "info" line := by
  obtain ⟨first, others, hpieces, happend⟩ := pieces_of_not_mem_append hline rest
  rw [← List.cons_append, happend]
  rw [hpieces] at hrest
  refine List.forall_mem_cons.2 ⟨fun hopens => ?_, fun line hmem =>
    hrest line (List.mem_cons_of_mem _ hmem)⟩
  obtain ⟨w, hw⟩ := head?_words hblank (front ++ first)
  have hword := hw.symm.trans hopens
  exact hc (List.cons.inj (Option.some.inj hword)).1

/-- A space before the rest of a text opens no line. -/
theorem unopened_of_space {c : Char} {rest : List Char} (hc : isSpace c = true)
    (hrest : ∀ line ∈ pieces '\n' rest, ¬Opens "info" line) :
    ∀ line ∈ pieces '\n' (c :: rest), ¬Opens "info" line := by
  by_cases hline : c = '\n'
  · rw [pieces, if_pos hline]
    refine List.forall_mem_cons.2 ⟨fun hopens => ?_, hrest⟩
    cases hopens
  · have hfront : '\n' ∉ [c] := by simpa using Ne.symm hline
    obtain ⟨first, others, hpieces, happend⟩ := pieces_of_not_mem_append hfront rest
    have hblank : isBlank c = true := by
      simp only [isSpace, Bool.or_eq_true, decide_eq_true_eq] at hc
      rcases hc with ((rfl | rfl) | rfl) | rfl <;> decide
    have hwords : words (c :: first) = words first := words_append_blank hblank [] first
    rw [← List.singleton_append, happend]
    rw [hpieces] at hrest
    refine List.forall_mem_cons.2 ⟨fun hopens => ?_, fun line hmem =>
      hrest line (List.mem_cons_of_mem _ hmem)⟩
    refine hrest first List.mem_cons_self ?_
    rw [Opens, ← hwords]
    exact hopens

theorem isBlank_of_visible {c : Char} (hlow : 0x21 ≤ c.toNat) (hhigh : c.toNat ≤ 0x7E) :
    isBlank c = false := by
  simp only [isBlank, blankRanges, List.any_cons, List.any_nil]
  simp
  omega

theorem visible_of_isNumberChar {c : Char} (h : isNumberChar c = true) :
    0x21 ≤ c.toNat ∧ c.toNat ≤ 0x7E ∧ c ≠ 'i' := by
  simp only [isNumberChar, Bool.or_eq_true, decide_eq_true_eq] at h
  rcases h with ((((h | rfl) | rfl) | rfl) | rfl) | rfl
  · rw [Char.isDigit_iff_toNat] at h
    refine ⟨le_trans (by decide) h.1, le_trans h.2 (by decide), ?_⟩
    rintro rfl
    exact absurd h (by decide)
  all_goals decide

theorem visible_of_isWordChar {c : Char} (h : isWordChar c = true) :
    0x21 ≤ c.toNat ∧ c.toNat ≤ 0x7E := by
  simp only [isWordChar, Bool.and_eq_true, decide_eq_true_eq, Char.le_def, UInt32.le_iff_toNat_le] at h
  have hlow : 'a'.val.toNat ≤ c.toNat := h.1
  have hhigh : c.toNat ≤ 'z'.val.toNat := h.2
  exact ⟨le_trans (by decide) hlow, le_trans hhigh (by decide)⟩

/-- Nothing that can be scanned has a line about a font. -/
theorem unopened_of_scan? {s : List Char} {ts : List Token} (h : scan? s = some ts) :
    ∀ line ∈ pieces '\n' s, ¬Opens "info" line := by
  have hrun : ∀ {p : Char → Bool} (rest : List Char), p '\n' = false →
      '\n' ∉ rest.takeWhile p := by
    intro p rest hp hmem
    have hkept := List.all_eq_true.1 List.all_takeWhile _ hmem
    rw [hp] at hkept
    cases hkept
  -- No token starts with the first letter of the word or holds an end of line.
  fun_induction scan? s generalizing ts with
  | case1 =>
    refine List.forall_mem_singleton.2 fun hopens => ?_
    cases hopens
  | case2 c rest hspace ih => exact unopened_of_space hspace (ih h)
  | case3 rest marks after hmarks _ _ ih =>
    obtain ⟨us, hus, -⟩ := Option.map_eq_some_iff.1 h
    obtain ⟨front, rfl, hfront⟩ := exists_of_marks? hmarks
    refine unopened_of_token (by decide) (by decide) ?_ (ih hus)
    simp [hfront]
  | case5 c rest hspace _ hc v hv _ ih =>
    obtain ⟨us, hus, -⟩ := Option.map_eq_some_iff.1 h
    obtain ⟨hlow, hhigh, hi⟩ := visible_of_isNumberChar hc
    have hline : c ≠ '\n' := by
      rintro rfl
      exact hspace rfl
    rw [← List.takeWhile_append_dropWhile (p := isNumberChar) (l := rest)]
    refine unopened_of_token (isBlank_of_visible hlow hhigh) hi ?_ (ih hus)
    simp [hline.symm, hrun rest (p := isNumberChar) rfl]
  | case7 c rest hspace _ _ hc v hv _ ih =>
    obtain ⟨us, hus, -⟩ := Option.map_eq_some_iff.1 h
    obtain ⟨hlow, hhigh⟩ := visible_of_isWordChar hc
    have hline : c ≠ '\n' := by
      rintro rfl
      exact hspace rfl
    have hi : c ≠ 'i' := by
      rintro rfl
      simp [word?] at hv
    rw [← List.takeWhile_append_dropWhile (p := isWordChar) (l := rest)]
    refine unopened_of_token (isBlank_of_visible hlow hhigh) hi ?_ (ih hus)
    simp [hline.symm, hrun rest (p := isWordChar) rfl]
  | case9 c rest _ _ _ _ t ht ih =>
    obtain ⟨us, hus, -⟩ := Option.map_eq_some_iff.1 h
    have hmark : isBlank c = false ∧ c ≠ 'i' ∧ '\n' ∉ [c] := by
      unfold mark? at ht
      split at ht <;> first | decide | cases ht
    obtain ⟨hblank, hi, hline⟩ := hmark
    exact unopened_of_token hblank hi hline (ih hus)
  | case4 | case6 | case8 | case10 => cases h

end Token

theorem classicMetrics?_of_read? {text : String} {v : Value} (h : read? text = some v) :
    classicMetrics? text = none := by
  obtain ⟨ts, hts, -⟩ := Option.bind_eq_some_iff.1 h
  rw [classicMetrics?_eq, told_eq_none_iff.2 (Token.unopened_of_scan? hts)]
  rfl

end Json

end MarkupScene
