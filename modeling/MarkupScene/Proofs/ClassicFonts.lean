import MarkupScene.Proofs.ClassicLines

/-!
# Classic font descriptions

The classic description of a font puts the face and the name of the texture between quotation marks
as they are, and its reader does not look at these marks. The main statements say which faces and
textures leave every font its metrics when its description is read, and that with any others some
font is read with metrics that it does not have.
-/
namespace MarkupScene

namespace Numeric

open Text

theorem Decimal.parse?_toDigits (n : Nat) :
    Decimal.parse? (Nat.toDigits 10 n) = some ⟨false, n, 0⟩ := by
  have htake := takeDigits_digits (Json.isDigit_toDigits n)
  have hsign : Decimal.scanSign (Nat.toDigits 10 n) = (false, Nat.toDigits 10 n) := by
    have hdigits := Json.isDigit_toDigits n
    unfold Decimal.scanSign
    split
    · next rest heq => exact absurd (hdigits '-' (by rw [heq]; exact List.mem_cons_self)) (by decide)
    · next rest heq => exact absurd (hdigits '+' (by rw [heq]; exact List.mem_cons_self)) (by decide)
    · rfl
  simp [Decimal.parse?, Decimal.scan?, hsign, htake, Decimal.scanFraction, Decimal.scanExponent,
    Json.decimalValue_toDigits, Nat.toDigits_ne_nil]

theorem Decimal.toFloating_nat {n : Nat} (hn : n < 2 ^ 31) :
    (Decimal.toFloating ⟨false, n, 0⟩ : Single) = .ofNat n := by
  rcases Nat.eq_zero_or_pos n with rfl | hpos
  · decide +kernel
  · have hcount : Decimal.digitCount n ≤ 10 := by
      by_contra hlong
      have hpow : 10 ^ 10 ≤ 10 ^ (Decimal.digitCount n - 1) :=
        Nat.pow_le_pow_right (by decide) (by omega)
      have hle := Digits.pow_digitCount_le hpos
      omega
    have hreach : Decimal.reach .single = 256 := by decide
    have hinside : ¬(n = 0 ∨ (Decimal.digitCount n : Int) + 0 < -(Decimal.reach .single : Int)) := by
      omega
    have hfinite : ¬(Decimal.reach .single : Int) < (Decimal.digitCount n : Int) + 0 := by
      omega
    unfold Decimal.toFloating
    dsimp only
    rw [if_neg hinside, if_neg hfinite]
    change (Floating.ofFraction false (n * Nat.pow 10 0) 1 : Single) = .ofNat n
    rw [show n * Nat.pow 10 0 = n from Nat.mul_one n]
    rfl

theorem parse?_toString {i : Int} (hpos : 0 ≤ i) (hi : i < 2 ^ 31) :
    (Floating.parse? (toString i).toList : Option Single) = some (.ofInt i) := by
  obtain ⟨n, rfl⟩ := Int.eq_ofNat_of_zero_le hpos
  rw [show toString (n : Int) = toString n from rfl, Json.toList_toString]
  unfold Floating.parse?
  rw [Decimal.parse?_toDigits, Option.map_some, Decimal.toFloating_nat (by omega)]
  have hsign : ¬(n : Int) < 0 := by omega
  simp [Floating.ofInt, Floating.ofNat, hsign]

end Numeric

namespace BitmapFont

open Json Numeric Text

theorem unquote_of_not_mem {value : List Char} (h : '"' ∉ value) : unquote value = value := by
  have hdrop : ∀ {s : List Char}, '"' ∉ s → s.dropWhile (· = '"') = s := by
    intro s hs
    cases s with
    | nil => rfl
    | cons c s =>
      simp only [List.mem_cons, not_or] at hs
      simp [Ne.symm hs.1]
  rw [unquote, hdrop h, hdrop (by simpa using h), List.reverse_reverse]

def namedNumber (name : String) (n : Int) : List Char := name.toList ++ '=' :: (toString n).toList

theorem isDigit_toString {n : Int} (hpos : 0 ≤ n) : ∀ c ∈ (toString n).toList, c.isDigit = true := by
  obtain ⟨k, rfl⟩ := Int.eq_ofNat_of_zero_le hpos
  rw [show toString (k : Int) = toString k from rfl, toList_toString]
  exact isDigit_toDigits k

theorem not_mem_toString (n : Int) {c : Char} (hc : Token.isNumberChar c = false) :
    c ∉ (toString n).toList := by
  intro hmem
  have hnumber := (spelling_toString n).isNumberChar c hmem
  rw [hc] at hnumber
  cases hnumber

/-- Words before and after a named number do not matter, unless one before it gives its name a number. -/
theorem valueOf?_append {name : String} (hname : '=' ∉ name.toList) {n : Int} (hpos : 0 ≤ n)
    (hn : n < 2 ^ 31) (front rest : List (List Char)) :
    valueOf? name (front ++ namedNumber name n :: rest) =
      (valueOf? name front).or (some (.ofInt n)) := by
  have hquote : '"' ∉ (toString n).toList := not_mem_toString n rfl
  have hword : splitFirst '=' (namedNumber name n) = some (name.toList, (toString n).toList) :=
    splitFirst_append hname _
  unfold valueOf?
  rw [List.findSome?_append, List.findSome?_cons]
  simp only [hword, if_pos, unquote_of_not_mem hquote, parse?_toString hpos hn]

/-- The beginning of a classic description, up to the end of the face. -/
def faceText (face : String) : List Char := ("info face=\"" ++ face ++ "\"").toList

def pageText (file : String) : List Char := ("page id=0 file=\"" ++ file ++ "\"").toList

def sizeLine (face : String) : List Char := ((pieces '\n' (faceText face)).getLast?).getD []

/-- A named number between two words of a line. -/
def spaced (name : String) (n : Int) (rest : String) : List Char :=
  ' ' :: (namedNumber name n ++ ' ' :: rest.toList)

/-- What follows the size. -/
def infoRest : String :=
  "bold=0 italic=0 charset=\"\" unicode=0 stretchH=100 smooth=1 aa=1 padding=0,0,0,0 spacing=1,1"

/-- What follows the line height. -/
def commonRest : String := "base=0 scaleW=0 scaleH=0 pages=1 packed=0"

theorem toList_infoLine (font : BitmapFont) :
    (infoLine font).toList = faceText font.face ++ spaced "size" font.size infoRest := by
  unfold infoLine faceText spaced namedNumber infoRest
  simp only [String.toList_append]
  simp

theorem toList_commonLine (font : BitmapFont) :
    (commonLine font).toList =
      "common".toList ++ spaced "lineHeight" font.lineHeight commonRest := by
  unfold commonLine spaced namedNumber commonRest
  simp only [String.toList_append]
  simp

theorem not_mem_spaced {name rest : String} {n : Int} (hname : '\n' ∉ name.toList)
    (hrest : '\n' ∉ rest.toList) : '\n' ∉ spaced name n rest := by
  have hdigits : '\n' ∉ (toString n).toList := not_mem_toString n rfl
  simp only [spaced, namedNumber, List.mem_cons, List.mem_append, not_or]
  exact ⟨by decide, ⟨hname, by decide, hdigits⟩, by decide, hrest⟩

theorem words_spaced {name rest : String} {n : Int} (hpos : 0 ≤ n)
    (hname : ∀ c ∈ name.toList, isBlank c = false) (front : List Char) :
    words (front ++ spaced name n rest) =
      words front ++ namedNumber name n :: words rest.toList := by
  have hdigits : ∀ c ∈ (toString n).toList, isBlank c = false := by
    intro c hc
    obtain ⟨hlow, hhigh, -⟩ := Token.visible_of_isNumberChar
      (Spelling.isNumberChar_of_isDigit (isDigit_toString hpos c hc))
    exact Token.isBlank_of_visible hlow hhigh
  have hsolid : ∀ c ∈ namedNumber name n, isBlank c = false :=
    List.forall_mem_append.2 ⟨hname, List.forall_mem_cons.2 ⟨by decide, hdigits⟩⟩
  have hne : namedNumber name n ≠ [] := by simp [namedNumber]
  rw [spaced, words_append_blank (by decide), words_append_blank (by decide),
    words_of_solid hsolid hne]
  rfl

instance (tag : String) (line : List Char) : Decidable (Opens tag line) :=
  inferInstanceAs (Decidable (_ = _))

/-- The line with the size says what a word before it says, or else the size. -/
theorem toldBy_sizeLine {n : Int} (hpos : 0 ≤ n) (hn : n < 2 ^ 31) (line : List Char)
    (rest : String) :
    toldBy "info" "size" (line ++ spaced "size" n rest) =
      if Opens "info" line then some ((valueOf? "size" (words line).tail).or (some (.ofInt n)))
      else none := by
  have hwords : words (line ++ spaced "size" n rest) =
      words line ++ namedNumber "size" n :: words rest.toList :=
    words_spaced hpos (solid_of_all (by decide)) line
  have hother : namedNumber "size" n ≠ "info".toList := by
    intro h
    cases (List.cons.inj h).1
  unfold toldBy
  cases hline : words line with
  | nil =>
    have hclosed : ¬Opens "info" line := by
      rw [Opens, hline]
      intro hopens
      cases hopens
    rw [hwords, hline, if_neg hclosed]
    exact if_neg hother
  | cons first others =>
    have hopens : Opens "info" line ↔ first = "info".toList := by
      rw [Opens, hline, List.head?_cons, Option.some.injEq]
    rw [hwords, hline, List.cons_append, List.tail_cons]
    simp only [hopens, valueOf?_append (show '=' ∉ "size".toList by decide) hpos hn]

/-- The line height is told on its line. -/
theorem toldBy_commonLine {font : BitmapFont} (hpos : 0 ≤ font.lineHeight)
    (hn : font.lineHeight < 2 ^ 31) :
    toldBy "common" "lineHeight" (commonLine font).toList =
      some (some (.ofInt font.lineHeight)) ∧
    toldBy "info" "size" (commonLine font).toList = none := by
  have hcommon : words "common".toList = ["common".toList] := by decide
  have hother : "common".toList ≠ "info".toList := by decide
  have hvalue : valueOf? "lineHeight"
      (namedNumber "lineHeight" font.lineHeight :: words commonRest.toList) =
        some (.ofInt font.lineHeight) :=
    valueOf?_append (by decide) hpos hn [] _
  have hwords : words ("common".toList ++ spaced "lineHeight" font.lineHeight commonRest) =
      words "common".toList ++
        namedNumber "lineHeight" font.lineHeight :: words commonRest.toList :=
    words_spaced hpos (solid_of_all (by decide)) _
  unfold toldBy
  rw [toList_commonLine, hwords, hcommon]
  constructor
  · exact (if_pos rfl).trans (congrArg some hvalue)
  · exact if_neg hother

/-- A line that says nothing about metrics. -/
def Quiet (line : List Char) : Prop := ¬Opens "info" line ∧ ¬Opens "common" line

theorem told_of_quiet {lines : List (List Char)} (h : ∀ line ∈ lines, Quiet line) :
    told "info" "size" lines = none ∧ told "common" "lineHeight" lines = none :=
  ⟨told_eq_none_iff.2 fun line hline => (h line hline).1,
    told_eq_none_iff.2 fun line hline => (h line hline).2⟩

theorem quiet_of_word {word : List Char} (hsolid : ∀ c ∈ word, isBlank c = false) (hne : word ≠ [])
    (hinfo : word ≠ "info".toList) (hcommon : word ≠ "common".toList) (rest : List Char) :
    Quiet (word ++ ' ' :: rest) := by
  have hwords : words (word ++ ' ' :: rest) = word :: words rest := by
    rw [words_append_blank (by decide), words_of_solid hsolid hne]
    rfl
  unfold Quiet Opens
  rw [hwords, List.head?_cons, Option.some.injEq, Option.some.injEq]
  exact ⟨hinfo, hcommon⟩

theorem quiet_countLine (font : BitmapFont) :
    ∀ line ∈ pieces '\n' (countLine font).toList, Quiet line := by
  have hsplit : (countLine font).toList =
      "chars".toList ++ ' ' :: ("count=".toList ++ (toString font.glyphs.length).toList) := by
    unfold countLine
    simp only [String.toList_append]
    simp
  have hdigits : '\n' ∉ (toString font.glyphs.length).toList :=
    not_mem_toString (font.glyphs.length : Int) rfl
  have hline : '\n' ∉ (countLine font).toList := by
    rw [hsplit, List.mem_append, List.mem_cons, List.mem_append]
    simp only [hdigits, or_false]
    decide
  rw [pieces_of_not_mem hline, hsplit]
  exact List.forall_mem_singleton.2
    (quiet_of_word (solid_of_all (by decide)) (by decide) (by decide) (by decide) _)

theorem quiet_glyphLine (g : Glyph) : ∀ line ∈ pieces '\n' (glyphLine g).toList, Quiet line := by
  have hnumber : ∀ n : Int, '\n' ∉ (toString n).toList := fun n => not_mem_toString n rfl
  have hid : '\n' ∉ (toString g.id).toList := hnumber g.id
  have hline : '\n' ∉ (glyphLine g).toList := by
    unfold glyphLine
    simp only [String.toList_append, List.mem_append, hnumber, hid, or_false]
    decide
  have hsplit : ∃ rest, (glyphLine g).toList = "char".toList ++ ' ' :: rest := by
    unfold glyphLine
    simp only [String.toList_append, List.append_assoc]
    exact ⟨_, rfl⟩
  obtain ⟨rest, hrest⟩ := hsplit
  rw [pieces_of_not_mem hline, hrest]
  exact List.forall_mem_singleton.2
    (quiet_of_word (solid_of_all (by decide)) (by decide) (by decide) (by decide) _)

/-- A font whose lengths fit in four bytes and are not negative. -/
structure Measured (font : BitmapFont) : Prop where
  size : 0 ≤ font.size ∧ font.size < 2 ^ 31
  lineHeight : 0 ≤ font.lineHeight ∧ font.lineHeight < 2 ^ 31

theorem pieces_classicText (font : BitmapFont) :
    pieces '\n' font.classicText.toList =
      pieces '\n' (infoLine font).toList ++ (pieces '\n' (commonLine font).toList ++
        (pieces '\n' (pageText font.file) ++ (pieces '\n' (countLine font).toList ++
          font.glyphs.flatMap fun g => pieces '\n' (glyphLine g).toList))) := by
  have hnewLine : "\n".toList = ['\n'] := by decide
  rw [classicText, String.toList_intercalate, hnewLine, pieces_intercalate_flatMap]
  · simp only [List.cons_append, List.nil_append, List.map_cons, List.flatMap_cons, List.map_map,
      List.flatMap_map]
    rfl
  · exact List.cons_ne_nil _ _

theorem quiet_glyphs (font : BitmapFont) :
    ∀ line ∈ font.glyphs.flatMap fun g => pieces '\n' (glyphLine g).toList, Quiet line := by
  intro line hline
  obtain ⟨g, -, hg⟩ := List.mem_flatMap.1 hline
  exact quiet_glyphLine g line hg

theorem pieces_commonLine (font : BitmapFont) :
    pieces '\n' (commonLine font).toList = [(commonLine font).toList] := by
  refine pieces_of_not_mem ?_
  rw [toList_commonLine, List.mem_append, not_or]
  exact ⟨by decide, not_mem_spaced (by decide) (by decide)⟩

theorem pieces_infoLine (font : BitmapFont) :
    pieces '\n' (infoLine font).toList = (pieces '\n' (faceText font.face)).dropLast ++
      [sizeLine font.face ++ spaced "size" font.size infoRest] := by
  have hspaced : '\n' ∉ spaced "size" font.size infoRest :=
    not_mem_spaced (by decide) (by decide)
  obtain ⟨front, last, hface, hline⟩ := pieces_append_of_not_mem hspaced (faceText font.face)
  rw [toList_infoLine, hline, sizeLine, hface, List.dropLast_concat, List.getLast?_concat,
    Option.getD_some]

def sizeTold (face file : String) (size : Int) : Option (Option Single) :=
  (told "info" "size" (pieces '\n' (pageText file))).or
    ((if Opens "info" (sizeLine face) then
        some ((valueOf? "size" (words (sizeLine face)).tail).or (some (.ofInt size)))
      else none).or
      (told "info" "size" (pieces '\n' (faceText face)).dropLast))

def heightTold (file : String) (height : Int) : Option (Option Single) :=
  (told "common" "lineHeight" (pieces '\n' (pageText file))).or (some (some (.ofInt height)))

theorem told_size {font : BitmapFont} (h : font.Measured) :
    told "info" "size" (pieces '\n' font.classicText.toList) =
      sizeTold font.face font.file font.size := by
  have hcommon := (toldBy_commonLine h.lineHeight.1 h.lineHeight.2).2
  have hsize := toldBy_sizeLine h.size.1 h.size.2 (sizeLine font.face) infoRest
  rw [pieces_classicText, pieces_commonLine, pieces_infoLine]
  simp only [sizeTold, told_append, told, (told_of_quiet (quiet_countLine font)).1,
    (told_of_quiet (quiet_glyphs font)).1, hcommon, hsize, Option.none_or, Option.or_none]

theorem told_lineHeight {font : BitmapFont} (h : font.Measured) :
    told "common" "lineHeight" (pieces '\n' font.classicText.toList) =
      heightTold font.file font.lineHeight := by
  have hcommon := (toldBy_commonLine h.lineHeight.1 h.lineHeight.2).1
  rw [pieces_classicText, pieces_commonLine]
  simp only [heightTold, told_append, told, (told_of_quiet (quiet_countLine font)).2,
    (told_of_quiet (quiet_glyphs font)).2, hcommon, Option.none_or, Option.or_assoc, Option.some_or]

/-- A face and the name of a texture that do not pass for something else: the line on which the face
ends is the first part's own, no word on it gives the size a number, and the lines of the texture say
nothing about metrics. -/
structure Legible (face file : String) : Prop where
  info : Opens "info" (sizeLine face)
  size : valueOf? "size" (words (sizeLine face)).tail = none
  page : ∀ line ∈ pieces '\n' (pageText file), Quiet line

theorem Legible.classicMetrics? {font : BitmapFont} (h : Legible font.face font.file)
    (hfont : font.Measured) : classicMetrics? font.classicText = some font.metrics := by
  have hpage := told_of_quiet h.page
  rw [classicMetrics?_eq, told_size hfont, told_lineHeight hfont, sizeTold, heightTold, hpage.1,
    hpage.2, if_pos h.info, h.size]
  rfl

/-- Without equality signs a face lets only its own name have a value. -/
theorem exists_words_sizeLine {face : String} (hsign : '=' ∉ face.toList)
    (hface : '\n' ∉ face.toList) :
    ∃ w others, words (sizeLine face) = "info".toList :: ("face".toList ++ '=' :: w) :: others ∧
      ∀ word ∈ others, '=' ∉ word := by
  have htext : faceText face =
      "info".toList ++ ' ' :: ("face=\"".toList ++ (face.toList ++ ['"'])) := by
    unfold faceText
    simp only [String.toList_append]
    simp
  have hline : '\n' ∉ faceText face := by
    rw [htext]
    simp [hface]
  have hquoted : '=' ∉ face.toList ++ ['"'] := by simp [hsign]
  obtain ⟨w, others, hwords, hothers⟩ := exists_wordsFrom_of_not_mem hquoted
    (show "face=\"".toList.reverse ≠ [] by simp)
  have htail : words ("face=\"".toList ++ (face.toList ++ ['"'])) =
      ("face".toList ++ '=' :: '"' :: w) :: others := by
    rw [words, wordsFrom_solid_append (solid_of_all (by decide)), List.append_nil, hwords]
    simp
  refine ⟨'"' :: w, others, ?_, hothers⟩
  rw [sizeLine, pieces_of_not_mem hline, List.getLast?_singleton, Option.getD_some, htext,
    words_append_blank (by decide), htail]
  rfl

theorem quiet_pageText {file : String} (hfile : '\n' ∉ file.toList) :
    ∀ line ∈ pieces '\n' (pageText file), Quiet line := by
  have hpage : '\n' ∉ pageText file := by
    unfold pageText
    simp only [String.toList_append, List.mem_append, hfile, or_false]
    decide
  have hsplit : pageText file =
      "page".toList ++ ' ' :: ("id=0 file=\"".toList ++ (file.toList ++ ['"'])) := by
    unfold pageText
    simp only [String.toList_append]
    simp
  rw [pieces_of_not_mem hpage, hsplit]
  exact List.forall_mem_singleton.2
    (quiet_of_word (solid_of_all (by decide)) (by decide) (by decide) (by decide) _)

theorem legible_of_plain {face file : String} (hsign : '=' ∉ face.toList)
    (hface : '\n' ∉ face.toList) (hfile : '\n' ∉ file.toList) : Legible face file := by
  obtain ⟨w, others, hwords, hothers⟩ := exists_words_sizeLine hsign hface
  refine ⟨?_, ?_, quiet_pageText hfile⟩
  · rw [Opens, hwords]
    rfl
  · rw [hwords, List.tail_cons, valueOf?, List.findSome?_eq_none_iff]
    refine List.forall_mem_cons.2 ⟨?_, fun word hword => ?_⟩
    · rw [splitFirst_append (by decide)]
      exact if_neg (by decide)
    · rw [splitFirst_of_not_mem (hothers word hword)]

/-- A font with one glyph. -/
def oneGlyph (face file : String) (width height : Int) : BitmapFont where
  face := face
  size := width
  lineHeight := height
  file := file
  glyphs := [⟨'0'.toNat, 0, 0, width, height, 0, 0⟩]

theorem measured_oneGlyph (face file : String) {width height : Int} (hwidth : width = 0 ∨ width = 1)
    (hheight : height = 0 ∨ height = 1) : (oneGlyph face file width height).Measured := by
  constructor
  · change 0 ≤ width ∧ width < 2 ^ 31
    omega
  · change 0 ≤ height ∧ height < 2 ^ 31
    omega

theorem eq_none_of_or {α β : Type} (f : Option α → β) {o r r' : Option α} {b b' : β}
    (h : f (o.or r) = b) (h' : f (o.or r') = b') (hne : b ≠ b') : o = none := by
  cases o with
  | none => rfl
  | some a => exact absurd (h.symm.trans h') hne

/-- A face and a texture with which four small fonts keep their metrics are legible. -/
theorem legible_of_oneGlyph {face file : String}
    (h : ∀ width height : Int, (width = 0 ∨ width = 1) → (height = 0 ∨ height = 1) →
      BitmapFont.classicMetrics? (oneGlyph face file width height).classicText =
        some (oneGlyph face file width height).metrics) : Legible face file := by
  have hne : (Floating.ofInt 0 : Single) ≠ .ofInt 1 := by decide +kernel
  have hne' : some (Floating.ofInt 0 : Single) ≠ some (.ofInt 1) := mt Option.some.inj hne
  have hread : ∀ width height : Int, (width = 0 ∨ width = 1) → (height = 0 ∨ height = 1) →
      (sizeTold face file width).getD none = some (.ofInt width) ∧
        ((heightTold file height).getD none).getD (.ofInt width) = .ofInt height := by
    intro width height hwidth hheight
    have hmetrics := h width height hwidth hheight
    have hmeasured := measured_oneGlyph face file hwidth hheight
    rw [classicMetrics?_eq, told_size hmeasured, told_lineHeight hmeasured] at hmetrics
    obtain ⟨size, hsize, hboth⟩ := Option.map_eq_some_iff.1 hmetrics
    obtain ⟨rfl, hheight⟩ := FontMetrics.mk.inj hboth
    exact ⟨hsize, hheight⟩
  obtain ⟨hzero, hsame⟩ := hread 0 0 (.inl rfl) (.inl rfl)
  obtain ⟨hone, -⟩ := hread 1 0 (.inr rfl) (.inl rfl)
  obtain ⟨-, hother⟩ := hread 0 1 (.inl rfl) (.inr rfl)
  rw [sizeTold] at hzero hone
  rw [heightTold] at hsame hother
  have hinfo : told "info" "size" (pieces '\n' (pageText file)) = none :=
    eq_none_of_or (·.getD none) hzero hone hne'
  rw [hinfo, Option.none_or] at hzero hone
  have hopens : Opens "info" (sizeLine face) := by
    by_contra hclosed
    rw [if_neg hclosed] at hzero hone
    exact hne' (hzero.symm.trans hone)
  rw [if_pos hopens, Option.some_or, Option.getD_some] at hzero hone
  have hsize : valueOf? "size" (words (sizeLine face)).tail = none :=
    eq_none_of_or id hzero hone hne'
  have hcommon : told "common" "lineHeight" (pieces '\n' (pageText file)) = none :=
    eq_none_of_or (fun height => (height.getD none).getD _) hsame hother hne
  exact ⟨hopens, hsize, fun line hline =>
    ⟨told_eq_none_iff.1 hinfo line hline, told_eq_none_iff.1 hcommon line hline⟩⟩

end BitmapFont

end MarkupScene
