import MarkupScene.Json.Printer
import MarkupScene.Json.Token
import MarkupScene.Proofs.ShortestDigits

/-!
# Printed numbers

The texts in which numbers are printed are numbers to the reader. The main statements are that an
integer that fits in eight bytes is read as itself and that every finite double is printed as a
number. The number that a double is read as can be another double.
-/
namespace MarkupScene.Json

open Numeric Text

/-- The digits of a whole number: some, and no zero before another digit. -/
structure WholeDigits (cs : List Char) : Prop where
  digits : ∀ c ∈ cs, c.isDigit = true
  nonempty : cs ≠ []
  leading : cs = ['0'] ∨ cs.head? ≠ some '0'

theorem toDigits_head {n : Nat} (hn : 0 < n) : (Nat.toDigits 10 n).head? ≠ some '0' := by
  induction n using Nat.strong_induction_on with
  | _ n ih =>
    rw [Nat.toDigits_eq_if (by decide)]
    split
    · next hsmall =>
      have hdigit : ∀ k < 10, 0 < k → k.digitChar ≠ '0' := by decide
      simpa using hdigit n hsmall hn
    · next hlarge =>
      have htens : 0 < n / 10 := by omega
      obtain ⟨c, cs, hcs⟩ :=
        List.exists_cons_of_ne_nil (Nat.toDigits_ne_nil (n := n / 10) (b := 10))
      have hhead := ih (n / 10) (by omega) htens
      rw [hcs] at hhead ⊢
      exact hhead

theorem isDigit_toDigits (n : Nat) : ∀ c ∈ Nat.toDigits 10 n, c.isDigit = true :=
  fun _ => Nat.isDigit_of_mem_toDigits (by decide) (by decide)

theorem wholeDigits_toDigits (n : Nat) : WholeDigits (Nat.toDigits 10 n) where
  digits := isDigit_toDigits n
  nonempty := Nat.toDigits_ne_nil
  leading := by
    rcases Nat.eq_zero_or_pos n with rfl | hn
    · exact .inl rfl
    · exact .inr (toDigits_head hn)

theorem decimalValue_toDigits (n : Nat) : decimalValue (Nat.toDigits 10 n) = n := by
  have hfold : decimalValue (Nat.toDigits 10 n) = Nat.ofDigitChars 10 (Nat.toDigits 10 n) 0 := by
    rw [Nat.ofDigitChars_eq_foldl, decimalValue]
    simp only [Nat.mul_comm]
  rw [hfold, Nat.ofDigitChars_ten_toDigits]

theorem toList_toString (n : Nat) : (toString n).toList = Nat.toDigits 10 n := by
  rw [Nat.toString_eq_ofList_toDigits, String.toList_ofList]

/-- The text of a fraction. -/
inductive FractionText : List Char → Prop where
  | none : FractionText []
  | some {cs} : (∀ c ∈ cs, c.isDigit = true) → cs ≠ [] → FractionText ('.' :: cs)

inductive ExponentText : List Char → Prop where
  | none : ExponentText []
  | some {sign cs} : sign = '+' ∨ sign = '-' → (∀ c ∈ cs, c.isDigit = true) → cs ≠ [] →
      ExponentText ('e' :: sign :: cs)

theorem scanExponent_of_text {cs : List Char} (h : ExponentText cs) :
    ∃ e, Decimal.scanExponent cs = (e, []) := by
  cases h with
  | none => exact ⟨_, rfl⟩
  | @some sign cs hsign hcs hsome =>
    have htake := takeDigits_digits hcs
    rcases hsign with rfl | rfl
    · simp [Decimal.scanExponent, Decimal.scanSign, htake, hsome]
    · simp [Decimal.scanExponent, Decimal.scanSign, htake, hsome]

theorem scanFraction_append {fraction rest : List Char} (hfraction : FractionText fraction)
    (hrest : ExponentText rest) :
    ∃ cs, Decimal.scanFraction (fraction ++ rest) = (cs, rest) ∧ (fraction ≠ [] → cs ≠ []) := by
  have hdigit : ∀ c ∈ rest.head?, c.isDigit = false := by
    cases hrest with
    | none => exact fun _ h => nomatch h
    | some => simp
  cases hfraction with
  | none =>
    refine ⟨[], ?_, fun h => absurd rfl h⟩
    cases hrest <;> rfl
  | @some cs hcs hsome => exact ⟨cs, takeDigits_append hcs hdigit, fun _ => hsome⟩

/-- A text that is made of the parts of a number is read as the number. -/
theorem exists_ofChars? (negative : Bool) {whole fraction exponent : List Char}
    (hwhole : WholeDigits whole) (hfraction : FractionText fraction)
    (hexponent : ExponentText exponent) :
    ∃ t, NumberText.ofChars?
        ((if negative then ['-'] else []) ++ (whole ++ (fraction ++ exponent))) = some t ∧
      t.negative = negative ∧ t.whole = whole ∧ t.plain = (fraction ++ exponent).isEmpty := by
  obtain ⟨cs, hscanned, hcs⟩ := scanFraction_append hfraction hexponent
  obtain ⟨e, he⟩ := scanExponent_of_text hexponent
  have hrest : ∀ c ∈ (fraction ++ exponent).head?, c.isDigit = false := by
    cases hfraction <;> cases hexponent <;> simp
  have htake := takeDigits_append hwhole.digits hrest
  have hpoint : (fraction ++ exponent).head? = some '.' → cs ≠ [] := by
    intro hhead
    refine hcs fun hnone => ?_
    subst hnone
    cases hexponent <;> simp at hhead
  obtain ⟨c, more, rfl⟩ := List.exists_cons_of_ne_nil hwhole.nonempty
  have hminus : c ≠ '-' := by
    rintro rfl
    exact absurd (hwhole.digits '-' List.mem_cons_self) (by decide)
  have hleading : more = [] ∨ c ≠ '0' := by
    rcases hwhole.leading with hzero | hhead
    · exact .inl (List.cons.inj hzero).2
    · exact .inr fun hc => hhead (by rw [hc]; rfl)
  have hok : ((more.isEmpty || decide (c ≠ '0')) &&
      (decide ((fraction ++ exponent).head? ≠ some '.') || !cs.isEmpty)) = true := by
    rw [Bool.and_eq_true, Bool.or_eq_true, Bool.or_eq_true, List.isEmpty_iff, decide_eq_true_iff,
      decide_eq_true_iff, Bool.not_eq_true', List.isEmpty_eq_false_iff]
    exact ⟨hleading, or_iff_not_imp_left.2 fun hhead => hpoint (not_not.1 hhead)⟩
  cases negative with
  | true =>
    unfold NumberText.ofChars?
    simp only [if_true, List.singleton_append, htake, hscanned, he, hok, List.isEmpty_nil,
      Bool.and_self]
    exact ⟨_, rfl, rfl, rfl, rfl⟩
  | false =>
    rw [List.cons_append] at htake
    unfold NumberText.ofChars?
    simp only [Bool.false_eq_true, if_false, List.nil_append, List.cons_append, hminus,
      List.cons.injEq, false_and, imp_self, implies_true, htake, hscanned, he, hok,
      List.isEmpty_nil, Bool.and_self, if_true]
    exact ⟨_, rfl, rfl, rfl, rfl⟩

theorem value_of_integer {t : NumberText} {i : Int} (h : t.toInteger? = some i) :
    t.value = .integer i := by
  unfold NumberText.value
  rw [h]

/-- The integers that are read as integers. -/
def InWords (i : Int) : Prop := -(2 ^ 63) ≤ i ∧ i < 2 ^ 64

theorem number?_toString {i : Int} (h : InWords i) :
    Token.number? (toString i).toList = some (.integer i) := by
  obtain ⟨hlow, hhigh⟩ := h
  cases i with
  | ofNat n =>
    obtain ⟨t, ht, hnegative, hwhole, hplain⟩ :=
      exists_ofChars? false (wholeDigits_toDigits n) .none .none
    rw [if_neg (by decide), List.nil_append, List.append_nil, List.append_nil] at ht
    have hinteger : t.toInteger? = some (.ofNat n) := by
      unfold NumberText.toInteger?
      rw [hnegative, hwhole, hplain, decimalValue_toDigits]
      have hfits : n < NumberText.wordLimit := by
        change n < 2 ^ 64
        rw [Int.ofNat_eq_natCast] at hhigh
        omega
      simp [hfits]
    rw [show toString (Int.ofNat n) = toString n from rfl, toList_toString, Token.number?, ht,
      Option.map_some, value_of_integer hinteger]
  | negSucc n =>
    obtain ⟨t, ht, hnegative, hwhole, hplain⟩ :=
      exists_ofChars? true (wholeDigits_toDigits (n + 1)) .none .none
    rw [if_pos rfl, List.append_nil, List.append_nil] at ht
    have hinteger : t.toInteger? = some (.negSucc n) := by
      unfold NumberText.toInteger?
      rw [hnegative, hwhole, hplain, decimalValue_toDigits]
      have hfits : n + 1 ≤ NumberText.wordLimit / 2 := by
        change n + 1 ≤ 2 ^ 64 / 2
        rw [Int.negSucc_eq] at hlow
        omega
      simp [hfits, Int.negSucc_eq]
    rw [show toString (Int.negSucc n) = "-" ++ toString (n + 1) from rfl, String.toList_append,
      toList_toString, Token.number?]
    change (NumberText.ofChars? (['-'] ++ _)).map _ = _
    rw [ht, Option.map_some, value_of_integer hinteger]

theorem isDigit_zeros (n : Nat) : ∀ c ∈ List.replicate n '0', c.isDigit = true := by
  intro c hc
  rw [List.eq_of_mem_replicate hc]
  rfl

/-- A magnitude as text: the parts of a number. -/
def MagnitudeText (cs : List Char) : Prop :=
  ∃ whole fraction exponent, WholeDigits whole ∧ FractionText fraction ∧ ExponentText exponent ∧
    cs = whole ++ (fraction ++ exponent)

/-- The texts that printed numbers have. -/
def Spelling (cs : List Char) : Prop :=
  ∃ (negative : Bool) (magnitude : List Char), MagnitudeText magnitude ∧
    cs = (if negative then ['-'] else []) ++ magnitude

namespace Spelling
variable {cs : List Char}

theorem isSome_number? (h : Spelling cs) : (Token.number? cs).isSome = true := by
  obtain ⟨negative, _, ⟨whole, fraction, exponent, hwhole, hfraction, hexponent, rfl⟩, rfl⟩ := h
  obtain ⟨t, ht, -⟩ := exists_ofChars? negative hwhole hfraction hexponent
  rw [Token.number?, ht]
  rfl

theorem isNumberChar_of_isDigit {c : Char} (hc : c.isDigit = true) :
    Token.isNumberChar c = true := by
  simp [Token.isNumberChar, hc]

theorem isNumberChar (h : Spelling cs) : ∀ c ∈ cs, Token.isNumberChar c = true := by
  obtain ⟨negative, _, ⟨whole, fraction, exponent, hwhole, hfraction, hexponent, rfl⟩, rfl⟩ := h
  have hdigits : ∀ {ds : List Char}, (∀ c ∈ ds, c.isDigit = true) →
      ∀ c ∈ ds, Token.isNumberChar c = true := fun hds c hc => isNumberChar_of_isDigit (hds c hc)
  refine List.forall_mem_append.2 ⟨?_, List.forall_mem_append.2 ⟨hdigits hwhole.digits,
    List.forall_mem_append.2 ⟨?_, ?_⟩⟩⟩
  · cases negative with
    | true => exact List.forall_mem_singleton.2 rfl
    | false => exact List.forall_mem_nil _
  · cases hfraction with
    | none => exact fun _ h => nomatch h
    | some hcs _ => exact List.forall_mem_cons.2 ⟨rfl, hdigits hcs⟩
  · cases hexponent with
    | none => exact fun _ h => nomatch h
    | some hsign hcs _ =>
      refine List.forall_mem_cons.2 ⟨rfl, List.forall_mem_cons.2 ⟨?_, hdigits hcs⟩⟩
      rcases hsign with rfl | rfl <;> rfl

theorem ne_nil (h : Spelling cs) : cs ≠ [] := by
  obtain ⟨negative, _, ⟨whole, _, _, hwhole, _, _, rfl⟩, rfl⟩ := h
  exact List.append_ne_nil_of_right_ne_nil _
    (List.append_ne_nil_of_left_ne_nil hwhole.nonempty _)

end Spelling

theorem spelling_toString (i : Int) : Spelling (toString i).toList := by
  have hwhole : ∀ n, MagnitudeText (Nat.toDigits 10 n) := fun n =>
    ⟨_, [], [], wholeDigits_toDigits n, .none, .none, by simp⟩
  cases i with
  | ofNat n =>
    refine ⟨false, _, hwhole n, ?_⟩
    rw [show toString (Int.ofNat n) = toString n from rfl, toList_toString]
    rfl
  | negSucc n =>
    refine ⟨true, _, hwhole (n + 1), ?_⟩
    rw [show toString (Int.negSucc n) = "-" ++ toString (n + 1) from rfl, String.toList_append,
      toList_toString]
    rfl

theorem magnitudeText_whole {cs : List Char} (h : WholeDigits cs) :
    MagnitudeText (cs ++ ['.', '0']) :=
  ⟨cs, ['.', '0'], [], h, .some (List.forall_mem_singleton.2 rfl) (List.cons_ne_nil _ _), .none,
    rfl⟩

/-- Digits with a point so far from their end that a digit stands before it. -/
theorem magnitudeText_point {cs : List Char} {places : Nat} (hplaces : 0 < places)
    (hdigits : ∀ c ∈ cs, c.isDigit = true) (hlength : places < cs.length)
    (hleading : cs.length - places = 1 ∨ cs.head? ≠ some '0') :
    MagnitudeText (cs.take (cs.length - places) ++ '.' :: cs.drop (cs.length - places)) := by
  have hcut : 0 < cs.length - places := by omega
  obtain ⟨c, rest, rfl⟩ := List.exists_cons_of_length_pos (Nat.zero_lt_of_lt hlength)
  obtain ⟨k, hk⟩ := Nat.exists_eq_add_of_lt hcut
  have htake : (c :: rest).take ((c :: rest).length - places) = c :: rest.take k := by
    rw [hk, Nat.zero_add, List.take_succ_cons]
  refine ⟨_, _, [], ⟨fun d hd => hdigits d (List.mem_of_mem_take hd), ?_, ?_⟩,
    .some (fun d hd => hdigits d (List.mem_of_mem_drop hd)) ?_, .none, by rw [List.append_nil]⟩
  · rw [htake]
    exact List.cons_ne_nil _ _
  · rw [htake]
    rcases hleading with hone | hhead
    · have hk : k = 0 := by omega
      subst hk
      by_cases hzero : c = '0'
      · exact .inl (by rw [hzero]; rfl)
      · exact .inr (by simpa using hzero)
    · exact .inr hhead
  · rw [ne_eq, List.drop_eq_nil_iff]
    omega

theorem magnitudeText_positional {style : Style} (hsuffix : style.wholeSuffix = ".0") {d : Digits}
    (hd : 0 < d.significand) : MagnitudeText (style.positional d).toList := by
  have hhead := toDigits_head hd
  unfold Style.positional
  dsimp only
  split
  · next e _ =>
    rw [hsuffix, String.toList_append, String.toList_append, toList_toString, Style.zeros,
      String.toList_ofList]
    refine magnitudeText_whole ⟨?_, ?_, .inr ?_⟩
    · exact List.forall_mem_append.2 ⟨isDigit_toDigits _, isDigit_zeros e⟩
    · exact List.append_ne_nil_of_left_ne_nil Nat.toDigits_ne_nil _
    · rwa [List.head?_append_of_ne_nil _ Nat.toDigits_ne_nil]
  · next e _ =>
    rw [String.toList_ofList]
    have hlength : (toString d.significand).length = (Nat.toDigits 10 d.significand).length := by
      rw [← String.length_toList, toList_toString]
    split
    · next hshort =>
      rw [hlength] at hshort
      rw [String.toList_append, Style.zeros, String.toList_ofList, toList_toString, hlength]
      refine magnitudeText_point (Nat.succ_pos e) ?_ ?_ (.inl ?_)
      · exact List.forall_mem_append.2 ⟨isDigit_zeros _, isDigit_toDigits _⟩
      · rw [List.length_append, List.length_replicate]
        omega
      · rw [List.length_append, List.length_replicate]
        omega
    · next hlong =>
      rw [hlength] at hlong
      rw [toList_toString]
      exact magnitudeText_point (Nat.succ_pos e) (isDigit_toDigits _) (by omega) (.inr hhead)

theorem wholeDigits_singleton {c : Char} (hc : c.isDigit = true) : WholeDigits [c] := by
  refine ⟨by simpa using hc, List.cons_ne_nil _ _, ?_⟩
  by_cases hzero : c = '0'
  · exact .inl (by rw [hzero])
  · exact .inr (by simpa using hzero)

theorem magnitudeText_scientific (d : Digits) : MagnitudeText (Style.scientific d).toList := by
  have hdigits := isDigit_toDigits d.significand
  have hexponent : ∀ i : Int, ExponentText
      ((if i < 0 then "e-" else "e+").toList ++ Nat.toDigits 10 i.natAbs) := by
    intro i
    split
    · exact .some (.inr rfl) (isDigit_toDigits _) Nat.toDigits_ne_nil
    · exact .some (.inl rfl) (isDigit_toDigits _) Nat.toDigits_ne_nil
  unfold Style.scientific
  dsimp only
  rw [String.toList_append, String.toList_append, String.toList_ofList, toList_toString,
    toList_toString, List.append_assoc]
  obtain ⟨c, rest, hcs⟩ :=
    List.exists_cons_of_ne_nil (Nat.toDigits_ne_nil (n := d.significand) (b := 10))
  rw [hcs] at hdigits ⊢
  have hc := hdigits c List.mem_cons_self
  cases rest with
  | nil => exact ⟨[c], [], _, wholeDigits_singleton hc, .none, hexponent _, rfl⟩
  | cons e more =>
    have hmore : ∀ x ∈ e :: more, x.isDigit = true := fun x hx =>
      hdigits x (List.mem_cons_of_mem _ hx)
    exact ⟨[c], '.' :: e :: more, _, wholeDigits_singleton hc, .some hmore (List.cons_ne_nil _ _),
      hexponent _, rfl⟩

/-- Numbers are spelled in every style that writes whole numbers with a point. -/
theorem spelling_text? {f : Format} {style : Style} (hsuffix : style.wholeSuffix = ".0")
    {x : Floating f} {text : String} (h : style.text? x = some text) : Spelling text.toList := by
  cases x with
  | nan => cases h
  | signed negative rank =>
    unfold Style.text? at h
    dsimp only at h
    split at h
    · cases h
    · obtain rfl := Option.some.inj h
      refine ⟨negative, (if rank.val = 0 then "0" ++ style.wholeSuffix
          else style.digits (.ofRank f style.tiesToEven rank)).toList, ?_, ?_⟩
      · split
        · rw [hsuffix]
          exact magnitudeText_whole (wholeDigits_singleton rfl)
        · next hrank =>
          obtain ⟨r, hr⟩ := Nat.exists_eq_succ_of_ne_zero hrank
          have hpos := Digits.ofRank_pos f style.tiesToEven r
          rw [← Nat.succ_eq_add_one, ← hr] at hpos
          unfold Style.digits
          split
          · exact magnitudeText_scientific _
          · exact magnitudeText_positional hsuffix hpos
      · cases negative with
        | true => exact String.toList_append
        | false => rfl

/-- A way to print doubles that spells numbers. -/
def Spells (number : Double → Option String) : Prop :=
  ∀ x text, number x = some text → Spelling text.toList

theorem spells_dataNumber : Spells dataNumber := fun _ _ => spelling_text? rfl

end MarkupScene.Json
