import MarkupScene.Markup.Reading
import MarkupScene.Proofs.ByteOrder
import Mathlib.Data.List.TakeWhile

/-!
# Leading numbers

A decimal is written with a sign or none, digits with at most one point before, among or after them,
and an exponent or none. The main statement is that the number of a text is that of the longest
decimal at its start, after blanks, and that there is one just when some decimal stands there. The
same decimal is found in one pass over the bytes of the text, which ends between two characters, and
what the pass takes can be read whenever it has seen a digit.
-/
namespace MarkupScene

open Text

namespace Numeric

namespace Decimal

inductive SignText : Bool → List Char → Prop where
  | none : SignText false []
  | plus : SignText false ['+']
  | minus : SignText true ['-']

/-- A point with the digits after it, or neither. -/
def PointText (fraction point : List Char) : Prop :=
  point = [] ∧ fraction = [] ∨ point = '.' :: fraction

/-- The digits before the point and after it, and the text with the point. -/
inductive MantissaText : List Char → List Char → List Char → Prop where
  | whole {whole : List Char} (hwhole : ∀ c ∈ whole, c.isDigit = true) (hne : whole ≠ []) :
      MantissaText whole [] whole
  | pointed {whole fraction : List Char} (hwhole : ∀ c ∈ whole, c.isDigit = true) (hne : whole ≠ [])
      (hfraction : ∀ c ∈ fraction, c.isDigit = true) :
      MantissaText whole fraction (whole ++ '.' :: fraction)
  | fraction {fraction : List Char} (hfraction : ∀ c ∈ fraction, c.isDigit = true)
      (hne : fraction ≠ []) : MantissaText [] fraction ('.' :: fraction)

inductive PowerText : Int → List Char → Prop where
  | none : PowerText 0 []
  | some {letter : Char} {negative : Bool} {sign digits : List Char}
      (hletter : letter = 'e' ∨ letter = 'E') (hsign : SignText negative sign)
      (hdigits : ∀ c ∈ digits, c.isDigit = true) (hne : digits ≠ []) :
      PowerText (if negative then -(decimalValue digits : Int) else decimalValue digits)
        (letter :: (sign ++ digits))

/-- The texts that write a decimal. -/
inductive WrittenAs : Decimal → List Char → Prop where
  | mk {negative : Bool} {exponent : Int} {sign whole fraction mantissa power : List Char}
      (hsign : SignText negative sign) (hmantissa : MantissaText whole fraction mantissa)
      (hpower : PowerText exponent power) :
      WrittenAs ⟨negative, decimalValue (whole ++ fraction), exponent - fraction.length⟩
        (sign ++ mantissa ++ power)

variable {s : List Char}

theorem not_sign_of_isDigit {c : Char} (h : c.isDigit = true) : c ≠ '+' ∧ c ≠ '-' := by
  constructor <;> rintro rfl <;> cases h

theorem scanSign_append {negative : Bool} {sign : List Char} (h : SignText negative sign)
    (hs : ∀ c ∈ s.head?, c ≠ '+' ∧ c ≠ '-') : scanSign (sign ++ s) = (negative, s) := by
  cases h with
  | plus => rfl
  | minus => rfl
  | none =>
    rw [List.nil_append]
    unfold scanSign
    split
    · exact absurd rfl (hs '-' rfl).2
    · exact absurd rfl (hs '+' rfl).1
    · rfl

theorem scanSign_parts (s : List Char) :
    ∃ sign, SignText (scanSign s).1 sign ∧ s = sign ++ (scanSign s).2 ∧
      (sign = [] → ∀ c ∈ s.head?, c ≠ '+' ∧ c ≠ '-') := by
  unfold scanSign
  split
  · exact ⟨['-'], .minus, rfl, nofun⟩
  · exact ⟨['+'], .plus, rfl, nofun⟩
  · next hminus hplus =>
    refine ⟨[], .none, rfl, fun _ c hc => ?_⟩
    cases s with
    | nil => cases hc
    | cons d rest =>
      obtain rfl := Option.some.inj hc
      exact ⟨fun h => hplus rest (h ▸ rfl), fun h => hminus rest (h ▸ rfl)⟩

theorem takeDigits_parts (s : List Char) :
    s = (takeDigits s).1 ++ (takeDigits s).2 ∧ (∀ c ∈ (takeDigits s).1, c.isDigit = true) ∧
      ∀ c ∈ (takeDigits s).2.head?, c.isDigit = false := by
  refine ⟨List.takeWhile_append_dropWhile.symm, fun c hc => List.mem_takeWhile_imp hc,
    fun c hc => ?_⟩
  have hnot := List.head?_dropWhile_not Char.isDigit s
  rw [Option.mem_def, takeDigits] at hc
  rw [hc] at hnot
  exact hnot

theorem scanFraction_parts (hs : ∀ c ∈ s.head?, c.isDigit = false) :
    ∃ point, s = point ++ (scanFraction s).2 ∧
      (∀ c ∈ (scanFraction s).1, c.isDigit = true) ∧
      (∀ c ∈ (scanFraction s).2.head?, c.isDigit = false) ∧
      PointText (scanFraction s).1 point ∧ (point = [] → (scanFraction s).2.head? ≠ some '.') := by
  unfold scanFraction
  split
  · next rest =>
    obtain ⟨hrest, hdigits, hend⟩ := takeDigits_parts rest
    exact ⟨'.' :: (takeDigits rest).1, by rw [List.cons_append, ← hrest], hdigits, hend, .inr rfl,
      nofun⟩
  · next hpoint =>
    refine ⟨[], rfl, nofun, hs, .inl ⟨rfl, rfl⟩, fun _ h => ?_⟩
    cases s with
    | nil => cases h
    | cons c rest => exact hpoint rest (Option.some.inj h ▸ rfl)

theorem scanExponent_power {exponent : Int} (h : PowerText exponent s) :
    scanExponent s = (exponent, []) := by
  cases h with
  | none => rfl
  | @some letter negative sign digits hletter hsign hdigits hne =>
    have hhead : ∀ c ∈ digits.head?, c ≠ '+' ∧ c ≠ '-' :=
      fun c hc => not_sign_of_isDigit (hdigits c (List.mem_of_mem_head? hc))
    simp [scanExponent, hletter, scanSign_append hsign hhead, takeDigits_digits hdigits, hne]

/-- The text goes on with an exponent: its letter, and a digit after it and a sign or none. -/
def StartsPower (s : List Char) : Prop :=
  ∃ letter negative sign digit rest, (letter = 'e' ∨ letter = 'E') ∧ SignText negative sign ∧
    digit.isDigit = true ∧ s = letter :: (sign ++ digit :: rest)

theorem scanExponent_parts (s : List Char) :
    ∃ power, PowerText (scanExponent s).1 power ∧ s = power ++ (scanExponent s).2 ∧
      (power = [] → ¬StartsPower s) ∧
      (power ≠ [] → ∀ c ∈ (scanExponent s).2.head?, c.isDigit = false) := by
  cases s with
  | nil =>
    refine ⟨[], .none, rfl, fun _ => ?_, absurd rfl⟩
    rintro ⟨_, _, _, _, _, _, _, _, h⟩
    cases h
  | cons letter rest =>
    by_cases hletter : letter = 'e' ∨ letter = 'E'
    · obtain ⟨sign, hsign, hrest, -⟩ := scanSign_parts rest
      obtain ⟨hunsigned, hdigits, hend⟩ := takeDigits_parts (scanSign rest).2
      by_cases hnone : (takeDigits (scanSign rest).2).1 = []
      · have hscan : scanExponent (letter :: rest) = (0, letter :: rest) := by
          simp [scanExponent, hletter, hnone]
        rw [hscan]
        refine ⟨[], .none, rfl, fun _ => ?_, absurd rfl⟩
        rintro ⟨_, negative, sign', digit, more, -, hsign', hdigit, h⟩
        have hhead : ∀ c ∈ (digit :: more).head?, c ≠ '+' ∧ c ≠ '-' :=
          fun c hc => Option.some.inj hc ▸ not_sign_of_isDigit hdigit
        rw [(List.cons.inj h).2, scanSign_append hsign' hhead] at hnone
        simp [takeDigits, hdigit] at hnone
      · have hscan : scanExponent (letter :: rest) =
            (if (scanSign rest).1 then -(decimalValue (takeDigits (scanSign rest).2).1 : Int)
              else decimalValue (takeDigits (scanSign rest).2).1,
              (takeDigits (scanSign rest).2).2) := by
          simp [scanExponent, hletter, hnone]
        rw [hscan]
        refine ⟨_, .some hletter hsign hdigits hnone, ?_,
          fun h => absurd h (List.cons_ne_nil _ _), fun _ => hend⟩
        rw [List.cons_append, List.append_assoc, ← hunsigned, ← hrest]
    · have hscan : scanExponent (letter :: rest) = (0, letter :: rest) := by
        simp [scanExponent, hletter]
      rw [hscan]
      refine ⟨[], .none, rfl, fun _ => ?_, absurd rfl⟩
      rintro ⟨_, _, _, _, _, hletter', _, _, h⟩
      exact hletter ((List.cons.inj h).1 ▸ hletter')

theorem MantissaText.parts {whole fraction mantissa : List Char}
    (h : MantissaText whole fraction mantissa) :
    (∀ c ∈ whole, c.isDigit = true) ∧ (∀ c ∈ fraction, c.isDigit = true) ∧
      (whole ≠ [] ∨ fraction ≠ []) ∧
      ∃ point, mantissa = whole ++ point ∧ PointText fraction point := by
  cases h with
  | whole hwhole hne => exact ⟨hwhole, nofun, .inl hne, [], by simp, .inl ⟨rfl, rfl⟩⟩
  | pointed hwhole hne hfraction => exact ⟨hwhole, hfraction, .inl hne, _, rfl, .inr rfl⟩
  | fraction hfraction hne => exact ⟨nofun, hfraction, .inr hne, _, rfl, .inr rfl⟩

theorem MantissaText.of_parts {whole fraction point : List Char}
    (hwhole : ∀ c ∈ whole, c.isDigit = true) (hfraction : ∀ c ∈ fraction, c.isDigit = true)
    (hne : whole ≠ [] ∨ fraction ≠ [])
    (hpoint : PointText fraction point) : MantissaText whole fraction (whole ++ point) := by
  rcases hpoint with ⟨rfl, rfl⟩ | rfl
  · rw [List.append_nil]
    exact .whole hwhole (hne.resolve_right (absurd rfl))
  · by_cases hnone : whole = []
    · subst hnone
      exact .fraction hfraction (hne.resolve_left (absurd rfl))
    · exact .pointed hwhole hnone hfraction

theorem PowerText.head {exponent : Int} (h : PowerText exponent s) :
    ∀ c ∈ s.head?, c = 'e' ∨ c = 'E' := by
  intro c hc
  cases h with
  | none => cases hc
  | some hletter => exact Option.some.inj hc ▸ hletter

/-- A text that writes a decimal is read as it. -/
theorem WrittenAs.scan? {d : Decimal} (h : d.WrittenAs s) : scan? s = some (d, []) := by
  obtain @⟨negative, exponent, sign, whole, fraction, mantissa, power, hsign, hmantissa, hpower⟩ :=
    h
  obtain ⟨hwhole, hfraction, hne, point, rfl, hpoint⟩ := hmantissa.parts
  -- Each part ends where the next one starts, since their first characters differ.
  have hletter : ∀ c ∈ power.head?, c.isDigit = false ∧ c ≠ '+' ∧ c ≠ '-' ∧ c ≠ '.' := by
    intro c hc
    rcases hpower.head c hc with rfl | rfl <;> decide
  have hpointed : ∀ c ∈ (point ++ power).head?, c.isDigit = false ∧ c ≠ '+' ∧ c ≠ '-' := by
    rcases hpoint with ⟨rfl, -⟩ | rfl
    · exact fun c hc => ⟨(hletter c hc).1, (hletter c hc).2.1, (hletter c hc).2.2.1⟩
    · intro c hc
      obtain rfl := Option.some.inj hc
      decide
  have hunsigned : ∀ c ∈ (whole ++ (point ++ power)).head?, c ≠ '+' ∧ c ≠ '-' := by
    cases whole with
    | nil => exact fun c hc => (hpointed c hc).2
    | cons d whole =>
      exact fun c hc => not_sign_of_isDigit (hwhole c (List.mem_of_mem_head? hc))
  have htake := takeDigits_append hwhole fun c hc => (hpointed c hc).1
  have htail := takeDigits_append hfraction fun c hc => (hletter c hc).1
  have hscanned : scanFraction (point ++ power) = (fraction, power) := by
    rcases hpoint with ⟨rfl, rfl⟩ | rfl
    · rw [List.nil_append]
      unfold scanFraction
      split
      · exact absurd rfl (hletter '.' rfl).2.2.2
      · rfl
    · exact htail
  have hsome : (whole.isEmpty && fraction.isEmpty) = false := by
    rcases hne with hne | hne <;> simp [hne]
  unfold Decimal.scan?
  rw [List.append_assoc, List.append_assoc, scanSign_append hsign hunsigned]
  dsimp only
  rw [htake]
  dsimp only
  rw [hscanned]
  dsimp only
  rw [hsome, scanExponent_power hpower]
  rfl

/-- A text whose start is made of the parts of a decimal, where the digits may be missing. The
exponent needs a digit before it. -/
structure Parts (s : List Char) where
  negative : Bool
  exponent : Int
  sign : List Char
  whole : List Char
  fraction : List Char
  point : List Char
  power : List Char
  rest : List Char
  text : s = sign ++ (whole ++ (point ++ (power ++ rest)))
  signText : SignText negative sign
  powerText : PowerText exponent power
  whole_digits : ∀ c ∈ whole, c.isDigit = true
  fraction_digits : ∀ c ∈ fraction, c.isDigit = true
  pointed : PointText fraction point
  counted : power ≠ [] → whole ≠ [] ∨ fraction ≠ []

namespace Parts

/-- The text without its rest. -/
def word (p : Parts s) : List Char := p.sign ++ (p.whole ++ (p.point ++ p.power))

def decimal (p : Parts s) : Decimal :=
  ⟨p.negative, decimalValue (p.whole ++ p.fraction), p.exponent - p.fraction.length⟩

def HasDigit (p : Parts s) : Prop := p.whole ≠ [] ∨ p.fraction ≠ []

theorem word_append (p : Parts s) : p.word ++ p.rest = s := by
  rw [word, List.append_assoc, List.append_assoc, List.append_assoc, ← p.text]

theorem writtenAs (p : Parts s) (h : p.HasDigit) : p.decimal.WrittenAs p.word := by
  have hword := WrittenAs.mk p.signText
    (.of_parts p.whole_digits p.fraction_digits h p.pointed) p.powerText
  rwa [List.append_assoc, List.append_assoc] at hword

end Parts

theorem WrittenAs.exists_parts {d : Decimal} {w : List Char} (h : d.WrittenAs w)
    (rest : List Char) :
    ∃ p : Parts (w ++ rest), p.word = w ∧ p.HasDigit := by
  obtain @⟨negative, exponent, sign, whole, fraction, mantissa, power, hsign, hmantissa, hpower⟩ :=
    h
  obtain ⟨hwhole, hfraction, hne, point, rfl, hpoint⟩ := hmantissa.parts
  have htext : sign ++ (whole ++ point) ++ power = sign ++ (whole ++ (point ++ power)) := by
    rw [List.append_assoc, List.append_assoc]
  exact ⟨⟨negative, exponent, sign, whole, fraction, point, power, rest, by simp, hsign, hpower,
    hwhole, hfraction, hpoint, fun _ => hne⟩, htext.symm, hne⟩

/-- The parts at the start of a text, each as long as it can be. -/
structure Cut (s : List Char) extends Parts s where
  sign_ends : sign = [] → ∀ c ∈ s.head?, c ≠ '+' ∧ c ≠ '-'
  digits_end : ∀ c ∈ (power ++ rest).head?, c.isDigit = false
  point_ends : point = [] → (power ++ rest).head? ≠ some '.'
  power_starts : whole ≠ [] ∨ fraction ≠ [] → power = [] → ¬StartsPower rest
  power_ends : power ≠ [] → ∀ c ∈ rest.head?, c.isDigit = false

/-- Scanning cuts a text into its parts, and finds a decimal when there is a digit. -/
theorem exists_cut (s : List Char) : ∃ c : Cut s,
    (¬c.HasDigit → scan? s = none) ∧ (c.HasDigit → scan? s = some (c.decimal, c.rest)) := by
  unfold scan?
  -- Each part is named after the facts about it are there, so that the next one is about its rest.
  obtain ⟨sign, hsign, hs, hunsigned⟩ := scanSign_parts s
  generalize scanSign s = signed at hsign hs ⊢
  obtain ⟨negative, unsigned⟩ := signed
  obtain ⟨hwhole, hwholes, hend⟩ := takeDigits_parts unsigned
  dsimp only at hsign hs ⊢
  generalize takeDigits unsigned = taken at hwhole hwholes hend ⊢
  obtain ⟨whole, afterWhole⟩ := taken
  obtain ⟨point, hpoint, hfractions, hend', hpoints, hend_point⟩ := scanFraction_parts hend
  dsimp only at hwhole hwholes hpoint ⊢
  generalize scanFraction afterWhole = scanned at hpoint hfractions hend' hpoints hend_point ⊢
  obtain ⟨fraction, afterFraction⟩ := scanned
  obtain ⟨power, hpower, hrest, hstart, hend''⟩ := scanExponent_parts afterFraction
  dsimp only at hpoint hfractions hend' hpoints hend_point ⊢
  have htext : s = sign ++ (whole ++ (point ++ afterFraction)) := by
    rw [← hpoint, ← hwhole, ← hs]
  by_cases hnone : whole = [] ∧ fraction = []
  · refine ⟨⟨⟨negative, 0, sign, whole, fraction, point, [], afterFraction, htext, hsign, .none,
      hwholes, hfractions, hpoints, absurd rfl⟩, hunsigned, hend', hend_point, fun h => ?_,
      absurd rfl⟩, fun _ => ?_, fun h => ?_⟩
    · exact absurd hnone (not_and_or.2 h)
    · simp [hnone]
    · exact absurd hnone (not_and_or.2 h)
  · generalize scanExponent afterFraction = powered at hpower hrest hend'' ⊢
    obtain ⟨exponent, rest⟩ := powered
    dsimp only at hpower hrest hend'' ⊢
    subst hrest
    refine ⟨⟨⟨negative, exponent, sign, whole, fraction, point, power, rest, htext, hsign, hpower,
      hwholes, hfractions, hpoints, fun _ => not_and_or.1 hnone⟩, hunsigned, hend', hend_point,
      fun _ h => ?_, hend''⟩, fun h => absurd (not_and_or.1 hnone) h, fun _ => ?_⟩
    · subst h
      exact hstart rfl
    · have hcount : (whole.isEmpty && fraction.isEmpty) = false := by simpa using hnone
      rw [hcount]
      rfl

end Decimal

/-- What the pass asks of a byte. -/
inductive ByteKind
  | digit | sign | point | letter | other
deriving DecidableEq, Repr

namespace ByteKind

def ofCode (n : Nat) : ByteKind :=
  if 48 ≤ n ∧ n ≤ 57 then digit
  else if n = 43 ∨ n = 45 then sign
  else if n = 46 then point
  else if n = 69 ∨ n = 101 then letter
  else other

/-- A digit comes next, after a sign or none. -/
def digitsFollow : List ByteKind → Bool
  | digit :: _ => true
  | sign :: digit :: _ => true
  | _ => false

def kinds (s : List Char) : List ByteKind :=
  (s.flatMap String.utf8EncodeChar).map fun b => ofCode b.toNat

theorem ofCode_eq_other {n : Nat} (h : 128 ≤ n) : ofCode n = other := by
  unfold ofCode
  rw [if_neg (by omega), if_neg (by omega), if_neg (by omega), if_neg (by omega)]

theorem ofCode_isDigit {c : Char} (h : c.isDigit = true) : ofCode c.toNat = digit :=
  if_pos (Char.isDigit_iff_toNat.1 h)

theorem utf8EncodeChar_head (c : Char) :
    c.toNat < 128 ∧ String.utf8EncodeChar c = [UInt8.ofNat c.toNat] ∨
      128 ≤ c.toNat ∧ ∃ b more, String.utf8EncodeChar c = b :: more ∧ 128 ≤ b.toNat := by
  have hvalue : c.val.toNat = c.toNat := rfl
  unfold String.utf8EncodeChar
  rw [hvalue]
  dsimp only
  split_ifs with hone
  · exact .inl ⟨by omega, rfl⟩
  all_goals
    refine .inr ⟨by omega, _, _, rfl, ?_⟩
    rw [UInt8.toNat_ofNat']
    omega

theorem kinds_cons (c : Char) (s : List Char) : ∃ more,
    kinds (c :: s) = ofCode c.toNat :: more ∧ (ofCode c.toNat ≠ other → more = kinds s) := by
  rcases utf8EncodeChar_head c with ⟨hsmall, hone⟩ | ⟨hlarge, b, more, hmany, hb⟩
  · refine ⟨kinds s, ?_, fun _ => rfl⟩
    have hcode : (UInt8.ofNat c.toNat).toNat = c.toNat := by
      rw [UInt8.toNat_ofNat']
      omega
    rw [kinds, List.flatMap_cons, hone, List.singleton_append, List.map_cons, hcode, kinds]
  · rw [ofCode_eq_other hlarge]
    refine ⟨(more ++ s.flatMap String.utf8EncodeChar).map fun b => ofCode b.toNat, ?_, absurd rfl⟩
    rw [kinds, List.flatMap_cons, hmany, List.cons_append, List.map_cons, ofCode_eq_other hb]

theorem kinds_cons_of_ne {c : Char} (h : ofCode c.toNat ≠ other) (s : List Char) :
    kinds (c :: s) = ofCode c.toNat :: kinds s := by
  obtain ⟨more, hkinds, hmore⟩ := kinds_cons c s
  rw [hkinds, hmore h]

theorem length_kinds {s : List Char} (h : ∀ c ∈ s, ofCode c.toNat ≠ other) :
    (kinds s).length = s.length := by
  induction s with
  | nil => rfl
  | cons c s ih =>
    rw [kinds_cons_of_ne (h c (.head _)), List.length_cons, ih fun d hd => h d (.tail _ hd),
      List.length_cons]

theorem kinds_digits {s : List Char} (h : ∀ c ∈ s, c.isDigit = true) (t : List Char) :
    kinds (s ++ t) = List.replicate s.length digit ++ kinds t := by
  induction s with
  | nil => rfl
  | cons c s ih =>
    have hc := ofCode_isDigit (h c (.head _))
    rw [List.cons_append, kinds_cons_of_ne (by rw [hc]; nofun), hc,
      ih fun d hd => h d (.tail _ hd), List.length_cons, List.replicate_succ, List.cons_append]

theorem ofCode_letter {c : Char} (h : c = 'e' ∨ c = 'E') : ofCode c.toNat = letter := by
  rcases h with rfl | rfl <;> rfl

/-- The characters of each kind. -/
theorem char_of_ofCode (c : Char) :
    match ofCode c.toNat with
    | digit => c.isDigit = true
    | sign => ∃ negative, Decimal.SignText negative [c]
    | point => c = '.'
    | letter => c = 'e' ∨ c = 'E'
    | other => True := by
  have heq : ∀ d : Char, c.toNat = d.toNat → c = d := fun d h => Char.toNat_inj.1 h
  unfold ofCode
  split_ifs with hdigit hsign hpoint hletter
  · exact Char.isDigit_iff_toNat.2 hdigit
  · rcases hsign with h | h
    · obtain rfl := heq '+' h
      exact ⟨false, .plus⟩
    · obtain rfl := heq '-' h
      exact ⟨true, .minus⟩
  · exact heq '.' hpoint
  · exact (hletter.imp (heq 'E') (heq 'e')).symm
  · trivial

/-- Digits follow in the bytes as they do in the characters. -/
theorem digitsFollow_kinds {s : List Char} (h : digitsFollow (kinds s) = true) :
    ∃ negative mark c rest, Decimal.SignText negative mark ∧ c.isDigit = true ∧
      s = mark ++ c :: rest := by
  cases s with
  | nil => cases h
  | cons c s =>
    obtain ⟨more, hkinds, hmore⟩ := kinds_cons c s
    have hchar := char_of_ofCode c
    rw [hkinds] at h
    cases hkind : ofCode c.toNat <;> rw [hkind] at h hchar hmore
    case digit => exact ⟨_, [], c, s, .none, hchar, rfl⟩
    case sign =>
      obtain ⟨negative, hsign⟩ := hchar
      obtain rfl := hmore nofun
      cases s with
      | nil => cases h
      | cons d s =>
        obtain ⟨more, hkinds, -⟩ := kinds_cons d s
        have hchar := char_of_ofCode d
        rw [hkinds] at h
        cases hkind : ofCode d.toNat <;> rw [hkind] at h hchar
        case digit => exact ⟨negative, [c], d, s, hsign, hchar, rfl⟩
        all_goals cases h
    all_goals cases h

theorem digitsFollow_of_sign {negative : Bool} {mark : List Char}
    (hsign : Decimal.SignText negative mark) {s t : List Char}
    (hs : ∀ c ∈ s, c.isDigit = true) (hne : s ≠ []) :
    digitsFollow (kinds (mark ++ (s ++ t))) = true := by
  obtain ⟨c, s, rfl⟩ := List.exists_cons_of_ne_nil hne
  have hkinds : kinds (c :: s ++ t) = digit :: kinds (s ++ t) := by
    have hc := ofCode_isDigit (hs c (.head _))
    rw [List.cons_append, kinds_cons_of_ne (by rw [hc]; nofun), hc]
  cases hsign with
  | none => rw [List.nil_append, hkinds, digitsFollow]
  | plus | minus =>
    rw [List.singleton_append, kinds_cons_of_ne (by decide), hkinds]
    rfl

/-- Every character of a decimal is one byte. -/
theorem ofCode_of_mem_word {s : List Char} {p : Decimal.Parts s} {c : Char}
    (hc : c ∈ p.word) : ofCode c.toNat ≠ other := by
  have hsign : ∀ {negative : Bool} {mark : List Char}, Decimal.SignText negative mark →
      c ∈ mark → ofCode c.toNat ≠ other := by
    rintro _ _ (_ | _ | _) hc
    · cases hc
    all_goals
      obtain rfl := List.mem_singleton.1 hc
      decide
  have hdigits : ∀ {digits : List Char}, (∀ d ∈ digits, d.isDigit = true) →
      c ∈ digits → ofCode c.toNat ≠ other := by
    intro digits hdigits hc
    rw [ofCode_isDigit (hdigits c hc)]
    nofun
  rcases List.mem_append.1 hc with hc | hc
  · exact hsign p.signText hc
  rcases List.mem_append.1 hc with hc | hc
  · exact hdigits p.whole_digits hc
  rcases List.mem_append.1 hc with hc | hc
  · rcases p.pointed with ⟨hpoint, -⟩ | hpoint <;> rw [hpoint] at hc
    · cases hc
    · rcases List.mem_cons.1 hc with rfl | hc
      · decide
      · exact hdigits p.fraction_digits hc
  · have hpower := p.powerText
    generalize p.power = power, p.exponent = exponent at hc hpower
    cases hpower with
    | none => cases hc
    | some hletter hmark hdigit =>
      rcases List.mem_cons.1 hc with rfl | hc
      · rw [ofCode_letter hletter]
        nofun
      rcases List.mem_append.1 hc with hc | hc
      · exact hsign hmark hc
      · exact hdigits hdigit hc

end ByteKind

open ByteKind

/-- The pass so far: the bytes that it took, the last of them, and what it has seen. -/
structure Sweep where
  stop : Nat := 0
  last : Option ByteKind := none
  digit : Bool := false
  point : Bool := false
  power : Bool := false
deriving DecidableEq, Repr

namespace Sweep

/-- The next byte is taken, unless the pass ends at it. -/
def step? (f : Sweep) (kind : ByteKind) (rest : List ByteKind) : Option Sweep :=
  let taken := { f with stop := f.stop + 1, last := some kind }
  match kind with
  | .digit => some { taken with digit := true }
  | .sign => if f.stop = 0 ∨ f.power = true ∧ f.last = some .letter then some taken else none
  | .point => if !f.point && !f.power then some { taken with point := true } else none
  | .letter =>
    if f.digit && !f.power && digitsFollow rest then some { taken with power := true } else none
  | .other => none

def walk (f : Sweep) : List ByteKind → Sweep
  | [] => f
  | kind :: rest =>
    match f.step? kind rest with
    | none => f
    | some g => g.walk rest

/-- The pass over the bytes of a text. -/
def ofText (s : String) : Sweep := walk {} ((bytes s).map fun b => ofCode b.toNat)

theorem ofText_eq (s : String) : ofText s = walk {} (kinds s.toList) := by
  rw [ofText, bytes_eq, kinds]

variable {f g : Sweep} {kind : ByteKind} {rest : List ByteKind}

theorem walk_cons_some (h : f.step? kind rest = some g) : f.walk (kind :: rest) = g.walk rest := by
  rw [walk, h]

theorem walk_cons_none (h : f.step? kind rest = none) : f.walk (kind :: rest) = f := by
  rw [walk, h]

theorem step?_le (h : f.step? kind rest = some g) :
    g.stop = f.stop + 1 ∧ (f.digit = true → g.digit = true) := by
  cases kind with
  | other => cases h
  | digit =>
    cases h
    exact ⟨rfl, fun _ => rfl⟩
  | sign | point | letter =>
    simp only [step?] at h
    split at h
    · cases h
      exact ⟨rfl, id⟩
    · cases h

theorem walk_le (f : Sweep) (rest : List ByteKind) :
    f.stop ≤ (f.walk rest).stop ∧ (f.digit = true → (f.walk rest).digit = true) := by
  induction rest generalizing f with
  | nil => exact ⟨Nat.le_refl _, id⟩
  | cons kind rest ih =>
    cases hstep : f.step? kind rest with
    | none =>
      rw [walk_cons_none hstep]
      exact ⟨Nat.le_refl _, id⟩
    | some g =>
      rw [walk_cons_some hstep]
      obtain ⟨hstop, hdigit⟩ := step?_le hstep
      exact ⟨by have := (ih g).1; omega, fun h => (ih g).2 (hdigit h)⟩

/-- The pass after `n` more digits. -/
def digits (f : Sweep) : Nat → Sweep
  | 0 => f
  | n + 1 => { f with stop := f.stop + (n + 1), last := some .digit, digit := true }

theorem walk_digits (f : Sweep) (n : Nat) (rest : List ByteKind) :
    f.walk (List.replicate n .digit ++ rest) = (f.digits n).walk rest := by
  induction n generalizing f with
  | zero => rfl
  | succ n ih =>
    rw [List.replicate_succ, List.cons_append, walk_cons_some rfl, ih]
    cases n with
    | zero => rfl
    | succ n =>
      rw [digits, digits, show f.stop + 1 + (n + 1) = f.stop + (n + 1 + 1) by omega]

@[simp]
theorem stop_digits (f : Sweep) (n : Nat) : (f.digits n).stop = f.stop + n := by cases n <;> rfl

@[simp]
theorem digit_digits (f : Sweep) (n : Nat) : (f.digits n).digit = (f.digit || decide (0 < n)) := by
  cases n <;> simp [digits]

@[simp]
theorem point_digits (f : Sweep) (n : Nat) : (f.digits n).point = f.point := by cases n <;> rfl

@[simp]
theorem power_digits (f : Sweep) (n : Nat) : (f.digits n).power = f.power := by cases n <;> rfl

/-- The pass gets from one state to another by a text, whatever follows. -/
def Runs (f : Sweep) (s : List Char) (g : Sweep) : Prop :=
  ∀ t, f.walk (kinds (s ++ t)) = g.walk (kinds t)

theorem Runs.append {h : Sweep} {s t : List Char} (hs : f.Runs s g) (ht : g.Runs t h) :
    f.Runs (s ++ t) h := by
  intro rest
  rw [List.append_assoc, hs, ht]

theorem runs_cons {h : Sweep} {c : Char} {s : List Char} (hc : ofCode c.toNat = kind)
    (hkind : kind ≠ .other) (hstep : ∀ t, f.step? kind (kinds (s ++ t)) = some g)
    (hs : g.Runs s h) : f.Runs (c :: s) h := by
  intro t
  rw [List.cons_append, kinds_cons_of_ne (hc ▸ hkind), hc, walk_cons_some (hstep t), hs]

theorem runs_digits (f : Sweep) {s : List Char} (h : ∀ c ∈ s, c.isDigit = true) :
    f.Runs s (f.digits s.length) := by
  intro t
  rw [kinds_digits h, walk_digits]

theorem runs_sign {negative : Bool} {s : List Char} (h : Decimal.SignText negative s)
    (hf : s ≠ [] → f.stop = 0 ∨ f.power = true ∧ f.last = some .letter) :
    ∃ last, f.Runs s { f with stop := f.stop + s.length, last := last } := by
  cases h with
  | none => exact ⟨f.last, fun t => rfl⟩
  | plus | minus =>
    exact ⟨some .sign, runs_cons rfl nofun (fun t => if_pos (hf nofun)) fun t => rfl⟩

theorem runs_point {point fraction : List Char}
    (h : Decimal.PointText fraction point)
    (hfraction : ∀ c ∈ fraction, c.isDigit = true) (hpoint : f.point = false)
    (hpower : f.power = false) :
    ∃ g, f.Runs point g ∧ g.stop = f.stop + point.length ∧
      g.digit = (f.digit || decide (0 < fraction.length)) ∧ g.point = !point.isEmpty ∧
      g.power = false := by
  rcases h with ⟨rfl, rfl⟩ | rfl
  · exact ⟨f, fun t => rfl, rfl, by simp, hpoint, hpower⟩
  · have hstep : ∀ t, f.step? .point t =
        some { f with stop := f.stop + 1, last := some .point, point := true } := by
      intro t
      rw [step?, hpoint, hpower]
      rfl
    refine ⟨_, runs_cons rfl nofun (fun t => hstep _) (runs_digits _ hfraction), ?_, ?_, ?_, ?_⟩
    · simp
      omega
    · simp
    · simp
    · simpa using hpower

theorem runs_power {exponent : Int} {power : List Char}
    (h : Decimal.PowerText exponent power) (hdigit : power ≠ [] → f.digit = true)
    (hpower : f.power = false) :
    ∃ g, f.Runs power g ∧ g.stop = f.stop + power.length ∧ g.digit = f.digit ∧
      g.point = f.point ∧ g.power = (!power.isEmpty) ∧ (power ≠ [] → g.last = some .digit) := by
  cases h with
  | none => exact ⟨f, fun t => rfl, rfl, rfl, rfl, hpower, absurd rfl⟩
  | @some letter negative sign digits hletter hsign hdigits hne =>
    have hseen := hdigit nofun
    obtain ⟨c, more, rfl⟩ := List.exists_cons_of_ne_nil hne
    have hstep : ∀ t, f.step? .letter (kinds (sign ++ c :: more ++ t)) =
        some { f with stop := f.stop + 1, last := some .letter, power := true } := by
      intro t
      rw [List.append_assoc, step?, hseen, hpower, digitsFollow_of_sign hsign hdigits hne]
      rfl
    obtain ⟨last, hrun⟩ := runs_sign
      (f := { f with stop := f.stop + 1, last := some .letter, power := true }) hsign
      fun _ => .inr ⟨rfl, rfl⟩
    refine ⟨_, runs_cons (ofCode_letter hletter) nofun hstep (hrun.append (runs_digits _ hdigits)),
      ?_, ?_, ?_, ?_, fun _ => rfl⟩
    · simp
      omega
    · simp [hseen]
    · simp
    · simp

/-- The state after the parts of a decimal and nothing else. -/
structure Took {s : List Char} (f : Sweep) (p : Decimal.Parts s) : Prop where
  stop : f.stop = p.word.length
  digit : f.digit = true ↔ p.HasDigit
  point : f.point = !p.point.isEmpty
  power : f.power = !p.power.isEmpty
  last : p.power ≠ [] → f.last = some .digit

theorem runs_parts {s : List Char} (p : Decimal.Parts s) : ∃ g, Runs {} p.word g ∧ g.Took p := by
  obtain ⟨last, hsign⟩ := runs_sign (f := {}) p.signText fun _ => .inl rfl
  have hwhole := runs_digits { stop := 0 + p.sign.length, last := last } p.whole_digits
  obtain ⟨f, hpoint, hstop, hdigit, hpointed, hunpowered⟩ :=
    runs_point (f := Sweep.digits { stop := 0 + p.sign.length, last := last } p.whole.length)
      p.pointed p.fraction_digits (by simp) (by simp)
  have hseen : f.digit = true ↔ p.HasDigit := by
    simp [hdigit, Decimal.Parts.HasDigit, List.length_pos_iff]
  obtain ⟨g, hpower, hstop', hdigit', hpoint', hpowered, hlast⟩ :=
    runs_power p.powerText (fun h => hseen.2 (p.counted h)) hunpowered
  have hlength : g.stop = p.word.length := by
    simp [Decimal.Parts.word, hstop', hstop]
    omega
  exact ⟨g, hsign.append (hwhole.append (hpoint.append hpower)), hlength, hdigit' ▸ hseen,
    hpoint'.trans hpointed, hpowered, hlast⟩

/-- The pass ends after the longest parts. -/
theorem walk_rest {s : List Char} (c : Decimal.Cut s) (h : f.Took c.toParts) :
    f.walk (kinds c.rest) = f := by
  cases hrest : c.rest with
  | nil => rfl
  | cons d rest =>
    obtain ⟨more, hkinds, hmore⟩ := kinds_cons d rest
    have hchar := char_of_ofCode d
    rw [hkinds]
    refine walk_cons_none ?_
    -- What comes after the longest parts cannot go on with any of them, whatever its kind.
    cases hkind : ofCode d.toNat <;> rw [hkind] at hchar hmore
    case digit =>
      have hdigits : ∀ e ∈ c.rest.head?, e.isDigit = false := by
        by_cases hnone : c.power = []
        · have hend := c.digits_end
          rwa [hnone] at hend
        · exact c.power_ends hnone
      rw [hdigits d (by rw [hrest]; rfl)] at hchar
      cases hchar
    case sign =>
      refine if_neg ?_
      rintro (hzero | ⟨hpowered, hletter⟩)
      · -- Nothing is taken yet, so the text starts with this sign.
        have hword : c.word = [] := List.eq_nil_of_length_eq_zero (h.stop.symm.trans hzero)
        have hsign : c.sign = [] := (List.append_eq_nil_iff.1 hword).1
        have htext := c.word_append
        rw [hword, List.nil_append, hrest] at htext
        obtain ⟨negative, hmark⟩ := hchar
        have hends := c.sign_ends hsign d (by rw [← htext]; rfl)
        cases hmark with
        | plus => exact hends.1 rfl
        | minus => exact hends.2 rfl
      · have hne : c.power ≠ [] := by
          rw [h.power] at hpowered
          simpa using hpowered
        rw [h.last hne] at hletter
        cases hletter
    case point =>
      refine if_neg fun hfree => ?_
      rw [h.point, h.power] at hfree
      have hnone : c.point = [] ∧ c.power = [] := by simpa using hfree
      refine c.point_ends hnone.1 ?_
      rw [hnone.2, hrest, hchar]
      rfl
    case letter =>
      obtain rfl := hmore nofun
      refine if_neg fun hstarts => ?_
      rw [h.power] at hstarts
      have hparts : (f.digit = true ∧ c.power = []) ∧ digitsFollow (kinds rest) = true := by
        simpa using hstarts
      obtain ⟨negative, mark, e, tail, hsign, he, htail⟩ := digitsFollow_kinds hparts.2
      refine c.power_starts (h.digit.1 hparts.1.1) hparts.1.2
        ⟨d, negative, mark, e, tail, hchar, hsign, he, ?_⟩
      rw [hrest, htail]
    case other => rfl

theorem walk_cut {s : List Char} (c : Decimal.Cut s) :
    (walk {} (kinds s)).stop = c.word.length ∧ ((walk {} (kinds s)).digit = true ↔ c.HasDigit) := by
  obtain ⟨g, hrun, hg⟩ := runs_parts c.toParts
  have hwalk : walk {} (kinds s) = g := by
    rw [← walk_rest c hg, ← hrun, c.word_append]
  rw [hwalk]
  exact ⟨hg.stop, hg.digit⟩

theorem length_le_walk {s w : List Char} {d : Decimal} (h : d.WrittenAs w) (hs : w <+: s) :
    w.length ≤ (walk {} (kinds s)).stop ∧ (walk {} (kinds s)).digit = true := by
  obtain ⟨rest, rfl⟩ := hs
  obtain ⟨p, hword, hp⟩ := h.exists_parts rest
  obtain ⟨g, hrun, hg⟩ := runs_parts p
  have hstop := hg.stop
  rw [hword] at hrun hstop
  rw [hrun, ← hstop]
  exact ⟨(walk_le g _).1, (walk_le g _).2 (hg.digit.2 hp)⟩

end Sweep

/-- The text starts with the decimal, and with no longer one. -/
def Decimal.Leads (d : Decimal) (w s : List Char) : Prop :=
  d.WrittenAs w ∧ w <+: s ∧
    ∀ (other : Decimal) (longer : List Char), other.WrittenAs longer → longer <+: s → longer <+: w

theorem Decimal.WrittenAs.parse? {d : Decimal} {w : List Char} (h : d.WrittenAs w) :
    (Floating.parse? w : Option Single) = some d.toFloating := by
  simp [Floating.parse?, Decimal.parse?, h.scan?]

theorem Decimal.Leads.unique {d e : Decimal} {v w s : List Char} (hd : d.Leads v s)
    (he : e.Leads w s) : d = e ∧ v = w := by
  have hvw := he.2.2 d v hd.1 hd.2.1
  have hwv := hd.2.2 e w he.1 he.2.1
  obtain rfl := hvw.eq_of_length (Nat.le_antisymm hvw.length_le hwv.length_le)
  have hscan := he.1.scan?
  rw [hd.1.scan?] at hscan
  exact ⟨(Prod.mk.inj (Option.some.inj hscan)).1, rfl⟩

/-- The longest decimal that a text starts with, if it starts with one, is what scanning finds, and
ends where the pass over the bytes ends. -/
theorem exists_leads (s : List Char) : ∃ w rest, s = w ++ rest ∧
    (Sweep.walk {} (kinds s)).stop = (bytes (.ofList w)).length ∧
    ((Sweep.walk {} (kinds s)).digit = true →
      ∃ d : Decimal, d.Leads w s ∧ (Decimal.scan? s).map Prod.fst = some d) ∧
    ((Sweep.walk {} (kinds s)).digit = false →
      (∀ d w, Decimal.WrittenAs d w → ¬w <+: s) ∧ Decimal.scan? s = none) := by
  obtain ⟨c, hnone, hsome⟩ := Decimal.exists_cut s
  obtain ⟨hstop, hdigit⟩ := Sweep.walk_cut c
  have hbytes : (bytes (.ofList c.word)).length = c.word.length := by
    have hlength := length_kinds fun _ hc => ofCode_of_mem_word (p := c.toParts) hc
    rw [kinds, List.length_map] at hlength
    rw [bytes_eq, String.toList_ofList, hlength]
  refine ⟨c.word, c.rest, c.word_append.symm, hstop.trans hbytes.symm, fun h => ?_, fun h => ?_⟩
  · have hc := hdigit.1 h
    refine ⟨c.decimal, ⟨c.writtenAs hc, ⟨_, c.word_append⟩, fun d w hw hs => ?_⟩,
      by rw [hsome hc]; rfl⟩
    exact List.prefix_of_prefix_length_le hs ⟨_, c.word_append⟩
      (hstop ▸ (Sweep.length_le_walk hw hs).1)
  · refine ⟨fun d w hw hs => ?_, hnone fun hc => ?_⟩
    · rw [(Sweep.length_le_walk hw hs).2] at h
      cases h
    · rw [hdigit.2 hc] at h
      cases h

end Numeric

open Numeric ByteKind

/-- The number of a text is that of the longest decimal that it starts with, and there is one just
when it starts with a decimal. One pass over the bytes finds it: it ends between two characters, and
what it took can be read whenever it has seen a digit. -/
theorem leadingNumber?_longest (s : String) :
    ((leadingNumber? s).isSome = true ↔
      ∃ (d : Decimal) (w : List Char), d.WrittenAs w ∧ w <+: trimChars s.toList) ∧
    (∀ x, leadingNumber? s = some x ↔
      ∃ (d : Decimal) (w : List Char), d.Leads w (trimChars s.toList) ∧
        Floating.parse? w = some x ∧ x = d.toFloating) ∧
    ∃ w rest, trimChars s.toList = w ++ rest ∧
      (Sweep.ofText (trim s)).stop = (bytes (.ofList w)).length ∧
      ((Sweep.ofText (trim s)).digit = true →
        (Floating.parse? w : Option Single).isSome = true) ∧
      leadingNumber? s =
        if (Sweep.ofText (trim s)).digit then Floating.parse? w else none := by
  rw [Sweep.ofText_eq, trim, String.toList_ofList, leadingNumber?]
  generalize trimChars s.toList = t
  obtain ⟨w, rest, htext, hstop, hsome, hnone⟩ := exists_leads t
  cases hdigit : (Sweep.walk {} (kinds t)).digit with
  | false =>
    obtain ⟨hwritten, hscan⟩ := hnone hdigit
    have hread : (Floating.leading? t : Option Single) = none := by
      rw [Floating.leading?, hscan]
      rfl
    rw [hread]
    refine ⟨⟨nofun, fun ⟨d, v, hd, hv⟩ => absurd hv (hwritten d v hd)⟩, fun x => ⟨nofun, ?_⟩,
      w, rest, htext, hstop, nofun, rfl⟩
    rintro ⟨d, v, hd, -⟩
    exact absurd hd.2.1 (hwritten d v hd.1)
  | true =>
    obtain ⟨d, hleads, hscan⟩ := hsome hdigit
    have hread : (Floating.leading? t : Option Single) = some d.toFloating := by
      have hmap : (Floating.leading? t : Option Single) =
          ((Decimal.scan? t).map Prod.fst).map Decimal.toFloating := by
        rw [Floating.leading?, Option.map_map]
        rfl
      rw [hmap, hscan, Option.map_some]
    have hparse := hleads.1.parse?
    rw [hread]
    refine ⟨⟨fun _ => ⟨d, w, hleads.1, hleads.2.1⟩, fun _ => rfl⟩, fun x => ⟨fun hx => ?_, ?_⟩,
      w, rest, htext, hstop, fun _ => by rw [hparse]; rfl, hparse.symm⟩
    · exact ⟨d, w, hleads, hparse.trans hx, (Option.some.inj hx).symm⟩
    · rintro ⟨e, v, he, -, rfl⟩
      rw [(hleads.unique he).1]

example : (Sweep.ofText "-12.5e+px").stop = 5 := by decide

end MarkupScene
