import MarkupScene.Scene.Color
import Mathlib.Data.List.Induction
import Mathlib.Tactic.IntervalCases
import Mathlib.Tactic.SplitIfs

/-!
# Color literals

A number is written in a base as its digits, with any zeros before them and letters in either case.
Reading digits accepts exactly these texts. The main statement is that every way to write a color
after one of the marks is read as the color, whatever blanks stand around it, and that nothing else
is read but the same with a plus sign before the digits.
-/
namespace MarkupScene

namespace Text

variable {base acc n v : Nat} {c : Char} {s : List Char}

theorem toNat_toLower (c : Char) :
    c.toLower.toNat = if 65 ≤ c.toNat ∧ c.toNat ≤ 90 then c.toNat + 32 else c.toNat := by
  unfold Char.toLower
  have hrange : (c.val ≥ 'A'.val ∧ c.val ≤ 'Z'.val) ↔ 65 ≤ c.toNat ∧ c.toNat ≤ 90 := by
    rw [ge_iff_le, UInt32.le_iff_toNat_le, UInt32.le_iff_toNat_le]
    exact Iff.rfl
  by_cases h : 65 ≤ c.toNat ∧ c.toNat ≤ 90
  · rw [dif_pos (hrange.2 h), if_pos h]
    change (c.val + 32).toNat = c.val.toNat + 32
    have hsmall : c.val.toNat ≤ 90 := h.2
    rw [UInt32.toNat_add]
    change (c.val.toNat + 32) % 2 ^ 32 = _
    omega
  · rw [dif_neg (mt hrange.1 h), if_neg h]

theorem toNat_digitChar (hv : v < 16) :
    (Nat.digitChar v).toNat = if v < 10 then 48 + v else 87 + v := by
  interval_cases v <;> rfl

theorem digit?_eq (base : Nat) (c : Char) :
    digit? base c =
      let v :=
        if 48 ≤ c.toNat ∧ c.toNat ≤ 57 then c.toNat - 48
        else if 97 ≤ c.toNat ∧ c.toNat ≤ 102 then c.toNat - 97 + 10
        else if 65 ≤ c.toNat ∧ c.toNat ≤ 70 then c.toNat - 65 + 10
        else base
      if v < base then some v else none := by
  have hle : ∀ a b : Char, a ≤ b ↔ a.toNat ≤ b.toNat := fun a b => UInt32.le_iff_toNat_le
  unfold digit?
  simp only [Char.isDigit_iff_toNat, hle]
  rfl

theorem digit?_eq_some_iff (hbase : base ≤ 16) :
    digit? base c = some v ↔ v < base ∧ c.toLower = Nat.digitChar v := by
  rw [digit?_eq, ← Char.toNat_inj, toNat_toLower, Option.ite_none_right_eq_some, Option.some.injEq]
  constructor
  · rintro ⟨hlt, hv⟩
    rw [hv] at hlt
    refine ⟨hlt, ?_⟩
    rw [toNat_digitChar (by omega)]
    split_ifs at hv ⊢ <;> omega
  · rintro ⟨hlt, hv⟩
    rw [toNat_digitChar (by omega)] at hv
    split_ifs at hv ⊢ <;> omega

theorem digit?_toLower (hbase : base ≤ 16) (c : Char) : digit? base c.toLower = digit? base c := by
  have htwice : c.toLower.toLower = c.toLower := by
    rw [← Char.toNat_inj, toNat_toLower, toNat_toLower]
    split_ifs <;> omega
  ext v
  rw [digit?_eq_some_iff hbase, digit?_eq_some_iff hbase, htwice]

/-- The text is the number in the base: its digits, with any zeros before them and letters in either
case. -/
def Numeral (base n : Nat) (s : List Char) : Prop :=
  ∃ zeros, s.map Char.toLower = List.replicate zeros '0' ++ Nat.toDigits base n

theorem naturalFrom_map_toLower (hbase : base ≤ 16) (s : List Char) :
    naturalFrom base acc (s.map Char.toLower) = naturalFrom base acc s := by
  induction s generalizing acc with
  | nil => rfl
  | cons c rest ih =>
    rw [List.map_cons, naturalFrom, naturalFrom, digit?_toLower hbase]
    simp only [ih]

theorem naturalFrom_append (s t : List Char) :
    naturalFrom base acc (s ++ t) = (naturalFrom base acc s).bind fun n => naturalFrom base n t := by
  induction s generalizing acc with
  | nil => rfl
  | cons c rest ih =>
    rw [List.cons_append, naturalFrom, naturalFrom, Option.bind_assoc]
    simp only [ih]

theorem naturalFrom_singleton : naturalFrom base acc [c] = some n ↔
    ∃ v, digit? base c = some v ∧ acc * base + v = n := by
  simp [naturalFrom, Option.bind_eq_some_iff]

theorem naturalFrom_digitChar (hbase : base ≤ 16) (hv : v < base) :
    naturalFrom base acc [Nat.digitChar v] = some (acc * base + v) := by
  have hlower : (Nat.digitChar v).toLower = Nat.digitChar v := by
    have hsmall : v < 16 := by omega
    interval_cases v <;> rfl
  exact naturalFrom_singleton.2 ⟨v, (digit?_eq_some_iff hbase).2 ⟨hv, hlower⟩, rfl⟩

theorem naturalFrom_zeros (hbase : 1 < base) (zeros : Nat) :
    naturalFrom base 0 (List.replicate zeros '0') = some 0 := by
  induction zeros with
  | zero => rfl
  | succ zeros ih =>
    have hzero : digit? base '0' = some 0 := by simp [digit?_eq]; omega
    rw [List.replicate_succ, naturalFrom, hzero, Option.bind_some, Nat.zero_mul, ih]

theorem naturalFrom_toDigits (hone : 1 < base) (hbase : base ≤ 16) (n : Nat) :
    naturalFrom base 0 (Nat.toDigits base n) = some n := by
  induction n using Nat.strongRecOn with
  | ind n ih =>
    rw [Nat.toDigits_eq_if hone]
    split
    · next hlt => rw [naturalFrom_digitChar hbase hlt, Nat.zero_mul, Nat.zero_add]
    · next hge =>
      rw [naturalFrom_append, ih (n / base) (Nat.div_lt_self (by omega) hone), Option.bind_some,
        naturalFrom_digitChar hbase (Nat.mod_lt n (by omega)), Nat.div_add_mod']

theorem Numeral.ne_nil (h : Numeral base n s) : s ≠ [] := by
  rintro rfl
  obtain ⟨zeros, hs⟩ := h
  simp [Nat.toDigits_ne_nil] at hs

theorem Numeral.concat {m : Nat} (hone : 1 < base) (hbase : base ≤ 16) (h : Numeral base m s)
    (hv : digit? base c = some v) : Numeral base (m * base + v) (s ++ [c]) := by
  obtain ⟨zeros, hs⟩ := h
  obtain ⟨hlt, hc⟩ := (digit?_eq_some_iff hbase).1 hv
  rw [Numeral, List.map_append, hs, List.map_singleton, hc]
  rcases Nat.eq_zero_or_pos m with rfl | hpos
  · refine ⟨zeros + 1, ?_⟩
    rw [Nat.zero_mul, Nat.zero_add, Nat.toDigits_zero, Nat.toDigits_of_lt_base hlt,
      List.replicate_succ']
  · refine ⟨zeros, ?_⟩
    rw [Nat.mul_comm, ← Nat.toDigits_append_toDigits hone hpos hlt, Nat.toDigits_of_lt_base hlt,
      List.append_assoc]

theorem numeral_of_naturalFrom (hone : 1 < base) (hbase : base ≤ 16) (hne : s ≠ [])
    (h : naturalFrom base 0 s = some n) : Numeral base n s := by
  induction s using List.reverseRecOn generalizing n with
  | nil => exact absurd rfl hne
  | append_singleton s c ih =>
    rw [naturalFrom_append] at h
    obtain ⟨m, hm, h⟩ := Option.bind_eq_some_iff.1 h
    obtain ⟨v, hv, rfl⟩ := naturalFrom_singleton.1 h
    by_cases hs : s = []
    · subst hs
      obtain rfl := Option.some.inj hm
      obtain ⟨hlt, hc⟩ := (digit?_eq_some_iff hbase).1 hv
      refine ⟨0, ?_⟩
      rw [Nat.zero_mul, Nat.zero_add, Nat.toDigits_of_lt_base hlt, List.nil_append,
        List.map_singleton, hc]
      rfl
    · exact (ih hs hm).concat hone hbase hv

theorem natural?_eq_some_iff (hone : 1 < base) (hbase : base ≤ 16) :
    natural? base s = some n ↔ Numeral base n s := by
  rw [natural?]
  constructor
  · intro h
    split at h
    · cases h
    · next hne => exact numeral_of_naturalFrom hone hbase (by simpa using hne) h
  · intro h
    obtain ⟨zeros, hs⟩ := id h
    rw [if_neg (by simpa using h.ne_nil), ← naturalFrom_map_toLower hbase, hs, naturalFrom_append,
      naturalFrom_zeros hone, Option.bind_some, naturalFrom_toDigits hone hbase]

theorem digit?_of_naturalFrom (h : naturalFrom base acc s = some n) :
    ∀ c ∈ s, ∃ v, digit? base c = some v := by
  induction s generalizing acc with
  | nil => nofun
  | cons c rest ih =>
    rw [naturalFrom] at h
    obtain ⟨v, hv, hrest⟩ := Option.bind_eq_some_iff.1 h
    exact List.forall_mem_cons.2 ⟨⟨v, hv⟩, ih hrest⟩

theorem Numeral.digits (hone : 1 < base) (hbase : base ≤ 16) (h : Numeral base n s) :
    ∀ c ∈ s, ∃ v, digit? base c = some v := by
  have hread := (natural?_eq_some_iff hone hbase).2 h
  rw [natural?, if_neg (by simpa using h.ne_nil)] at hread
  exact digit?_of_naturalFrom hread

theorem isBlank_of_digit? (h : digit? base c = some v) (hbase : base ≤ 16) : isBlank c = false := by
  obtain ⟨hlt, hc⟩ := (digit?_eq_some_iff hbase).1 h
  rw [← Char.toNat_inj, toNat_toLower, toNat_digitChar (by omega)] at hc
  simp only [isBlank, blankRanges, List.any_cons, List.any_nil, Bool.or_false, Bool.or_eq_false_iff,
    Bool.and_eq_false_iff, decide_eq_false_iff_not]
  split_ifs at hc <;> omega

/-- A word is a number of four bytes, with a plus sign or without. -/
theorem word?_eq_some_iff (hone : 1 < base) (hbase : base ≤ 16) :
    word? base s = some n ↔ n < 2 ^ 32 ∧
      ∃ sign digits, (sign = [] ∨ sign = ['+']) ∧ s = sign ++ digits ∧ Numeral base n digits := by
  have hplus : ∀ rest, ¬Numeral base n ('+' :: rest) := by
    intro rest h
    obtain ⟨v, hv⟩ := h.digits hone hbase '+' List.mem_cons_self
    simp [digit?_eq] at hv
  unfold word?
  rw [Option.filter_eq_some_iff, natural?_eq_some_iff hone hbase, decide_eq_true_eq, and_comm]
  refine and_congr_right fun _ => ?_
  split
  · next rest =>
    constructor
    · exact fun h => ⟨['+'], rest, .inr rfl, rfl, h⟩
    · rintro ⟨sign, digits, rfl | rfl, hs, h⟩
      · rw [List.nil_append] at hs
        exact absurd (hs ▸ h) (hplus rest)
      · rw [(List.cons.inj hs).2]
        exact h
  · next hsigned =>
    constructor
    · exact fun h => ⟨[], s, .inl rfl, rfl, h⟩
    · rintro ⟨sign, digits, rfl | rfl, rfl, h⟩
      · exact h
      · exact absurd rfl (hsigned digits)

end Text

namespace Color

open Text

/-- The number of a color without its opacity. -/
def number (c : Color) : Nat := c.red.toNat * 0x10000 + c.green.toNat * 0x100 + c.blue.toNat

theorem ofNumber_eq_iff {n : Nat} {c : Color} :
    ofNumber n = c ↔ c.number = n % 2 ^ 24 ∧ c.alpha = 255 := by
  obtain ⟨r, g, b, a⟩ := c
  have hr := r.toNat_lt
  have hg := g.toNat_lt
  have hb := b.toNat_lt
  simp only [ofNumber, number, Color.mk.injEq, ← UInt8.toNat_inj, UInt8.toNat_ofNat']
  change _ ↔ _ ∧ a.toNat = 255
  change _ ∧ _ ∧ _ ∧ 255 = a.toNat ↔ _
  omega

/-- The marks of a literal, with the base that each announces. -/
def marks : List (List Char × Nat) := [([], 10), (['0', 'x'], 16), (['0', 'X'], 16), (['#'], 16)]

/-- The text is a literal for a number, with a sign between the mark and the digits. -/
def Literal (sign : List Char) (n : Nat) (s : List Char) : Prop :=
  ∃ mark base digits, (mark, base) ∈ marks ∧ s = mark ++ sign ++ digits ∧ Numeral base n digits

theorem hexadecimal?_eq_some_iff {t digits : List Char} :
    hexadecimal? t = some digits ↔ ∃ mark, (mark, 16) ∈ marks ∧ t = mark ++ digits := by
  unfold hexadecimal?
  split
  · simp [marks, eq_comm]
  · simp [marks, eq_comm]
  · simp [marks, eq_comm]
  · next hlower hupper hhash =>
    refine iff_of_false nofun ?_
    simp only [marks, List.mem_cons, Prod.mk.injEq, List.not_mem_nil, or_false]
    rintro ⟨mark, (⟨-, h⟩ | ⟨rfl, -⟩ | ⟨rfl, -⟩ | ⟨rfl, -⟩), rfl⟩
    · cases h
    · exact hlower digits rfl
    · exact hupper digits rfl
    · exact hhash digits rfl

/-- A decimal number does not begin like a mark. -/
theorem hexadecimal?_decimal {sign digits : List Char} {n : Nat} (hsign : sign = [] ∨ sign = ['+'])
    (h : Numeral 10 n digits) : hexadecimal? (sign ++ digits) = none := by
  have hdigits := h.digits (by decide) (by decide)
  have hx : 'x' ∉ digits := fun hmem => by simpa [digit?_eq] using hdigits _ hmem
  have hX : 'X' ∉ digits := fun hmem => by simpa [digit?_eq] using hdigits _ hmem
  have hhash : '#' ∉ digits := fun hmem => by simpa [digit?_eq] using hdigits _ hmem
  cases hmark : hexadecimal? (sign ++ digits) with
  | none => rfl
  | some rest =>
    obtain ⟨mark, hmark, htext⟩ := hexadecimal?_eq_some_iff.1 hmark
    simp only [marks, List.mem_cons, Prod.mk.injEq, List.not_mem_nil, or_false] at hmark
    have hfree : 'x' ∉ sign ++ digits ∧ 'X' ∉ sign ++ digits ∧ '#' ∉ sign ++ digits := by
      rcases hsign with rfl | rfl <;> simp [hx, hX, hhash]
    rw [htext] at hfree
    rcases hmark with ⟨-, h⟩ | ⟨rfl, -⟩ | ⟨rfl, -⟩ | ⟨rfl, -⟩
    · cases h
    · simp at hfree
    · simp at hfree
    · simp at hfree

/-- What is read as a number, after trimming. -/
theorem parse?_eq_some_iff {s : String} {c : Color} : parse? s = some c ↔
    ∃ sign n, (sign = [] ∨ sign = ['+']) ∧ Literal sign n (trimChars s.toList) ∧ n < 2 ^ 32 ∧
      ofNumber n = c := by
  rw [parse?, Option.map_eq_some_iff]
  generalize trimChars s.toList = t
  constructor
  · rintro ⟨n, hn, rfl⟩
    cases hstart : hexadecimal? t with
    | some rest =>
      rw [hstart] at hn
      obtain ⟨mark, hmark, rfl⟩ := hexadecimal?_eq_some_iff.1 hstart
      obtain ⟨hlt, sign, digits, hsign, rfl, h⟩ :=
        (word?_eq_some_iff (by decide) (by decide)).1 hn
      exact ⟨sign, n, hsign, ⟨mark, 16, digits, hmark, (List.append_assoc ..).symm, h⟩, hlt, rfl⟩
    | none =>
      rw [hstart] at hn
      obtain ⟨hlt, sign, digits, hsign, rfl, h⟩ :=
        (word?_eq_some_iff (by decide) (by decide)).1 hn
      exact ⟨sign, n, hsign, ⟨[], 10, digits, List.mem_cons_self, rfl, h⟩, hlt, rfl⟩
  · rintro ⟨sign, n, hsign, ⟨mark, base, digits, hmark, rfl, h⟩, hlt, rfl⟩
    refine ⟨n, ?_, rfl⟩
    rcases List.mem_cons.1 hmark with hdecimal | hmarked
    · obtain ⟨rfl, rfl⟩ := Prod.mk.inj hdecimal
      rw [List.nil_append, hexadecimal?_decimal hsign h]
      exact (word?_eq_some_iff (by decide) (by decide)).2 ⟨hlt, sign, digits, hsign, rfl, h⟩
    · obtain rfl : base = 16 := by
        simp only [List.mem_cons, Prod.mk.injEq, List.not_mem_nil, or_false] at hmarked
        rcases hmarked with ⟨-, h⟩ | ⟨-, h⟩ | ⟨-, h⟩ <;> exact h
      rw [hexadecimal?_eq_some_iff.2 ⟨mark, hmark, List.append_assoc ..⟩]
      exact (word?_eq_some_iff (by decide) (by decide)).2 ⟨hlt, sign, digits, hsign, rfl, h⟩

/-- Nothing of a literal without a sign is blank. -/
theorem Literal.not_blank {n : Nat} {s : List Char} (h : Literal [] n s) :
    s ≠ [] ∧ ∀ c ∈ s, isBlank c = false ∧ c ≠ '+' := by
  obtain ⟨mark, base, digits, hmark, rfl, hdigits⟩ := h
  have hbase : 1 < base ∧ base ≤ 16 := by
    simp only [marks, List.mem_cons, Prod.mk.injEq, List.not_mem_nil, or_false] at hmark
    omega
  have hall : ∀ c ∈ digits, isBlank c = false ∧ c ≠ '+' := by
    intro c hc
    obtain ⟨v, hv⟩ := hdigits.digits hbase.1 hbase.2 c hc
    refine ⟨isBlank_of_digit? hv hbase.2, ?_⟩
    rintro rfl
    simp [digit?_eq] at hv
  have hmarked : ∀ c ∈ mark, isBlank c = false ∧ c ≠ '+' := by
    intro c hc
    have hcheck : (marks.all fun m => m.1.all fun d => !isBlank d && d != '+') = true := by decide
    have hplain := List.all_eq_true.1 (List.all_eq_true.1 hcheck _ hmark) c hc
    simpa using hplain
  rw [List.append_nil]
  exact ⟨List.append_ne_nil_of_right_ne_nil _ hdigits.ne_nil,
    List.forall_mem_append.2 ⟨hmarked, hall⟩⟩

theorem Literal.sign_mem {n : Nat} {s : List Char} {c : Char} (h : Literal [c] n s) : c ∈ s := by
  obtain ⟨mark, base, digits, -, rfl, -⟩ := h
  simp

theorem Literal.trimmed {n : Nat} {s : List Char} (h : Literal [] n s) : Trimmed s :=
  ⟨fun c hc => (h.not_blank.2 c (List.mem_of_head? hc)).1,
    fun c hc => (h.not_blank.2 c (List.mem_of_getLast? hc)).1⟩

/-- Every literal for a color is read as the color, with any blanks around it. What is read as a
color is a mark, a plus sign or none, and digits of a number below `2 ^ 32`, whose low three bytes
are the color. Where there is no plus sign, it is a literal. -/
theorem literals_read (s : String) (c : Color) :
    (∀ (r g b : UInt8) (before literal after : List Char),
      s = .ofList (before ++ literal ++ after) →
      Literal [] (r.toNat * 0x10000 + g.toNat * 0x100 + b.toNat) literal →
      (∀ d ∈ before, isBlank d = true) → (∀ d ∈ after, isBlank d = true) →
        parse? s = some ⟨r, g, b, 255⟩) ∧
    (parse? s = some c ↔
      ∃ sign n, (sign = [] ∨ sign = ['+']) ∧ Literal sign n (trimChars s.toList) ∧ n < 2 ^ 32 ∧
        c.number = n % 2 ^ 24 ∧ c.alpha = 255) ∧
    ('+' ∉ s.toList → (parse? s = some c ↔
      ∃ n, Literal [] n (trimChars s.toList) ∧ n < 2 ^ 32 ∧
        c.number = n % 2 ^ 24 ∧ c.alpha = 255)) := by
  have hread : parse? s = some c ↔
      ∃ sign n, (sign = [] ∨ sign = ['+']) ∧ Literal sign n (trimChars s.toList) ∧ n < 2 ^ 32 ∧
        c.number = n % 2 ^ 24 ∧ c.alpha = 255 := by
    simp only [parse?_eq_some_iff, ofNumber_eq_iff]
  refine ⟨?_, hread, fun hplus => hread.trans ⟨?_, ?_⟩⟩
  · rintro r g b before literal after rfl hliteral hbefore hafter
    have hr := r.toNat_lt
    have hg := g.toNat_lt
    have hb := b.toNat_lt
    have htrim : trimChars (String.ofList (before ++ literal ++ after)).toList = literal := by
      rw [String.toList_ofList,
        trimChars_surrounded hliteral.trimmed hliteral.not_blank.1 hbefore hafter]
    have hsmall : r.toNat * 0x10000 + g.toNat * 0x100 + b.toNat < 2 ^ 24 := by omega
    have hnumber : ofNumber (r.toNat * 0x10000 + g.toNat * 0x100 + b.toNat) = ⟨r, g, b, 255⟩ :=
      ofNumber_eq_iff.2 ⟨(Nat.mod_eq_of_lt hsmall).symm, rfl⟩
    exact parse?_eq_some_iff.2 ⟨[], _, .inl rfl, by rwa [htrim], by omega, hnumber⟩
  · rintro ⟨sign, n, rfl | rfl, hliteral, hn⟩
    · exact ⟨n, hliteral, hn⟩
    · exact absurd (mem_of_mem_trimChars hliteral.sign_mem) hplus
  · rintro ⟨n, hliteral, hn⟩
    exact ⟨[], n, .inl rfl, hliteral, hn⟩

example : parse? "\u3000#00fF8800 " = some ⟨255, 136, 0, 255⟩ := by decide +kernel

/-- A plus sign before the digits is read over. -/
theorem plus_sign_read :
    parse? "0x+ff8800" = some ⟨255, 136, 0, 255⟩ ∧ parse? "+16746496" = some ⟨255, 136, 0, 255⟩ ∧
      ∀ n, ¬Literal [] n (trimChars "0x+ff8800".toList) ∧
        ¬Literal [] n (trimChars "+16746496".toList) := by
  refine ⟨by decide +kernel, by decide +kernel, fun n => ⟨fun h => ?_, fun h => ?_⟩⟩
  · exact (h.not_blank.2 '+' (by decide +kernel)).2 rfl
  · exact (h.not_blank.2 '+' (by decide +kernel)).2 rfl

end Color

end MarkupScene
