import MarkupScene.Numeric.Arithmetic
import Mathlib.Data.Nat.Log
import Mathlib.Tactic.Linarith
import Mathlib.Tactic.Ring

/-!
# Rounding

The magnitude of a rank is a significand times a power of two, and the other way round each small
significand times a power of two is the magnitude of a rank. Rounding keeps the order of fractions
and is exact on the magnitudes of the format. The main statement is that a single becomes the same
single again on its way through the doubles.
-/
namespace MarkupScene.Numeric

theorem roundHalfEven_mul (n : Nat) {den : Nat} (hden : 0 < den) :
    roundHalfEven (n * den) den = n := by
  simp only [roundHalfEven, Nat.mul_div_cancel n hden, Nat.mul_mod_left, Nat.mul_zero, if_pos hden]

theorem roundHalfEven_mono {num num' : Nat} (h : num ≤ num') (den : Nat) :
    roundHalfEven num den ≤ roundHalfEven num' den := by
  have hq : num / den ≤ num' / den := Nat.div_le_div_right h
  have hnum := Nat.div_add_mod num den
  have hnum' := Nat.div_add_mod num' den
  simp only [roundHalfEven]
  rcases Nat.lt_or_eq_of_le hq with hlt | heq
  · split_ifs <;> omega
  · rw [heq] at hnum ⊢
    split_ifs <;> omega

namespace Format
variable {f : Format} {shift k rank den : Nat}

/-- A significand of the binade with the given shift. Only the lowest binade has significands
without the leading bit. -/
def Normal (f : Format) (shift k : Nat) : Prop :=
  k < 2 * 2 ^ f.fraction ∧ (shift = 0 ∨ 2 ^ f.fraction ≤ k)

theorem units_eq (f : Format) (rank : Nat) :
    f.units rank =
      if rank / 2 ^ f.fraction = 0 then rank % 2 ^ f.fraction
      else (2 ^ f.fraction + rank % 2 ^ f.fraction) * 2 ^ (rank / 2 ^ f.fraction - 1) := rfl

theorem units_of_normal (h : f.Normal shift k) :
    f.units (shift * 2 ^ f.fraction + k) = k * 2 ^ shift := by
  obtain ⟨hk, hnormal⟩ := h
  have hpos : 0 < 2 ^ f.fraction := Nat.two_pow_pos _
  rw [units_eq]
  rcases Nat.lt_or_ge k (2 ^ f.fraction) with hlow | hhigh
  · obtain rfl : shift = 0 := by omega
    rw [Nat.zero_mul, Nat.zero_add, Nat.div_eq_of_lt hlow, Nat.mod_eq_of_lt hlow, if_pos rfl,
      Nat.pow_zero, Nat.mul_one]
  · obtain ⟨offset, rfl⟩ := Nat.exists_eq_add_of_le hhigh
    have hoffset : offset < 2 ^ f.fraction := by omega
    have hrank : shift * 2 ^ f.fraction + (2 ^ f.fraction + offset) =
        offset + 2 ^ f.fraction * (shift + 1) := by ring
    rw [hrank, Nat.add_mul_div_left _ _ hpos, Nat.add_mul_mod_self_left, Nat.div_eq_of_lt hoffset,
      Nat.mod_eq_of_lt hoffset, Nat.zero_add, if_neg (Nat.succ_ne_zero shift), Nat.add_sub_cancel]

theorem exists_normal (f : Format) (rank : Nat) :
    ∃ shift k, f.Normal shift k ∧ rank = shift * 2 ^ f.fraction + k := by
  have hpos : 0 < 2 ^ f.fraction := Nat.two_pow_pos _
  have hmod := Nat.mod_lt rank hpos
  have hrank := Nat.div_add_mod rank (2 ^ f.fraction)
  cases hbinade : rank / 2 ^ f.fraction with
  | zero =>
    rw [hbinade] at hrank
    exact ⟨0, rank, ⟨by omega, .inl rfl⟩, by omega⟩
  | succ shift =>
    rw [hbinade, Nat.mul_succ, Nat.mul_comm] at hrank
    exact ⟨shift, 2 ^ f.fraction + rank % 2 ^ f.fraction,
      ⟨by omega, .inr (Nat.le_add_right ..)⟩, by omega⟩

theorem Normal.lt_top (h : f.Normal shift k) (hshift : shift + 3 ≤ 2 ^ f.exponent) :
    shift * 2 ^ f.fraction + k < f.top := by
  have htop : f.top = (2 ^ f.exponent - 1) * 2 ^ f.fraction := rfl
  have hle : (shift + 2) * 2 ^ f.fraction ≤ f.top := by
    rw [htop]
    exact Nat.mul_le_mul_right _ (by omega)
  have hk := h.1
  rw [Nat.add_mul] at hle
  omega

theorem exists_units_eq (hk : k < 2 * 2 ^ f.fraction) (hshift : shift + 3 ≤ 2 ^ f.exponent) :
    ∃ rank < f.top, f.units rank = k * 2 ^ shift := by
  induction shift generalizing k with
  | zero =>
    have hnormal : f.Normal 0 k := ⟨hk, .inl rfl⟩
    exact ⟨_, hnormal.lt_top hshift, units_of_normal hnormal⟩
  | succ shift ih =>
    rcases Nat.lt_or_ge k (2 ^ f.fraction) with hlow | hhigh
    · obtain ⟨rank, hrank, hunits⟩ := ih (k := 2 * k) (by omega) (by omega)
      refine ⟨rank, hrank, hunits.trans ?_⟩
      rw [Nat.pow_succ]
      ring
    · have hnormal : f.Normal (shift + 1) k := ⟨hk, .inr hhigh⟩
      exact ⟨_, hnormal.lt_top hshift, units_of_normal hnormal⟩

theorem nearest_val (f : Format) (num den : Nat) :
    (f.nearest num den).val =
      min (((num / den).log2 - f.fraction) * 2 ^ f.fraction +
        roundHalfEven num (den * 2 ^ ((num / den).log2 - f.fraction))) f.top := rfl

/-- A normal significand is cut where its shift says. -/
theorem Normal.log2 (h : f.Normal shift k) : (k * 2 ^ shift).log2 - f.fraction = shift := by
  obtain ⟨hk, hnormal⟩ := h
  rcases Nat.lt_or_ge k (2 ^ f.fraction) with hlow | hhigh
  · obtain rfl : shift = 0 := by omega
    rw [Nat.pow_zero, Nat.mul_one]
    rcases Nat.eq_zero_or_pos k with rfl | hpos
    · rw [Nat.log2_zero, Nat.zero_sub]
    · have hlog := (Nat.log2_lt hpos.ne').2 hlow
      omega
  · have hpos : k * 2 ^ shift ≠ 0 :=
      (Nat.mul_pos (lt_of_lt_of_le (Nat.two_pow_pos _) hhigh) (Nat.two_pow_pos _)).ne'
    have hlog : (k * 2 ^ shift).log2 = f.fraction + shift := by
      refine (Nat.log2_eq_iff hpos).2 ⟨?_, ?_⟩
      · rw [Nat.pow_add]
        exact Nat.mul_le_mul_right _ hhigh
      · rw [Nat.pow_succ, Nat.pow_add, Nat.mul_comm _ 2, ← Nat.mul_assoc]
        exact Nat.mul_lt_mul_of_pos_right hk (Nat.two_pow_pos _)
    omega

theorem nearest_units (hrank : rank < f.top) (hden : 0 < den) :
    (f.nearest (f.units rank * den) den).val = rank := by
  obtain ⟨shift, k, hnormal, rfl⟩ := f.exists_normal rank
  have hpos : 0 < den * 2 ^ shift := Nat.mul_pos hden (Nat.two_pow_pos _)
  have hnum : k * 2 ^ shift * den = k * (den * 2 ^ shift) := by ring
  rw [nearest_val, units_of_normal hnormal, Nat.mul_div_cancel _ hden, hnormal.log2, hnum,
    roundHalfEven_mul k hpos, Nat.min_eq_left hrank.le]

theorem lt_of_shift (num : Nat) (hden : 0 < den) :
    num < 2 * 2 ^ f.fraction * (den * 2 ^ ((num / den).log2 - f.fraction)) := by
  have hlog : num / den < 2 ^ (f.fraction + ((num / den).log2 - f.fraction) + 1) :=
    lt_of_lt_of_le Nat.lt_log2_self (Nat.pow_le_pow_right Nat.two_pos (by omega))
  have hnum := (Nat.div_lt_iff_lt_mul hden).1 hlog
  rw [Nat.pow_succ, Nat.pow_add] at hnum
  linarith

theorem le_of_shift (num : Nat) (hden : 0 < den) (hshift : 0 < (num / den).log2 - f.fraction) :
    2 ^ f.fraction * (den * 2 ^ ((num / den).log2 - f.fraction)) ≤ num := by
  have hne : num / den ≠ 0 := by
    intro h
    rw [h, Nat.log2_zero, Nat.zero_sub] at hshift
    exact hshift.ne' rfl
  have hlog : 2 ^ (f.fraction + ((num / den).log2 - f.fraction)) ≤ num / den := by
    rw [Nat.add_sub_of_le (by omega)]
    exact Nat.log2_self_le hne
  have hnum := (Nat.le_div_iff_mul_le hden).1 hlog
  rw [Nat.pow_add] at hnum
  linarith

/-- Rounding keeps the order. -/
theorem nearest_mono {num num' : Nat} (h : num ≤ num') (hden : 0 < den) :
    (f.nearest num den).val ≤ (f.nearest num' den).val := by
  have hlog : (num / den).log2 ≤ (num' / den).log2 := by
    rw [Nat.log2_eq_log_two, Nat.log2_eq_log_two]
    exact Nat.log_mono_right (Nat.div_le_div_right h)
  have hupper := lt_of_shift (f := f) num hden
  have hlower := le_of_shift (f := f) num' hden
  have hshifts := Nat.sub_le_sub_right hlog f.fraction
  rw [nearest_val, nearest_val]
  generalize (num / den).log2 - f.fraction = shift at hupper hshifts ⊢
  generalize (num' / den).log2 - f.fraction = shift' at hlower hshifts ⊢
  refine min_le_min_right _ ?_
  rcases Nat.lt_or_eq_of_le hshifts with hlt | rfl
  · -- The significand is at most twice the leading bit, and in a later binade it has that bit.
    have hm : roundHalfEven num (den * 2 ^ shift) ≤ 2 * 2 ^ f.fraction := by
      rw [← roundHalfEven_mul (2 * 2 ^ f.fraction) (Nat.mul_pos hden (Nat.two_pow_pos shift))]
      exact roundHalfEven_mono hupper.le _
    have hm' : 2 ^ f.fraction ≤ roundHalfEven num' (den * 2 ^ shift') := by
      rw [← roundHalfEven_mul (2 ^ f.fraction) (Nat.mul_pos hden (Nat.two_pow_pos shift'))]
      exact roundHalfEven_mono (hlower (by omega)) _
    calc shift * 2 ^ f.fraction + roundHalfEven num (den * 2 ^ shift)
        ≤ shift * 2 ^ f.fraction + 2 * 2 ^ f.fraction := Nat.add_le_add_left hm _
      _ = (shift + 1) * 2 ^ f.fraction + 2 ^ f.fraction := by ring
      _ ≤ shift' * 2 ^ f.fraction + roundHalfEven num' (den * 2 ^ shift') :=
        Nat.add_le_add (Nat.mul_le_mul_right _ hlt) hm'
  · exact Nat.add_le_add_left (roundHalfEven_mono h _) _

end Format

namespace Floating
variable {f g : Format} {negative : Bool}

theorem parts_signed {rank : Fin (f.top + 1)} (h : rank.val < f.top) :
    (signed negative rank).parts = .finite negative (f.units rank) :=
  if_neg h.ne

theorem isFinite_iff {x : Floating f} :
    x.isFinite = true ↔ ∃ negative rank, x = .signed negative rank ∧ rank.val < f.top := by
  constructor
  · intro h
    cases x with
    | nan => cases h
    | signed negative rank =>
      refine ⟨negative, rank, rfl, lt_of_le_of_ne (Nat.le_of_lt_succ rank.isLt) fun htop => ?_⟩
      rw [isFinite, parts, if_pos htop] at h
      cases h
  · rintro ⟨negative, rank, rfl, hrank⟩
    rw [isFinite, parts_signed hrank]

theorem convert_of_units {rank : Fin (f.top + 1)} {rank' : Fin (g.top + 1)}
    (hrank : rank.val < f.top) (hrank' : rank'.val < g.top) (hscale : 0 < f.scale)
    (h : f.units rank * g.scale = g.units rank' * f.scale) :
    (signed negative rank).convert = signed negative rank' := by
  unfold convert
  rw [parts_signed hrank]
  change signed negative (g.nearest (f.units rank * g.scale) f.scale) = _
  rw [h]
  exact congrArg _ (Fin.ext (Format.nearest_units hrank' hscale))

end Floating

theorem Format.scale_eq (f : Format) :
    f.scale = 2 ^ (2 ^ (f.exponent - 1) - 2 + f.fraction) := rfl

theorem Format.scale_pos (f : Format) : 0 < f.scale := Nat.two_pow_pos _

/-- How often a unit of the singles can be halved down to the unit of the doubles. -/
def widening : Nat := 925

theorem double_scale : Format.double.scale = Format.single.scale * 2 ^ widening := by
  have hexponents : 2 ^ (Format.double.exponent - 1) - 2 + Format.double.fraction =
      2 ^ (Format.single.exponent - 1) - 2 + Format.single.fraction + widening := rfl
  rw [Format.scale_eq, hexponents, Nat.pow_add, ← Format.scale_eq]

/-- A finite single goes through the doubles and back unchanged. -/
theorem Single.convert_convert {x : Single} (h : x.isFinite = true) :
    ((x.convert : Double).convert : Single) = x := by
  obtain ⟨negative, rank, rfl, hrank⟩ := Floating.isFinite_iff.1 h
  obtain ⟨shift, k, hnormal, hsum⟩ := Format.single.exists_normal rank
  have hk : k < 2 * 2 ^ Format.double.fraction :=
    lt_of_lt_of_le hnormal.1 (by decide)
  have hshift : shift + widening + 3 ≤ 2 ^ Format.double.exponent := by
    have hlast : rank.val < 255 * 2 ^ 23 := hrank
    have hrank : rank.val = shift * 2 ^ 23 + k := hsum
    change shift + 925 + 3 ≤ 2 ^ 11
    omega
  obtain ⟨wide, hwide, hunits⟩ := Format.exists_units_eq hk hshift
  have hsame : Format.single.units rank * Format.double.scale =
      Format.double.units wide * Format.single.scale := by
    rw [hsum, Format.units_of_normal hnormal, hunits, double_scale, Nat.pow_add]
    generalize 2 ^ widening = halvings
    ring
  have hdouble : (Floating.signed negative rank).convert =
      (Floating.signed negative ⟨wide, by omega⟩ : Double) :=
    Floating.convert_of_units hrank hwide Format.single.scale_pos hsame
  rw [hdouble]
  exact Floating.convert_of_units hwide hrank Format.double.scale_pos hsame.symm

end MarkupScene.Numeric
