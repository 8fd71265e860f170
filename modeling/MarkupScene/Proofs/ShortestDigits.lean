import MarkupScene.Numeric.Shortest
import MarkupScene.Proofs.Rounding
import Mathlib.Algebra.Order.Field.Power
import Mathlib.Algebra.Order.Field.Rat
import Mathlib.Tactic.FieldSimp
import Mathlib.Tactic.Positivity

/-!
# Shortest digits

The search for the digits of a number goes from coarse grids to fine ones. The main statement is
that it ends at a decimal in the interval of the number: the finest grid has a step of less than half
the way to the neighbouring magnitude, so that one of its points is in the interval, and no grid gives
a point outside of it.
-/
namespace MarkupScene.Numeric

namespace Format

/-- The way to the next magnitude is a two-power, and the next is at most so many of them as there
are significands. -/
theorem exists_gap (f : Format) (rank : Nat) :
    ∃ gap, 0 < gap ∧ f.units (rank + 1) = f.units rank + gap ∧
      f.units (rank + 1) ≤ gap * 2 ^ (f.fraction + 1) := by
  obtain ⟨shift, k, hnormal, rfl⟩ := f.exists_normal rank
  have hnext : f.units (shift * 2 ^ f.fraction + k + 1) = (k + 1) * 2 ^ shift := by
    rcases Nat.lt_or_ge (k + 1) (2 * 2 ^ f.fraction) with hlow | hhigh
    · have hnormal' : f.Normal shift (k + 1) := ⟨hlow, hnormal.2.imp_right fun h => by omega⟩
      exact units_of_normal hnormal'
    · -- The next binade begins.
      have hk : k + 1 = 2 * 2 ^ f.fraction := by
        have := hnormal.1
        omega
      have hpos : 0 < 2 ^ f.fraction := Nat.two_pow_pos _
      have hnormal' : f.Normal (shift + 1) (2 ^ f.fraction) := ⟨by omega, .inr le_rfl⟩
      have hrank : shift * 2 ^ f.fraction + k + 1 =
          (shift + 1) * 2 ^ f.fraction + 2 ^ f.fraction := by
        rw [Nat.add_assoc, hk]
        ring
      rw [hrank, units_of_normal hnormal', hk]
      ring
  refine ⟨2 ^ shift, Nat.two_pow_pos _, ?_, ?_⟩
  · rw [hnext, units_of_normal hnormal]
    ring
  · rw [hnext, Nat.mul_comm, Nat.pow_succ, Nat.mul_comm (2 ^ f.fraction)]
    exact Nat.mul_le_mul_left _ hnormal.1

theorem units_lt_succ (f : Format) (rank : Nat) : f.units rank < f.units (rank + 1) := by
  obtain ⟨gap, hgap, hnext, -⟩ := f.exists_gap rank
  omega

end Format

namespace Digits
variable {f : Format} {tiesToEven : Bool} {rank : Nat} {exponent : Int}

def value (d : Digits) : ℚ := d.significand * 10 ^ d.exponent

/-- The decimals that read back as a rank lie between the middles to its neighbours. -/
def Within (f : Format) (rank : Nat) (d : Digits) : Prop :=
  (f.units (rank - 1) + f.units rank : ℚ) ≤ 2 * d.value * f.scale ∧
    2 * d.value * f.scale ≤ (f.units rank + f.units (rank + 1) : ℚ)

theorem step_spec (exponent : Int) :
    0 < (step exponent).2 ∧ ((step exponent).1 : ℚ) = 10 ^ exponent * (step exponent).2 := by
  cases exponent with
  | ofNat e => exact ⟨Nat.one_pos, by simp [step]⟩
  | negSucc e =>
    refine ⟨Nat.pow_pos (by decide), ?_⟩
    simp [step, zpow_negSucc]

theorem within_iff {point : Nat} :
    Within f rank ⟨point, exponent⟩ ↔
      (f.units (rank - 1) + f.units rank) * (step exponent).2 ≤
          2 * point * ((step exponent).1 * f.scale) ∧
        2 * point * ((step exponent).1 * f.scale) ≤
          (f.units rank + f.units (rank + 1)) * (step exponent).2 := by
  obtain ⟨hdown, hup⟩ := step_spec exponent
  have hdown' : (0 : ℚ) < (step exponent).2 := by exact_mod_cast hdown
  have hpoint : (2 * point * ((step exponent).1 * f.scale) : ℚ) =
      2 * (Digits.mk point exponent).value * f.scale * (step exponent).2 := by
    rw [hup, value]
    ring
  refine and_congr ?_ ?_
  · rw [← mul_le_mul_iff_left₀ hdown', ← hpoint]
    norm_cast
  · rw [← mul_le_mul_iff_left₀ hdown', ← hpoint]
    norm_cast

/-- Whether a point of a grid reads back. The ends of the interval do when the rank is even. -/
def readsBack (f : Format) (rank : Nat) (exponent : Int) (point : Nat) : Bool :=
  let p := 2 * point * ((step exponent).1 * f.scale)
  let low := (f.units (rank - 1) + f.units rank) * (step exponent).2
  let high := (f.units rank + f.units (rank + 1)) * (step exponent).2
  if rank % 2 = 0 then low ≤ p ∧ p ≤ high else low < p ∧ p < high

/-- The point of a grid just below a number. -/
def lower (f : Format) (rank : Nat) (exponent : Int) : Nat :=
  f.units rank * (step exponent).2 / ((step exponent).1 * f.scale)

theorem onGrid?_eq (f : Format) (tiesToEven : Bool) (rank : Nat) (exponent : Int) :
    onGrid? f tiesToEven rank exponent =
      match readsBack f rank exponent (lower f rank exponent),
          readsBack f rank exponent (lower f rank exponent + 1) with
      | true, true => some (nearer tiesToEven (f.units rank * (step exponent).2)
          ((step exponent).1 * f.scale) (lower f rank exponent))
      | true, false => some (lower f rank exponent)
      | false, true => some (lower f rank exponent + 1)
      | false, false => none := rfl

theorem within_of_readsBack {point : Nat} (h : readsBack f rank exponent point = true) :
    Within f rank ⟨point, exponent⟩ := by
  rw [within_iff]
  unfold readsBack at h
  dsimp only at h
  split at h
  · exact of_decide_eq_true h
  · have hstrict := of_decide_eq_true h
    exact ⟨hstrict.1.le, hstrict.2.le⟩

theorem nearer_cases (tiesToEven : Bool) (num den low : Nat) :
    nearer tiesToEven num den low = low ∨ nearer tiesToEven num den low = low + 1 := by
  unfold nearer
  dsimp only
  split_ifs
  · exact .inl rfl
  · exact .inr rfl
  · omega
  · exact .inr rfl

theorem onGrid?_within {point : Nat} (h : onGrid? f tiesToEven rank exponent = some point) :
    Within f rank ⟨point, exponent⟩ := by
  apply within_of_readsBack
  rw [onGrid?_eq] at h
  split at h
  · next hlower hupper =>
    obtain rfl := Option.some.inj h
    rcases nearer_cases tiesToEven (f.units rank * (step exponent).2)
      ((step exponent).1 * f.scale) (lower f rank exponent) with hsame | hnext
    · rw [hsame, hlower]
    · rw [hnext, hupper]
  · next hlower _ => rw [← Option.some.inj h, hlower]
  · next _ hupper => rw [← Option.some.inj h, hupper]
  · cases h

theorem readsBack_of_lt {point : Nat}
    (hlow : (f.units (rank - 1) + f.units rank) * (step exponent).2 <
      2 * point * ((step exponent).1 * f.scale))
    (hhigh : 2 * point * ((step exponent).1 * f.scale) <
      (f.units rank + f.units (rank + 1)) * (step exponent).2) :
    readsBack f rank exponent point = true := by
  unfold readsBack
  dsimp only
  split
  · exact decide_eq_true ⟨hlow.le, hhigh.le⟩
  · exact decide_eq_true ⟨hlow, hhigh⟩

/-- A grid with a step of at most half the way to the magnitude below has a point. -/
theorem onGrid?_isSome {gap : Nat} (hgap : f.units (rank + 1) = f.units rank + gap)
    (hstep : 2 * ((step exponent).1 * f.scale) ≤ gap * (step exponent).2) :
    (onGrid? f tiesToEven (rank + 1) exponent).isSome = true := by
  obtain ⟨hdown, hup⟩ := step_spec exponent
  have hlower : readsBack f (rank + 1) exponent (lower f (rank + 1) exponent) = true := by
    have hunit : 0 < (step exponent).1 * f.scale := by
      refine Nat.mul_pos ?_ f.scale_pos
      have hpos : (0 : ℚ) < (step exponent).1 := by
        rw [hup]
        exact mul_pos (zpow_pos (by decide) _) (by exact_mod_cast hdown)
      exact_mod_cast hpos
    have hnext := Nat.mul_lt_mul_of_pos_right (f.units_lt_succ (rank + 1)) hdown
    have hbelow := Nat.div_mul_le_self (f.units (rank + 1) * (step exponent).2)
      ((step exponent).1 * f.scale)
    have habove := Nat.lt_div_mul_add (a := f.units (rank + 1) * (step exponent).2) hunit
    rw [← lower] at hbelow habove
    apply readsBack_of_lt
    · rw [Nat.add_sub_cancel, Nat.add_mul, Nat.mul_assoc]
      rw [hgap, Nat.add_mul] at habove ⊢
      omega
    · rw [Nat.add_mul, Nat.mul_assoc]
      omega
  rw [onGrid?_eq, hlower]
  cases readsBack f (rank + 1) exponent (lower f (rank + 1) exponent + 1) <;> rfl

theorem search_within {count : Nat}
    (hlast : (onGrid? f tiesToEven rank (exponent - count)).isSome = true) :
    Within f rank (search f tiesToEven rank exponent count) := by
  induction count generalizing exponent with
  | zero =>
    obtain ⟨point, hpoint⟩ := Option.isSome_iff_exists.1 hlast
    rw [Nat.cast_zero, sub_zero] at hpoint
    rw [search, hpoint]
    exact onGrid?_within hpoint
  | succ count ih =>
    rw [search]
    split
    · next hpoint => exact onGrid?_within hpoint
    · apply ih
      rwa [sub_sub, add_comm (1 : Int), ← Nat.cast_succ]

theorem value_strip (fuel : Nat) (d : Digits) : (d.strip fuel).value = d.value := by
  induction fuel generalizing d with
  | zero => rfl
  | succ fuel ih =>
    rw [strip]
    split
    · next htens =>
      rw [ih]
      obtain ⟨n, hn⟩ := Nat.dvd_of_mod_eq_zero htens
      rw [value, value, hn, Nat.mul_div_cancel_left _ (by decide), zpow_add₀ (by decide)]
      push_cast
      ring
    · rfl

theorem pow_digitCount_le {n : Nat} (hn : 0 < n) : 10 ^ (Decimal.digitCount n - 1) ≤ n := by
  rw [Decimal.digitCount, if_neg hn.ne']
  by_contra hlt
  rw [not_le] at hlt
  have hlength : 0 < (Nat.toDigits 10 n).length := Nat.length_toDigits_pos
  rcases Nat.eq_zero_or_pos ((Nat.toDigits 10 n).length - 1) with hone | hmore
  · rw [hone] at hlt
    omega
  · have hle := (Nat.length_toDigits_le_iff (by decide) hmore).2 hlt
    omega

/-- The first grid is not coarser than the number. -/
theorem leadingExponent_le (f : Format) {units : Nat} (hunits : 0 < units) :
    (10 : ℚ) ^ leadingExponent f units * f.scale ≤ units := by
  have hscale := f.scale_pos
  -- So many places make every number at least one.
  have hplaces : f.scale ≤ 10 ^ (f.scale.log2 / 3 + 1) := calc
    f.scale ≤ 2 ^ (f.scale.log2 + 1) := Nat.lt_log2_self.le
    _ ≤ 2 ^ (3 * (f.scale.log2 / 3 + 1)) := Nat.pow_le_pow_right Nat.two_pos (by omega)
    _ = 8 ^ (f.scale.log2 / 3 + 1) := Nat.pow_mul ..
    _ ≤ 10 ^ (f.scale.log2 / 3 + 1) := Nat.pow_le_pow_left (by decide) _
  unfold leadingExponent
  dsimp only
  generalize f.scale.log2 / 3 + 1 = places at hplaces ⊢
  have hfound : 0 < units * 10 ^ places / f.scale :=
    Nat.div_pos (hplaces.trans (Nat.le_mul_of_pos_left _ hunits)) hscale
  have hdigits := (Nat.le_div_iff_mul_le hscale).1 (pow_digitCount_le hfound)
  have hcount : 0 < Decimal.digitCount (units * 10 ^ places / f.scale) := by
    rw [Decimal.digitCount, if_neg hfound.ne']
    exact Nat.length_toDigits_pos
  change (10 : ℚ) ^ ((Decimal.digitCount (units * 10 ^ places / f.scale) : Int) - 1 - places) *
    f.scale ≤ units
  generalize Decimal.digitCount (units * 10 ^ places / f.scale) = count at hdigits hcount
  rw [show (count : Int) - 1 - places = ((count - 1 : Nat) : Int) - (places : Nat) by omega,
    zpow_sub₀ (by decide), zpow_natCast, zpow_natCast, div_mul_eq_mul_div,
    div_le_iff₀ (by positivity)]
  exact_mod_cast hdigits

/-- The step of the last grid is at most half the way to the magnitude below. -/
theorem last_step_le (f : Format) {gap units : Nat} (hunits : 0 < units)
    (hwide : units ≤ gap * 2 ^ (f.fraction + 1)) :
    let last := leadingExponent f units - (f.fraction / 3 + 2 : Nat)
    2 * ((step last).1 * f.scale) ≤ gap * (step last).2 := by
  intro last
  obtain ⟨hdown, hup⟩ := step_spec last
  have hpow : 2 ^ (f.fraction + 2) ≤ 10 ^ (f.fraction / 3 + 2) := calc
    2 ^ (f.fraction + 2) ≤ 2 ^ (3 * (f.fraction / 3 + 2)) :=
      Nat.pow_le_pow_right Nat.two_pos (by omega)
    _ = 8 ^ (f.fraction / 3 + 2) := Nat.pow_mul ..
    _ ≤ 10 ^ (f.fraction / 3 + 2) := Nat.pow_le_pow_left (by decide) _
  have hwide' : 2 * units ≤ gap * 2 ^ (f.fraction + 2) := by
    rw [Nat.pow_succ, ← Nat.mul_assoc]
    omega
  have hten : (0 : ℚ) < 10 ^ (f.fraction / 3 + 2) := by positivity
  have hlast : (10 : ℚ) ^ last * 10 ^ (f.fraction / 3 + 2) = 10 ^ leadingExponent f units := by
    rw [← zpow_natCast, ← zpow_add₀ (by decide)]
    congr 1
    omega
  have hgap : 2 * ((10 : ℚ) ^ last * f.scale) ≤ gap := by
    rw [← mul_le_mul_iff_left₀ hten]
    calc 2 * ((10 : ℚ) ^ last * f.scale) * 10 ^ (f.fraction / 3 + 2)
        = 2 * (10 ^ leadingExponent f units * f.scale) := by rw [← hlast]; ring
      _ ≤ 2 * units := by linarith [leadingExponent_le f hunits]
      _ ≤ gap * 2 ^ (f.fraction + 2) := by exact_mod_cast hwide'
      _ ≤ gap * 10 ^ (f.fraction / 3 + 2) := by
        exact_mod_cast Nat.mul_le_mul_left gap hpow
  have hdown' : (0 : ℚ) < (step last).2 := by exact_mod_cast hdown
  have hcast : (2 * ((step last).1 * f.scale) : ℚ) ≤ gap * (step last).2 := by
    rw [hup]
    calc 2 * ((10 : ℚ) ^ last * (step last).2 * f.scale)
        = 2 * ((10 : ℚ) ^ last * f.scale) * (step last).2 := by ring
      _ ≤ gap * (step last).2 := mul_le_mul_of_nonneg_right hgap hdown'.le
  exact_mod_cast hcast

theorem ofRank_within (f : Format) (tiesToEven : Bool) (rank : Nat) :
    Within f (rank + 1) (ofRank f tiesToEven (rank + 1)) := by
  obtain ⟨gap, -, hgap, hwide⟩ := f.exists_gap rank
  have hunits : 0 < f.units (rank + 1) := Nat.zero_lt_of_lt (f.units_lt_succ rank)
  unfold ofRank Within
  dsimp only
  rw [value_strip]
  exact search_within (onGrid?_isSome hgap (last_step_le f hunits hwide))

theorem ofRank_pos (f : Format) (tiesToEven : Bool) (rank : Nat) :
    0 < (ofRank f tiesToEven (rank + 1)).significand := by
  by_contra hzero
  have hlow := (ofRank_within f tiesToEven rank).1
  rw [value, Nat.eq_zero_of_not_pos hzero] at hlow
  have hunits : (0 : ℚ) < f.units (rank + 1) := by
    exact_mod_cast Nat.zero_lt_of_lt (f.units_lt_succ rank)
  have hbelow : (0 : ℚ) ≤ f.units (rank + 1 - 1) := Nat.cast_nonneg _
  simp only [Nat.cast_zero, zero_mul, mul_zero] at hlow
  linarith

end Digits

end MarkupScene.Numeric
