import MarkupScene.Proofs.Magnitudes
import Mathlib.Algebra.Order.Field.Basic
import Mathlib.Algebra.Order.Ring.Rat
import Mathlib.Tactic.FieldSimp
import Mathlib.Tactic.Positivity

/-!
# Exact arithmetic

A finite number stands for a fraction. Each operation rounds the exact result, so that it is the
exact result when that is a number of the format. What holds of a calculation with fractions then
holds of the numbers themselves, as long as no step is rounded.
-/
namespace MarkupScene.Numeric.Floating

variable {f : Format} {x y : Floating f} {a b : ℚ}

def sign (negative : Bool) : ℚ := if negative then -1 else 1

/-- A magnitude in units with its sign. -/
def valueOf (f : Format) (negative : Bool) (m : Nat) : ℚ := sign negative * (m / f.scale)

/-- The value of a finite number. -/
def value? (x : Floating f) : Option ℚ :=
  match x.parts with
  | .finite negative m => some (valueOf f negative m)
  | _ => none

/-- The value, or zero for an infinity and for not-a-number. -/
def value (x : Floating f) : ℚ := x.value?.getD 0

/-- A fraction is the value of a number. -/
def Representable (f : Format) (q : ℚ) : Prop := ∃ x : Floating f, x.value? = some q

theorem value?_eq_some_iff :
    x.value? = some a ↔ ∃ negative m, x.parts = .finite negative m ∧ a = valueOf f negative m := by
  unfold value?
  cases x.parts with
  | finite negative m => simp [eq_comm]
  | _ => simp

theorem value?_of_isFinite (hx : x.isFinite = true) : x.value? = some x.value := by
  rw [isFinite] at hx
  rw [value, value?]
  cases hparts : x.parts with
  | finite negative m => rfl
  | _ =>
    rw [hparts] at hx
    cases hx

theorem value_of_value? (hx : x.value? = some a) : x.value = a := by
  rw [value, hx, Option.getD_some]

theorem isFinite_of_value? (hx : x.value? = some a) : x.isFinite = true := by
  obtain ⟨negative, m, hparts, -⟩ := value?_eq_some_iff.1 hx
  rw [isFinite, hparts]

theorem scale_cast_pos (f : Format) : (0 : ℚ) < f.scale := Nat.cast_pos.2 f.scale_pos

theorem sign_bne (s t : Bool) : sign (s != t) = sign s * sign t := by
  cases s <;> cases t <;> simp [sign]

theorem abs_sign_mul (negative : Bool) {q : ℚ} (hq : 0 ≤ q) : |sign negative * q| = q := by
  cases negative with
  | true => simp [sign, abs_of_nonneg hq]
  | false => simp [sign, abs_of_nonneg hq]

theorem valueOf_eq (f : Format) (negative : Bool) (m : Nat) :
    valueOf f negative m = (signedUnits negative m : ℚ) / f.scale := by
  cases negative with
  | true => simp [valueOf, sign, signedUnits, neg_div]
  | false => simp [valueOf, sign, signedUnits]

theorem Representable.exists_rank (h : Representable f a) :
    ∃ rank < f.top, |a| = (f.units rank : ℚ) / f.scale := by
  obtain ⟨x, hx⟩ := h
  obtain ⟨negative, m, hparts, rfl⟩ := value?_eq_some_iff.1 hx
  have hfinite : x.isFinite = true := by rw [isFinite, hparts]
  obtain ⟨s, rank, rfl, hrank⟩ := isFinite_iff.1 hfinite
  rw [parts_signed hrank] at hparts
  obtain ⟨rfl, rfl⟩ := Parts.finite.inj hparts
  have hscale := scale_cast_pos f
  exact ⟨rank, hrank, abs_sign_mul _ (by positivity)⟩

theorem value?_ofUnits {negative : Bool} {num den : Nat} (hden : 0 < den)
    (h : Representable f (sign negative * (num / den / f.scale))) :
    (ofUnits negative num den : Floating f).value? =
      some (sign negative * (num / den / f.scale)) := by
  obtain ⟨rank, hrank, hunits⟩ := h.exists_rank
  have hscale := scale_cast_pos f
  have hden' : (0 : ℚ) < den := Nat.cast_pos.2 hden
  rw [abs_sign_mul _ (by positivity), div_left_inj' hscale.ne'] at hunits
  have hnum : num = f.units rank * den := by
    exact_mod_cast (div_eq_iff hden'.ne').1 hunits
  have hnearest : (f.nearest num den).val = rank := by rw [hnum, Format.nearest_units hrank hden]
  refine value?_eq_some_iff.2 ⟨negative, f.units rank, ?_, ?_⟩
  · rw [ofUnits, parts_signed (hnearest ▸ hrank), hnearest]
  · rw [hunits, valueOf]

theorem value?_neg (hx : x.value? = some a) : (-x).value? = some (-a) := by
  obtain ⟨negative, m, hparts, rfl⟩ := value?_eq_some_iff.1 hx
  refine value?_eq_some_iff.2 ⟨!negative, m, by rw [parts_neg, hparts]; rfl, ?_⟩
  cases negative with
  | true => simp [valueOf, sign]
  | false => simp [valueOf, sign]

theorem value?_add (hx : x.value? = some a) (hy : y.value? = some b)
    (h : Representable f (a + b)) : (x + y).value? = some (a + b) := by
  obtain ⟨s, m, hm, rfl⟩ := value?_eq_some_iff.1 hx
  obtain ⟨t, n, hn, rfl⟩ := value?_eq_some_iff.1 hy
  change (add x y).value? = _
  simp only [add, hm, hn]
  rw [valueOf_eq, valueOf_eq, ← add_div, ← Int.cast_add] at h ⊢
  generalize signedUnits s m + signedUnits t n = sum at h ⊢
  split
  · next hzero =>
    have hsum : (sum : ℚ) / f.scale = sign (s && t) * ((0 : Nat) / (1 : Nat) / f.scale) := by
      simp [hzero]
    rw [hsum] at h ⊢
    exact value?_ofUnits Nat.one_pos h
  · have hsum : (sum : ℚ) / f.scale =
        sign (decide (sum < 0)) * (sum.natAbs / (1 : Nat) / f.scale) := by
      rw [Nat.cast_one, div_one, ← mul_div_assoc, Nat.cast_natAbs]
      by_cases hneg : sum < 0
      · simp [sign, hneg, abs_of_neg]
      · simp [sign, hneg, abs_of_nonneg (Int.not_lt.1 hneg)]
    rw [hsum] at h ⊢
    exact value?_ofUnits Nat.one_pos h

theorem value?_sub (hx : x.value? = some a) (hy : y.value? = some b)
    (h : Representable f (a - b)) : (x - y).value? = some (a - b) := by
  rw [sub_eq_add_neg] at h ⊢
  exact value?_add hx (value?_neg hy) h

theorem value?_mul (hx : x.value? = some a) (hy : y.value? = some b)
    (h : Representable f (a * b)) : (x * y).value? = some (a * b) := by
  obtain ⟨s, m, hm, rfl⟩ := value?_eq_some_iff.1 hx
  obtain ⟨t, n, hn, rfl⟩ := value?_eq_some_iff.1 hy
  have hproduct : valueOf f s m * valueOf f t n =
      sign (s != t) * ((m * n : Nat) / (f.scale : Nat) / f.scale) := by
    rw [valueOf, valueOf, sign_bne, Nat.cast_mul]
    ring
  change (mul x y).value? = _
  simp only [mul, hm, hn]
  rw [hproduct] at h ⊢
  exact value?_ofUnits f.scale_pos h

theorem value?_div (hx : x.value? = some a) (hy : y.value? = some b) (hb : b ≠ 0)
    (h : Representable f (a / b)) : (x / y).value? = some (a / b) := by
  obtain ⟨s, m, hm, rfl⟩ := value?_eq_some_iff.1 hx
  obtain ⟨t, n, hn, rfl⟩ := value?_eq_some_iff.1 hy
  have hzero : n ≠ 0 := by
    rintro rfl
    exact hb (by simp [valueOf])
  have hscale := (scale_cast_pos f).ne'
  have hn' : (n : ℚ) ≠ 0 := Nat.cast_ne_zero.2 hzero
  have hquotient : valueOf f s m / valueOf f t n =
      sign (s != t) * ((m * f.scale : Nat) / (n : Nat) / f.scale) := by
    rw [valueOf, valueOf, sign_bne, Nat.cast_mul]
    cases t with
    | true => simp only [sign, if_true]; field_simp
    | false => simp only [sign, Bool.false_eq_true, if_false]; field_simp
  change (div x y).value? = _
  simp only [div, hm, hn, if_neg hzero]
  rw [hquotient] at h ⊢
  exact value?_ofUnits (Nat.pos_of_ne_zero hzero) h

theorem value?_one : (1 : Single).value? = some 1 := by
  have hparts : (1 : Single).parts = .finite false Format.single.scale := by decide +kernel
  refine value?_eq_some_iff.2 ⟨_, _, hparts, ?_⟩
  rw [valueOf, div_self (scale_cast_pos _).ne']
  simp [sign]

theorem value?_two : (2 : Single).value? = some 2 := by
  have hparts : (2 : Single).parts = .finite false (2 * Format.single.scale) := by decide +kernel
  refine value?_eq_some_iff.2 ⟨_, _, hparts, ?_⟩
  rw [valueOf, Nat.cast_mul, mul_div_assoc, div_self (scale_cast_pos _).ne']
  simp [sign]

end MarkupScene.Numeric.Floating
