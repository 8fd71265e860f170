import MarkupScene.Proofs.Rounding

/-!
# Magnitudes

Bounds on the magnitudes of singles. A bound is a power of two that singles have, so that what is
within it before rounding is within it after rounding, too. A sum needs one more power, and the
powers of factors add up; as long as the power stays below that of infinity, nothing overflows.
-/
namespace MarkupScene.Numeric

namespace Format
variable {f : Format}

/-- A greater rank is a greater magnitude. -/
theorem units_mono {rank rank' : Nat} (h : rank ≤ rank') : f.units rank ≤ f.units rank' := by
  obtain ⟨shift, k, hnormal, rfl⟩ := f.exists_normal rank
  obtain ⟨shift', k', hnormal', rfl⟩ := f.exists_normal rank'
  have hk := hnormal.1
  have hk' := hnormal'.1
  rw [units_of_normal hnormal, units_of_normal hnormal']
  rcases Nat.lt_trichotomy shift shift' with hlt | rfl | hgt
  · have hlead : 2 ^ f.fraction ≤ k' := hnormal'.2.resolve_left (by omega)
    calc k * 2 ^ shift
        ≤ 2 * 2 ^ f.fraction * 2 ^ shift := Nat.mul_le_mul_right _ hk.le
      _ = 2 ^ f.fraction * 2 ^ (shift + 1) := by ring
      _ ≤ 2 ^ f.fraction * 2 ^ shift' :=
        Nat.mul_le_mul_left _ (Nat.pow_le_pow_right Nat.two_pos hlt)
      _ ≤ k' * 2 ^ shift' := Nat.mul_le_mul_right _ hlead
  · exact Nat.mul_le_mul_right _ (Nat.le_of_add_le_add_left h)
  · -- The later binade begins where the earlier one ends.
    have hlead : 2 ^ f.fraction ≤ k := hnormal.2.resolve_left (by omega)
    have hbinades : (shift' + 1) * 2 ^ f.fraction ≤ shift * 2 ^ f.fraction :=
      Nat.mul_le_mul_right _ hgt
    rw [Nat.add_mul, Nat.one_mul] at hbinades
    omega

theorem exists_power {a : Nat} (ha : a < 128) :
    ∃ rank < Format.single.top, Format.single.units rank = 2 ^ a * Format.single.scale := by
  have hk : 2 ^ 23 < 2 * 2 ^ Format.single.fraction := by decide
  have hshift : a + 126 + 3 ≤ 2 ^ Format.single.exponent := by
    change a + 126 + 3 ≤ 2 ^ 8
    omega
  obtain ⟨rank, hrank, hunits⟩ := Format.exists_units_eq hk hshift
  have hscale : Format.single.scale = 2 ^ 126 * 2 ^ 23 := by decide +kernel
  refine ⟨rank, hrank, hunits.trans ?_⟩
  rw [hscale, Nat.pow_add]
  ring

end Format

def Parts.neg : Parts → Parts
  | nan => nan
  | infinite s => infinite !s
  | finite s m => finite (!s) m

namespace Floating

section
variable {f : Format} {x : Floating f} {a b : Nat}

/-- Whether a number is finite and its magnitude at most a power of two. -/
def within (a : Nat) (x : Floating f) : Bool :=
  match x.parts with
  | .finite _ m => m ≤ 2 ^ a * f.scale
  | _ => false

theorem within_iff :
    x.within a = true ↔ ∃ negative m, x.parts = .finite negative m ∧ m ≤ 2 ^ a * f.scale := by
  unfold within
  cases x.parts with
  | finite negative m => simp
  | _ => simp

theorem within_mono (hab : a ≤ b) (hx : x.within a = true) : x.within b = true := by
  obtain ⟨negative, m, hparts, hm⟩ := within_iff.1 hx
  have hpow : 2 ^ a * f.scale ≤ 2 ^ b * f.scale :=
    Nat.mul_le_mul_right _ (Nat.pow_le_pow_right Nat.two_pos hab)
  exact within_iff.2 ⟨negative, m, hparts, hm.trans hpow⟩

theorem isFinite_of_within (hx : x.within a = true) : x.isFinite = true := by
  obtain ⟨negative, m, hparts, -⟩ := within_iff.1 hx
  rw [isFinite, hparts]

theorem parts_neg (x : Floating f) : (-x).parts = x.parts.neg := by
  cases x with
  | nan => rfl
  | signed s rank =>
    change (if rank.val = f.top then _ else _) = Parts.neg (if rank.val = f.top then _ else _)
    split <;> rfl

theorem within_neg (hx : x.within a = true) : (-x).within a = true := by
  obtain ⟨negative, m, hparts, hm⟩ := within_iff.1 hx
  exact within_iff.2 ⟨!negative, m, by rw [parts_neg, hparts]; rfl, hm⟩

end

variable {x y : Single} {a b : Nat}

theorem ofUnits_within (ha : a < 128) {negative : Bool} {num den : Nat} (hden : 0 < den)
    (h : num ≤ 2 ^ a * Format.single.scale * den) :
    (ofUnits negative num den : Single).within a = true := by
  obtain ⟨rank, hrank, hunits⟩ := Format.exists_power ha
  have hle : (Format.single.nearest num den).val ≤ rank := by
    rw [← Format.nearest_units hrank hden, hunits]
    exact Format.nearest_mono h hden
  refine within_iff.2 ⟨negative, _, parts_signed (hle.trans_lt hrank), ?_⟩
  exact hunits ▸ Format.units_mono hle

theorem add_within (ha : a + 1 < 128) (hx : x.within a = true) (hy : y.within a = true) :
    (x + y).within (a + 1) = true := by
  obtain ⟨s, m, hm, hmle⟩ := within_iff.1 hx
  obtain ⟨t, n, hn, hnle⟩ := within_iff.1 hy
  change (add x y).within (a + 1) = true
  have hsum : (signedUnits s m + signedUnits t n).natAbs ≤
      2 ^ (a + 1) * Format.single.scale * 1 := by
    have habs : (signedUnits s m + signedUnits t n).natAbs ≤ m + n := by
      cases s <;> cases t <;> simp only [signedUnits] <;> omega
    rw [Nat.pow_succ]
    linarith
  simp only [add, hm, hn]
  split
  · exact ofUnits_within ha Nat.one_pos (Nat.zero_le _)
  · exact ofUnits_within ha Nat.one_pos hsum

theorem sub_within (ha : a + 1 < 128) (hx : x.within a = true) (hy : y.within a = true) :
    (x - y).within (a + 1) = true :=
  add_within ha hx (within_neg hy)

theorem mul_within (hab : a + b < 128) (hx : x.within a = true) (hy : y.within b = true) :
    (x * y).within (a + b) = true := by
  obtain ⟨s, m, hm, hmle⟩ := within_iff.1 hx
  obtain ⟨t, n, hn, hnle⟩ := within_iff.1 hy
  change (mul x y).within (a + b) = true
  simp only [mul, hm, hn]
  refine ofUnits_within hab (Format.scale_pos _) ((Nat.mul_le_mul hmle hnle).trans_eq ?_)
  rw [Nat.pow_add]
  ring

theorem half_within (ha : a < 128) (hx : x.within a = true) : (x / 2).within a = true := by
  obtain ⟨s, m, hm, hmle⟩ := within_iff.1 hx
  have htwo : (2 : Single).parts = .finite false (2 * Format.single.scale) := by decide +kernel
  have hpos : 0 < 2 * Format.single.scale := Nat.mul_pos Nat.two_pos (Format.scale_pos _)
  change (div x 2).within a = true
  simp only [div, hm, htwo, if_neg hpos.ne']
  refine ofUnits_within ha hpos ?_
  calc m * Format.single.scale
      ≤ 2 ^ a * Format.single.scale * Format.single.scale := Nat.mul_le_mul_right _ hmle
    _ ≤ 2 ^ a * Format.single.scale * (2 * Format.single.scale) :=
      Nat.mul_le_mul_left _ (Nat.le_mul_of_pos_left _ Nat.two_pos)

theorem isFinite_neg (hx : x.isFinite = true) : (-x).isFinite = true := by
  rw [isFinite] at hx ⊢
  rw [parts_neg]
  cases hparts : x.parts with
  | finite s m => rfl
  | _ =>
    rw [hparts] at hx
    cases hx

theorem zero_eq : (0 : Single) = signed false ⟨0, Nat.succ_pos _⟩ := by decide +kernel

theorem one_eq : (1 : Single) = signed false ⟨127 * 2 ^ 23, by decide⟩ := by decide +kernel

theorem parts_of_pos (hy : y.isFinite = true) (hpos : (0 : Single).lt y = true) :
    ∃ m, m ≠ 0 ∧ y.parts = .finite false m := by
  obtain ⟨negative, rank, rfl, hrank⟩ := isFinite_iff.1 hy
  have hkey : 0 < signedUnits negative rank := by
    rw [zero_eq] at hpos
    exact of_decide_eq_true hpos
  cases negative with
  | true => simp only [signedUnits, if_true] at hkey; omega
  | false =>
    refine ⟨_, ?_, parts_signed hrank⟩
    obtain ⟨shift, k, hnormal, hsum⟩ := Format.single.exists_normal rank
    rw [hsum, Format.units_of_normal hnormal]
    intro hzero
    obtain rfl : k = 0 := (Nat.mul_eq_zero.1 hzero).resolve_right (Nat.two_pow_pos _).ne'
    obtain rfl : shift = 0 := hnormal.2.resolve_right (Nat.not_le.2 (Nat.two_pow_pos _))
    have hrank : rank.val = 0 := by rw [hsum, Nat.zero_mul]
    exact hkey.ne' (congrArg Int.ofNat hrank)

theorem parts_ne_nan (hx : x ≠ nan) : x.parts ≠ .nan := by
  cases x with
  | nan => exact absurd rfl hx
  | signed s rank =>
    simp only [parts]
    split <;> simp

theorem div_ne_nan (hx : x ≠ nan) (hy : y.isFinite = true) (hpos : (0 : Single).lt y = true) :
    x / y ≠ nan := by
  obtain ⟨n, hn, hparts⟩ := parts_of_pos hy hpos
  change div x y ≠ nan
  unfold div
  rw [hparts]
  cases hnumerator : x.parts with
  | nan => exact absurd hnumerator (parts_ne_nan hx)
  | infinite s => exact nofun
  | finite s m =>
    dsimp only
    rw [if_neg hn]
    exact nofun

theorem clamp_isFinite (hx : x ≠ nan) : (x.clamp 0 1).isFinite = true := by
  cases x with
  | nan => exact absurd rfl hx
  | signed s rank =>
    simp only [clamp]
    split_ifs with hlow _ hhigh
    · decide +kernel
    · decide +kernel
    · decide +kernel
    · rw [zero_eq] at hlow
      rw [one_eq] at hhigh
      have hlow : ¬signedUnits s rank < 0 := fun h => hlow (decide_eq_true h)
      have hhigh : ¬127 * 2 ^ 23 < signedUnits s rank := fun h => hhigh (decide_eq_true h)
      have hrank : rank.val ≤ 127 * 2 ^ 23 := by
        cases s <;> simp only [signedUnits] at hlow hhigh <;> grind
      exact isFinite_iff.2 ⟨s, rank, rfl, lt_of_le_of_lt hrank (by decide +kernel)⟩

theorem round_ne_nan (hx : x ≠ nan) : x.round ≠ nan := by
  unfold round
  split
  · exact nofun
  · exact hx

end Floating

end MarkupScene.Numeric
