import MarkupScene.Proofs.ExactArithmetic
import Mathlib.Order.Monotone.Basic

/-!
# The order of numbers

Numbers with the same sign go by their magnitudes. An operation that leaves the signs and takes a
greater magnitude to a greater one, and zero to zero, therefore keeps the order. Rounding to a whole
number and division by a positive number are such operations, and so is what holds a number between
zero and one.
-/
namespace MarkupScene.Numeric

namespace Format
variable {f : Format} {num : Nat → Nat} {den : Nat}

theorem units_zero (f : Format) : f.units 0 = 0 := by
  have hnormal : f.Normal 0 0 := ⟨Nat.mul_pos Nat.two_pos (Nat.two_pow_pos _), .inl rfl⟩
  simpa using units_of_normal hnormal

/-- The rank nearest to a fraction that is made of the magnitude of a rank. Infinity stays. -/
def carry (f : Format) (num : Nat → Nat) (den rank : Nat) : Nat :=
  if rank < f.top then f.nearest (num (f.units rank)) den else f.top

theorem carry_le_top (rank : Nat) : f.carry num den rank ≤ f.top := by
  unfold carry
  split
  · exact Nat.le_of_lt_succ (f.nearest _ _).isLt
  · exact le_rfl

theorem carry_mono (hnum : Monotone num) (hden : 0 < den) : Monotone (f.carry num den) := by
  intro rank rank' h
  by_cases htop : rank' < f.top
  · rw [carry, carry, if_pos (h.trans_lt htop), if_pos htop]
    exact nearest_mono (hnum (units_mono h)) hden
  · rw [carry.eq_1 f num den rank', if_neg htop]
    exact carry_le_top rank

theorem carry_zero (hnum : num 0 = 0) (hden : 0 < den) : f.carry num den 0 = 0 := by
  unfold carry
  split
  · next htop =>
    have hzero := nearest_units htop hden
    rw [units_zero, Nat.zero_mul] at hzero
    rw [units_zero, hnum]
    exact hzero
  · next htop => exact Nat.eq_zero_of_not_pos htop

end Format

namespace Floating

section
variable {f : Format} {x y z : Floating f} {s t : Bool} {m n : Nat} {a b : ℚ}

/-- Both are numbers, and the first is not the greater one. -/
def atMost (x y : Floating f) : Bool := compareBy (· ≤ ·) x y

theorem atMost_iff :
    x.atMost y = true ↔ ∃ i j, x.key? = some i ∧ y.key? = some j ∧ i ≤ j := by
  cases x <;> cases y <;> simp [atMost, compareBy, key?]

theorem ne_nan_of_atMost (h : x.atMost y = true) : x ≠ nan ∧ y ≠ nan := by
  obtain ⟨i, j, hx, hy, -⟩ := atMost_iff.1 h
  constructor
  · rintro rfl
    cases hx
  · rintro rfl
    cases hy

theorem atMost_trans (h : x.atMost y = true) (h' : y.atMost z = true) : x.atMost z = true := by
  obtain ⟨i, j, hx, hy, hij⟩ := atMost_iff.1 h
  obtain ⟨j', k, hy', hz, hjk⟩ := atMost_iff.1 h'
  obtain rfl : j = j' := Option.some.inj (hy.symm.trans hy')
  exact atMost_iff.2 ⟨i, k, hx, hz, hij.trans hjk⟩

theorem atMost_of_lt (h : x.lt y = true) : x.atMost y = true := by
  cases x with
  | nan => cases h
  | signed s rank =>
    cases y with
    | nan => cases h
    | signed t rank' => exact atMost_iff.2 ⟨_, _, rfl, rfl, (of_decide_eq_true h).le⟩

theorem atMost_of_not_lt (h : ¬x.lt y = true) (hx : x ≠ nan) (hy : y ≠ nan) :
    y.atMost x = true := by
  cases x with
  | nan => exact absurd rfl hx
  | signed s rank =>
    cases y with
    | nan => exact absurd rfl hy
    | signed t rank' =>
      exact atMost_iff.2 ⟨_, _, rfl, rfl, Int.not_lt.1 fun hlt => h (decide_eq_true hlt)⟩

theorem signedUnits_mono {g : Nat → Nat} (hg : Monotone g) (hzero : g 0 = 0)
    (h : signedUnits s m ≤ signedUnits t n) : signedUnits s (g m) ≤ signedUnits t (g n) := by
  cases s <;> cases t <;> simp only [signedUnits, if_true, Bool.false_eq_true, if_false] at h ⊢
  · exact Int.ofNat_le.2 (hg (Int.ofNat_le.1 h))
  · -- A number without a sign is at most one with a sign only when both are zero.
    obtain rfl : m = 0 := by omega
    obtain rfl : n = 0 := by omega
    rw [hzero]
    exact le_rfl
  · omega
  · have hnm := hg (show n ≤ m by omega)
    omega

theorem value_le_of_atMost (h : x.atMost y = true) (hx : x.value? = some a)
    (hy : y.value? = some b) : a ≤ b := by
  obtain ⟨s, rank, rfl, hrank⟩ := isFinite_iff.1 (isFinite_of_value? hx)
  obtain ⟨t, rank', rfl, hrank'⟩ := isFinite_iff.1 (isFinite_of_value? hy)
  obtain ⟨_, _, ⟨⟩, ⟨⟩, hle⟩ := atMost_iff.1 h
  have hunits := signedUnits_mono (g := f.units) (fun _ _ => Format.units_mono) f.units_zero hle
  rw [value?, parts_signed hrank] at hx
  rw [value?, parts_signed hrank'] at hy
  rw [← Option.some.inj hx, ← Option.some.inj hy, valueOf_eq, valueOf_eq]
  exact div_le_div_of_nonneg_right (Int.cast_le.2 hunits) (scale_cast_pos f).le

/-- Signs are left, and ranks go by a growing function that leaves zero. -/
def KeepsOrder (op : Floating f → Floating f) : Prop :=
  ∃ g : Nat → Nat, Monotone g ∧ g 0 = 0 ∧
    ∀ s rank, (op (signed s rank)).key? = some (signedUnits s (g rank))

theorem KeepsOrder.atMost {op : Floating f → Floating f} (hop : KeepsOrder op)
    (h : x.atMost y = true) : (op x).atMost (op y) = true := by
  obtain ⟨hx, hy⟩ := ne_nan_of_atMost h
  obtain ⟨g, hg, hzero, hkey⟩ := hop
  cases x with
  | nan => exact absurd rfl hx
  | signed s rank =>
    cases y with
    | nan => exact absurd rfl hy
    | signed t rank' =>
      obtain ⟨_, _, ⟨⟩, ⟨⟩, hle⟩ := atMost_iff.1 h
      exact atMost_iff.2 ⟨_, _, hkey s rank, hkey t rank', signedUnits_mono hg hzero hle⟩

theorem keepsOrder_of_fraction {op : Floating f → Floating f} (num : Nat → Nat) {den : Nat}
    (hnum : Monotone num) (hzero : num 0 = 0) (hden : 0 < den)
    (hfinite : ∀ s rank, rank.val < f.top →
      op (signed s rank) = ofUnits s (num (f.units rank)) den)
    (hinfinite : ∀ s rank, rank.val = f.top → op (signed s rank) = signed s rank) :
    KeepsOrder op := by
  refine ⟨f.carry num den, Format.carry_mono hnum hden, Format.carry_zero hzero hden,
    fun s rank => ?_⟩
  unfold Format.carry
  split
  · next hrank => rw [hfinite s rank hrank, ofUnits, key?]
  · next hrank =>
    have htop : rank.val = f.top := by omega
    rw [hinfinite s rank htop, key?, htop]

theorem parts_top {rank : Fin (f.top + 1)} (h : rank.val = f.top) :
    (signed s rank).parts = .infinite s :=
  if_pos h

theorem round_keepsOrder : KeepsOrder (round (f := f)) := by
  refine keepsOrder_of_fraction (fun m => (2 * m + f.scale) / (2 * f.scale) * f.scale) ?_ ?_
    Nat.one_pos ?_ ?_
  · intro m n h
    exact Nat.mul_le_mul_right _ (Nat.div_le_div_right (by omega))
  · have hscale := f.scale_pos
    rw [Nat.mul_zero, Nat.zero_add, Nat.div_eq_of_lt (by omega), Nat.zero_mul]
  · intro s rank hrank
    rw [round, parts_signed hrank]
    rfl
  · intro s rank hrank
    rw [round, parts_top hrank]

theorem div_keepsOrder (hn : n ≠ 0) (hy : y.parts = .finite false n) :
    KeepsOrder (· / y) := by
  refine keepsOrder_of_fraction (· * f.scale) ?_ ?_ (Nat.pos_of_ne_zero hn) ?_ ?_
  · exact fun _ _ h => Nat.mul_le_mul_right _ h
  · exact Nat.zero_mul _
  · intro s rank hrank
    change div _ y = _
    simp only [div, parts_signed hrank, hy, if_neg hn, Bool.bne_false]
  · intro s rank hrank
    change div _ y = _
    simp only [div, parts_top hrank, hy, Bool.bne_false]
    rw [infinity, show rank = Fin.last _ from Fin.ext hrank]

end

theorem eq_infinity {f : Format} {x : Floating f} (hx : x ≠ nan) (hfinite : x.isFinite = false) :
    ∃ s, x = infinity s := by
  cases x with
  | nan => exact absurd rfl hx
  | signed s rank =>
    rcases Nat.lt_or_eq_of_le (Nat.le_of_lt_succ rank.isLt) with hrank | htop
    · rw [isFinite_iff.2 ⟨s, rank, rfl, hrank⟩] at hfinite
      cases hfinite
    · exact ⟨s, congrArg _ (Fin.ext htop)⟩

variable {x y : Single}

def greatest : Single := signed false ⟨Format.single.top - 1, by decide +kernel⟩

theorem isFinite_iff_between :
    x.isFinite = true ↔ (-greatest).atMost x = true ∧ x.atMost greatest = true := by
  have htop : 0 < Format.single.top := by decide +kernel
  constructor
  · intro h
    obtain ⟨s, rank, rfl, hrank⟩ := isFinite_iff.1 h
    refine ⟨atMost_iff.2 ⟨_, _, rfl, rfl, ?_⟩, atMost_iff.2 ⟨_, _, rfl, rfl, ?_⟩⟩ <;>
      cases s <;> simp only [signedUnits] <;> grind
  · rintro ⟨hlow, hhigh⟩
    cases x with
    | nan => exact absurd rfl (ne_nan_of_atMost hhigh).1
    | signed s rank =>
      obtain ⟨_, _, ⟨⟩, ⟨⟩, hlow⟩ := atMost_iff.1 hlow
      obtain ⟨_, _, ⟨⟩, ⟨⟩, hhigh⟩ := atMost_iff.1 hhigh
      refine isFinite_iff.2 ⟨s, rank, rfl, ?_⟩
      cases s <;> simp only [signedUnits] at hlow hhigh <;> grind

theorem isFinite_of_between {low high : Single} (hlow : low.isFinite = true)
    (hhigh : high.isFinite = true) (hx : low.atMost x = true) (hx' : x.atMost high = true) :
    x.isFinite = true :=
  isFinite_iff_between.2 ⟨atMost_trans (isFinite_iff_between.1 hlow).1 hx,
    atMost_trans hx' (isFinite_iff_between.1 hhigh).2⟩

/-- The greatest numbers are whole, so that rounding does not pass them. -/
theorem round_isFinite (hx : x.isFinite = true) : x.round.isFinite = true := by
  obtain ⟨hlow, hhigh⟩ := isFinite_iff_between.1 hx
  have hlow := round_keepsOrder.atMost hlow
  have hhigh := round_keepsOrder.atMost hhigh
  rw [show (-greatest).round = -greatest by decide +kernel] at hlow
  rw [show greatest.round = greatest by decide +kernel] at hhigh
  exact isFinite_iff_between.2 ⟨hlow, hhigh⟩

theorem key?_div_infinity (hx : x.isFinite = true) (s : Bool) :
    (x / infinity s).key? = some 0 := by
  obtain ⟨t, rank, rfl, hrank⟩ := isFinite_iff.1 hx
  have hparts : (infinity s : Single).parts = .infinite s := parts_top rfl
  change (div _ _).key? = _
  simp only [div, parts_signed hrank, hparts, signedZero, key?]
  cases t != s <;> rfl

theorem value?_zero : (0 : Single).value? = some 0 := by
  have hparts : (0 : Single).parts = .finite false 0 := by decide +kernel
  refine value?_eq_some_iff.2 ⟨_, _, hparts, ?_⟩
  simp [valueOf]

/-- The place of one in the order. -/
def oneKey : Int := 127 * 2 ^ 23

theorem key?_clamp {i : Int} (hx : x.key? = some i) :
    (x.clamp 0 1).key? = some (min (Max.max i 0) oneKey) := by
  have hzero : (0 : Single).key? = some 0 := by rw [zero_eq]; rfl
  have hone : (1 : Single).key? = some oneKey := by rw [one_eq]; rfl
  have hlow : x.lt 0 = decide (i < 0) := by simp [lt, compareBy, hx, hzero]
  have hpos : (0 : Int) < oneKey := by decide
  simp only [clamp, hlow]
  by_cases hi : i < 0
  · have hhigh : (1 : Single).lt 0 = false := by decide +kernel
    simp only [hi, decide_true, if_true, hhigh, Bool.false_eq_true, if_false, hzero]
    congr 1
    omega
  · have hhigh : (1 : Single).lt x = decide (oneKey < i) := by simp [lt, compareBy, hx, hone]
    simp only [hi, decide_false, Bool.false_eq_true, if_false, hhigh]
    by_cases hi' : oneKey < i
    · simp only [hi', decide_true, if_true, hone]
      congr 1
      omega
    · simp only [hi', decide_false, Bool.false_eq_true, if_false, hx]
      congr 1
      omega

theorem clamp_atMost (h : x.atMost y = true) : (x.clamp 0 1).atMost (y.clamp 0 1) = true := by
  obtain ⟨i, j, hx, hy, hle⟩ := atMost_iff.1 h
  exact atMost_iff.2 ⟨_, _, key?_clamp hx, key?_clamp hy,
    min_le_min_right _ (max_le_max_right _ hle)⟩

/-- The greater one of a number and zero. -/
theorem max_zero_cases (x : Single) :
    (x.max 0 = x ∧ (0 : Single).atMost x = true) ∨
      (x.max 0 = 0 ∧ (x = nan ∨ x.atMost 0 = true)) := by
  cases x with
  | nan => exact .inr ⟨rfl, .inl rfl⟩
  | signed s rank =>
    rw [zero_eq, Floating.max]
    split_ifs with hlow hhigh
    · exact .inr ⟨rfl, .inr (atMost_of_lt hlow)⟩
    · exact .inl ⟨rfl, atMost_of_lt hhigh⟩
    · -- What is neither below nor above zero is zero.
      have hle := atMost_of_not_lt hhigh nofun nofun
      have hge := atMost_of_not_lt hlow nofun nofun
      obtain ⟨_, _, ⟨⟩, ⟨⟩, hle'⟩ := atMost_iff.1 hle
      obtain ⟨_, _, ⟨⟩, ⟨⟩, hge'⟩ := atMost_iff.1 hge
      have hrank : rank.val = 0 := by
        cases s <;> simp only [signedUnits] at hle' hge' <;> grind
      refine .inr ⟨?_, .inr hle⟩
      rw [Bool.and_false]
      exact congrArg _ (Fin.ext hrank)

theorem zero_atMost_max (x : Single) : (0 : Single).atMost (x.max 0) = true := by
  obtain ⟨hmax, hx⟩ | ⟨hmax, -⟩ := max_zero_cases x
  · rwa [hmax]
  · rw [hmax]
    decide +kernel

theorem value?_max_zero {a : ℚ} (hx : x.value? = some a) :
    (x.max 0).value? = some (Max.max a 0) := by
  obtain ⟨hmax, hpos⟩ | ⟨hmax, rfl | hneg⟩ := max_zero_cases x
  · rw [hmax, hx, max_eq_left (value_le_of_atMost hpos value?_zero hx)]
  · cases hx
  · rw [hmax, value?_zero, max_eq_right (value_le_of_atMost hneg hx value?_zero)]

end Floating

end MarkupScene.Numeric
