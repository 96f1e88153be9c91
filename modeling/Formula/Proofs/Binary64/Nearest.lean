import Formula.Proofs.Binary64.ReadBack
import Mathlib.Algebra.Order.AbsoluteValue.Basic
import Mathlib.Algebra.Order.Field.Rat
import Mathlib.Tactic.Linarith
import Mathlib.Tactic.Positivity

/-! # Nearest numbers

A ratio is rounded to a whole number of the units of its scale, and below that scale no number is
as near. The magnitude that comes out is therefore the nearest of all, and the even one of two that
are equally near; what lies beyond the numbers becomes infinity. There is only one such magnitude,
so a decimal determines its number.
-/

namespace Formula

def Decimal.value (d : Decimal) : ℚ := d.coefficient * 10 ^ d.exponent

theorem Decimal.value_eq_ratio (d : Decimal) :
    d.value = (d.coefficient * Nat.pow 10 d.exponent.toNat : Nat) /
      (Nat.pow 10 (-d.exponent).toNat : Nat) := by
  have exponent : d.exponent = d.exponent.toNat - (-d.exponent).toNat := by omega
  have power : (10 : ℚ) ^ d.exponent = 10 ^ d.exponent.toNat / 10 ^ (-d.exponent).toNat := by
    conv_lhs => rw [exponent]
    rw [zpow_sub₀ (by norm_num), zpow_natCast, zpow_natCast]
  rw [value, power, mul_div_assoc']
  simp only [Nat.pow_eq, Nat.cast_mul, Nat.cast_pow, Nat.cast_ofNat]

namespace Binary64

/-- The value of a magnitude. That of infinity is where the next number would be, at `2 ^ 1024`. -/
def valueOf (n : Nat) : ℚ := units n / 2 ^ 1074

example : units infinite = Nat.pow 2 (1024 + 1074) := by decide +kernel

/-- One term of a sequence is nearer to a value than another, or as near and its index is even. -/
def Prefers (f : Nat → ℚ) (t : ℚ) (n m : Nat) : Prop :=
  |f n - t| < |f m - t| ∨ (|f n - t| = |f m - t| ∧ n % 2 = 0)

/-- The number without a sign that is nearest to a value; of two equally near, the even one. -/
structure IsNearest (x : Binary64) (q : ℚ) : Prop where
  unsigned : x.isNegative = false
  le_infinite : x.magnitude ≤ infinite
  nearest : ∀ n ≤ infinite, n ≠ x.magnitude → Prefers valueOf q x.magnitude n

section

variable {f : Nat → ℚ} {t : ℚ} {n m bound : Nat}

theorem Prefers.le (h : Prefers f t n m) : |f n - t| ≤ |f m - t| := by
  rcases h with nearer | ⟨tie, -⟩
  · exact le_of_lt nearer
  · exact le_of_eq tie

theorem Prefers.min (mono : StrictMono f) (h : ∀ m ≠ n, Prefers f t n m) (le : m ≤ bound)
    (ne : m ≠ min bound n) : Prefers f t (min bound n) m := by
  rcases Nat.le_total n bound with within | beyond
  · rw [Nat.min_eq_right within] at *
    exact h m ne
  · rw [Nat.min_eq_left beyond] at *
    by_cases same : bound = n
    · exact same ▸ h m (same ▸ ne)
    have below := mono (Nat.lt_of_le_of_ne le ne)
    have above := mono (Nat.lt_of_le_of_ne beyond same)
    have high : f bound < t := by
      by_contra low
      have closer := (h bound same).le
      rw [abs_of_nonneg (by linarith), abs_of_nonneg (by linarith)] at closer
      linarith
    left
    rw [abs_of_neg (by linarith), abs_of_neg (by linarith)]
    linarith

theorem Prefers.unique (mono : StrictMono f) (hn : n ≤ bound) (hm : m ≤ bound)
    (h : ∀ k ≤ bound, k ≠ n → Prefers f t n k) (h' : ∀ k ≤ bound, k ≠ m → Prefers f t m k) :
    n = m := by
  by_contra ne
  wlog order : n < m generalizing n m
  · exact this hm hn h' h (Ne.symm ne) (by omega)
  have forward := h m hm (Ne.symm ne)
  have backward := h' n hn ne
  have tie : |f n - t| = |f m - t| := le_antisymm forward.le backward.le
  have even : n % 2 = 0 := (forward.resolve_left (not_lt_of_ge backward.le)).2
  have even' : m % 2 = 0 := (backward.resolve_left (not_lt_of_ge forward.le)).2
  -- Between two even indices there is another one, whose term is nearer than both.
  have closer := (h (n + 1) (by omega) (by omega)).le
  have left := mono (Nat.lt_succ_self n)
  have right := mono (show n + 1 < m by omega)
  rcases abs_cases (f n - t) with ⟨hn, _⟩ | ⟨hn, _⟩ <;>
  rcases abs_cases (f m - t) with ⟨hm, _⟩ | ⟨hm, _⟩ <;>
  rcases abs_cases (f (n + 1) - t) with ⟨hk, _⟩ | ⟨hk, _⟩ <;> linarith

end

/-- A whole number at most a half away from a value, and even where it is a half away. -/
structure HalfEven (n : Nat) (t : ℚ) : Prop where
  near : |n - t| ≤ 1 / 2
  even : |n - t| = 1 / 2 → n % 2 = 0

theorem div_le_nearestEven (num den : Nat) : num / den ≤ nearestEven num den := by
  simp only [nearestEven]
  split <;> omega

theorem nearestEven_le (num den : Nat) : nearestEven num den ≤ num / den + 1 := by
  simp only [nearestEven]
  split <;> omega

theorem HalfEven.of_down {n : Nat} {part : ℚ} (nonneg : 0 ≤ part) (low : part ≤ 1 / 2)
    (even : part = 1 / 2 → n % 2 = 0) : HalfEven n (n + part) := by
  have distance : |(n : ℚ) - (n + part)| = part := by
    rw [abs_sub_comm, add_sub_cancel_left, abs_of_nonneg nonneg]
  constructor <;> rwa [distance]

theorem HalfEven.of_up {n : Nat} {part : ℚ} (small : part < 1) (high : 1 / 2 ≤ part)
    (even : part = 1 / 2 → (n + 1) % 2 = 0) : HalfEven (n + 1) (n + part) := by
  have distance : |((n + 1 : Nat) : ℚ) - (n + part)| = 1 - part := by
    rw [Nat.cast_add_one, add_sub_add_left_eq_sub, abs_of_pos (sub_pos.mpr small)]
  constructor
  · rw [distance]
    linarith
  · rw [distance]
    exact fun tie => even (by linarith)

theorem div_eq_add_part (num : Nat) {den : Nat} (h : 0 < den) :
    (num : ℚ) / den = (num / den : Nat) + (num % den : Nat) / den := by
  have parts : (num : ℚ) = den * (num / den : Nat) + (num % den : Nat) := by
    exact_mod_cast (Nat.div_add_mod num den).symm
  conv_lhs => rw [parts]
  rw [add_div, mul_div_cancel_left₀ _ (Nat.cast_ne_zero.mpr (Nat.ne_of_gt h))]

theorem halfEven_nearestEven (num : Nat) {den : Nat} (h : 0 < den) :
    HalfEven (nearestEven num den) (num / den) := by
  have pos : (0 : ℚ) < den := Nat.cast_pos.mpr h
  have rest_lt := Nat.mod_lt num h
  rw [div_eq_add_part num h]
  simp only [nearestEven]
  generalize num / den = floor at *
  generalize num % den = rest at *
  have low : (rest : ℚ) / den ≤ 1 / 2 ↔ 2 * rest ≤ den := by
    rw [div_le_div_iff₀ pos two_pos]
    norm_cast
    omega
  have half : (rest : ℚ) / den = 1 / 2 ↔ 2 * rest = den := by
    rw [div_eq_div_iff (ne_of_gt pos) two_ne_zero]
    norm_cast
    omega
  split
  next down =>
    refine HalfEven.of_down (by positivity) (low.mpr (by omega)) fun tie => ?_
    have := half.mp tie
    omega
  next up =>
    have high : ¬ (rest : ℚ) / den < 1 / 2 := by
      rw [lt_iff_le_and_ne, Ne, low, half]
      omega
    refine HalfEven.of_up ?_ (not_lt.mp high) fun tie => ?_
    · rw [div_lt_one pos]
      exact_mod_cast rest_lt
    · have := half.mp tie
      omega

theorem abs_mul_sub {c : ℚ} (pos : 0 < c) (x t : ℚ) : |x * c - t| = |x - t / c| * c := by
  have product : x * c - t = (x - t / c) * c := by
    rw [sub_mul, div_mul_cancel₀ _ (ne_of_gt pos)]
  rw [product, abs_mul, abs_of_pos pos]

section

variable {e : Nat} {t c : ℚ} (pos : 0 < c) (h : HalfEven e (t / c))

include pos h

/-- Rounding the quotient finds the nearest multiple of a number. -/
theorem HalfEven.prefers {k : Nat} (ne : k ≠ e) : Prefers (fun n => n * c) t e k := by
  have apart : (1 : ℚ) ≤ |(k : ℚ) - e| := by
    exact_mod_cast Int.one_le_abs (sub_ne_zero.mpr (Int.ofNat_inj.not.mpr ne))
  have triangle := abs_sub_le (k : ℚ) (t / c) e
  rw [abs_sub_comm (t / c)] at triangle
  have near := h.near
  have closer : |(e : ℚ) - t / c| ≤ |(k : ℚ) - t / c| := by linarith
  simp only [Prefers, abs_mul_sub pos, mul_lt_mul_iff_left₀ pos, mul_left_inj' (ne_of_gt pos)]
  rcases lt_or_eq_of_le closer with nearer | tie
  · exact .inl nearer
  · exact .inr ⟨tie, h.even (by linarith)⟩

theorem HalfEven.closest (k : Nat) : |e * c - t| ≤ |k * c - t| := by
  by_cases same : k = e
  · rw [same]
  · exact (h.prefers pos same).le

theorem HalfEven.closer {k : Nat} {x : ℚ} (low : x < k * c) (high : k * c ≤ t) :
    |e * c - t| < |x - t| := by
  have near := h.closest pos k
  rw [abs_of_nonpos (sub_nonpos.mpr high)] at near
  rw [abs_of_neg (sub_neg.mpr (lt_of_lt_of_le low high))]
  linarith

end

theorem scale_le {m n : Nat} (h : m ≤ n) : scale m ≤ scale n :=
  Nat.sub_le_sub_right (Nat.div_le_div_right h) 1

theorem units_lt_of_scale_lt {n s : Nat} (h : scale n < s) :
    units n < Nat.pow 2 52 * Nat.pow 2 s := by
  calc units n
    _ < Nat.pow 2 53 * Nat.pow 2 (scale n) :=
      Nat.mul_lt_mul_of_pos_right (significand_lt n) (Nat.two_pow_pos _)
    _ = Nat.pow 2 52 * Nat.pow 2 (scale n + 1) := by simp only [Nat.pow_eq]; omega
    _ ≤ Nat.pow 2 52 * Nat.pow 2 s :=
      Nat.mul_le_mul_left _ (Nat.pow_le_pow_right (by decide) h)

theorem units_strictMono : StrictMono units := by
  intro m n lt
  rcases Nat.eq_or_lt_of_le (scale_le (Nat.le_of_lt lt)) with same | smaller
  · have hm := scale_add_significand m
    have hn := scale_add_significand n
    rw [same] at hm
    rw [units, units, same]
    exact Nat.mul_lt_mul_of_pos_right (by omega) (Nat.two_pow_pos _)
  · have full := significand_of_scale_pos (Nat.zero_lt_of_lt smaller)
    exact Nat.lt_of_lt_of_le (units_lt_of_scale_lt smaller) (Nat.mul_le_mul_right _ full)

theorem valueOf_strictMono : StrictMono valueOf := by
  intro m n lt
  have := units_strictMono lt
  exact div_lt_div_of_pos_right (by exact_mod_cast this) (by positivity)

/-- A significand and a scale make a magnitude; a significand of `2 ^ 53` carries into the scale. -/
theorem units_of_scaled {s e : Nat} (le : e ≤ Nat.pow 2 53) (full : 0 < s → Nat.pow 2 52 ≤ e) :
    units (s * Nat.pow 2 52 + e) = e * Nat.pow 2 s := by
  have split := scale_add_significand (s * Nat.pow 2 52 + e)
  rcases Nat.eq_or_lt_of_le le with rfl | lt
  · have scale_eq : scale (s * Nat.pow 2 52 + Nat.pow 2 53) = s + 1 := by
      simp only [scale, Nat.pow_eq]
      omega
    have significand_eq : significand (s * Nat.pow 2 52 + Nat.pow 2 53) = Nat.pow 2 52 := by
      rw [scale_eq] at split
      simp only [Nat.pow_eq] at *
      omega
    rw [units, scale_eq, significand_eq]
    simp only [Nat.pow_eq]
    omega
  · have scale_eq : scale (s * Nat.pow 2 52 + e) = s := by
      simp only [scale, Nat.pow_eq] at *
      omega
    have significand_eq : significand (s * Nat.pow 2 52 + e) = e := by
      rw [scale_eq] at split
      omega
    rw [units, scale_eq, significand_eq]

/-- The magnitude nearest to a ratio of units, were there no greatest number. -/
def magnitudeOfUnits (num den : Nat) : Nat :=
  let scale := Nat.log2 (num / den) - 52
  scale * Nat.pow 2 52 + nearestEven num (den * Nat.pow 2 scale)

-- The exponent of the unit stands as a variable, so that its powers are not computed.
theorem magnitudeOfRatio_eq {k : Nat} (hk : k = 1074) (num den : Nat) :
    magnitudeOfRatio num den = min infinite (magnitudeOfUnits (num * Nat.pow 2 k) den) := by
  simp only [magnitudeOfRatio, magnitudeOfUnits, ← hk]

theorem log2_sub_bounds (n : Nat) : n < Nat.pow 2 53 * Nat.pow 2 (Nat.log2 n - 52) ∧
    (0 < Nat.log2 n - 52 → Nat.pow 2 52 * Nat.pow 2 (Nat.log2 n - 52) ≤ n) := by
  simp only [Nat.pow_eq, ← Nat.pow_add]
  constructor
  · exact Nat.lt_of_lt_of_le Nat.lt_log2_self (Nat.pow_le_pow_right (by decide) (by omega))
  · intro scaled
    have nonzero : n ≠ 0 := by
      rintro rfl
      simp at scaled
    have exponent : 52 + (Nat.log2 n - 52) = Nat.log2 n := by omega
    rw [exponent]
    exact Nat.log2_self_le nonzero

/-- The rounded quotient of a ratio has at most 53 bits, and all of them where it is scaled. -/
theorem units_magnitudeOfUnits (num den : Nat) :
    units (magnitudeOfUnits num den) =
      nearestEven num (den * Nat.pow 2 (Nat.log2 (num / den) - 52)) *
        Nat.pow 2 (Nat.log2 (num / den) - 52) := by
  obtain ⟨below, above⟩ := log2_sub_bounds (num / den)
  apply units_of_scaled
  · have lt := (Nat.div_lt_iff_lt_mul (Nat.two_pow_pos _)).mpr below
    rw [← Nat.pow_eq, Nat.div_div_eq_div_mul] at lt
    exact Nat.le_trans (nearestEven_le _ _) lt
  · intro scaled
    have ge := (Nat.le_div_iff_mul_le (Nat.two_pow_pos _)).mpr (above scaled)
    rw [← Nat.pow_eq, Nat.div_div_eq_div_mul] at ge
    exact Nat.le_trans ge (div_le_nearestEven _ _)

theorem prefers_magnitudeOfUnits (num : Nat) {den m : Nat} (h : 0 < den)
    (ne : m ≠ magnitudeOfUnits num den) :
    Prefers (fun n => units n) (num / den) (magnitudeOfUnits num den) m := by
  have value := units_magnitudeOfUnits num den
  have above := (log2_sub_bounds (num / den)).2
  have magnitude : magnitudeOfUnits num den = (Nat.log2 (num / den) - 52) * Nat.pow 2 52 +
    nearestEven num (den * Nat.pow 2 (Nat.log2 (num / den) - 52)) := rfl
  generalize Nat.log2 (num / den) - 52 = s at *
  have rounded := halfEven_nearestEven num (Nat.mul_pos h (Nat.two_pow_pos s))
  rw [← Nat.pow_eq, Nat.cast_mul, div_mul_eq_div_div] at rounded
  generalize nearestEven num (den * Nat.pow 2 s) = e at *
  have unit : (0 : ℚ) < (Nat.pow 2 s : Nat) := Nat.cast_pos.mpr (Nat.two_pow_pos s)
  rcases Nat.lt_or_ge (scale m) s with finer | coarser
  · -- Below the scale of the ratio, its least full significand lies between.
    have low : (units m : ℚ) < (Nat.pow 2 52 : Nat) * (Nat.pow 2 s : Nat) := by
      exact_mod_cast units_lt_of_scale_lt finer
    have high : (Nat.pow 2 52 : Nat) * (Nat.pow 2 s : Nat) ≤ (num : ℚ) / den := by
      rw [le_div_iff₀ (Nat.cast_pos.mpr h)]
      exact_mod_cast Nat.mul_le_of_le_div _ _ _ (above (Nat.zero_lt_of_lt finer))
    have closer := rounded.closer unit low high
    rw [← Nat.cast_mul, ← value] at closer
    exact .inl closer
  · -- From there on, all values are multiples of one power of two.
    obtain ⟨d, hd⟩ := Nat.exists_eq_add_of_le coarser
    have multiple : units m = significand m * Nat.pow 2 d * Nat.pow 2 s := by
      simp only [units, hd, Nat.pow_eq, Nat.pow_add]
      ac_rfl
    have other : significand m * Nat.pow 2 d ≠ e := by
      rintro rfl
      exact ne (units_strictMono.injective (multiple.trans value.symm))
    have even : magnitudeOfUnits num den % 2 = e % 2 := by
      simp only [magnitude, Nat.pow_eq]
      omega
    have prefers := rounded.prefers unit other
    rw [Prefers, ← Nat.cast_mul, ← Nat.cast_mul, ← multiple, ← value, ← even] at prefers
    exact prefers

theorem prefers_valueOf {num den n m k : Nat} (hk : k = 1074)
    (h : Prefers (fun n => units n) ((num * Nat.pow 2 k : Nat) / den) n m) :
    Prefers valueOf (num / den) n m := by
  have unit : (0 : ℚ) < 2 ^ k := by positivity
  have ratio : ((num * Nat.pow 2 k : Nat) : ℚ) / den = num / den * 2 ^ k := by
    rw [Nat.cast_mul, mul_div_right_comm, Nat.pow_eq, Nat.cast_pow, Nat.cast_ofNat]
  have distance (n : Nat) : |(units n : ℚ) - num / den * 2 ^ k| =
      |valueOf n - num / den| * 2 ^ k := by
    have units_eq : (units n : ℚ) = valueOf n * 2 ^ k := by
      rw [valueOf, ← hk, div_mul_cancel₀ _ (ne_of_gt unit)]
    rw [units_eq, abs_mul_sub unit, mul_div_cancel_right₀ _ (ne_of_gt unit)]
  simpa only [Prefers, ratio, distance, mul_lt_mul_iff_left₀ unit,
    mul_left_inj' (ne_of_gt unit)] using h

theorem prefers_magnitudeOfRatio (num : Nat) {den m : Nat} (h : 0 < den) (le : m ≤ infinite)
    (ne : m ≠ magnitudeOfRatio num den) :
    Prefers valueOf (num / den) (magnitudeOfRatio num den) m := by
  obtain ⟨k, hk⟩ : ∃ k, k = 1074 := ⟨_, rfl⟩
  rw [magnitudeOfRatio_eq hk] at *
  refine Prefers.min valueOf_strictMono (fun m other => ?_) le ne
  exact prefers_valueOf hk (prefers_magnitudeOfUnits _ h other)

theorem isNearest_ofDecimal (d : Decimal) : (ofDecimal d).IsNearest d.value where
  unsigned := isNegative_ofMagnitude (magnitudeOfDecimal_le d)
  le_infinite := by
    rw [ofDecimal, magnitude_ofMagnitude (magnitudeOfDecimal_le d)]
    exact magnitudeOfDecimal_le d
  nearest := by
    rw [ofDecimal, magnitude_ofMagnitude (magnitudeOfDecimal_le d), d.value_eq_ratio]
    exact fun n le ne => prefers_magnitudeOfRatio _ (Nat.pow_pos (by decide)) le ne

theorem IsNearest.unique {x y : Binary64} {q : ℚ} (hx : x.IsNearest q) (hy : y.IsNearest q) :
    x = y := by
  have magnitude := Prefers.unique valueOf_strictMono hx.le_infinite hy.le_infinite hx.nearest
    hy.nearest
  rw [← ofMagnitude_magnitude hx.unsigned, magnitude, ofMagnitude_magnitude hy.unsigned]

end Binary64

end Formula
