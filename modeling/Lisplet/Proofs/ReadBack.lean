import Mathlib.Tactic.Ring
import Mathlib.Tactic.Linarith
import Lisplet.Double.Printer

set_option autoImplicit false

/-! # Printed doubles read back

The text of a finite double is that of a decimal to which the double itself is nearest. The search
for the decimal tests each candidate for this, so only two things are left to show: that rounding
depends on the value of a fraction and not on how it is written (`Double.nearest_congr`), which
covers the zeros that are dropped at the end, and that the last candidate, which is the double
itself, rounds to itself (`Double.ofDecimal_exact`), which covers the end of the search. The digits
on both sides of the point in the text of a decimal denote that decimal. -/

namespace Lisplet

/-! ## Rounding depends on the value alone -/

/-- A common factor does not change a rounded quotient. -/
theorem roundedQuotient_mul_right (num den : Nat) {k : Nat} (hk : 0 < k) :
    roundedQuotient (num * k) (den * k) = roundedQuotient num den := by
  have hquot : num * k / (den * k) = num / den := Nat.mul_div_mul_right num den hk
  have hrest : num * k % (den * k) = num % den * k := Nat.mul_mod_mul_right k num den
  have hlt : 2 * (num % den * k) < den * k ↔ 2 * (num % den) < den := by
    rw [← Nat.mul_assoc]
    exact Nat.mul_lt_mul_right hk
  have heq : 2 * (num % den * k) = den * k ↔ 2 * (num % den) = den := by
    rw [← Nat.mul_assoc]
    exact Nat.mul_left_inj (Nat.ne_of_gt hk)
  simp only [roundedQuotient, hquot, hrest, hlt, heq]

/-- A whole quotient needs no rounding. -/
theorem roundedQuotient_mul_self (n : Nat) {den : Nat} (hden : 0 < den) :
    roundedQuotient (n * den) den = n := by
  simp [roundedQuotient, Nat.mul_div_cancel n hden, hden]

namespace Double

theorem nearestMagnitude_mul_right (num den : Nat) {k : Nat} (hk : 0 < k) :
    nearestMagnitude (num * k) (den * k) = nearestMagnitude num den := by
  have hscaled (s : Nat) : num * k * s = num * s * k := Nat.mul_right_comm num k s
  have hstep (s : Nat) : den * k * s = den * s * k := Nat.mul_right_comm den k s
  simp only [nearestMagnitude, hscaled, hstep, Nat.mul_div_mul_right _ _ hk,
    roundedQuotient_mul_right _ _ hk]

/-- Equal fractions have the same nearest double. -/
theorem nearest_congr (negative : Bool) {num den num' den' : Nat} (hden : 0 < den)
    (hden' : 0 < den') (h : num * den' = num' * den) :
    nearest negative num den = nearest negative num' den' := by
  have hmag : nearestMagnitude num den = nearestMagnitude num' den' := by
    calc nearestMagnitude num den
        = nearestMagnitude (num * den') (den * den') := (nearestMagnitude_mul_right _ _ hden').symm
      _ = nearestMagnitude (num' * den) (den' * den) := by rw [h, Nat.mul_comm den den']
      _ = nearestMagnitude num' den' := nearestMagnitude_mul_right _ _ hden
  rw [nearest, nearest, hmag]

theorem pow_ten_pos (n : Nat) : 0 < Nat.pow 10 n := Nat.pow_pos (by decide)

/-- The zeros at the end of a decimal do not matter. -/
theorem ofDecimal_trim (negative : Bool) (decimal : Decimal) :
    ofDecimal negative decimal.trim = ofDecimal negative decimal :=
  nearest_congr negative (pow_ten_pos _) (pow_ten_pos _)
    (Decimal.coefficient_dropZeros decimal.coefficient decimal.places)

/-! ## Every finite double is nearest to itself -/

/-- A double is its sign and its magnitude. -/
theorem ofMagnitude_magnitude (d : Double) : ofMagnitude d.isNegative d.magnitude = d := by
  obtain ⟨bits⟩ := d
  have hlt : bits.toNat < 2 ^ 64 := bits.toNat_lt
  have hsum : bits.toNat % 2 ^ 63 + (if 2 ^ 63 ≤ bits.toNat then 2 ^ 63 else 0) = bits.toNat := by
    split <;> omega
  simp only [ofMagnitude, magnitude, isNegative, Nat.pow_eq, decide_eq_true_eq, hsum,
    UInt64.ofNat_toNat]

/-- A fraction that is a whole multiple of `2 ^ (-1074)` is rounded as that multiple. -/
theorem nearestMagnitude_of_units {num den n : Nat} (hden : 0 < den)
    (h : num * Nat.pow 2 1074 = n * den) :
    nearestMagnitude num den
      = min ((n.log2 - 52) * 2 ^ 52 + roundedQuotient n (2 ^ (n.log2 - 52))) infiniteMagnitude := by
  have hquot (shift : Nat) :
      roundedQuotient (n * den) (den * 2 ^ shift) = roundedQuotient n (2 ^ shift) := by
    rw [Nat.mul_comm den]
    exact roundedQuotient_mul_right n (2 ^ shift) hden
  simp only [nearestMagnitude, h, Nat.mul_div_cancel n hden]
  simp only [Nat.pow_eq, hquot]

/-- Cutting a double's units to 53 significant bits recovers its magnitude: nothing is cut off, and
    the shift is the biased exponent less one, or zero for the doubles below `2 ^ 52` units. -/
theorem roundedQuotient_units (d : Double) :
    (d.units.log2 - 52) * 2 ^ 52 + roundedQuotient d.units (2 ^ (d.units.log2 - 52))
      = d.magnitude := by
  have hsplit : d.magnitude / 2 ^ 52 * 2 ^ 52 + d.magnitude % 2 ^ 52 = d.magnitude :=
    Nat.div_add_mod' _ _
  have hfraction : d.magnitude % 2 ^ 52 < 2 ^ 52 := Nat.mod_lt _ (by decide)
  simp only [units, Nat.pow_eq]
  generalize d.magnitude / 2 ^ 52 = exponent at hsplit
  generalize d.magnitude % 2 ^ 52 = fraction at hsplit hfraction
  cases exponent with
  | zero =>
    have hlog : fraction.log2 - 52 = 0 := by
      by_cases h : fraction = 0
      · simp [h]
      · have := (Nat.log2_lt h).2 hfraction
        omega
    simp only [if_true, hlog, Nat.pow_zero]
    rw [← hsplit, ← Nat.mul_one fraction, roundedQuotient_mul_self _ Nat.one_pos]
    omega
  | succ exponent =>
    have hlog : ((2 ^ 52 + fraction) * 2 ^ exponent).log2 - 52 = exponent := by
      have hpos : 0 < 2 ^ exponent := Nat.two_pow_pos exponent
      have : ((2 ^ 52 + fraction) * 2 ^ exponent).log2 = 52 + exponent := by
        rw [Nat.log2_eq_iff (by positivity)]
        constructor
        · rw [Nat.pow_add]
          exact Nat.mul_le_mul_right _ (by omega)
        · rw [Nat.add_right_comm, Nat.pow_add]
          exact (Nat.mul_lt_mul_right hpos).2 (by omega)
      omega
    rw [if_neg (Nat.succ_ne_zero exponent), Nat.add_sub_cancel, hlog,
      roundedQuotient_mul_self _ (Nat.two_pow_pos exponent), ← hsplit, Nat.succ_mul, Nat.add_assoc]

theorem mul_pow_five_mul_pow_two (m n : Nat) :
    m * Nat.pow 5 n * Nat.pow 2 n = m * Nat.pow 10 n := by
  simp only [Nat.pow_eq, Nat.mul_assoc, ← Nat.mul_pow]

/-- The last decimal that the search comes to is the double itself and reads back. -/
theorem ofDecimal_exact {d : Double} (h : d.isFinite) :
    ofDecimal d.isNegative (gridPoint d.decimalUnits 0) = d := by
  have hfinite : d.magnitude < infiniteMagnitude := by simpa [isFinite] using h
  have hscaled : d.decimalUnits * Nat.pow 2 1074 = d.units * Nat.pow 10 1074 := by
    unfold decimalUnits
    generalize 1074 = places
    exact mul_pow_five_mul_pow_two d.units places
  have hmag : nearestMagnitude d.decimalUnits (Nat.pow 10 1074) = d.magnitude := by
    rw [nearestMagnitude_of_units (pow_ten_pos _) hscaled, roundedQuotient_units]
    exact Nat.min_eq_left (Nat.le_of_lt hfinite)
  have hpoint : gridPoint d.decimalUnits 0 = ⟨d.decimalUnits, 1074⟩ := rfl
  rw [hpoint, ofDecimal, nearest, hmag, ofMagnitude_magnitude]

/-! ## The decimal that is printed -/

/-- Of two candidates only one that passes the test is taken. -/
theorem reads_of_betterOf {reads : Decimal → Bool} {nearerBelow : Bool}
    {below above decimal : Decimal} (h : betterOf reads nearerBelow below above = some decimal) :
    reads decimal = true := by
  unfold betterOf at h
  split at h
  · next hbelow habove =>
    obtain rfl := Option.some.inj h
    split
    · exact hbelow
    · exact habove
  · next hbelow _ => exact Option.some.inj h ▸ hbelow
  · next _ habove => exact Option.some.inj h ▸ habove
  · simp at h

theorem isReadFrom_of_onGrid? {d : Double} {exponent : Nat} {decimal : Decimal}
    (h : d.onGrid? exponent = some decimal) : d.isReadFrom decimal = true := by
  unfold onGrid? at h
  exact reads_of_betterOf h

/-- Wherever the search starts, what it finds reads back. -/
theorem ofDecimal_firstOnGrid {d : Double} (h : d.isFinite) (exponent : Nat) :
    ofDecimal d.isNegative (d.firstOnGrid exponent) = d := by
  induction exponent with
  | zero =>
    rw [firstOnGrid]
    exact ofDecimal_exact h
  | succ exponent ih =>
    rw [firstOnGrid]
    cases hgrid : d.onGrid? (exponent + 1) with
    | none => exact ih
    | some decimal =>
      rw [Option.getD_some]
      simpa only [isReadFrom, beq_iff_eq] using isReadFrom_of_onGrid? hgrid

/-- The decimal in the text of a finite double reads back, bit for bit. -/
theorem ofDecimal_shortest {d : Double} (h : d.isFinite) :
    ofDecimal d.isNegative d.shortest = d := by
  rw [shortest, ofDecimal_trim]
  exact ofDecimal_firstOnGrid h _

end Double

/-! ## The digits of a decimal -/

namespace Decimal

/-- The digits before the point. -/
def whole (d : Decimal) : List Char := d.digits.take (d.digits.length - d.places)

/-- The digits after the point. -/
def fraction (d : Decimal) : List Char := d.digits.drop (d.digits.length - d.places)

theorem isDigit_of_mem_digits {d : Decimal} {c : Char} (h : c ∈ d.digits) : c.isDigit = true := by
  simp only [digits, List.leftpad, List.mem_append] at h
  rcases h with h | h
  · rw [List.eq_of_mem_replicate h]
    decide
  · exact Nat.isDigit_of_mem_toDigits (by decide) (by decide) h

theorem places_lt_length_digits (d : Decimal) : d.places < d.digits.length := by
  simp only [digits, List.length_leftpad]
  omega

theorem isDigit_of_mem_whole {d : Decimal} {c : Char} (h : c ∈ d.whole) : c.isDigit = true :=
  isDigit_of_mem_digits (List.mem_of_mem_take h)

theorem isDigit_of_mem_fraction {d : Decimal} {c : Char} (h : c ∈ d.fraction) :
    c.isDigit = true :=
  isDigit_of_mem_digits (List.mem_of_mem_drop h)

theorem whole_ne_nil (d : Decimal) : d.whole ≠ [] := by
  have h := d.places_lt_length_digits
  intro hnil
  rw [whole, List.take_eq_nil_iff] at hnil
  rcases hnil with hzero | hempty
  · omega
  · rw [hempty] at h
    simp at h

theorem length_fraction (d : Decimal) : d.fraction.length = d.places := by
  have h := d.places_lt_length_digits
  rw [fraction, List.length_drop]
  omega

/-- The digits on both sides of the point denote the decimal. -/
theorem ofDigits_whole_fraction (d : Decimal) : ofDigits d.whole d.fraction = d := by
  have hvalue : Nat.ofDigitChars 10 d.digits 0 = d.coefficient := by
    rw [digits, List.leftpad, Nat.ofDigitChars_append, Nat.ofDigitChars_replicate_zero, Nat.mul_zero,
      Nat.ofDigitChars_ten_toDigits]
  rw [ofDigits, length_fraction, whole, fraction, List.take_append_drop, hvalue]

theorem fraction_eq_nil {d : Decimal} (h : d.places = 0) : d.fraction = [] :=
  List.eq_nil_of_length_eq_zero (d.length_fraction.trans h)

/-- The text of a decimal with places has a point in it, that of a whole number has none. -/
theorem toList_text (d : Decimal) :
    d.text.toList = if d.places = 0 then d.whole else d.whole ++ '.' :: d.fraction := by
  by_cases h : d.places = 0
  · simp [text, whole, h]
  · simp [text, whole, fraction, h]

end Decimal

end Lisplet
