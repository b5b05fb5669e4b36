import Mathlib.Algebra.Order.Ring.Rat
import Mathlib.Order.Monotone.Basic
import Mathlib.Tactic.FieldSimp
import Mathlib.Tactic.Positivity
import Lisplet.Proofs.ReadBack

set_option autoImplicit false

/-! # Correct rounding

`Double.Rounds` says which double a number is rounded to, in terms of the numbers that doubles stand
for and without a word on bits: the nearest one, of two that are equally near the even one, and
infinity from the point on where the largest finite double is no longer the nearest of the numbers
that an unlimited exponent would allow. There is only one such double, and `Double.nearest` is it
(`Double.rounds_nearest_iff`).

The values of magnitudes increase with the magnitudes, so a number has one magnitude below it and
the next one above it (`Double.exists_around`). The choice between these two is all there is to
rounding (`Double.nearestBelow_choice`), and it also decides about infinity
(`Double.choice_lt_infinite_iff`). -/

namespace Lisplet

namespace Double

/-! ## The numbers that doubles stand for -/

/-- The number with a given sign and absolute value. -/
def signed (negative : Bool) (y : ℚ) : ℚ := if negative then -y else y

/-- The number that a finite double stands for. -/
def value (d : Double) : ℚ := signed d.isNegative (d.units / 2 ^ 1074)

/-- Half way between the largest finite double, `2 ^ 1024 - 2 ^ 971`, and `2 ^ 1024`, which would
    come next if there were an exponent for it. -/
def overflow : ℚ := 2 ^ 1024 - 2 ^ 970

/-- A number is rounded to a double, given the sign that the double is to have: to the nearest one,
    and to one with an even significand if another one is as near. -/
structure Rounds (negative : Bool) (q : ℚ) (d : Double) : Prop where
  sign : d.isNegative = negative
  finite_iff : d.isFinite ↔ |q| < overflow
  infinite_iff : d.isInfinite ↔ overflow ≤ |q|
  nearest : d.isFinite → ∀ other : Double, other.isFinite → |q - d.value| ≤ |q - other.value|
  even : d.isFinite → ∀ other : Double, other.isFinite → other.value ≠ d.value →
    |q - other.value| = |q - d.value| → d.magnitude % 2 = 0

/-! ## Values increase with magnitudes -/

/-- The multiple of `2 ^ (-1074)` that a magnitude stands for. -/
def unitsOf (magnitude : Nat) : Nat :=
  if magnitude / 2 ^ 52 = 0 then magnitude % 2 ^ 52
  else (2 ^ 52 + magnitude % 2 ^ 52) * 2 ^ (magnitude / 2 ^ 52 - 1)

/-- The absolute value that a magnitude stands for. -/
def valueOf (magnitude : Nat) : ℚ := unitsOf magnitude / 2 ^ 1074

theorem value_eq (d : Double) : d.value = signed d.isNegative (valueOf d.magnitude) := rfl

/-- A significand and a shift make a magnitude, also if the significand is the first one that has a
    bit too many. -/
theorem unitsOf_shift {shift significand : Nat} (hle : significand ≤ 2 ^ 53)
    (hlow : shift = 0 ∨ 2 ^ 52 ≤ significand) :
    unitsOf (shift * 2 ^ 52 + significand) = significand * 2 ^ shift := by
  have hmod : (shift * 2 ^ 52 + significand) % 2 ^ 52 = significand % 2 ^ 52 :=
    Nat.mul_add_mod_self_right _ _ _
  have hdiv : (shift * 2 ^ 52 + significand) / 2 ^ 52 = shift + significand / 2 ^ 52 := by
    omega
  unfold unitsOf
  rw [hmod, hdiv]
  by_cases hsmall : significand < 2 ^ 52
  · obtain rfl : shift = 0 := by omega
    rw [if_pos (by omega), Nat.mod_eq_of_lt hsmall, Nat.pow_zero, Nat.mul_one]
  · rw [if_neg (by omega)]
    rcases Nat.lt_or_eq_of_le hle with hlt | rfl
    · have hquot : significand / 2 ^ 52 = 1 := by omega
      have hsum : 2 ^ 52 + significand % 2 ^ 52 = significand := by omega
      rw [hquot, hsum, Nat.add_sub_cancel]
    · have hshift : shift + 2 ^ 53 / 2 ^ 52 - 1 = shift + 1 := by omega
      have hsum : 2 ^ 52 + 2 ^ 53 % 2 ^ 52 = 2 ^ 52 := by decide
      rw [hshift, hsum, Nat.pow_succ]
      omega

/-- Every magnitude is made of a significand and a shift. -/
theorem exists_shift (magnitude : Nat) :
    ∃ shift significand, magnitude = shift * 2 ^ 52 + significand ∧ significand < 2 ^ 53 ∧
      (shift = 0 ∨ 2 ^ 52 ≤ significand) := by
  by_cases h : magnitude < 2 ^ 52
  · exact ⟨0, magnitude, by omega, by omega, .inl rfl⟩
  · refine ⟨magnitude / 2 ^ 52 - 1, 2 ^ 52 + magnitude % 2 ^ 52, ?_, ?_, .inr (by omega)⟩
    · omega
    · omega

theorem unitsOf_lt_succ (magnitude : Nat) : unitsOf magnitude < unitsOf (magnitude + 1) := by
  obtain ⟨shift, significand, rfl, hlt, hlow⟩ := exists_shift magnitude
  rw [Nat.add_assoc, unitsOf_shift (Nat.le_of_lt hlt) hlow, unitsOf_shift hlt (by omega)]
  exact Nat.mul_lt_mul_of_pos_right (Nat.lt_succ_self significand) (Nat.two_pow_pos shift)

theorem strictMono_valueOf : StrictMono valueOf := by
  refine strictMono_nat_of_lt_succ fun magnitude => ?_
  have hunits : (unitsOf magnitude : ℚ) < unitsOf (magnitude + 1) := by
    exact_mod_cast unitsOf_lt_succ magnitude
  exact div_lt_div_of_pos_right hunits (by positivity)

theorem valueOf_zero : valueOf 0 = 0 := by
  simp [valueOf, unitsOf]

theorem valueOf_nonneg (magnitude : Nat) : 0 ≤ valueOf magnitude := by
  rw [← valueOf_zero]
  exact strictMono_valueOf.monotone (Nat.zero_le magnitude)

/-! ## The magnitudes around a number -/

/-- Of two neighbours the lower one is chosen if it is nearer to the number, or as near and even. -/
def choice (y : ℚ) (lower : Nat) : Nat :=
  if 2 * y < valueOf lower + valueOf (lower + 1) ∨
      2 * y = valueOf lower + valueOf (lower + 1) ∧ lower % 2 = 0 then lower
  else lower + 1

/-- Cut to its leading bits a quotient has at most 53 of them, and fewer than that only if nothing
    is cut off. -/
theorem leadingBits_bounds (scaled den : Nat) :
    let shift := (scaled / den).log2 - 52
    scaled / (den * 2 ^ shift) < 2 ^ 53 ∧
      (shift = 0 ∨ 2 ^ 52 ≤ scaled / (den * 2 ^ shift)) := by
  intro shift
  rw [← Nat.div_div_eq_div_mul]
  have hpos : 0 < 2 ^ shift := Nat.two_pow_pos shift
  constructor
  · rw [Nat.div_lt_iff_lt_mul hpos, ← Nat.pow_add]
    refine Nat.lt_of_lt_of_le Nat.lt_log2_self (Nat.pow_le_pow_right (by decide) ?_)
    omega
  · by_cases hshift : shift = 0
    · exact .inl hshift
    · refine .inr ?_
      have hne : scaled / den ≠ 0 := by
        intro hzero
        simp [shift, hzero] at hshift
      rw [Nat.le_div_iff_mul_le hpos, ← Nat.pow_add]
      refine Nat.le_trans (Nat.pow_le_pow_right (by decide) ?_) (Nat.log2_self_le hne)
      omega

theorem cast_two_pow (exponent : Nat) : ((Nat.pow 2 exponent : Nat) : ℚ) = 2 ^ exponent := by
  rw [Nat.pow_eq, Nat.cast_pow, Nat.cast_ofNat]

/-- The magnitudes around a fraction, seen from its leading bits and the rest. -/
theorem around_of_cut {num den scale shift cut rest : Nat} (hden : 0 < den)
    (hscale : (scale : ℚ) = 2 ^ 1074) (hsplit : den * 2 ^ shift * cut + rest = num * scale)
    (hrest : rest < den * 2 ^ shift) (hlt : cut < 2 ^ 53) (hlow : shift = 0 ∨ 2 ^ 52 ≤ cut) :
    valueOf (shift * 2 ^ 52 + cut) ≤ num / den ∧
      (num : ℚ) / den < valueOf (shift * 2 ^ 52 + cut + 1) ∧
      choice (num / den) (shift * 2 ^ 52 + cut)
        = shift * 2 ^ 52 + if 2 * rest < den * 2 ^ shift ∨ 2 * rest = den * 2 ^ shift ∧ cut % 2 = 0
            then cut else cut + 1 := by
  -- Everything is measured in steps between two fractions of this denominator.
  obtain ⟨step, hdef⟩ : ∃ step : ℚ, step = 1 / (den * 2 ^ 1074) := ⟨_, rfl⟩
  have hstep : 0 < step := by
    rw [hdef]
    positivity
  have hlower : valueOf (shift * 2 ^ 52 + cut) = (den * 2 ^ shift * cut : Nat) * step := by
    rw [valueOf, unitsOf_shift (Nat.le_of_lt hlt) hlow, hdef]
    push_cast
    field_simp
  have hupper : valueOf (shift * 2 ^ 52 + cut + 1)
      = valueOf (shift * 2 ^ 52 + cut) + (den * 2 ^ shift : Nat) * step := by
    rw [hlower, valueOf, Nat.add_assoc, unitsOf_shift hlt (by omega), hdef]
    push_cast
    field_simp
  have hnum : (num : ℚ) / den = valueOf (shift * 2 ^ 52 + cut) + rest * step := by
    rw [hlower, ← add_mul, ← Nat.cast_add, hsplit, Nat.cast_mul, hscale, hdef]
    field_simp
  have hbelow : (rest : ℚ) * step < (den * 2 ^ shift : Nat) * step :=
    mul_lt_mul_of_pos_right (by exact_mod_cast hrest) hstep
  have hcmp (a b : Nat) : ((a : ℚ) * step < b * step ↔ a < b) ∧ ((a : ℚ) * step = b * step ↔ a = b) :=
    ⟨(mul_lt_mul_iff_left₀ hstep).trans Nat.cast_lt, (mul_left_inj' hstep.ne').trans Nat.cast_inj⟩
  have hdouble : 2 * ((rest : ℚ) * step) = (2 * rest : Nat) * step := by push_cast; ring
  refine ⟨?_, ?_, ?_⟩
  · rw [hnum]
    exact le_add_of_nonneg_right (mul_nonneg (Nat.cast_nonneg rest) hstep.le)
  · rw [hnum, hupper]
    exact (add_lt_add_iff_left _).2 hbelow
  · have hlt_iff : 2 * ((num : ℚ) / den) < valueOf (shift * 2 ^ 52 + cut)
          + valueOf (shift * 2 ^ 52 + cut + 1) ↔ 2 * rest < den * 2 ^ shift := by
      rw [← (hcmp _ _).1, ← hdouble, hupper, hnum]
      constructor <;> intro h <;> linarith
    have heq_iff : 2 * ((num : ℚ) / den) = valueOf (shift * 2 ^ 52 + cut)
          + valueOf (shift * 2 ^ 52 + cut + 1) ↔ 2 * rest = den * 2 ^ shift := by
      rw [← (hcmp _ _).2, ← hdouble, hupper, hnum]
      constructor <;> intro h <;> linarith
    have heven : (shift * 2 ^ 52 + cut) % 2 = cut % 2 := by omega
    rw [choice]
    simp only [hlt_iff, heq_iff, heven]
    split
    · rfl
    · rw [Nat.add_assoc]

/-- A fraction lies between two magnitudes that follow each other, and its nearest magnitude is the
    one that is chosen of these, unless that is beyond infinity. -/
theorem exists_around (num : Nat) {den : Nat} (hden : 0 < den) :
    ∃ lower, valueOf lower ≤ num / den ∧ (num : ℚ) / den < valueOf (lower + 1) ∧
      nearestMagnitude num den = min (choice (num / den) lower) infiniteMagnitude := by
  have hscale := cast_two_pow 1074
  unfold nearestMagnitude
  generalize Nat.pow 2 1074 = scale at hscale ⊢
  let shift := (num * scale / den).log2 - 52
  have hpos : 0 < den * 2 ^ shift := by positivity
  obtain ⟨hlt, hlow⟩ := leadingBits_bounds (num * scale) den
  have hsplit := Nat.div_add_mod (num * scale) (den * 2 ^ shift)
  obtain ⟨hlower, hupper, hchoice⟩ :=
    around_of_cut hden hscale hsplit (Nat.mod_lt _ hpos) hlt hlow
  refine ⟨_, hlower, hupper, ?_⟩
  rw [hchoice]
  rfl

/-! ## The nearest magnitude -/

/-- Among the magnitudes below a bound this one is nearest to the number, and it is even if another
    one is as near. -/
structure NearestBelow (bound : Nat) (y : ℚ) (magnitude : Nat) : Prop where
  le : ∀ other < bound, |y - valueOf magnitude| ≤ |y - valueOf other|
  even : ∀ other < bound, other ≠ magnitude →
    |y - valueOf other| = |y - valueOf magnitude| → magnitude % 2 = 0

section Around

variable {y : ℚ} {lower : Nat} (hlower : valueOf lower ≤ y) (hupper : y < valueOf (lower + 1))

include hlower hupper in
/-- Each magnitude is further away from the number than one of the two neighbours, or is itself that
    neighbour. -/
theorem exists_neighbour (other : Nat) :
    ∃ neighbour, (neighbour = lower ∨ neighbour = lower + 1) ∧
      |y - valueOf neighbour| ≤ |y - valueOf other| ∧
      (|y - valueOf neighbour| = |y - valueOf other| → other = neighbour) := by
  rcases Nat.lt_or_ge lower other with h | h
  · have hle := strictMono_valueOf.monotone (Nat.succ_le_of_lt h)
    rw [abs_sub_comm y, abs_of_nonneg (show 0 ≤ valueOf other - y by linarith)]
    refine ⟨lower + 1, .inr rfl, ?_⟩
    rw [abs_sub_comm y, abs_of_nonneg (by linarith)]
    exact ⟨by linarith, fun heq => strictMono_valueOf.injective (by linarith)⟩
  · have hle := strictMono_valueOf.monotone h
    rw [abs_of_nonneg (show 0 ≤ y - valueOf other by linarith)]
    refine ⟨lower, .inl rfl, ?_⟩
    rw [abs_of_nonneg (by linarith)]
    exact ⟨by linarith, fun heq => strictMono_valueOf.injective (by linarith)⟩

include hlower hupper in
/-- It is enough to compare the two neighbours. -/
theorem nearestBelow_of_neighbours (bound : Nat) {magnitude : Nat}
    (hle : ∀ neighbour, neighbour = lower ∨ neighbour = lower + 1 →
      |y - valueOf magnitude| ≤ |y - valueOf neighbour|)
    (heven : ∀ neighbour, neighbour = lower ∨ neighbour = lower + 1 → neighbour ≠ magnitude →
      |y - valueOf neighbour| = |y - valueOf magnitude| → magnitude % 2 = 0) :
    NearestBelow bound y magnitude := by
  constructor
  · intro other _
    obtain ⟨neighbour, hneighbour, hnear, _⟩ := exists_neighbour hlower hupper other
    exact (hle neighbour hneighbour).trans hnear
  · intro other _ hne htie
    obtain ⟨neighbour, hneighbour, hnear, hsame⟩ := exists_neighbour hlower hupper other
    have heq : |y - valueOf neighbour| = |y - valueOf magnitude| :=
      le_antisymm (hnear.trans htie.le) (hle neighbour hneighbour)
    obtain rfl := hsame (heq.trans htie.symm)
    exact heven _ hneighbour hne heq

include hlower hupper in
/-- The magnitude that is chosen of the two neighbours is the nearest of all. -/
theorem nearestBelow_choice (bound : Nat) : NearestBelow bound y (choice y lower) := by
  have hlow : |y - valueOf lower| = y - valueOf lower := abs_of_nonneg (by linarith)
  have hhigh : |y - valueOf (lower + 1)| = valueOf (lower + 1) - y := by
    rw [abs_sub_comm, abs_of_nonneg (by linarith)]
  unfold choice
  split
  · next h =>
    refine nearestBelow_of_neighbours hlower hupper bound ?_ ?_
    · rintro neighbour (rfl | rfl)
      · exact le_rfl
      · rw [hlow, hhigh]
        rcases h with h | h
        · linarith
        · linarith [h.1]
    · rintro neighbour (rfl | rfl) hne htie
      · exact absurd rfl hne
      · rw [hlow, hhigh] at htie
        rcases h with h | h
        · linarith
        · exact h.2
  · next h =>
    rw [not_or, not_and, not_lt] at h
    refine nearestBelow_of_neighbours hlower hupper bound ?_ ?_
    · rintro neighbour (rfl | rfl)
      · rw [hlow, hhigh]
        linarith [h.1]
      · exact le_rfl
    · rintro neighbour (rfl | rfl) hne htie
      · rw [hlow, hhigh] at htie
        have hodd := h.2 (by linarith)
        omega
      · exact absurd rfl hne

end Around

/-- Two magnitudes that are both nearest would be neighbours, and these are not both even. -/
theorem NearestBelow.unique {bound : Nat} {y : ℚ} {m n : Nat} (hm : NearestBelow bound y m)
    (hn : NearestBelow bound y n) (hmb : m < bound) (hnb : n < bound) : m = n := by
  have htie := le_antisymm (hm.le n hnb) (hn.le m hmb)
  by_contra hne
  wlog hlt : m < n generalizing m n
  · exact this hn hm hnb hmb htie.symm (Ne.symm hne) (by omega)
  have hmeven := hm.even n hnb (Ne.symm hne) htie.symm
  have hneven := hn.even m hmb hne htie
  -- The magnitude right behind `m` comes before `n`, and it is nearer than both.
  have hbetween := hm.le (m + 1) (by omega)
  have hlow := strictMono_valueOf (Nat.lt_succ_self m)
  have hhigh := strictMono_valueOf (show m + 1 < n by omega)
  have hmiddle : y - valueOf m = -(y - valueOf n) := by
    rcases abs_eq_abs.1 htie with h | h
    · linarith
    · exact h
  rcases abs_cases (y - valueOf m) with ⟨h, _⟩ | ⟨h, _⟩ <;>
    rcases abs_cases (y - valueOf (m + 1)) with ⟨h', _⟩ | ⟨h', _⟩ <;>
      rw [h, h'] at hbetween <;> linarith

/-! ## Infinity -/

theorem valueOf_infinite : valueOf infiniteMagnitude = 2 ^ 1024 := by
  have hsplit : infiniteMagnitude = 2046 * 2 ^ 52 + 2 ^ 52 := by decide
  rw [valueOf, hsplit, unitsOf_shift (by omega) (by omega), div_eq_iff (by positivity),
    Nat.cast_mul, Nat.cast_pow, Nat.cast_pow, Nat.cast_ofNat, ← pow_add, ← pow_add]

/-- The largest finite double. -/
theorem valueOf_largest : valueOf (infiniteMagnitude - 1) = 2 ^ 1024 - 2 ^ 971 := by
  have hsplit : infiniteMagnitude - 1 = 2045 * 2 ^ 52 + (2 ^ 53 - 1) := by decide
  have hsignificand : ((2 ^ 53 - 1 : Nat) : ℚ) = 2 ^ 53 - 1 := by norm_num
  rw [valueOf, hsplit, unitsOf_shift (by omega) (by omega), div_eq_iff (by positivity),
    Nat.cast_mul, Nat.cast_pow, hsignificand, Nat.cast_ofNat, sub_mul, sub_mul, one_mul, ← pow_add,
    ← pow_add, ← pow_add]

theorem two_mul_overflow :
    2 * overflow = valueOf (infiniteMagnitude - 1) + valueOf infiniteMagnitude := by
  rw [valueOf_infinite, valueOf_largest, overflow, pow_succ 2 970]
  generalize (2 : ℚ) ^ 1024 = next
  generalize (2 : ℚ) ^ 970 = half
  ring

/-- The magnitude that is chosen is a finite one exactly if the number does not overflow. -/
theorem choice_lt_infinite_iff {y : ℚ} {lower : Nat} (hlower : valueOf lower ≤ y)
    (hupper : y < valueOf (lower + 1)) : choice y lower < infiniteMagnitude ↔ y < overflow := by
  have hhalf := two_mul_overflow
  have hlast : valueOf (infiniteMagnitude - 1) < valueOf infiniteMagnitude :=
    strictMono_valueOf (by decide)
  have hchoice : lower ≤ choice y lower ∧ choice y lower ≤ lower + 1 := by
    unfold choice
    split <;> omega
  rcases Nat.lt_trichotomy (lower + 1) infiniteMagnitude with h | h | h
  · have hmono := strictMono_valueOf.monotone (Nat.le_sub_one_of_lt h)
    exact iff_of_true (by omega) (by linarith)
  · -- The number is between the largest finite double, which is odd, and infinity.
    obtain rfl : lower = infiniteMagnitude - 1 := by omega
    have hodd : (infiniteMagnitude - 1) % 2 ≠ 0 := by decide
    rw [choice, h, ← hhalf]
    split
    · next hlt =>
      rcases hlt with hlt | ⟨_, heven⟩
      · exact iff_of_true (by omega) (by linarith)
      · exact absurd heven hodd
    · next hge => exact iff_of_false (by omega) (fun hlt => hge (.inl (by linarith)))
  · have hmono := strictMono_valueOf.monotone (Nat.le_of_lt_succ h)
    exact iff_of_false (by omega) (by linarith)

/-! ## Signs -/

section Signed

variable {b b' : Bool} {y z : ℚ}

theorem abs_signed (b : Bool) (hy : 0 ≤ y) : |signed b y| = y := by
  cases b <;> simp [signed, abs_of_nonneg hy]

theorem abs_signed_sub (b : Bool) (y z : ℚ) : |signed b y - signed b z| = |y - z| := by
  cases b
  · rfl
  · rw [signed, signed, if_pos rfl, if_pos rfl, neg_sub_neg, abs_sub_comm]

/-- Numbers of different signs are as far apart as they are from zero together. -/
theorem abs_signed_sub_of_ne (hy : 0 ≤ y) (hz : 0 ≤ z) (hb : b ≠ b') :
    |signed b y - signed b' z| = y + z := by
  have hsum : |y + z| = y + z := abs_of_nonneg (add_nonneg hy hz)
  cases b
  · obtain rfl : b' = true := by simpa using hb.symm
    simpa [signed] using hsum
  · obtain rfl : b' = false := by simpa using hb.symm
    rw [← hsum, ← abs_neg]
    simp [signed, add_comm]

theorem abs_sub_le_abs_signed_sub (hy : 0 ≤ y) (hz : 0 ≤ z) :
    |y - z| ≤ |signed b y - signed b' z| := by
  by_cases hb : b = b'
  · rw [hb, abs_signed_sub]
  · rw [abs_signed_sub_of_ne hy hz hb, abs_le]
    constructor <;> linarith

theorem signed_inj (b : Bool) : signed b y = signed b z ↔ y = z := by
  cases b <;> simp [signed]

end Signed

theorem bits_ofMagnitude (negative : Bool) {magnitude : Nat} (h : magnitude < 2 ^ 63) :
    (ofMagnitude negative magnitude).bits.toNat = magnitude + if negative then 2 ^ 63 else 0 := by
  have hlt : magnitude + (if negative then 2 ^ 63 else 0) < 2 ^ 64 := by
    split <;> omega
  exact UInt64.toNat_ofNat_of_lt' hlt

theorem isNegative_ofMagnitude (negative : Bool) {magnitude : Nat} (h : magnitude < 2 ^ 63) :
    (ofMagnitude negative magnitude).isNegative = negative := by
  rw [isNegative, bits_ofMagnitude negative h]
  cases negative
  · simpa using h
  · simp

theorem magnitude_ofMagnitude (negative : Bool) {magnitude : Nat} (h : magnitude < 2 ^ 63) :
    (ofMagnitude negative magnitude).magnitude = magnitude := by
  rw [Double.magnitude, bits_ofMagnitude negative h, Nat.pow_eq]
  split <;> omega

theorem isFinite_iff (d : Double) : d.isFinite ↔ d.magnitude < infiniteMagnitude := by
  simp [isFinite]

theorem isInfinite_iff (d : Double) : d.isInfinite ↔ d.magnitude = infiniteMagnitude := by
  simp [isInfinite]

/-! ## Rounding -/

/-- Every finite magnitude is that of a double of either sign. -/
theorem exists_value_eq (negative : Bool) {magnitude : Nat} (h : magnitude < infiniteMagnitude) :
    ∃ d : Double, d.isFinite ∧ d.value = signed negative (valueOf magnitude) := by
  have hbits : magnitude < 2 ^ 63 := Nat.lt_trans h (by decide)
  refine ⟨ofMagnitude negative magnitude, ?_, ?_⟩
  · rwa [isFinite_iff, magnitude_ofMagnitude negative hbits]
  · rw [value_eq, isNegative_ofMagnitude negative hbits, magnitude_ofMagnitude negative hbits]

section

variable {negative : Bool} {y : ℚ} {d : Double}

/-- What a number rounds to has the nearest magnitude. -/
theorem Rounds.nearestBelow (h : Rounds negative (signed negative y) d) (hd : d.isFinite) :
    NearestBelow infiniteMagnitude y d.magnitude := by
  have hself : |signed negative y - d.value| = |y - valueOf d.magnitude| := by
    rw [value_eq, h.sign, abs_signed_sub]
  constructor
  · intro other hlt
    obtain ⟨e, he, hvalue⟩ := exists_value_eq negative hlt
    have hle := h.nearest hd e he
    rwa [hself, hvalue, abs_signed_sub] at hle
  · intro other hlt hne htie
    obtain ⟨e, he, hvalue⟩ := exists_value_eq negative hlt
    refine h.even hd e he ?_ ?_
    · rw [hvalue, value_eq, h.sign, Ne, signed_inj]
      exact fun heq => hne (strictMono_valueOf.injective heq)
    · rwa [hself, hvalue, abs_signed_sub]

/-- A double with the nearest magnitude and the right sign is nearest among the doubles of both
    signs. -/
theorem NearestBelow.le_abs_sub (h : NearestBelow infiniteMagnitude y d.magnitude)
    (hsign : d.isNegative = negative) (hy : 0 ≤ y) {other : Double} (hother : other.isFinite) :
    |signed negative y - d.value| ≤ |signed negative y - other.value| := by
  rw [value_eq, hsign, abs_signed_sub]
  exact (h.le _ ((isFinite_iff other).1 hother)).trans
    (abs_sub_le_abs_signed_sub hy (valueOf_nonneg _))

theorem NearestBelow.even_of_tie (h : NearestBelow infiniteMagnitude y d.magnitude)
    (hsign : d.isNegative = negative) (hy : 0 ≤ y) {other : Double} (hother : other.isFinite)
    (hne : other.value ≠ d.value)
    (htie : |signed negative y - other.value| = |signed negative y - d.value|) :
    d.magnitude % 2 = 0 := by
  have hlt := (isFinite_iff other).1 hother
  rw [value_eq d, hsign, abs_signed_sub] at htie
  by_cases hmagnitude : other.magnitude = d.magnitude
  · -- The other double differs in its sign alone, but then zero would be nearer than both.
    have hb : negative ≠ other.isNegative := by
      rintro rfl
      exact hne (by rw [value_eq, value_eq, hmagnitude, hsign])
    have hzero := h.le 0 (by decide)
    rw [value_eq, abs_signed_sub_of_ne hy (valueOf_nonneg _) hb, hmagnitude] at htie
    rw [valueOf_zero, sub_zero, abs_of_nonneg hy, ← htie] at hzero
    have hvalue : valueOf d.magnitude = 0 := le_antisymm (by linarith) (valueOf_nonneg _)
    refine absurd ?_ hne
    rw [value_eq, value_eq, hmagnitude, hvalue]
    simp [signed]
  · refine h.even _ hlt hmagnitude (le_antisymm ?_ (h.le _ hlt))
    rw [← htie, value_eq]
    exact abs_sub_le_abs_signed_sub hy (valueOf_nonneg _)

end

/-- The nearest double is the one that the fraction rounds to, and there is no other. -/
theorem rounds_nearest_iff (negative : Bool) (num : Nat) {den : Nat} (hden : 0 < den)
    (d : Double) :
    Rounds negative (signed negative (num / den)) d ↔ d = nearest negative num den := by
  have hy : (0 : ℚ) ≤ num / den := by positivity
  obtain ⟨lower, hlower, hupper, hmagnitude⟩ := exists_around num hden
  have hoverflow := choice_lt_infinite_iff hlower hupper
  have hnearest := nearestBelow_choice hlower hupper infiniteMagnitude
  have hbits : nearestMagnitude num den < 2 ^ 63 := by
    rw [hmagnitude]
    exact Nat.lt_of_le_of_lt (Nat.min_le_right _ _) (by decide)
  constructor
  · intro h
    have hfinite := h.finite_iff
    have hinfinite := h.infinite_iff
    rw [abs_signed negative hy] at hfinite hinfinite
    have hsame : d.magnitude = nearestMagnitude num den := by
      rw [hmagnitude]
      by_cases hlt : (num : ℚ) / den < overflow
      · have hd := hfinite.2 hlt
        have hchoice := hoverflow.2 hlt
        rw [Nat.min_eq_left hchoice.le]
        exact (h.nearestBelow hd).unique hnearest ((isFinite_iff d).1 hd) hchoice
      · have hchoice := Nat.not_lt.1 fun hlt' => hlt (hoverflow.1 hlt')
        rw [Nat.min_eq_right hchoice]
        exact (isInfinite_iff d).1 (hinfinite.2 (not_lt.1 hlt))
    rw [← ofMagnitude_magnitude d, h.sign, hsame]
    rfl
  · rintro rfl
    have hsign : (nearest negative num den).isNegative = negative :=
      isNegative_ofMagnitude negative hbits
    have hsame : (nearest negative num den).magnitude = nearestMagnitude num den :=
      magnitude_ofMagnitude negative hbits
    have hbelow : (nearest negative num den).isFinite →
        NearestBelow infiniteMagnitude (num / den) (nearest negative num den).magnitude := by
      rw [isFinite_iff, hsame, hmagnitude]
      intro hlt
      rwa [Nat.min_eq_left (by omega)]
    refine ⟨hsign, ?_, ?_, fun hd other hother => (hbelow hd).le_abs_sub hsign hy hother,
      fun hd other hother hne htie => (hbelow hd).even_of_tie hsign hy hother hne htie⟩
    · rw [abs_signed negative hy, isFinite_iff, hsame, hmagnitude, ← hoverflow]
      omega
    · rw [abs_signed negative hy, isInfinite_iff, hsame, hmagnitude, ← not_lt, ← hoverflow]
      omega

end Double

end Lisplet
