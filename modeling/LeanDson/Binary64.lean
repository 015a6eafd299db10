import Mathlib.Tactic.Ring
import Mathlib.Tactic.NormNum

/-! Binary64 numbers as sign, biased exponent and fraction, with the C library operations `frexp`,
`ldexp` and the conversions to and from 64-bit unsigned integers. A finite number is
`± sig * 2 ^ unit`; `round` is the nearest number to `m * 2 ^ q`, ties to even. -/

namespace LeanDson

/-- A binary64 number by its three fields. -/
structure Binary64 where
  sign : Bool
  bexp : Nat
  frac : Nat
  bexp_lt : bexp < 2048
  frac_lt : frac < 2 ^ 52
  deriving DecidableEq

namespace Binary64

@[ext] theorem ext_fields {x y : Binary64} (hs : x.sign = y.sign) (hb : x.bexp = y.bexp)
    (hf : x.frac = y.frac) : x = y := by
  cases x
  cases y
  simp only at hs hb hf
  subst hs hb hf
  rfl

/-! ### Bit patterns -/

def toNat (x : Binary64) : Nat := (if x.sign then 2 ^ 63 else 0) + x.bexp * 2 ^ 52 + x.frac

def ofNat (n : Nat) : Binary64 where
  sign := decide (n / 2 ^ 63 % 2 = 1)
  bexp := n / 2 ^ 52 % 2048
  frac := n % 2 ^ 52
  bexp_lt := Nat.mod_lt _ (by decide)
  frac_lt := Nat.mod_lt _ (by decide)

theorem toNat_lt (x : Binary64) : x.toNat < 2 ^ 64 := by
  have hb := x.bexp_lt
  have hf := x.frac_lt
  simp only [toNat]
  split <;> omega

theorem ofNat_toNat (x : Binary64) : ofNat x.toNat = x := by
  have hb := x.bexp_lt
  have hf := x.frac_lt
  cases hs : x.sign <;> apply ext_fields <;> simp only [ofNat, toNat, hs] <;> simp <;> omega

theorem toNat_ofNat {n : Nat} (hn : n < 2 ^ 64) : (ofNat n).toNat = n := by
  simp only [ofNat, toNat, decide_eq_true_eq]
  split <;> omega

/-! ### Classes and values -/

def isNaN (x : Binary64) : Bool := x.bexp == 2047 && x.frac != 0

def isInf (x : Binary64) : Bool := x.bexp == 2047 && x.frac == 0

def isFinite (x : Binary64) : Bool := x.bexp != 2047

/-- The integer significand of a finite number. -/
def sig (x : Binary64) : Nat := if x.bexp = 0 then x.frac else 2 ^ 52 + x.frac

/-- The exponent of the significand's unit. -/
def unit (x : Binary64) : Int := max x.bexp 1 - 1075

def zero (s : Bool) : Binary64 := ⟨s, 0, 0, by decide, by decide⟩

def infinity (s : Bool) : Binary64 := ⟨s, 2047, 0, by decide, by decide⟩

def quietNaN : Binary64 := ⟨false, 2047, 2 ^ 51, by decide, by decide⟩

def fabs (x : Binary64) : Binary64 := { x with sign := false }

def neg (x : Binary64) : Binary64 := { x with sign := !x.sign }

/-- The comparison `x < 0`: false on zeros and on NaN. -/
def isNegative (x : Binary64) : Bool := x.sign && !x.isNaN && !(x.bexp == 0 && x.frac == 0)

/-- One representative for each value: all NaNs are one, and the two zeros are one. -/
def canon (x : Binary64) : Binary64 :=
  if x.isNaN then quietNaN else if x.bexp = 0 ∧ x.frac = 0 then zero false else x

theorem sig_lt (x : Binary64) : x.sig < 2 ^ 53 := by
  have hf := x.frac_lt
  simp only [sig]
  split <;> omega

theorem finite_of_not {x : Binary64} (hn : x.isNaN = false) (hi : x.isInf = false) :
    x.bexp < 2047 := by
  have hb := x.bexp_lt
  simp only [isNaN, isInf, Bool.and_eq_false_iff, beq_eq_false_iff_ne, bne_eq_false_iff_eq] at hn hi
  omega

/-! ### Rounding -/

/-- The integer nearest to `m / d`, ties to even. -/
def nearest (m d : Nat) : Nat :=
  if 2 * (m % d) < d then m / d
  else if d < 2 * (m % d) then m / d + 1
  else m / d + m / d % 2

/-- The number with the given sign whose exponent and fraction fields together read `n`; from the
pattern of infinity on, infinity. -/
def ofMagnitude (s : Bool) (n : Nat) : Binary64 where
  sign := s
  bexp := min n (2047 * 2 ^ 52) / 2 ^ 52
  frac := min n (2047 * 2 ^ 52) % 2 ^ 52
  bexp_lt := by omega
  frac_lt := Nat.mod_lt _ (by decide)

/-- The exponent of the unit a number of size `m * 2 ^ q` is rounded to. -/
def roundUnit (m : Nat) (q : Int) : Int := max (q + Nat.log2 m - 52) (-1074)

/-- The number nearest to `± m * 2 ^ q`. -/
def round (s : Bool) (m : Nat) (q : Int) : Binary64 :=
  if m = 0 then zero s
  else
    let u := roundUnit m q
    let k := if u ≤ q then m * 2 ^ (q - u).toNat else nearest m (2 ^ (u - q).toNat)
    ofMagnitude s ((u + 1074).toNat * 2 ^ 52 + k)

theorem nearest_mul (k d : Nat) (hd : 0 < d) : nearest (k * d) d = k := by
  rw [nearest, Nat.mul_mod_left, Nat.mul_div_cancel _ hd, if_pos (by omega)]

theorem log_of_normal {m : Nat} (hlo : 2 ^ 52 ≤ m) (hhi : m < 2 ^ 53) : Nat.log2 m = 52 :=
  (Nat.log2_eq_iff (by omega)).mpr ⟨hlo, hhi⟩

theorem log_le {m : Nat} (hm : m < 2 ^ 53) : Nat.log2 m ≤ 52 := by
  by_cases h0 : m = 0
  · simp [h0]
  · have hlt := (Nat.log2_lt h0).mpr hm
    omega

/-- Scaling by the missing power of two fills the significand. -/
theorem scale_bounds {m : Nat} (h0 : m ≠ 0) (hm : m < 2 ^ 53) :
    2 ^ 52 ≤ m * 2 ^ (52 - Nat.log2 m) ∧ m * 2 ^ (52 - Nat.log2 m) < 2 ^ 53 := by
  have hle := log_le hm
  have hsplit : 2 ^ Nat.log2 m * 2 ^ (52 - Nat.log2 m) = 2 ^ 52 := by
    rw [← pow_add, Nat.add_sub_cancel' hle]
  constructor
  · calc 2 ^ 52 = 2 ^ Nat.log2 m * 2 ^ (52 - Nat.log2 m) := hsplit.symm
      _ ≤ m * 2 ^ (52 - Nat.log2 m) := Nat.mul_le_mul_right _ (Nat.log2_self_le h0)
  · calc m * 2 ^ (52 - Nat.log2 m) < 2 ^ (Nat.log2 m + 1) * 2 ^ (52 - Nat.log2 m) :=
          Nat.mul_lt_mul_of_pos_right Nat.lt_log2_self (by positivity)
      _ = 2 ^ 53 := by rw [pow_succ, mul_right_comm, hsplit]; norm_num

/-- A full significand on a unit in range is not rounded. -/
theorem round_normal (s : Bool) {m : Nat} {q : Int} (hlo : 2 ^ 52 ≤ m) (hhi : m < 2 ^ 53)
    (hq : -1074 ≤ q) (hq' : q ≤ 971) :
    (round s m q).sign = s ∧ ((round s m q).bexp : Int) = q + 1075 ∧
      (round s m q).frac = m - 2 ^ 52 := by
  have hlog := log_of_normal hlo hhi
  have hu : roundUnit m q = q := by
    simp only [roundUnit, hlog]
    omega
  have hround : round s m q = ofMagnitude s ((q + 1074).toNat * 2 ^ 52 + m) := by
    rw [round, if_neg (by omega)]
    simp [hu]
  rw [hround]
  refine ⟨rfl, ?_, ?_⟩ <;> simp only [ofMagnitude] <;> omega

/-- A significand on the smallest unit is a subnormal number, also when it is written scaled up to
the full 53 bits. -/
theorem round_subnormal (s : Bool) {m : Nat} (hpos : 0 < m) (hm : m < 2 ^ 52) :
    round s (m * 2 ^ (52 - Nat.log2 m)) (-1074 - (52 - Nat.log2 m : Nat)) =
      ⟨s, 0, m, by decide, hm⟩ := by
  obtain ⟨hlo, hhi⟩ := scale_bounds (by omega : m ≠ 0) (by omega)
  have hlog := log_of_normal hlo hhi
  have hlt : Nat.log2 m < 52 := (Nat.log2_lt (by omega)).mpr hm
  have hu : roundUnit (m * 2 ^ (52 - Nat.log2 m)) (-1074 - (52 - Nat.log2 m : Nat)) = -1074 := by
    simp only [roundUnit, hlog]
    omega
  have hscale : (-1074 - (-1074 - ((52 - Nat.log2 m : Nat) : Int))).toNat = 52 - Nat.log2 m := by
    omega
  rw [round, if_neg (by omega)]
  simp only [hu, hscale]
  rw [if_neg (by omega), nearest_mul _ _ (by positivity)]
  apply ext_fields <;> simp only [ofMagnitude] <;> omega

/-! ### Library functions -/

/-- `frexp` on a finite number: a fraction in `[1/2, 1)` and a power of two. -/
def frexp (x : Binary64) : Binary64 × Int :=
  if x.sig = 0 then (x, 0)
  else
    (⟨x.sign, 1022, x.sig * 2 ^ (52 - Nat.log2 x.sig) % 2 ^ 52, by decide, Nat.mod_lt _ (by decide)⟩,
      x.unit + Nat.log2 x.sig + 1)

def ldexp (x : Binary64) (n : Int) : Binary64 :=
  if x.bexp = 2047 then x else round x.sign x.sig (x.unit + n)

/-- The integer part of a non-negative finite number. -/
def toUInt64 (x : Binary64) : Nat :=
  if 0 ≤ x.unit then x.sig * 2 ^ x.unit.toNat else x.sig / 2 ^ (-x.unit).toNat

def ofUInt64 (n : Nat) : Binary64 := round false n 0

/-- The number nearest to an integer. -/
def ofInt (i : Int) : Binary64 := round (decide (i < 0)) i.natAbs 0

/-- The integer part of a finite number. -/
def trunc (x : Binary64) : Int := if x.sign then -(x.toUInt64 : Int) else x.toUInt64

/-- A finite number as a multiple of the smallest unit. -/
def scaled (x : Binary64) : Int :=
  (if x.sign then -1 else 1) * (x.sig * 2 ^ (x.unit + 1074).toNat)

/-- The comparisons `lo <= x` and `x <= hi`, for bounds that are numbers themselves: false on a NaN
and on the infinities. -/
def between (lo hi : Int) (x : Binary64) : Bool :=
  x.isFinite && decide (lo * 2 ^ 1074 ≤ x.scaled) && decide (x.scaled ≤ hi * 2 ^ 1074)

@[simp] theorem round_zero (s : Bool) (q : Int) : round s 0 q = zero s := if_pos rfl

theorem zero_sig (s : Bool) : (zero s).sig = 0 := by simp [sig, zero]

@[simp] theorem ldexp_zero (s : Bool) (n : Int) : (zero s).ldexp n = zero s := by
  rw [ldexp, zero_sig, round_zero, if_neg (by simp [zero])]
  rfl

@[simp] theorem toUInt64_zero (s : Bool) : (zero s).toUInt64 = 0 := by
  rw [toUInt64, zero_sig, Nat.zero_mul, Nat.zero_div, ite_self]

/-! ### Integral mantissas -/

/-- The significand scaled to its full 53 bits. -/
def fullSig (x : Binary64) : Nat := x.sig * 2 ^ (52 - Nat.log2 x.sig)

theorem log_sig_le (x : Binary64) : Nat.log2 x.sig ≤ 52 := log_le x.sig_lt

theorem fullSig_bounds (x : Binary64) (h0 : x.sig ≠ 0) :
    2 ^ 52 ≤ x.fullSig ∧ x.fullSig < 2 ^ 53 := scale_bounds h0 x.sig_lt

theorem canon_neg_zero (s : Bool) : (zero s).canon = zero false := rfl

theorem sig_eq_zero {x : Binary64} : x.sig = 0 ↔ x.bexp = 0 ∧ x.frac = 0 := by
  rw [sig]
  split <;> omega

theorem canon_of_ne_zero {x : Binary64} (hn : x.isNaN = false) (h0 : x.sig ≠ 0) : x.canon = x := by
  rw [canon, if_neg (by simp [hn]), if_neg (fun h => h0 (sig_eq_zero.mpr h))]

theorem canon_of_zero {x : Binary64} (h0 : x.sig = 0) : x.canon = zero false := by
  obtain ⟨hb, hf⟩ := sig_eq_zero.mp h0
  rw [canon, if_neg (by simp [isNaN, hb]), if_pos ⟨hb, hf⟩]

theorem isNegative_eq {x : Binary64} (hn : x.isNaN = false) (h0 : x.sig ≠ 0) :
    x.isNegative = x.sign := by
  have hz : (x.bexp == 0 && x.frac == 0) = false := by
    rw [Bool.eq_false_iff]
    intro h
    exact h0 (sig_eq_zero.mpr (by simpa using h))
  rw [isNegative, hn, hz]
  simp

theorem isNegative_of_zero {x : Binary64} (h0 : x.sig = 0) : x.isNegative = false := by
  obtain ⟨hb, hf⟩ := sig_eq_zero.mp h0
  simp [isNegative, hb, hf]

theorem sig_of_normal {x : Binary64} {m : Nat} (hm : 2 ^ 52 ≤ m) (hb : x.bexp ≠ 0)
    (hf : x.frac = m - 2 ^ 52) : x.sig = m := by
  rw [sig, if_neg hb, hf]
  omega

/-- The fraction of `frexp`, scaled by `2 ^ 53`, is the full significand. -/
theorem toUInt64_ldexp_frexp (x : Binary64) (h0 : x.sig ≠ 0) :
    toUInt64 (ldexp (frexp x).1 53) = x.fullSig := by
  obtain ⟨hlo, hhi⟩ := x.fullSig_bounds h0
  have hfrac : (frexp x).1.sig = x.fullSig := by
    rw [frexp, if_neg h0]
    simp only [sig, if_neg (by decide : ¬(1022 : Nat) = 0)]
    change 2 ^ 52 + x.fullSig % 2 ^ 52 = x.fullSig
    omega
  have hunit : (frexp x).1.unit = -53 := by
    rw [frexp, if_neg h0]
    rfl
  have hld : ldexp (frexp x).1 53 = round (frexp x).1.sign x.fullSig 0 := by
    have hne : (frexp x).1.bexp ≠ 2047 := by
      rw [frexp, if_neg h0]
      simp
    rw [ldexp, if_neg hne, hfrac, hunit]
    rfl
  obtain ⟨-, hb, hf⟩ := round_normal (frexp x).1.sign hlo hhi (by decide : (-1074 : Int) ≤ 0)
    (by decide)
  have hu : (round (frexp x).1.sign x.fullSig 0).unit = 0 := by
    rw [unit]
    omega
  rw [hld, toUInt64, hu, if_pos (le_refl _), sig_of_normal hlo (by omega) hf]
  simp

/-- A full significand and its exponent give back the finite number they came from. -/
theorem ldexp_fullSig (x : Binary64) (hfin : x.bexp < 2047) (h0 : x.sig ≠ 0) :
    ldexp (ofUInt64 x.fullSig) ((frexp x).2 - 53) = { x with sign := false } := by
  obtain ⟨hlo, hhi⟩ := x.fullSig_bounds h0
  have hle := log_sig_le x
  obtain ⟨hs, hb, hf⟩ := round_normal false hlo hhi (by decide : (-1074 : Int) ≤ 0) (by decide)
  have hu : (ofUInt64 x.fullSig).unit = 0 := by
    rw [unit, ofUInt64]
    omega
  have hexp : (frexp x).2 = x.unit + Nat.log2 x.sig + 1 := by
    rw [frexp, if_neg h0]
  have hld : ldexp (ofUInt64 x.fullSig) ((frexp x).2 - 53) =
      round false x.fullSig (x.unit - (52 - Nat.log2 x.sig : Nat)) := by
    have hne : (ofUInt64 x.fullSig).bexp ≠ 2047 := by
      rw [ofUInt64]
      omega
    rw [ldexp, if_neg hne, hu, ofUInt64, hs, sig_of_normal hlo (by omega) hf, hexp]
    congr 1
    omega
  rw [hld]
  by_cases hsub : x.bexp = 0
  · have hsig : x.sig = x.frac := by rw [sig, if_pos hsub]
    have hunit : x.unit = -1074 := by
      rw [unit, hsub]
      rfl
    have hpos : 0 < x.frac := by omega
    rw [hunit, fullSig, hsig, round_subnormal false hpos x.frac_lt]
    apply ext_fields <;> simp [hsub]
  · have hsig : x.sig = 2 ^ 52 + x.frac := by rw [sig, if_neg hsub]
    have hlog : Nat.log2 x.sig = 52 := log_of_normal (by omega) x.sig_lt
    have hfull : x.fullSig = x.sig := by rw [fullSig, hlog]; simp
    have hunit : x.unit = x.bexp - 1075 := by
      rw [unit]
      omega
    rw [hfull, hlog]
    obtain ⟨hs', hb', hf'⟩ := round_normal false (q := x.unit) (by omega : 2 ^ 52 ≤ x.sig) x.sig_lt
      (by omega) (by omega)
    apply ext_fields
    · simpa using hs'
    · simp only [Nat.sub_self, Nat.cast_zero, sub_zero]
      omega
    · simp only [Nat.sub_self, Nat.cast_zero, sub_zero]
      omega

@[simp] theorem fabs_sig (x : Binary64) : x.fabs.sig = x.sig := rfl

/-- Sign, integral mantissa and exponent give back a finite number, the zeros as one. -/
theorem ldexp_toUInt64_frexp (x : Binary64) (hfin : x.bexp < 2047) :
    let res := (ofUInt64 ((frexp x.fabs).1.ldexp 53).toUInt64).ldexp ((frexp x.fabs).2 - 53)
    (if x.isNegative then res.neg else res).canon = x.canon := by
  have hn : x.isNaN = false := by
    have hne : (x.bexp == 2047) = false := by simp; omega
    rw [isNaN, hne, Bool.false_and]
  dsimp only
  by_cases h0 : x.sig = 0
  · have hfr : frexp x.fabs = (x.fabs, 0) := by rw [frexp, if_pos (by simpa using h0)]
    have habs : x.fabs = zero false := by
      obtain ⟨hb, hf⟩ := sig_eq_zero.mp h0
      exact ext_fields rfl hb hf
    rw [isNegative_of_zero h0, if_neg (by simp), hfr, habs, canon_of_zero h0, ldexp_zero,
      toUInt64_zero, ofUInt64, round_zero, ldexp_zero, canon_neg_zero]
  · rw [toUInt64_ldexp_frexp x.fabs (by simpa using h0), ldexp_fullSig x.fabs hfin (by simpa using h0),
      isNegative_eq hn h0]
    congr 1
    cases hs : x.sign
    · exact ext_fields hs.symm rfl rfl
    · exact ext_fields hs.symm rfl rfl

end Binary64
end LeanDson
