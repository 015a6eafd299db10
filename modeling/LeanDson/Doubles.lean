import LeanDson.Values
import Mathlib.Algebra.Order.Field.Power
import Mathlib.Algebra.Order.Field.Rat
import Mathlib.Tactic.FieldSimp

/-! The exact values of doubles, and that the encoding of a double in its thirteen bytes loses
none of them. -/

namespace LeanDson

namespace Binary64

/-- The exact value of a finite number. -/
def value (x : Binary64) : ℚ := (if x.sign then -1 else 1) * (x.sig * 2 ^ x.unit)

theorem isFinite_iff {x : Binary64} : x.isFinite ↔ x.isNaN = false ∧ x.isInf = false := by
  simp only [isFinite, isNaN, isInf, bne_iff_ne, ne_eq, Bool.and_eq_false_iff, beq_eq_false_iff_ne, bne_eq_false_iff_eq]
  by_cases hb : x.bexp = 2047 <;> simp [hb]

theorem value_of_sig_eq_zero {x : Binary64} (h0 : x.sig = 0) : x.value = 0 := by
  rw [value, h0, Nat.cast_zero, zero_mul, mul_zero]

theorem abs_value (x : Binary64) : |x.value| = x.sig * 2 ^ x.unit := by
  have hpos : (0 : ℚ) ≤ x.sig * 2 ^ x.unit := by positivity
  rw [value, abs_mul, abs_of_nonneg hpos]
  cases x.sign <;> simp

/-- The comparison with zero is that of the values. -/
theorem isNegative_iff {x : Binary64} (hfin : x.isFinite) : x.isNegative ↔ x.value < 0 := by
  by_cases h0 : x.sig = 0
  · rw [isNegative_of_zero h0, value_of_sig_eq_zero h0]
    simp
  · have hpos : (0 : ℚ) < x.sig * 2 ^ x.unit := by
      have hsig : (0 : ℚ) < x.sig := Nat.cast_pos.mpr (Nat.pos_of_ne_zero h0)
      positivity
    rw [isNegative_eq (isFinite_iff.mp hfin).1 h0, value]
    cases x.sign
    · simpa using hpos.le
    · simpa using hpos

theorem canon_of_isNaN {x : Binary64} (hn : x.isNaN) : x.canon = quietNaN := if_pos hn

/-- A representative is the number itself, the zero or the NaN. -/
theorem canon_cases (x : Binary64) :
    (x.isNaN ∧ x.canon = quietNaN) ∨ (x.sig = 0 ∧ x.canon = zero false) ∨ x.canon = x := by
  by_cases hn : x.isNaN
  · exact Or.inl ⟨hn, canon_of_isNaN hn⟩
  by_cases h0 : x.sig = 0
  · exact Or.inr (Or.inl ⟨h0, canon_of_zero h0⟩)
  · exact Or.inr (Or.inr (canon_of_ne_zero (by simpa using hn) h0))

theorem isNaN_canon (x : Binary64) : x.canon.isNaN = x.isNaN := by
  rcases x.canon_cases with ⟨hn, hc⟩ | ⟨h0, hc⟩ | hc
  · rw [hc, hn]
    rfl
  · rw [hc, isNaN, isNaN, (sig_eq_zero.mp h0).1]
    rfl
  · rw [hc]

theorem isInf_canon (x : Binary64) : x.canon.isInf = x.isInf := by
  rcases x.canon_cases with ⟨hn, hc⟩ | ⟨h0, hc⟩ | hc
  · have hfrac : x.frac ≠ 0 := by
      simp only [isNaN, Bool.and_eq_true, bne_iff_ne, ne_eq] at hn
      exact hn.2
    rw [hc, show x.isInf = false by rw [isInf, beq_false_of_ne hfrac, Bool.and_false]]
    rfl
  · rw [hc, isInf, isInf, (sig_eq_zero.mp h0).1]
    rfl
  · rw [hc]

theorem isFinite_canon (x : Binary64) : x.canon.isFinite = x.isFinite := by
  rw [Bool.eq_iff_iff, isFinite_iff, isFinite_iff, isNaN_canon, isInf_canon]

theorem value_canon {x : Binary64} (hfin : x.isFinite) : x.canon.value = x.value := by
  rcases x.canon_cases with ⟨hn, -⟩ | ⟨h0, hc⟩ | hc
  · rw [(isFinite_iff.mp hfin).1] at hn
    cases hn
  · rw [hc, value_of_sig_eq_zero h0, value_of_sig_eq_zero (zero_sig false)]
  · rw [hc]

/-- An infinity is the only number of its class and sign. -/
theorem eq_of_canon_isInf {x y : Binary64} (hinf : x.isInf) (h : y.canon = x.canon) : y = x := by
  have hy : y.isInf := by rw [← isInf_canon, h, isInf_canon, hinf]
  have hself : ∀ z : Binary64, z.isInf → z.canon = z := fun z hz => by
    rcases z.canon_cases with ⟨hn, -⟩ | ⟨h0, -⟩ | hc
    · simp only [isNaN, isInf, Bool.and_eq_true, bne_iff_ne, beq_iff_eq] at hn hz
      exact absurd hz.2 hn.2
    · simp only [isInf, (sig_eq_zero.mp h0).1] at hz
      cases hz
    · exact hc
  rw [← hself y hy, h, hself x hinf]

/-- The integral mantissa and the corrected exponent of `frexp` are exact. -/
theorem abs_value_eq (x : Binary64) :
    |x.value| = ((frexp x.fabs).1.ldexp 53).toUInt64 * 2 ^ ((frexp x.fabs).2 - 53) := by
  rw [abs_value]
  by_cases h0 : x.sig = 0
  · have habs : x.fabs = zero false := by
      obtain ⟨hb, hf⟩ := sig_eq_zero.mp h0
      exact ext_fields rfl hb hf
    have hfr : frexp x.fabs = (x.fabs, 0) := by rw [frexp, if_pos (by simpa using h0)]
    rw [hfr, habs, h0, ldexp_zero, toUInt64_zero]
    simp
  · have hle := x.log_sig_le
    have hexp : (frexp x.fabs).2 = x.unit + Nat.log2 x.sig + 1 := by
      rw [frexp, if_neg (by simpa using h0)]
      rfl
    have hsplit : x.unit = ((52 - Nat.log2 x.sig : Nat) : Int) + (x.unit + Nat.log2 x.sig + 1 - 53) := by omega
    rw [toUInt64_ldexp_frexp x.fabs (by simpa using h0), hexp]
    change _ = ((x.sig * 2 ^ (52 - Nat.log2 x.sig) : Nat) : ℚ) * _
    conv_lhs => rw [hsplit]
    rw [zpow_add₀ (by norm_num), zpow_natCast]
    push_cast
    ring

end Binary64

/-! ### The encoding -/

/-- The encoding of a finite double: a tag for its sign, a mantissa and an exponent. -/
theorem doubleInBufToNetworkOrder_finite {e : Endian} {b : Bytes} {x : Binary64} (hlen : b.length = 13)
    (hx : readDouble e b = some x) (hfin : x.isFinite) :
    ∃ (m : Nat) (exp : Int), m < 2 ^ 53 ∧ IsInt32 exp ∧ |x.value| = m * 2 ^ exp ∧
      doubleInBufToNetworkOrder e b = some ((if x.value < 0 then FloatPointType.normalNegative.byte
        else FloatPointType.normalPositive.byte) :: (bytesOf .big 8 m ++ bytesOf .big 4 (ofInt32 exp))) := by
  obtain ⟨hn, hi⟩ := Binary64.isFinite_iff.mp hfin
  refine ⟨_, _, mantissa_lt x.fabs, exponent_isInt32 x.fabs, x.abs_value_eq, ?_⟩
  simp only [doubleInBufToNetworkOrder, hx, Option.bind_eq_bind, Option.bind_some, hn, hi, Bool.false_eq_true,
    if_false, ← Binary64.isNegative_iff hfin]
  rw [poke_isSome (by simp [hlen]), List.drop_of_length_le (by simp [hlen]), List.append_nil]

/-- Encoding a double and decoding it again gives the double back: its value when it is finite, the
same infinity, and a NaN for a NaN. -/
theorem double_lossless (e : Endian) (x : Binary64) {tail : Bytes} (htail : tail.length = 5) :
    ∃ b' b'' y, doubleInBufToNetworkOrder e (bytesOf e 8 x.toNat ++ tail) = some b' ∧ b'.length = 13 ∧
      doubleInBufToHostOrder e b' = some b'' ∧ b''.length = 13 ∧ readDouble e b'' = some y ∧
      (x.isNaN → y.isNaN) ∧ (x.isInf → y = x) ∧
      (x.isFinite → y.isFinite ∧ y.value = x.value ∧ ∃ (m : Nat) (exp : Int), m < 2 ^ 53 ∧ IsInt32 exp ∧ |x.value| = m * 2 ^ exp ∧
        b' = (if x.value < 0 then FloatPointType.normalNegative.byte else FloatPointType.normalPositive.byte) ::
          (bytesOf .big 8 m ++ bytesOf .big 4 (ofInt32 exp))) := by
  have hlen : (bytesOf e 8 x.toNat ++ tail).length = 13 := by simp [htail]
  -- The converter of doubles does not look at the header.
  let anyHeader : Header := ⟨markHostOrder e, markHostOrder e, markHostOrder e, markHostOrder e⟩
  have hx : readDouble e (bytesOf e 8 x.toNat ++ tail) = some x := by
    rw [readDouble_of_length e (by omega), List.take_left' (bytesOf_length _ _ _),
      natOf_bytesOf e 8 _ (x.toNat_lt.trans_eq (by norm_num)), Binary64.ofNat_toNat]
  obtain ⟨b', y, hnetwork, hy, hcanon, -⟩ := doubleInBufToNetworkOrder_value hlen.ge hx
  have hlen' := (doubleInBufToNetworkOrder_local e anyHeader _ _ hnetwork).1.trans hlen
  obtain ⟨b'', hhost, hread, -⟩ := doubleInBufToHostOrder_value (e := e) hlen'.ge hy
  have hlen'' := (doubleInBufToHostOrder_local e anyHeader _ _ hhost).1.trans hlen'
  refine ⟨b', b'', y, hnetwork, hlen', hhost, hlen'', hread, fun hn => ?_, fun hi => Binary64.eq_of_canon_isInf hi hcanon,
    fun hfin => ?_⟩
  · rw [← Binary64.isNaN_canon, hcanon, Binary64.isNaN_canon, hn]
  · have hyfin : y.isFinite := by rw [← Binary64.isFinite_canon, hcanon, Binary64.isFinite_canon, hfin]
    refine ⟨hyfin, by rw [← Binary64.value_canon hyfin, hcanon, Binary64.value_canon hfin], ?_⟩
    obtain ⟨m, exp, hm, hexp, hval, henc⟩ := doubleInBufToNetworkOrder_finite hlen hx hfin
    rw [hnetwork, Option.some_inj] at henc
    exact ⟨m, exp, hm, hexp, hval, henc⟩

/-- The smallest positive double, over bytes that are all `0xFF` otherwise. -/
theorem double_lossless_subnormal :
    ∃ b' b'' y, doubleInBufToNetworkOrder .little (bytesOf .little 8 1 ++ List.replicate 5 255) = some b' ∧
      doubleInBufToHostOrder .little b' = some b'' ∧ readDouble .little b'' = some y ∧
      y.value = (Binary64.ofNat 1).value := by
  obtain ⟨b', b'', y, hnetwork, -, hhost, -, hread, -, -, hfinite⟩ :=
    double_lossless .little (Binary64.ofNat 1) (show (List.replicate 5 255 : Bytes).length = 5 by rfl)
  rw [Binary64.toNat_ofNat (by norm_num)] at hnetwork
  exact ⟨b', b'', y, hnetwork, hhost, hread, (hfinite (by decide)).2.1⟩

end LeanDson
