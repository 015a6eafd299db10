import LeanDson.Doubles
import LeanDson.Encoding
import LeanDson.Extract
import LeanDson.Inverse

/-! Stored numbers as integers, and the extractors to the four integer types: when they answer the
number that is stored, and when the default. -/

namespace LeanDson

/-! ### Stored numbers as values -/

/-- A stored number as a value, doubles up to their representative. -/
def Number.value : Number → Value
  | .int32 v => .int32 v
  | .uint32 v => .uint32 v
  | .int64 v => .int64 v
  | .uint64 v => .uint64 v
  | .double x => .double x.canon

section

variable {e : Endian} {h : Header} {b rest : Bytes} {v : Value}

theorem readNat_append {w : Nat} (hlen : w ≤ b.length) (tail : Bytes) :
    readNat e w (b ++ tail) = some (natOf e (b.take w)) := by
  rw [readNat, if_neg (by rw [List.length_append]; omega), List.take_append_of_le_length hlen]

/-- A numeric payload in host order gives its value to the extractors, whatever follows it. -/
theorem readNumber_value (hh : h.isHostOrder e) (hnum : IsNumeric (h.dataTypeOf e))
    (hval : payloadValue e h b = some (v, rest)) :
    ∃ n, (∀ tail, readNumber e (h.dataTypeOf e) (b ++ tail) = some n) ∧ n.value = v := by
  have horder : h.order e = e := if_pos hh
  simp only [payloadValue, doubleValue, horder, if_pos hh] at hval
  simp only [readNumber]
  rcases hnum with ht | ht | ht | ht | ht <;> rw [ht] at hval ⊢
  · rw [if_pos rfl] at hval
    split_ifs at hval with hlen
    refine ⟨.int32 (toInt32 (natOf e (b.take 4))), fun tail => ?_, (Prod.mk.inj (Option.some.inj hval)).1⟩
    rw [if_pos rfl, readNat_append (not_lt.mp hlen)]
    rfl
  · rw [if_neg (by decide), if_pos rfl] at hval
    split_ifs at hval with hlen
    refine ⟨.uint32 (natOf e (b.take 4)), fun tail => ?_, (Prod.mk.inj (Option.some.inj hval)).1⟩
    rw [if_neg (by decide), if_pos rfl, readNat_append (not_lt.mp hlen)]
    rfl
  · rw [if_neg (by decide), if_neg (by decide), if_pos rfl] at hval
    split_ifs at hval with hlen
    refine ⟨.int64 (toInt64 (natOf e (b.take 8))), fun tail => ?_, (Prod.mk.inj (Option.some.inj hval)).1⟩
    rw [if_neg (by decide), if_neg (by decide), if_pos rfl, readNat_append (not_lt.mp hlen)]
    rfl
  · rw [if_neg (by decide), if_neg (by decide), if_neg (by decide), if_pos rfl] at hval
    split_ifs at hval with hlen
    refine ⟨.uint64 (natOf e (b.take 8)), fun tail => ?_, (Prod.mk.inj (Option.some.inj hval)).1⟩
    rw [if_neg (by decide), if_neg (by decide), if_neg (by decide), if_pos rfl, readNat_append (not_lt.mp hlen)]
    rfl
  · rw [if_neg (by decide), if_neg (by decide), if_neg (by decide), if_neg (by decide), if_pos rfl] at hval
    split_ifs at hval with hlen
    obtain ⟨x, hx, heq⟩ := Option.map_eq_some_iff.mp hval
    refine ⟨.double x, fun tail => ?_, (Prod.mk.inj heq).1⟩
    rw [if_neg (by decide), if_neg (by decide), if_neg (by decide), if_neg (by decide), readDouble_append hx]
    rfl

end

/-! ### The integers of a type -/

/-- The integer types that the extractors answer in. -/
inductive IntegerType where
  | int32
  | uint32
  | int64
  | uint64
  deriving DecidableEq

namespace IntegerType

/-- The integers of the type. -/
def Holds : IntegerType → Int → Prop
  | .int32, i => -2 ^ 31 ≤ i ∧ i ≤ 2 ^ 31 - 1
  | .uint32, i => 0 ≤ i ∧ i ≤ 2 ^ 32 - 1
  | .int64, i => -2 ^ 63 ≤ i ∧ i ≤ 2 ^ 63 - 1
  | .uint64, i => 0 ≤ i ∧ i ≤ 2 ^ 64 - 1

instance (t : IntegerType) (i : Int) : Decidable (t.Holds i) := by
  cases t <;> exact inferInstanceAs (Decidable (_ ∧ _))

/-- `to_int32`, `to_uint32`, `to_int64` and `to_uint64`. -/
def extract (e : Endian) (t : IntegerType) (dflt : Int) (o : DsonObj) (m : Mem) : Option (Int × DsonObj × Mem) :=
  match t with
  | .int32 => o.toInt32 e dflt m
  | .uint32 => (o.toUInt32 e dflt.toNat m).map fun p => (p.1, p.2)
  | .int64 => o.toInt64 e dflt m
  | .uint64 => (o.toUInt64 e dflt.toNat m).map fun p => (p.1, p.2)

/-- The answer of the extractor to a stored number. -/
def answer (t : IntegerType) (dflt : Int) (n : Number) : Int :=
  match t with
  | .int32 => n.toInt32.getD dflt
  | .uint32 => n.toUInt32.getD dflt.toNat
  | .int64 => n.toInt64.getD dflt
  | .uint64 => n.toUInt64.getD dflt.toNat

end IntegerType

/-- The value is the integer `i`, stored in one of the five numeric types. -/
def Value.IsInteger (i : Int) : Value → Prop
  | .int32 v => v = i
  | .uint32 v => v = i
  | .int64 v => v = i
  | .uint64 v => v = i
  | .double x => x.isFinite ∧ x.value = i
  | _ => False

namespace Binary64

variable {x : Binary64} {i : Int}

/-- A value over a unit that is small enough. -/
theorem value_mul_pow (x : Binary64) {k : Nat} (hk : -(k : Int) ≤ x.unit) :
    x.value * 2 ^ k = (((if x.sign then -1 else 1) * (x.sig * 2 ^ (x.unit + k).toNat) : Int) : ℚ) := by
  have hpow : (2 : ℚ) ^ (x.unit + k).toNat = 2 ^ x.unit * 2 ^ k := by
    rw [← zpow_natCast, Int.toNat_of_nonneg (by omega), zpow_add₀ (by norm_num), zpow_natCast]
  rw [value]
  cases x.sign <;> push_cast [hpow] <;> simp <;> ring

theorem scaled_eq (hval : x.value = i) : x.scaled = i * 2 ^ 1074 := by
  have hscaled := x.value_mul_pow (k := 1074) (by rw [unit]; omega)
  rw [hval] at hscaled
  have hcast : ((i * 2 ^ 1074 : Int) : ℚ) = ((x.scaled : Int) : ℚ) := by
    rw [Int.cast_mul, Int.cast_pow]
    exact hscaled
  exact (Int.cast_inj.mp hcast).symm

theorem between_iff (hfin : x.isFinite) (hval : x.value = i) (lo hi : Int) :
    x.between lo hi ↔ lo ≤ i ∧ i ≤ hi := by
  have hpos : (0 : Int) < 2 ^ 1074 := by positivity
  simp only [between, hfin, scaled_eq hval, Bool.true_and, Bool.and_eq_true, decide_eq_true_eq]
  rw [mul_le_mul_iff_left₀ hpos, mul_le_mul_iff_left₀ hpos]

/-- The truncation of a number that is an integer. -/
theorem trunc_eq (hval : x.value = i) : x.trunc = i := by
  have hmag : x.toUInt64 = i.natAbs := by
    have habs : (x.sig : ℚ) * 2 ^ x.unit = i.natAbs := by
      rw [← abs_value, hval, Nat.cast_natAbs, Int.cast_abs]
    rw [toUInt64]
    split_ifs with hunit
    · have hpow : (2 : ℚ) ^ x.unit = ((2 ^ x.unit.toNat : Nat) : ℚ) := by
        conv_lhs => rw [← Int.toNat_of_nonneg hunit]
        rw [zpow_natCast]
        norm_cast
      rw [hpow] at habs
      exact_mod_cast habs
    · have hneg : ((-x.unit).toNat : Int) = -x.unit := by omega
      have hsig : x.sig = i.natAbs * 2 ^ (-x.unit).toNat := by
        have hcast : (x.sig : ℚ) = i.natAbs * 2 ^ (-x.unit).toNat := by
          rw [← habs, ← zpow_natCast, hneg, mul_assoc, ← zpow_add₀ (by norm_num), add_neg_cancel, zpow_zero, mul_one]
        exact_mod_cast hcast
      rw [hsig, Nat.mul_div_cancel _ (by positivity)]
  rw [trunc, hmag]
  have hsign : (x.sign = true ∧ i ≤ 0) ∨ (x.sign = false ∧ 0 ≤ i) := by
    have hpos : (0 : ℚ) ≤ x.sig * 2 ^ x.unit := by positivity
    rw [value] at hval
    cases hs : x.sign
    · rw [hs] at hval
      refine Or.inr ⟨rfl, ?_⟩
      have hi : (0 : ℚ) ≤ i := by rw [← hval]; simpa using hpos
      exact_mod_cast hi
    · rw [hs] at hval
      refine Or.inl ⟨rfl, ?_⟩
      have hi : (i : ℚ) ≤ 0 := by rw [← hval]; simpa using hpos
      exact_mod_cast hi
  rcases hsign with ⟨hs, hi⟩ | ⟨hs, hi⟩
  · rw [if_pos hs]
    omega
  · rw [if_neg (by simp [hs])]
    omega

end Binary64

/-! ### Answers -/

/-- The numbers of a stored type. -/
def Number.Ranged : Number → Prop
  | .int32 v => -2 ^ 31 ≤ v ∧ v < 2 ^ 31
  | .uint32 v => v < 2 ^ 32
  | .int64 v => -2 ^ 63 ≤ v ∧ v < 2 ^ 63
  | .uint64 v => v < 2 ^ 64
  | .double _ => True

theorem readNat_lt {e : Endian} {w n : Nat} {data : Bytes} (h : readNat e w data = some n) : n < 256 ^ w := by
  unfold readNat at h
  split_ifs at h with hlen
  cases h
  have hlt := natOf_lt e (data.take w)
  rwa [List.length_take, Nat.min_eq_left (by omega)] at hlt

theorem readNumber_ranged {e : Endian} {type : Int} {data : Bytes} {n : Number} (h : readNumber e type data = some n) :
    n.Ranged := by
  unfold readNumber at h
  split_ifs at h <;> obtain ⟨k, hk, rfl⟩ := Option.map_eq_some_iff.mp h
  · have hlt := readNat_lt hk
    simp only [Number.Ranged, toInt32]
    split_ifs <;> omega
  · exact readNat_lt hk
  · have hlt := readNat_lt hk
    simp only [Number.Ranged, toInt64]
    split_ifs <;> omega
  · exact readNat_lt hk
  · trivial

namespace IntegerType

/-- The integers that an extractor takes from a double. -/
def HoldsDouble : IntegerType → Int → Prop
  | .int64, i => -2 ^ 63 ≤ i ∧ i ≤ 2 ^ 31 - 1
  | .uint64, i => 0 ≤ i ∧ i ≤ 2 ^ 64
  | t, i => t.Holds i

instance (t : IntegerType) (i : Int) : Decidable (t.HoldsDouble i) := by
  cases t <;> exact inferInstanceAs (Decidable (_ ∧ _))

variable {t : IntegerType} {i dflt : Int}

/-- The bounds of the sixteen pairs of integer types. -/
theorem answer_integer {n : Number} (hrange : n.Ranged) (hn : ∀ x, n ≠ .double x) (hint : n.value.IsInteger i)
    (hdflt : t.Holds dflt) : t.answer dflt n = if t.Holds i then i else dflt := by
  cases n with
  | int32 v =>
      have hv : v = i := hint
      subst hv
      cases t <;> simp only [answer, Number.toInt32, Number.toUInt32, Number.toInt64, Number.toUInt64, Holds,
        Number.Ranged] at hrange hdflt ⊢ <;> split_ifs <;> simp <;> omega
  | uint32 v =>
      have hv : (v : Int) = i := hint
      subst hv
      cases t <;> simp only [answer, Number.toInt32, Number.toUInt32, Number.toInt64, Number.toUInt64, Holds,
        Number.Ranged] at hrange hdflt ⊢ <;> split_ifs <;> simp <;> omega
  | int64 v =>
      have hv : v = i := hint
      subst hv
      cases t <;> simp only [answer, Number.toInt32, Number.toUInt32, Number.toInt64, Number.toUInt64, Holds,
        Number.Ranged] at hrange hdflt ⊢ <;> split_ifs <;> simp <;> omega
  | uint64 v =>
      have hv : (v : Int) = i := hint
      subst hv
      cases t <;> simp only [answer, Number.toInt32, Number.toUInt32, Number.toInt64, Number.toUInt64, Holds,
        Number.Ranged] at hrange hdflt ⊢ <;> split_ifs <;> simp <;> omega
  | double x => exact absurd rfl (hn x)

/-- The bounds of the four pairs with doubles. -/
theorem answer_double {x : Binary64} (hint : (Number.double x).value.IsInteger i) (hdflt : t.Holds dflt) :
    t.answer dflt (.double x) = if t.HoldsDouble i then i else dflt := by
  obtain ⟨hcanon, hvalue⟩ := hint
  have hfin : x.isFinite := by rwa [Binary64.isFinite_canon] at hcanon
  rw [Binary64.value_canon hfin] at hvalue
  have hbetween := Binary64.between_iff hfin hvalue
  have htrunc := Binary64.trunc_eq hvalue
  cases t <;> simp only [answer, Number.toInt32, Number.toUInt32, Number.toInt64, Number.toUInt64, HoldsDouble, Holds,
    hbetween, htrunc] at hdflt ⊢ <;> split_ifs <;> simp <;> omega

/-- A double is taken as an integer of the type by all defaults, unless the bound is wrong there. -/
theorem holdsDouble_iff : (∀ dflt, t.Holds dflt → (if t.HoldsDouble i then i else dflt) = if t.Holds i then i else dflt) ↔
    ¬((t = .int64 ∧ 2 ^ 31 ≤ i ∧ i ≤ 2 ^ 63 - 1) ∨ (t = .uint64 ∧ i = 2 ^ 64)) := by
  cases t with
  | int32 => exact iff_of_true (fun dflt _ => rfl) (by simp)
  | uint32 => exact iff_of_true (fun dflt _ => rfl) (by simp)
  | int64 =>
      simp only [HoldsDouble, Holds, true_and, reduceCtorEq, false_and, or_false]
      refine ⟨fun hall hbad => ?_, fun hgood dflt _ => ?_⟩
      · have hzero := hall 0 (by decide)
        split_ifs at hzero <;> omega
      · split_ifs <;> omega
  | uint64 =>
      simp only [HoldsDouble, Holds, reduceCtorEq, false_and, false_or, true_and]
      refine ⟨fun hall hbad => ?_, fun hgood dflt _ => ?_⟩
      · have hzero := hall 0 (by decide)
        split_ifs at hzero <;> omega
      · split_ifs <;> omega

end IntegerType

/-! ### Extraction from an object -/

namespace Placed

variable {put : Header → Bytes → Dson × Mem} (hput : Placed put) (e : Endian) {h : Header} {b : Bytes}

include hput

/-- The payload lies at the data pointer. -/
theorem tail (h : Header) (b : Bytes) : ∃ off rest, (put h b).1.data = some off ∧
    (put h b).1.buf.tail (put h b).2 off = some (b ++ rest) := by
  cases hput with
  | own hstate hkind halloc =>
      exact ⟨0, [], by simp [Dson.data, hstate, halloc, BufPtr.isNull], by simp [BufPtr.tail]⟩
  | @view d m r off front rest hstate hkind halloc hbuf hoff =>
      have hlen : (front ++ h.bytes).length = off + headerSize := by simp [hoff, headerSize]
      refine ⟨headerSize, rest, by simp [Dson.data, hstate, halloc, hbuf, BufPtr.isNull], ?_⟩
      rw [hbuf]
      have htail := BufPtr.tail_view m r hlen (b ++ rest)
      rwa [List.append_assoc] at htail

theorem toNumber {h' : Header} {b' : Bytes} {n : Number} (hc : convertRecord e false h b = some (h', b'))
    (hnum : IsNumeric (h'.dataTypeOf e)) (hread : ∀ rest, readNumber e (h'.dataTypeOf e) (b' ++ rest) = some n)
    (children : ObjMap) : DsonObj.toNumber e (.dson (put h b).1 children) (put h b).2 =
      some (some n, .dson (put h' b').1 children, (put h' b').2) := by
  obtain ⟨off, rest, hdata, htail⟩ := hput.tail h' b'
  have hrun : (put h b).1.toHost e (put h b).2 = some (put h' b') := hput.toOrder e hc
  rw [DsonObj.toNumber, hrun]
  simp only [Option.bind_eq_bind, Option.bind_some, hput.dataType, hdata, htail, hread]
  rw [if_neg (by simpa using hnum)]
  rfl

theorem extract {h' : Header} {b' : Bytes} {n : Number} (hc : convertRecord e false h b = some (h', b'))
    (hnum : IsNumeric (h'.dataTypeOf e)) (hread : ∀ rest, readNumber e (h'.dataTypeOf e) (b' ++ rest) = some n)
    (children : ObjMap) (t : IntegerType) (dflt : Int) : t.extract e dflt (.dson (put h b).1 children) (put h b).2 =
      some (t.answer dflt n, .dson (put h' b').1 children, (put h' b').2) := by
  have hrun := hput.toNumber e hc hnum hread children
  cases t <;> simp only [IntegerType.extract, DsonObj.toInt32, DsonObj.toUInt32, DsonObj.toInt64, DsonObj.toUInt64,
    DsonObj.extract, hrun] <;> rfl

end Placed

/-- A payload that holds an integer is read as one after the conversion to host order. -/
theorem convertRecord_integer {e : Endian} {h : Header} {b rest : Bytes} {v : Value} {i : Int} (hv : h.ValidMark e)
    (hsize : h.dataSizeOf e = b.length) (hval : payloadValue e h b = some (v, rest)) (hint : v.IsInteger i) :
    ∃ h' b' n, convertRecord e false h b = some (h', b') ∧ IsNumeric (h'.dataTypeOf e) ∧ n.value = v ∧
      ∀ tail, readNumber e (h'.dataTypeOf e) (b' ++ tail) = some n := by
  obtain ⟨h', b', hrun, hheader, hval'⟩ := convertRecord_value false hv hsize hval
  have htype : h'.dataTypeOf e = h.dataTypeOf e := by
    rcases hheader with rfl | rfl
    · rfl
    · exact Header.dataTypeOf_toOrder hv false
  have hnum : IsNumeric (h.dataTypeOf e) := by
    by_contra hnot
    simp only [IsNumeric, not_or] at hnot
    simp only [payloadValue, hnot, if_false] at hval
    split_ifs at hval <;> cases hval <;> exact hint
  have hconv : toHostOrder e (h.dataTypeOf e) ≠ none := by
    rcases hnum with ht | ht | ht | ht | ht <;> rw [ht] <;> simp [toHostOrder]
  have hhost := convertRecord_isHostOrder hv hconv hrun
  rw [← htype] at hnum
  obtain ⟨n, hread, hn⟩ := readNumber_value hhost hnum hval'
  exact ⟨h', b', n, hrun, hnum, hn, hread⟩

/-- Under every default the extractor answers the integer, if its type holds it, and else the default. -/
def ExtractsExactly (e : Endian) (t : IntegerType) (o : DsonObj) (m : Mem) (i : Int) : Prop :=
  ∀ dflt, t.Holds dflt → (t.extract e dflt o m).map Prod.fst = some (if t.Holds i then i else dflt)

/-- The integer extractors are exact on integers of all five stored types, but for the doubles from
`2 ^ 31` on in `to_int64` and the double `2 ^ 64` in `to_uint64`. -/
theorem extracts_exactly_iff (e : Endian) (t : IntegerType) {put : Header → Bytes → Dson × Mem} (hput : Placed put)
    {h : Header} {b rest : Bytes} {v : Value} {i : Int} (hv : h.ValidMark e) (hsize : h.dataSizeOf e = b.length)
    (hval : payloadValue e h b = some (v, rest)) (hint : v.IsInteger i) (children : ObjMap) :
    ExtractsExactly e t (.dson (put h b).1 children) (put h b).2 i ↔
      ¬(v.type = TypesMap.double ∧ ((t = .int64 ∧ 2 ^ 31 ≤ i ∧ i ≤ 2 ^ 63 - 1) ∨ (t = .uint64 ∧ i = 2 ^ 64))) := by
  obtain ⟨h', b', n, hrun, hnum, rfl, hread⟩ := convertRecord_integer hv hsize hval hint
  have hrange := readNumber_ranged (hread [])
  simp only [ExtractsExactly, hput.extract e hrun hnum hread children t, Option.map_some, Option.some.injEq]
  by_cases hdouble : ∃ x, n = .double x
  · obtain ⟨x, rfl⟩ := hdouble
    have htype : (Number.double x).value.type = TypesMap.double := rfl
    simp only [htype, true_and]
    rw [← IntegerType.holdsDouble_iff]
    refine forall_congr' fun dflt => imp_congr_right fun hdflt => ?_
    rw [IntegerType.answer_double hint hdflt]
  · have hinteger : ∀ x, n ≠ .double x := fun x hx => hdouble ⟨x, hx⟩
    refine iff_of_true (fun dflt hdflt => IntegerType.answer_integer hrange hinteger hint hdflt) fun hbad => ?_
    cases n with
    | double x => exact hinteger x rfl
    | int32 | uint32 | int64 | uint64 => cases hbad.1

/-- The integer `-5` in network order: `to_uint32` answers every default. -/
theorem extracts_exactly_negative :
    let h : Header := ⟨markNetworkOrder .little, Cell.ofInt .big 4, Cell.ofInt .big 9, Cell.ofInt .big TypesMap.int32⟩
    let d : Dson := { Dson.uninit h with wasBufAllocation := true, bufSize := 4, dsonKind := .oneObjectInDataBuf }
    ExtractsExactly .little .uint32 (.dson { d with buf := .own [255, 255, 255, 251] } []) ⟨[], []⟩ (-5) := by
  intro h d
  have hput : Placed fun h b => ({ d with headerBuf := h, buf := .own b }, ⟨[], []⟩) := .own rfl (by decide) rfl
  have hval : payloadValue .little h [255, 255, 255, 251] = some (.int32 (-5), []) := by decide +kernel
  exact (extracts_exactly_iff .little .uint32 hput (by decide) (by decide) hval rfl []).mpr fun hbad =>
    absurd hbad.1 (by decide)

/-- The double `2 ^ 31` as `Dson(double)` holds it. -/
def largeDouble : Option DsonObj :=
  DsonObj.ofDouble .little (Dson.clearHeader .little) (fun _ => 205) (Binary64.ofInt (2 ^ 31))

/-- `to_int64` answers the default for it. -/
theorem large_double_lost : (Binary64.ofInt (2 ^ 31)).value = 2 ^ 31 ∧
    ∃ o, largeDouble = some o ∧ ¬ExtractsExactly .little .int64 o ⟨[], []⟩ (2 ^ 31) := by
  refine ⟨by decide +kernel, _, rfl, fun hexact => ?_⟩
  have hdflt := hexact 0 (by decide)
  revert hdflt
  decide +kernel

end LeanDson
