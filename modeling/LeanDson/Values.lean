import LeanDson.Payload

/-! The value a payload stands for, read by the mark and the type of its header, and its preservation
by the conversions between the byte orders. Doubles are compared by value: their representative is
`Binary64.canon`. -/

namespace LeanDson

/-! ### Values -/

/-- The value of a payload. -/
inductive Value where
  | int32 (v : Int)
  | uint32 (v : Nat)
  | int64 (v : Int)
  | uint64 (v : Nat)
  | double (x : Binary64)
  | string (s : Bytes)
  | words (ws : List Nat)
  | raw (type : Int) (bytes : Bytes)
  deriving DecidableEq

/-- `n` words of an array. -/
def wordsOf (o : Endian) : Nat → Bytes → List Nat
  | 0, _ => []
  | n + 1, b => natOf o (b.take 4) :: wordsOf o n (b.drop 4)

/-- The double in a payload: eight native bytes under the host mark, the encoding otherwise. -/
def doubleValue (e : Endian) (h : Header) (b : Bytes) : Option Binary64 :=
  if h.isHostOrder e then readDouble e b else networkDouble b

/-- The value of a payload, and the bytes behind it that its type does not use. -/
def payloadValue (e : Endian) (h : Header) (b : Bytes) : Option (Value × Bytes) :=
  let o := h.order e
  let type := h.dataTypeOf e
  if type = TypesMap.int32 then
    if b.length < 4 then none else some (.int32 (toInt32 (natOf o (b.take 4))), b.drop 4)
  else if type = TypesMap.uint32 then
    if b.length < 4 then none else some (.uint32 (natOf o (b.take 4)), b.drop 4)
  else if type = TypesMap.int64 then
    if b.length < 8 then none else some (.int64 (toInt64 (natOf o (b.take 8))), b.drop 8)
  else if type = TypesMap.uint64 then
    if b.length < 8 then none else some (.uint64 (natOf o (b.take 8)), b.drop 8)
  else if type = TypesMap.double then
    if b.length < 13 then none else (doubleValue e h b).map fun x => (.double x.canon, b.drop 13)
  else if type = TypesMap.vectorUint32 then
    some (.words (wordsOf o (b.length / 4) b), b.drop (4 * (b.length / 4)))
  else if type = TypesMap.string then some (.string b, [])
  else some (.raw type b, [])

/-- The value of a payload follows the mark and the type of its header. -/
theorem payloadValue_congr {e : Endian} {h h' : Header} (hm : h.markByteOrder = h'.markByteOrder)
    (ht : h.dataTypeOf e = h'.dataTypeOf e) (b : Bytes) : payloadValue e h b = payloadValue e h' b := by
  have hhost : h.isHostOrder e = h'.isHostOrder e := by rw [Header.isHostOrder, Header.isHostOrder, hm]
  have horder : h.order e = h'.order e := by rw [Header.order, Header.order, hhost]
  simp only [payloadValue, doubleValue, ht, hhost, horder]

section

variable {e : Endian} {h : Header} {b : Bytes}

theorem payloadValue_int32 (ht : h.dataTypeOf e = TypesMap.int32) (hlen : 4 ≤ b.length) :
    payloadValue e h b = some (.int32 (toInt32 (natOf (h.order e) (b.take 4))), b.drop 4) := by
  unfold payloadValue
  dsimp only
  rw [ht, if_pos rfl, if_neg (by omega)]

theorem payloadValue_uint32 (ht : h.dataTypeOf e = TypesMap.uint32) (hlen : 4 ≤ b.length) :
    payloadValue e h b = some (.uint32 (natOf (h.order e) (b.take 4)), b.drop 4) := by
  unfold payloadValue
  dsimp only
  rw [ht, if_neg (by decide), if_pos rfl, if_neg (by omega)]

theorem payloadValue_double (ht : h.dataTypeOf e = TypesMap.double) (hlen : 13 ≤ b.length) {x : Binary64}
    (hx : doubleValue e h b = some x) : payloadValue e h b = some (.double x.canon, b.drop 13) := by
  unfold payloadValue
  dsimp only
  rw [ht, if_neg (by decide), if_neg (by decide), if_neg (by decide), if_neg (by decide), if_pos rfl,
    if_neg (by omega), hx]
  rfl

theorem payloadValue_words (ht : h.dataTypeOf e = TypesMap.vectorUint32) :
    payloadValue e h b = some (.words (wordsOf (h.order e) (b.length / 4) b), b.drop (4 * (b.length / 4))) := by
  unfold payloadValue
  dsimp only
  rw [ht, if_neg (by decide), if_neg (by decide), if_neg (by decide), if_neg (by decide), if_neg (by decide),
    if_pos rfl]

theorem payloadValue_string (ht : h.dataTypeOf e = TypesMap.string) :
    payloadValue e h b = some (.string b, []) := by
  unfold payloadValue
  dsimp only
  rw [ht, if_neg (by decide), if_neg (by decide), if_neg (by decide), if_neg (by decide), if_neg (by decide),
    if_neg (by decide), if_pos rfl]

end

/-! ### Doubles -/

theorem readDouble_of_length {b : Bytes} (e : Endian) (hlen : 8 ≤ b.length) :
    readDouble e b = some (Binary64.ofNat (natOf e (b.take 8))) := if_neg (by omega)

theorem networkDouble_of_length {b : Bytes} (hlen : 13 ≤ b.length) : ∃ x, networkDouble b = some x := by
  match b, hlen with
  | tag :: rest, hlen =>
      simp only [List.length_cons] at hlen
      simp only [networkDouble]
      by_cases h2 : tag = FloatPointType.naN.byte
      · exact ⟨_, if_pos h2⟩
      by_cases h3 : tag = FloatPointType.infNegative.byte
      · exact ⟨_, by rw [if_neg h2, if_pos h3]⟩
      by_cases h4 : tag = FloatPointType.infPositive.byte
      · exact ⟨_, by rw [if_neg h2, if_neg h3, if_pos h4]⟩
      exact ⟨_, by rw [if_neg h2, if_neg h3, if_neg h4, if_neg (by omega)]⟩

/-- The conversion to host order stores the double that was encoded. -/
theorem doubleInBufToHostOrder_value {e : Endian} {b : Bytes} {x : Binary64} (hlen : 13 ≤ b.length)
    (hx : networkDouble b = some x) :
    ∃ b', doubleInBufToHostOrder e b = some b' ∧ readDouble e b' = some x ∧
      b'.drop 13 = b.drop 13 := by
  have hb8 : (bytesOf e 8 x.toNat).length = 8 := bytesOf_length e 8 x.toNat
  refine ⟨bytesOf e 8 x.toNat ++ b.drop 8, ?_, ?_, ?_⟩
  · simp only [doubleInBufToHostOrder, hx, Option.bind_eq_bind, Option.bind_some]
    rw [poke_isSome (by omega), hb8]
  · rw [readDouble_of_length e (by simp), List.take_append_of_le_length (by omega),
      List.take_of_length_le (by omega),
      natOf_bytesOf e 8 _ (x.toNat_lt.trans_eq (by norm_num)), Binary64.ofNat_toNat]
  · rw [List.drop_append, hb8, List.drop_of_length_le (by omega), List.nil_append, List.drop_drop]

theorem exponent_isInt32 (x : Binary64) : IsInt32 (x.frexp.2 - doubleMantissaBits) := by
  have hb := x.bexp_lt
  have hl := x.log_sig_le
  have hu : x.unit = ((max x.bexp 1 : Nat) : Int) - 1075 := rfl
  simp only [IsInt32, doubleMantissaBits, Binary64.frexp]
  split_ifs <;> dsimp only <;> omega

theorem mantissa_lt (x : Binary64) :
    (x.frexp.1.ldexp doubleMantissaBits).toUInt64 < 2 ^ 53 := by
  by_cases h0 : x.sig = 0
  · obtain ⟨hb, hf⟩ := Binary64.sig_eq_zero.mp h0
    have hz : x = Binary64.zero x.sign := Binary64.ext_fields rfl hb hf
    rw [Binary64.frexp, if_pos h0, hz, Binary64.ldexp_zero, Binary64.toUInt64_zero]
    norm_num
  · rw [doubleMantissaBits, Binary64.toUInt64_ldexp_frexp x h0]
    exact (x.fullSig_bounds h0).2

/-- Reading back a tag, a mantissa and an exponent. -/
theorem networkDouble_encoded (neg : Bool) {m : Nat} (hm : m < 2 ^ 64) {x : Int} (hx : IsInt32 x)
    (rest : Bytes) :
    networkDouble ((if neg then FloatPointType.normalNegative.byte
        else FloatPointType.normalPositive.byte) ::
          (bytesOf .big 8 m ++ bytesOf .big 4 (ofInt32 x)) ++ rest) =
      some (if neg then ((Binary64.ofUInt64 m).ldexp x).neg else (Binary64.ofUInt64 m).ldexp x) := by
  have h8 : (bytesOf .big 8 m).length = 8 := bytesOf_length _ _ _
  have h4 : (bytesOf .big 4 (ofInt32 x)).length = 4 := bytesOf_length _ _ _
  have hlen : ¬(bytesOf .big 8 m ++ (bytesOf .big 4 (ofInt32 x) ++ rest)).length < 12 := by
    simp only [List.length_append]
    omega
  have hm8 : natOf .big (bytesOf .big 8 m) = m := natOf_bytesOf _ _ _ (hm.trans_eq (by norm_num))
  have hx4 : natOf .big (bytesOf .big 4 (ofInt32 x)) = ofInt32 x :=
    natOf_bytesOf _ _ _ ((ofInt32_lt x).trans_eq (by norm_num))
  rw [List.cons_append, List.append_assoc]
  simp only [networkDouble]
  rw [if_neg (by cases neg <;> decide), if_neg (by cases neg <;> decide),
    if_neg (by cases neg <;> decide), if_neg hlen, List.take_left' h8, List.drop_left' h8,
    List.take_left' h4, hm8, hx4, toInt32_ofInt32 hx]
  cases neg <;> rfl

/-- The conversion to network order encodes the double that was stored. -/
theorem doubleInBufToNetworkOrder_value {e : Endian} {b : Bytes} {x : Binary64}
    (hlen : 13 ≤ b.length) (hx : readDouble e b = some x) :
    ∃ b' y, doubleInBufToNetworkOrder e b = some b' ∧ networkDouble b' = some y ∧
      y.canon = x.canon ∧ b'.drop 13 = b.drop 13 := by
  have hshort : ∀ tag : UInt8, poke b [tag] = some (tag :: b.drop 1) := fun tag =>
    poke_isSome (by simp; omega)
  have hdrop : ∀ tag : UInt8, (tag :: b.drop 1).drop 13 = b.drop 13 := fun tag => by
    rw [List.drop_succ_cons, List.drop_drop]
  simp only [doubleInBufToNetworkOrder, hx, Option.bind_eq_bind, Option.bind_some]
  by_cases hn : x.isNaN
  · refine ⟨_, .quietNaN, by rw [if_pos hn, hshort], rfl, ?_, hdrop _⟩
    rw [Binary64.canon, Binary64.canon, if_pos (by decide), if_pos hn]
  rw [if_neg hn]
  by_cases hi : x.isInf
  · have hinf : x = .infinity x.sign := by
      simp only [Binary64.isInf, Bool.and_eq_true, beq_iff_eq] at hi
      exact Binary64.ext_fields rfl hi.1 hi.2
    have hneg : x.isNegative = x.sign := by
      rw [hinf]
      cases x.sign <;> rfl
    refine ⟨_, .infinity x.sign, by rw [if_pos hi, hshort], ?_, by rw [← hinf], hdrop _⟩
    rw [hneg]
    cases x.sign <;> rfl
  rw [if_neg hi]
  have hfin : x.bexp < 2047 := Binary64.finite_of_not (by simpa using hn) (by simpa using hi)
  have hm := mantissa_lt x.fabs
  have hexp := exponent_isInt32 x.fabs
  refine ⟨_, _, poke_isSome (by simp; omega), networkDouble_encoded _ (by omega) hexp _, ?_, ?_⟩
  · have hcanon := Binary64.ldexp_toUInt64_frexp x hfin
    exact hcanon
  · rw [List.drop_append, List.drop_of_length_le (by simp), List.nil_append, List.drop_drop]
    simp

/-! ### Conversions keep values -/

theorem swapArray_words (o : Endian) (n : Nat) {b : Bytes} (hlen : 4 * n ≤ b.length) :
    ∃ b', swapArray .little n b = some b' ∧ wordsOf o.flip n b' = wordsOf o n b ∧
      b'.drop (4 * n) = b.drop (4 * n) := by
  induction n generalizing b with
  | zero => exact ⟨b, rfl, rfl, rfl⟩
  | succ n ih =>
      obtain ⟨c, rest, hr⟩ := Cell.read_isSome (b := b) (by omega)
      have hb := Cell.eq_of_read hr
      have hl := congrArg List.length hb
      rw [List.length_append, Cell.bytes_length] at hl
      obtain ⟨rest', hswap, hwords, hdrop⟩ := ih (b := rest) (by omega)
      refine ⟨c.swap.bytes ++ rest', ?_, ?_, ?_⟩
      · rw [swapArray, hr]
        simp only [Option.bind_eq_bind, Option.bind_some, hswap]
        rfl
      · rw [wordsOf, wordsOf, hb, List.take_left' c.swap.bytes_length, List.drop_left' c.swap.bytes_length,
          List.take_left' c.bytes_length, List.drop_left' c.bytes_length, hwords, Cell.bytes_swap,
          natOf_flip_reverse]
      · rw [hb, Nat.mul_succ, Nat.add_comm, ← List.drop_drop, ← List.drop_drop,
          List.drop_left' c.swap.bytes_length, List.drop_left' c.bytes_length, hdrop]

theorem word32Converter_value (o : Endian) (h : Header) {b : Bytes} (hlen : 4 ≤ b.length) :
    ∃ b', word32Converter .little h b = some b' ∧ natOf o.flip (b'.take 4) = natOf o (b.take 4) ∧
      b'.drop 4 = b.drop 4 := by
  obtain ⟨c, rest, hr⟩ := Cell.read_isSome hlen
  refine ⟨c.swap.bytes ++ rest, ?_, ?_, ?_⟩
  · simp only [word32Converter, hr, Option.bind_eq_bind, Option.bind_some]
    rfl
  · rw [Cell.eq_of_read hr, List.take_left' c.swap.bytes_length, List.take_left' c.bytes_length,
      Cell.bytes_swap, natOf_flip_reverse]
  · rw [Cell.eq_of_read hr, List.drop_left' c.swap.bytes_length, List.drop_left' c.bytes_length]

theorem word64Converter_value (o : Endian) (h : Header) {b : Bytes} (hlen : 8 ≤ b.length) :
    ∃ b', word64Converter .little h b = some b' ∧ natOf o.flip (b'.take 8) = natOf o (b.take 8) ∧
      b'.drop 8 = b.drop 8 := by
  have hrev : ((b.take 8).reverse).length = 8 := by simp; omega
  refine ⟨(b.take 8).reverse ++ b.drop 8, if_neg (by omega), ?_, ?_⟩
  · rw [List.take_left' hrev, natOf_flip_reverse]
  · rw [List.drop_left' hrev]

/-- The number of words an array converter goes over: those that fit the payload. -/
theorem arraySize_eq {h : Header} {n : Nat} (hh : h.isHostOrder .little) (hsize : h.dataSizeOf .little = n) :
    arraySize .little h = n / 4 := by
  have hint := h.dataSize.int32_isInt32 .little
  rw [Header.dataSizeOf, Header.field, if_pos hh] at hsize
  rw [IsInt32, hsize] at hint
  rw [arraySize, hsize]
  omega

/-- A conversion of a record leaves its header alone or converts it, and keeps the value of its
payload. -/
theorem convertRecord_value {e : Endian} (network : Bool) {h : Header} {b : Bytes} {v : Value × Bytes}
    (hv : h.ValidMark e) (hsize : h.dataSizeOf e = b.length) (hval : payloadValue e h b = some v) :
    ∃ h' b', convertRecord e network h b = some (h', b') ∧ (h' = h ∨ h' = h.toOrder e network) ∧
      payloadValue e h' b' = some v := by
  by_cases hin : h.inOrder e network
  · exact ⟨h, b, convertRecord_inOrder hin b, Or.inl rfl, hval⟩
  cases hconv : converterTo e network (h.dataTypeOf e) with
  | none => exact ⟨h, b, convertRecord_none hconv b, Or.inl rfl, hval⟩
  | some c =>
      obtain ⟨rfl, hhost, hhost'⟩ := Header.little_of_not_inOrder hv hin
      have horder := Header.order_toOrder_of_not_inOrder hv hin
      have htype := Header.dataTypeOf_toOrder hv network
      suffices hb : ∃ b', c (if network then h else h.toHost .little) b = some b' ∧
          payloadValue .little (h.toOrder .little network) b' = some v by
        obtain ⟨b', hb', hval'⟩ := hb
        exact ⟨_, b', by rw [convertRecord_some hin hconv, hb']; rfl, Or.inr rfl, hval'⟩
      simp only [payloadValue, htype, horder]
      simp only [payloadValue] at hval
      rcases converterTo_cases hconv with ⟨ht, rfl⟩ | ⟨ht, rfl⟩ | ⟨ht, rfl⟩ | ⟨ht, rfl⟩
      · have hlen : 4 ≤ b.length := by
          rcases ht with ht | ht <;> simp only [ht] at hval <;> split_ifs at hval <;> omega
        obtain ⟨b', hb', hnat, hdrop⟩ := word32Converter_value (h.order .little)
          (if network then h else h.toHost .little) hlen
        have hlen' := (word32Converter_local _ _ _ _ hb').1
        exact ⟨b', hb', by rw [hlen', hnat, hdrop]; rcases ht with ht | ht <;> simpa [ht] using hval⟩
      · have hlen : 8 ≤ b.length := by
          rcases ht with ht | ht <;> simp only [ht] at hval <;> simp at hval <;> omega
        obtain ⟨b', hb', hnat, hdrop⟩ := word64Converter_value (h.order .little)
          (if network then h else h.toHost .little) hlen
        have hlen' := (word64Converter_local _ _ _ _ hb').1
        exact ⟨b', hb', by rw [hlen', hnat, hdrop]; rcases ht with ht | ht <;> simpa [ht] using hval⟩
      · simp only [ht, doubleValue, hhost, hhost'] at hval ⊢
        have hlen : 13 ≤ b.length := by
          by_contra hlt
          simp [show b.length < 13 by omega] at hval
        cases network with
        | true =>
            obtain ⟨b', y, hb', hy, hcanon, hdrop⟩ :=
              doubleInBufToNetworkOrder_value hlen (readDouble_of_length .little (by omega))
            have hlen' := (doubleInBufToNetworkOrder_local .little h _ _ hb').1
            refine ⟨b', by simpa using hb', ?_⟩
            rw [readDouble_of_length .little (by omega)] at hval
            simpa [hy, hlen', hcanon, hdrop] using hval
        | false =>
            obtain ⟨x, hx⟩ := networkDouble_of_length hlen
            obtain ⟨b', hb', hread, hdrop⟩ := doubleInBufToHostOrder_value (e := .little) hlen hx
            have hlen' := (doubleInBufToHostOrder_local .little h _ _ hb').1
            refine ⟨b', by simpa using hb', ?_⟩
            simpa [hx, hread, hlen', hdrop] using hval
      · have hsize' : arraySize .little (if network then h else h.toHost .little) = b.length / 4 := by
          cases network with
          | true => exact arraySize_eq hhost hsize
          | false => exact arraySize_eq hhost' ((Header.dataSizeOf_toOrder hv false).trans hsize)
        obtain ⟨b', hb', hwords, hdrop⟩ := swapArray_words (h.order .little) (b.length / 4) (b := b)
          (by omega)
        have hlen' := (swapArray_local .little _ hb').1
        refine ⟨b', by rw [arrayConverter, hsize', hb'], ?_⟩
        simpa [ht, hwords, hlen', hdrop] using hval

end LeanDson
