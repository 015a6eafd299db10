import LeanDson.Converters

/-! What the bytes of a payload mean, and that the converters keep it. A converter reads and writes
a first part of the bytes it is given: on more bytes it does the same and leaves the rest alone. -/

namespace LeanDson

/-! ### Locality -/

/-- A converter that succeeds does the same in front of further bytes, and keeps the length. -/
def Converter.Local (c : Converter) : Prop :=
  ∀ h b b', c h b = some b' → b'.length = b.length ∧ ∀ r, c h (b ++ r) = some (b' ++ r)

theorem poke_local {b b' new : Bytes} (h : poke b new = some b') :
    b'.length = b.length ∧ ∀ r, poke (b ++ r) new = some (b' ++ r) := by
  unfold poke at h
  split_ifs at h with hlen
  cases h
  refine ⟨by simp; omega, fun r => ?_⟩
  have hge : ¬(b ++ r).length < new.length := by simp; omega
  rw [poke, if_neg hge, List.drop_append_of_le_length (by omega), List.append_assoc]

theorem poke_isSome {b new : Bytes} (h : new.length ≤ b.length) :
    poke b new = some (new ++ b.drop new.length) := by
  rw [poke, if_neg (by omega)]

theorem readDouble_append {e : Endian} {b : Bytes} {x : Binary64} (h : readDouble e b = some x)
    (r : Bytes) : readDouble e (b ++ r) = some x := by
  unfold readDouble at h ⊢
  split_ifs at h with hlen
  have hge : ¬(b ++ r).length < 8 := by simp; omega
  rw [if_neg hge, List.take_append_of_le_length (by omega)]
  exact h

theorem networkDouble_append {b : Bytes} {x : Binary64} (h : networkDouble b = some x) (r : Bytes) :
    networkDouble (b ++ r) = some x := by
  cases b with
  | nil => cases h
  | cons tag rest =>
      simp only [List.cons_append, networkDouble] at h ⊢
      by_cases hnan : tag = FloatPointType.naN.byte
      · rw [if_pos hnan] at h ⊢
        exact h
      by_cases hneg : tag = FloatPointType.infNegative.byte
      · rw [if_neg hnan, if_pos hneg] at h ⊢
        exact h
      by_cases hpos : tag = FloatPointType.infPositive.byte
      · rw [if_neg hnan, if_neg hneg, if_pos hpos] at h ⊢
        exact h
      rw [if_neg hnan, if_neg hneg, if_neg hpos] at h ⊢
      by_cases hlen : rest.length < 12
      · rw [if_pos hlen] at h
        cases h
      have hge : ¬(rest ++ r).length < 12 := by simp; omega
      rw [if_neg hlen] at h
      rw [if_neg hge, List.take_append_of_le_length (by omega),
        List.drop_append_of_le_length (by omega), List.take_append_of_le_length (by simp; omega)]
      exact h

theorem doubleInBufToHostOrder_local (e : Endian) :
    Converter.Local fun _ b => doubleInBufToHostOrder e b := by
  intro h b b' hc
  simp only [doubleInBufToHostOrder, Option.bind_eq_bind, Option.bind_eq_some_iff] at hc
  obtain ⟨x, hx, hp⟩ := hc
  obtain ⟨hlen, happ⟩ := poke_local hp
  refine ⟨hlen, fun r => ?_⟩
  simp only [doubleInBufToHostOrder, networkDouble_append hx, Option.bind_eq_bind, Option.bind_some,
    happ r]

theorem doubleInBufToNetworkOrder_local (e : Endian) :
    Converter.Local fun _ b => doubleInBufToNetworkOrder e b := by
  intro h b b' hc
  simp only [doubleInBufToNetworkOrder, Option.bind_eq_bind, Option.bind_eq_some_iff] at hc
  obtain ⟨x, hx, hp⟩ := hc
  suffices hsame : b'.length = b.length ∧ ∀ r, (if x.isNaN then poke (b ++ r) [FloatPointType.naN.byte]
      else if x.isInf then poke (b ++ r) [if x.isNegative then FloatPointType.infNegative.byte
        else FloatPointType.infPositive.byte]
      else poke (b ++ r) ((if x.isNegative then FloatPointType.normalNegative.byte
        else FloatPointType.normalPositive.byte) ::
          (bytesOf .big 8 (x.fabs.frexp.1.ldexp doubleMantissaBits).toUInt64 ++
            bytesOf .big 4 (ofInt32 (x.fabs.frexp.2 - doubleMantissaBits))))) = some (b' ++ r) by
    refine ⟨hsame.1, fun r => ?_⟩
    simp only [doubleInBufToNetworkOrder, readDouble_append hx, Option.bind_eq_bind, Option.bind_some]
    exact hsame.2 r
  split_ifs at hp ⊢ <;> exact poke_local hp

theorem word32Converter_local (e : Endian) : (word32Converter e).Local := by
  intro h b b' hc
  simp only [word32Converter, Option.bind_eq_bind, Option.bind_eq_some_iff, Prod.exists,
    Option.pure_def, Option.some.injEq] at hc
  obtain ⟨c, rest, hr, rfl⟩ := hc
  rw [Cell.eq_of_read hr]
  refine ⟨by simp, fun r => ?_⟩
  rw [List.append_assoc, word32Converter, Cell.read_bytes_append]
  simp

theorem word64Converter_local (e : Endian) : (word64Converter e).Local := by
  intro h b b' hc
  unfold word64Converter at hc
  split_ifs at hc with hlen
  have hge : ∀ r : Bytes, ¬(b ++ r).length < 8 := fun r => by simp; omega
  cases e with
  | little =>
      cases hc
      refine ⟨by simp; omega, fun r => ?_⟩
      simp only [word64Converter, if_neg (hge r)]
      rw [List.take_append_of_le_length (by omega), List.drop_append_of_le_length (by omega),
        List.append_assoc]
  | big =>
      cases hc
      exact ⟨rfl, fun r => by simp only [word64Converter, if_neg (hge r)]⟩

theorem swapArray_local (e : Endian) (n : Nat) {b b' : Bytes} (hc : swapArray e n b = some b') :
    b'.length = b.length ∧ ∀ r, swapArray e n (b ++ r) = some (b' ++ r) := by
  induction n generalizing b b' with
  | zero =>
      cases hc
      exact ⟨rfl, fun r => rfl⟩
  | succ n ih =>
      simp only [swapArray, Option.bind_eq_bind, Option.bind_eq_some_iff, Prod.exists, Option.pure_def,
        Option.some.injEq] at hc
      obtain ⟨c, rest, hr, rest', hrest, rfl⟩ := hc
      obtain ⟨hlen, happ⟩ := ih hrest
      rw [Cell.eq_of_read hr]
      refine ⟨by simp [hlen], fun r => ?_⟩
      rw [List.append_assoc, swapArray, Cell.read_bytes_append]
      simp [happ r]

theorem converterTo_local {e : Endian} {network : Bool} {type : Int} {c : Converter}
    (hc : converterTo e network type = some c) : c.Local := by
  unfold converterTo toNetworkOrder toHostOrder at hc
  split_ifs at hc <;> cases hc
  · exact word32Converter_local e
  · exact word64Converter_local e
  · exact doubleInBufToNetworkOrder_local e
  · exact fun h b b' => swapArray_local e _
  · exact word32Converter_local e
  · exact word64Converter_local e
  · exact doubleInBufToHostOrder_local e
  · exact fun h b b' => swapArray_local e _

/-! ### Records -/

/-- `Converters::to_network` or `Converters::to_host` on a header and the bytes behind it: the
converter runs while the header is in host order. -/
def convertRecord (e : Endian) (network : Bool) (h : Header) (b : Bytes) : Option (Header × Bytes) :=
  if h.inOrder e network then some (h, b)
  else
    match converterTo e network (h.dataTypeOf e) with
    | none => some (h, b)
    | some c => (c (if network then h else h.toHost e) b).map fun b' => (h.toOrder e network, b')

theorem convertRecord_inOrder {e : Endian} {network : Bool} {h : Header} (hin : h.inOrder e network)
    (b : Bytes) : convertRecord e network h b = some (h, b) := if_pos hin

theorem convertRecord_none {e : Endian} {network : Bool} {h : Header}
    (hconv : converterTo e network (h.dataTypeOf e) = none) (b : Bytes) :
    convertRecord e network h b = some (h, b) := by
  rw [convertRecord, hconv, ite_self]

theorem convertRecord_some {e : Endian} {network : Bool} {h : Header} {c : Converter}
    (hin : ¬h.inOrder e network) (hconv : converterTo e network (h.dataTypeOf e) = some c) (b : Bytes) :
    convertRecord e network h b =
      (c (if network then h else h.toHost e) b).map fun b' => (h.toOrder e network, b') := by
  rw [convertRecord, if_neg hin, hconv]

theorem convertRecord_local {e : Endian} {network : Bool} {h h' : Header} {b b' : Bytes}
    (hc : convertRecord e network h b = some (h', b')) :
    b'.length = b.length ∧ ∀ r, convertRecord e network h (b ++ r) = some (h', b' ++ r) := by
  by_cases hin : h.inOrder e network
  · rw [convertRecord_inOrder hin] at hc
    cases hc
    exact ⟨rfl, fun r => convertRecord_inOrder hin _⟩
  cases hconv : converterTo e network (h.dataTypeOf e) with
  | none =>
      rw [convertRecord_none hconv] at hc
      cases hc
      exact ⟨rfl, fun r => convertRecord_none hconv _⟩
  | some c =>
      rw [convertRecord_some hin hconv] at hc
      obtain ⟨b'', hb, heq⟩ := Option.map_eq_some_iff.mp hc
      cases heq
      obtain ⟨hlen, happ⟩ := converterTo_local hconv _ _ _ hb
      exact ⟨hlen, fun r => by rw [convertRecord_some hin hconv, happ r, Option.map_some]⟩

/-- A conversion leaves the header alone or brings it into the order. -/
theorem convertRecord_header {e : Endian} {network : Bool} {h h' : Header} {b b' : Bytes}
    (hc : convertRecord e network h b = some (h', b')) : h' = h ∨ h' = h.toOrder e network := by
  by_cases hin : h.inOrder e network
  · rw [convertRecord_inOrder hin] at hc
    cases hc
    exact Or.inl rfl
  cases hconv : converterTo e network (h.dataTypeOf e) with
  | none =>
      rw [convertRecord_none hconv] at hc
      cases hc
      exact Or.inl rfl
  | some c =>
      rw [convertRecord_some hin hconv] at hc
      obtain ⟨b'', -, heq⟩ := Option.map_eq_some_iff.mp hc
      cases heq
      exact Or.inr rfl

/-- A record whose type has a converter is in host order after the conversion. -/
theorem convertRecord_isHostOrder {e : Endian} {h h' : Header} {b b' : Bytes} (hv : h.ValidMark e)
    (hconv : toHostOrder e (h.dataTypeOf e) ≠ none) (hc : convertRecord e false h b = some (h', b')) :
    h'.isHostOrder e := by
  by_cases hin : h.inOrder e false
  · rw [convertRecord_inOrder hin] at hc
    cases hc
    exact hin
  · obtain ⟨c, hfind⟩ := Option.ne_none_iff_exists'.mp hconv
    rw [convertRecord_some hin hfind] at hc
    obtain ⟨b'', -, heq⟩ := Option.map_eq_some_iff.mp hc
    cases heq
    exact Header.inOrder_toOrder hv false

end LeanDson
