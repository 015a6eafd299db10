import LeanDson.Inverse
import LeanDson.Records

/-! What a converter touches. It is picked by the type alone and works in place from the data pointer on, whatever
the payload has; it is defined when there is as much as it reads and writes. -/

namespace LeanDson

/-! ### Converters -/

/-- A double of which a conversion touches eight bytes only: a NaN or an infinity. -/
def specialDouble (e : Endian) (network : Bool) (b : Bytes) : Bool :=
  if network then (readDouble e b).any fun x => x.isNaN || x.isInf
  else b.head? = some FloatPointType.naN.byte || b.head? = some FloatPointType.infNegative.byte ||
    b.head? = some FloatPointType.infPositive.byte

/-- The bytes in front of a block that the conversion of a type touches. An array of words is as long as the size
in its header says. -/
def reach (e : Endian) (network : Bool) (type : Int) (b : Bytes) : Nat :=
  if type = TypesMap.double then if specialDouble e network b then 8 else bufSizeForDouble
  else fixedWidth type

/-- A cell is read from four bytes. -/
theorem Cell.exists_read {b : Bytes} (hlen : 4 ≤ b.length) : ∃ c rest, Cell.read b = some (c, rest) := by
  match b, hlen with
  | b0 :: b1 :: b2 :: b3 :: rest, _ => exact ⟨⟨b0, b1, b2, b3⟩, rest, rfl⟩

theorem poke_isSome_iff (b new : Bytes) : (poke b new).isSome ↔ new.length ≤ b.length := by
  rw [poke]
  split_ifs with hshort
  · simp only [Option.isSome_none, Bool.false_eq_true, false_iff]
    omega
  · simp only [Option.isSome_some, true_iff]
    omega

section

variable (e : Endian) (h : Header) (b : Bytes)

theorem word32Converter_isSome : (word32Converter e h b).isSome ↔ 4 ≤ b.length := by
  constructor
  · intro hsome
    obtain ⟨b', hb'⟩ := Option.isSome_iff_exists.mp hsome
    simp only [word32Converter, Option.bind_eq_bind, Option.bind_eq_some_iff, Prod.exists, Option.pure_def,
      Option.some.injEq] at hb'
    obtain ⟨c, rest, hr, -⟩ := hb'
    rw [Cell.eq_of_read hr, List.length_append, Cell.bytes_length]
    omega
  · intro hlen
    obtain ⟨c, rest, hr⟩ := Cell.exists_read hlen
    rw [word32Converter, hr]
    rfl

theorem word64Converter_isSome : (word64Converter e h b).isSome ↔ 8 ≤ b.length := by
  unfold word64Converter
  split_ifs with hshort
  · simp only [Option.isSome_none, Bool.false_eq_true, false_iff]
    omega
  · cases e <;> simp only [Option.isSome_some, true_iff] <;> omega

theorem doubleInBufToHostOrder_isSome :
    (doubleInBufToHostOrder e b).isSome ↔ (if specialDouble e false b then 8 else bufSizeForDouble) ≤ b.length := by
  have hpoke : ∀ x : Binary64, (poke b (bytesOf e 8 x.toNat)).isSome ↔ 8 ≤ b.length := fun x => by
    rw [poke_isSome_iff, bytesOf_length]
  cases b with
  | nil => simp [doubleInBufToHostOrder, networkDouble, bufSizeForDouble, specialDouble]
  | cons tag rest =>
      have hspecial : specialDouble e false (tag :: rest) ↔
          (tag = FloatPointType.naN.byte ∨ tag = FloatPointType.infNegative.byte) ∨
            tag = FloatPointType.infPositive.byte := by
        simp only [specialDouble, Bool.false_eq_true, if_false, List.head?_cons, Option.some.injEq, Bool.or_eq_true,
          decide_eq_true_eq]
      rw [doubleInBufToHostOrder, networkDouble]
      simp only [hspecial]
      by_cases hnan : tag = FloatPointType.naN.byte
      · rw [if_pos hnan, if_pos (Or.inl (Or.inl hnan))]
        exact hpoke _
      by_cases hneg : tag = FloatPointType.infNegative.byte
      · rw [if_neg hnan, if_pos hneg, if_pos (Or.inl (Or.inr hneg))]
        exact hpoke _
      by_cases hpos : tag = FloatPointType.infPositive.byte
      · rw [if_neg hnan, if_neg hneg, if_pos hpos, if_pos (Or.inr hpos)]
        exact hpoke _
      rw [if_neg hnan, if_neg hneg, if_neg hpos,
        if_neg (show ¬((tag = _ ∨ tag = _) ∨ tag = _) from fun h => h.elim (fun h => h.elim hnan hneg) hpos),
        bufSizeForDouble, List.length_cons]
      by_cases hshort : rest.length < 12
      · rw [if_pos hshort]
        simp only [Option.bind_eq_bind, Option.bind_none, Option.isSome_none, Bool.false_eq_true, false_iff]
        omega
      · rw [if_neg hshort]
        simp only [Option.bind_eq_bind, Option.bind_some, hpoke, List.length_cons]
        omega

/-- A NaN or an infinity leaves a tag, and any other double its encoding. -/
theorem doubleInBufToNetworkOrder_isSome :
    (doubleInBufToNetworkOrder e b).isSome ↔ (if specialDouble e true b then 8 else bufSizeForDouble) ≤ b.length := by
  rw [doubleInBufToNetworkOrder, specialDouble, if_pos rfl]
  by_cases hshort : b.length < 8
  · rw [readDouble, if_pos hshort]
    simp only [Option.bind_eq_bind, Option.bind_none, Option.isSome_none, Bool.false_eq_true, false_iff, Option.any_none,
      if_false, bufSizeForDouble]
    omega
  · rw [readDouble, if_neg hshort]
    simp only [Option.bind_eq_bind, Option.bind_some, Option.any_some, Bool.or_eq_true]
    by_cases hnan : (Binary64.ofNat (natOf e (b.take 8))).isNaN
    · rw [if_pos hnan, if_pos (Or.inl hnan), poke_isSome_iff, List.length_singleton]
      omega
    by_cases hinf : (Binary64.ofNat (natOf e (b.take 8))).isInf
    · rw [if_neg hnan, if_pos hinf, if_pos (Or.inr hinf), poke_isSome_iff, List.length_singleton]
      omega
    rw [if_neg hnan, if_neg hinf, if_neg (not_or.mpr ⟨hnan, hinf⟩), poke_isSome_iff, bufSizeForDouble]
    simp only [List.length_cons, List.length_append, bytesOf_length]

end

theorem swapArray_isSome (e : Endian) {n : Nat} {b : Bytes} (hlen : 4 * n ≤ b.length) : (swapArray e n b).isSome := by
  induction n generalizing b with
  | zero => rfl
  | succ n ih =>
      obtain ⟨c, rest, hr⟩ := Cell.exists_read (b := b) (by omega)
      have hrest : (swapArray e n rest).isSome := ih (by
        rw [Cell.eq_of_read hr, List.length_append, Cell.bytes_length] at hlen
        omega)
      obtain ⟨rest', hrest'⟩ := Option.isSome_iff_exists.mp hrest
      simp only [swapArray, hr, Option.bind_eq_bind, Option.bind_some, hrest']
      rfl

/-- A converter is defined on as many bytes as it touches, if the header does not announce more words than there
are. -/
theorem converter_isSome_iff {e : Endian} {network : Bool} {type : Int} {c : Converter}
    (hconv : converterTo e network type = some c) {h : Header} {b : Bytes} (hwords : 4 * arraySize e h ≤ b.length) :
    (c h b).isSome ↔ reach e network type b ≤ b.length := by
  rw [reach]
  rcases converterTo_cases hconv with ⟨htype, rfl⟩ | ⟨htype, rfl⟩ | ⟨htype, rfl⟩ | ⟨htype, rfl⟩
  · rw [word32Converter_isSome, fixedWidth, if_pos htype, if_neg (by rcases htype with h | h <;> rw [h] <;> decide)]
  · rw [word64Converter_isSome, fixedWidth, if_pos htype, if_neg (by rcases htype with h | h <;> rw [h] <;> decide),
      if_neg (by rcases htype with h | h <;> rw [h] <;> decide)]
  · rw [if_pos htype]
    cases network with
    | false => exact doubleInBufToHostOrder_isSome e b
    | true => exact doubleInBufToNetworkOrder_isSome e b
  · rw [htype, if_neg (by decide), show fixedWidth TypesMap.vectorUint32 = 0 from rfl]
    exact iff_of_true (swapArray_isSome e hwords) (Nat.zero_le _)

/-! ### Records -/

/-- The words of an array are those of its payload, and no more. -/
theorem arraySize_toHost {e : Endian} {r : Record} (hfits : r.Fits e) (hhost : ¬r.header.isHostOrder e) :
    4 * arraySize e (r.header.toHost e) ≤ r.payload.length := by
  have hsize : (r.header.toHost e).dataSize.int32 e = r.payload.length := by
    rw [← hfits.2, Header.toHost, if_neg hhost, Header.dataSizeOf, Header.field, if_neg hhost]
    rfl
  rw [arraySize, hsize]
  omega

/-- The conversion of a record stays inside its payload and the bytes behind it. -/
def Record.InReach (e : Endian) (r : Record) (rest : Bytes) : Prop :=
  r.header.isHostOrder e ∨ reach e false (r.header.dataTypeOf e) (r.payload ++ rest) ≤ (r.payload ++ rest).length

instance (e : Endian) (r : Record) (rest : Bytes) : Decidable (r.InReach e rest) :=
  inferInstanceAs (Decidable (_ ∨ _))

/-- What has no converter is not touched. -/
theorem reach_of_none {e : Endian} {network : Bool} {type : Int} (hconv : converterTo e network type = none) (b : Bytes) :
    reach e network type b = 0 := by
  have hnone : ¬(type = TypesMap.int32 ∨ type = TypesMap.uint32) ∧ ¬(type = TypesMap.int64 ∨ type = TypesMap.uint64) ∧
      type ≠ TypesMap.double := by
    cases network <;> simp only [converterTo, toHostOrder, toNetworkOrder, Bool.false_eq_true, if_false, if_true] at hconv <;>
      split_ifs at hconv with h32 h64 hdouble hvector <;> exact ⟨h32, h64, hdouble⟩
  rw [reach, if_neg hnone.2.2, fixedWidth, if_neg hnone.1, if_neg hnone.2.1]

/-- A conversion of a record is defined when it stays inside what lies behind the header. -/
theorem Record.convert_isSome_iff {e : Endian} {r : Record} (hfits : r.Fits e) (rest : Bytes) :
    (convertRecord e false r.header (r.payload ++ rest)).isSome ↔ r.InReach e rest := by
  by_cases hhost : r.header.isHostOrder e
  · rw [convertRecord_inOrder (show r.header.inOrder e false from hhost)]
    exact iff_of_true rfl (Or.inl hhost)
  rw [Record.InReach, or_iff_right hhost]
  cases hconv : converterTo e false (r.header.dataTypeOf e) with
  | none =>
      rw [convertRecord_none hconv, reach_of_none hconv]
      exact iff_of_true rfl (Nat.zero_le _)
  | some c =>
      rw [convertRecord_some (show ¬r.header.inOrder e false from hhost) hconv, Option.isSome_map,
        if_neg (by simp), converter_isSome_iff hconv]
      rw [List.length_append]
      have := arraySize_toHost hfits hhost
      omega

end LeanDson
