import LeanDson.Conversion
import LeanDson.Values

/-! The two conversions of one object are inverse to each other and idempotent, on every type but
doubles and containers. -/

namespace LeanDson

/-! ### Converters -/

/-- The bytes a converter reads at least. -/
def fixedWidth (type : Int) : Nat :=
  if type = TypesMap.int32 ∨ type = TypesMap.uint32 then 4
  else if type = TypesMap.int64 ∨ type = TypesMap.uint64 then 8
  else 0

/-- The converters are the same in both directions, doubles apart. -/
theorem converterTo_not (e : Endian) (network : Bool) {type : Int} (htype : type ≠ TypesMap.double) :
    converterTo e (!network) type = converterTo e network type := by
  unfold converterTo toNetworkOrder toHostOrder
  cases network <;> simp only [htype, if_false] <;> rfl

theorem swapArray_swapArray (e : Endian) (n : Nat) {b b' : Bytes} (hc : swapArray e n b = some b') :
    swapArray e n b' = some b := by
  induction n generalizing b b' with
  | zero =>
      cases hc
      rfl
  | succ n ih =>
      simp only [swapArray, Option.bind_eq_bind, Option.bind_eq_some_iff, Prod.exists, Option.pure_def,
        Option.some.injEq] at hc
      obtain ⟨c, rest, hr, rest', hrest, rfl⟩ := hc
      rw [Cell.eq_of_read hr, swapArray, Cell.read_bytes_append]
      simp only [Option.bind_eq_bind, Option.bind_some, ih hrest, Cell.ntohl, Cell.htonl_htonl]
      rfl

theorem word64Converter_word64Converter (e : Endian) (h : Header) {b b' : Bytes}
    (hc : word64Converter e h b = some b') : word64Converter e h b' = some b := by
  have hlen := (word64Converter_local e h b b' hc).1
  unfold word64Converter at hc ⊢
  split_ifs at hc with hshort
  rw [if_neg (by omega)]
  cases e with
  | big => exact hc.symm
  | little =>
      cases hc
      have hrev : ((b.take 8).reverse).length = 8 := by simp; omega
      dsimp only
      rw [List.take_left' hrev, List.drop_left' hrev, List.reverse_reverse, List.take_append_drop]

/-- A converter that has run undoes itself. -/
theorem converterTo_converterTo {e : Endian} {network : Bool} {type : Int} {c : Converter}
    (htype : type ≠ TypesMap.double) (hconv : converterTo e network type = some c) {h : Header} {b b' : Bytes}
    (hc : c h b = some b') : c h b' = some b := by
  rcases converterTo_cases hconv with ⟨-, rfl⟩ | ⟨-, rfl⟩ | ⟨ht, -⟩ | ⟨-, rfl⟩
  · simp only [word32Converter, Option.bind_eq_bind, Option.bind_eq_some_iff, Prod.exists, Option.pure_def,
      Option.some.injEq] at hc
    obtain ⟨c, rest, hr, rfl⟩ := hc
    rw [Cell.eq_of_read hr, word32Converter, Cell.read_bytes_append]
    simp only [Option.bind_eq_bind, Option.bind_some, Cell.ntohl, Cell.htonl_htonl]
    rfl
  · exact word64Converter_word64Converter e h hc
  · exact absurd ht htype
  · exact swapArray_swapArray e _ hc

/-- A converter runs on a payload that is as wide as its type. -/
theorem converterTo_isSome {network : Bool} {type : Int} {c : Converter} (htype : type ≠ TypesMap.double)
    (hconv : converterTo .little network type = some c) {h : Header} {b : Bytes} (hhost : h.isHostOrder .little)
    (hsize : h.dataSizeOf .little = b.length) (hwidth : fixedWidth type ≤ b.length) : ∃ b', c h b = some b' := by
  rcases converterTo_cases hconv with ⟨ht, rfl⟩ | ⟨ht, rfl⟩ | ⟨ht, -⟩ | ⟨-, rfl⟩
  · rw [fixedWidth, if_pos ht] at hwidth
    obtain ⟨b', hb', -⟩ := word32Converter_value .little h hwidth
    exact ⟨b', hb'⟩
  · have hnot : ¬(type = TypesMap.int32 ∨ type = TypesMap.uint32) := by
      rcases ht with rfl | rfl <;> decide
    rw [fixedWidth, if_neg hnot, if_pos ht] at hwidth
    obtain ⟨b', hb', -⟩ := word64Converter_value .little h hwidth
    exact ⟨b', hb'⟩
  · exact absurd ht htype
  · obtain ⟨b', hb', -⟩ := swapArray_words .little (b.length / 4) (b := b) (by omega)
    exact ⟨b', by rw [arrayConverter, arraySize_eq hhost hsize, hb']⟩

/-! ### Records -/

namespace Header

variable {e : Endian} {h : Header} {network : Bool}

/-- A header in one order is what its conversion to the other is converted back to. -/
theorem toOrder_not_toOrder (hin : h.inOrder e (!network)) (hv : h.ValidMark e) :
    (h.toOrder e network).toOrder e (!network) = h :=
  (toOrder_congr (toOrder_valid hv network) hv (dataSizeOf_toOrder hv network) (keyOf_toOrder hv network)
    (dataTypeOf_toOrder hv network) _).trans (toOrder_of_inOrder hin)

end Header

section

variable {e : Endian} {h : Header} {b : Bytes} (network : Bool) (hv : h.ValidMark e)
  (hsize : h.dataSizeOf e = b.length) (hdouble : h.dataTypeOf e ≠ TypesMap.double)
  (hwidth : fixedWidth (h.dataTypeOf e) ≤ b.length)

include hv hsize hdouble hwidth

/-- A conversion of a record keeps what its header says, does nothing when it is repeated, and is
undone by the other conversion. -/
theorem convertRecord_inverse : ∃ h' b', convertRecord e network h b = some (h', b') ∧ b'.length = b.length ∧
    (h' = h ∨ h' = h.toOrder e network) ∧ convertRecord e network h' b' = some (h', b') ∧
    (h.inOrder e (!network) → convertRecord e (!network) h' b' = some (h, b)) := by
  by_cases hin : h.inOrder e network
  · exact ⟨h, b, convertRecord_inOrder hin b, rfl, Or.inl rfl, convertRecord_inOrder hin b,
      fun hother => convertRecord_inOrder hother b⟩
  cases hconv : converterTo e network (h.dataTypeOf e) with
  | none =>
      exact ⟨h, b, convertRecord_none hconv b, rfl, Or.inl rfl, convertRecord_none hconv b,
        fun hother => convertRecord_inOrder hother b⟩
  | some c =>
      obtain ⟨rfl, hhost, hhost'⟩ := Header.little_of_not_inOrder hv hin
      -- Both directions run the converter over the header in host order.
      obtain ⟨g, hg, hback, hghost, hgsize⟩ : ∃ g, (if network then h else h.toHost .little) = g ∧
          (if !network then h.toOrder .little network else (h.toOrder .little network).toHost .little) = g ∧
          g.isHostOrder .little ∧ g.dataSizeOf .little = b.length := by
        cases network with
        | true =>
            have hother : h.inOrder .little (!true) := hhost
            exact ⟨h, rfl, Header.toOrder_not_toOrder hother hv, hhost, hsize⟩
        | false =>
            exact ⟨h.toHost .little, rfl, rfl, hhost', (Header.dataSizeOf_toOrder hv false).trans hsize⟩
      obtain ⟨b', hb'⟩ := converterTo_isSome hdouble hconv hghost hgsize hwidth
      have hin' : (h.toOrder .little network).inOrder .little network := Header.inOrder_toOrder hv network
      refine ⟨h.toOrder .little network, b', by rw [convertRecord_some hin hconv, hg, hb']; rfl,
        (converterTo_local hconv _ _ _ hb').1, Or.inr rfl, convertRecord_inOrder hin' b', fun hother => ?_⟩
      have hnot : ¬(h.toOrder .little network).inOrder .little (!network) := fun hboth => by
        have hsame := Header.toOrder_of_inOrder hboth
        rw [Header.toOrder_not_toOrder hother hv] at hsame
        exact hin (hsame ▸ hin')
      have hconv' : converterTo .little (!network) ((h.toOrder .little network).dataTypeOf .little) = some c := by
        rw [Header.dataTypeOf_toOrder hv, converterTo_not _ _ hdouble, hconv]
      rw [convertRecord_some hnot hconv', hback, converterTo_converterTo hdouble hconv hb',
        Header.toOrder_not_toOrder hother hv]
      rfl

end

/-! ### Objects -/

/-- One object under an arbitrary header `h` and payload `b`, in a block of its own or as a view of a
foreign block. -/
inductive Placed : (Header → Bytes → Dson × Mem) → Prop
  | own {d : Dson} {m : Mem} (hstate : d.state = .ready) (hkind : d.dsonKind ≠ .dsonContainer)
      (halloc : d.wasBufAllocation = true) : Placed fun h b => ({ d with headerBuf := h, buf := .own b }, m)
  | view {d : Dson} {m : Mem} {r : Region} {off : Nat} {front rest : Bytes} (hstate : d.state = .ready)
      (hkind : d.dsonKind ≠ .dsonContainer) (halloc : d.wasBufAllocation = false) (hbuf : d.buf = .view r off)
      (hoff : front.length = off) : Placed fun h b => (d, m.setBlock r (front ++ (h.bytes ++ (b ++ rest))))

namespace Placed

variable {put : Header → Bytes → Dson × Mem} (hput : Placed put) (e : Endian) (h : Header) (b : Bytes)

include hput

theorem header : (put h b).1.header (put h b).2 = some h := by
  cases hput with
  | own hstate hkind halloc => exact (Dson.isRecord_own halloc (by simp [hstate]) _).header h b
  | view hstate hkind halloc hbuf hoff =>
      exact (Dson.isRecord_view halloc (by simp [hstate]) hbuf _ hoff).header h _

theorem key : (put h b).1.key e (put h b).2 = some (h.keyOf e) := by
  rw [Dson.key, hput.header]
  rfl

theorem dataType : (put h b).1.dataType e (put h b).2 = some (h.dataTypeOf e) := by
  have hstate : (put h b).1.state ≠ .error := by
    cases hput with
    | own hstate => simp [hstate]
    | view hstate => simp [hstate]
  rw [Dson.dataType, if_neg hstate, hput.header]
  rfl

theorem dataSize (children : ObjMap) :
    DsonObj.dataSize e (put h b).2 (.dson (put h b).1 children) = some (h.dataSizeOf e) := by
  have hkind : (put h b).1.dsonKind ≠ .dsonContainer := by
    cases hput with
    | own _ hkind => exact hkind
    | view _ hkind => exact hkind
  rw [DsonObj.dataSize, hput.header]
  split
  · next hcontainer => exact absurd hcontainer hkind
  · rfl

/-- A conversion of the object that is one of its record. -/
theorem toOrder {network : Bool} {h h' : Header} {b b' : Bytes} (hc : convertRecord e network h b = some (h', b')) :
    (put h b).1.toOrder e network (put h b).2 = some (put h' b') := by
  cases hput with
  | own hstate hkind halloc =>
      rw [(Dson.isRecord_own halloc (by simp [hstate]) _).toOrder e h b network, hc]
      rfl
  | @view d m r off front rest hstate hkind halloc hbuf hoff =>
      rw [(Dson.isRecord_view halloc (by simp [hstate]) hbuf m hoff).toOrder e h (b ++ rest) network,
        (convertRecord_local hc).2 rest]
      rfl

end Placed

/-- The conversions of one object in place: a conversion keeps the key, the type and the size, does
nothing the second time, and is undone by the other conversion. Nothing outside the header and the
payload is written: `put` keeps the rest. -/
theorem conversions_inverse (e : Endian) (network : Bool) {put : Header → Bytes → Dson × Mem} (hput : Placed put)
    {h : Header} {b : Bytes} (hv : h.ValidMark e) (hsize : h.dataSizeOf e = b.length)
    (hdouble : h.dataTypeOf e ≠ TypesMap.double) (hwidth : fixedWidth (h.dataTypeOf e) ≤ b.length) :
    ∃ h' b', (put h b).1.toOrder e network (put h b).2 = some (put h' b') ∧ b'.length = b.length ∧
      (put h' b').1.toOrder e network (put h' b').2 = some (put h' b') ∧
      (h.inOrder e (!network) → (put h' b').1.toOrder e (!network) (put h' b').2 = some (put h b)) ∧
      (put h' b').1.key e (put h' b').2 = (put h b).1.key e (put h b).2 ∧
      (put h' b').1.dataType e (put h' b').2 = (put h b).1.dataType e (put h b).2 ∧
      ∀ children, DsonObj.dataSize e (put h' b').2 (.dson (put h' b').1 children) =
        DsonObj.dataSize e (put h b).2 (.dson (put h b).1 children) := by
  obtain ⟨h', b', hconv, hlen, hheader, hagain, hback⟩ := convertRecord_inverse network hv hsize hdouble hwidth
  have hsame : h'.keyOf e = h.keyOf e ∧ h'.dataTypeOf e = h.dataTypeOf e ∧ h'.dataSizeOf e = h.dataSizeOf e := by
    rcases hheader with rfl | rfl
    · exact ⟨rfl, rfl, rfl⟩
    · exact ⟨Header.keyOf_toOrder hv network, Header.dataTypeOf_toOrder hv network, Header.dataSizeOf_toOrder hv network⟩
  refine ⟨h', b', hput.toOrder e hconv, hlen, hput.toOrder e hagain, fun hother => hput.toOrder e (hback hother), ?_, ?_,
    fun children => ?_⟩
  · rw [hput.key, hput.key, hsame.1]
  · rw [hput.dataType, hput.dataType, hsame.2.1]
  · rw [hput.dataSize, hput.dataSize, hsame.2.2]

/-- An array of seven bytes in a foreign block: one word is swapped, the tail is not. -/
theorem conversions_inverse_array :
    let h : Header := ⟨markHostOrder .little, Cell.ofInt .little 7, Cell.ofInt .little 5, Cell.ofInt .little 7⟩
    let d : Dson := { Dson.uninit h with buf := .view .external 1, dsonKind := .oneObjectInDataBuf }
    let put := fun (h : Header) (b : Bytes) => (d, (⟨[], []⟩ : Mem).setBlock .external ([9] ++ (h.bytes ++ (b ++ [8]))))
    ∃ h' b', (put h [1, 2, 3, 4, 5, 6, 7]).1.toOrder .little true (put h [1, 2, 3, 4, 5, 6, 7]).2 = some (put h' b') ∧
      (put h' b').1.toOrder .little false (put h' b').2 = some (put h [1, 2, 3, 4, 5, 6, 7]) := by
  intro h d put
  have hput : Placed put := .view (d := d) rfl (by decide) rfl rfl rfl
  obtain ⟨h', b', hrun, -, -, hback, -⟩ := conversions_inverse .little true hput (h := h) (b := [1, 2, 3, 4, 5, 6, 7])
    (by decide) (by decide) (by decide) (by decide)
  exact ⟨h', b', hrun, hback (by decide)⟩

end LeanDson
