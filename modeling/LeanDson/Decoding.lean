import LeanDson.Encoding

/-! The reference decoder reads back every encoding: the key, the tree and not a byte more. -/

namespace LeanDson

/-! ### Records -/

/-- One record in front of others. -/
theorem decodeRecords_append {dec : Bytes → Option (Int × Tree × Bytes)} {bs rest : Bytes} {k : Int}
    {t : Tree} (hdec : dec (bs ++ rest) = some (k, t, rest)) (hbs : bs ≠ []) (n : Nat) :
    decodeRecords dec (n + 1) (bs ++ rest) = (decodeRecords dec n rest).map ((k, t) :: ·) := by
  obtain ⟨b, bs, rfl⟩ := List.exists_cons_of_ne_nil hbs
  rw [List.cons_append] at hdec ⊢
  rw [decodeRecords, hdec]
  simp only [Option.bind_eq_bind, Option.bind_some]
  cases decodeRecords dec n rest <;> rfl

/-- A header and as many bytes as it announces, as the decoder splits them. -/
theorem decode_split {e : Endian} {h : Header} {b : Bytes} (hsize : h.dataSizeOf e = b.length)
    (rest : Bytes) :
    Header.read (h.bytes ++ b ++ rest) = some (h, b ++ rest) ∧
      ¬(h.dataSizeOf e < 0 ∨ (b ++ rest).length < (h.dataSizeOf e).toNat) ∧
      (b ++ rest).take (h.dataSizeOf e).toNat = b ∧ (b ++ rest).drop (h.dataSizeOf e).toNat = rest := by
  rw [hsize, Int.toNat_natCast]
  refine ⟨by rw [List.append_assoc, Header.read_bytes_append], ?_, List.take_left, List.drop_left⟩
  rw [List.length_append]
  omega

theorem decode_leaf {e : Endian} {k : Int} {v : Value} {h : Header} {b : Bytes}
    (hl : LeafRecord e k v h b) (n : Nat) (rest : Bytes) :
    decode e (n + 1) (h.bytes ++ b ++ rest) = some (k, .leaf v, rest) := by
  obtain ⟨hread, hfits, htake, hdrop⟩ := decode_split hl.size rest
  have htype : h.dataTypeOf e ≠ TypesMap.dsonContainer := by
    rw [hl.type]
    exact hl.leaf
  rw [decode, hread]
  simp only [Option.bind_eq_bind, Option.bind_some]
  rw [if_neg hfits, if_neg htype, htake, hdrop, hl.value, hl.key]
  simp

theorem decode_node {e : Endian} {n : Nat} {h : Header} {b : Bytes} {ts : Forest}
    (hsize : h.dataSizeOf e = b.length) (htype : h.dataTypeOf e = TypesMap.dsonContainer)
    (hb : decodeRecords (decode e n) b.length b = some ts) (rest : Bytes) :
    decode e (n + 1) (h.bytes ++ b ++ rest) = some (h.keyOf e, .node ts, rest) := by
  obtain ⟨hread, hfits, htake, hdrop⟩ := decode_split hsize rest
  rw [decode, hread]
  simp only [Option.bind_eq_bind, Option.bind_some]
  rw [if_neg hfits, if_pos htype, htake, hdrop, hb]
  rfl

/-! ### Encodings -/

theorem Tree.depth_pos (t : Tree) : 0 < t.depth := by
  cases t <;> simp [Tree.depth]

/-- The header of a container with the length of its body. -/
theorem Dson.IsNode.header {e : Endian} {d : Dson} {k : Int} {ts : Forest} (hnode : d.IsNode e k ts)
    (size : Int) (hs : IsInt32 size) (network : Bool) :
    ((d.headerBuf.setDataSize e size).toOrder e network).dataSizeOf e = size ∧
      ((d.headerBuf.setDataSize e size).toOrder e network).keyOf e = k ∧
      ((d.headerBuf.setDataSize e size).toOrder e network).dataTypeOf e =
        if ts.isEmpty then TypesMap.empty else TypesMap.dsonContainer := by
  have hmark : (d.headerBuf.setDataSize e size).ValidMark e := (Header.validMark_congr rfl).mp hnode.mark
  rw [Header.dataSizeOf_toOrder hmark, Header.keyOf_toOrder hmark, Header.dataTypeOf_toOrder hmark,
    Header.dataSizeOf_setDataSize _ hs, Header.keyOf_setDataSize, Header.dataTypeOf_setDataSize]
  exact ⟨rfl, hnode.key, hnode.type⟩

/-- A container, given that its records are read back. -/
theorem decode_container {e : Endian} {h : Header} {b : Bytes} {k : Int} {ts : Forest} {n : Nat}
    (hmark : h.ValidMark e) (hsize : h.dataSizeOf e = b.length) (hkey : h.keyOf e = k)
    (htype : h.dataTypeOf e = if ts.isEmpty then TypesMap.empty else TypesMap.dsonContainer)
    (hlen : b.length = Forest.size ts) (hn : Forest.depth ts ≤ n)
    (hrecs : ∀ n', n = n' + 1 → decodeRecords (decode e (n' + 1)) b.length b = some (Forest.shown ts))
    (rest : Bytes) : decode e (n + 1) (h.bytes ++ b ++ rest) = some (k, (Tree.node ts).shown, rest) := by
  cases ts with
  | nil =>
      obtain rfl : b = [] := List.eq_nil_of_length_eq_zero hlen
      have hval : payloadValue e h [] = some (.raw TypesMap.empty [], []) := by
        simp only [payloadValue, htype]
        rfl
      have hl : LeafRecord e k (.raw TypesMap.empty []) h [] := ⟨hmark, hsize, hkey, htype, hval, by decide⟩
      exact decode_leaf hl n rest
  | cons p ts =>
      have hpos : 0 < Forest.depth (p :: ts) := lt_of_lt_of_le p.2.depth_pos (le_max_left _ _)
      obtain ⟨n, rfl⟩ : ∃ n', n = n' + 1 := ⟨n - 1, by omega⟩
      rw [decode_node hsize htype (hrecs n rfl), hkey]
      rfl

mutual

/-- The decoder reads an encoding back, and stops where it ends. -/
theorem Holds.decode_wire {e : Endian} (network : Bool) : ∀ {o : DsonObj} {k : Int} {t : Tree},
    Holds e o k t → t.size < 2 ^ 31 → ∀ {n : Nat}, t.depth ≤ n + 1 → ∀ rest : Bytes,
      decode e (n + 1) (o.wire e network ++ rest) = some (k, t.shown, rest)
  | .dson d children, k, .leaf v, h, _, n, _, rest => by
      simp only [Holds] at h
      obtain ⟨-, rfl, block, hown, hl⟩ := h
      obtain ⟨h', b', hconv, hl', -⟩ := hl.convert network
      simp only [DsonObj.wire, hown.kind, hown.buf, hconv]
      exact decode_leaf hl' n rest
  | .dson d children, k, .node ts, h, hlt, n, hn, rest => by
      simp only [Holds] at h
      obtain ⟨-, hnode, -, hall⟩ := h
      simp only [Tree.size, headerSize] at hlt
      simp only [Tree.depth] at hn
      have hlen := hall.wires_length network
      obtain ⟨hsize, hkey, htype⟩ := hnode.header (DsonObj.wires e network children).length
        (by simp only [IsInt32]; omega) network
      simp only [DsonObj.wire, hnode.kind]
      have hmark : (d.headerBuf.setDataSize e (DsonObj.wires e network children).length).ValidMark e :=
        (Header.validMark_congr rfl).mp hnode.mark
      refine decode_container (Header.toOrder_valid hmark network) hsize hkey htype hlen (by omega) ?_ rest
      rintro n' rfl
      exact hall.decode_wires network (by omega) (by omega) le_rfl
  | .string s, k, .leaf v, h, _, n, _, rest => by
      simp only [Holds] at h
      obtain ⟨-, -, hl, hs⟩ := h
      exact decode_leaf (hl.toOrder_string hs network) n rest
  | .route r, k, .leaf v, h, _, n, _, rest => by
      simp only [Holds] at h
      obtain ⟨-, hl, ht⟩ := h
      exact decode_leaf (hl.route_toOrder ht network) n rest
  | .string _, _, .node _, h, _, _, _, _ => h.elim
  | .route _, _, .node _, h, _, _, _, _ => h.elim

theorem HoldsAll.decode_wires {e : Endian} (network : Bool) : ∀ {children : ObjMap} {ts : Forest},
    HoldsAll e children ts → Forest.size ts < 2 ^ 31 → ∀ {n : Nat}, Forest.depth ts ≤ n + 1 →
      ∀ {fuel : Nat}, (DsonObj.wires e network children).length ≤ fuel →
        decodeRecords (decode e (n + 1)) fuel (DsonObj.wires e network children) = some (Forest.shown ts)
  | [], [], _, _, _, _, fuel, _ => by cases fuel <;> rfl
  | (k, o) :: rest, (k', t) :: ts, h, hlt, n, hn, fuel, hfuel => by
      simp only [HoldsAll] at h
      obtain ⟨rfl, ho, hrest⟩ := h
      simp only [Forest.size] at hlt
      simp only [Forest.depth] at hn
      simp only [DsonObj.wires, List.length_append] at hfuel ⊢
      have hlen := ho.wire_length network
      have hpos := t.headerSize_le_size
      simp only [headerSize] at hpos
      obtain ⟨fuel, rfl⟩ : ∃ f, fuel = f + 1 := ⟨fuel - 1, by omega⟩
      have hne : o.wire e network ≠ [] := by
        intro hnil
        rw [hnil, List.length_nil] at hlen
        omega
      rw [decodeRecords_append (ho.decode_wire network (by omega) (by omega) _) hne,
        hrest.decode_wires network (by omega) (by omega) (by omega)]
      rfl
  | [], _ :: _, h, _, _, _, _, _ => h.elim
  | _ :: _, [], h, _, _, _, _, _ => h.elim

end

mutual

/-- Every level of nesting takes a header. -/
theorem Tree.depth_lt_size : ∀ t : Tree, t.depth < t.size
  | .leaf v => by
      simp only [Tree.depth, Tree.size, headerSize]
      omega
  | .node ts => by
      have hle := Forest.depth_le_size ts
      simp only [Tree.depth, Tree.size, headerSize]
      omega

theorem Forest.depth_le_size : ∀ ts : Forest, Forest.depth ts ≤ Forest.size ts
  | [] => le_rfl
  | (_, t) :: ts => by
      have ht := Tree.depth_lt_size t
      have hts := Forest.depth_le_size ts
      simp only [Forest.depth, Forest.size]
      omega

end

/-- A complete encoding, read back. -/
theorem Holds.decodeMessage_wire {e : Endian} {o : DsonObj} {k : Int} {t : Tree} (h : Holds e o k t)
    (hlt : t.size < 2 ^ 31) (network : Bool) :
    decodeMessage e (o.wire e network) = some (k, t.shown, []) := by
  have hlen := h.wire_length network
  have hdepth := t.depth_lt_size
  obtain ⟨n, hn⟩ : ∃ n, t.size = n + 1 := ⟨t.size - 1, by omega⟩
  have hdec := h.decode_wire network hlt (n := n) (by omega) []
  rwa [List.append_nil, ← hn, ← hlen] at hdec

end LeanDson
