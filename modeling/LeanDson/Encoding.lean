import LeanDson.Values
import LeanDson.Copy

/-! Trees of values, the reference decoder of the format, and the encoding an object hands over when
it is emitted. The decoder knows the format alone: a header read by its own mark, exactly as many
bytes as it announces, the records of a container one after the other. -/

namespace LeanDson

/-! ### Trees -/

/-- What an object holds: a value, or children under their keys. -/
inductive Tree where
  | leaf (v : Value)
  | node (children : List (Int × Tree))

abbrev Forest := List (Int × Tree)

/-- The type marker of a value. -/
def Value.type : Value → Int
  | .int32 _ => TypesMap.int32
  | .uint32 _ => TypesMap.uint32
  | .int64 _ => TypesMap.int64
  | .uint64 _ => TypesMap.uint64
  | .double _ => TypesMap.double
  | .string _ => TypesMap.string
  | .words _ => TypesMap.vectorUint32
  | .raw type _ => type

/-- The number of payload bytes of a value. -/
def Value.size : Value → Nat
  | .int32 _ => 4
  | .uint32 _ => 4
  | .int64 _ => 8
  | .uint64 _ => 8
  | .double _ => 13
  | .string s => s.length
  | .words ws => 4 * ws.length
  | .raw _ b => b.length

mutual

/-- The length of an encoding, its header included. -/
def Tree.size : Tree → Nat
  | .leaf v => headerSize + v.size
  | .node ts => headerSize + Forest.size ts

def Forest.size : Forest → Nat
  | [] => 0
  | (_, t) :: ts => t.size + Forest.size ts

end

mutual

def Tree.depth : Tree → Nat
  | .leaf _ => 1
  | .node ts => Forest.depth ts + 1

def Forest.depth : Forest → Nat
  | [] => 0
  | (_, t) :: ts => max t.depth (Forest.depth ts)

end

mutual

/-- A tree as a reader sees it: a container without children has never been given its type. -/
def Tree.shown : Tree → Tree
  | .leaf v => .leaf v
  | .node ts => if ts.isEmpty then .leaf (.raw TypesMap.empty []) else .node (Forest.shown ts)

def Forest.shown : Forest → Forest
  | [] => []
  | (k, t) :: ts => (k, t.shown) :: Forest.shown ts

end

/-! ### The reference decoder -/

/-- Records one after the other until the bytes are used up. -/
def decodeRecords (dec : Bytes → Option (Int × Tree × Bytes)) : Nat → Bytes → Option Forest
  | _, [] => some []
  | 0, _ :: _ => none
  | n + 1, b :: bs => do
      let (k, t, rest) ← dec (b :: bs)
      let more ← decodeRecords dec n rest
      return (k, t) :: more

/-- One message at the start of a byte string: its key, its content and the bytes behind it. -/
def decode (e : Endian) : Nat → Bytes → Option (Int × Tree × Bytes)
  | 0, _ => none
  | n + 1, bs => do
      let (h, rest) ← Header.read bs
      let size := h.dataSizeOf e
      if size < 0 ∨ rest.length < size.toNat then none
      else
        let payload := rest.take size.toNat
        if h.dataTypeOf e = TypesMap.dsonContainer then
          let children ← decodeRecords (decode e n) payload.length payload
          return (h.keyOf e, .node children, rest.drop size.toNat)
        else
          let (v, unused) ← payloadValue e h payload
          if unused ≠ [] then none
          else return (h.keyOf e, .leaf v, rest.drop size.toNat)

/-- A whole byte string read as one message; every level of nesting takes a header. -/
def decodeMessage (e : Endian) (bs : Bytes) : Option (Int × Tree × Bytes) := decode e bs.length bs

/-! ### Encodings -/

mutual

/-- The bytes of a complete emission. -/
def DsonObj.wire (e : Endian) (network : Bool) : DsonObj → Bytes
  | .dson d children =>
      match d.dsonKind, d.buf with
      | .dsonContainer, _ =>
          let body := DsonObj.wires e network children
          ((d.headerBuf.setDataSize e body.length).toOrder e network).bytes ++ body
      | _, .own block =>
          match convertRecord e network d.headerBuf block with
          | some (h, b) => h.bytes ++ b
          | none => []
      | _, _ => []
  | .string s => (s.header.toOrder e network).bytes ++ s.object
  | .route r => (r.toOrder e network).bytes

def DsonObj.wires (e : Endian) (network : Bool) : ObjMap → Bytes
  | [] => []
  | (_, o) :: rest => o.wire e network ++ DsonObj.wires e network rest

end

/-! ### Objects that hold a tree -/

/-- A record with a key and a value, in one of the two byte orders. -/
structure LeafRecord (e : Endian) (k : Int) (v : Value) (h : Header) (b : Bytes) : Prop where
  mark : h.ValidMark e
  size : h.dataSizeOf e = b.length
  key : h.keyOf e = k
  type : h.dataTypeOf e = v.type
  value : payloadValue e h b = some (v, [])
  leaf : v.type ≠ TypesMap.dsonContainer

/-- A single object over a block of its own. -/
structure Dson.Owns (d : Dson) (block : Bytes) : Prop where
  kind : d.dsonKind = .oneObjectInDataBuf
  alloc : d.wasBufAllocation = true
  buf : d.buf = .own block
  size : d.bufSize = block.length
  nonempty : block ≠ []

/-- A container without a buffer, with the header of one. -/
structure Dson.IsNode (e : Endian) (d : Dson) (k : Int) (ts : Forest) : Prop where
  kind : d.dsonKind = .dsonContainer
  alloc : d.wasBufAllocation = false
  buf : d.buf = .null
  mark : d.headerBuf.ValidMark e
  key : d.headerBuf.keyOf e = k
  type : d.headerBuf.dataTypeOf e = if ts.isEmpty then TypesMap.empty else TypesMap.dsonContainer

mutual

/-- A ready object built from values holds a tree under a key. -/
def Holds (e : Endian) : DsonObj → Int → Tree → Prop
  | .dson d children, k, .leaf v =>
      d.state = .ready ∧ children = [] ∧ ∃ block, d.Owns block ∧ LeafRecord e k v d.headerBuf block
  | .dson d children, k, .node ts =>
      d.state = .ready ∧ d.IsNode e k ts ∧ KeyMap.Sorted children ∧ HoldsAll e children ts
  | .string s, k, .leaf v => s.state = .ready ∧ s.object ≠ [] ∧ LeafRecord e k v s.header s.object ∧
      v.type = TypesMap.string
  | .route r, k, .leaf v => r.state = .ready ∧ LeafRecord e k v r.header r.address.bytes ∧
      v.type = TypesMap.vectorUint32
  | .string _, _, .node _ => False
  | .route _, _, .node _ => False

def HoldsAll (e : Endian) : ObjMap → Forest → Prop
  | [], [] => True
  | (k, o) :: rest, (k', t) :: ts => k = k' ∧ Holds e o k t ∧ HoldsAll e rest ts
  | [], _ :: _ => False
  | _ :: _, [] => False

end

/-! ### Lengths -/

theorem wordsOf_length (o : Endian) (n : Nat) (b : Bytes) : (wordsOf o n b).length = n := by
  induction n generalizing b with
  | zero => rfl
  | succ n ih => rw [wordsOf, List.length_cons, ih]

/-- A payload that its type uses up has the length of its value. -/
theorem payloadValue_size {e : Endian} {h : Header} {b : Bytes} {v : Value}
    (hval : payloadValue e h b = some (v, [])) : v.size = b.length := by
  unfold payloadValue at hval
  dsimp only at hval
  split_ifs at hval with _ hlen _ hlen _ hlen _ hlen _ hlen <;>
    first
      | (simp only [Option.some.injEq, Prod.mk.injEq, List.drop_eq_nil_iff] at hval
         obtain ⟨rfl, hl⟩ := hval
         simp only [Value.size]
         omega)
      | skip
  · obtain ⟨x, -, hx⟩ := Option.map_eq_some_iff.mp hval
    simp only [Prod.mk.injEq, List.drop_eq_nil_iff] at hx
    obtain ⟨rfl, hl⟩ := hx
    simp only [Value.size]
    omega
  · simp only [Option.some.injEq, Prod.mk.injEq, List.drop_eq_nil_iff] at hval
    obtain ⟨rfl, hl⟩ := hval
    rw [Value.size, wordsOf_length]
    omega
  · cases hval
    rfl
  · cases hval
    rfl

namespace LeafRecord

variable {e : Endian} {k : Int} {v : Value} {h : Header} {b : Bytes}

theorem length_eq (hl : LeafRecord e k v h b) : v.size = b.length := payloadValue_size hl.value

/-- A conversion gives a record with the same key and value. -/
theorem convert (hl : LeafRecord e k v h b) (network : Bool) :
    ∃ h' b', convertRecord e network h b = some (h', b') ∧ LeafRecord e k v h' b' ∧
      b'.length = b.length := by
  obtain ⟨h', b', hconv, hh, hval⟩ := convertRecord_value network hl.mark hl.size hl.value
  have hlen := (convertRecord_local hconv).1
  refine ⟨h', b', hconv, ?_, hlen⟩
  rcases hh with rfl | rfl
  · exact ⟨hl.mark, by rw [hl.size, hlen], hl.key, hl.type, hval, hl.leaf⟩
  · exact ⟨Header.toOrder_valid hl.mark network,
      by rw [Header.dataSizeOf_toOrder hl.mark, hl.size, hlen],
      by rw [Header.keyOf_toOrder hl.mark, hl.key],
      by rw [Header.dataTypeOf_toOrder hl.mark, hl.type], hval, hl.leaf⟩

/-- A string payload reads the same under either header. -/
theorem toOrder_string (hl : LeafRecord e k v h b) (hs : v.type = TypesMap.string) (network : Bool) :
    LeafRecord e k v (h.toOrder e network) b := by
  have htype := Header.dataTypeOf_toOrder hl.mark network
  have hval := hl.value
  refine ⟨Header.toOrder_valid hl.mark network, by rw [Header.dataSizeOf_toOrder hl.mark, hl.size],
    by rw [Header.keyOf_toOrder hl.mark, hl.key], by rw [htype, hl.type], ?_, hl.leaf⟩
  simp only [payloadValue, htype, hl.type, hs] at hval ⊢
  simpa using hval

end LeafRecord

/-- The buffer of a route object is converted as a record. -/
theorem DsonRouteObj.convertRecord_toOrder {e : Endian} {k : Int} {v : Value} {r : DsonRouteObj}
    (hl : LeafRecord e k v r.header r.address.bytes) (ht : v.type = TypesMap.vectorUint32)
    (network : Bool) :
    convertRecord e network r.header r.address.bytes =
      some ((r.toOrder e network).header, (r.toOrder e network).address.bytes) := by
  by_cases hin : r.header.inOrder e network
  · have hsame : r.toOrder e network = r := if_pos hin
    rw [convertRecord_inOrder hin, hsame]
  · have hswap : r.toOrder e network =
        { r with header := r.header.swapWords e, address := r.address.swapWords e } := if_neg hin
    have horder : r.header.toOrder e network = r.header.swapWords e := by
      cases network <;> exact if_neg hin
    have hconv : converterTo e network (r.header.dataTypeOf e) = some (arrayConverter e) := by
      rw [hl.type, ht]
      cases network <;> rfl
    obtain ⟨rfl, hhost, hhost'⟩ := Header.little_of_not_inOrder hl.mark hin
    have hsize : arraySize .little (if network then r.header else r.header.toHost .little) = 4 := by
      cases network with
      | true => exact arraySize_eq (n := 16) hhost hl.size
      | false => exact arraySize_eq (n := 16) hhost' ((Header.dataSizeOf_toOrder hl.mark false).trans hl.size)
    rw [convertRecord_some hin hconv, hswap, horder, arrayConverter, hsize]
    rfl

theorem LeafRecord.route_toOrder {e : Endian} {k : Int} {v : Value} {r : DsonRouteObj}
    (hl : LeafRecord e k v r.header r.address.bytes) (ht : v.type = TypesMap.vectorUint32)
    (network : Bool) :
    LeafRecord e k v (r.toOrder e network).header (r.toOrder e network).address.bytes := by
  obtain ⟨h', b', hconv, hl', -⟩ := hl.convert network
  rw [DsonRouteObj.convertRecord_toOrder hl ht network] at hconv
  cases hconv
  exact hl'

mutual

theorem Holds.wire_length {e : Endian} (network : Bool) : ∀ {o : DsonObj} {k : Int} {t : Tree},
    Holds e o k t → (o.wire e network).length = t.size
  | .dson d children, k, .leaf v, h => by
      simp only [Holds] at h
      obtain ⟨-, rfl, block, hown, hl⟩ := h
      obtain ⟨h', b', hconv, -, hlen⟩ := hl.convert network
      simp only [DsonObj.wire, hown.kind, hown.buf, hconv, Tree.size, List.length_append,
        Header.bytes_length, hlen, hl.length_eq, headerSize]
  | .dson d children, k, .node ts, h => by
      simp only [Holds] at h
      obtain ⟨-, hnode, -, hall⟩ := h
      simp only [DsonObj.wire, hnode.kind, Tree.size, List.length_append, Header.bytes_length,
        hall.wires_length network, headerSize]
  | .string s, k, .leaf v, h => by
      simp only [Holds] at h
      obtain ⟨-, -, hl, -⟩ := h
      simp only [DsonObj.wire, Tree.size, List.length_append, Header.bytes_length, hl.length_eq,
        headerSize]
  | .route r, k, .leaf v, h => by
      simp only [Holds] at h
      obtain ⟨-, hl, ht⟩ := h
      have hlen := (hl.route_toOrder ht network).length_eq
      simp only [DsonObj.wire, DsonRouteObj.bytes, Tree.size, List.length_append, Header.bytes_length,
        hlen, headerSize]
  | .string _, _, .node _, h => h.elim
  | .route _, _, .node _, h => h.elim

theorem HoldsAll.wires_length {e : Endian} (network : Bool) : ∀ {children : ObjMap} {ts : Forest},
    HoldsAll e children ts → (DsonObj.wires e network children).length = Forest.size ts
  | [], [], _ => rfl
  | (k, o) :: rest, (k', t) :: ts, h => by
      simp only [HoldsAll] at h
      obtain ⟨-, ho, hrest⟩ := h
      simp only [DsonObj.wires, Forest.size, List.length_append, ho.wire_length network,
        hrest.wires_length network]
  | [], _ :: _, h => h.elim
  | _ :: _, [], h => h.elim

end

/-- Every encoding starts with a header. -/
theorem Tree.headerSize_le_size (t : Tree) : headerSize ≤ t.size := by
  cases t <;> simp [Tree.size]

mutual

/-- The announced size is the length of the payload as a 32-bit integer. -/
theorem Holds.dataSize_wrap {e : Endian} (m : Mem) : ∀ {o : DsonObj} {k : Int} {t : Tree},
    Holds e o k t → o.dataSize e m = some (wrap32 ((t.size : Int) - headerSize))
  | .dson d children, k, .leaf v, h => by
      simp only [Holds] at h
      obtain ⟨-, rfl, block, hown, hl⟩ := h
      have hheader : d.header m = some d.headerBuf := if_pos (by simp [Dson.headerIsLocal, hown.alloc])
      have hsize : ((Tree.leaf v).size : Int) - headerSize = d.headerBuf.dataSizeOf e := by
        rw [Tree.size, hl.length_eq, hl.size]
        simp
      simp only [DsonObj.dataSize, hown.kind, hheader, Option.map_some, hsize]
      rw [wrap32_of_isInt32 (Header.dataSizeOf_isInt32 _)]
  | .dson d children, k, .node ts, h => by
      simp only [Holds] at h
      obtain ⟨-, hnode, -, hall⟩ := h
      simp only [DsonObj.dataSize, hnode.kind, Dson.inner, hnode.buf, Tree.size, hall.dataSizes_wrap m]
      simp
  | .string s, k, .leaf v, h => by
      simp only [Holds] at h
      obtain ⟨-, -, hl, -⟩ := h
      have hsize : ((Tree.leaf v).size : Int) - headerSize = s.header.dataSizeOf e := by
        rw [Tree.size, hl.length_eq, hl.size]
        simp
      rw [hsize, wrap32_of_isInt32 (Header.dataSizeOf_isInt32 _)]
      rfl
  | .route r, k, .leaf v, h => by
      simp only [Holds] at h
      obtain ⟨-, hl, -⟩ := h
      have hlen : v.size = 16 := hl.length_eq
      rw [Tree.size, hlen]
      rfl
  | .string _, _, .node _, h => h.elim
  | .route _, _, .node _, h => h.elim

theorem HoldsAll.dataSizes_wrap {e : Endian} (m : Mem) : ∀ {children : ObjMap} {ts : Forest},
    HoldsAll e children ts → DsonObj.dataSizes e m children = some (wrap32 (Forest.size ts))
  | [], [], _ => rfl
  | (k, o) :: rest, (k', t) :: ts, h => by
      simp only [HoldsAll] at h
      obtain ⟨-, ho, hrest⟩ := h
      simp only [DsonObj.dataSizes, ho.dataSize_wrap m, hrest.dataSizes_wrap m, Option.bind_eq_bind, Option.bind_some,
        Option.pure_def, Forest.size, Option.some.injEq]
      rw [wrap32_add_left, wrap32_add_right, Int.add_assoc, wrap32_add_left, ← Int.add_assoc, Int.sub_add_cancel]
      rfl
  | [], _ :: _, h => h.elim
  | _ :: _, [], h => h.elim

end

/-- Below the range of 32-bit integers the announced size is the length of the payload. -/
theorem Holds.dataSize {e : Endian} (m : Mem) {o : DsonObj} {k : Int} {t : Tree} (h : Holds e o k t)
    (hlt : t.size < 2 ^ 31) : o.dataSize e m = some ((t.size : Int) - headerSize) := by
  have hle := t.headerSize_le_size
  rw [h.dataSize_wrap, wrap32_of_isInt32]
  rw [headerSize] at hle
  simp only [IsInt32, headerSize]
  omega

theorem HoldsAll.dataSizes {e : Endian} (m : Mem) {children : ObjMap} {ts : Forest} (h : HoldsAll e children ts)
    (hlt : Forest.size ts < 2 ^ 31) : DsonObj.dataSizes e m children = some (Forest.size ts : Int) := by
  rw [h.dataSizes_wrap, wrap32_of_isInt32]
  simp only [IsInt32]
  omega

end LeanDson
