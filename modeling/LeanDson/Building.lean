import LeanDson.Encoding
import LeanDson.Conversion

/-! Building objects: what the constructors hold, and what `set_key`, `emplace`, `get` and `map` do to
the tree an object holds, at the object itself and at the end of a path of keys. -/

namespace LeanDson

/-! ### Trees under operations -/

/-- Change the children of the container at the end of a path. -/
def Tree.modify (f : Forest → Forest) : List Int → Tree → Option Tree
  | [], .node ts => some (.node (f ts))
  | key :: path, .node ts => do
      let t ← KeyMap.find key ts
      let t' ← t.modify f path
      return .node (KeyMap.insertOrAssign key t' ts)
  | _, .leaf _ => none

/-- The tree at the end of a path. -/
def Tree.at : List Int → Tree → Option Tree
  | [], t => some t
  | key :: path, .node ts => do
      let t ← KeyMap.find key ts
      t.at path
  | _ :: _, .leaf _ => none

mutual

/-- The children of every container are in ascending order of their keys. -/
def Tree.Ordered : Tree → Prop
  | .leaf _ => True
  | .node ts => KeyMap.Sorted ts ∧ Forest.Ordered ts

def Forest.Ordered : Forest → Prop
  | [] => True
  | (_, t) :: ts => t.Ordered ∧ Forest.Ordered ts

end

mutual

/-- Every container has a child. -/
def Tree.Populated : Tree → Prop
  | .leaf _ => True
  | .node ts => ts ≠ [] ∧ Forest.Populated ts

def Forest.Populated : Forest → Prop
  | [] => True
  | (_, t) :: ts => t.Populated ∧ Forest.Populated ts

end

mutual

theorem Tree.shown_of_populated : ∀ {t : Tree}, t.Populated → t.shown = t
  | .leaf _, _ => rfl
  | .node ts, h => by
      rw [Tree.Populated] at h
      rw [Tree.shown, if_neg (by simpa using h.1), Forest.shown_of_populated h.2]

theorem Forest.shown_of_populated : ∀ {ts : Forest}, Forest.Populated ts → Forest.shown ts = ts
  | [], _ => rfl
  | (k, t) :: ts, h => by
      rw [Forest.Populated] at h
      rw [Forest.shown, Tree.shown_of_populated h.1, Forest.shown_of_populated h.2]

end

theorem Forest.keys_shown : ∀ ts : Forest, KeyMap.keys (Forest.shown ts) = KeyMap.keys ts
  | [] => rfl
  | (k, t) :: ts => by rw [Forest.shown, KeyMap.keys_cons, KeyMap.keys_cons, Forest.keys_shown ts]

mutual

theorem Tree.shown_ordered : ∀ {t : Tree}, t.Ordered → t.shown.Ordered
  | .leaf _, _ => trivial
  | .node ts, h => by
      rw [Tree.Ordered] at h
      rw [Tree.shown]
      split_ifs
      · trivial
      · rw [Tree.Ordered, KeyMap.Sorted, Forest.keys_shown]
        exact ⟨h.1, Forest.shown_ordered h.2⟩

theorem Forest.shown_ordered : ∀ {ts : Forest}, Forest.Ordered ts → Forest.Ordered (Forest.shown ts)
  | [], _ => trivial
  | (k, t) :: ts, h => by
      rw [Forest.Ordered] at h
      rw [Forest.shown, Forest.Ordered]
      exact ⟨Tree.shown_ordered h.1, Forest.shown_ordered h.2⟩

end

/-! ### Children under their keys -/

section

variable {e : Endian}

theorem HoldsAll.cases {children : ObjMap} {ts : Forest} (h : HoldsAll e children ts) :
    children = [] ∧ ts = [] ∨
      ∃ k o rest t ts', children = (k, o) :: rest ∧ ts = (k, t) :: ts' ∧ Holds e o k t ∧ HoldsAll e rest ts' := by
  cases children with
  | nil =>
      cases ts with
      | nil => exact Or.inl ⟨rfl, rfl⟩
      | cons p ts => exact h.elim
  | cons p rest =>
      cases ts with
      | nil => exact h.elim
      | cons q ts =>
          rw [HoldsAll] at h
          refine Or.inr ⟨p.1, p.2, rest, q.2, ts, rfl, ?_, h.2⟩
          rw [h.1]

theorem HoldsAll.keys {children : ObjMap} {ts : Forest} (h : HoldsAll e children ts) :
    KeyMap.keys children = KeyMap.keys ts := by
  induction children generalizing ts with
  | nil =>
      obtain ⟨-, rfl⟩ | ⟨k, o, rest, t, ts, heq, -⟩ := h.cases
      · rfl
      · cases heq
  | cons p rest ih =>
      obtain ⟨heq, -⟩ | ⟨k, o, rest', t, ts, heq, rfl, -, hrest⟩ := h.cases
      · cases heq
      · cases heq
        rw [KeyMap.keys_cons, KeyMap.keys_cons, ih hrest]

theorem HoldsAll.find (key : Int) {children : ObjMap} {ts : Forest} (h : HoldsAll e children ts) :
    (KeyMap.find key children = none ∧ KeyMap.find key ts = none) ∨
      ∃ o t, KeyMap.find key children = some o ∧ KeyMap.find key ts = some t ∧ Holds e o key t := by
  induction children generalizing ts with
  | nil =>
      obtain ⟨-, rfl⟩ | ⟨k, o, rest, t, ts, heq, -⟩ := h.cases
      · exact Or.inl ⟨rfl, rfl⟩
      · cases heq
  | cons p rest ih =>
      obtain ⟨heq, -⟩ | ⟨k, o, rest', t, ts, heq, rfl, ho, hrest⟩ := h.cases
      · cases heq
      · cases heq
        rw [KeyMap.find, KeyMap.find]
        by_cases hkey : key = k
        · subst hkey
          rw [if_pos rfl, if_pos rfl]
          exact Or.inr ⟨o, t, rfl, rfl, ho⟩
        · rw [if_neg hkey, if_neg hkey]
          exact ih hrest

theorem HoldsAll.insert {o : DsonObj} {k : Int} {t : Tree} (ho : Holds e o k t) {children : ObjMap} {ts : Forest}
    (h : HoldsAll e children ts) :
    HoldsAll e (KeyMap.insertOrAssign k o children) (KeyMap.insertOrAssign k t ts) := by
  induction children generalizing ts with
  | nil =>
      obtain ⟨-, rfl⟩ | ⟨k', o', rest, t', ts, heq, -⟩ := h.cases
      · rw [KeyMap.insertOrAssign, KeyMap.insertOrAssign, HoldsAll]
        exact ⟨rfl, ho, trivial⟩
      · cases heq
  | cons p rest ih =>
      obtain ⟨heq, -⟩ | ⟨k', o', rest', t', ts, heq, rfl, ho', hrest⟩ := h.cases
      · cases heq
      · cases heq
        rw [KeyMap.insertOrAssign, KeyMap.insertOrAssign]
        split_ifs
        · rw [HoldsAll]
          exact ⟨rfl, ho, h⟩
        · rw [HoldsAll]
          exact ⟨rfl, ho, hrest⟩
        · rw [HoldsAll]
          exact ⟨rfl, ho', ih hrest⟩

/-! ### Single objects and containers -/

theorem Dson.Owns.header {d : Dson} {block : Bytes} (hown : d.Owns block) (m : Mem) :
    d.header m = some d.headerBuf := if_pos (by simp [Dson.headerIsLocal, hown.alloc])

/-- A conversion of an object that owns its block. -/
theorem Dson.Owns.toOrder {d : Dson} {block : Bytes} (hown : d.Owns block) (hstate : d.state ≠ .error)
    (e : Endian) (network : Bool) (m : Mem) :
    d.toOrder e network m = (convertRecord e network d.headerBuf block).map fun p =>
      ({ d with headerBuf := p.1, buf := .own p.2 }, m) := by
  have hd : { d with headerBuf := d.headerBuf, buf := .own block } = d := by rw [← hown.buf]
  have hrec := (Dson.isRecord_own hown.alloc hstate m).toOrder e d.headerBuf block network
  rwa [hd] at hrec

/-- A converted object still owns its block. -/
theorem Dson.Owns.converted {d : Dson} {block b' : Bytes} (hown : d.Owns block) (hlen : b'.length = block.length)
    (d' : Dson) (hkind : d'.dsonKind = d.dsonKind) (halloc : d'.wasBufAllocation = d.wasBufAllocation)
    (hsize : d'.bufSize = d.bufSize) (hbuf : d'.buf = .own b') : d'.Owns b' where
  kind := hkind.trans hown.kind
  alloc := halloc.trans hown.alloc
  buf := hbuf
  size := by rw [hsize, hown.size, hlen]
  nonempty := fun hnil => hown.nonempty (List.eq_nil_of_length_eq_zero (by rw [← hlen, hnil]; rfl))

theorem Dson.IsNode.header_eq {d : Dson} {k : Int} {ts : Forest} (hnode : d.IsNode e k ts) (m : Mem) :
    d.header m = some d.headerBuf := if_pos (by simp [Dson.headerIsLocal, hnode.buf, BufPtr.isNull])

/-- The header of a container may be brought into either order, with any size in it. -/
theorem Dson.IsNode.prepared {d : Dson} {k : Int} {ts : Forest} (hnode : d.IsNode e k ts) (d' : Dson)
    {size : Int} {network : Bool} (hh : d'.headerBuf = (d.headerBuf.setDataSize e size).toOrder e network)
    (hkind : d'.dsonKind = d.dsonKind) (halloc : d'.wasBufAllocation = d.wasBufAllocation)
    (hbuf : d'.buf = d.buf) : d'.IsNode e k ts := by
  have hmark : (d.headerBuf.setDataSize e size).ValidMark e := (Header.validMark_congr rfl).mp hnode.mark
  refine ⟨hkind.trans hnode.kind, halloc.trans hnode.alloc, hbuf.trans hnode.buf, ?_, ?_, ?_⟩
  · rw [hh]
    exact Header.toOrder_valid hmark network
  · rw [hh, Header.keyOf_toOrder hmark, Header.keyOf_setDataSize, hnode.key]
  · rw [hh, Header.dataTypeOf_toOrder hmark, Header.dataTypeOf_setDataSize, hnode.type]

theorem Dson.IsNode.congr {d d' : Dson} {k : Int} {ts : Forest} (hnode : d.IsNode e k ts)
    (hh : d'.headerBuf = d.headerBuf) (hkind : d'.dsonKind = d.dsonKind)
    (halloc : d'.wasBufAllocation = d.wasBufAllocation) (hbuf : d'.buf = d.buf) : d'.IsNode e k ts :=
  ⟨hkind.trans hnode.kind, halloc.trans hnode.alloc, hbuf.trans hnode.buf, hh ▸ hnode.mark,
    hh ▸ hnode.key, hh ▸ hnode.type⟩

/-! ### Constructors -/

/-- The header that a value constructor leaves: the key word is what the memory held. -/
def builtHeader (e : Endian) (h : Header) (type : Int) (size : Nat) : Header :=
  ⟨markHostOrder e, Cell.ofInt e size, h.key, Cell.ofInt e type⟩

/-- The object that a value constructor leaves. -/
def builtDson (e : Endian) (h : Header) (type : Int) (block : Bytes) : Dson where
  state := .ready
  offset := 0
  headerBuf := builtHeader e h type block.length
  buf := .own block
  bufSize := block.length
  wasBufAllocation := true
  dsonKind := .oneObjectInDataBuf
  copyIter := .unset

theorem ofValue_eq (h : Header) (junk : Nat → UInt8) (type : Int) {size : Nat} (value : Bytes)
    (hpos : 0 < size) (hlt : size < 2 ^ 31) (hlen : value.length ≤ size) :
    ∃ rest, DsonObj.ofValue e h junk type size value = some (.dson (builtDson e h type (value ++ rest)) []) ∧
      (value ++ rest).length = size := by
  have hwrap : wrap32 (size : Int) = size := wrap32_of_isInt32 (by simp only [IsInt32]; omega)
  have hblock : ((List.range size).map junk).length = size := by simp
  refine ⟨((List.range size).map junk).drop value.length, ?_, by simp; omega⟩
  have hpoke : poke ((List.range size).map junk) value =
      some (value ++ ((List.range size).map junk).drop value.length) := poke_isSome (by omega)
  have hsize : (value ++ ((List.range size).map junk).drop value.length).length = size := by simp; omega
  rw [DsonObj.ofValue, hwrap, Dson.init, Dson.allocate, if_neg (by omega)]
  simp only [Dson.store, BufPtr.tail, Int.toNat_natCast, List.drop_zero, Nat.zero_le, if_true,
    Option.bind_eq_bind, Option.bind_some, hpoke, builtDson, builtHeader, hsize]
  rfl

theorem builtHeader_isHostOrder (h : Header) (type : Int) (size : Nat) :
    (builtHeader e h type size).isHostOrder e := by simp [builtHeader, Header.isHostOrder]

theorem builtHeader_order (h : Header) (type : Int) (size : Nat) :
    (builtHeader e h type size).order e = e := if_pos (builtHeader_isHostOrder h type size)

theorem builtHeader_dataTypeOf (h : Header) {type : Int} (htype : IsInt32 type) (size : Nat) :
    (builtHeader e h type size).dataTypeOf e = type := by
  rw [Header.dataTypeOf, Header.field_eq, builtHeader_order, builtHeader, Cell.int32_ofInt _ htype]

theorem builtHeader_leafRecord (h : Header) (type : Int) {v : Value} {block : Bytes}
    (hlt : block.length < 2 ^ 31) (htype : IsInt32 type) (hv : v.type = type)
    (hleaf : type ≠ TypesMap.dsonContainer)
    (hval : payloadValue e (builtHeader e h type block.length) block = some (v, [])) :
    LeafRecord e (h.key.int32 e) v (builtHeader e h type block.length) block where
  mark := Or.inl (builtHeader_isHostOrder h type block.length)
  size := by
    rw [Header.dataSizeOf, Header.field_eq, builtHeader_order, builtHeader, Cell.int32_ofInt]
    simp only [IsInt32]
    omega
  key := by rw [Header.keyOf, Header.field_eq, builtHeader_order, builtHeader]
  type := by rw [builtHeader_dataTypeOf h htype, hv]
  value := hval
  leaf := by rwa [hv]

/-- A value constructor gives a ready object that owns its block. -/
theorem holds_builtDson (h : Header) {type : Int} {v : Value} {block : Bytes} (hne : block ≠ [])
    (hlt : block.length < 2 ^ 31) (htype : IsInt32 type) (hv : v.type = type)
    (hleaf : type ≠ TypesMap.dsonContainer)
    (hval : payloadValue e (builtHeader e h type block.length) block = some (v, [])) :
    Holds e (.dson (builtDson e h type block) []) (h.key.int32 e) (.leaf v) := by
  rw [Holds]
  exact ⟨rfl, rfl, block, ⟨rfl, rfl, rfl, rfl, hne⟩, builtHeader_leafRecord h type hlt htype hv hleaf hval⟩

theorem holds_empty : Holds e (DsonObj.empty e) 0 (.node []) := by
  have hhost : (Dson.clearHeader e).isHostOrder e := by simp [Dson.clearHeader, Header.isHostOrder]
  rw [DsonObj.empty, Holds]
  refine ⟨rfl, ⟨rfl, rfl, rfl, Or.inl hhost, ?_, ?_⟩, KeyMap.sorted_nil, trivial⟩
  · cases e <;> rfl
  · cases e <;> rfl

variable (h : Header) (junk : Nat → UInt8)

theorem holds_ofInt32 {v : Int} (hv : IsInt32 v) :
    ∃ o, DsonObj.ofInt32 e h junk v = some o ∧ Holds e o (h.key.int32 e) (.leaf (.int32 v)) := by
  obtain ⟨rest, heq, hlen⟩ := ofValue_eq (e := e) h junk TypesMap.int32
    (Cell.ofInt e v).bytes (by decide : 0 < 4) (by decide) (by simp)
  have hnat : natOf e (Cell.ofInt e v).bytes = ofInt32 v := Cell.toNat_ofNat e (ofInt32_lt v)
  refine ⟨_, heq, holds_builtDson (v := .int32 v) h (by simp [Cell.bytes]) (by omega) (by decide) rfl (by decide) ?_⟩
  rw [payloadValue_int32 (builtHeader_dataTypeOf h (by decide) _) (by omega), builtHeader_order,
    List.take_left' (Cell.bytes_length _), hnat, toInt32_ofInt32 hv, List.drop_of_length_le (by omega)]

theorem holds_ofUInt32 {v : Nat} (hv : v < 2 ^ 32) :
    ∃ o, DsonObj.ofUInt32 e h junk v = some o ∧ Holds e o (h.key.int32 e) (.leaf (.uint32 v)) := by
  obtain ⟨rest, heq, hlen⟩ := ofValue_eq (e := e) h junk TypesMap.uint32
    (bytesOf e 4 v) (by decide : 0 < 4) (by decide) (by simp)
  have hne : bytesOf e 4 v ++ rest ≠ [] := List.ne_nil_of_length_pos (by omega)
  refine ⟨_, heq, holds_builtDson (v := .uint32 v) h hne (by omega) (by decide) rfl (by decide) ?_⟩
  rw [payloadValue_uint32 (builtHeader_dataTypeOf h (by decide) _) (by omega), builtHeader_order,
    List.take_left' (bytesOf_length e 4 v), natOf_bytesOf e 4 v (by omega), List.drop_of_length_le (by omega)]

theorem holds_ofDouble (x : Binary64) :
    ∃ o, DsonObj.ofDouble e h junk x = some o ∧ Holds e o (h.key.int32 e) (.leaf (.double x.canon)) := by
  obtain ⟨rest, heq, hlen⟩ := ofValue_eq (e := e) h junk TypesMap.double
    (bytesOf e 8 x.toNat) (by decide : 0 < bufSizeForDouble) (by decide) (by simp [bufSizeForDouble])
  have hlen' : (bytesOf e 8 x.toNat ++ rest).length = 13 := hlen
  have hread : readDouble e (bytesOf e 8 x.toNat ++ rest) = some x := by
    rw [readDouble_of_length e (by omega), List.take_left' (bytesOf_length e 8 x.toNat),
      natOf_bytesOf e 8 _ (x.toNat_lt.trans_eq (by norm_num)), Binary64.ofNat_toNat]
  have hne : bytesOf e 8 x.toNat ++ rest ≠ [] := List.ne_nil_of_length_pos (by omega)
  refine ⟨_, heq, holds_builtDson (v := .double x.canon) h hne (by omega) (by decide) rfl (by decide) ?_⟩
  have hx : doubleValue e (builtHeader e h TypesMap.double (bytesOf e 8 x.toNat ++ rest).length)
      (bytesOf e 8 x.toNat ++ rest) = some x := by
    rw [doubleValue, if_pos (builtHeader_isHostOrder h _ _), hread]
  rw [payloadValue_double (builtHeader_dataTypeOf h (by decide) _) (by omega) hx,
    List.drop_of_length_le (by omega)]

theorem holds_ofString {s : Bytes} (hne : s ≠ []) (hlt : s.length < 2 ^ 31) :
    ∃ o, DsonObj.ofString e h junk s = some o ∧ Holds e o (h.key.int32 e) (.leaf (.string s)) := by
  obtain ⟨rest, heq, hlen⟩ := ofValue_eq (e := e) h junk TypesMap.string s
    (List.length_pos_of_ne_nil hne) hlt le_rfl
  have hrest : rest = [] := by
    rw [List.length_append] at hlen
    exact List.eq_nil_of_length_eq_zero (by omega)
  subst hrest
  rw [List.append_nil] at heq
  rw [DsonObj.ofString, if_neg hne]
  exact ⟨_, heq, holds_builtDson (v := .string s) h hne hlt (by decide) rfl (by decide)
    (payloadValue_string (builtHeader_dataTypeOf h (by decide) _))⟩

theorem holds_ofStringObj {key : Int} (hkey : IsInt32 key) {s : Bytes} (hne : s ≠ [])
    (hlt : s.length < 2 ^ 31) : Holds e (DsonObj.ofStringObj e key s) key (.leaf (.string s)) := by
  have hwrap : wrap32 (s.length : Int) = s.length := wrap32_of_isInt32 (by simp only [IsInt32]; omega)
  rw [DsonObj.ofStringObj, hwrap, Holds]
  refine ⟨rfl, hne, ?_, rfl⟩
  have hl := builtHeader_leafRecord (e := e) ⟨markHostOrder e, Cell.ofInt e 0, Cell.ofInt e key, Cell.ofInt e 0⟩
    TypesMap.string (v := .string s) hlt (by decide) rfl (by decide)
    (payloadValue_string (builtHeader_dataTypeOf _ (by decide) _))
  rw [Cell.int32_ofInt _ hkey] at hl
  exact hl

/-- The words of an address, as its host reads them. -/
def Address.words (e : Endian) (a : Address) : List Nat :=
  [a.fromServId.toNat e, a.fromCliId.toNat e, a.toServId.toNat e, a.toCliId.toNat e]

theorem Address.bytes_length (a : Address) : a.bytes.length = 16 := rfl

theorem Address.wordsOf_bytes (a : Address) : wordsOf e 4 a.bytes = a.words e := by
  simp [wordsOf, Address.bytes, Address.words, Cell.toNat, Cell.bytes]

theorem holds_ofRouteObj {key : Int} (hkey : IsInt32 key) (a : Address) :
    Holds e (DsonObj.ofRouteObj e key a) key (.leaf (.words (a.words e))) := by
  rw [DsonObj.ofRouteObj, Holds]
  refine ⟨rfl, ?_, rfl⟩
  have hval : payloadValue e (builtHeader e
      ⟨markHostOrder e, Cell.ofInt e 0, Cell.ofInt e key, Cell.ofInt e 0⟩ TypesMap.vectorUint32 a.bytes.length)
      a.bytes = some (.words (a.words e), []) := by
    rw [payloadValue_words (builtHeader_dataTypeOf _ (by decide) _), builtHeader_order, a.bytes_length,
      a.wordsOf_bytes, List.drop_of_length_le (by rw [a.bytes_length])]
  have hl := builtHeader_leafRecord ⟨markHostOrder e, Cell.ofInt e 0, Cell.ofInt e key, Cell.ofInt e 0⟩
    TypesMap.vectorUint32 (by rw [a.bytes_length]; decide) (by decide) rfl (by decide) hval
  rw [Cell.int32_ofInt _ hkey] at hl
  exact hl

/-! ### Operations -/

/-- An operation on an object that holds a tree under a key: after an answer in `Q` the object holds
`t'`. The memory around the object is left alone. -/
def Turns {α : Type} (e : Endian) (Q : α → Prop) (f : DsonObj → Mem → Option (α × DsonObj × Mem)) (k : Int)
    (t t' : Tree) : Prop :=
  ∀ ⦃o : DsonObj⦄ (m : Mem), Holds e o k t → ∃ a o', f o m = some (a, o', m) ∧ (Q a → Holds e o' k t')

theorem LeafRecord.setKey {k k' : Int} {v : Value} {h : Header} {b : Bytes} (hl : LeafRecord e k v h b)
    (hk : IsInt32 k') : LeafRecord e k' v (h.setKey e k') b where
  mark := (Header.validMark_congr rfl).mp hl.mark
  size := by rw [Header.dataSizeOf_setKey, hl.size]
  key := Header.keyOf_setKey h hk
  type := by rw [Header.dataTypeOf_setKey, hl.type]
  value := (payloadValue_congr rfl (Header.dataTypeOf_setKey h k') b).trans hl.value
  leaf := hl.leaf

theorem Dson.IsNode.headerIsLocal {d : Dson} {k : Int} {ts : Forest} (hnode : d.IsNode e k ts) :
    d.headerIsLocal = true := by simp [Dson.headerIsLocal, hnode.buf, BufPtr.isNull]

theorem Dson.IsNode.setKey {d : Dson} {k k' : Int} {ts : Forest} (hnode : d.IsNode e k ts) (hk : IsInt32 k') :
    Dson.IsNode e { d with headerBuf := d.headerBuf.setKey e k' } k' ts :=
  ⟨hnode.kind, hnode.alloc, hnode.buf, (Header.validMark_congr rfl).mp hnode.mark, Header.keyOf_setKey _ hk,
    (Header.dataTypeOf_setKey _ _).trans hnode.type⟩

/-- `set_key`. -/
theorem Holds.setKey {o : DsonObj} {k k' : Int} {t : Tree} (ho : Holds e o k t) (hk : IsInt32 k') (m : Mem) :
    ∃ o', o.setKey e m k' = some (o', m) ∧ Holds e o' k' t := by
  cases o with
  | string s =>
      refine ⟨_, rfl, ?_⟩
      cases t with
      | leaf v =>
          rw [Holds] at ho ⊢
          obtain ⟨hstate, hne, hl, ht⟩ := ho
          exact ⟨hstate, hne, hl.setKey hk, ht⟩
      | node ts => exact ho.elim
  | route r =>
      refine ⟨_, rfl, ?_⟩
      cases t with
      | leaf v =>
          rw [Holds] at ho ⊢
          obtain ⟨hstate, hl, ht⟩ := ho
          exact ⟨hstate, hl.setKey hk, ht⟩
      | node ts => exact ho.elim
  | dson d children =>
      cases t with
      | leaf v =>
          rw [Holds] at ho
          obtain ⟨hstate, rfl, block, hown, hl⟩ := ho
          have hlocal : d.headerIsLocal = true := by simp [Dson.headerIsLocal, hown.alloc]
          refine ⟨_, by rw [DsonObj.setKey, Dson.setKey_local hlocal]; rfl, ?_⟩
          rw [Holds]
          exact ⟨hstate, rfl, block, ⟨hown.kind, hown.alloc, hown.buf, hown.size, hown.nonempty⟩,
            hl.setKey hk⟩
      | node ts =>
          rw [Holds] at ho
          obtain ⟨hstate, hnode, hsorted, hall⟩ := ho
          refine ⟨_, by rw [DsonObj.setKey, Dson.setKey_local hnode.headerIsLocal]; rfl, ?_⟩
          rw [Holds]
          exact ⟨hstate, hnode.setKey hk, hsorted, hall⟩

theorem Holds.key {o : DsonObj} {k : Int} {t : Tree} (ho : Holds e o k t) (m : Mem) : o.key e m = some k := by
  cases o with
  | string s =>
      cases t with
      | leaf v =>
          rw [Holds] at ho
          rw [DsonObj.key, ho.2.2.1.key]
      | node ts => exact ho.elim
  | route r =>
      cases t with
      | leaf v =>
          rw [Holds] at ho
          rw [DsonObj.key, ho.2.1.key]
      | node ts => exact ho.elim
  | dson d children =>
      cases t with
      | leaf v =>
          rw [Holds] at ho
          obtain ⟨-, -, block, hown, hl⟩ := ho
          rw [DsonObj.key, Dson.key, hown.header, Option.map_some, hl.key]
      | node ts =>
          rw [Holds] at ho
          obtain ⟨-, hnode, -⟩ := ho
          rw [DsonObj.key, Dson.key, hnode.header_eq, Option.map_some, hnode.key]

/-- `insert_internal` on a container is a change of its header and of its map. -/
theorem Dson.insertInternal_container {d : Dson} {children : ObjMap} (hkind : d.dsonKind = .dsonContainer)
    (hstate : d.state = .ready) (key : Int) (obj : DsonObj) (m : Mem) :
    d.insertInternal e key obj children m = (d.setDataTypeInternal e m TypesMap.dsonContainer).map fun p =>
      (p.1, KeyMap.insertOrAssign key obj children, p.2) := by
  have hopen : d.openAsContainer e children m = some (d, children, m) := by
    unfold Dson.openAsContainer
    rw [hkind]
  rw [Dson.insertInternal, if_neg (by simp [hstate])]
  simp only [hopen, Option.bind_eq_bind, Option.bind_some]
  rw [if_neg (by simp [hstate])]
  cases d.setDataTypeInternal e m TypesMap.dsonContainer <;> rfl

theorem Dson.IsNode.insertInternal {d : Dson} {children : ObjMap} {k : Int} {ts : Forest} (hnode : d.IsNode e k ts)
    (hstate : d.state = .ready) (key : Int) (obj : DsonObj) (m : Mem) :
    d.insertInternal e key obj children m = some ({ d with
      headerBuf := d.headerBuf.setDataType e TypesMap.dsonContainer }, KeyMap.insertOrAssign key obj children, m) := by
  rw [Dson.insertInternal_container hnode.kind hstate, Dson.setDataTypeInternal_local hnode.headerIsLocal]
  rfl

/-- A container that has been given a child. -/
theorem Dson.IsNode.inserted {d : Dson} {k : Int} {ts : Forest} (hnode : d.IsNode e k ts) (key : Int) (t : Tree) :
    Dson.IsNode e { d with headerBuf := d.headerBuf.setDataType e TypesMap.dsonContainer } k
      (KeyMap.insertOrAssign key t ts) := by
  refine ⟨hnode.kind, hnode.alloc, hnode.buf, (Header.validMark_congr rfl).mp hnode.mark, ?_, ?_⟩
  · rw [Header.keyOf_setDataType, hnode.key]
  · have hne := KeyMap.insertOrAssign_ne_nil key t ts
    rw [Header.dataTypeOf_setDataType _ (by decide), if_neg (by simpa using hne)]

/-- `insert_internal` on a container. -/
theorem Holds.insertInternal {d : Dson} {children : ObjMap} {obj : DsonObj} {k key : Int} {ts : Forest} {t : Tree}
    (ho : Holds e (.dson d children) k (.node ts)) (hobj : Holds e obj key t) (m : Mem) :
    ∃ d' children', d.insertInternal e key obj children m = some (d', children', m) ∧
      Holds e (.dson d' children') k (.node (KeyMap.insertOrAssign key t ts)) := by
  rw [Holds] at ho
  obtain ⟨hstate, hnode, hsorted, hall⟩ := ho
  refine ⟨{ d with headerBuf := d.headerBuf.setDataType e TypesMap.dsonContainer },
    KeyMap.insertOrAssign key obj children, hnode.insertInternal hstate key obj m, ?_⟩
  rw [Holds]
  exact ⟨hstate, hnode.inserted key t, KeyMap.sorted_insertOrAssign hsorted key obj, hall.insert hobj⟩

/-- `emplace(key, obj)` on a container. -/
theorem Holds.emplace {o obj : DsonObj} {k k₀ key : Int} {ts : Forest} {t : Tree} (ho : Holds e o k (.node ts))
    (hobj : Holds e obj k₀ t) (hkey : IsInt32 key) (m : Mem) :
    ∃ o', DsonObj.emplace e key obj o m = some (o', m) ∧ Holds e o' k (.node (KeyMap.insertOrAssign key t ts)) := by
  cases o with
  | string s => exact ho.elim
  | route r => exact ho.elim
  | dson d children =>
      obtain ⟨obj', hset, hobj'⟩ := hobj.setKey hkey m
      obtain ⟨d', children', hins, ho'⟩ := ho.insertInternal hobj' m
      refine ⟨.dson d' children', ?_, ho'⟩
      simp only [DsonObj.emplace, hset, Option.bind_eq_bind, Option.bind_some, hins]
      rfl

/-- `emplace(obj)` on a container: the object keeps its key. -/
theorem Holds.emplacePtr {o obj : DsonObj} {k key : Int} {ts : Forest} {t : Tree} (ho : Holds e o k (.node ts))
    (hobj : Holds e obj key t) (m : Mem) :
    ∃ o', DsonObj.emplacePtr e obj o m = some (o', m) ∧ Holds e o' k (.node (KeyMap.insertOrAssign key t ts)) := by
  cases o with
  | string s => exact ho.elim
  | route r => exact ho.elim
  | dson d children =>
      obtain ⟨d', children', hins, ho'⟩ := ho.insertInternal hobj m
      refine ⟨.dson d' children', ?_, ho'⟩
      simp only [DsonObj.emplacePtr, hobj.key, Option.bind_eq_bind, Option.bind_some, hins]
      rfl

/-- A conversion to host order leaves the tree as it is. -/
theorem Holds.toHost {o : DsonObj} {k : Int} {t : Tree} (ho : Holds e o k t) (m : Mem) :
    ∃ o', o.toHost e m = some (o', m) ∧ Holds e o' k t := by
  cases o with
  | string s => exact ⟨_, rfl, ho⟩
  | route r => exact ⟨_, rfl, ho⟩
  | dson d children =>
      cases t with
      | leaf v =>
          rw [Holds] at ho
          obtain ⟨hstate, rfl, block, hown, hl⟩ := ho
          obtain ⟨h', b', hconv, hl', hlen⟩ := hl.convert false
          have horder := hown.toOrder (by simp [hstate]) e false m
          rw [hconv] at horder
          have hhost : d.toHost e m = some ({ d with headerBuf := h', buf := .own b' }, m) := horder
          refine ⟨_, by rw [DsonObj.toHost, hhost]; rfl, ?_⟩
          rw [Holds]
          exact ⟨hstate, rfl, b', hown.converted hlen _ rfl rfl rfl rfl, hl'⟩
      | node ts =>
          have hhost : d.toHost e m = some (d, m) := by
            rw [Holds] at ho
            obtain ⟨hstate, hnode, -⟩ := ho
            have htype : toHostOrder e (d.headerBuf.dataTypeOf e) = none := by
              rw [hnode.type]
              split_ifs <;> rfl
            rw [Dson.toHost, Dson.isHostOrder, hnode.header_eq, Dson.dataType, if_neg (by simp [hstate]),
              hnode.header_eq]
            simp only [Option.map_some, Option.bind_eq_bind, Option.bind_some, htype, Option.pure_def, ite_self]
          exact ⟨_, by rw [DsonObj.toHost, hhost]; rfl, ho⟩

/-- Replace a child of a container. -/
theorem Holds.replace {d : Dson} {children : ObjMap} {o : DsonObj} {k key : Int} {ts : Forest} {t : Tree}
    (ho : Holds e (.dson d children) k (.node ts)) (hts : ts ≠ []) (hchild : Holds e o key t) :
    Holds e (.dson d (KeyMap.insertOrAssign key o children)) k (.node (KeyMap.insertOrAssign key t ts)) := by
  rw [Holds] at ho ⊢
  obtain ⟨hstate, hnode, hsorted, hall⟩ := ho
  have hne := KeyMap.insertOrAssign_ne_nil key t ts
  refine ⟨hstate, ⟨hnode.kind, hnode.alloc, hnode.buf, hnode.mark, hnode.key, ?_⟩,
    KeyMap.sorted_insertOrAssign hsorted key o, hall.insert hchild⟩
  rw [hnode.type, if_neg (by simpa using hts), if_neg (by simpa using hne)]

/-- The child under a key, and the container after an operation on it. -/
theorem Holds.onChild {o : DsonObj} {k key : Int} {ts : Forest} {t : Tree} (ho : Holds e o k (.node ts))
    (ht : KeyMap.find key ts = some t) (m : Mem) : ∃ c, Holds e c key t ∧
      ∀ {α : Type} {f : DsonObj → Mem → Option (α × DsonObj × Mem)} {a : α} {c' : DsonObj}, f c m = some (a, c', m) →
        ∃ o', DsonObj.onChild key f o m = some (a, o', m) ∧
          ∀ t', Holds e c' key t' → Holds e o' k (.node (KeyMap.insertOrAssign key t' ts)) := by
  cases o with
  | string s => exact ho.elim
  | route r => exact ho.elim
  | dson d children =>
      have hts : ts ≠ [] := by
        rintro rfl
        cases ht
      have hparts := ho
      rw [Holds] at hparts
      obtain ⟨hstate, hnode, hsorted, hall⟩ := hparts
      rcases hall.find key with ⟨-, hnone⟩ | ⟨c, t₁, hfind, hfind', hchild⟩
      · rw [ht] at hnone
        cases hnone
      · rw [ht] at hfind'
        cases hfind'
        refine ⟨c, hchild, fun {α f a c'} hrun => ⟨.dson d (KeyMap.insertOrAssign key c' children), ?_,
          fun t' hc' => ho.replace hts hc'⟩⟩
        have hinner : d.inner m = m := by rw [Dson.inner, hnode.buf]
        have houter : d.outer m m = (d, m) := by rw [Dson.outer, hnode.buf]
        simp only [DsonObj.onChild, hfind, Option.bind_eq_bind, Option.bind_some, hinner, hrun, houter]
        rfl

/-- An operation on the child under a key. -/
theorem Turns.onChild {α : Type} {Q : α → Prop} {f : DsonObj → Mem → Option (α × DsonObj × Mem)} {key : Int}
    {t t' : Tree} (hf : Turns e Q f key t t') {k : Int} {ts : Forest} (ht : KeyMap.find key ts = some t) :
    Turns e Q (DsonObj.onChild key f) k (.node ts) (.node (KeyMap.insertOrAssign key t' ts)) := by
  intro o m ho
  obtain ⟨c, hc, honchild⟩ := ho.onChild ht m
  obtain ⟨a, c', hrun, hc'⟩ := hf m hc
  obtain ⟨o', hrun', ho'⟩ := honchild hrun
  exact ⟨a, o', hrun', fun ha => ho' t' (hc' ha)⟩

/-- An operation at the end of a path: on the way only the tree there changes. -/
theorem Turns.onPath {α : Type} {Q : α → Prop} {f : DsonObj → Mem → Option (α × DsonObj × Mem)}
    {g : Forest → Forest} (hf : ∀ k ts, Turns e Q f k (.node ts) (.node (g ts))) {path : List Int} {k : Int}
    {t t' : Tree} (ht : t.modify g path = some t') : Turns e Q (DsonObj.onPath f path) k t t' := by
  induction path generalizing k t t' with
  | nil =>
      cases t with
      | leaf v => cases ht
      | node ts =>
          cases ht
          exact hf k ts
  | cons key path ih =>
      cases t with
      | leaf v => cases ht
      | node ts =>
          simp only [Tree.modify, Option.bind_eq_bind, Option.bind_eq_some_iff, Option.pure_def,
            Option.some.injEq] at ht
          obtain ⟨t₁, hfind, t₂, hmod, rfl⟩ := ht
          exact Turns.onChild (ih hmod) hfind

mutual

/-- The children of every container an object holds are in order. -/
theorem Holds.ordered : ∀ {o : DsonObj} {k : Int} {t : Tree}, Holds e o k t → t.Ordered
  | _, _, .leaf _, _ => trivial
  | .dson _ _, _, .node ts, h => by
      rw [Holds] at h
      obtain ⟨-, -, hsorted, hall⟩ := h
      rw [KeyMap.Sorted, hall.keys] at hsorted
      rw [Tree.Ordered]
      exact ⟨hsorted, hall.ordered⟩
  | .string _, _, .node _, h => h.elim
  | .route _, _, .node _, h => h.elim

theorem HoldsAll.ordered : ∀ {children : ObjMap} {ts : Forest}, HoldsAll e children ts → Forest.Ordered ts
  | [], [], _ => trivial
  | (_, _) :: _, (_, _) :: _, h => by
      rw [HoldsAll] at h
      rw [Forest.Ordered]
      exact ⟨h.2.1.ordered, h.2.2.ordered⟩
  | [], _ :: _, h => h.elim
  | _ :: _, [], h => h.elim

end

/-- An operation at the end of a path that keeps the tree there. -/
theorem Turns.onPath_same {α : Type} {Q : α → Prop} {f : DsonObj → Mem → Option (α × DsonObj × Mem)}
    {sub : Tree} (hf : ∀ k, Turns e Q f k sub sub) {path : List Int} {k : Int} {t : Tree}
    (ht : t.at path = some sub) : Turns e Q (DsonObj.onPath f path) k t t := by
  induction path generalizing k t with
  | nil =>
      cases ht
      exact hf k
  | cons key path ih =>
      cases t with
      | leaf v => cases ht
      | node ts =>
          simp only [Tree.at, Option.bind_eq_bind, Option.bind_eq_some_iff] at ht
          obtain ⟨t₁, hfind, hsub⟩ := ht
          intro o m ho
          have hordered := ho.ordered
          rw [Tree.Ordered] at hordered
          obtain ⟨a, o', hrun, ho'⟩ := Turns.onChild (ih hsub) hfind m ho
          rw [KeyMap.insertOrAssign_find hfind hordered.1] at ho'
          exact ⟨a, o', hrun, ho'⟩

/-- `get` on a container. -/
theorem Holds.get_eq {d : Dson} {children : ObjMap} {k : Int} {ts : Forest} (ho : Holds e (.dson d children) k (.node ts))
    (key : Int) (m : Mem) : DsonObj.get e key (.dson d children) m = DsonObj.getInternal e key d children m := by
  rw [Holds] at ho
  obtain ⟨hstate, hnode, -⟩ := ho
  rw [DsonObj.get, if_neg (by simp [hnode.kind])]
  simp only [Option.bind_eq_bind, Option.bind_some]
  rw [if_neg (by simp [hstate])]
  simp only [hnode.kind]

theorem Holds.sorted {o : DsonObj} {k : Int} {ts : Forest} (ho : Holds e o k (.node ts)) : KeyMap.Sorted ts := by
  have hordered := ho.ordered
  rw [Tree.Ordered] at hordered
  exact hordered.1

/-- `get` under a key that the container has. -/
theorem Holds.get_child {o : DsonObj} {k key : Int} {ts : Forest} {t : Tree} (ho : Holds e o k (.node ts))
    (ht : KeyMap.find key ts = some t) (m : Mem) :
    ∃ o', DsonObj.get e key o m = some (.child key, o', m) ∧ Holds e o' k (.node ts) := by
  obtain ⟨c, hc, honchild⟩ := ho.onChild ht m
  obtain ⟨c', hrun, hc'⟩ := hc.toHost m
  have hconv : DsonObj.fetch e key c m = some (Found.child key, c', m) := by
    rw [DsonObj.fetch, hrun]
    rfl
  obtain ⟨o', hrun', ho'⟩ := honchild hconv
  have hsame := ho' t hc'
  rw [KeyMap.insertOrAssign_find ht ho.sorted] at hsame
  refine ⟨o', ?_, hsame⟩
  cases o with
  | string s => exact ho.elim
  | route r => exact ho.elim
  | dson d children =>
      have hparts := ho
      rw [Holds] at hparts
      obtain ⟨-, -, -, hall⟩ := hparts
      rcases hall.find key with ⟨-, hnone⟩ | ⟨c₁, t₁, hfind, -, -⟩
      · rw [ht] at hnone
        cases hnone
      · rw [ho.get_eq, DsonObj.getInternal, hfind]
        exact hrun'

/-- `get` under a key that the container does not have. -/
theorem Holds.get_null {o : DsonObj} {k key : Int} {ts : Forest} (ho : Holds e o k (.node ts))
    (ht : KeyMap.find key ts = none) (m : Mem) : DsonObj.get e key o m = some (.null, o, m) := by
  cases o with
  | string s => exact ho.elim
  | route r => exact ho.elim
  | dson d children =>
      have hparts := ho
      rw [Holds] at hparts
      obtain ⟨-, -, -, hall⟩ := hparts
      rcases hall.find key with ⟨hnone, -⟩ | ⟨c, t, -, hfind, -⟩
      · rw [ho.get_eq, DsonObj.getInternal, hnone]
      · rw [ht] at hfind
        cases hfind

theorem Turns.get (key k : Int) (ts : Forest) :
    Turns e (fun _ => True) (DsonObj.get e key) k (.node ts) (.node ts) := by
  intro o m ho
  cases ht : KeyMap.find key ts with
  | none => exact ⟨.null, o, ho.get_null ht m, fun _ => ho⟩
  | some t =>
      obtain ⟨o', hrun, ho'⟩ := ho.get_child ht m
      exact ⟨.child key, o', hrun, fun _ => ho'⟩

theorem HoldsAll.childrenToHost (m : Mem) : ∀ {children : ObjMap} {ts : Forest}, HoldsAll e children ts →
    ∃ children', DsonObj.childrenToHost e children m = some (children', m) ∧ HoldsAll e children' ts
  | [], [], h => ⟨[], rfl, h⟩
  | (k, o) :: rest, (k', t) :: ts, h => by
      rw [HoldsAll] at h
      obtain ⟨rfl, ho, hrest⟩ := h
      obtain ⟨o', hrun, ho'⟩ := ho.toHost m
      obtain ⟨rest', hrun', hrest'⟩ := hrest.childrenToHost m
      refine ⟨(k, o') :: rest', ?_, ?_⟩
      · simp only [DsonObj.childrenToHost, hrun, hrun', Option.bind_eq_bind, Option.bind_some]
        rfl
      · rw [HoldsAll]
        exact ⟨rfl, ho', hrest'⟩
  | [], _ :: _, h => h.elim
  | _ :: _, [], h => h.elim

/-- `map` on a container. -/
theorem Holds.map {o : DsonObj} {k : Int} {ts : Forest} (ho : Holds e o k (.node ts)) (m : Mem) :
    ∃ o', DsonObj.map e o m = some (o', m) ∧ Holds e o' k (.node ts) := by
  cases o with
  | string s => exact ho.elim
  | route r => exact ho.elim
  | dson d children =>
      rw [Holds] at ho
      obtain ⟨hstate, hnode, hsorted, hall⟩ := ho
      obtain ⟨children', hrun, hall'⟩ := hall.childrenToHost m
      have hopen : d.openAsContainer e children m = some (d, children, m) := by
        unfold Dson.openAsContainer
        rw [hnode.kind]
      have hinner : d.inner m = m := by rw [Dson.inner, hnode.buf]
      have houter : d.outer m m = (d, m) := by rw [Dson.outer, hnode.buf]
      refine ⟨.dson d children', ?_, ?_⟩
      · rw [DsonObj.map, if_neg (by simp [hstate]), hopen]
        simp only [Option.bind_eq_bind, Option.bind_some, hinner, hrun, houter]
        rfl
      · rw [Holds]
        refine ⟨hstate, hnode, ?_, hall'⟩
        rw [KeyMap.Sorted, hall'.keys, ← hall.keys]
        exact hsorted

end

end LeanDson
