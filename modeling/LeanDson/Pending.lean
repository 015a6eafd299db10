import LeanDson.Building

/-! Objects in the middle of a copy. `pending` is what an object has not handed over yet, at rest the
whole encoding; `Emittable` says that an object holds a tree and that its state, its offset and its
iterator are those of a copy, down to the children. -/

namespace LeanDson

/-! ### Headers and records that are in order -/

theorem Header.toOrder_toOrder {e : Endian} {h : Header} (hv : h.ValidMark e) (network : Bool) :
    (h.toOrder e network).toOrder e network = h.toOrder e network :=
  Header.toOrder_of_inOrder (Header.inOrder_toOrder hv network)

/-- A header that has been given its size and its order keeps both. -/
theorem Header.prepared_again {e : Endian} {h : Header} (hv : h.ValidMark e) (s : Int)
    (network : Bool) :
    (((h.setDataSize e s).toOrder e network).setDataSize e s).toOrder e network =
      (h.setDataSize e s).toOrder e network := by
  have hv' : (h.setDataSize e s).ValidMark e := (Header.validMark_congr rfl).mp hv
  have hsame : (h.setDataSize e s).setDataSize e s = h.setDataSize e s := rfl
  rw [Header.setDataSize_toOrder hv' s, hsame, Header.toOrder_toOrder hv']

/-- A record that has been converted is left as it is. -/
theorem convertRecord_again {e : Endian} {network : Bool} {h h' : Header} {b b' : Bytes} (hv : h.ValidMark e)
    (hconv : convertRecord e network h b = some (h', b')) : convertRecord e network h' b' = some (h', b') := by
  by_cases hin : h.inOrder e network
  · rw [convertRecord_inOrder hin] at hconv
    cases hconv
    exact convertRecord_inOrder hin b
  · cases hc : converterTo e network (h.dataTypeOf e) with
    | none =>
        rw [convertRecord_none hc] at hconv
        cases hconv
        exact convertRecord_none hc b
    | some c =>
        rw [convertRecord_some hin hc] at hconv
        obtain ⟨b'', -, heq⟩ := Option.map_eq_some_iff.mp hconv
        cases heq
        exact convertRecord_inOrder (Header.inOrder_toOrder hv network) _

theorem DsonRouteObj.toOrder_toOrder {e : Endian} {r : DsonRouteObj} (hv : r.header.ValidMark e) (network : Bool) :
    (r.toOrder e network).toOrder e network = r.toOrder e network := by
  by_cases hin : r.header.inOrder e network
  · have hsame : r.toOrder e network = r := if_pos hin
    rw [hsame, hsame]
  · have hswap : r.toOrder e network =
        { r with header := r.header.swapWords e, address := r.address.swapWords e } := if_neg hin
    have horder : r.header.toOrder e network = r.header.swapWords e := by
      cases network <;> exact if_neg hin
    have hin' := Header.inOrder_toOrder hv network
    rw [horder] at hin'
    rw [hswap]
    exact if_pos hin'

/-! ### What is still to come -/

mutual

/-- The bytes that an object has still to hand over, when it is copied from where it stands. -/
def DsonObj.pending (e : Endian) (network : Bool) : DsonObj → Bytes
  | .dson d children =>
      match d.dsonKind, d.state, d.buf with
      | .dsonContainer, .copyingHeader, _ =>
          d.headerBuf.bytes.drop d.offset ++ DsonObj.pendings e network children
      | .dsonContainer, .copyingData, _ => DsonObj.pendingsFrom e network d.copyIter children
      | .dsonContainer, _, _ =>
          ((d.headerBuf.setDataSize e (DsonObj.wires e network children).length).toOrder e network).bytes ++
            DsonObj.pendings e network children
      | _, .copyingHeader, .own block => d.headerBuf.bytes.drop d.offset ++ block
      | _, .copyingData, .own block => block.drop d.offset
      | _, _, _ => (DsonObj.dson d children).wire e network
  | .string s =>
      match s.state with
      | .copyingHeader => s.header.bytes.drop s.offset ++ s.object
      | .copyingData => s.object.drop s.offset
      | _ => (DsonObj.string s).wire e network
  | .route r =>
      match r.state with
      | .copyingHeader => r.bytes.drop r.offset
      | _ => (DsonObj.route r).wire e network

def DsonObj.pendings (e : Endian) (network : Bool) : ObjMap → Bytes
  | [] => []
  | (_, o) :: rest => o.pending e network ++ DsonObj.pendings e network rest

/-- The children from the node of the iterator on. -/
def DsonObj.pendingsFrom (e : Endian) (network : Bool) : CopyIter → ObjMap → Bytes
  | .node key, (k, o) :: rest =>
      if k < key then DsonObj.pendingsFrom e network (.node key) rest
      else o.pending e network ++ DsonObj.pendings e network rest
  | _, _ => []

end

theorem DsonObj.pendingsFrom_begin (e : Endian) (network : Bool) (children : ObjMap) :
    DsonObj.pendingsFrom e network (Dson.mapBegin children) children = DsonObj.pendings e network children := by
  cases children with
  | nil => rfl
  | cons p rest =>
      obtain ⟨k, o⟩ := p
      rw [Dson.mapBegin, DsonObj.pendingsFrom, if_neg (lt_irrefl k), DsonObj.pendings]

mutual

/-- An object that holds a tree under a key, at rest or in the middle of a copy. -/
def Emittable (e : Endian) : DsonObj → Int → Tree → Prop
  | .dson d children, k, .leaf v =>
      children = [] ∧ ∃ block, d.Owns block ∧ LeafRecord e k v d.headerBuf block ∧
        (d.state = .ready ∨ d.state = .copyingHeader ∧ d.offset < headerSize ∨
          d.state = .copyingData ∧ d.offset < block.length)
  | .dson d children, k, .node ts =>
      d.IsNode e k ts ∧ KeyMap.Sorted children ∧
        (d.state = .ready ∧ EmittableAll e children ts ∨
          d.state = .copyingHeader ∧ d.offset < headerSize ∧ d.headerBuf.dataSizeOf e = Forest.size ts ∧
            EmittableAll e children ts ∨
          d.state = .copyingData ∧ ∃ key, d.copyIter = .node key ∧ key ∈ KeyMap.keys children ∧
            EmittableFrom e key children ts)
  | .string s, k, .leaf v =>
      s.object ≠ [] ∧ LeafRecord e k v s.header s.object ∧ v.type = TypesMap.string ∧
        (s.state = .ready ∨ s.state = .copyingHeader ∧ s.offset < headerSize ∨
          s.state = .copyingData ∧ s.offset < s.object.length)
  | .route r, k, .leaf v =>
      LeafRecord e k v r.header r.address.bytes ∧ v.type = TypesMap.vectorUint32 ∧
        (r.state = .ready ∨ r.state = .copyingHeader ∧ r.offset < headerSize + addressSize)
  | .string _, _, .node _ => False
  | .route _, _, .node _ => False

def EmittableAll (e : Endian) : ObjMap → Forest → Prop
  | [], [] => True
  | (k, o) :: rest, (k', t) :: ts => k = k' ∧ Emittable e o k t ∧ EmittableAll e rest ts
  | [], _ :: _ => False
  | _ :: _, [] => False

/-- Children of which those in front of `key` have been handed over. -/
def EmittableFrom (e : Endian) (key : Int) : ObjMap → Forest → Prop
  | (k, o) :: rest, (k', t) :: ts =>
      k = k' ∧ ((k < key ∧ Holds e o k t ∧ EmittableFrom e key rest ts) ∨
        (k = key ∧ Emittable e o k t ∧ EmittableAll e rest ts))
  | [], [] => False
  | [], _ :: _ => False
  | _ :: _, [] => False

end

section

variable {e : Endian} {network : Bool}

mutual

theorem Holds.emittable : ∀ {o : DsonObj} {k : Int} {t : Tree}, Holds e o k t → Emittable e o k t
  | .dson _ _, _, .leaf _, h => by
      rw [Holds] at h
      obtain ⟨hstate, hnil, block, hown, hl⟩ := h
      rw [Emittable]
      exact ⟨hnil, block, hown, hl, Or.inl hstate⟩
  | .dson _ _, _, .node _, h => by
      rw [Holds] at h
      obtain ⟨hstate, hnode, hsorted, hall⟩ := h
      rw [Emittable]
      exact ⟨hnode, hsorted, Or.inl ⟨hstate, hall.emittableAll⟩⟩
  | .string _, _, .leaf _, h => by
      rw [Holds] at h
      obtain ⟨hstate, hne, hl, ht⟩ := h
      rw [Emittable]
      exact ⟨hne, hl, ht, Or.inl hstate⟩
  | .route _, _, .leaf _, h => by
      rw [Holds] at h
      obtain ⟨hstate, hl, ht⟩ := h
      rw [Emittable]
      exact ⟨hl, ht, Or.inl hstate⟩
  | .string _, _, .node _, h => h.elim
  | .route _, _, .node _, h => h.elim

theorem HoldsAll.emittableAll : ∀ {children : ObjMap} {ts : Forest}, HoldsAll e children ts →
    EmittableAll e children ts
  | [], [], _ => by rw [EmittableAll]; trivial
  | (_, _) :: _, (_, _) :: _, h => by
      rw [HoldsAll] at h
      rw [EmittableAll]
      exact ⟨h.1, h.2.1.emittable, h.2.2.emittableAll⟩
  | [], _ :: _, h => h.elim
  | _ :: _, [], h => h.elim

end

theorem EmittableFrom.all {key : Int} : ∀ {children : ObjMap} {ts : Forest}, EmittableFrom e key children ts →
    EmittableAll e children ts
  | (_, _) :: _, (_, _) :: _, h => by
      rw [EmittableFrom] at h
      rw [EmittableAll]
      obtain ⟨hkey, ⟨-, ho, hrest⟩ | ⟨-, ho, hrest⟩⟩ := h
      · exact ⟨hkey, ho.emittable, hrest.all⟩
      · exact ⟨hkey, ho, hrest⟩
  | [], [], h => h.elim
  | [], _ :: _, h => h.elim
  | _ :: _, [], h => h.elim

/-! ### At rest -/

theorem Holds.state {o : DsonObj} {k : Int} {t : Tree} (h : Holds e o k t) : o.state = .ready := by
  cases o <;> cases t <;> simp only [Holds] at h
  · exact h.1
  · exact h.1
  · exact h.1
  · exact h.1

mutual

theorem Holds.pending (network : Bool) : ∀ {o : DsonObj} {k : Int} {t : Tree}, Holds e o k t →
    o.pending e network = o.wire e network
  | .dson d children, _, .leaf _, h => by
      rw [Holds] at h
      obtain ⟨hstate, -, block, hown, -⟩ := h
      simp only [DsonObj.pending, hstate, hown.kind]
  | .dson d children, _, .node _, h => by
      rw [Holds] at h
      obtain ⟨hstate, hnode, -, hall⟩ := h
      simp only [DsonObj.pending, hstate, hnode.kind, DsonObj.wire, hall.pendings network]
  | .string _, _, .leaf _, h => by
      rw [Holds] at h
      simp only [DsonObj.pending, h.1]
  | .route _, _, .leaf _, h => by
      rw [Holds] at h
      simp only [DsonObj.pending, h.1]
  | .string _, _, .node _, h => h.elim
  | .route _, _, .node _, h => h.elim

theorem HoldsAll.pendings (network : Bool) : ∀ {children : ObjMap} {ts : Forest}, HoldsAll e children ts →
    DsonObj.pendings e network children = DsonObj.wires e network children
  | [], [], _ => rfl
  | (_, _) :: _, (_, _) :: _, h => by
      rw [HoldsAll] at h
      rw [DsonObj.pendings, DsonObj.wires, h.2.1.pending network, h.2.2.pendings network]
  | [], _ :: _, h => h.elim
  | _ :: _, [], h => h.elim

end

theorem Holds.wire_ne_nil {o : DsonObj} {k : Int} {t : Tree} (h : Holds e o k t) (network : Bool) :
    o.wire e network ≠ [] := by
  intro hnil
  have hlen := h.wire_length network
  have hpos := t.headerSize_le_size
  rw [hnil, List.length_nil, ← hlen, headerSize] at *
  omega

theorem drop_ne_nil {bs : Bytes} {off : Nat} (h : off < bs.length) : bs.drop off ≠ [] := by
  rw [ne_eq, List.drop_eq_nil_iff]
  omega

/-- Something is still to come of every object in the middle of a copy. -/
theorem bytes_append_ne_nil (h : Header) {off : Nat} (hoff : off < headerSize) (bs : Bytes) :
    h.bytes.drop off ++ bs ≠ [] := by
  have hne : h.bytes.drop off ≠ [] := drop_ne_nil hoff
  exact fun hnil => hne (List.append_eq_nil_iff.mp hnil).1

mutual

theorem Emittable.pending_ne_nil (network : Bool) : ∀ {o : DsonObj} {k : Int} {t : Tree},
    Emittable e o k t → o.pending e network ≠ []
  | .dson d children, k, .leaf v, h => by
      have hcopy := h
      rw [Emittable] at hcopy
      obtain ⟨hnil, block, hown, hl, hstate | ⟨hstate, hoff⟩ | ⟨hstate, hoff⟩⟩ := hcopy
      · have hrest : Holds e (.dson d children) k (.leaf v) := by
          rw [Holds]
          exact ⟨hstate, hnil, block, hown, hl⟩
        rw [hrest.pending]
        exact hrest.wire_ne_nil network
      · simp only [DsonObj.pending, hstate, hown.kind, hown.buf]
        exact bytes_append_ne_nil _ hoff _
      · simp only [DsonObj.pending, hstate, hown.kind, hown.buf]
        exact drop_ne_nil hoff
  | .dson d children, k, .node ts, h => by
      rw [Emittable] at h
      obtain ⟨hnode, -, ⟨hstate, -⟩ | ⟨hstate, hoff, -⟩ | ⟨hstate, key, hit, -, hfrom⟩⟩ := h
      · simp only [DsonObj.pending, hstate, hnode.kind]
        exact bytes_append_ne_nil (Header.toOrder e network _) (Nat.zero_lt_succ _) _
      · simp only [DsonObj.pending, hstate, hnode.kind]
        exact bytes_append_ne_nil _ hoff _
      · simp only [DsonObj.pending, hstate, hnode.kind, hit]
        exact hfrom.pendingsFrom_ne_nil network
  | .string s, k, .leaf v, h => by
      have hcopy := h
      rw [Emittable] at hcopy
      obtain ⟨hne, hl, ht, hstate | ⟨hstate, hoff⟩ | ⟨hstate, hoff⟩⟩ := hcopy
      · simp only [DsonObj.pending, hstate, DsonObj.wire]
        exact bytes_append_ne_nil (Header.toOrder e network _) (Nat.zero_lt_succ _) _
      · simp only [DsonObj.pending, hstate]
        exact bytes_append_ne_nil _ hoff _
      · simp only [DsonObj.pending, hstate]
        exact drop_ne_nil hoff
  | .route r, k, .leaf v, h => by
      rw [Emittable] at h
      obtain ⟨-, -, hstate | ⟨hstate, hoff⟩⟩ := h
      · simp only [DsonObj.pending, hstate, DsonObj.wire]
        exact bytes_append_ne_nil _ (Nat.zero_lt_succ _) _
      · simp only [DsonObj.pending, hstate]
        exact drop_ne_nil hoff
  | .string _, _, .node _, h => h.elim
  | .route _, _, .node _, h => h.elim

theorem EmittableFrom.pendingsFrom_ne_nil (network : Bool) : ∀ {key : Int} {children : ObjMap} {ts : Forest},
    EmittableFrom e key children ts → DsonObj.pendingsFrom e network (.node key) children ≠ []
  | key, (k, o) :: rest, (k', t) :: ts, h => by
      rw [EmittableFrom] at h
      obtain ⟨-, ⟨hlt, -, hfrom⟩ | ⟨heq, ho, -⟩⟩ := h
      · rw [DsonObj.pendingsFrom, if_pos hlt]
        exact hfrom.pendingsFrom_ne_nil network
      · rw [DsonObj.pendingsFrom, if_neg (by omega)]
        exact fun hnil => ho.pending_ne_nil network (List.append_eq_nil_iff.mp hnil).1
  | _, [], [], h => h.elim
  | _, [], _ :: _, h => h.elim
  | _, _ :: _, [], h => h.elim

end

/-! ### The object a copy began with -/

mutual

/-- The object with every copy in it forgotten. -/
def DsonObj.rest : DsonObj → DsonObj
  | .dson d children => .dson { d with state := .ready } (DsonObj.rests children)
  | .string s => .string { s with state := .ready }
  | .route r => .route { r with state := .ready }

def DsonObj.rests : ObjMap → ObjMap
  | [] => []
  | (k, o) :: more => (k, o.rest) :: DsonObj.rests more

end

theorem DsonObj.keys_rests : ∀ children : ObjMap, KeyMap.keys (DsonObj.rests children) = KeyMap.keys children
  | [] => rfl
  | (k, o) :: more => by rw [DsonObj.rests, KeyMap.keys_cons, KeyMap.keys_cons, DsonObj.keys_rests more]

mutual

theorem DsonObj.wire_rest : ∀ o : DsonObj, o.rest.wire e network = o.wire e network
  | .dson d children => by
      simp only [DsonObj.rest, DsonObj.wire, DsonObj.wires_rests children]
  | .string s => rfl
  | .route r => by
      simp only [DsonObj.rest, DsonObj.wire, DsonRouteObj.toOrder]
      split_ifs <;> rfl

theorem DsonObj.wires_rests : ∀ children : ObjMap,
    DsonObj.wires e network (DsonObj.rests children) = DsonObj.wires e network children
  | [] => rfl
  | (k, o) :: more => by
      rw [DsonObj.rests, DsonObj.wires, DsonObj.wires, DsonObj.wire_rest o, DsonObj.wires_rests more]

end

mutual

theorem DsonObj.dataSize_rest (m : Mem) : ∀ o : DsonObj, o.rest.dataSize e m = o.dataSize e m
  | .dson d children => by
      have hinner : Dson.inner { d with state := .ready } m = d.inner m := rfl
      have hheader : Dson.header { d with state := .ready } m = d.header m := rfl
      simp only [DsonObj.rest, DsonObj.dataSize, hinner, hheader, DsonObj.dataSizes_rests (d.inner m) children]
  | .string s => rfl
  | .route r => rfl

theorem DsonObj.dataSizes_rests (m : Mem) : ∀ children : ObjMap,
    DsonObj.dataSizes e m (DsonObj.rests children) = DsonObj.dataSizes e m children
  | [] => rfl
  | (k, o) :: more => by
      rw [DsonObj.rests, DsonObj.dataSizes, DsonObj.dataSizes, DsonObj.dataSize_rest m o,
        DsonObj.dataSizes_rests m more]

end

mutual

theorem Emittable.rest : ∀ {o : DsonObj} {k : Int} {t : Tree}, Emittable e o k t → Holds e o.rest k t
  | .dson d children, k, .leaf v, h => by
      rw [Emittable] at h
      obtain ⟨rfl, block, hown, hl, -⟩ := h
      rw [DsonObj.rest, Holds]
      exact ⟨rfl, rfl, block, ⟨hown.kind, hown.alloc, hown.buf, hown.size, hown.nonempty⟩, hl⟩
  | .dson d children, k, .node ts, h => by
      rw [Emittable] at h
      obtain ⟨hnode, hsorted, hcases⟩ := h
      have hall : HoldsAll e (DsonObj.rests children) ts := by
        rcases hcases with ⟨-, hall⟩ | ⟨-, -, -, hall⟩ | ⟨-, key, -, -, hfrom⟩
        · exact EmittableAll.rests hall
        · exact EmittableAll.rests hall
        · exact EmittableFrom.rests hfrom
      rw [DsonObj.rest, Holds]
      refine ⟨rfl, hnode.congr rfl rfl rfl rfl, ?_, hall⟩
      rw [KeyMap.Sorted, DsonObj.keys_rests]
      exact hsorted
  | .string s, k, .leaf v, h => by
      rw [Emittable] at h
      rw [DsonObj.rest, Holds]
      exact ⟨rfl, h.1, h.2.1, h.2.2.1⟩
  | .route r, k, .leaf v, h => by
      rw [Emittable] at h
      rw [DsonObj.rest, Holds]
      exact ⟨rfl, h.1, h.2.1⟩
  | .string _, _, .node _, h => h.elim
  | .route _, _, .node _, h => h.elim

theorem EmittableAll.rests : ∀ {children : ObjMap} {ts : Forest}, EmittableAll e children ts →
    HoldsAll e (DsonObj.rests children) ts
  | [], [], _ => trivial
  | (k, o) :: more, (k', t) :: ts, h => by
      rw [EmittableAll] at h
      rw [DsonObj.rests, HoldsAll]
      exact ⟨h.1, Emittable.rest h.2.1, EmittableAll.rests h.2.2⟩
  | [], _ :: _, h => h.elim
  | _ :: _, [], h => h.elim

theorem EmittableFrom.rests : ∀ {key : Int} {children : ObjMap} {ts : Forest}, EmittableFrom e key children ts →
    HoldsAll e (DsonObj.rests children) ts
  | key, (k, o) :: more, (k', t) :: ts, h => by
      rw [EmittableFrom] at h
      rw [DsonObj.rests, HoldsAll]
      obtain ⟨hkey, ⟨-, ho, hfrom⟩ | ⟨-, ho, hall⟩⟩ := h
      · exact ⟨hkey, Emittable.rest ho.emittable, EmittableFrom.rests hfrom⟩
      · exact ⟨hkey, Emittable.rest ho, EmittableAll.rests hall⟩
  | _, [], [], h => h.elim
  | _, [], _ :: _, h => h.elim
  | _, _ :: _, [], h => h.elim

end

theorem Emittable.wire_length (network : Bool) {o : DsonObj} {k : Int} {t : Tree} (h : Emittable e o k t) :
    (o.wire e network).length = t.size := by
  rw [← DsonObj.wire_rest, (Emittable.rest h).wire_length]

theorem EmittableAll.wires_length (network : Bool) {children : ObjMap} {ts : Forest}
    (h : EmittableAll e children ts) : (DsonObj.wires e network children).length = Forest.size ts := by
  rw [← DsonObj.wires_rests, (EmittableAll.rests h).wires_length]

theorem EmittableAll.dataSizes (m : Mem) {children : ObjMap} {ts : Forest} (h : EmittableAll e children ts)
    (hlt : Forest.size ts < 2 ^ 31) : DsonObj.dataSizes e m children = some (Forest.size ts : Int) := by
  rw [← DsonObj.dataSizes_rests, (EmittableAll.rests h).dataSizes m hlt]

end

/-! ### Positions

An object that has been copied from rest in one order has its encoding in two parts, what it has handed
over and what is pending. After a failed write it goes on from an earlier position, or from the same. -/

/-- Children none of which is in the middle of a copy. -/
def RestAll (e : Endian) (children : ObjMap) : Prop := ∀ p ∈ children, ∃ k t, Holds e p.2 k t

mutual

/-- The copy in progress, if any, began at rest and is in this order, down to the children. -/
def DsonObj.Straight (e : Endian) (network : Bool) : DsonObj → Prop
  | .dson d children =>
      (DsonObj.dson d children).pending e network <:+ (DsonObj.dson d children).wire e network ∧
        (d.dsonKind = .dsonContainer →
          (d.state = .copyingData → DsonObj.StraightFrom e network d.copyIter children) ∧
            (d.state ≠ .copyingData → RestAll e children))
  | .string s => (DsonObj.string s).pending e network <:+ (DsonObj.string s).wire e network
  | .route r => (DsonObj.route r).pending e network <:+ (DsonObj.route r).wire e network

def DsonObj.StraightFrom (e : Endian) (network : Bool) : CopyIter → ObjMap → Prop
  | .node key, (k, o) :: rest =>
      if k < key then DsonObj.StraightFrom e network (.node key) rest
      else o.Straight e network ∧ RestAll e rest
  | _, _ => True

end

mutual

/-- Where an object goes on when a write has failed at a position of its encoding: a `Dson` that writes
its own header or payload starts over, the custom objects keep their offset, and a container that is at a
child stays there. -/
def DsonObj.resumeAt (e : Endian) (network : Bool) : DsonObj → Nat → Nat
  | .dson d children, p =>
      match d.dsonKind with
      | .dsonContainer =>
          if p < headerSize then 0 else headerSize + DsonObj.resumesAt e network children (p - headerSize)
      | _ => 0
  | .string _, p => p
  | .route _, p => p

def DsonObj.resumesAt (e : Endian) (network : Bool) : ObjMap → Nat → Nat
  | [], _ => 0
  | (_, o) :: rest, p =>
      if p < (o.wire e network).length then o.resumeAt e network p
      else (o.wire e network).length + DsonObj.resumesAt e network rest (p - (o.wire e network).length)

end

/-- Two objects that are emitted alike. -/
structure DsonObj.Alike (e : Endian) (network : Bool) (o o' : DsonObj) : Prop where
  wire : o'.wire e network = o.wire e network
  resume : o'.resumeAt e network = o.resumeAt e network

structure DsonObj.AlikeAll (e : Endian) (network : Bool) (children children' : ObjMap) : Prop where
  keys : KeyMap.keys children' = KeyMap.keys children
  wires : DsonObj.wires e network children' = DsonObj.wires e network children
  resumes : DsonObj.resumesAt e network children' = DsonObj.resumesAt e network children

section

variable {e : Endian} {network : Bool}

theorem DsonObj.Alike.trans {o o' o'' : DsonObj} (h : o.Alike e network o') (h' : o'.Alike e network o'') :
    o.Alike e network o'' := ⟨h'.wire.trans h.wire, h'.resume.trans h.resume⟩

theorem DsonObj.AlikeAll.refl (children : ObjMap) : DsonObj.AlikeAll e network children children :=
  ⟨rfl, rfl, rfl⟩

theorem DsonObj.AlikeAll.cons {o o' : DsonObj} {children children' : ObjMap} (h : o.Alike e network o')
    (hall : DsonObj.AlikeAll e network children children') (k : Int) :
    DsonObj.AlikeAll e network ((k, o) :: children) ((k, o') :: children') where
  keys := by rw [KeyMap.keys_cons, KeyMap.keys_cons, hall.keys]
  wires := by rw [DsonObj.wires, DsonObj.wires, h.wire, hall.wires]
  resumes := by
    funext p
    rw [DsonObj.resumesAt, DsonObj.resumesAt, h.wire, h.resume, hall.resumes]

/-- A container whose children have been handed over in part. -/
theorem DsonObj.AlikeAll.node {d d' : Dson} {children children' : ObjMap}
    (hall : DsonObj.AlikeAll e network children children') (hkind : d.dsonKind = .dsonContainer)
    (hkind' : d'.dsonKind = .dsonContainer)
    (hh : (d'.headerBuf.setDataSize e (DsonObj.wires e network children).length).toOrder e network =
      (d.headerBuf.setDataSize e (DsonObj.wires e network children).length).toOrder e network) :
    (DsonObj.dson d children).Alike e network (.dson d' children') where
  wire := by simp only [DsonObj.wire, hkind, hkind', hall.wires, hh]
  resume := by
    funext p
    simp only [DsonObj.resumeAt, hkind, hkind', hall.resumes]

mutual

theorem DsonObj.resumeAt_le (e : Endian) (network : Bool) : ∀ (o : DsonObj) (p : Nat), o.resumeAt e network p ≤ p
  | .dson d children, p => by
      rw [DsonObj.resumeAt]
      split
      · split_ifs with hp
        · exact Nat.zero_le p
        · have hle := DsonObj.resumesAt_le e network children (p - headerSize)
          omega
      · exact Nat.zero_le p
  | .string _, _ => le_rfl
  | .route _, _ => le_rfl

theorem DsonObj.resumesAt_le (e : Endian) (network : Bool) : ∀ (children : ObjMap) (p : Nat),
    DsonObj.resumesAt e network children p ≤ p
  | [], p => Nat.zero_le p
  | (_, o) :: rest, p => by
      rw [DsonObj.resumesAt]
      split_ifs with hp
      · exact DsonObj.resumeAt_le e network o p
      · have hle := DsonObj.resumesAt_le e network rest (p - (o.wire e network).length)
        omega

end

theorem RestAll.pendings : ∀ {children : ObjMap}, RestAll e children →
    DsonObj.pendings e network children = DsonObj.wires e network children
  | [], _ => rfl
  | (k, o) :: rest, h => by
      obtain ⟨k', t, ho⟩ := h (k, o) List.mem_cons_self
      have hrest : RestAll e rest := fun p hp => h p (List.mem_cons_of_mem _ hp)
      rw [DsonObj.pendings, DsonObj.wires, ho.pending, hrest.pendings]

theorem HoldsAll.restAll : ∀ {children : ObjMap} {ts : Forest}, HoldsAll e children ts → RestAll e children
  | [], [], _ => fun p hp => by cases hp
  | (k, o) :: rest, (k', t) :: ts, h => by
      rw [HoldsAll] at h
      intro p hp
      rcases List.mem_cons.mp hp with rfl | hp
      · exact ⟨k, t, h.2.1⟩
      · exact h.2.2.restAll p hp
  | [], _ :: _, h => h.elim
  | _ :: _, [], h => h.elim

theorem Holds.straight {o : DsonObj} {k : Int} {t : Tree} (h : Holds e o k t) (network : Bool) :
    o.Straight e network := by
  have hsame : o.pending e network <:+ o.wire e network := by
    simp only [h.pending, List.suffix_rfl]
  cases o with
  | string s => exact hsame
  | route r => exact hsame
  | dson d children =>
      have hstate := h.state
      rw [DsonObj.Straight]
      refine ⟨hsame, fun _ => ⟨fun hdata => ?_, fun _ => ?_⟩⟩
      · rw [DsonObj.state, hdata] at hstate
        cases hstate
      · cases t with
        | leaf v =>
            rw [Holds] at h
            rw [h.2.1]
            intro p hp
            cases hp
        | node ts =>
            rw [Holds] at h
            exact h.2.2.2.restAll

theorem DsonObj.Straight.suffix {o : DsonObj} (h : o.Straight e network) :
    o.pending e network <:+ o.wire e network := by
  cases o with
  | dson d children =>
      rw [DsonObj.Straight] at h
      exact h.1
  | string s => exact h
  | route r => exact h

theorem DsonObj.StraightFrom.suffix : ∀ {it : CopyIter} {children : ObjMap},
    DsonObj.StraightFrom e network it children →
      DsonObj.pendingsFrom e network it children <:+ DsonObj.wires e network children
  | .node key, (k, o) :: rest, h => by
      rw [DsonObj.StraightFrom] at h
      rw [DsonObj.pendingsFrom, DsonObj.wires]
      split_ifs at h ⊢ with hlt
      · exact (DsonObj.StraightFrom.suffix h).trans (List.suffix_append _ _)
      · obtain ⟨front, hfront⟩ := h.1.suffix
        rw [h.2.pendings]
        exact ⟨front, by rw [← List.append_assoc, hfront]⟩
  | .node _, [], _ => List.nil_suffix
  | .unset, _, _ => by simp [DsonObj.pendingsFrom]
  | .finished, _, _ => by simp [DsonObj.pendingsFrom]

theorem RestAll.straightFrom {children : ObjMap} (h : RestAll e children) (network : Bool) :
    DsonObj.StraightFrom e network (Dson.mapBegin children) children := by
  cases children with
  | nil =>
      rw [Dson.mapBegin, DsonObj.StraightFrom]
      · trivial
      · rintro _ _ _ _ - hnil
        cases hnil
  | cons p rest =>
      obtain ⟨k, o⟩ := p
      obtain ⟨k', t, ho⟩ := h (k, o) List.mem_cons_self
      rw [Dson.mapBegin, DsonObj.StraightFrom, if_neg (lt_irrefl k)]
      exact ⟨ho.straight network, fun p hp => h p (List.mem_cons_of_mem _ hp)⟩

end

end LeanDson
