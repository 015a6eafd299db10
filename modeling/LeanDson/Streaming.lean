import LeanDson.Emission

/-! The stream emitter appends the encoding in one call, and the object still holds its tree. -/

namespace LeanDson

theorem DsonRouteObj.toOrder_state {e : Endian} {network : Bool} (o : DsonRouteObj) :
    (o.toOrder e network).state = o.state := by
  unfold DsonRouteObj.toOrder
  split_ifs <;> rfl

section

variable {e : Endian} {network : Bool}

/-- The stream emitter appends the encoding, and the object still holds its tree. -/
def Streams (e : Endian) (network : Bool) (o : DsonObj) (k : Int) (t : Tree) (m : Mem)
    (out : Option (DsonObj × Mem × Bytes)) : Prop :=
  ∃ o', out = some (o', m, o.wire e network) ∧ Holds e o' k t

theorem Dson.Owns.dataSize {d : Dson} {block : Bytes} (hown : d.Owns block) {k : Int} {v : Value}
    (hl : LeafRecord e k v d.headerBuf block) (m : Mem) :
    DsonObj.dataSize e m (.dson d []) = some (block.length : Int) := by
  simp only [DsonObj.dataSize, hown.kind, hown.header, Option.map_some, hl.size]

theorem Dson.Owns.wire {d : Dson} {block : Bytes} (hown : d.Owns block) {h' : Header} {b' : Bytes}
    (hconv : convertRecord e network d.headerBuf block = some (h', b')) (children : ObjMap) :
    (DsonObj.dson d children).wire e network = h'.bytes ++ b' := by
  simp only [DsonObj.wire, hown.kind, hown.buf, hconv]

theorem Dson.Owns.streamRaw {d : Dson} {block : Bytes} (hown : d.Owns block) (hstate : d.state ≠ .error)
    (e : Endian) (m : Mem) :
    d.streamRaw e [] m block.length = some (.dson d [], m, d.headerBuf.bytes ++ block) := by
  have hpos := List.length_pos_of_ne_nil hown.nonempty
  have hdata : d.data = some 0 := by
    rw [Dson.data, if_neg (by simp [hstate, hown.buf, BufPtr.isNull]), if_pos hown.alloc]
  have hpayload : d.streamData m block.length = some block := by
    rw [Dson.streamData, if_neg (by omega), if_neg (by omega), hdata]
    simp [BufPtr.tail, hown.buf]
  rw [Dson.streamRaw, Dson.streamHeader, if_neg (by simp [hown.kind])]
  simp only [Option.bind_eq_bind, Option.bind_some, hown.header, Option.pure_def, hpayload]

theorem Dson.streamInternal_ready {copy : DsonObj → Mem → Option (DsonObj × Mem × Bytes)} {d : Dson}
    (hstate : d.state = .ready) (hkind : d.dsonKind ≠ .dataBufNeedParse) (children : ObjMap) (m : Mem) :
    d.streamInternal e copy network children m = d.streamKind e copy network children m := by
  rw [Dson.streamInternal, if_neg (by simp [hstate]), if_neg hkind]

/-- A message that has not been opened is appended as it is, or opened. -/
theorem Dson.streamInternal_message {copy : DsonObj → Mem → Option (DsonObj × Mem × Bytes)} {d : Dson} {children : ObjMap}
    {m : Mem} {h : Header} (hstate : d.state = .ready) (hkind : d.dsonKind = .dataBufNeedParse)
    (hread : d.header m = some h) : d.streamInternal e copy network children m =
      if h.inOrder e network then
        (DsonObj.dataSize e m (.dson d children)).bind fun size => d.streamRaw e children m size
      else (d.parseBuf e children m).bind fun p => p.1.streamKind e copy network p.2 m := by
  rw [Dson.streamInternal, if_neg (not_not.mpr hstate), if_pos hkind]
  simp only [isNetworkOrder, isHostOrder, hread, Option.map_some, Option.bind_eq_bind, Option.bind_some, Header.inOrder]
  cases network <;> split_ifs <;> rfl

theorem Dson.streamKind_one {copy : DsonObj → Mem → Option (DsonObj × Mem × Bytes)} {d : Dson}
    (hkind : d.dsonKind = .oneObjectInDataBuf) (children : ObjMap) (m : Mem) :
    d.streamKind e copy network children m = (do
      let before ← DsonObj.dataSize e m (.dson d children)
      let (d, m) ← d.toOrder e network m
      let after ← DsonObj.dataSize e m (.dson d children)
      d.streamRaw e children m (if network then before else after)) := by
  unfold Dson.streamKind
  rw [hkind]

theorem Dson.streamKind_container {copy : DsonObj → Mem → Option (DsonObj × Mem × Bytes)} {d : Dson}
    (hkind : d.dsonKind = .dsonContainer) (children : ObjMap) (m : Mem) :
    d.streamKind e copy network children m = (do
      let size ← DsonObj.dataSize e m (.dson d children)
      let (d, m) ← d.headerToOrder e network m
      let (d, m, head) ← d.streamHeader e m size
      let (children, inside, bs) ← streamMap copy children (d.inner m)
      let (d, m) := d.outer m inside
      return (.dson d children, m, head ++ bs)) := by
  unfold Dson.streamKind
  rw [hkind]

theorem Dson.streamInternal_leaf {copy : DsonObj → Mem → Option (DsonObj × Mem × Bytes)} {d : Dson}
    {children : ObjMap} {k : Int} {v : Value} (m : Mem) (ho : Holds e (.dson d children) k (.leaf v)) :
    Streams e network (.dson d children) k (.leaf v) m (d.streamInternal e copy network children m) := by
  rw [Holds] at ho
  obtain ⟨hstate, rfl, block, hown, hl⟩ := ho
  obtain ⟨h', b', hconv, hl', hlen⟩ := hl.convert network
  have horder := hown.toOrder (by simp [hstate]) e network m
  rw [hconv, Option.map_some] at horder
  have hown' : Dson.Owns { d with headerBuf := h', buf := .own b' } b' :=
    ⟨hown.kind, hown.alloc, rfl, by rw [hlen]; exact hown.size,
      fun hnil => hown.nonempty (List.eq_nil_of_length_eq_zero (by rw [← hlen, hnil]; rfl))⟩
  have hraw := hown'.streamRaw (by simp [hstate]) e m
  refine ⟨.dson { d with headerBuf := h', buf := .own b' } [], ?_, ?_⟩
  · rw [Dson.streamInternal_ready hstate (by simp [hown.kind]), Dson.streamKind_one hown.kind,
      hown.dataSize hl, horder, hown.wire hconv]
    simp only [Option.bind_eq_bind, Option.bind_some, hown'.dataSize hl', ← hlen, ite_self, hraw]
  · rw [Holds]
    exact ⟨hstate, rfl, b', hown', hl'⟩

/-- What the loop asks of the emitter of the children. -/
def StreamsBelow (e : Endian) (network : Bool) (fuel : Nat)
    (copy : DsonObj → Mem → Option (DsonObj × Mem × Bytes)) : Prop :=
  ∀ {o : DsonObj} {k : Int} {t : Tree} (m : Mem), Holds e o k t → o.depth ≤ fuel →
    Streams e network o k t m (copy o m)

theorem streamMap_streams {fuel : Nat} {copy : DsonObj → Mem → Option (DsonObj × Mem × Bytes)}
    (hcopy : StreamsBelow e network fuel copy) {children : ObjMap} {ts : Forest} (m : Mem)
    (hall : HoldsAll e children ts) (hfuel : DsonObj.depths children ≤ fuel) :
    ∃ children', Dson.streamMap copy children m = some (children', m, DsonObj.wires e network children) ∧
      HoldsAll e children' ts ∧ KeyMap.keys children' = KeyMap.keys children := by
  induction children generalizing ts with
  | nil => exact ⟨[], rfl, hall, rfl⟩
  | cons p rest ih =>
      obtain ⟨k, o⟩ := p
      cases ts with
      | nil => exact hall.elim
      | cons q ts =>
          obtain ⟨k', t⟩ := q
          rw [HoldsAll] at hall
          obtain ⟨rfl, ho, hrest⟩ := hall
          rw [DsonObj.depths] at hfuel
          obtain ⟨o', hout, ho'⟩ := hcopy m ho (by omega)
          obtain ⟨rest', hout', hrest', hkeys⟩ := ih hrest (by omega)
          refine ⟨(k, o') :: rest', ?_, ?_, by rw [KeyMap.keys_cons, KeyMap.keys_cons, hkeys]⟩
          · rw [Dson.streamMap, hout]
            simp only [Option.bind_eq_bind, Option.bind_some, hout', DsonObj.wires]
            rfl
          · rw [HoldsAll]
            exact ⟨rfl, ho', hrest'⟩

theorem Dson.streamInternal_node {fuel : Nat} {copy : DsonObj → Mem → Option (DsonObj × Mem × Bytes)}
    (hcopy : StreamsBelow e network fuel copy) {d : Dson} {children : ObjMap} {k : Int} {ts : Forest}
    (m : Mem) (ho : Holds e (.dson d children) k (.node ts)) (hfuel : DsonObj.depths children ≤ fuel) :
    Streams e network (.dson d children) k (.node ts) m (d.streamInternal e copy network children m) := by
  have hsize := ho.dataSize_wrap m
  rw [Holds] at ho
  obtain ⟨hstate, hnode, hsorted, hall⟩ := ho
  have hlen := hall.wires_length network
  have hwire : (Tree.node ts).size - (headerSize : Int) = (DsonObj.wires e network children).length := by
    rw [hlen, Tree.size]
    simp
  rw [hwire] at hsize
  obtain ⟨children', hout, hall', hkeys⟩ := streamMap_streams hcopy m hall hfuel
  have hlocal : d.headerIsLocal = true := by simp [Dson.headerIsLocal, hnode.buf, BufPtr.isNull]
  have hinner : ∀ h, Dson.inner { d with headerBuf := h } m = m := fun h => by
    simp only [Dson.inner, hnode.buf]
  have houter : ∀ h inside, Dson.outer { d with headerBuf := h } m inside = ({ d with headerBuf := h }, inside) :=
    fun h inside => by simp only [Dson.outer, hnode.buf]
  have hnode' := hnode.prepared { d with
    headerBuf := (d.headerBuf.setDataSize e (DsonObj.wires e network children).length).toOrder e network }
    rfl rfl rfl rfl
  refine ⟨.dson { d with
    headerBuf := (d.headerBuf.setDataSize e (DsonObj.wires e network children).length).toOrder e network }
    children', ?_, ?_⟩
  · rw [Dson.streamInternal_ready hstate (by simp [hnode.kind]), Dson.streamKind_container hnode.kind, hsize,
      Dson.headerToOrder_local hlocal]
    simp only [Option.bind_eq_bind, Option.bind_some]
    rw [Dson.streamHeader, if_pos (by exact hnode.kind), Dson.setDataSizeInternal_local (by exact hlocal)]
    simp only [Option.bind_eq_bind, Option.bind_some, Option.pure_def]
    rw [Dson.header_local (by exact hlocal), Option.bind_some, Option.bind_some, hinner, hout]
    simp only [Option.bind_some, houter, Header.setDataSize_wrap32, Header.setDataSize_toOrder hnode.mark]
    simp only [DsonObj.wire, hnode.kind]
  · rw [Holds]
    refine ⟨hstate, hnode', ?_, hall'⟩
    rw [KeyMap.Sorted, hkeys]
    exact hsorted

theorem streamFuel_streams (fuel : Nat) :
    StreamsBelow e network fuel (DsonObj.streamFuel e network fuel) := by
  induction fuel with
  | zero =>
      intro o k t m _ hfuel
      cases o <;> simp [DsonObj.depth] at hfuel
  | succ fuel ih =>
      intro o k t m ho hfuel
      cases o with
      | string o =>
          cases t with
          | leaf v =>
              rw [Holds] at ho
              obtain ⟨hstate, hne, hl, ht⟩ := ho
              refine ⟨.string (o.prepareHeader e network), rfl, ?_⟩
              rw [Holds]
              exact ⟨hstate, hne, hl.toOrder_string ht network, ht⟩
          | node ts => exact ho.elim
      | route o =>
          cases t with
          | leaf v =>
              rw [Holds] at ho
              obtain ⟨hstate, hl, ht⟩ := ho
              refine ⟨.route (o.toOrder e network), rfl, ?_⟩
              rw [Holds]
              exact ⟨(DsonRouteObj.toOrder_state o).trans hstate, hl.route_toOrder ht network, ht⟩
          | node ts => exact ho.elim
      | dson d children =>
          cases t with
          | leaf v => exact Dson.streamInternal_leaf m ho
          | node ts =>
              rw [DsonObj.depth] at hfuel
              exact Dson.streamInternal_node ih m ho (by omega)

/-- The stream emitter appends the whole encoding. -/
theorem Holds.copyToStream {o : DsonObj} {k : Int} {t : Tree} (h : Holds e o k t)
    (network : Bool) (m : Mem) :
    ∃ o', o.copyToStream e network m = some (o', m, o.wire e network) ∧ Holds e o' k t :=
  streamFuel_streams o.depth m h le_rfl

end

end LeanDson
