import LeanDson.Handover

/-! What a deliverable object hands over: its encoding, as the stream emitter appends it, with the length it announces.
Of the memory around it only its headers are written over. -/

namespace LeanDson

variable {e : Endian} {network : Bool}

/-! ### Encodings -/

/-- The object hands over these bytes, announces their length and appends them to a stream, and the memory around it is
the second one when it has done so. -/
structure DsonObj.Consigns (e : Endian) (network : Bool) (o : DsonObj) (m : Mem) (bs : Bytes) (m₁ : Mem) : Prop where
  message : ∃ (h : Header) (body : Bytes), bs = h.bytes ++ body ∧ h.dataSizeOf e = body.length
  yields : ∀ n, Yields e network m₁ n o m bs
  size : ∀ m', o.dataSize e m' = some ((bs.length : Int) - headerSize)
  stream : ∀ fuel, o.depth ≤ fuel → ∃ o', DsonObj.streamFuel e network fuel o m = some (o', m₁, bs)

/-- So do the children of a container. -/
structure DsonObj.ConsignsAll (e : Endian) (network : Bool) (children : ObjMap) (m : Mem) (bs : Bytes) (m₁ : Mem) :
    Prop where
  yields : ∀ n, YieldsAll e network m₁ n children m bs
  size : ∀ m', DsonObj.dataSizes e m' children = some (bs.length : Int)
  stream : ∀ fuel, DsonObj.depths children ≤ fuel →
    ∃ children', Dson.streamMap (DsonObj.streamFuel e network fuel) children m = some (children', m₁, bs)

theorem DsonObj.consignsAll_nil (m : Mem) : DsonObj.ConsignsAll e network [] m [] m :=
  ⟨fun _ => ⟨rfl, rfl⟩, fun _ => rfl, fun _ _ => ⟨[], rfl⟩⟩

/-- One child after the other. -/
theorem DsonObj.Consigns.cons {o : DsonObj} {m m' m₁ : Mem} {bs bs' : Bytes} {rest : ObjMap}
    (ho : o.Consigns e network m bs m') (hrest : DsonObj.ConsignsAll e network rest m' bs' m₁)
    (hlt : bs.length + bs'.length < 2 ^ 31) (k : Int) :
    DsonObj.ConsignsAll e network ((k, o) :: rest) m (bs ++ bs') m₁ := by
  refine ⟨fun n => ⟨bs, bs', m', rfl, ho.yields n, hrest.yields n⟩, fun m'' => ?_, fun fuel hfuel => ?_⟩
  · rw [DsonObj.dataSizes, ho.size, hrest.size]
    simp only [Option.bind_eq_bind, Option.bind_some, Option.pure_def, Int.sub_add_cancel, List.length_append]
    have hone : wrap32 (bs.length : Int) = bs.length := wrap32_of_isInt32 (by rw [IsInt32]; omega)
    rw [hone, wrap32_of_isInt32 (by rw [IsInt32]; omega)]
    push_cast
    rfl
  · rw [DsonObj.depths] at hfuel
    obtain ⟨o', hrun⟩ := ho.stream fuel (by omega)
    obtain ⟨rest', hrun'⟩ := hrest.stream fuel (by omega)
    refine ⟨(k, o') :: rest', ?_⟩
    rw [Dson.streamMap, hrun]
    simp only [Option.bind_eq_bind, Option.bind_some, hrun']
    rfl

/-- A conversion keeps the size that a header announces. -/
theorem convertRecord_dataSizeOf {h h' : Header} {b b' : Bytes} (hv : h.ValidMark e)
    (hconv : convertRecord e network h b = some (h', b')) : h'.dataSizeOf e = h.dataSizeOf e := by
  rcases convertRecord_header hconv with rfl | rfl
  · rfl
  · exact Header.dataSizeOf_toOrder hv network

section

variable {d : Dson} {block : Bytes}

theorem Dson.Laden.streamRaw (hd : d.Laden block) (hstate : d.state ≠ .error) (children : ObjMap) (m : Mem) :
    d.streamRaw e children m block.length = some (.dson d children, m, d.headerBuf.bytes ++ block) := by
  have hpayload : d.streamData m block.length = some block := by
    rw [Dson.streamData]
    split_ifs with hzero hneg
    · have hnil : block = [] := List.eq_nil_of_length_eq_zero (by exact_mod_cast hzero)
      rw [hnil]
    · omega
    · simp only [hd.data hstate, hd.tail m, Option.bind_eq_bind, Option.bind_some, Int.toNat_natCast, List.take_length]
      rw [if_neg (lt_irrefl _)]
  rw [Dson.streamRaw, Dson.streamHeader, if_neg hd.kind]
  simp only [Option.bind_eq_bind, Option.bind_some, Dson.header_local hd.headerIsLocal, hpayload, Option.pure_def]

theorem Dson.Laden.dataSize (hd : d.Laden block) (children : ObjMap) (m : Mem) :
    DsonObj.dataSize e m (.dson d children) = some (d.headerBuf.dataSizeOf e) := by
  rw [dataSize_header hd.kind, Dson.header_local hd.headerIsLocal]
  rfl

/-- A single object is converted, and sent as it then is. -/
theorem Dson.Stocked.consigns_single (hd : d.Stocked e block) (hstate : d.state = .ready)
    (hkind : d.dsonKind = .oneObjectInDataBuf) : ∃ bs,
    (∀ m, (DsonObj.dson d []).Consigns e network m bs m) ∧ bs.length = headerSize + block.length := by
  obtain ⟨⟨h', b'⟩, hconv⟩ := Option.isSome_iff_exists.mp (hd.single hkind network)
  have hlen := (convertRecord_local hconv).1
  have hsize : h'.dataSizeOf e = b'.length := by rw [convertRecord_dataSizeOf hd.mark hconv, hd.announced, hlen]
  have horder : ∀ m, d.toOrder e network m = some ({ d with headerBuf := h', buf := .own b' }, m) := by
    intro m
    have hrecord := (Dson.isRecord_own hd.alloc (by simp [hstate]) m).toOrder e d.headerBuf block network
    rw [← hd.buf, hconv] at hrecord
    exact hrecord
  have hd' : ∀ off state, Dson.Laden { d with headerBuf := h', buf := .own b', offset := off, state := state } b' :=
    fun _ _ => ⟨hd.kind, hd.alloc, rfl, by rw [hlen]; exact hd.size,
      fun hnil => hd.nonempty (List.eq_nil_of_length_eq_zero (by rw [← hlen, hnil]; rfl))⟩
  have hprepare : ∀ m, d.prepareCopy e network [] m =
      some ({ d with headerBuf := h', buf := .own b', offset := 0, state := .copyingHeader }, [], m) := by
    intro m
    rw [Dson.prepareCopy_eq, Dson.header_local hd.headerIsLocal, Option.bind_some, if_neg (by simp [hkind]),
      Option.bind_some, Dson.prepareHeader, if_neg hd.kind]
    simp only [Option.bind_eq_bind, Option.bind_some, hkind, if_true, horder, Option.map_some]
  refine ⟨h'.bytes ++ b', fun m => ⟨⟨h', b', rfl, hsize⟩, fun n => ?_, fun m => ?_, fun fuel hfuel => ?_⟩, ?_⟩
  · exact ((hd' 0 .copyingHeader).yields_header m n rfl (Nat.zero_lt_succ _)).of_prepared hstate (hprepare m) rfl le_rfl
  · rw [hd.dataSize, hd.announced, List.length_append, Header.bytes_length, hlen, headerSize]
    congr 1
    omega
  · rw [DsonObj.depth] at hfuel
    obtain ⟨fuel, rfl⟩ : ∃ k, fuel = k + 1 := Nat.exists_eq_succ_of_ne_zero (by omega)
    have hd₁ : Dson.Laden { d with headerBuf := h', buf := .own b' } b' := hd' d.offset d.state
    have hraw := hd₁.streamRaw (e := e) (by simp [hstate]) [] m
    have hafter := hd₁.dataSize (e := e) [] m
    rw [hsize] at hafter
    refine ⟨.dson { d with headerBuf := h', buf := .own b' } [], ?_⟩
    rw [DsonObj.streamFuel, Dson.streamInternal_ready hstate (by simp [hkind]), Dson.streamKind_one hkind, hd.dataSize,
      hd.announced, horder]
    simp only [Option.bind_eq_bind, Option.bind_some, hafter, ← hlen, ite_self, hraw]
  · rw [List.length_append, Header.bytes_length, hlen, headerSize]

/-- A message that has not been opened is sent on in the order it came in. -/
theorem Dson.Stocked.consigns_message (hd : d.Stocked e block) (hstate : d.state = .ready)
    (hkind : d.dsonKind = .dataBufNeedParse) (hnot : ¬d.headerBuf.inOrder e !network) : ∃ bs,
    (∀ m, (DsonObj.dson d []).Consigns e network m bs m) ∧ bs.length = headerSize + block.length := by
  have hin : d.headerBuf.inOrder e network := by
    rcases hd.mark with h | h
    · cases network
      · exact h
      · exact absurd h hnot
    · cases network
      · exact absurd h hnot
      · exact h
  have hturn : ¬(d.headerBuf.isHostOrder e ∧ network ∨ d.headerBuf.isNetworkOrder e ∧ ¬network) := by
    cases network <;> simpa [Header.inOrder] using hnot
  have hprepare : ∀ m, d.prepareCopy e network [] m = some ({ d with offset := 0, state := .copyingHeader }, [], m) := by
    intro m
    rw [Dson.prepareCopy_eq, Dson.header_local hd.headerIsLocal, Option.bind_some, if_neg (fun h => hturn h.2),
      Option.bind_some, Dson.prepareHeader, if_neg hd.kind]
    simp only [Option.bind_eq_bind, Option.bind_some, hkind, reduceCtorEq, if_false,
      Dson.headerToOrder_local hd.headerIsLocal, Header.toOrder_of_inOrder hin, Option.map_some]
  have hd' : Dson.Laden { d with offset := 0, state := .copyingHeader } block := hd.toLaden.update rfl rfl rfl rfl
  refine ⟨d.headerBuf.bytes ++ block, fun m => ⟨⟨_, _, rfl, hd.announced⟩, fun n => ?_, fun m => ?_, fun fuel hfuel => ?_⟩,
    ?_⟩
  · exact (hd'.yields_header m n rfl (Nat.zero_lt_succ _)).of_prepared hstate (hprepare m) rfl le_rfl
  · rw [hd.dataSize, hd.announced, List.length_append, Header.bytes_length, headerSize]
    congr 1
    omega
  · rw [DsonObj.depth] at hfuel
    obtain ⟨fuel, rfl⟩ : ∃ k, fuel = k + 1 := Nat.exists_eq_succ_of_ne_zero (by omega)
    refine ⟨.dson d [], ?_⟩
    rw [DsonObj.streamFuel, Dson.streamInternal_message hstate hkind (Dson.header_local hd.headerIsLocal m), if_pos hin,
      hd.dataSize, hd.announced, Option.bind_some, hd.streamRaw (by simp [hstate])]
  · rw [List.length_append, Header.bytes_length, headerSize]

end

/-! ### Headers of containers -/

section

variable {d d' : Dson} {children : ObjMap} {m m' m₁ : Mem} {h : Header} {bs : Bytes}

/-- The header of a container, in the order asked for. -/
theorem Header.setDataSize_toOrder_of (hmark : h.ValidMark e ∨ bs = []) :
    (h.toOrder e network).setDataSize e bs.length = (h.setDataSize e bs.length).toOrder e network := by
  rcases hmark with hmark | rfl
  · exact Header.setDataSize_toOrder hmark _ network
  · exact (Header.setDataSize_zero_toOrder e h network).symm

theorem Header.dataSizeOf_sent (hmark : h.ValidMark e ∨ bs = []) (hlt : bs.length < 2 ^ 31) :
    ((h.setDataSize e bs.length).toOrder e network).dataSizeOf e = bs.length := by
  rcases hmark with hmark | rfl
  · rw [Header.dataSizeOf_toOrder ((Header.validMark_congr (h.setDataSize_markByteOrder _)).mpr hmark)]
    exact Header.dataSizeOf_setDataSize _ (by rw [IsInt32]; omega)
  · rw [List.length_nil, Nat.cast_zero, Header.setDataSize_zero_toOrder, Header.dataSizeOf_setDataSize_zero]

/-- A header that can be read is replaced where it lies. -/
theorem Dson.setHeader_header (hread : d.header m = some h) {h' : Header} (hset : d.setHeader m h' = some (d', m')) :
    d'.header m' = some h' ∧ d'.dsonKind = d.dsonKind := by
  obtain ⟨d₁, m₁, hset₁, hread₁, hsame, -⟩ := Dson.setHeader_read hread h'
  cases hset₁.symm.trans hset
  exact ⟨hread₁, by rw [hsame]⟩

/-- A container is given its size and the order asked for. -/
theorem Dson.prepareCopy_container (hkind : d.dsonKind = .dsonContainer) (hread : d.header m = some h) {size : Int}
    (hsize : DsonObj.dataSizes e (d.inner m) children = some size)
    (hset : d.setHeader m ((h.setDataSize e size).toOrder e network) = some (d', m')) :
    d.prepareCopy e network children m = some ({ d' with offset := 0, state := .copyingHeader }, children, m') := by
  have hall : DsonObj.dataSize e m (.dson d children) = some size := by simp only [DsonObj.dataSize, hkind, hsize]
  obtain ⟨d₁, m₁, hset₁, -⟩ := Dson.setHeader_read hread (h.setDataSize e size)
  obtain ⟨hread₁, hkind₁⟩ := Dson.setHeader_header hread hset₁
  rw [Dson.prepareCopy_eq, hread, Option.bind_some, if_neg (by simp [hkind]), Option.bind_some, Dson.prepareHeader,
    if_pos hkind, hall]
  simp only [Dson.setDataSizeInternal, hread, Option.bind_eq_bind, Option.bind_some, hset₁]
  rw [if_neg (by rw [hkind₁, hkind]; decide), Dson.headerToOrder, hread₁]
  simp only [Option.bind_eq_bind, Option.bind_some, Dson.setHeader_setHeader hset₁, hset, Option.map_some]

/-- A container is appended to a stream as its header and its children. -/
theorem DsonObj.ConsignsAll.streamKind (hkind : d.dsonKind = .dsonContainer) (hread : d.header m = some h)
    (hmark : h.ValidMark e ∨ bs = [])
    (hset : d.setHeader m ((h.setDataSize e bs.length).toOrder e network) = some (d', m'))
    (hall : DsonObj.ConsignsAll e network children (d'.inner m') bs m₁) {fuel : Nat}
    (hfuel : DsonObj.depths children ≤ fuel) :
    ∃ o', d.streamKind e (DsonObj.streamFuel e network fuel) network children m =
      some (o', (d'.outer m' m₁).2, ((h.setDataSize e bs.length).toOrder e network).bytes ++ bs) := by
  have hsize : DsonObj.dataSize e m (.dson d children) = some (bs.length : Int) := by
    simp only [DsonObj.dataSize, hkind, hall.size]
  obtain ⟨d₁, m₂, hset₁, -⟩ := Dson.setHeader_read hread (h.toOrder e network)
  obtain ⟨hread₁, hkind₁⟩ := Dson.setHeader_header hread hset₁
  obtain ⟨hread', -⟩ := Dson.setHeader_header hread hset
  obtain ⟨children', hmap⟩ := hall.stream fuel hfuel
  have hhead : d₁.streamHeader e m₂ bs.length =
      some (d', m', ((h.setDataSize e bs.length).toOrder e network).bytes) := by
    rw [Dson.streamHeader, if_pos (hkind₁.trans hkind), Dson.setDataSizeInternal, hread₁]
    simp only [Option.bind_eq_bind, Option.bind_some, Dson.setHeader_setHeader hset₁, Header.setDataSize_toOrder_of hmark,
      hset, hread']
    rfl
  refine ⟨.dson (d'.outer m' m₁).1 children', ?_⟩
  rw [Dson.streamKind_container hkind, hsize, Dson.headerToOrder, hread]
  simp only [Option.bind_eq_bind, Option.bind_some, hset₁, hhead, hmap]
  rfl

/-- A container, wherever its header lies. -/
theorem DsonObj.ConsignsAll.container (hstate : d.state = .ready) (hkind : d.dsonKind = .dsonContainer)
    (hread : d.header m = some h) (hmark : h.ValidMark e ∨ bs = []) (hsorted : KeyMap.Sorted children)
    (hlt : bs.length < 2 ^ 31)
    (hset : d.setHeader m ((h.setDataSize e bs.length).toOrder e network) = some (d', m'))
    (hall : DsonObj.ConsignsAll e network children (d'.inner m') bs m₁) :
    (DsonObj.dson d children).Consigns e network m (((h.setDataSize e bs.length).toOrder e network).bytes ++ bs)
      (d'.outer m' m₁).2 := by
  obtain ⟨hread', hkind'⟩ := Dson.setHeader_header hread hset
  refine ⟨⟨_, _, rfl, Header.dataSizeOf_sent hmark hlt⟩, fun n => ?_, fun m'' => ?_, fun fuel hfuel => ?_⟩
  · refine Yields.of_prepared hstate (Dson.prepareCopy_container hkind hread (hall.size _) hset) rfl le_rfl ?_
    have hgoes := YieldsAll.yields n (d := { d' with offset := 0, state := .copyingHeader }) (hkind'.trans hkind) rfl
      (Nat.zero_lt_succ _) hread' hsorted (hall.yields n)
    rw [Dson.outer_congr d' { d' with offset := 0, state := .copyingHeader } rfl] at hgoes
    exact hgoes
  · simp only [DsonObj.dataSize, hkind, hall.size, List.length_append, Header.bytes_length, headerSize]
    congr 1
    push_cast
    omega
  · rw [DsonObj.depth] at hfuel
    obtain ⟨fuel, rfl⟩ : ∃ k, fuel = k + 1 := Nat.exists_eq_succ_of_ne_zero (by omega)
    obtain ⟨o', hrun⟩ := DsonObj.ConsignsAll.streamKind hkind hread hmark hset hall
      (show DsonObj.depths children ≤ fuel by omega)
    exact ⟨o', by rw [DsonObj.streamFuel, Dson.streamInternal_ready hstate (by simp [hkind]), hrun]⟩

end

/-! ### Deliverable objects -/

theorem Holds.consigns {o : DsonObj} {k : Int} {t : Tree} (ho : Holds e o k t) (hlt : t.size < 2 ^ 31)
    (hmessage : ∃ (h : Header) (body : Bytes), o.wire e network = h.bytes ++ body ∧ h.dataSizeOf e = body.length)
    (m : Mem) : o.Consigns e network m (o.wire e network) m where
  message := hmessage
  yields n := ho.pending network ▸ ho.emittable.yields m n hlt
  size m := by rw [ho.dataSize m hlt, ho.wire_length]
  stream fuel hfuel := by
    obtain ⟨o', hrun, -⟩ := streamFuel_streams fuel m ho hfuel
    exact ⟨o', hrun⟩

/-- A non-empty payload of the object's own, a string or an address: the memory around it plays no part. -/
theorem Dson.Stocked.consigns {d : Dson} {block : Bytes} {m₀ : Mem} (hd : d.Stocked e block) (hstate : d.state = .ready)
    (hdel : (DsonObj.dson d []).Deliverable e network m₀) : ∃ bs,
    (∀ m, (DsonObj.dson d []).Consigns e network m bs m) ∧ bs.length = (DsonObj.dson d []).extent e m₀ := by
  have hread := Dson.header_local hd.headerIsLocal m₀
  have hextent : (DsonObj.dson d []).extent e m₀ = headerSize + block.length := by
    rw [DsonObj.extent]
    cases hcase : d.dsonKind with
    | dsonContainer => exact absurd hcase hd.kind
    | oneObjectInDataBuf => simp [hread, hd.announced]
    | dataBufNeedParse => simp [hread, hd.announced]
  rw [hextent]
  cases hcase : d.dsonKind with
  | dsonContainer => exact absurd hcase hd.kind
  | oneObjectInDataBuf => exact hd.consigns_single hstate hcase
  | dataBufNeedParse =>
      refine hd.consigns_message hstate hcase fun hin => ?_
      rw [DsonObj.Deliverable, hcase] at hdel
      obtain ⟨h, hread', hzero⟩ := hdel
      obtain rfl : d.headerBuf = h := Option.some.inj (hread.symm.trans hread')
      rw [if_pos hin, hd.announced] at hzero
      exact hd.nonempty (List.eq_nil_of_length_eq_zero (by exact_mod_cast hzero))

theorem DsonObj.Packed.consigns_string {s : DsonStringObj} {m₀ : Mem} (ho : (DsonObj.string s).Packed e m₀)
    (hlt : (DsonObj.string s).extent e m₀ < 2 ^ 31) : ∃ bs,
    (∀ m, (DsonObj.string s).Consigns e network m bs m) ∧ bs.length = (DsonObj.string s).extent e m₀ := by
  rw [DsonObj.Packed] at ho
  obtain ⟨k, v, ho⟩ := ho
  have hl : LeafRecord e k v s.header s.object := ho.2.2.1
  have hsize : (DsonObj.string s).extent e m₀ = (Tree.leaf v).size := by
    rw [DsonObj.extent, DsonStringObj.dataSize, hl.size, Tree.size, hl.length_eq, Int.toNat_natCast]
  rw [hsize] at hlt ⊢
  exact ⟨_, ho.consigns hlt ⟨_, _, rfl, (hl.toOrder_string ho.2.2.2 network).size⟩, ho.wire_length network⟩

theorem DsonObj.Packed.consigns_route {r : DsonRouteObj} {m₀ : Mem} (ho : (DsonObj.route r).Packed e m₀) : ∃ bs,
    (∀ m, (DsonObj.route r).Consigns e network m bs m) ∧ bs.length = (DsonObj.route r).extent e m₀ := by
  rw [DsonObj.Packed] at ho
  obtain ⟨k, v, ho⟩ := ho
  have hl : LeafRecord e k v r.header r.address.bytes := ho.2.1
  have hsize : (DsonObj.route r).extent e m₀ = (Tree.leaf v).size := by
    rw [DsonObj.extent, Tree.size, hl.length_eq]
    rfl
  have hlt : (Tree.leaf v).size < 2 ^ 31 := by
    rw [← hsize, DsonObj.extent]
    decide
  rw [hsize]
  exact ⟨_, ho.consigns hlt ⟨_, _, rfl, (hl.route_toOrder ho.2.2 network).size⟩, ho.wire_length network⟩

/-! ### Memories around a container -/

section

variable {d d' : Dson} {children : ObjMap} {m m' m₁ : Mem} {h : Header} {as : List Anchor}

theorem Dson.outer_of_ne (hown : ∀ block, d.buf ≠ .own block) (m m₁ : Mem) : (d.outer m m₁).2 = m₁ := by
  rw [Dson.outer]
  split
  · rename_i block hbuf
    exact absurd hbuf (hown block)
  · rfl

theorem Dson.setHeader_not_own (hset : d.setHeader m h = some (d', m')) (hown : ∀ block, d.buf ≠ .own block) :
    ∀ block, d'.buf ≠ .own block := by
  cases hlocal : d.headerIsLocal with
  | true =>
      rw [Dson.setHeader_local hlocal] at hset
      cases hset
      exact hown
  | false =>
      obtain ⟨t, h₀, rest, -, -, rfl, -⟩ := Dson.setHeader_foreign hlocal hset
      intro block hblock
      cases hbuf : d.buf with
      | null => simp [hbuf, BufPtr.setTail] at hblock
      | own block' => exact hown block' hbuf
      | view region off => simp [hbuf, BufPtr.setTail] at hblock

/-- What is written around a block from the inside. -/
theorem Mem.Keeps.around {block : Bytes} (hkeeps : Mem.Keeps e as { m with owner := block } m₁) :
    m.Keeps e (as.filter (·.1 = .external)) { m with external := m₁.external } := by
  intro p hp hm
  cases hregion : p.1 with
  | owner => exact (Mem.marked_congr (by rw [hregion]; rfl)).mp hm
  | external =>
      refine (Mem.marked_congr (m := m₁) (by rw [hregion]; rfl)).mp (hkeeps p (fun q hq hsame => ?_) ?_)
      · exact hp q (List.mem_filter.mpr ⟨hq, by simp [← hsame, hregion]⟩) hsame
      · exact (Mem.marked_congr (by rw [hregion]; rfl)).mp hm

end

mutual

/-- A deliverable object consigns as many bytes as it is long, over any memory with the marks around it, and writes over
its own headers only. -/
theorem DsonObj.Packed.consigns : ∀ {o : DsonObj} {m₀ m : Mem}, o.Packed e m₀ → o.Deliverable e network m₀ →
    o.extent e m₀ < 2 ^ 31 → (∀ p ∈ o.anchors, m.Marked e p) →
    ∃ bs m₁, o.Consigns e network m bs m₁ ∧ bs.length = o.extent e m₀ ∧ m.Keeps e o.anchors m₁
  | .dson d children, m₀, m, ho, hdel, hlt, hmarks => by
      have hwhole := ho
      rw [DsonObj.Packed] at ho
      obtain ⟨hstate, ⟨rfl, ⟨block, hd⟩ | hd⟩ | ⟨hkind, hsorted, hhead, happart, hall⟩⟩ := ho
      · obtain ⟨bs, hbs, hlen⟩ := hd.consigns hstate hdel
        exact ⟨bs, m, hbs m, hlen, .refl e _ m⟩
      · exact absurd hdel hd.not_deliverable
      rw [DsonObj.Deliverable, hkind] at hdel
      rw [DsonObj.extent, hkind] at hlt ⊢
      simp only at hlt ⊢
      by_cases hcase : ∃ block, d.buf = .own block
      · -- a block of the container's own
        obtain ⟨block, hbuf⟩ := hcase
        have hlocal : d.headerIsLocal = true := hhead.place.resolve_right fun ⟨region, off, hview⟩ => by
          rw [hbuf] at hview
          cases hview
        have hanchors : (DsonObj.dson d children).anchors = (DsonObj.anchorsAll children).filter (·.1 = .external) := by
          rw [DsonObj.anchors, hkind, hbuf]
        have hinner : ∀ m, d.inner m = { m with owner := block } := fun m => by rw [Dson.inner, hbuf]
        rw [hanchors] at hmarks ⊢
        rw [List.pairwise_append] at happart
        have hinside : ∀ p ∈ DsonObj.anchorsAll children, (d.inner m).Marked e p := by
          intro p hp
          cases hregion : p.1 with
          | owner =>
              refine (Mem.marked_congr ?_).mp (hall.marked p hp)
              rw [hregion, hinner, hinner]
              rfl
          | external =>
              refine (Mem.marked_congr ?_).mp (hmarks p (List.mem_filter.mpr ⟨hp, by simp [hregion]⟩))
              rw [hregion, hinner]
              rfl
        obtain ⟨bs, m₁, hbs, hlen, hkeeps⟩ := hall.consigns hdel (by omega) happart.2.1 hinside
        obtain ⟨⟨h, hread, hmark⟩, -⟩ := hhead
        rw [Dson.header_local hlocal] at hread
        cases hread
        have hset := Dson.setHeader_local hlocal m ((d.headerBuf.setDataSize e bs.length).toOrder e network)
        refine ⟨_, _, DsonObj.ConsignsAll.container hstate hkind (Dson.header_local hlocal m) (Or.inl hmark) hsorted
          (by omega) hset hbs, ?_, ?_⟩
        · rw [List.length_append, Header.bytes_length, hlen, headerSize]
        · rw [hinner] at hkeeps
          have hafter := hkeeps.around
          rw [Dson.outer]
          simp only [hbuf]
          exact hafter
      · -- no buffer, or foreign memory
        have hown : ∀ block, d.buf ≠ .own block := fun block hbuf => hcase ⟨block, hbuf⟩
        have hanchors : (DsonObj.dson d children).anchors = d.anchor ++ DsonObj.anchorsAll children := by
          rw [DsonObj.anchors, hkind]
          cases hbuf : d.buf with
          | null => rfl
          | own block => exact absurd hbuf (hown block)
          | view region off => rfl
        rw [hanchors] at hmarks ⊢
        obtain ⟨-, hchildren, hcross⟩ := List.pairwise_append.mp happart
        obtain ⟨h, hread, hmark⟩ := hhead.header_of fun p hp => hmarks p (List.mem_append_left _ hp)
        obtain ⟨d', m', hset, -⟩ :=
          Dson.setHeader_read hread ((h.setDataSize e (DsonObj.extents e (d.inner m₀) children)).toOrder e network)
        have hown' := Dson.setHeader_not_own hset hown
        obtain ⟨hkeeps, -⟩ := Dson.setHeader_keeps (e := e) hset (Header.toOrder_valid
          ((Header.validMark_congr (h.setDataSize_markByteOrder _)).mpr hmark) network)
        have hinside : ∀ p ∈ DsonObj.anchorsAll children, (d'.inner m').Marked e p := by
          intro p hp
          rw [Dson.inner_of_ne hown']
          exact hkeeps p (fun q hq => (hcross q hq p hp).symm) (hmarks p (List.mem_append_right _ hp))
        obtain ⟨bs, m₁, hbs, hlen, hkeeps'⟩ := hall.consigns hdel (by omega) hchildren hinside
        rw [← hlen] at hset
        refine ⟨_, _, DsonObj.ConsignsAll.container hstate hkind hread (Or.inl hmark) hsorted (by omega) hset hbs, ?_, ?_⟩
        · rw [List.length_append, Header.bytes_length, hlen, headerSize]
        · rw [Dson.outer_of_ne hown']
          rw [Dson.inner_of_ne hown'] at hkeeps'
          exact hkeeps.append hkeeps'
  | .string s, m₀, m, ho, _, hlt, _ =>
      let ⟨bs, hbs, hlen⟩ := ho.consigns_string hlt
      ⟨bs, m, hbs m, hlen, .refl e _ m⟩
  | .route r, m₀, m, ho, _, _, _ =>
      let ⟨bs, hbs, hlen⟩ := ho.consigns_route
      ⟨bs, m, hbs m, hlen, .refl e _ m⟩

theorem DsonObj.AllPacked.consigns : ∀ {children : ObjMap} {m₀ m : Mem}, DsonObj.AllPacked e children m₀ →
    DsonObj.AllDeliverable e network children m₀ → DsonObj.extents e m₀ children < 2 ^ 31 →
    (DsonObj.anchorsAll children).Pairwise Anchor.Apart → (∀ p ∈ DsonObj.anchorsAll children, m.Marked e p) →
    ∃ bs m₁, DsonObj.ConsignsAll e network children m bs m₁ ∧ bs.length = DsonObj.extents e m₀ children ∧
      m.Keeps e (DsonObj.anchorsAll children) m₁
  | [], _, m, _, _, _, _, _ => ⟨[], m, DsonObj.consignsAll_nil m, rfl, .refl e _ m⟩
  | (k, o) :: rest, m₀, m, hall, hdel, hlt, happart, hmarks => by
      rw [DsonObj.AllPacked] at hall
      rw [DsonObj.AllDeliverable] at hdel
      rw [DsonObj.extents] at hlt ⊢
      rw [DsonObj.anchorsAll] at happart hmarks ⊢
      obtain ⟨-, hrest, hcross⟩ := List.pairwise_append.mp happart
      obtain ⟨bs, m', hbs, hlen, hkeeps⟩ := hall.1.consigns hdel.1 (by omega) fun p hp =>
        hmarks p (List.mem_append_left _ hp)
      obtain ⟨bs', m₁, hbs', hlen', hkeeps'⟩ := hall.2.consigns hdel.2 (by omega) hrest fun p hp =>
        hkeeps p (fun q hq => (hcross q hq p hp).symm) (hmarks p (List.mem_append_right _ hp))
      exact ⟨bs ++ bs', m₁, hbs.cons hbs' (by omega) k, by rw [List.length_append, hlen, hlen'], hkeeps.append hkeeps'⟩

end

end LeanDson
