import LeanDson.Interrupted

/-! Interrupted loads. `reset_state` makes the object ready and keeps the kind, the header and the block of the
message that was coming. The object then behaves like a cleared one that still has its own header only in front of
the payload, on a big-endian host, and if what has come of the header has changed nothing in that of an empty
container. -/

namespace LeanDson

open ByteSink

section

variable {e : Endian} {junk : Nat → UInt8} {d : Dson} {m : Mem} {h : Header}

/-! ### Containers without children -/

theorem Dson.prepareHeader_blank (hkind : d.dsonKind = .dsonContainer) (hread : d.header m = some h) (network : Bool) :
    ∃ d' m', d.prepareHeader e network [] m = some (d', m') ∧ d.Rewrites m d' m' ∧
      d'.header m' = some ((h.setDataSize e 0).toOrder e network) := by
  have hsize : DsonObj.dataSize e m (.dson d []) = some 0 := by
    rw [DsonObj.dataSize, hkind, DsonObj.dataSizes]
  obtain ⟨d₁, m₁, hset, hread₁, -, -⟩ := Dson.setHeader_read hread (h.setDataSize e 0)
  obtain ⟨d₂, m₂, horder, hread₂, -, -⟩ := Dson.setHeader_read hread₁ ((h.setDataSize e 0).toOrder e network)
  have hprepare : d.prepareHeader e network [] m = some (d₂, m₂) := by
    have hset' : d.setDataSizeInternal e m 0 = some (d₁, m₁) := by
      rw [Dson.setDataSizeInternal, hread]
      exact hset
    have horder' : d₁.headerToOrder e network m₁ = some (d₂, m₂) := by
      rw [Dson.headerToOrder, hread₁]
      exact horder
    have hkind₁ : d₁.dsonKind = .dsonContainer := (Dson.setDataSizeInternal_rewrites hset').dsonKind.trans hkind
    simp only [Dson.prepareHeader, if_pos hkind, hsize, Option.bind_eq_bind, Option.bind_some, hset', hkind₁,
      reduceCtorEq, if_false, horder']
  exact ⟨d₂, m₂, hprepare, Dson.prepareHeader_rewrites hprepare, hread₂⟩

theorem DsonObj.copyTo_childless {σ : Type} [ByteSink σ] (hstate : d.state = .ready) (network : Bool) (m : Mem) (s : σ) :
    (DsonObj.dson d []).copyTo e network m s = (d.prepareCopy e network [] m).bind fun p =>
      p.1.copyHeader (DsonObj.copyFuel e network 1) p.2.1 p.2.2 s := by
  rw [DsonObj.copyTo, show (DsonObj.dson d []).depth = 2 from rfl, DsonObj.copyFuel, Dson.copyInternal, hstate]
  rfl

/-- A container without children is its header. -/
theorem DsonObj.copyTo_blank (hstate : d.state = .ready) (hkind : d.dsonKind = .dsonContainer)
    (hread : d.header m = some h) (network : Bool) :
    ((DsonObj.dson d []).copyTo e network m (BufOut.fresh headerSize)).map Prod.fst = some .ready := by
  obtain ⟨d₁, m₁, hprepare, hrewrites, hread₁⟩ := Dson.prepareHeader_blank hkind hread network
  have hkind₁ := hrewrites.dsonKind.trans hkind
  have hread₂ : Dson.header { d₁ with offset := 0, state := .copyingHeader } m₁ =
      some ((h.setDataSize e 0).toOrder e network) := hread₁
  rw [DsonObj.copyTo_childless hstate, Dson.prepareCopy_eq, hread, Option.bind_some, if_neg (by simp [hkind]),
    Option.bind_some, hprepare, Option.map_some, Option.bind_some, Dson.copyHeader, if_neg (by simp [headerSize]), hread₂]
  simp only [Option.bind_eq_bind, Option.bind_some, List.drop_zero, write_header, Nat.zero_add, lt_irrefl, if_false, hkind₁,
    if_true, Dson.copyData, Dson.mapBegin, Dson.copyMap]
  rfl

/-- A parse of something makes a child. -/
theorem Dson.parseLoop_children_ne_nil {p : BufPtr} {fuel : Nat} {notUsed ptr : Int} (hpos : 0 < notUsed) :
    Dson.parseLoop e p m fuel notUsed ptr [] ≠ some (0, []) := by
  intro hrun
  cases fuel with
  | zero =>
      rw [Dson.parseLoop] at hrun
      split_ifs at hrun
      cases hrun
      omega
  | succ fuel =>
      rw [Dson.parseLoop] at hrun
      split_ifs at hrun
      · cases hrun
        omega
      simp only [Option.bind_eq_bind, Option.bind_eq_some_iff, Option.pure_def] at hrun
      obtain ⟨obj, -, key, -, hrun⟩ := hrun
      split_ifs at hrun
      · cases hrun
        omega
      obtain ⟨size, -, hrun⟩ := Option.bind_eq_some_iff.mp hrun
      split_ifs at hrun
      · cases hrun
        omega
      exact Dson.parseLoop_ne_nil (KeyMap.insertOrAssign_ne_nil _ _ _) hrun rfl

/-! ### Half-loaded objects after the reset -/

theorem DsonObj.uses_single (u : Use) (o : DsonObj) (m : Mem) :
    DsonObj.uses e junk [u] o m = (o.use e junk u m).map fun p => [p.1] := by
  rw [DsonObj.uses]
  cases o.use e junk u m <;> rfl

theorem Dson.Half.resetState (hd : d.Half) : (DsonObj.dson d []).resetState = .dson { d with state := .ready } [] := by
  have hstate : d.state ≠ .error := by
    rcases hd with hd | ⟨block, hd⟩ <;> simp [hd.state]
  rw [DsonObj.resetState, Dson.resetState, if_neg hstate]

theorem Dson.HalfHeader.clear (hd : d.HalfHeader) :
    d.clear = { d with state := .ready, dsonKind := .dsonContainer } := by
  have halloc := hd.alloc
  have hsize := hd.size
  have hiter := hd.iter
  rw [Dson.clear, halloc]
  simp only [Bool.false_eq_true, if_false]
  rw [← halloc, ← hsize, ← hiter]

/-- A cleared object hands over a header and is ready. -/
theorem DsonObj.copied_blank (junk : Nat → UInt8) (hstate : d.state = .ready) (hkind : d.dsonKind = .dsonContainer)
    (hread : d.header m = some h) (network : Bool) : ∃ bs,
      DsonObj.uses e junk [.copy network headerSize] (.dson d []) m = some [.copied .ready bs] := by
  obtain ⟨⟨r, o', m', s'⟩, hcopy, hr⟩ := Option.map_eq_some_iff.mp
    (DsonObj.copyTo_blank (e := e) hstate hkind hread network)
  cases hr
  exact ⟨s'.out, by rw [DsonObj.uses_single, DsonObj.use, hcopy]; rfl⟩

theorem DsonObj.copied_ready {o : DsonObj} {network : Bool} {room : Nat} {bs : Bytes}
    (hseen : DsonObj.uses e junk [.copy network room] o m = some [.copied .ready bs]) :
    ∃ o' m' s', o.copyTo e network m (BufOut.fresh room) = some (.ready, o', m', s') := by
  rw [DsonObj.uses_single] at hseen
  obtain ⟨⟨a, o', m'⟩, huse, heq⟩ := Option.map_eq_some_iff.mp hseen
  cases heq
  obtain ⟨⟨r, o₁, m₁, s₁⟩, hcopy, heq⟩ := Option.map_eq_some_iff.mp huse
  cases heq
  exact ⟨_, _, _, hcopy⟩

/-- A header that can be written can be read. -/
theorem Dson.header_of_setHeader {d' : Dson} {m' : Mem} {h' : Header} (hset : d.setHeader m h' = some (d', m')) :
    ∃ h, d.header m = some h := by
  by_cases hlocal : d.headerIsLocal
  · exact ⟨_, if_pos hlocal⟩
  · rw [Dson.setHeader, if_neg hlocal] at hset
    obtain ⟨t, htail, hset⟩ := Option.bind_eq_some_iff.mp hset
    obtain ⟨⟨h, rest⟩, hread, -⟩ := Option.bind_eq_some_iff.mp hset
    refine ⟨h, ?_⟩
    rw [Dson.header, if_neg hlocal, htail, Option.bind_eq_bind, Option.bind_some, hread]
    rfl

/-- What is emptied is a ready container with the header that it is given. -/
theorem Dson.emptied_cases {children : ObjMap} {o₁ : DsonObj} {m₁ : Mem}
    (hrun : (DsonObj.dson d children).emptied e h m = some (o₁, m₁)) : ∃ d₁, o₁ = .dson d₁ [] ∧
      d₁.state = .ready ∧ d₁.dsonKind = .dsonContainer ∧ d₁.header m₁ = some (h.setDataSize e 0) := by
  obtain ⟨⟨d₁, m₂⟩, hset, heq⟩ := Option.map_eq_some_iff.mp hrun
  cases heq
  obtain ⟨h', hread⟩ := Dson.header_of_setHeader hset
  obtain ⟨d₂, m₂, hset₂, hread₂, hd₂, -⟩ := Dson.setHeader_read hread (h.setDataSize e 0)
  cases hset.symm.trans hset₂
  refine ⟨d₁, rfl, ?_, ?_, hread₂⟩
  · rw [hd₂]
    rfl
  · rw [hd₂]
    rfl

/-- In the middle of the payload the object is told from an empty one by a copy. -/
theorem Dson.HalfData.not_abandoned {block : Bytes} (hd : d.HalfData block) (o : DsonObj) (m : Mem) :
    ¬Abandoned e junk o (.dson d []) m := by
  rintro ⟨h₀, o₁, m₁, -, hemptied, hsame⟩
  obtain ⟨d₁, rfl, hstate₁, hkind₁, hread₁⟩ := Dson.emptied_cases hemptied
  obtain ⟨bs, hclear⟩ := DsonObj.copied_blank (e := e) junk hstate₁ hkind₁ hread₁ true
  obtain ⟨o', m', s', hcopy⟩ := DsonObj.copied_ready ((hsame _ (by simp [Use.Proper])).trans hclear)
  rw [Dson.Half.resetState (Or.inr ⟨block, hd⟩), DsonObj.copyTo_childless rfl] at hcopy
  obtain ⟨⟨d₁, children, m₁⟩, hprep, hcopy⟩ := Option.bind_eq_some_iff.mp hcopy
  obtain ⟨h, d₂, d₃, -, hparse, hrewrites, rfl⟩ := Dson.prepareCopy_cases hprep
  dsimp only at hcopy
  by_cases hkind : d₃.dsonKind = .dsonContainer
  · -- only a parse makes a container, and it has found a record
    rcases hparse with ⟨-, -, hparse⟩ | ⟨-, rfl, -⟩
    · rcases Dson.parseBuf_cases hparse with ⟨rfl, -⟩ | ⟨-, notUsed, hloop, ⟨-, rfl⟩ | ⟨rfl, rfl⟩⟩
      · rw [hrewrites.dsonKind] at hkind
        cases hkind
      · rw [hrewrites.dsonKind] at hkind
        cases hkind.symm.trans hd.kind
      · have hfresh : ∀ q ∈ children, ∃ c : Dson, q.2 = .dson c [] ∧ (c.state = .ready ∨ c.state = .error) :=
          Dson.parseLoop_forall (Q := fun o => ∃ c : Dson, o = .dson c [] ∧ (c.state = .ready ∨ c.state = .error))
            (fun ptr obj hobj => ⟨obj, rfl, (Dson.ofBuf_cases hobj).2.1⟩) hloop (by simp)
        cases children with
        | nil =>
            refine absurd hloop (Dson.parseLoop_children_ne_nil ?_)
            rw [show ({ d with state := .ready } : Dson).bufSize = d.bufSize from rfl, hd.size]
            have := List.length_pos_iff.mpr hd.pos
            omega
        | cons q rest =>
            obtain ⟨k, o⟩ := q
            obtain ⟨c, rfl, hc⟩ := hfresh (k, o) List.mem_cons_self
            exact Dson.copyHeader_children (d := { d₃ with offset := 0, state := .copyingHeader }) rfl hkind hc hcopy rfl
    · rw [hrewrites.dsonKind] at hkind
      cases hkind.symm.trans hd.kind
  · exact Dson.copyHeader_payload (d := { d₃ with offset := 0, state := .copyingHeader }) rfl hkind hcopy rfl

/-- A message that is not a container becomes a single object at the first lookup. -/
theorem DsonObj.get_unparsed (hstate : d.state = .ready) (hkind : d.dsonKind = .dataBufNeedParse)
    (hread : d.header m = some h) (htype : h.dataTypeOf e ≠ TypesMap.dsonContainer) :
    DsonObj.get e (h.keyOf e) (.dson d []) m =
      (Dson.toHost e { d with state := .ready, dsonKind := .oneObjectInDataBuf } m).map
        fun p => (.self, .dson p.1 [], p.2) := by
  have hparse := Dson.parseBuf_other [] (by simp [hstate]) hread htype
  have hkey : Dson.key e { d with state := .ready, dsonKind := .oneObjectInDataBuf } m = some (h.keyOf e) := by
    rw [Dson.key, show Dson.header { d with state := .ready, dsonKind := .oneObjectInDataBuf } m = d.header m from rfl,
      hread]
    rfl
  rw [DsonObj.get, if_pos hkind, hparse]
  simp only [Option.bind_eq_bind, Option.bind_some, hstate, ne_eq, not_true_eq_false, if_false, hkey, if_true]
  cases Dson.toHost e { d with state := .ready, dsonKind := .oneObjectInDataBuf } m <;> rfl

/-- In one of the orders nothing is parsed, unless the mark counts as both. -/
theorem Header.unparsed_order (hnot : ¬(e = .big ∧ h.ValidMark e)) : ∃ network : Bool,
    ¬((h.isHostOrder e = true ∧ network = true) ∨ (h.isNetworkOrder e = true ∧ ¬network = true)) := by
  refine ⟨!h.isHostOrder e, ?_⟩
  cases e with
  | big =>
      have hboth : h.isNetworkOrder .big = h.isHostOrder .big := rfl
      have hhost : h.isHostOrder .big = false := Bool.eq_false_iff.mpr fun hhost => hnot ⟨rfl, Or.inl hhost⟩
      simp [hboth, hhost]
  | little =>
      rintro (⟨hhost, hnet⟩ | ⟨hnet, hhost⟩)
      · simp [hhost] at hnet
      · have hhost' : h.isHostOrder .little = true := by simpa using hhost
        exact Header.marks_little ((Header.isNetworkOrder_iff.mp hnet).symm.trans (Header.isHostOrder_iff.mp hhost'))

/-- On a big-endian host an empty container emits its header, announcing nothing. -/
theorem DsonObj.copyToStream_emptied (hstate : d.state = .ready) (hkind : d.dsonKind = .dsonContainer)
    (hread : d.header m = some (h.setDataSize .big 0)) :
    ((DsonObj.dson d []).copyToStream .big true m).map (fun p => p.2.2) = some (h.setDataSize .big 0).bytes := by
  have horder : (h.setDataSize .big 0).toOrder .big true = h.setDataSize .big 0 := by
    rw [Header.toOrder, if_pos rfl, Header.toNetwork]
    split_ifs <;> rfl
  have hzero : (h.setDataSize .big 0).setDataSize .big 0 = h.setDataSize .big 0 := rfl
  have hsize : DsonObj.dataSize .big m (.dson d []) = some 0 := by
    rw [DsonObj.dataSize, hkind, DsonObj.dataSizes]
  have hself := Dson.setHeader_self hread
  have hconv : d.headerToOrder .big true m = some (d, m) := by
    rw [Dson.headerToOrder, hread, Option.bind_eq_bind, Option.bind_some, horder, hself]
  have hset : d.setDataSizeInternal .big m 0 = some (d, m) := by
    rw [Dson.setDataSizeInternal, hread, Option.bind_eq_bind, Option.bind_some, hzero, hself]
  rw [DsonObj.copyToStream, show (DsonObj.dson d []).depth = 2 from rfl, DsonObj.streamFuel, Dson.streamInternal,
    if_neg (by simp [hstate]), if_neg (by simp [hkind]), Dson.streamKind, hkind]
  simp only [hsize, hconv, Dson.streamHeader, hkind, if_true, hset, hread, Dson.streamMap, Option.bind_eq_bind,
    Option.bind_some, Option.pure_def, Option.map_some, List.append_nil]

/-- A message that is not looked at yet is told from an empty container, unless it is one of a big-endian
host with the same header. -/
theorem Dson.blank_of_uses {d₁ d₂ : Dson} {m₁ m₂ : Mem} {h₀ : Header} (hsame : ∀ us, (∀ u ∈ us, u.Proper e) →
      DsonObj.uses e junk us (.dson d₁ []) m₁ = DsonObj.uses e junk us (.dson d₂ []) m₂) (hstate₁ : d₁.state = .ready)
    (hkind₁ : d₁.dsonKind = .dataBufNeedParse) (hstate₂ : d₂.state = .ready) (hkind₂ : d₂.dsonKind = .dsonContainer)
    (hread₂ : d₂.header m₂ = some (h₀.setDataSize e 0)) :
    e = .big ∧ d₁.header m₁ = some (h₀.setDataSize e 0) ∧ h₀.ValidMark e ∧ h₀.dataTypeOf e = TypesMap.dsonContainer := by
  have hget : ∀ k, (DsonObj.get e k (.dson d₁ []) m₁).map Prod.fst = some .null := by
    intro k
    have hlook := hsame [.look (.get k)] (by simp [Use.Proper])
    rw [DsonObj.uses_single, DsonObj.uses_single, DsonObj.use, DsonObj.use, DsonObj.lookup, DsonObj.lookup,
      get_nothing hstate₂ hkind₂ k m₂] at hlook
    cases hrun : DsonObj.get e k (.dson d₁ []) m₁ with
    | none =>
        rw [hrun] at hlook
        cases hlook
    | some p =>
        rw [hrun] at hlook
        simp only [Option.map_some, Option.some.injEq, List.cons.injEq, Seen.looked.injEq, Looked.found.injEq,
          and_true] at hlook
        rw [Option.map_some, hlook]
  cases hread : d₁.header m₁ with
  | none =>
      have hnone : DsonObj.get e 0 (.dson d₁ []) m₁ = none := by
        rw [DsonObj.get, if_pos hkind₁, Dson.parseBuf, Dson.dataType, if_neg (by simp [hstate₁]), hread]
        rfl
      have hfound := hget 0
      rw [hnone] at hfound
      cases hfound
  | some h =>
      have htype : h.dataTypeOf e = TypesMap.dsonContainer := by
        by_contra htype
        have hfound := hget (h.keyOf e)
        rw [DsonObj.get_unparsed hstate₁ hkind₁ hread htype, Option.map_map] at hfound
        obtain ⟨p, -, hself⟩ := Option.map_eq_some_iff.mp hfound
        cases hself
      have hmark : e = .big ∧ h.ValidMark e := by
        by_contra hnot
        obtain ⟨network, hnone⟩ := Header.unparsed_order hnot
        obtain ⟨bs, hcopied⟩ := DsonObj.copied_blank (e := e) junk hstate₂ hkind₂ hread₂ network
        obtain ⟨o', m', s', hcopy⟩ := DsonObj.copied_ready ((hsame _ (by simp [Use.Proper])).trans hcopied)
        rw [DsonObj.copyTo_childless hstate₁] at hcopy
        obtain ⟨⟨d₁', children, m₁'⟩, hprep, hcopy⟩ := Option.bind_eq_some_iff.mp hcopy
        obtain ⟨h', d₂', d₃, hh', hparse, hrewrites, rfl⟩ := Dson.prepareCopy_cases hprep
        cases hread.symm.trans hh'
        rcases hparse with ⟨-, hcond, -⟩ | ⟨-, rfl, rfl⟩
        · exact hnone hcond
        · refine Dson.copyHeader_payload (d := { d₃ with offset := 0, state := .copyingHeader }) rfl ?_ hcopy rfl
          change d₃.dsonKind ≠ _
          rw [hrewrites.dsonKind, hkind₁]
          simp
      obtain ⟨rfl, hv⟩ := hmark
      have hnet : h.isNetworkOrder .big = true := hv.elim id id
      obtain ⟨p, hstream, hp⟩ := Option.map_eq_some_iff.mp (DsonObj.copyToStream_emptied hstate₂ hkind₂ hread₂)
      have hseen := hsame [.stream true] (by simp [Use.Proper])
      -- the header is emitted as it stands, and perhaps a payload behind it
      have hunparsed : (DsonObj.dson d₁ []).copyToStream .big true m₁ =
          (d₁.streamData m₁ (h.dataSizeOf .big)).map fun payload => (.dson d₁ [], m₁, h.bytes ++ payload) := by
        have hdata : DsonObj.dataSize .big m₁ (.dson d₁ []) = some (h.dataSizeOf .big) := by
          rw [Dson.dataSize_header (by simp [hkind₁]), hread]
          rfl
        rw [DsonObj.copyToStream, show (DsonObj.dson d₁ []).depth = 2 from rfl, DsonObj.streamFuel,
          Dson.streamInternal, if_neg (by simp [hstate₁]), if_pos hkind₁, if_pos rfl, Dson.isNetworkOrder, hread]
        simp only [Option.map_some, Option.bind_eq_bind, Option.bind_some, hnet, if_true, hdata, Dson.streamRaw,
          Dson.streamHeader, hkind₁, reduceCtorEq, if_false, hread, Option.pure_def]
        cases d₁.streamData m₁ (h.dataSizeOf .big) <;> rfl
      rw [DsonObj.uses_single, DsonObj.uses_single, DsonObj.use, DsonObj.use, hstream, hunparsed] at hseen
      have hsame : h = h₀.setDataSize .big 0 := by
        cases hpayload : d₁.streamData m₁ (h.dataSizeOf .big) with
        | none =>
            rw [hpayload] at hseen
            cases hseen
        | some payload =>
            rw [hpayload] at hseen
            simp only [Option.map_some, Option.some.injEq, List.cons.injEq, Seen.streamed.injEq, and_true, hp] at hseen
            exact Header.bytes_inj (List.append_inj (hseen.trans (List.append_nil _).symm)
              (by rw [Header.bytes_length, Header.bytes_length])).1
      rw [hsame] at hv htype
      exact ⟨rfl, by rw [hsame], (Header.validMark_congr rfl).mp hv, by rwa [Header.dataTypeOf_setDataSize] at htype⟩

/-- In the middle of the header the object is told from an empty one, unless it is an empty container of a
big-endian host with the same header. -/
theorem Dson.HalfHeader.abandoned_blank (hd : d.HalfHeader) {o : DsonObj} (hab : Abandoned e junk o (.dson d []) m) :
    e = .big ∧ BlankSoFar e m o (.dson d []) := by
  obtain ⟨h₀, o₁, m₁, hh₀, hemptied, hsame⟩ := hab
  obtain ⟨d₁, rfl, hstate₁, hkind₁, hread₁⟩ := Dson.emptied_cases hemptied
  rw [Dson.Half.resetState (Or.inl hd)] at hsame
  obtain ⟨hbig, hread, hblank⟩ := Dson.blank_of_uses hsame rfl hd.kind hstate₁ hkind₁ hread₁
  exact ⟨hbig, hd.state, h₀, hh₀, hread, hblank⟩

/-! ### An empty container of a big-endian host -/

/-- An empty container that has not been looked at. -/
structure Dson.Unlooked (m : Mem) (h : Header) (d : Dson) : Prop where
  state : d.state = .ready
  kind : d.dsonKind = .dataBufNeedParse
  size : d.bufSize = 0
  read : d.header m = some h
  mark : h.isHostOrder .big = true
  type : h.dataTypeOf .big = TypesMap.dsonContainer
  empty : h.dataSizeOf .big = 0

theorem Dson.Unlooked.parseBuf (hd : d.Unlooked m h) :
    d.parseBuf .big [] m = some ({ d with dsonKind := .dsonContainer }, []) := by
  have htype : d.dataType .big m = some TypesMap.dsonContainer := by
    rw [Dson.dataType, if_neg (by simp [hd.state]), hd.read, Option.map_some, hd.type]
  rw [Dson.parseBuf, htype, hd.size]
  rfl

theorem Dson.Unlooked.openAsContainer (hd : d.Unlooked m h) :
    d.openAsContainer .big [] m = some ({ d with dsonKind := .dsonContainer }, [], m) := by
  rw [Dson.openAsContainer_unparsed hd.kind, hd.parseBuf, Option.map_some]

/-- The header of an empty container is not changed by an emission. -/
theorem Header.blank_prepared (hmark : h.isHostOrder .big = true) (hsize : h.dataSizeOf .big = 0) (network : Bool) :
    h.toOrder .big network = h ∧ h.setDataSize .big 0 = h := by
  have hnet : h.isNetworkOrder .big = true := hmark
  constructor
  · cases network with
    | false => exact if_pos hmark
    | true => exact if_pos hnet
  · have hcell : h.dataSize = ⟨0, 0, 0, 0⟩ := by
      rw [Header.dataSizeOf, Header.field_eq] at hsize
      refine Cell.int32_inj (h.order .big) (hsize.trans ?_)
      cases h.order .big <;> rfl
    rw [Header.setDataSize_zero, ← hcell]

theorem Dson.Unlooked.stream (hd : d.Unlooked m h) (network : Bool) (kind : DsonKind)
    (hkind : kind = .dataBufNeedParse ∨ kind = .dsonContainer) :
    (DsonObj.dson { d with dsonKind := kind } []).copyToStream .big network m =
      some (.dson { d with dsonKind := kind } [], m, h.bytes) := by
  have hnet : h.isNetworkOrder .big = true := hd.mark
  have hread : ∀ kind, Dson.header { d with dsonKind := kind } m = some h := fun _ => hd.read
  obtain ⟨horder, hset⟩ := Header.blank_prepared hd.mark hd.empty network
  have hself : ∀ kind, Dson.setHeader { d with dsonKind := kind } m h = some ({ d with dsonKind := kind }, m) :=
    fun kind => Dson.setHeader_self (hread kind)
  have hstate := hd.state
  rw [DsonObj.copyToStream, show (DsonObj.dson { d with dsonKind := kind } []).depth = 2 from rfl, DsonObj.streamFuel,
    Dson.streamInternal, if_neg (by simp [hstate])]
  rcases hkind with rfl | rfl
  · have hsize : DsonObj.dataSize .big m (.dson { d with dsonKind := .dataBufNeedParse } []) = some 0 := by
      rw [Dson.dataSize_header (by simp), hread, Option.map_some, hd.empty]
    rw [if_pos rfl]
    cases network <;> simp only [Dson.isNetworkOrder, Dson.isHostOrder, hread, Option.map_some, hd.mark, hnet,
      Option.bind_eq_bind, Option.bind_some, if_true, hsize, Dson.streamRaw, Dson.streamHeader, reduceCtorEq, if_false,
      Dson.streamData, Option.pure_def, List.append_nil, Bool.false_eq_true]
  · have hsize : DsonObj.dataSize .big m (.dson { d with dsonKind := .dsonContainer } []) = some 0 := by
      rw [DsonObj.dataSize, DsonObj.dataSizes]
    have hconv : Dson.headerToOrder .big network { d with dsonKind := .dsonContainer } m =
        some ({ d with dsonKind := .dsonContainer }, m) := by
      rw [Dson.headerToOrder, hread, Option.bind_eq_bind, Option.bind_some, horder, hself]
    have hsized : Dson.setDataSizeInternal .big { d with dsonKind := .dsonContainer } m 0 =
        some ({ d with dsonKind := .dsonContainer }, m) := by
      rw [Dson.setDataSizeInternal, hread, Option.bind_eq_bind, Option.bind_some, hset, hself]
    rw [if_neg (by simp), Dson.streamKind]
    simp only [hsize, hconv, Dson.streamHeader, if_true, hsized, hread, Dson.streamMap, Option.bind_eq_bind,
      Option.bind_some, Option.pure_def, List.append_nil]
    cases d.buf <;> simp [Dson.outer, Dson.inner]

/-- Every other use begins with a parse, or clears the object. -/
theorem Dson.Unlooked.use (hd : d.Unlooked m h) {u : Use} (hu : ∀ network, u ≠ .stream network)
    (hproper : u.Proper .big) :
    DsonObj.use .big junk u (.dson d []) m =
      DsonObj.use .big junk u (.dson { d with dsonKind := .dsonContainer } []) m := by
  have hstate := hd.state
  have hkind := hd.kind
  have hcontainer : Dson.openAsContainer .big { d with dsonKind := .dsonContainer } [] m =
      some ({ d with dsonKind := .dsonContainer }, [], m) := rfl
  have hcopy : ∀ {σ : Type} [ByteSink σ] (network : Bool) (s : σ), (DsonObj.dson d []).copyTo .big network m s =
      (DsonObj.dson { d with dsonKind := .dsonContainer } []).copyTo .big network m s := by
    intro σ _ network s
    have hnet : h.isNetworkOrder .big = true := hd.mark
    have hboth : h.isHostOrder .big = true ∧ network = true ∨ h.isNetworkOrder .big = true ∧ ¬network = true := by
      cases network
      · exact Or.inr ⟨hnet, by simp⟩
      · exact Or.inl ⟨hd.mark, rfl⟩
    have hread : Dson.header { d with dsonKind := .dsonContainer } m = some h := hd.read
    rw [DsonObj.copyTo_childless hstate,
      DsonObj.copyTo_childless (d := { d with dsonKind := .dsonContainer }) hstate, Dson.prepareCopy_eq, Dson.prepareCopy_eq,
      hd.read, hread, Option.bind_some, Option.bind_some, if_pos ⟨hkind, hboth⟩, if_neg (by simp), hd.parseBuf]
  cases u with
  | look op =>
      cases op with
      | get key =>
          rw [DsonObj.use, DsonObj.use, DsonObj.lookup, DsonObj.lookup, DsonObj.get, if_pos hkind, hd.parseBuf,
            DsonObj.get, if_neg (by simp)]
      | map =>
          rw [DsonObj.use, DsonObj.use, DsonObj.lookup, DsonObj.lookup, DsonObj.map, DsonObj.map,
            if_neg (by simp [hstate]), if_neg (by simp [hstate]), hd.openAsContainer, hcontainer]
  | emplace key obj =>
      obtain ⟨hkey, k, t, hobj⟩ := hproper
      obtain ⟨obj', hset, -⟩ := hobj.setKey hkey m
      have hinsert : d.insertInternal .big key obj' [] m =
          Dson.insertInternal .big key obj' { d with dsonKind := .dsonContainer } [] m := by
        rw [Dson.insertInternal, Dson.insertInternal, if_neg (by simp [hstate]), if_neg (by simp [hstate])]
        dsimp only
        rw [hd.openAsContainer, hcontainer]
      rw [DsonObj.use, DsonObj.use, DsonObj.emplace, DsonObj.emplace, hset]
      simp only [Option.bind_eq_bind, Option.bind_some, hinsert]
  | copy network room => rw [DsonObj.use, DsonObj.use, hcopy]
  | copyFd network answers => rw [DsonObj.use, DsonObj.use, hcopy]
  | stream network => exact absurd rfl (hu network)
  | load call =>
      have hbegin : d.beginLoad = Dson.beginLoad { d with dsonKind := .dsonContainer } := rfl
      cases call with
      | fd fd =>
          rw [DsonObj.use, DsonObj.use, DsonObj.loadCall, DsonObj.loadCall,
            DsonObj.loadFromFd_start (by simp [hstate]) (by simp [hstate]),
            DsonObj.loadFromFd_start (d := { d with dsonKind := .dsonContainer }) (by simp [hstate]) (by simp [hstate]),
            hbegin]
      | buf window =>
          rw [DsonObj.use, DsonObj.use, DsonObj.loadCall, DsonObj.loadCall,
            DsonObj.loadFromBuf_start (by simp [hstate]) (by simp [hstate]),
            DsonObj.loadFromBuf_start (d := { d with dsonKind := .dsonContainer }) (by simp [hstate]) (by simp [hstate]),
            hbegin]

theorem Dson.Unlooked.uses (hd : d.Unlooked m h) {us : List Use} (hproper : ∀ u ∈ us, u.Proper .big) :
    DsonObj.uses .big junk us (.dson d []) m =
      DsonObj.uses .big junk us (.dson { d with dsonKind := .dsonContainer } []) m := by
  induction us with
  | nil => rfl
  | cons u us ih =>
      obtain ⟨hu, hus⟩ := List.forall_mem_cons.mp hproper
      rw [DsonObj.uses, DsonObj.uses]
      by_cases hstream : ∀ network, u ≠ .stream network
      · rw [hd.use hstream hu]
      · simp only [ne_eq, not_forall, not_not] at hstream
        obtain ⟨network, rfl⟩ := hstream
        have hself := hd.stream network .dataBufNeedParse (Or.inl rfl)
        rw [show ({ d with dsonKind := .dataBufNeedParse } : Dson) = d by rw [← hd.kind]] at hself
        rw [DsonObj.use, DsonObj.use, hself, hd.stream network .dsonContainer (Or.inr rfl)]
        simp only [Option.map_some, Option.bind_eq_bind, Option.bind_some, ih hus]

/-- A load that has been interrupted is abandoned by `reset_state` if and only if the host is big-endian, the
header is not complete, and what there is of it has made it no other than the header of an empty container that the
object had before. -/
theorem abandoned_iff (hheader : d.state ≠ .loadingHeader) (hdata : d.state ≠ .loadingData) {children : ObjMap}
    {calls : List LoadCall} (hcalls : calls ≠ []) {o' : DsonObj} {m' : Mem}
    (hfeed : DsonObj.feed e junk calls (.dson d children) m = some (o', m')) :
    Abandoned e junk (.dson d children) o' m' ↔ e = .big ∧ BlankSoFar e m' (.dson d children) o' := by
  have hnot : d.Half → children = [] := by
    rintro (hd | ⟨block, hd⟩)
    · exact absurd hd.state hheader
    · exact absurd hd.state hdata
  obtain ⟨rfl, d', rfl, hhalf⟩ := Dson.Half.feed hcalls (Or.inr ⟨hheader, hdata⟩) hnot hfeed
  constructor
  · intro hab
    rcases hhalf with hd | ⟨block, hd⟩
    · exact hd.abandoned_blank hab
    · exact absurd hab (hd.not_abandoned _ m')
  · rintro ⟨rfl, hstate, h, hh, hread, hv, htype⟩
    rcases hhalf with hd | ⟨block, hd⟩
    · have hmark : (h.setDataSize .big 0).ValidMark .big := (Header.validMark_congr rfl).mpr hv
      have hun : Dson.Unlooked m' (h.setDataSize .big 0) { d' with state := .ready } :=
        ⟨rfl, hd.kind, hd.size, hread, hmark.elim id id, by rwa [Header.dataTypeOf_setDataSize],
          Header.dataSizeOf_setDataSize_zero .big h⟩
      -- the header that is given back is the one that the object has
      have hemptied : (DsonObj.dson d' []).emptied .big h m' =
          some (.dson { d' with state := .ready, dsonKind := .dsonContainer } [], m') := by
        have hread' : Dson.header { d' with state := .ready, dsonKind := .dsonContainer } m' =
            some (h.setDataSize .big 0) := hread
        rw [DsonObj.emptied, hd.clear, Dson.setHeader_self hread']
        rfl
      refine ⟨h, _, m', hh, hemptied, fun us hproper => ?_⟩
      rw [Dson.Half.resetState (Or.inl hd)]
      exact hun.uses hproper
    · rw [hd.state] at hstate
      cases hstate

end

/-- One byte of a message has arrived at a fresh object. -/
theorem abandoned_iff_sample : ∃ o', DsonObj.feed .little (fun _ => 205) [.buf [1]] (DsonObj.empty .little) ⟨[], []⟩ =
      some (o', ⟨[], []⟩) ∧
    (Abandoned .little (fun _ => 205) (DsonObj.empty .little) o' ⟨[], []⟩ ↔
      Endian.little = .big ∧ BlankSoFar .little ⟨[], []⟩ (DsonObj.empty .little) o') :=
  ⟨_, rfl, abandoned_iff (by decide) (by decide) (List.cons_ne_nil (.buf [1]) [])
    (show DsonObj.feed .little (fun _ => 205) [.buf [1]] (.dson (Dson.uninit (Dson.clearHeader .little)) []) ⟨[], []⟩ =
      some (_, _) from rfl)⟩

/-- After the first byte of a message and `reset_state`, a lookup finds the object itself, which has no data. -/
theorem reset_finds_itself : ∃ o' o'' m', DsonObj.feed .little (fun _ => 205) [.buf [1]] (DsonObj.empty .little) ⟨[], []⟩ =
      some (o', ⟨[], []⟩) ∧ DsonObj.get .little 0 o'.resetState ⟨[], []⟩ = some (.self, o'', m') ∧
    (match o'' with | .dson d _ => d.data = none | _ => False) ∧
    ¬Abandoned .little (fun _ => 205) (DsonObj.empty .little) o' ⟨[], []⟩ := by
  refine ⟨_, _, _, rfl, rfl, rfl, ?_⟩
  rintro ⟨h, o₁, m₁, hh, hemptied, hsame⟩
  cases hh
  cases hemptied
  have hlook := hsame [.look (.get 0)] (by simp [Use.Proper])
  cases hlook

end LeanDson
