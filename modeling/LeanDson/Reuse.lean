import LeanDson.Reloading

/-! Objects that are used again. A cleared object is built up like a fresh one if and only if it does not point
into foreign memory, the mark of its old header is valid and, should nothing be emplaced, the old type is that of
a fresh object. -/

namespace LeanDson

open ByteSink

/-! ### Messages that are a header alone -/

/-- A container without a buffer; its header may be anything. -/
structure Dson.HeaderOnly (d : Dson) : Prop where
  kind : d.dsonKind = .dsonContainer
  alloc : d.wasBufAllocation = false
  buf : d.buf = .null

section

variable {e : Endian} {network : Bool} {d : Dson}

theorem Dson.HeaderOnly.headerIsLocal (hd : d.HeaderOnly) : d.headerIsLocal = true := by
  simp [Dson.headerIsLocal, hd.buf, BufPtr.isNull]

/-- What a header alone is sent as. -/
def Dson.blankHeader (e : Endian) (network : Bool) (d : Dson) : Header :=
  (d.headerBuf.setDataSize e 0).toOrder e network

/-- What is sent of a container without a buffer. -/
theorem Dson.HeaderOnly.stream_children (hd : d.HeaderOnly) (hstate : d.state = .ready) (children : ObjMap) (m : Mem) :
    ((DsonObj.dson d children).copyToStream e network m).map (fun p => p.2.2) =
      (DsonObj.dataSizes e m children).bind fun size =>
        (Dson.streamMap (DsonObj.streamFuel e network (max 1 (DsonObj.depths children))) children m).map fun q =>
          ((d.headerBuf.toOrder e network).setDataSize e size).bytes ++ q.2.2 := by
  have hlocal := hd.headerIsLocal
  have hkind : d.dsonKind ≠ .dataBufNeedParse := by simp [hd.kind]
  have hinner : ∀ h : Header, Dson.inner { d with headerBuf := h } m = m := fun h => by simp only [Dson.inner, hd.buf]
  have hsize : DsonObj.dataSize e m (.dson d children) = DsonObj.dataSizes e m children := by
    simp only [DsonObj.dataSize, hd.kind, Dson.inner, hd.buf]
  rw [DsonObj.copyToStream, DsonObj.depth, DsonObj.streamFuel, Dson.streamInternal_ready hstate hkind,
    Dson.streamKind_container hd.kind, hsize]
  cases DsonObj.dataSizes e m children with
  | none => rfl
  | some size =>
      simp only [Option.bind_eq_bind, Option.bind_some, Dson.headerToOrder_local hlocal]
      rw [Dson.streamHeader, if_pos (by exact hd.kind), Dson.setDataSizeInternal_local (by exact hlocal)]
      simp only [Option.bind_eq_bind, Option.bind_some]
      rw [Dson.header_local (by exact hlocal)]
      simp only [Option.bind_some, Option.pure_def, hinner]
      cases Dson.streamMap (DsonObj.streamFuel e network (max 1 (DsonObj.depths children))) children m <;> rfl

theorem Dson.HeaderOnly.copyToStream (hd : d.HeaderOnly) (hstate : d.state = .ready) (m : Mem) :
    ((DsonObj.dson d []).copyToStream e network m).map (fun p => p.2.2) =
      some ((d.blankHeader e network).bytes ++ []) := by
  rw [hd.stream_children hstate, Dson.blankHeader, Header.setDataSize_zero_toOrder]
  rfl

/-- A container without a buffer is given its size and the order asked for. -/
theorem Dson.HeaderOnly.prepare_children (hd : d.HeaderOnly) (children : ObjMap) (m : Mem) :
    d.prepareCopy e network children m = (DsonObj.dataSizes e m children).map fun size =>
      ({ d with
        headerBuf := (d.headerBuf.setDataSize e size).toOrder e network
        offset := 0
        state := .copyingHeader }, children, m) := by
  have hlocal := hd.headerIsLocal
  have hsize : DsonObj.dataSize e m (.dson d children) = DsonObj.dataSizes e m children := by
    simp only [DsonObj.dataSize, hd.kind, Dson.inner, hd.buf]
  rw [Dson.prepareCopy_eq, Dson.header_local hlocal, Option.bind_some, if_neg (by simp [hd.kind]), Option.bind_some,
    Dson.prepareHeader, if_pos hd.kind, hsize]
  cases DsonObj.dataSizes e m children with
  | none => rfl
  | some size =>
      simp only [Option.bind_eq_bind, Option.bind_some, Dson.setDataSizeInternal_local hlocal]
      rw [if_neg (by simp [hd.kind]), Dson.headerToOrder_local (by exact hlocal)]
      rfl

end

/-! ### Building up -/

theorem DsonObj.dataSizes_isInt32 {e : Endian} {m : Mem} {children : ObjMap} {size : Int}
    (h : DsonObj.dataSizes e m children = some size) : IsInt32 size := by
  cases children with
  | nil =>
      cases h
      decide
  | cons p rest =>
      obtain ⟨k, o⟩ := p
      rw [DsonObj.dataSizes] at h
      obtain ⟨n, -, h⟩ := Option.bind_eq_some_iff.mp h
      obtain ⟨n', -, h⟩ := Option.bind_eq_some_iff.mp h
      cases h
      exact wrap32_isInt32 _

section

variable {e : Endian} {d d₁ d₂ : Dson} {m : Mem}

/-- What calls of `emplace` make of the header. -/
def Dson.inserted (e : Endian) (ops : List Insertion) (d : Dson) : Dson :=
  if ops = [] then d else { d with headerBuf := d.headerBuf.setDataType e TypesMap.dsonContainer }

theorem Dson.inserted_cons (op : Insertion) (ops : List Insertion) (d : Dson) :
    Dson.inserted e ops { d with headerBuf := d.headerBuf.setDataType e TypesMap.dsonContainer } =
      d.inserted e (op :: ops) := by
  rw [Dson.inserted, Dson.inserted, if_neg (List.cons_ne_nil op ops)]
  split_ifs <;> rfl

/-- Calls of `emplace` do the same to two containers without a buffer. -/
theorem Dson.HeaderOnly.insertions (ops : List Insertion) : ∀ {d₁ d₂ : Dson} (children : ObjMap) (m : Mem),
    d₁.HeaderOnly → d₁.state = .ready → d₂.HeaderOnly → d₂.state = .ready →
    Option.Rel (fun p₁ p₂ => p₁.2 = p₂.2 ∧ ∃ children', p₁.1 = .dson (d₁.inserted e ops) children' ∧
        p₂.1 = .dson (d₂.inserted e ops) children')
      (DsonObj.insertions e ops (.dson d₁ children) m) (DsonObj.insertions e ops (.dson d₂ children) m) := by
  induction ops with
  | nil =>
      intro d₁ d₂ children m _ _ _ _
      exact Option.Rel.some ⟨rfl, children, rfl, rfl⟩
  | cons op ops ih =>
      intro d₁ d₂ children m hd₁ hready₁ hd₂ hready₂
      have hinsert : ∀ {d : Dson}, d.HeaderOnly → d.state = .ready → ∀ (key : Int) (obj : DsonObj) (m : Mem),
          d.insertInternal e key obj children m = some ({ d with
            headerBuf := d.headerBuf.setDataType e TypesMap.dsonContainer },
            KeyMap.insertOrAssign key obj children, m) := by
        intro d hd hready key obj m
        rw [Dson.insertInternal_container hd.kind hready, Dson.setDataTypeInternal_local hd.headerIsLocal]
        rfl
      have hnext : ∀ (key : Int) (obj : DsonObj) (m : Mem),
          Option.Rel (fun p₁ p₂ => p₁.2 = p₂.2 ∧ ∃ children', p₁.1 = .dson (d₁.inserted e (op :: ops)) children' ∧
              p₂.1 = .dson (d₂.inserted e (op :: ops)) children')
            (DsonObj.insertions e ops (.dson { d₁ with
              headerBuf := d₁.headerBuf.setDataType e TypesMap.dsonContainer }
              (KeyMap.insertOrAssign key obj children)) m)
            (DsonObj.insertions e ops (.dson { d₂ with
              headerBuf := d₂.headerBuf.setDataType e TypesMap.dsonContainer }
              (KeyMap.insertOrAssign key obj children)) m) := by
        intro key obj m
        rw [← Dson.inserted_cons op ops d₁, ← Dson.inserted_cons op ops d₂]
        exact ih _ m ⟨hd₁.kind, hd₁.alloc, hd₁.buf⟩ hready₁ ⟨hd₂.kind, hd₂.alloc, hd₂.buf⟩ hready₂
      cases op with
      | emplace key obj =>
          simp only [DsonObj.insertions, DsonObj.emplace, Option.bind_eq_bind]
          cases obj.setKey e m key with
          | none => exact Option.Rel.none
          | some p =>
              simp only [Option.bind_some, hinsert hd₁ hready₁, hinsert hd₂ hready₂]
              exact hnext key p.1 p.2
      | emplacePtr obj =>
          simp only [DsonObj.insertions, DsonObj.emplacePtr, Option.bind_eq_bind]
          cases obj.key e m with
          | none => exact Option.Rel.none
          | some key =>
              simp only [Option.bind_some, hinsert hd₁ hready₁, hinsert hd₂ hready₂]
              exact hnext key obj m

theorem Dson.HeaderOnly.get (hd : d.HeaderOnly) (hready : d.state = .ready) (key : Int) (children : ObjMap) (m : Mem) :
    (DsonObj.get e key (.dson d children) m).map (fun p => (p.1, p.2.1.keyToValMap, p.2.2)) =
      match KeyMap.find key children with
      | none => some (.null, children, m)
      | some o => (o.toHost e m).map fun q => (.child key, KeyMap.insertOrAssign key q.1 children, q.2) := by
  rw [DsonObj.get, if_neg (by simp [hd.kind])]
  simp only [Option.bind_eq_bind, Option.bind_some, hready, ne_eq, not_true_eq_false, if_false, hd.kind,
    DsonObj.getInternal]
  cases hfind : KeyMap.find key children with
  | none => rfl
  | some o =>
      simp only [DsonObj.onChild, hfind, Dson.inner, hd.buf, Option.bind_eq_bind, Option.bind_some]
      cases o.toHost e m with
      | none => rfl
      | some q =>
          simp only [Option.bind_some, Option.pure_def, Dson.outer, hd.buf, Option.map_some, DsonObj.keyToValMap]

/-- Two containers without a buffer that have the same children and headers that are read alike. -/
theorem SameContents.of_headers (hd₁ : d₁.HeaderOnly) (hready₁ : d₁.state = .ready) (hd₂ : d₂.HeaderOnly)
    (hready₂ : d₂.state = .ready) (hsame : d₁ = { d₂ with offset := d₁.offset, headerBuf := d₁.headerBuf })
    (hv₁ : d₁.headerBuf.ValidMark e) (hv₂ : d₂.headerBuf.ValidMark e)
    (hkey : d₁.headerBuf.keyOf e = d₂.headerBuf.keyOf e) (htype : d₁.headerBuf.dataTypeOf e = d₂.headerBuf.dataTypeOf e)
    (children : ObjMap) (m : Mem) : SameContents e (.dson d₁ children) (.dson d₂ children) m := by
  have hheader : ∀ {size : Int}, IsInt32 size → ∀ network, (d₁.headerBuf.setDataSize e size).toOrder e network =
      (d₂.headerBuf.setDataSize e size).toOrder e network := by
    intro size hsize network
    have hvalid : ∀ {h : Header}, h.ValidMark e → (h.setDataSize e size).ValidMark e := fun hv =>
      (Header.validMark_congr rfl).mp hv
    refine Header.toOrder_congr (hvalid hv₁) (hvalid hv₂) ?_ ?_ ?_ network
    · rw [Header.dataSizeOf_setDataSize _ hsize, Header.dataSizeOf_setDataSize _ hsize]
    · rw [Header.keyOf_setDataSize, Header.keyOf_setDataSize, hkey]
    · rw [Header.dataTypeOf_setDataSize, Header.dataTypeOf_setDataSize, htype]
  refine ⟨?_, fun key => ?_, @fun σ _ network ss => ?_, fun network => ?_⟩
  · rw [DsonObj.key, Dson.key, Dson.header_local hd₁.headerIsLocal, DsonObj.key, Dson.key,
      Dson.header_local hd₂.headerIsLocal, Option.map_some, Option.map_some, hkey]
  · rw [hd₁.get hready₁, hd₂.get hready₂]
  · have hprepare : d₁.prepareCopy e network children m = d₂.prepareCopy e network children m := by
      rw [hd₁.prepare_children, hd₂.prepare_children]
      cases hsize : DsonObj.dataSizes e m children with
      | none => rfl
      | some size =>
          rw [Option.map_some, Option.map_some, hheader (DsonObj.dataSizes_isInt32 hsize), hsame]
    have hcall : ∀ s : σ, DsonObj.copyCall e network (.dson d₁ children, m) s =
        DsonObj.copyCall e network (.dson d₂ children, m) s := by
      intro s
      simp only [DsonObj.copyCall, DsonObj.copyTo, DsonObj.depth, DsonObj.copyFuel, Dson.copyInternal, hready₁, hready₂,
        hprepare]
    cases ss with
    | nil => rfl
    | cons s rest => rw [DsonObj.copyRun, DsonObj.copyRun, emitRun, emitRun, hcall]
  · rw [hd₁.stream_children hready₁, hd₂.stream_children hready₂]
    cases hsize : DsonObj.dataSizes e m children with
    | none => rfl
    | some size =>
        have hint := DsonObj.dataSizes_isInt32 hsize
        rw [Option.bind_some, Option.bind_some, Header.setDataSize_toOrder hv₁ _, Header.setDataSize_toOrder hv₂ _,
          hheader hint]

theorem Dson.blank_headerOnly (e : Endian) (d : Dson) : (d.blank e).HeaderOnly := ⟨rfl, rfl, rfl⟩

theorem Dson.HeaderOnly.rebuild (hd : d.HeaderOnly) (key : Int) (ops : List Insertion) (children : ObjMap) (m : Mem) :
    (DsonObj.dson d children).rebuild e key ops m =
      DsonObj.insertions e ops (.dson { d with headerBuf := d.headerBuf.setKey e key } children) m := by
  rw [DsonObj.rebuild, DsonObj.setKey, Dson.setKey_local hd.headerIsLocal]
  rfl

/-- Two containers without a buffer are built up alike when their headers are read alike, but for the key. -/
theorem Dson.HeaderOnly.rebuilds (hd₁ : d₁.HeaderOnly) (hready₁ : d₁.state = .ready) (hd₂ : d₂.HeaderOnly)
    (hready₂ : d₂.state = .ready) (hsame : d₁ = { d₂ with offset := d₁.offset, headerBuf := d₁.headerBuf })
    (hv₁ : d₁.headerBuf.ValidMark e) (hv₂ : d₂.headerBuf.ValidMark e) {key : Int} (hk : IsInt32 key)
    {ops : List Insertion} (htype : ops = [] → d₁.headerBuf.dataTypeOf e = d₂.headerBuf.dataTypeOf e) (m : Mem) :
    Option.Rel (fun p₁ p₂ => p₁.2 = p₂.2 ∧ SameContents e p₁.1 p₂.1 p₁.2)
      ((DsonObj.dson d₁ []).rebuild e key ops m) ((DsonObj.dson d₂ []).rebuild e key ops m) := by
  have hkeyed : ∀ {d : Dson}, d.HeaderOnly → Dson.HeaderOnly { d with headerBuf := d.headerBuf.setKey e key } :=
    fun hd => ⟨hd.kind, hd.alloc, hd.buf⟩
  have hheader : ∀ {d : Dson}, d.HeaderOnly → d.state = .ready → d.headerBuf.ValidMark e → ∀ ops,
      (Dson.inserted e ops { d with headerBuf := d.headerBuf.setKey e key }).HeaderOnly ∧
        (Dson.inserted e ops { d with headerBuf := d.headerBuf.setKey e key }).state = .ready ∧
        (Dson.inserted e ops { d with headerBuf := d.headerBuf.setKey e key }).headerBuf.ValidMark e ∧
        (Dson.inserted e ops { d with headerBuf := d.headerBuf.setKey e key }).headerBuf.keyOf e = key ∧
        (Dson.inserted e ops { d with headerBuf := d.headerBuf.setKey e key }).headerBuf.dataTypeOf e =
          if ops = [] then d.headerBuf.dataTypeOf e else TypesMap.dsonContainer := by
    intro d hd hready hv ops
    have hkey := Header.keyOf_setKey (e := e) d.headerBuf hk
    rw [Dson.inserted]
    by_cases hops : ops = []
    · rw [if_pos hops, if_pos hops]
      exact ⟨hkeyed hd, hready, (Header.validMark_congr (Header.setKey_markByteOrder _ _)).mpr hv, hkey,
        Header.dataTypeOf_setKey _ _⟩
    · rw [if_neg hops, if_neg hops]
      refine ⟨⟨hd.kind, hd.alloc, hd.buf⟩, hready, ?_, (Header.keyOf_setDataType _ _).trans hkey,
        Header.dataTypeOf_setDataType _ (by decide)⟩
      exact (Header.validMark_congr (Header.setDataType_markByteOrder _ _)).mpr
        ((Header.validMark_congr (Header.setKey_markByteOrder _ _)).mpr hv)
  have hfields : Dson.inserted e ops { d₁ with headerBuf := d₁.headerBuf.setKey e key } =
      { Dson.inserted e ops { d₂ with headerBuf := d₂.headerBuf.setKey e key } with
        offset := (Dson.inserted e ops { d₁ with headerBuf := d₁.headerBuf.setKey e key }).offset
        headerBuf := (Dson.inserted e ops { d₁ with headerBuf := d₁.headerBuf.setKey e key }).headerBuf } := by
    simp only [Dson.inserted]
    rw [hsame]
    split_ifs <;> rfl
  have hrel := Dson.HeaderOnly.insertions (e := e) ops [] m (hkeyed hd₁) hready₁ (hkeyed hd₂) hready₂
  rw [hd₁.rebuild, hd₂.rebuild]
  revert hrel
  generalize DsonObj.insertions e ops (.dson { d₁ with headerBuf := d₁.headerBuf.setKey e key } []) m = r₁
  generalize DsonObj.insertions e ops (.dson { d₂ with headerBuf := d₂.headerBuf.setKey e key } []) m = r₂
  intro hrel
  cases hrel with
  | none => exact Option.Rel.none
  | @some p₁ p₂ h =>
      obtain ⟨hmem, children', ho₁, ho₂⟩ := h
      obtain ⟨honly₁, hstate₁, hvalid₁, hkey₁, htype₁⟩ := hheader hd₁ hready₁ hv₁ ops
      obtain ⟨honly₂, hstate₂, hvalid₂, hkey₂, htype₂⟩ := hheader hd₂ hready₂ hv₂ ops
      refine Option.Rel.some ⟨hmem, ?_⟩
      rw [ho₁, ho₂]
      refine SameContents.of_headers honly₁ hstate₁ honly₂ hstate₂ hfields hvalid₁ hvalid₂ (hkey₁.trans hkey₂.symm) ?_ _ _
      rw [htype₁, htype₂]
      split_ifs with hops
      · exact htype hops
      · rfl

/-- What the object was before it was cleared does not matter to what is built up, but for its mark and, when
nothing is emplaced, its type. -/
theorem Dson.Unattached.rebuilds (hd : d.Unattached) (hv : d.headerBuf.ValidMark e) {key : Int} (hk : IsInt32 key)
    {ops : List Insertion} (htype : ops = [] → d.headerBuf.dataTypeOf e = TypesMap.empty) (children : ObjMap) (m : Mem) :
    Rebuilds e (.dson d children) m key ops := by
  have hfresh : (Dson.clearHeader e).ValidMark e := by cases e <;> decide
  have hfreshType : (Dson.clearHeader e).dataTypeOf e = TypesMap.empty := by cases e <;> decide
  rw [Rebuilds, DsonObj.clear, hd.clear_eq e, DsonObj.empty]
  refine Dson.HeaderOnly.rebuilds (d.blank_headerOnly e) rfl ⟨rfl, rfl, rfl⟩ rfl rfl hv hfresh hk (fun hops => ?_) m
  exact (htype hops).trans hfreshType.symm

/-- The insertion that tells objects apart. -/
def Insertion.fresh (e : Endian) : Insertion := .emplace 0 (.empty e)

theorem DsonObj.insertions_fresh (hkind : d.dsonKind = .dsonContainer) (hready : d.state = .ready) (children : ObjMap)
    (m : Mem) : DsonObj.insertions e [.fresh e] (.dson d children) m =
      (d.setDataTypeInternal e m TypesMap.dsonContainer).map fun p =>
        (.dson p.1 (KeyMap.insertOrAssign 0 (.dson { Dson.uninit (Dson.clearHeader e) with
          headerBuf := (Dson.clearHeader e).setKey e 0 } []) children), p.2) := by
  have hkey : (DsonObj.empty e).setKey e m 0 =
      some (.dson { Dson.uninit (Dson.clearHeader e) with headerBuf := (Dson.clearHeader e).setKey e 0 } [], m) := rfl
  simp only [DsonObj.insertions, Insertion.fresh, DsonObj.emplace, hkey, Option.bind_eq_bind, Option.bind_some,
    Dson.insertInternal_container hkind hready]
  cases d.setDataTypeInternal e m TypesMap.dsonContainer <;> rfl

/-- The header of a view does not change when bytes are written elsewhere in the object. -/
theorem Dson.Rewrites.header_view {d d' : Dson} {m m' : Mem} (h : d.Rewrites m d' m') {r : Region} {off : Nat}
    (hbuf : d.buf = .view r off) (halloc : d.wasBufAllocation = false) (m'' : Mem) : d'.header m'' = d.header m'' := by
  have hview := h.buf
  rw [hbuf] at hview
  have hbuf' : d'.buf = d.buf := by
    rw [hbuf]
    generalize d'.buf = p at hview
    cases hview
    rfl
  exact Dson.header_foreign d d' (by rw [hbuf]; rfl) hbuf' halloc (h.wasBufAllocation.trans halloc) m''

/-- A view that is built up without a write to the memory around it has the key that this memory holds. -/
theorem Rebuilds.key_foreign {children : ObjMap} {key : Int} (hr : Rebuilds e (.dson d children) m key [.fresh e])
    (hk : IsInt32 key) {r : Region} {off : Nat} (hbuf : d.clear.buf = .view r off) : d.clear.key e m = some key := by
  have hempty : (Dson.uninit (Dson.clearHeader e)).HeaderOnly := ⟨rfl, rfl, rfl⟩
  have hfresh : ∃ d₂ children₂, (DsonObj.empty e).rebuild e key [.fresh e] m = some (.dson d₂ children₂, m) ∧
      d₂.key e m = some key := by
    rw [DsonObj.empty, hempty.rebuild, DsonObj.insertions_fresh rfl rfl, Dson.setDataTypeInternal_local rfl]
    refine ⟨_, _, rfl, ?_⟩
    rw [Dson.key, Dson.header_local rfl, Option.map_some, Header.keyOf_setDataType]
    exact congrArg some (Header.keyOf_setKey _ hk)
  obtain ⟨d₂, children₂, hrun₂, hkey₂⟩ := hfresh
  rw [Rebuilds, hrun₂, DsonObj.clear] at hr
  cases hrun : (DsonObj.dson d.clear []).rebuild e key [.fresh e] m with
  | none =>
      rw [hrun] at hr
      cases hr
  | some p₁ =>
      rw [hrun] at hr
      cases hr with
      | some h =>
          obtain ⟨hmem, hsame⟩ := h
          rw [DsonObj.rebuild] at hrun
          obtain ⟨⟨o, m'⟩, hset, hrun⟩ := Option.bind_eq_some_iff.mp hrun
          obtain ⟨⟨d', m''⟩, hset, heq⟩ := Option.bind_eq_some_iff.mp hset
          cases heq
          have hfirst := Dson.setKey_rewrites hset
          dsimp only at hrun
          rw [DsonObj.insertions_fresh (hfirst.dsonKind.trans rfl) (hfirst.state.trans rfl)] at hrun
          obtain ⟨⟨d'', m₃⟩, htype, rfl⟩ := Option.map_eq_some_iff.mp hrun
          have hheader := (hfirst.trans (Dson.setDataTypeInternal_rewrites htype)).header_view hbuf rfl m
          have hkey := hsame.key
          dsimp only at hmem hkey
          rw [hmem, DsonObj.key, DsonObj.key, hkey₂, Dson.key, hheader] at hkey
          exact hkey

/-- An object over foreign memory is not built up like a fresh one. -/
theorem Dson.Unattached.of_rebuilds {children : ObjMap} (hown : ∀ block, d.buf = .own block → d.wasBufAllocation = true)
    (hr : ∀ key, IsInt32 key → Rebuilds e (.dson d children) m key [.fresh e]) : d.Unattached := by
  by_contra hnot
  rw [Dson.Unattached, not_or, Bool.not_eq_true] at hnot
  obtain ⟨halloc, hbuf⟩ := hnot
  cases hview : d.buf with
  | null => exact hbuf hview
  | own block => exact absurd (hown block hview) (by simp [halloc])
  | view r off =>
      have hclear : d.clear.buf = .view r off := by simp [Dson.clear, halloc, hview]
      have hzero := (hr 0 (by decide)).key_foreign (by decide) hclear
      rw [(hr 1 (by decide)).key_foreign (by decide) hclear] at hzero
      cases hzero

/-- A window of four bytes takes the mark of a container without a buffer. -/
theorem Dson.HeaderOnly.run_mark (hd : d.HeaderOnly) (hready : d.state = .ready) {children : ObjMap} {size : Int}
    (hsize : DsonObj.dataSizes e m children = some size) (network : Bool) :
    ((DsonObj.dson d children).copyRun e network m [BufOut.fresh 4]).map (fun p => (p.1, p.2.2)) =
      some (.inProcess, (d.headerBuf.toOrder e network).markByteOrder.bytes ++ []) := by
  have hmark : ((d.headerBuf.setDataSize e size).toOrder e network).markByteOrder =
      (d.headerBuf.toOrder e network).markByteOrder := by
    have hhost : (d.headerBuf.setDataSize e size).isHostOrder e = d.headerBuf.isHostOrder e := rfl
    have hnet : (d.headerBuf.setDataSize e size).isNetworkOrder e = d.headerBuf.isNetworkOrder e := rfl
    cases network <;> simp only [Header.toOrder, Header.toHost, Header.toNetwork, hhost, hnet] <;> split_ifs <;> rfl
  have hwrite : ∀ h : Header, write (BufOut.fresh 4) (h.bytes.drop 0) = (some 4, (⟨0, h.markByteOrder.bytes⟩ : BufOut)) :=
    fun _ => rfl
  have hlocal : ∀ h : Header, Dson.header { d with headerBuf := h, offset := 0, state := .copyingHeader } m = some h :=
    fun h => Dson.header_local (d := { d with headerBuf := h, offset := 0, state := .copyingHeader }) hd.headerIsLocal m
  have hcopy : ∀ (copy : DsonObj → Mem → BufOut → Option (Result × DsonObj × Mem × BufOut)) (h : Header),
      Dson.copyHeader copy { d with headerBuf := h, offset := 0, state := .copyingHeader } children m (BufOut.fresh 4) =
        some (.inProcess, .dson { d with headerBuf := h, offset := 4, state := .copyingHeader } children, m,
          ⟨0, h.markByteOrder.bytes⟩) := by
    intro copy h
    rw [Dson.copyHeader, if_neg (by simp [headerSize]), hlocal]
    simp only [Option.bind_eq_bind, Option.bind_some, hwrite]
    rfl
  simp only [DsonObj.copyRun, emitRun, DsonObj.copyCall, DsonObj.copyTo, DsonObj.depth, DsonObj.copyFuel,
    Dson.copyInternal, hready, hd.prepare_children, hsize, Option.map_some, Option.bind_eq_bind, Option.bind_some, hcopy,
    if_true, Option.pure_def, written, hmark]

/-- An object with another mark than the two of the emitters is not built up like a fresh one. -/
theorem Rebuilds.validMark (hd : d.Unattached) {children : ObjMap}
    (hr : Rebuilds e (.dson d children) m 0 [.fresh e]) : d.headerBuf.ValidMark e := by
  have hrun : ∀ {d : Dson}, d.HeaderOnly → d.state = .ready → ∃ d' children',
      (DsonObj.dson d []).rebuild e 0 [.fresh e] m = some (.dson d' children', m) ∧ d'.HeaderOnly ∧ d'.state = .ready ∧
        d'.headerBuf.markByteOrder = d.headerBuf.markByteOrder ∧ ∃ size, DsonObj.dataSizes e m children' = some size := by
    intro d hd hready
    rw [hd.rebuild, DsonObj.insertions_fresh (d := { d with headerBuf := d.headerBuf.setKey e 0 }) hd.kind hready,
      Dson.setDataTypeInternal_local (d := { d with headerBuf := d.headerBuf.setKey e 0 }) hd.headerIsLocal]
    exact ⟨_, _, rfl, ⟨hd.kind, hd.alloc, hd.buf⟩, hready, rfl, _, rfl⟩
  obtain ⟨d₁, children₁, hrun₁, honly₁, hready₁, hmark₁, size₁, hsize₁⟩ := hrun (d.blank_headerOnly e) rfl
  obtain ⟨d₂, children₂, hrun₂, honly₂, hready₂, hmark₂, size₂, hsize₂⟩ :=
    hrun (d := Dson.uninit (Dson.clearHeader e)) ⟨rfl, rfl, rfl⟩ rfl
  rw [Rebuilds, DsonObj.clear, hd.clear_eq e, DsonObj.empty, hrun₁, hrun₂] at hr
  cases hr with
  | some h =>
      have hmarks := h.2.run true [BufOut.fresh 4]
      have hfresh : (Dson.clearHeader e).ValidMark e := by cases e <;> decide
      have hvalid : d₂.headerBuf.ValidMark e := (Header.validMark_congr hmark₂).mpr hfresh
      dsimp only at hmarks
      rw [honly₁.run_mark hready₁ hsize₁, honly₂.run_mark hready₂ hsize₂, Option.some_inj, Prod.mk.injEq,
        List.append_nil, List.append_nil, Header.toOrder_mark hvalid, if_pos rfl] at hmarks
      exact (Header.validMark_congr hmark₁).mp (Header.validMark_of_toOrder (Cell.bytes_inj hmarks.2))

/-- An object of another type than a fresh one does not become like it by `set_key`. -/
theorem Rebuilds.dataType (hd : d.Unattached) (hv : d.headerBuf.ValidMark e) {children : ObjMap}
    (hr : Rebuilds e (.dson d children) m 0 []) : d.headerBuf.dataTypeOf e = TypesMap.empty := by
  have hfresh : (Dson.clearHeader e).ValidMark e := by cases e <;> decide
  have hfreshType : (Dson.clearHeader e).dataTypeOf e = TypesMap.empty := by cases e <;> decide
  have hempty : (Dson.uninit (Dson.clearHeader e)).HeaderOnly := ⟨rfl, rfl, rfl⟩
  have hsent : ∀ {d : Dson}, d.HeaderOnly → d.state = .ready → d.headerBuf.ValidMark e → ∃ h : Header,
      ((DsonObj.dson { d with headerBuf := d.headerBuf.setKey e 0 } []).copyToStream e true m).map (fun p => p.2.2) =
        some (h.bytes ++ []) ∧ h.dataTypeOf e = d.headerBuf.dataTypeOf e := by
    intro d hd hready hv
    have hkeyed : Dson.HeaderOnly { d with headerBuf := d.headerBuf.setKey e 0 } := ⟨hd.kind, hd.alloc, hd.buf⟩
    refine ⟨_, hkeyed.copyToStream hready m, ?_⟩
    have hvalid : ((d.headerBuf.setKey e 0).setDataSize e 0).ValidMark e :=
      (Header.validMark_congr (Header.setDataSize_markByteOrder _ _)).mpr
        ((Header.validMark_congr (Header.setKey_markByteOrder _ _)).mpr hv)
    exact (Header.dataTypeOf_toOrder hvalid true).trans
      ((Header.dataTypeOf_setDataSize _ _).trans (Header.dataTypeOf_setKey _ _))
  obtain ⟨h₁, hsent₁, htype₁⟩ := hsent (d.blank_headerOnly e) rfl hv
  obtain ⟨h₂, hsent₂, htype₂⟩ := hsent hempty rfl hfresh
  rw [Rebuilds, DsonObj.clear, hd.clear_eq e, DsonObj.empty, (d.blank_headerOnly e).rebuild, hempty.rebuild] at hr
  cases hr with
  | some h =>
      have hstream := h.2.stream true
      dsimp only at hstream
      rw [hsent₁, hsent₂, Option.some_inj, List.append_nil, List.append_nil] at hstream
      rw [← hfreshType]
      exact htype₁.symm.trans ((congrArg (Header.dataTypeOf e) (Header.bytes_inj hstream)).trans htype₂)

end

/-- A cleared object loads a message with data like a fresh one if and only if it does not point at a foreign header
that announces another size, and every message if and only if it does not point into foreign memory. It is built up
like a fresh one by emplacing something if and only if, besides, its mark is valid, and by emplacing something or
nothing if and only if its type is that of a fresh object, too. -/
theorem reuse_iff (e : Endian) (junk : Nat → UInt8) {d : Dson}
    (hown : ∀ block, d.buf = .own block → d.wasBufAllocation = true) (children : ObjMap) (m : Mem) :
    (∀ h body, IsMessage e h body → body ≠ [] → (Reloads e junk (.dson d children) m h body ↔ d.Takes e m h)) ∧
      ((∀ h body, IsMessage e h body → Reloads e junk (.dson d children) m h body) ↔ d.Unattached) ∧
      ((∀ key ops, IsInt32 key → ops ≠ [] → Rebuilds e (.dson d children) m key ops) ↔
        d.Unattached ∧ d.headerBuf.ValidMark e) ∧
      ((∀ key ops, IsInt32 key → Rebuilds e (.dson d children) m key ops) ↔
        d.Unattached ∧ d.headerBuf.ValidMark e ∧ d.headerBuf.dataTypeOf e = TypesMap.empty) := by
  have hone : (∀ key ops, IsInt32 key → ops ≠ [] → Rebuilds e (.dson d children) m key ops) →
      d.Unattached ∧ d.headerBuf.ValidMark e := by
    intro hr
    have hd := Dson.Unattached.of_rebuilds hown fun key hk => hr key [.fresh e] hk (List.cons_ne_nil _ _)
    exact ⟨hd, (hr 0 [.fresh e] (by decide) (List.cons_ne_nil _ _)).validMark hd⟩
  refine ⟨fun h body hm hne => reloads_iff hm hne children,
    ⟨fun hr => Dson.Unattached.of_reloads hr, fun hd h body hm => hd.reloads e junk children m hm⟩,
    ⟨hone, ?_⟩, ⟨fun hr => ?_, ?_⟩⟩
  · rintro ⟨hd, hv⟩ key ops hk hne
    exact hd.rebuilds hv hk (fun hnil => absurd hnil hne) children m
  · obtain ⟨hd, hv⟩ := hone fun key ops hk _ => hr key ops hk
    exact ⟨hd, hv, (hr 0 [] (by decide)).dataType hd hv⟩
  · rintro ⟨hd, hv, htype⟩ key ops hk
    exact hd.rebuilds hv hk (fun _ => htype) children m

/-- A block that has been loaded is cleared, loaded again with an empty container, and built up. -/
theorem reuse_iff_sample :
    Reloads .little (fun _ => 205) (.dson (Dson.loaded (containerHeader 0 36) (recordsBytes twoRecords)) []) ⟨[], []⟩
        (containerHeader 3 0) [] ∧
      Rebuilds .little (.dson (Dson.loaded (containerHeader 0 36) (recordsBytes twoRecords)) []) ⟨[], []⟩ 9
        [.fresh .little] := by
  have hreuse := reuse_iff .little (fun _ => 205) (d := Dson.loaded (containerHeader 0 36) (recordsBytes twoRecords))
    (fun _ _ => rfl) [] ⟨[], []⟩
  exact ⟨hreuse.2.1.mpr (Or.inl rfl) _ _ (by decide),
    hreuse.2.2.1.mpr ⟨Or.inl rfl, by decide⟩ 9 _ (by decide) (List.cons_ne_nil _ _)⟩

/-- A number with its header, in memory outside the objects. -/
def viewedNumber : Mem := ⟨[], [1, 0, 0, 0, 4, 0, 0, 0, 5, 0, 0, 0, 3, 0, 0, 0, 7, 0, 0, 0]⟩

/-- A view that has been cleared takes an empty container for a message that breaks off, and its new key is
written over the old one. -/
theorem cleared_view_differs : ∃ d, Dson.ofBuf .little (.view .external 0) viewedNumber = some d ∧
    IsMessage .little (containerHeader 3 0) [] ∧
    ¬Reloads .little (fun _ => 205) (.dson d []) viewedNumber (containerHeader 3 0) [] ∧
    ¬Rebuilds .little (.dson d []) viewedNumber 9 [] := by
  refine ⟨{ Dson.overBuf (.view .external 0) with dsonKind := .oneObjectInDataBuf }, by decide +kernel, by decide,
    fun hr => ?_, fun hr => ?_⟩
  · obtain ⟨o₁, o₂, hrun₁, hrun₂, hsame⟩ := hr.stream []
    have htype := hsame.dataType
    have hstate₁ : (DsonObj.loadFromStream .little (fun _ => 205) ((containerHeader 3 0).bytes ++ ([] ++ []))
        (DsonObj.dson { Dson.overBuf (.view .external 0) with dsonKind := .oneObjectInDataBuf } []).clear
        viewedNumber).bind (fun p => p.1.dataType .little p.2.1) = some TypesMap.empty := by decide +kernel
    have hstate₂ : (DsonObj.loadFromStream .little (fun _ => 205) ((containerHeader 3 0).bytes ++ ([] ++ []))
        (.empty .little) viewedNumber).bind (fun p => p.1.dataType .little p.2.1) = some TypesMap.dsonContainer := by
      decide +kernel
    rw [hrun₁, Option.bind_some] at hstate₁
    rw [hrun₂, Option.bind_some, ← htype, hstate₁] at hstate₂
    cases hstate₂
  · have hmem₁ : ((DsonObj.dson { Dson.overBuf (.view .external 0) with dsonKind := .oneObjectInDataBuf } []).clear.rebuild
        .little 9 [] viewedNumber).map Prod.snd ≠ some viewedNumber := by decide +kernel
    have hmem₂ : ((DsonObj.empty .little).rebuild .little 9 [] viewedNumber).map Prod.snd = some viewedNumber := by
      decide +kernel
    rw [Rebuilds] at hr
    revert hr hmem₁ hmem₂
    generalize (DsonObj.dson { Dson.overBuf (.view .external 0) with dsonKind := .oneObjectInDataBuf } []).clear.rebuild
      .little 9 [] viewedNumber = r₁
    generalize (DsonObj.empty .little).rebuild .little 9 [] viewedNumber = r₂
    intro hr hmem₁ hmem₂
    cases hr with
    | none => cases hmem₂
    | some h => exact hmem₁ ((congrArg some h.1).trans hmem₂)

end LeanDson
