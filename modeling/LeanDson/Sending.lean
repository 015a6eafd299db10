import LeanDson.Unopened

/-! Copies of a message. One that has to be turned is parsed on the way out; one that arrived in the order is sent
on under its own header, and one without a payload is a header alone. -/

namespace LeanDson

variable {e : Endian}

/-! ### Copies of a message -/

/-- A parse on the way out comes to the same as a parse before. -/
theorem Dson.prepareCopy_parse {d d' : Dson} {children children' : ObjMap} {m : Mem} {h : Header} {network : Bool}
    (hread : d.header m = some h) (hkind : d.dsonKind = .dataBufNeedParse) (hparses : h.Parses e false network)
    (hparse : d.parseBuf e children m = some (d', children')) (hkind' : d'.dsonKind ≠ .dataBufNeedParse)
    (hread' : d'.header m = some h) : d.prepareCopy e network children m = d'.prepareCopy e network children' m := by
  rw [prepareCopy_eq, prepareCopy_eq, hread, hread', Option.bind_some, Option.bind_some,
    if_pos ⟨hkind, (parses_iff network h).mpr hparses⟩, if_neg (by simp [hkind']), hparse]

theorem Dson.copyInternal_ready {σ : Type} [ByteSink σ] {copy : DsonObj → Mem → σ → Option (Result × DsonObj × Mem × σ)}
    {d : Dson} {children : ObjMap} {m : Mem} {s : σ} {network : Bool} (hstate : d.state = .ready) :
    d.copyInternal e copy network children m s =
      (d.prepareCopy e network children m).bind fun p => p.1.copyHeader copy p.2.1 p.2.2 s := by
  simp only [Dson.copyInternal, hstate]
  rfl

/-- What a copy leaves when its first step leaves a message that says the same. -/
theorem Dson.Restated.copyHeader {σ : Type} [ByteSink σ]
    {copy : DsonObj → Mem → σ → Option (Result × DsonObj × Mem × σ)} {body body' : Bytes} {d d₁ : Dson}
    {children : ObjMap} {m m' : Mem} {s s' : σ} {res : Result} {o' : DsonObj}
    (hre : Dson.Restated e body d children body' d₁) (hstate : d₁.state = .copyingHeader)
    (hrun : d₁.copyHeader copy children m s = some (res, o', m', s')) :
    m' = m ∧ ∃ body' d', o' = .dson d' children ∧ Dson.Restated e body d children body' d' := by
  obtain ⟨d', hprog, rfl, rfl⟩ := copyHeader_progressed (fun hk => absurd hk hre.unopened.kind) hrun
  exact ⟨rfl, body', d', rfl, hre.trans (hre.unopened.restated_progressed hprog (by simp [hstate]))⟩

/-- What a copy leaves of a message: a message that says the same, or a parsed container that has been copied. -/
def Dson.Sent (e : Endian) (body : Bytes) (d : Dson) (children : ObjMap) (m : Mem) (o' : DsonObj) (m' : Mem) : Prop :=
  (m' = m ∧ ∃ body' d', o' = .dson d' children ∧ Dson.Restated e body d children body' d') ∨
    (d.state = .ready ∧ ∃ recs idx, recordsBytes recs = body ∧ (∀ r ∈ recs, Record.Fits e r) ∧
      (recs.map (Record.key e)).Nodup ∧ d.headerBuf.dataTypeOf e = TypesMap.dsonContainer ∧
      Dson.Opened e recs idx { d with dsonKind := .dsonContainer } (views e 0 recs []) ∧
      Dson.Reopened e recs idx { d with dsonKind := .dsonContainer } (views e 0 recs []) m o' m')

namespace Dson.Unopened

variable {body : Bytes} {d : Dson} {children : ObjMap} (h : d.Unopened e body children) {m m' : Mem} {o' : DsonObj}
  {network : Bool}

include h

theorem sent_progressed {d' : Dson} (hd : d.Progressed d') (hstate : d.state ≠ .error) (m : Mem) :
    Dson.Sent e body d children m (.dson d' children) m :=
  Or.inl ⟨rfl, body, d', rfl, h.restated_progressed hd hstate⟩

theorem sent_self (m : Mem) : Dson.Sent e body d children m (.dson d children) m :=
  Or.inl ⟨rfl, body, d, rfl, h.restated_self⟩

/-- A message that has been looked at as one object, and is not. -/
theorem restated_kind (kind : DsonKind) (hkind : kind ≠ .dsonContainer) :
    Dson.Restated e body d children body { d with dsonKind := kind } :=
  ⟨h.update rfl rfl h.buf hkind rfl rfl id, rfl, rfl, rfl, Iff.rfl⟩

/-- A message of records under different keys is parsed. -/
theorem opens (hstate : d.state ≠ .error) (htype : d.headerBuf.dataTypeOf e = TypesMap.dsonContainer)
    (hparseable : d.Parseable e m) : ∃ recs idx, recordsBytes recs = body ∧ (∀ r ∈ recs, Record.Fits e r) ∧
      (recs.map (Record.key e)).Nodup ∧ d.parseBuf e children m = some ({ d with dsonKind := .dsonContainer }, views e 0 recs []) ∧
      Dson.Opened e recs idx { d with dsonKind := .dsonContainer } (views e 0 recs []) := by
  obtain ⟨-, recs', hfits', hbytes', hnodup⟩ := hparseable
  rw [h.unparsed hstate] at hbytes'
  rcases h.parseBuf m with ⟨recs, idx, hbytes, hfits, -, -, hparse, hopen⟩ | ⟨-, -, hnot, -⟩ | ⟨herror | hne, -⟩
  · have hsame := recordsBytes_inj hfits hfits' (hbytes.trans hbytes'.symm)
    subst hsame
    exact ⟨recs, idx, hbytes, hfits, hnodup, hparse, hopen⟩
  · exact absurd ⟨recs', hfits', hbytes'⟩ hnot
  · exact absurd herror hstate
  · exact absurd htype hne

/-- A message whose parts survive a copy is parsed into a container that does. -/
theorem copyable_opened {stream : Bool} {recs : List Record} {idx : Int → Nat} (hfits : ∀ r ∈ recs, Record.Fits e r)
    (hbytes : recordsBytes recs = body) (hkind : d.dsonKind = .dataBufNeedParse) (hstate : d.state = .ready)
    (htype : d.headerBuf.dataTypeOf e = TypesMap.dsonContainer)
    (hopen : Dson.Opened e recs idx { d with dsonKind := .dsonContainer } (views e 0 recs []))
    (hturns : d.headerBuf.Turns e network) (hparts : ∀ key r, d.Part e children m key r → r.Copies e stream network) :
    Dson.Copyable e { d with dsonKind := .dsonContainer } (views e 0 recs []) m stream network := by
  refine ⟨fun _ _ hs => ?_, fun _ h' hread => ?_, fun key c cs r hfind hr _ => ⟨fun _ => views_proceeds hfind, fun _ => ?_⟩⟩
  · cases hstate.symm.trans hs
  · rw [header_local hopen.headerIsLocal] at hread
    cases hread
    exact hturns
  · exact hparts key r (h.part hfits hbytes hkind (by simp [hstate]) htype (.child rfl hfind hr))

/-- The first step of a copy of a single object converts it. -/
theorem prepareCopy_single (hkind : d.dsonKind = .oneObjectInDataBuf) (hready : d.state = .ready)
    (hconv : d.Convertible e m network) : ∃ body' d', Dson.Restated e body d children body' d' ∧
      d'.state = .copyingHeader ∧ d.prepareCopy e network children m = some (d', children, m) := by
  obtain ⟨body', h', hto, hrestated, -⟩ := h.toOrder hconv
  have hprog : Dson.Progressed { d with headerBuf := h', buf := .own body' }
      { d with headerBuf := h', buf := .own body', offset := 0, state := .copyingHeader } := ⟨rfl, fun hs => by cases hs⟩
  refine ⟨body', _, hrestated.trans (hrestated.unopened.restated_progressed hprog (by simp [hready])), rfl, ?_⟩
  rw [prepareCopy_eq, header_local h.headerIsLocal, Option.bind_some, if_neg (by simp [hkind]), Option.bind_some,
    Dson.prepareHeader, if_neg (by simp [hkind])]
  simp only [Option.bind_eq_bind, Option.bind_some]
  rw [if_pos hkind, hto]
  rfl

/-- The first step of a copy of what is sent on as it lies turns the header. -/
theorem prepareCopy_raw (hkind : d.dsonKind = .dataBufNeedParse) (hne : d.state ≠ .error)
    (hparses : ¬d.headerBuf.Parses e false network) (hturns : d.headerBuf.Turns e network) (m : Mem) :
    ∃ d', Dson.Restated e body d children body d' ∧ d'.state = .copyingHeader ∧
      d.prepareCopy e network children m = some (d', children, m) := by
  have hturned := h.headerToOrder hturns
  have hprog : Dson.Progressed { d with headerBuf := d.headerBuf.toOrder e network }
      { d with headerBuf := d.headerBuf.toOrder e network, offset := 0, state := .copyingHeader } :=
    ⟨rfl, fun hs => by cases hs⟩
  refine ⟨_, hturned.trans (hturned.unopened.restated_progressed hprog hne), rfl, ?_⟩
  rw [prepareCopy_eq, header_local h.headerIsLocal, Option.bind_some,
    if_neg fun hc => hparses ((parses_iff network _).mp hc.2), Option.bind_some, Dson.prepareHeader,
    if_neg (by simp [hkind])]
  simp only [Option.bind_eq_bind, Option.bind_some]
  rw [if_neg (by simp [hkind]), headerToOrder_local h.headerIsLocal]
  rfl

section

variable {σ : Type} [ByteSink σ] {fuel : Nat} {s s' : σ} {res : Result}

/-- A call of an incremental emitter on a message. -/
theorem copyInternal (hcopy : d.Copyable e children m false network)
    (hrun : d.copyInternal e (DsonObj.copyFuel e network fuel) network children m s = some (res, o', m', s')) :
    Dson.Sent e body d children m o' m' := by
  have hread := header_local h.headerIsLocal m
  cases hstate : d.state with
  | ready =>
      have hne : d.state ≠ .error := by simp [hstate]
      simp only [Dson.copyInternal, hstate, Option.bind_eq_bind, Option.bind_eq_some_iff] at hrun
      obtain ⟨⟨d₁, children₁, m₁⟩, hprepare, hrun⟩ := hrun
      unfold Dson.Copyable at hcopy
      cases hkind : d.dsonKind with
      | dsonContainer => exact absurd hkind h.kind
      | oneObjectInDataBuf =>
          rw [hkind] at hcopy
          obtain ⟨body', d', hrestated, hs, hprepared⟩ := h.prepareCopy_single (m := m) hkind hstate (hcopy hstate)
          rw [hprepared] at hprepare
          cases hprepare
          exact Or.inl (hrestated.copyHeader hs hrun)
      | dataBufNeedParse =>
          rw [hkind] at hcopy
          have hraw := hcopy hstate _ hread
          by_cases hparses : d.headerBuf.Parses e false network
          · rw [if_pos hparses] at hraw
            by_cases htype : d.headerBuf.dataTypeOf e = TypesMap.dsonContainer
            · rw [if_pos htype] at hraw
              obtain ⟨recs, idx, hbytes, hfits, hnodup, hparse, hopen⟩ := h.opens hne htype hraw.2.1
              rw [prepareCopy_parse hread hkind hparses hparse (by simp) (header_local hopen.headerIsLocal m)] at hprepare
              have hwhole : Dson.copyInternal e (DsonObj.copyFuel e network fuel) network
                  { d with dsonKind := .dsonContainer } (views e 0 recs []) m s = some (res, o', m', s') := by
                rw [copyInternal_ready (d := { d with dsonKind := .dsonContainer }) hstate, hprepare]
                exact hrun
              exact Or.inr ⟨hstate, recs, idx, hbytes, hfits, hnodup, htype, hopen, hopen.copyInternal
                (h.copyable_opened hfits hbytes hkind hstate htype hopen hraw.1 hraw.2.2) hwhole⟩
            · rw [if_neg htype] at hraw
              have hparse := Dson.parseBuf_other children hne hread htype
              have hone := h.restated_kind .oneObjectInDataBuf (by simp)
              rw [prepareCopy_parse hread hkind hparses hparse (by simp)
                (header_local hone.unopened.headerIsLocal m)] at hprepare
              obtain ⟨body', d', hrestated, hs, hprepared⟩ := hone.unopened.prepareCopy_single (m := m) rfl hstate hraw
              rw [hprepared] at hprepare
              cases hprepare
              exact Or.inl ((hone.trans hrestated).copyHeader hs hrun)
          · rw [if_neg hparses] at hraw
            obtain ⟨d', hrestated, hs, hprepared⟩ := h.prepareCopy_raw hkind hne hparses hraw m
            rw [hprepared] at hprepare
            cases hprepare
            exact Or.inl (hrestated.copyHeader hs hrun)
  | copyingHeader =>
      simp only [Dson.copyInternal, hstate] at hrun
      obtain ⟨d', hprog, rfl, rfl⟩ := copyHeader_progressed (by exact fun hk => absurd hk h.kind) hrun
      exact h.sent_progressed hprog (by simp [hstate]) _
  | copyingData =>
      simp only [Dson.copyInternal, hstate] at hrun
      obtain ⟨d', hprog, rfl, rfl⟩ := copyData_progressed (fun hk => absurd hk h.kind) hrun
      exact h.sent_progressed hprog (by simp [hstate]) _
  | loadingHeader | loadingData | error =>
      simp only [Dson.copyInternal, hstate] at hrun
      cases hrun
      exact h.sent_self m

end

/-- The stream emitter on a message. -/
theorem streamInternal {fuel : Nat} {bs : Bytes} (hcopy : d.Copyable e children m true network)
    (hrun : d.streamInternal e (DsonObj.streamFuel e network fuel) network children m = some (o', m', bs)) :
    Dson.Sent e body d children m o' m' := by
  have hread := header_local h.headerIsLocal m
  by_cases hstate : d.state = .ready
  · have hne : d.state ≠ .error := by simp [hstate]
    unfold Dson.Copyable at hcopy
    cases hkind : d.dsonKind with
    | dsonContainer => exact absurd hkind h.kind
    | oneObjectInDataBuf =>
        rw [hkind] at hcopy
        rw [streamInternal_ready hstate (by simp [hkind])] at hrun
        obtain ⟨body', h', hto, hrestated, -⟩ := h.toOrder (hcopy hstate)
        obtain ⟨d', hto', rfl⟩ := streamKind_one_cases hkind hrun
        rw [hto] at hto'
        cases hto'
        exact Or.inl ⟨rfl, body', _, rfl, hrestated⟩
    | dataBufNeedParse =>
        rw [hkind] at hcopy
        have hraw := hcopy hstate _ hread
        rw [streamInternal_unread hstate hkind hread] at hrun
        split_ifs at hrun with hparses
        · rw [if_pos hparses] at hraw
          by_cases htype : d.headerBuf.dataTypeOf e = TypesMap.dsonContainer
          · rw [if_pos htype] at hraw
            obtain ⟨recs, idx, hbytes, hfits, hnodup, hparse, hopen⟩ := h.opens hne htype hraw.2.1
            have hwhole : Dson.streamInternal e (DsonObj.streamFuel e network fuel) network
                { d with dsonKind := .dsonContainer } (views e 0 recs []) m = some (o', m', bs) := by
              rw [streamInternal_ready (d := { d with dsonKind := .dsonContainer }) hstate (by simp)]
              rwa [hparse, Option.bind_some] at hrun
            exact Or.inr ⟨hstate, recs, idx, hbytes, hfits, hnodup, htype, hopen, hopen.streamInternal
              (h.copyable_opened hfits hbytes hkind hstate htype hopen hraw.1 hraw.2.2) hwhole⟩
          · rw [if_neg htype] at hraw
            rw [Dson.parseBuf_other children hne hread htype, Option.bind_some] at hrun
            have hone := h.restated_kind .oneObjectInDataBuf (by simp)
            obtain ⟨body', h', hto, hrestated, -⟩ := hone.unopened.toOrder (m := m) hraw
            obtain ⟨d', hto', rfl⟩ := streamKind_one_cases rfl hrun
            rw [hto] at hto'
            cases hto'
            exact Or.inl ⟨rfl, body', _, rfl, hone.trans hrestated⟩
        · obtain ⟨size, -, hrun⟩ := Option.bind_eq_some_iff.mp hrun
          obtain ⟨rfl, rfl⟩ := streamRaw_same (by simp [hkind]) hrun
          exact h.sent_self _
  · rw [Dson.streamInternal, if_pos hstate] at hrun
    cases hrun
    exact h.sent_self m

end Dson.Unopened

/-! ### Messages without a payload -/

namespace Dson.Hollow

variable {d : Dson} {children : ObjMap} (h : d.Hollow children) {m m' : Mem} {o' : DsonObj} {network : Bool}

include h

theorem headerIsLocal : d.headerIsLocal = true := by simp [Dson.headerIsLocal, h.buf, BufPtr.isNull]

theorem data : d.data = none := by rw [Dson.data, if_pos (by simp [h.buf, BufPtr.isNull])]

theorem asRecord : d.asRecord e m = some ⟨d.headerBuf, []⟩ := by
  rw [Dson.asRecord, header_local h.headerIsLocal, Option.map_some, h.data]
  simp

theorem progressed {d' : Dson} (hd : d.Progressed d') : d'.Hollow children :=
  ⟨by rw [hd.fields, h.kind], fun hs => h.state (hd.state hs), by rw [hd.fields, h.alloc], by rw [hd.fields, h.buf], h.nil⟩

theorem setHeader (h' : Header) : Dson.Hollow { d with headerBuf := h' } children := ⟨h.kind, h.state, h.alloc, h.buf, h.nil⟩

/-- Without a payload only the header is converted, and only to host order. -/
theorem toOrder (hallowed : d.Convertible e m network) :
    ∃ h', d.toOrder e network m = some ({ d with headerBuf := h' }, m) ∧ h'.keyOf e = d.headerBuf.keyOf e ∧
      h'.dataTypeOf e = d.headerBuf.dataTypeOf e ∧
      (network = false → (converterTo e network (d.headerBuf.dataTypeOf e)).isSome → h'.inOrder e network) ∧
      Dson.toOrder e network { d with headerBuf := h' } m = some ({ d with headerBuf := h' }, m) := by
  have hread := header_local h.headerIsLocal m
  have htype : d.dataType e m = some (d.headerBuf.dataTypeOf e) := by
    rw [Dson.dataType, if_neg h.state, hread]
    rfl
  cases network with
  | false =>
      have hrun := Dson.toHost_header hread e h.state
      rw [← show d.toOrder e false m = d.toHost e m from if_neg (by simp)] at hrun
      by_cases hin : d.headerBuf.isHostOrder e
      · rw [if_pos hin] at hrun
        exact ⟨d.headerBuf, hrun, rfl, rfl, fun _ _ => hin, hrun⟩
      rw [if_neg hin] at hrun
      cases hconv : toHostOrder e (d.headerBuf.dataTypeOf e) with
      | none =>
          rw [hconv] at hrun
          refine ⟨d.headerBuf, hrun, rfl, rfl, fun _ hsome => ?_, hrun⟩
          have hnone : converterTo e false (d.headerBuf.dataTypeOf e) = none := hconv
          rw [hnone] at hsome
          cases hsome
      | some c =>
          rw [hconv] at hrun
          have hv : d.headerBuf.ValidMark e := by
            rcases ((hallowed _ h.asRecord).resolve_left (by simp)).1 with hs | hs | hs
            · exact absurd hs hin
            · have hsome : converterTo e false (d.headerBuf.dataTypeOf e) = some c := hconv
              rw [hsome] at hs
              cases hs
            · exact hs
          have hto : d.toHostInternal e c m = some ({ d with headerBuf := d.headerBuf.toOrder e false }, m) := by
            rw [Dson.toHostInternal, headerToOrder_local h.headerIsLocal]
            simp only [Option.bind_eq_bind, Option.bind_some, Dson.convertData, (h.setHeader _).data]
          have hhost : (d.headerBuf.toOrder e false).isHostOrder e := Header.inOrder_toOrder hv false
          refine ⟨_, hrun.trans hto, Header.keyOf_toOrder hv false, Header.dataTypeOf_toOrder hv false,
            fun _ _ => hhost, ?_⟩
          rw [Dson.toOrder, if_neg (by simp), Dson.toHost, Dson.isHostOrder, header_local (h.setHeader _).headerIsLocal]
          simp only [Option.map_some, Option.bind_eq_bind, Option.bind_some]
          rw [if_pos hhost]
          rfl
  | true =>
      have hrun : d.toOrder e true m = some (d, m) := by
        rw [Dson.toOrder, if_pos rfl, Dson.toNetwork, Dson.isNetworkOrder, hread, htype]
        simp only [Option.map_some, Option.bind_eq_bind, Option.bind_some, Dson.toNetworkInternal, h.data]
        split_ifs
        · rfl
        · cases toNetworkOrder e (d.headerBuf.dataTypeOf e) <;> rfl
      exact ⟨d.headerBuf, hrun, rfl, rfl, fun hf => Bool.noConfusion hf, hrun⟩

/-- The first step of a copy gives the header its size and turns it. -/
theorem prepareCopy (hturns : d.headerBuf.Turns e network) (m : Mem) :
    ∃ h', h'.keyOf e = d.headerBuf.keyOf e ∧ h'.dataTypeOf e = d.headerBuf.dataTypeOf e ∧
      d.prepareCopy e network children m =
        some ({ d with headerBuf := h', offset := 0, state := .copyingHeader }, children, m) := by
  have hsize : DsonObj.dataSize e m (.dson d children) = some 0 := by
    rw [DsonObj.dataSize, h.kind, h.nil]
    rfl
  have hset := setDataSizeInternal_local h.headerIsLocal m e 0
  have hturn := @headerToOrder_local { d with headerBuf := d.headerBuf.setDataSize e 0 } h.headerIsLocal m e network
  refine ⟨_, hturns.setDataSize_key 0, hturns.setDataSize_dataType 0, ?_⟩
  rw [prepareCopy_eq, header_local h.headerIsLocal, Option.bind_some, if_neg (by simp [h.kind]), Option.bind_some,
    Dson.prepareHeader, if_pos h.kind, hsize]
  simp only [Option.bind_eq_bind, Option.bind_some, hset]
  rw [if_neg (by simp [h.kind]), hturn]
  rfl

/-- What a copy leaves: nothing, under a header that says the same. -/
theorem copyInternal {σ : Type} [ByteSink σ] {copy : DsonObj → Mem → σ → Option (Result × DsonObj × Mem × σ)} {s s' : σ}
    {res : Result} (hcopy : d.Copyable e children m false network)
    (hrun : d.copyInternal e copy network children m s = some (res, o', m', s')) :
    m' = m ∧ ∃ d', o' = .dson d' children ∧ d'.Hollow children ∧ d'.headerBuf.keyOf e = d.headerBuf.keyOf e ∧
      d'.headerBuf.dataTypeOf e = d.headerBuf.dataTypeOf e := by
  unfold Dson.Copyable at hcopy
  rw [h.kind] at hcopy
  have hsame : ∀ {d' : Dson}, d.Progressed d' → d'.Hollow children ∧ d'.headerBuf.keyOf e = d.headerBuf.keyOf e ∧
      d'.headerBuf.dataTypeOf e = d.headerBuf.dataTypeOf e :=
    fun hd => ⟨h.progressed hd, by rw [hd.fields], by rw [hd.fields]⟩
  cases hstate : d.state with
  | ready =>
      rw [copyInternal_ready hstate] at hrun
      obtain ⟨⟨d₁, children₁, m₁⟩, hprepare, hrun⟩ := Option.bind_eq_some_iff.mp hrun
      obtain ⟨h', hkey, htype, hprepared⟩ := h.prepareCopy (hcopy.2.1 hstate _ (header_local h.headerIsLocal m)) m
      rw [hprepared] at hprepare
      cases hprepare
      obtain ⟨d', hprog, rfl, rfl⟩ := copyHeader_progressed (by exact fun _ => h.nil) hrun
      have hstart : Dson.Progressed { d with headerBuf := h' }
          { d with headerBuf := h', offset := 0, state := .copyingHeader } := ⟨rfl, fun hs => by cases hs⟩
      refine ⟨rfl, d', rfl, ((h.setHeader _).progressed hstart).progressed hprog, ?_, ?_⟩
      · rw [hprog.fields]
        exact hkey
      · rw [hprog.fields]
        exact htype
  | copyingHeader =>
      simp only [Dson.copyInternal, hstate] at hrun
      obtain ⟨d', hprog, rfl, rfl⟩ := copyHeader_progressed (by exact fun _ => h.nil) hrun
      exact ⟨rfl, d', rfl, hsame hprog⟩
  | copyingData =>
      simp only [Dson.copyInternal, hstate] at hrun
      obtain ⟨d', hprog, rfl, rfl⟩ := copyData_progressed (by exact fun _ => h.nil) hrun
      exact ⟨rfl, d', rfl, hsame hprog⟩
  | loadingHeader | loadingData | error =>
      simp only [Dson.copyInternal, hstate] at hrun
      cases hrun
      exact ⟨rfl, d, rfl, h, rfl, rfl⟩

theorem streamInternal {copy : DsonObj → Mem → Option (DsonObj × Mem × Bytes)} {bs : Bytes}
    (hcopy : d.Copyable e children m true network)
    (hrun : d.streamInternal e copy network children m = some (o', m', bs)) :
    m' = m ∧ ∃ d', o' = .dson d' children ∧ d'.Hollow children ∧ d'.headerBuf.keyOf e = d.headerBuf.keyOf e ∧
      d'.headerBuf.dataTypeOf e = d.headerBuf.dataTypeOf e := by
  unfold Dson.Copyable at hcopy
  rw [h.kind] at hcopy
  by_cases hstate : d.state = .ready
  · have hturns := hcopy.2.1 hstate _ (header_local h.headerIsLocal m)
    rw [streamInternal_ready hstate (by simp [h.kind])] at hrun
    obtain ⟨size, d₁, m₁, d₂, m₂, children', inside, bs', -, hheader, hset, hmap, rfl, rfl⟩ :=
      streamKind_container_cases h.kind hrun
    rw [headerToOrder_local h.headerIsLocal] at hheader
    cases hheader
    rw [setDataSizeInternal_local (h.setHeader _).headerIsLocal] at hset
    cases hset
    have hnil := h.nil
    subst hnil
    cases hmap
    rw [Dson.outer_inner]
    exact ⟨rfl, _, rfl, h.setHeader _, (Header.keyOf_setDataSize _ _).trans hturns.key,
      (Header.dataTypeOf_setDataSize _ _).trans hturns.dataType⟩
  · rw [Dson.streamInternal, if_pos hstate] at hrun
    cases hrun
    exact ⟨rfl, d, rfl, h, rfl, rfl⟩

/-- Lookups and iterations find nothing. -/
theorem get {key : Int} {found : Found} (hrun : DsonObj.get e key (.dson d children) m = some (found, o', m')) :
    o' = .dson d children := by
  have hnil := h.nil
  subst hnil
  by_cases hstate : d.state = .ready
  · rw [get_nothing hstate h.kind] at hrun
    cases hrun
    rfl
  · rw [DsonObj.get, if_neg (by simp [h.kind])] at hrun
    simp only [Option.bind_eq_bind, Option.bind_some, if_pos hstate] at hrun
    cases hrun
    rfl

theorem map (hrun : DsonObj.map e (.dson d children) m = some (o', m')) : o' = .dson d children := by
  have hnil := h.nil
  subst hnil
  rw [DsonObj.map] at hrun
  split_ifs at hrun with hstate
  · cases hrun
    rfl
  · simp only [Dson.openAsContainer, h.kind, Option.bind_eq_bind, Option.bind_some, DsonObj.childrenToHost,
      Dson.outer_inner, Option.pure_def] at hrun
    cases hrun
    rfl

end Dson.Hollow

end LeanDson
