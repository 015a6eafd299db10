import LeanDson.Opened

/-! Messages that have not been opened. A parse makes views of the records; a lookup or an iteration opens the
message, or converts it in one piece. -/

namespace LeanDson

variable {e : Endian}

/-! ### The children that a parse makes -/

/-- The view that a parse makes of a record. -/
theorem IsLast.sitsAt {recs before after : List Record} {r : Record} {k : Int} (hlast : IsLast e k recs before r after) :
    Dson.SitsAt e recs before.length r (r.view e (0 + (recordsBytes before).length)) where
  record := by
    rw [hlast.1, List.getElem?_append_right (le_refl _), Nat.sub_self]
    rfl
  alloc := rfl
  buf := by
    have htake : recs.take before.length = before := by rw [hlast.1, List.take_left]
    rw [htake, Nat.zero_add]
    rfl
  size := rfl
  state := by simp [Record.view, Dson.overBuf, Dson.uninit]
  kind := by
    rw [Record.view]
    split_ifs with htype <;> simp [htype]
  hollow := by
    rw [Record.view]
    split_ifs <;> simp

/-- The views that a parse makes are seated. -/
theorem views_seated (e : Endian) (recs : List Record) :
    ∃ idx, ∀ q ∈ views e 0 recs [], Seated e recs idx q := by
  have hchoice : ∀ k, ∃ i, ∀ o, KeyMap.find k (views e 0 recs []) = some o →
      ∃ c r, o = .dson c [] ∧ r.key e = k ∧ Dson.SitsAt e recs i r c := by
    intro k
    rcases find_views e k 0 recs [] with ⟨before, r, after, hlast, hfind⟩ | ⟨-, hfind⟩
    · refine ⟨before.length, fun o ho => ?_⟩
      rw [hfind] at ho
      cases ho
      exact ⟨_, r, rfl, hlast.2.1, hlast.sitsAt⟩
    · refine ⟨0, fun o ho => ?_⟩
      rw [hfind] at ho
      cases ho
  choose idx hidx using hchoice
  refine ⟨idx, fun q hq => ?_⟩
  obtain ⟨c, r, ho, hkey, hsits⟩ := hidx q.1 q.2 (KeyMap.find_of_mem (sorted_views e 0 recs KeyMap.sorted_nil) hq)
  exact ⟨c, r, ho, hkey, hsits⟩

/-- No view is a parsed container when it is made. -/
theorem views_proceeds {recs : List Record} {k : Int} {c : Dson} {cs : ObjMap}
    (hfind : KeyMap.find k (views e 0 recs []) = some (.dson c cs)) : c.Proceeds := by
  rcases find_views e k 0 recs [] with ⟨before, r, after, -, hview⟩ | ⟨-, hview⟩
  · rw [hview] at hfind
    cases hfind
    intro hkind
    rw [Record.view] at hkind
    split_ifs at hkind
  · rw [hview] at hfind
    cases hfind

/-! ### Messages as they came -/

/-- A message that has not been parsed into children, or that turned out not to be one. -/
structure Dson.Unopened (e : Endian) (body : Bytes) (d : Dson) (children : ObjMap) : Prop where
  kind : d.dsonKind ≠ .dsonContainer
  alloc : d.wasBufAllocation = true
  buf : d.buf = .own body
  bufSize : d.bufSize = body.length
  limit : body.length ≤ 2 ^ 30
  size : d.headerBuf.dataSizeOf e = body.length
  nil : d.state ≠ .error → children = []

namespace Dson.Unopened

variable {body : Bytes} {d : Dson} {children : ObjMap} (h : d.Unopened e body children)

include h

theorem headerIsLocal : d.headerIsLocal = true := by simp [Dson.headerIsLocal, h.alloc]

theorem data (hstate : d.state ≠ .error) : d.data = some 0 := by
  rw [Dson.data, if_neg (by simp [hstate, h.buf, BufPtr.isNull]), if_pos h.alloc]

theorem unparsed (hstate : d.state ≠ .error) (m : Mem) : d.unparsed m = body := by
  rw [Dson.unparsed, h.data hstate, h.bufSize]
  simp [BufPtr.tail, h.buf]

theorem asRecord (hstate : d.state ≠ .error) (m : Mem) : d.asRecord e m = some ⟨d.headerBuf, body⟩ := by
  rw [Dson.asRecord, header_local h.headerIsLocal, Option.map_some, h.data hstate, h.size]
  simp [BufPtr.tail, h.buf]

/-- The same message under a header that announces as much, over as many bytes. -/
theorem update {d' : Dson} {body' : Bytes} (halloc : d'.wasBufAllocation = d.wasBufAllocation)
    (hbufSize : d'.bufSize = d.bufSize) (hbuf : d'.buf = .own body') (hkind : d'.dsonKind ≠ .dsonContainer)
    (hlen : body'.length = body.length) (hsize : d'.headerBuf.dataSizeOf e = d.headerBuf.dataSizeOf e)
    (hstate : d'.state ≠ .error → d.state ≠ .error) : d'.Unopened e body' children where
  kind := hkind
  alloc := halloc.trans h.alloc
  buf := hbuf
  bufSize := by rw [hbufSize, h.bufSize, hlen]
  limit := hlen ▸ h.limit
  size := by rw [hsize, h.size, hlen]
  nil := fun hs => h.nil (hstate hs)

theorem progressed {d' : Dson} (hd : d.Progressed d') (hstate : d.state ≠ .error) : d'.Unopened e body children :=
  h.update (by rw [hd.fields]) (by rw [hd.fields]) (by rw [hd.fields, h.buf]) (by rw [hd.fields]; exact h.kind) rfl
    (by rw [hd.fields]) fun _ => hstate

/-- What a parse makes of a message: a parsed container, or one object that may be in error. -/
theorem parseBuf (m : Mem) :
    (∃ recs idx, recordsBytes recs = body ∧ (∀ r ∈ recs, Record.Fits e r) ∧
        d.headerBuf.dataTypeOf e = TypesMap.dsonContainer ∧ d.state ≠ .error ∧
        d.parseBuf e children m = some ({ d with dsonKind := .dsonContainer }, views e 0 recs []) ∧
        Dson.Opened e recs idx { d with dsonKind := .dsonContainer } (views e 0 recs [])) ∨
      (d.state ≠ .error ∧ d.headerBuf.dataTypeOf e = TypesMap.dsonContainer ∧ ¬IsRecords e body ∧
        ∃ map', d.parseBuf e children m = some ({ d with state := .error }, map')) ∨
      ((d.state = .error ∨ d.headerBuf.dataTypeOf e ≠ TypesMap.dsonContainer) ∧
        d.parseBuf e children m = some ({ d with dsonKind := .oneObjectInDataBuf }, children)) := by
  by_cases hstate : d.state = .error
  · refine Or.inr (Or.inr ⟨Or.inl hstate, ?_⟩)
    rw [Dson.parseBuf, Dson.dataType, if_pos hstate]
    rfl
  by_cases htype : d.headerBuf.dataTypeOf e = TypesMap.dsonContainer
  · rcases Dson.parseBuf_spec (m := m) h.buf h.alloc h.bufSize hstate htype h.limit children with
      ⟨recs, hfits, hbytes, hrun⟩ | ⟨hnot, map', hrun⟩
    · obtain ⟨idx, hseated⟩ := views_seated e recs
      rw [h.nil hstate] at hrun ⊢
      refine Or.inl ⟨recs, idx, hbytes, hfits, htype, hstate, hrun, rfl, hstate, h.alloc, ?_, htype, hfits,
        sorted_views e 0 recs KeyMap.sorted_nil, hseated⟩
      rw [hbytes]
      exact h.buf
    · exact Or.inr (Or.inl ⟨hstate, htype, hnot, map', hrun⟩)
  · exact Or.inr (Or.inr ⟨Or.inr htype, Dson.parseBuf_other children hstate (header_local h.headerIsLocal m) htype⟩)

/-- The children that a parse makes are the records in the message. -/
theorem part {recs : List Record} (hfits : ∀ r ∈ recs, Record.Fits e r) (hbytes : recordsBytes recs = body)
    (hkind : d.dsonKind = .dataBufNeedParse) (hstate : d.state ≠ .error)
    (htype : d.headerBuf.dataTypeOf e = TypesMap.dsonContainer) {m : Mem} {k : Int} {r' : Record}
    (hp : Dson.Part e { d with dsonKind := .dsonContainer } (views e 0 recs []) m k r') : d.Part e children m k r' := by
  cases hp with
  | record hkind' => cases hkind'
  | child _ hfind hread =>
      rcases find_views e k 0 recs [] with ⟨before, r, after, hlast, hview⟩ | ⟨-, hview⟩
      · rw [hview] at hfind
        cases hfind
        have hinner : (Dson.inner { d with dsonKind := .dsonContainer } m).owner = recordsBytes recs := by
          rw [Dson.inner, h.buf, hbytes]
        rw [hlast.sitsAt.asRecord hinner (hlast.sitsAt.fits hfits)] at hread
        cases hread
        exact .record hkind (header_local h.headerIsLocal m) htype hfits (hbytes.trans (h.unparsed hstate m).symm) hlast
      · rw [hview] at hfind
        cases hfind

end Dson.Unopened

/-- What a call on a message that stays unopened leaves: a message that says the same. -/
structure Dson.Restated (e : Endian) (body : Bytes) (d : Dson) (children : ObjMap) (body' : Bytes) (d' : Dson) : Prop where
  unopened : d'.Unopened e body' children
  key : d'.headerBuf.keyOf e = d.headerBuf.keyOf e
  type : d'.headerBuf.dataTypeOf e = d.headerBuf.dataTypeOf e
  length : body'.length = body.length
  state : d'.state = .error ↔ d.state = .error

/-- An object in error has no type, and no converter is found for it. -/
theorem Dson.toOrder_error {d : Dson} (hstate : d.state = .error) {m : Mem} {h : Header} (hread : d.header m = some h)
    (network : Bool) : d.toOrder e network m = some (d, m) := by
  have htype : d.dataType e m = some TypesMap.empty := if_pos hstate
  cases network with
  | false =>
      rw [Dson.toOrder, if_neg (by simp), Dson.toHost, Dson.isHostOrder, hread, htype]
      simp only [Option.map_some, Option.bind_eq_bind, Option.bind_some]
      split_ifs <;> rfl
  | true =>
      rw [Dson.toOrder, if_pos rfl, Dson.toNetwork, Dson.isNetworkOrder, hread, htype]
      simp only [Option.map_some, Option.bind_eq_bind, Option.bind_some]
      split_ifs <;> rfl

namespace Dson.Unopened

variable {body : Bytes} {d : Dson} {children : ObjMap} (h : d.Unopened e body children)

include h

theorem restated_progressed {d' : Dson} (hd : d.Progressed d') (hstate : d.state ≠ .error) :
    Dson.Restated e body d children body d' :=
  ⟨h.progressed hd hstate, by rw [hd.fields], by rw [hd.fields], rfl,
    ⟨fun hs => absurd (hd.state hs) hstate, fun hs => absurd hs hstate⟩⟩

theorem restated_self : Dson.Restated e body d children body d := ⟨h, rfl, rfl, rfl, Iff.rfl⟩

/-- A conversion of the message settles, and does nothing when it is repeated. -/
theorem toOrder {network : Bool} {m : Mem} (hallowed : d.Convertible e m network) :
    ∃ body' h', d.toOrder e network m = some ({ d with headerBuf := h', buf := .own body' }, m) ∧
      Dson.Restated e body d children body' { d with headerBuf := h', buf := .own body' } ∧
      (∀ type, d.dataType e m = some type → (converterTo e network type).isSome → h'.inOrder e network) ∧
      Dson.toOrder e network { d with headerBuf := h', buf := .own body' } m =
        some ({ d with headerBuf := h', buf := .own body' }, m) := by
  have hself : ({ d with headerBuf := d.headerBuf, buf := .own body } : Dson) = d := by rw [← h.buf]
  by_cases hstate : d.state = .error
  · have hrun := toOrder_error (e := e) hstate (header_local h.headerIsLocal m) network
    refine ⟨body, d.headerBuf, by rw [hself]; exact hrun, by rw [hself]; exact h.restated_self, ?_,
      by rw [hself]; exact hrun⟩
    intro type htype hconv
    rw [Dson.dataType, if_pos hstate] at htype
    cases htype
    cases network <;> cases hconv
  · obtain ⟨hsettles, hroomy⟩ := (hallowed _ (h.asRecord hstate m)).resolve_left (by simp [h.data hstate])
    obtain ⟨r', hconv, halike, hin, hagain⟩ := Record.convert (r := ⟨d.headerBuf, body⟩) h.size hsettles
      (hroomy (by simp [h.data hstate]))
    have hrecord := isRecord_own h.alloc hstate m
    have hrun := hrecord.toOrder e d.headerBuf body network
    rw [hconv] at hrun
    have hsecond := hrecord.toOrder e r'.header r'.payload network
    rw [hagain] at hsecond
    simp only [hself] at hrun
    refine ⟨r'.payload, r'.header, hrun, ⟨h.update rfl rfl rfl h.kind halike.length halike.size (fun _ => hstate),
      halike.key, halike.type, halike.length, Iff.rfl⟩, fun type htype hsome => ?_, hsecond⟩
    rw [Dson.dataType, if_neg hstate, header_local h.headerIsLocal] at htype
    cases htype
    exact hin hsome

/-- A conversion of the header alone. -/
theorem headerToOrder {network : Bool} (hturns : d.headerBuf.Turns e network) :
    Dson.Restated e body d children body { d with headerBuf := d.headerBuf.toOrder e network } :=
  ⟨h.update rfl rfl h.buf h.kind rfl hturns.dataSize id, hturns.key, hturns.dataType, rfl, Iff.rfl⟩

end Dson.Unopened

/-- Calls one after the other. -/
theorem Dson.Restated.trans {body body' body'' : Bytes} {d d' d'' : Dson} {children : ObjMap}
    (h : Dson.Restated e body d children body' d') (h' : Dson.Restated e body' d' children body'' d'') :
    Dson.Restated e body d children body'' d'' :=
  ⟨h'.unopened, h'.key.trans h.key, h'.type.trans h.type, h'.length.trans h.length, h'.state.trans h.state⟩

namespace Dson.Unopened

variable {body : Bytes} {d : Dson} {children : ObjMap} (h : d.Unopened e body children) {m m' : Mem} {o' : DsonObj}

include h

/-- A lookup in a single object converts it under its own key. -/
theorem get_single {key : Int} {found : Found} (hkind : d.dsonKind = .oneObjectInDataBuf)
    (hsafe : d.state = .ready → d.headerBuf.keyOf e = key → d.Convertible e m false)
    (hrun : DsonObj.get e key (.dson d children) m = some (found, o', m')) :
    ∃ body' d', o' = .dson d' children ∧ d'.Unopened e body' children := by
  rw [DsonObj.get, if_neg (by simp [hkind])] at hrun
  simp only [Option.bind_eq_bind, Option.bind_some, hkind, Dson.key, header_local h.headerIsLocal, Option.map_some] at hrun
  split_ifs at hrun with hstate hkey
  · cases hrun
    exact ⟨body, d, rfl, h⟩
  · obtain ⟨body', h', hto, hrestated, -⟩ := h.toOrder (hsafe (not_not.mp hstate) hkey)
    have hhost : d.toHost e m = some ({ d with headerBuf := h', buf := .own body' }, m) := hto
    rw [hhost] at hrun
    cases hrun
    exact ⟨body', _, rfl, hrestated.unopened⟩
  · cases hrun
    exact ⟨body, d, rfl, h⟩

end Dson.Unopened

/-- A container without a block. -/
structure Dson.Hollow (d : Dson) (children : ObjMap) : Prop where
  kind : d.dsonKind = .dsonContainer
  state : d.state ≠ .error
  alloc : d.wasBufAllocation = false
  buf : d.buf = .null
  nil : children = []

/-- What calls leave of a message: it has not been opened, or its children are views of its records, or there is
nothing in it. -/
inductive Dson.Tidy (e : Endian) (d : Dson) (children : ObjMap) : Prop
  | unopened {body : Bytes} (h : d.Unopened e body children)
  | opened {recs : List Record} {idx : Int → Nat} (h : d.Opened e recs idx children)
  | hollow (h : d.Hollow children)

theorem Dson.Reopened.tidy {recs : List Record} {idx : Int → Nat} {d : Dson} {children : ObjMap} {m m' : Mem}
    {o' : DsonObj} (h : Dson.Reopened e recs idx d children m o' m') :
    ∃ d' children', o' = .dson d' children' ∧ d'.Tidy e children' := by
  obtain ⟨recs', d', children', rfl, -, hopen, -⟩ := h
  exact ⟨d', children', rfl, .opened hopen⟩

namespace Dson.Unopened

variable {body : Bytes} {d : Dson} {children : ObjMap} (h : d.Unopened e body children) {m m' : Mem} {o' : DsonObj}

include h

/-- A single object that has no converter may be asked for under any key. -/
theorem convertible_of {key : Int} (hallowed : (Handle.get key).Allowed e d children m) (hstate : d.state = .ready)
    (hkey : d.headerBuf.keyOf e = key) : d.Convertible e m false := by
  have hread := header_local h.headerIsLocal m
  by_cases htype : d.headerBuf.dataTypeOf e = TypesMap.dsonContainer
  · intro r hr
    rw [h.asRecord (by simp [hstate])] at hr
    cases hr
    have hnone : (converterTo e false (d.headerBuf.dataTypeOf e)).isNone := by
      rw [htype]
      rfl
    exact Or.inr ⟨Or.inr (Or.inl hnone), fun _ => Or.inr (Or.inl hnone)⟩
  · exact (hallowed.2 hstate).2 h.kind _ hread htype hkey

/-- A lookup in a message. -/
theorem get {key : Int} {found : Found} (hallowed : (Handle.get key).Allowed e d children m)
    (hrun : DsonObj.get e key (.dson d children) m = some (found, o', m')) :
    ∃ d' children', o' = .dson d' children' ∧ d'.Tidy e children' := by
  cases hkind : d.dsonKind with
  | dsonContainer => exact absurd hkind h.kind
  | oneObjectInDataBuf =>
      obtain ⟨body', d', rfl, hd'⟩ := h.get_single hkind (fun hs hk => h.convertible_of hallowed hs hk) hrun
      exact ⟨d', children, rfl, .unopened hd'⟩
  | dataBufNeedParse =>
      rcases h.parseBuf m with ⟨recs, idx, hbytes, hfits, htype, hstate, hparse, hopen⟩ |
        ⟨hstate, htype, -, map', hparse⟩ | ⟨-, hparse⟩
      · rw [get_parse hkind hparse] at hrun
        split_ifs at hrun with hready
        · refine (hopen.get ⟨fun hk _ => (by cases hk), fun hs => ⟨fun h' hp => ?_, fun hk => absurd rfl hk⟩⟩ hrun).tidy
          exact (hallowed.2 hs).1 h' (h.part hfits hbytes hkind hstate htype hp)
        · cases hrun
          exact ⟨_, _, rfl, .opened hopen⟩
      · rw [get_parse hkind hparse, if_neg (by simp)] at hrun
        cases hrun
        exact ⟨_, map', rfl, .unopened ⟨h.kind, h.alloc, h.buf, h.bufSize, h.limit, h.size, fun hs => absurd rfl hs⟩⟩
      · rw [get_parse hkind hparse] at hrun
        have hsingle : Dson.Unopened e body { d with dsonKind := .oneObjectInDataBuf } children :=
          h.update rfl rfl h.buf (by simp) rfl rfl id
        split_ifs at hrun with hready
        · obtain ⟨body', d', rfl, hd'⟩ := hsingle.get_single rfl
            (fun hs hk => h.convertible_of hallowed hs hk) hrun
          exact ⟨d', children, rfl, .unopened hd'⟩
        · cases hrun
          exact ⟨_, children, rfl, .unopened hsingle⟩

/-- An iteration over a message that has not been opened opens it. -/
theorem map (hallowed : Handle.map.Allowed e d children m)
    (hrun : DsonObj.map e (.dson d children) m = some (o', m')) :
    ∃ d' children', o' = .dson d' children' ∧ d'.Tidy e children' := by
  by_cases hready : d.state = .ready
  · obtain ⟨hsingle, hmeasured, hparts⟩ := hallowed hready
    cases hkind : d.dsonKind with
    | dsonContainer => exact absurd hkind h.kind
    | oneObjectInDataBuf => exact absurd hkind hsingle
    | dataBufNeedParse =>
        rw [DsonObj.map, if_neg (not_not.mpr hready)] at hrun
        simp only [Dson.openAsContainer, hkind] at hrun
        rcases h.parseBuf m with ⟨recs, idx, hbytes, hfits, htype, hstate, hparse, hopen⟩ |
          ⟨hstate, htype, -, map', hparse⟩ | ⟨-, hparse⟩
        · have hmap : DsonObj.map e (.dson { d with dsonKind := .dsonContainer } (views e 0 recs [])) m = some (o', m') := by
            rw [hparse] at hrun
            rw [DsonObj.map, if_neg (not_not.mpr hready)]
            exact hrun
          refine (hopen.map (fun _ => ⟨by simp, fun hk => (by cases hk), fun key h' hp => ?_⟩) hmap).tidy
          exact hparts key h' (h.part hfits hbytes hkind hstate htype hp)
        · -- the parse has failed, and the children it has made so far are converted all the same
          rw [hparse] at hrun
          simp only [Option.bind_eq_bind, Option.bind_some, Option.bind_eq_some_iff, Option.pure_def] at hrun
          obtain ⟨⟨children', inside⟩, hloop, heq⟩ := hrun
          cases heq
          have hrewrites := outer_rewrites (childrenToHost_sameSize hloop)
          obtain ⟨body', hbuf, hlen⟩ := BufPtr.SameSize.of_own (by rw [← h.buf]; exact hrewrites.buf)
          refine ⟨_, children', rfl, @Dson.Tidy.unopened _ _ _ body' ⟨?_, ?_, hbuf, ?_, hlen ▸ h.limit, ?_, ?_⟩⟩
          · rw [hrewrites.dsonKind]
            exact h.kind
          · rw [hrewrites.wasBufAllocation]
            exact h.alloc
          · rw [hrewrites.bufSize, hlen]
            exact h.bufSize
          · rw [hlen, outer_fields]
            exact h.size
          · exact fun hs => absurd hrewrites.state hs
        · rw [hparse] at hrun
          have hnil := h.nil (by simp [hready])
          subst hnil
          simp only [Option.bind_eq_bind, Option.bind_some, DsonObj.childrenToHost, Dson.outer_inner,
            Option.pure_def] at hrun
          cases hrun
          exact ⟨_, [], rfl, .unopened (h.update rfl rfl h.buf (by simp) rfl rfl id)⟩
  · rw [DsonObj.map, if_pos hready] at hrun
    cases hrun
    exact ⟨d, children, rfl, .unopened h⟩

end Dson.Unopened

end LeanDson
