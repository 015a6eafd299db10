import LeanDson.Handling
import LeanDson.Safety

/-! What calls leave of a message. The children of a parsed container are views of records that follow one
another; a call that meets headers that survive it puts a record that says the same in the place of one. -/

namespace LeanDson

variable {e : Endian}

/-! ### Views of records -/

/-- A view of one of the records of a block. A nested container has been parsed only if there is nothing in it. -/
structure Dson.SitsAt (e : Endian) (recs : List Record) (i : Nat) (r : Record) (c : Dson) : Prop where
  record : recs[i]? = some r
  alloc : c.wasBufAllocation = false
  buf : c.buf = .view .owner (recordsBytes (recs.take i)).length
  size : c.bufSize = 0
  state : c.state ≠ .error
  kind : c.dsonKind = .oneObjectInDataBuf ↔ r.header.dataTypeOf e ≠ TypesMap.dsonContainer
  hollow : c.dsonKind = .dsonContainer → r.payload = []

/-- The memory with a block of records around a view. -/
def Mem.hold (m : Mem) (recs : List Record) : Mem := m.setBlock .owner (recordsBytes recs)

@[simp] theorem Mem.hold_owner (m : Mem) (recs : List Record) : (m.hold recs).owner = recordsBytes recs := rfl

@[simp] theorem Mem.hold_hold (m : Mem) (recs recs' : List Record) : (m.hold recs).hold recs' = m.hold recs' := rfl

theorem Mem.hold_self {m : Mem} {recs : List Record} (hm : m.owner = recordsBytes recs) : m.hold recs = m := by
  cases m
  cases hm
  rfl

/-- What a call on a view leaves: a view of a record that says the same, in its place. -/
def Dson.Kept (e : Endian) (recs : List Record) (i : Nat) (r : Record) (m : Mem) (o' : DsonObj) (m' : Mem) : Prop :=
  ∃ r' c', r.Alike e r' ∧ Dson.SitsAt e (recs.set i r') i r' c' ∧ o' = .dson c' [] ∧ m' = m.hold (recs.set i r')

/-- The object is the same but for the progress of a copy. -/
structure Dson.Progressed (d d' : Dson) : Prop where
  fields : d' = { d with state := d'.state, offset := d'.offset, copyIter := d'.copyIter }
  state : d'.state = .error → d.state = .error

theorem Dson.Progressed.refl (d : Dson) : d.Progressed d := ⟨rfl, id⟩

theorem Dson.Progressed.trans {d d' d'' : Dson} (h : d.Progressed d') (h' : d'.Progressed d'') : d.Progressed d'' :=
  ⟨by rw [h'.fields, h.fields], fun hs => h.state (h'.state hs)⟩

namespace Dson.SitsAt

variable {recs recs' : List Record} {i : Nat} {r : Record} {c : Dson}

/-- A view of another record of a block of the same shape. -/
theorem alike (h : c.SitsAt e recs i r) (ha : AlikeAll e recs recs') : ∃ r', r.Alike e r' ∧ c.SitsAt e recs' i r' := by
  obtain ⟨r', hr', halike⟩ := ha.getElem? h.record
  refine ⟨r', halike, hr', h.alloc, ?_, h.size, h.state, ?_, fun hkind => ?_⟩
  · rw [ha.length_take, h.buf]
  · rw [h.kind, halike.type]
  · exact List.eq_nil_of_length_eq_zero (by rw [halike.length, h.hollow hkind]; rfl)

theorem fits (h : c.SitsAt e recs i r) (hfits : ∀ r ∈ recs, Record.Fits e r) : r.Fits e :=
  hfits r (List.mem_of_getElem? h.record)

/-- The view after its record has been replaced. -/
theorem set (h : c.SitsAt e recs i r) {r' : Record} (ha : r.Alike e r') : c.SitsAt e (recs.set i r') i r' := by
  obtain ⟨r'', -, hsits⟩ := h.alike (AlikeAll.set ha h.record)
  have hrec := hsits.record
  obtain ⟨hi, -⟩ := List.getElem?_eq_some_iff.mp h.record
  rw [List.getElem?_set_self hi] at hrec
  cases hrec
  exact hsits

theorem progressed {c' : Dson} (h : c.SitsAt e recs i r) (hc : c.Progressed c') : c'.SitsAt e recs i r where
  record := h.record
  alloc := by rw [hc.fields, h.alloc]
  buf := by rw [hc.fields, h.buf]
  size := by rw [hc.fields, h.size]
  state := fun hs => h.state (hc.state hs)
  kind := by rw [hc.fields, h.kind]
  hollow := fun hk => h.hollow (by rw [hc.fields] at hk; exact hk)

theorem data (h : c.SitsAt e recs i r) : c.data = some headerSize := by
  rw [Dson.data, if_neg (by simp [h.state, h.buf, BufPtr.isNull]), if_neg (by simp [h.alloc])]

theorem isRecord (h : c.SitsAt e recs i r) (m : Mem) :
    IsRecord fun h b => (c, m.setBlock .owner (recordsBytes (recs.take i) ++ (Header.bytes h ++ b))) :=
  isRecord_view h.alloc h.state h.buf m rfl

/-- Writing a record of its own into the block. -/
theorem put (h : c.SitsAt e recs i r) (m : Mem) (r' : Record) :
    m.setBlock .owner (recordsBytes (recs.take i) ++
      (r'.header.bytes ++ (r'.payload ++ recordsBytes (recs.drop (i + 1))))) = m.hold (recs.set i r') := by
  rw [Mem.hold, recordsBytes_split h.record]

theorem put_self (h : c.SitsAt e recs i r) {m : Mem} (hm : m.owner = recordsBytes recs) :
    m.setBlock .owner (recordsBytes (recs.take i) ++
      (r.header.bytes ++ (r.payload ++ recordsBytes (recs.drop (i + 1))))) = m := by
  rw [h.put, Record.set_self h.record, Mem.hold_self hm]

section

variable (h : c.SitsAt e recs i r) {m : Mem} (hm : m.owner = recordsBytes recs)

include h hm

theorem header : c.header m = some r.header := by
  have hrec := (h.isRecord m).header r.header (r.payload ++ recordsBytes (recs.drop (i + 1)))
  rwa [h.put_self hm] at hrec

/-- The bytes behind the header. -/
theorem tail : c.buf.tail m headerSize = some (r.payload ++ recordsBytes (recs.drop (i + 1))) := by
  have hlen : (recordsBytes (recs.take i) ++ r.header.bytes).length = (recordsBytes (recs.take i)).length + headerSize := by
    rw [List.length_append, Header.bytes_length, headerSize]
  have htail := BufPtr.tail_view m .owner hlen (r.payload ++ recordsBytes (recs.drop (i + 1)))
  rwa [List.append_assoc, h.put_self hm, ← h.buf] at htail

theorem setHeader (h' : Header) : c.setHeader m h' = some (c, m.hold (recs.set i ⟨h', r.payload⟩)) := by
  have hrec := (h.isRecord m).setHeader r.header (r.payload ++ recordsBytes (recs.drop (i + 1))) h'
  rw [h.put_self hm] at hrec
  rw [hrec, ← h.put m ⟨h', r.payload⟩]

theorem headerToOrder (network : Bool) :
    c.headerToOrder e network m = some (c, m.hold (recs.set i ⟨r.header.toOrder e network, r.payload⟩)) := by
  rw [Dson.headerToOrder, h.header hm]
  exact h.setHeader hm _

theorem toOrder {network : Bool} {r' : Record}
    (hconv : convertRecord e network r.header r.payload = some (r'.header, r'.payload)) :
    c.toOrder e network m = some (c, m.hold (recs.set i r')) := by
  have hrec := (h.isRecord m).toOrder e r.header (r.payload ++ recordsBytes (recs.drop (i + 1))) network
  rw [h.put_self hm, (convertRecord_local hconv).2] at hrec
  rw [hrec, ← h.put m r']
  rfl

theorem dataSize_header (hkind : c.dsonKind ≠ .dsonContainer) (children : ObjMap) :
    DsonObj.dataSize e m (.dson c children) = some (r.header.dataSizeOf e) := by
  rw [Dson.dataSize_header hkind, h.header hm]
  rfl

end

/-- The record as it was is kept. -/
theorem kept_progressed (h : c.SitsAt e recs i r) {m : Mem} (hm : m.owner = recordsBytes recs) {c' : Dson}
    (hc : c.Progressed c') : Dson.Kept e recs i r m (.dson c' []) m := by
  refine ⟨r, c', .refl e r, ?_, rfl, ?_⟩
  · rw [Record.set_self h.record]
    exact h.progressed hc
  · rw [Record.set_self h.record, Mem.hold_self hm]

theorem kept_self (h : c.SitsAt e recs i r) {m : Mem} (hm : m.owner = recordsBytes recs) :
    Dson.Kept e recs i r m (.dson c []) m := h.kept_progressed hm (.refl c)

end Dson.SitsAt

/-- A header that can be turned says the same. -/
theorem Header.Turns.alike {network : Bool} {r : Record} (ht : r.header.Turns e network) :
    r.Alike e ⟨r.header.toOrder e network, r.payload⟩ := ⟨ht.key, ht.dataType, ht.dataSize, rfl⟩

theorem Dson.SitsAt.unparsed {recs : List Record} {i : Nat} {r : Record} {c : Dson} (h : c.SitsAt e recs i r) (m : Mem) :
    c.unparsed m = [] := by
  rw [Dson.unparsed, h.size]
  rfl

/-! ### Calls on a view -/

section

variable {recs : List Record} {i : Nat} {r : Record} {c : Dson} (h : c.SitsAt e recs i r) {m : Mem}
  (hm : m.owner = recordsBytes recs) (hfits : r.Fits e)

include h hm

theorem Dson.SitsAt.kept_headerToOrder {network : Bool} (ht : r.header.Turns e network) :
    ∃ r', c.headerToOrder e network m = some (c, m.hold (recs.set i r')) ∧ r.Alike e r' :=
  ⟨_, h.headerToOrder hm network, ht.alike⟩

include hfits

/-- The record that a view shows. -/
theorem Dson.SitsAt.asRecord : c.asRecord e m = some r := by
  have htail := h.tail hm
  rw [Dson.asRecord, h.header hm, h.data, Option.map_some, Option.bind_some, htail, Option.getD_some, hfits.2,
    Int.toNat_natCast, List.take_left]

/-- A view that may be converted shows a record that may be. -/
theorem Dson.SitsAt.safe {network : Bool} (hconv : c.Convertible e m network) : r.Safe e network := by
  rcases hconv r (h.asRecord hm hfits) with ⟨-, hnone⟩ | ⟨hsettles, hroomy⟩
  · rw [h.data] at hnone
    cases hnone
  · exact ⟨hsettles, hroomy (by simp [h.data])⟩

/-- A conversion of a view settles, and does nothing when it is repeated. -/
theorem Dson.SitsAt.kept_toOrder {network : Bool} (hsafe : r.Safe e network) :
    ∃ r', c.toOrder e network m = some (c, m.hold (recs.set i r')) ∧ r.Alike e r' ∧
      ((converterTo e network (r.header.dataTypeOf e)).isSome → r'.header.inOrder e network) ∧
      c.toOrder e network (m.hold (recs.set i r')) = some (c, m.hold (recs.set i r')) := by
  obtain ⟨r', hconv, halike, hin, hagain⟩ := Record.convert hfits.2 hsafe.1 hsafe.2
  refine ⟨r', h.toOrder hm hconv, halike, hin, ?_⟩
  have hsecond := (h.set halike).toOrder (m := m.hold (recs.set i r')) rfl hagain
  rwa [List.set_set, Mem.hold_hold] at hsecond

omit hfits

/-- A nested container has no content that a parse would see. -/
theorem Dson.SitsAt.parseBuf (hkind : c.dsonKind = .dataBufNeedParse) :
    c.parseBuf e [] m = some ({ c with dsonKind := .dsonContainer }, []) := by
  have htype : r.header.dataTypeOf e = TypesMap.dsonContainer := by
    by_contra hne
    rw [h.kind.mpr hne] at hkind
    cases hkind
  rw [Dson.parseBuf, Dson.dataType, if_neg h.state, h.header hm, Option.map_some, htype]
  simp only [Option.bind_eq_bind, Option.bind_some, ne_eq, not_true_eq_false, if_false, h.size]
  rw [Dson.parseLoop_stop (by decide)]
  rfl

include hfits

/-- An empty nested container that has been parsed. -/
theorem Dson.SitsAt.parsed (hkind : c.dsonKind = .dataBufNeedParse) (hmeasured : c.Measured e m) :
    Dson.SitsAt e recs i r { c with dsonKind := .dsonContainer } := by
  have htype : r.header.dataTypeOf e = TypesMap.dsonContainer := by
    by_contra hne
    rw [h.kind.mpr hne] at hkind
    cases hkind
  have hsize := hmeasured r.header (h.header hm) htype
  rw [h.unparsed m, hfits.2] at hsize
  refine ⟨h.record, h.alloc, h.buf, h.size, h.state, ?_, fun _ => ?_⟩
  · simp [htype]
  · exact List.eq_nil_of_length_eq_zero (by simpa using hsize)

/-- A lookup in a view. -/
theorem Dson.SitsAt.get {key : Int} {f : Found} {o' : DsonObj} {m' : Mem}
    (hallowed : (Handle.get key).Allowed e c [] m) (hrun : DsonObj.get e key (.dson c []) m = some (f, o', m')) :
    Dson.Kept e recs i r m o' m' := by
  obtain ⟨hmeasured, hsafe⟩ := hallowed
  cases hkind : c.dsonKind with
  | dsonContainer =>
      rw [DsonObj.get, if_neg (by simp [hkind])] at hrun
      simp only [Option.bind_eq_bind, Option.bind_some, hkind, DsonObj.getInternal, KeyMap.find] at hrun
      split_ifs at hrun <;> cases hrun <;> exact h.kept_self hm
  | dataBufNeedParse =>
      have hparsed := h.parsed hm hfits hkind (hmeasured hkind h.state)
      rw [get_parse hkind (h.parseBuf hm hkind)] at hrun
      split_ifs at hrun with hstate
      · rw [get_nothing hstate rfl] at hrun
        cases hrun
        exact hparsed.kept_self hm
      · cases hrun
        exact hparsed.kept_self hm
  | oneObjectInDataBuf =>
      have htype := h.kind.mp hkind
      rw [DsonObj.get, if_neg (by simp [hkind])] at hrun
      simp only [Option.bind_eq_bind, Option.bind_some, hkind, Dson.key, h.header hm, Option.map_some] at hrun
      split_ifs at hrun with hstate hkey
      · cases hrun
        exact h.kept_self hm
      · have hconv := (hsafe (not_not.mp hstate)).2 (by simp [hkind]) r.header (h.header hm) htype hkey
        obtain ⟨r', hto, halike, -⟩ := h.kept_toOrder hm hfits (h.safe hm hfits hconv)
        have hhost : c.toHost e m = some (c, m.hold (recs.set i r')) := hto
        rw [hhost] at hrun
        cases hrun
        exact ⟨r', c, halike, h.set halike, rfl, rfl⟩
      · cases hrun
        exact h.kept_self hm

omit hm hfits in
/-- A view without children converts none. -/
theorem Dson.SitsAt.toHost_nil :
    (do let (children, inside) ← DsonObj.childrenToHost e [] (c.inner m)
        let (d, m) := c.outer m inside
        return (DsonObj.dson d children, m)) = some (DsonObj.dson c [], m) := by
  rw [DsonObj.childrenToHost]
  simp only [Option.bind_eq_bind, Option.bind_some, Dson.inner, Dson.outer, h.buf]
  rfl

/-- An iteration over a view. -/
theorem Dson.SitsAt.map {o' : DsonObj} {m' : Mem} (hallowed : Handle.map.Allowed e c [] m)
    (hrun : DsonObj.map e (.dson c []) m = some (o', m')) : Dson.Kept e recs i r m o' m' := by
  by_cases hstate : c.state = .ready
  · obtain ⟨hsingle, hmeasured, -⟩ := hallowed hstate
    rw [DsonObj.map, if_neg (not_not.mpr hstate)] at hrun
    cases hkind : c.dsonKind with
    | oneObjectInDataBuf => exact absurd hkind hsingle
    | dsonContainer =>
        simp only [Dson.openAsContainer, hkind, Option.bind_eq_bind, Option.bind_some] at hrun
        have := h.toHost_nil (m := m)
        simp only [Option.bind_eq_bind] at this
        rw [this] at hrun
        cases hrun
        exact h.kept_self hm
    | dataBufNeedParse =>
        have hparsed := h.parsed hm hfits hkind (hmeasured hkind)
        simp only [Dson.openAsContainer, hkind, h.parseBuf hm hkind, Option.bind_eq_bind, Option.bind_some,
          Option.pure_def] at hrun
        have := hparsed.toHost_nil (m := m)
        simp only [Option.bind_eq_bind, Option.pure_def] at this
        rw [this] at hrun
        cases hrun
        exact hparsed.kept_self hm
  · rw [DsonObj.map, if_pos hstate] at hrun
    cases hrun
    exact h.kept_self hm

end

/-! ### Emitters -/

section

variable {σ : Type} [ByteSink σ] {copy : DsonObj → Mem → σ → Option (Result × DsonObj × Mem × σ)} {d : Dson}
  {children : ObjMap} {m m' : Mem} {s s' : σ} {r : Result} {o' : DsonObj}

/-- The copy of a payload keeps everything but its own progress. -/
theorem Dson.copyBuf_progressed {d' : Dson} (hrun : d.copyBuf m s = some (r, d', s')) : d.Progressed d' := by
  rw [Dson.copyBuf] at hrun
  split_ifs at hrun with hoff
  · cases hrun
    exact .refl d
  · simp only [Option.bind_eq_bind, Option.bind_eq_some_iff] at hrun
    obtain ⟨off, hdata, t, -, hrun⟩ := hrun
    have hstate : d.state ≠ .error := fun hs => by simp [Dson.data, hs] at hdata
    split_ifs at hrun
    split at hrun
    · cases hrun
      exact ⟨rfl, fun hs => by cases hs⟩
    · split_ifs at hrun
      · cases hrun
        exact ⟨rfl, fun hs => by cases hs⟩
      · cases hrun
        exact ⟨rfl, fun hs => absurd hs hstate⟩

/-- The data phase of an object without children. -/
theorem Dson.copyData_progressed (hnil : d.dsonKind = .dsonContainer → children = [])
    (hrun : d.copyData copy children m s = some (r, o', m', s')) :
    ∃ d', d.Progressed d' ∧ o' = .dson d' children ∧ m' = m := by
  by_cases hkind : d.dsonKind = .dsonContainer
  · rw [hnil hkind, copyData_container _ _ hkind] at hrun
    rw [hnil hkind]
    obtain ⟨⟨r₁, it, children₁, inside, s₁⟩, hmap, heq⟩ := Option.map_eq_some_iff.mp hrun
    have hend : r₁ = .ready ∧ children₁ = [] ∧ inside = d.inner m := by
      cases hit : d.copyIter with
      | unset =>
          rw [hit, copyMap] at hmap
          cases hmap
      | finished =>
          rw [hit, copyMap] at hmap
          cases hmap
          exact ⟨rfl, rfl, rfl⟩
      | node key =>
          rw [hit, copyMap] at hmap
          cases hmap
          exact ⟨rfl, rfl, rfl⟩
    obtain ⟨rfl, rfl, rfl⟩ := hend
    rw [Dson.outer_inner] at heq
    cases heq
    exact ⟨_, ⟨rfl, fun hs => by cases hs⟩, rfl, rfl⟩
  · rw [copyData_payload _ _ hkind] at hrun
    obtain ⟨⟨r₁, d₁, s₁⟩, hbuf, heq⟩ := Option.map_eq_some_iff.mp hrun
    cases heq
    exact ⟨d₁, copyBuf_progressed hbuf, rfl, rfl⟩

theorem Dson.headerCopied_progressed (d : Dson) (children : ObjMap) (n : Nat) : d.Progressed (d.headerCopied children n) :=
  ⟨rfl, fun hs => by cases hs⟩

/-- The header phase of an object without children. -/
theorem Dson.copyHeader_progressed (hnil : d.dsonKind = .dsonContainer → children = [])
    (hrun : d.copyHeader copy children m s = some (r, o', m', s')) :
    ∃ d', d.Progressed d' ∧ o' = .dson d' children ∧ m' = m := by
  rw [copyHeader_eq] at hrun
  split_ifs at hrun with hoff
  · cases hrun
    exact ⟨d, .refl d, rfl, rfl⟩
  · obtain ⟨h, -, hrun⟩ := Option.bind_eq_some_iff.mp hrun
    rcases hw : ByteSink.write s (h.bytes.drop d.offset) with ⟨n, s₁⟩
    rw [hw] at hrun
    cases n with
    | none =>
        cases hrun
        exact ⟨_, ⟨rfl, fun hs => by cases hs⟩, rfl, rfl⟩
    | some n =>
        dsimp only at hrun
        split_ifs at hrun with hmore
        · cases hrun
          exact ⟨{ d with offset := d.offset + n }, ⟨rfl, id⟩, rfl, rfl⟩
        · obtain ⟨d', hprog, ho, hmem⟩ := copyData_progressed (d := d.headerCopied children n) hnil hrun
          exact ⟨d', (d.headerCopied_progressed children n).trans hprog, ho, hmem⟩

end

section

variable {copy : DsonObj → Mem → Option (DsonObj × Mem × Bytes)} {network : Bool} {d : Dson} {children : ObjMap}
  {m m' : Mem} {o' : DsonObj} {bs : Bytes}

theorem Dson.streamRaw_same {size : Int} (hkind : d.dsonKind ≠ .dsonContainer)
    (hrun : d.streamRaw e children m size = some (o', m', bs)) : o' = .dson d children ∧ m' = m := by
  rw [Dson.streamRaw, Dson.streamHeader, if_neg hkind] at hrun
  simp only [Option.bind_eq_bind, Option.bind_some, Option.bind_eq_some_iff, Option.pure_def] at hrun
  obtain ⟨⟨d₁, m₁, head⟩, ⟨h, -, heq⟩, hrun⟩ := hrun
  cases heq
  obtain ⟨payload, -, heq⟩ := hrun
  cases heq
  exact ⟨rfl, rfl⟩

/-- What has not been parsed is sent on as it lies, or parsed. -/
theorem Dson.streamInternal_unread {h : Header} (hstate : d.state = .ready) (hkind : d.dsonKind = .dataBufNeedParse)
    (hread : d.header m = some h) : d.streamInternal e copy network children m =
      if h.Parses e true network then
        (d.parseBuf e children m).bind fun p => p.1.streamKind e copy network p.2 m
      else (DsonObj.dataSize e m (.dson d children)).bind fun size => d.streamRaw e children m size := by
  have hparses : h.Parses e true network ↔ ¬h.inOrder e network := Iff.rfl
  rw [Dson.streamInternal_message hstate hkind hread]
  simp only [hparses, ite_not]

/-- A single object is converted. -/
theorem Dson.streamKind_one_cases (hkind : d.dsonKind = .oneObjectInDataBuf)
    (hrun : d.streamKind e copy network children m = some (o', m', bs)) :
    ∃ d', d.toOrder e network m = some (d', m') ∧ o' = .dson d' children := by
  rw [Dson.streamKind_one hkind] at hrun
  obtain ⟨before, -, hrun⟩ := Option.bind_eq_some_iff.mp hrun
  obtain ⟨⟨d₁, m₁⟩, hto, hrun⟩ := Option.bind_eq_some_iff.mp hrun
  obtain ⟨after, -, hrun⟩ := Option.bind_eq_some_iff.mp hrun
  have hkind₁ : d₁.dsonKind ≠ .dsonContainer := by
    rw [(Dson.toOrder_rewrites hto).dsonKind, hkind]
    simp
  obtain ⟨rfl, rfl⟩ := streamRaw_same hkind₁ hrun
  exact ⟨d₁, hto, rfl⟩

/-- The header of a container is converted and given the size, and the children are copied. -/
theorem Dson.streamKind_container_cases (hkind : d.dsonKind = .dsonContainer)
    (hrun : d.streamKind e copy network children m = some (o', m', bs)) :
    ∃ size d₁ m₁ d₂ m₂ children' inside bs', DsonObj.dataSize e m (.dson d children) = some size ∧
      d.headerToOrder e network m = some (d₁, m₁) ∧ d₁.setDataSizeInternal e m₁ size = some (d₂, m₂) ∧
      streamMap copy children (d₂.inner m₂) = some (children', inside, bs') ∧
      o' = .dson (d₂.outer m₂ inside).1 children' ∧ m' = (d₂.outer m₂ inside).2 := by
  rw [Dson.streamKind_container hkind] at hrun
  obtain ⟨size, hsize, hrun⟩ := Option.bind_eq_some_iff.mp hrun
  obtain ⟨⟨d₁, m₁⟩, hheader, hrun⟩ := Option.bind_eq_some_iff.mp hrun
  obtain ⟨⟨d₂, m₂, head⟩, hhead, hrun⟩ := Option.bind_eq_some_iff.mp hrun
  obtain ⟨⟨children', inside, bs'⟩, hmap, heq⟩ := Option.bind_eq_some_iff.mp hrun
  cases heq
  rw [Dson.streamHeader, if_pos (by rw [(Dson.headerToOrder_rewrites hheader).dsonKind, hkind])] at hhead
  simp only [Option.bind_eq_bind, Option.bind_eq_some_iff, Option.pure_def] at hhead
  obtain ⟨⟨d₃, m₃⟩, hset, h, -, heq⟩ := hhead
  cases heq
  exact ⟨size, d₁, m₁, d₃, m₃, children', inside, bs', hsize, hheader, hset, hmap, rfl, rfl⟩

end

/-! ### Copies of a view -/

theorem parses_iff (network : Bool) (h : Header) :
    (h.isHostOrder e ∧ network ∨ h.isNetworkOrder e ∧ ¬network) ↔ h.Parses e false network := by
  cases network <;> simp [Header.Parses, Header.inOrder]

/-- A header that is turned and given the size zero, before or after. -/
theorem Header.Turns.alike_zero {network : Bool} {r : Record} (ht : r.header.Turns e network) (hfits : r.Fits e)
    (hnil : r.payload = []) : r.Alike e ⟨(r.header.toOrder e network).setDataSize e 0, r.payload⟩ where
  key := (Header.keyOf_setDataSize _ _).trans ht.key
  type := (Header.dataTypeOf_setDataSize _ _).trans ht.dataType
  size := by
    rw [Header.dataSizeOf_setDataSize_zero, hfits.2, hnil]
    rfl
  length := rfl

namespace Dson.SitsAt

variable {recs : List Record} {i : Nat} {r : Record} {c : Dson} (h : c.SitsAt e recs i r) {m : Mem}
  (hm : m.owner = recordsBytes recs) (hfits : r.Fits e)

include h hm hfits

/-- The header of an empty container, given its size and turned. -/
theorem prepare_container {network : Bool} (hkind : c.dsonKind = .dsonContainer) (ht : r.header.Turns e network) :
    ∃ r', r.Alike e r' ∧ c.prepareHeader e network [] m = some (c, m.hold (recs.set i r')) := by
  have hempty := h.hollow hkind
  have hsize : DsonObj.dataSize e m (.dson c []) = some 0 := by
    rw [DsonObj.dataSize, hkind]
    rfl
  have hset : c.setDataSizeInternal e m 0 = some (c, m.hold (recs.set i ⟨r.header.setDataSize e 0, r.payload⟩)) := by
    rw [Dson.setDataSizeInternal, h.header hm]
    exact h.setHeader hm _
  have hzero : r.Alike e ⟨r.header.setDataSize e 0, r.payload⟩ := by
    refine ⟨Header.keyOf_setDataSize _ _, Header.dataTypeOf_setDataSize _ _, ?_, rfl⟩
    rw [Header.dataSizeOf_setDataSize_zero, hfits.2, hempty]
    rfl
  have hturn := (h.set hzero).headerToOrder (m := m.hold (recs.set i ⟨r.header.setDataSize e 0, r.payload⟩)) rfl network
  rw [List.set_set, Mem.hold_hold, Header.setDataSize_zero_toOrder] at hturn
  refine ⟨_, ht.alike_zero hfits hempty, ?_⟩
  rw [Dson.prepareHeader, if_pos hkind, hsize]
  simp only [Option.bind_eq_bind, Option.bind_some, hset, hkind]
  rw [if_neg (by simp), hturn]

/-- The first step of a copy of a view. -/
theorem prepareCopy {network : Bool} (hstate : c.state = .ready) (hcopy : c.Copyable e [] m false network) :
    ∃ r' c', r.Alike e r' ∧ c'.SitsAt e (recs.set i r') i r' ∧
      c.prepareCopy e network [] m = some (c', [], m.hold (recs.set i r')) := by
  -- whatever the branch, the record is replaced by one that says the same
  suffices hkey : ∃ c₁ r', c₁.SitsAt e recs i r ∧ r.Alike e r' ∧
      (if c.dsonKind = .dataBufNeedParse ∧ r.header.Parses e false network then c.parseBuf e [] m
        else some (c, [])) = some (c₁, []) ∧
      c₁.prepareHeader e network [] m = some (c₁, m.hold (recs.set i r')) by
    obtain ⟨c₁, r', hsits, halike, hparse, hprepare⟩ := hkey
    refine ⟨r', { c₁ with offset := 0, state := .copyingHeader }, halike,
      (hsits.set halike).progressed ⟨rfl, fun hs => by cases hs⟩, ?_⟩
    rw [prepareCopy_eq, h.header hm, Option.bind_some]
    simp only [parses_iff]
    rw [hparse, Option.bind_some, hprepare]
    rfl
  unfold Dson.Copyable at hcopy
  cases hkind : c.dsonKind with
  | oneObjectInDataBuf =>
      rw [hkind] at hcopy
      obtain ⟨r', hto, halike, -⟩ := h.kept_toOrder hm hfits (h.safe hm hfits (hcopy hstate))
      refine ⟨c, r', h, halike, if_neg (by simp), ?_⟩
      rw [Dson.prepareHeader, if_neg (by simp [hkind])]
      simp only [Option.bind_eq_bind, Option.bind_some, hkind, if_true, hto]
  | dsonContainer =>
      rw [hkind] at hcopy
      obtain ⟨r', halike, hprepare⟩ := h.prepare_container hm hfits hkind (hcopy.2.1 hstate _ (h.header hm))
      exact ⟨c, r', h, halike, if_neg (by simp), hprepare⟩
  | dataBufNeedParse =>
      rw [hkind] at hcopy
      have hraw := hcopy hstate _ (h.header hm)
      have htype : r.header.dataTypeOf e = TypesMap.dsonContainer := by
        by_contra hne
        rw [h.kind.mpr hne] at hkind
        cases hkind
      by_cases hparses : r.header.Parses e false network
      · rw [if_pos hparses, if_pos htype] at hraw
        have hparsed := h.parsed hm hfits hkind hraw.2.1.1
        obtain ⟨r', halike, hprepare⟩ := hparsed.prepare_container hm hfits rfl hraw.1
        exact ⟨_, r', hparsed, halike, (if_pos ⟨rfl, hparses⟩).trans (h.parseBuf hm hkind), hprepare⟩
      · rw [if_neg hparses] at hraw
        obtain ⟨r', hturn, halike⟩ := h.kept_headerToOrder hm hraw
        refine ⟨c, r', h, halike, if_neg (by simp [hparses]), ?_⟩
        rw [Dson.prepareHeader, if_neg (by simp [hkind])]
        simp only [Option.bind_eq_bind, Option.bind_some, hkind]
        rw [if_neg (by simp), hturn]

/-- A call of an incremental emitter on a view. -/
theorem copyInternal {σ : Type} [ByteSink σ] {copy : DsonObj → Mem → σ → Option (Result × DsonObj × Mem × σ)}
    {network : Bool} (hcopy : c.Copyable e [] m false network) {s s' : σ} {res : Result} {o' : DsonObj} {m' : Mem}
    (hrun : c.copyInternal e copy network [] m s = some (res, o', m', s')) : Dson.Kept e recs i r m o' m' := by
  cases hstate : c.state with
  | ready =>
      simp only [Dson.copyInternal, hstate, Option.bind_eq_bind, Option.bind_eq_some_iff] at hrun
      obtain ⟨⟨c₁, children₁, m₁⟩, hprepare, hrun⟩ := hrun
      obtain ⟨r', c', halike, hsits, hprepared⟩ := h.prepareCopy hm hfits hstate hcopy
      rw [hprepared] at hprepare
      cases hprepare
      obtain ⟨c₂, hprog, rfl, rfl⟩ := copyHeader_progressed (fun _ => rfl) hrun
      exact ⟨r', c₂, halike, hsits.progressed hprog, rfl, rfl⟩
  | copyingHeader =>
      simp only [Dson.copyInternal, hstate] at hrun
      obtain ⟨c₂, hprog, rfl, rfl⟩ := copyHeader_progressed (fun _ => rfl) hrun
      exact h.kept_progressed hm hprog
  | copyingData =>
      simp only [Dson.copyInternal, hstate] at hrun
      obtain ⟨c₂, hprog, rfl, rfl⟩ := copyData_progressed (fun _ => rfl) hrun
      exact h.kept_progressed hm hprog
  | loadingHeader | loadingData | error =>
      simp only [Dson.copyInternal, hstate] at hrun
      cases hrun
      exact h.kept_self hm

end Dson.SitsAt

namespace Dson.SitsAt

variable {recs : List Record} {i : Nat} {r : Record} {c : Dson} (h : c.SitsAt e recs i r) {m : Mem}
  (hm : m.owner = recordsBytes recs) (hfits : r.Fits e)
  {copy : DsonObj → Mem → Option (DsonObj × Mem × Bytes)} {network : Bool} {o' : DsonObj} {m' : Mem} {bs : Bytes}

include h hm hfits

theorem streamKind_hollow (hkind : c.dsonKind = .dsonContainer) (ht : r.header.Turns e network)
    (hrun : c.streamKind e copy network [] m = some (o', m', bs)) : Dson.Kept e recs i r m o' m' := by
  obtain ⟨size, d₁, m₁, d₂, m₂, children', inside, bs', hsize, hheader, hset, hmap, rfl, rfl⟩ :=
    streamKind_container_cases hkind hrun
  have hzero : size = 0 := by
    rw [DsonObj.dataSize, hkind] at hsize
    exact (Option.some.inj hsize).symm
  subst hzero
  rw [h.headerToOrder hm] at hheader
  cases hheader
  have hturned := h.set ht.alike
  rw [Dson.setDataSizeInternal, hturned.header rfl] at hset
  simp only [Option.bind_eq_bind, Option.bind_some] at hset
  rw [hturned.setHeader rfl, List.set_set, Mem.hold_hold] at hset
  cases hset
  cases hmap
  rw [Dson.outer_inner]
  have halike := ht.alike_zero hfits (h.hollow hkind)
  exact ⟨_, c, halike, h.set halike, rfl, rfl⟩

/-- The stream emitter on a view. -/
theorem streamInternal (hcopy : c.Copyable e [] m true network)
    (hrun : c.streamInternal e copy network [] m = some (o', m', bs)) : Dson.Kept e recs i r m o' m' := by
  by_cases hstate : c.state = .ready
  · unfold Dson.Copyable at hcopy
    cases hkind : c.dsonKind with
    | oneObjectInDataBuf =>
        rw [streamInternal_ready hstate (by simp [hkind])] at hrun
        rw [hkind] at hcopy
        obtain ⟨r', hto, halike, -⟩ := h.kept_toOrder hm hfits (h.safe hm hfits (hcopy hstate))
        obtain ⟨c', hto', rfl⟩ := streamKind_one_cases hkind hrun
        rw [hto] at hto'
        cases hto'
        exact ⟨r', c, halike, h.set halike, rfl, rfl⟩
    | dsonContainer =>
        rw [streamInternal_ready hstate (by simp [hkind])] at hrun
        rw [hkind] at hcopy
        exact h.streamKind_hollow hm hfits hkind (hcopy.2.1 hstate _ (h.header hm)) hrun
    | dataBufNeedParse =>
        rw [hkind] at hcopy
        have hraw := hcopy hstate _ (h.header hm)
        have htype : r.header.dataTypeOf e = TypesMap.dsonContainer := by
          by_contra hne
          rw [h.kind.mpr hne] at hkind
          cases hkind
        rw [streamInternal_unread hstate hkind (h.header hm)] at hrun
        split_ifs at hrun with hparses
        · rw [if_pos hparses, if_pos htype] at hraw
          have hparsed := h.parsed hm hfits hkind hraw.2.1.1
          rw [h.parseBuf hm hkind] at hrun
          exact hparsed.streamKind_hollow hm hfits rfl hraw.1 hrun
        · obtain ⟨size, -, hrun⟩ := Option.bind_eq_some_iff.mp hrun
          obtain ⟨rfl, rfl⟩ := streamRaw_same (by simp [hkind]) hrun
          exact h.kept_self hm
  · rw [Dson.streamInternal, if_pos hstate] at hrun
    cases hrun
    exact h.kept_self hm

end Dson.SitsAt

/-- Any call on a view that meets a header that survives it. -/
theorem Dson.SitsAt.call {recs : List Record} {i : Nat} {r : Record} {c : Dson} (h : c.SitsAt e recs i r) {m m' : Mem}
    (hm : m.owner = recordsBytes recs) (hfits : r.Fits e) {f : Handle} {o' : DsonObj} (hallowed : f.Allowed e c [] m)
    (hrun : f.call e (.dson c []) m = some (o', m')) : Dson.Kept e recs i r m o' m' := by
  cases f with
  | get key =>
      obtain ⟨⟨found, o₁, m₁⟩, hget, heq⟩ := Option.map_eq_some_iff.mp hrun
      cases heq
      exact h.get hm hfits hallowed hget
  | map => exact h.map hm hfits hallowed hrun
  | toOrder network =>
      obtain ⟨r', hto, halike, -⟩ := h.kept_toOrder hm hfits (h.safe hm hfits hallowed)
      rw [Handle.call, hto] at hrun
      cases hrun
      exact ⟨r', c, halike, h.set halike, rfl, rfl⟩
  | headerToOrder network =>
      obtain ⟨r', hturn, halike⟩ := h.kept_headerToOrder hm (hallowed _ (h.header hm))
      rw [Handle.call, hturn] at hrun
      cases hrun
      exact ⟨r', c, halike, h.set halike, rfl, rfl⟩
  | copyToFd network fd =>
      obtain ⟨⟨res, o₁, m₁, fd'⟩, hcopy, heq⟩ := Option.map_eq_some_iff.mp hrun
      cases heq
      exact h.copyInternal hm hfits hallowed hcopy
  | copyToBuf network buf =>
      obtain ⟨⟨res, o₁, m₁, buf'⟩, hcopy, heq⟩ := Option.map_eq_some_iff.mp hrun
      cases heq
      exact h.copyInternal hm hfits hallowed hcopy
  | copyToStream network =>
      obtain ⟨⟨o₁, m₁, bs⟩, hcopy, heq⟩ := Option.map_eq_some_iff.mp hrun
      cases heq
      exact h.streamInternal hm hfits hallowed hcopy

end LeanDson
