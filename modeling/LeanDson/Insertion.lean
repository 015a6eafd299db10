import LeanDson.Handling
import LeanDson.Inclusion
import LeanDson.Malformed
import LeanDson.Safety

/-! Insertions. What a caller puts under a key is found under it and is part of every complete emission if and
only if the insertion can open the object as a container. -/

namespace LeanDson

open ByteSink

/-! ### What an insertion promises -/

/-- Every complete emission of `o` to sinks of one kind hands over `v`. -/
def Includes (σ : Type) [ByteSink σ] (e : Endian) (v o : DsonObj) (m : Mem) : Prop :=
  ∀ (network : Bool) (ss : List σ) (q : DsonObj × Mem) (bs : Bytes), (∀ s ∈ ss, written s = []) →
    o.copyRun e network m ss = some (.ready, q, bs) →
      ∃ pre mid post mv, bs = pre ++ (mid ++ post) ∧ HandedOver σ e network v mv mid

/-- A lookup under the key finds `v`, and every complete emission includes `v`. -/
structure Emplaced (e : Endian) (key : Int) (v o : DsonObj) (m : Mem) : Prop where
  found : ∃ x, DsonObj.get e key o m = some (.child key, x)
  child : ∃ inside, o.visit [key] m = some (v, inside)
  fd : Includes FdOut e v o m
  buf : Includes BufOut e v o m
  stream : ∀ network o' m' bs, o.copyToStream e network m = some (o', m', bs) →
    ∃ pre mid post mv fuel out, bs = pre ++ (mid ++ post) ∧ v.streamFuel e network fuel mv = some out ∧ mid = out.2.2

/-- What an insertion needs of the object. An object in error is cleared first, and a container takes everything.
What has not been parsed must be records; a single object must have another header, under a key that is not
negative, in front of its payload. -/
def Dson.Accepts (e : Endian) (d : Dson) (m : Mem) : Prop :=
  ∃ h, d.header m = some h ∧ (d.state = .error ∨ match d.dsonKind with
    | .dsonContainer => True
    | .dataBufNeedParse => h.dataTypeOf e = TypesMap.dsonContainer ∧ IsRecords e (d.unparsed m)
    | .oneObjectInDataBuf => ∃ off t h' rest, d.data = some off ∧ d.buf.tail m off = some t ∧
        Header.read t = some (h', rest) ∧ 0 ≤ h'.keyOf e)

section

variable {e : Endian} {d : Dson} {children : ObjMap} {m : Mem} {key : Int}

/-! ### Lookups after an insertion -/

/-- A ready container serves what is in its map. -/
theorem Emplaced.of_container {v : DsonObj} (hstate : d.state = .ready) (hkind : d.dsonKind = .dsonContainer)
    (hsorted : KeyMap.Sorted children) (hfind : KeyMap.find key children = some v)
    (hv : (v.toHost e (d.inner m)).isSome) : Emplaced e key v (.dson d children) m where
  found := by
    obtain ⟨⟨v', inside⟩, hto⟩ := Option.isSome_iff_exists.mp hv
    have hget : DsonObj.get e key (.dson d children) m = DsonObj.getInternal e key d children m := by
      rw [DsonObj.get, if_neg (by simp [hkind])]
      simp only [Option.bind_eq_bind, Option.bind_some]
      rw [if_neg (by simp [hstate])]
      simp only [hkind]
    rw [hget, DsonObj.getInternal, hfind]
    simp only [DsonObj.onChild, hfind, hto, Option.bind_eq_bind, Option.bind_some, Option.pure_def]
    exact ⟨_, rfl⟩
  child := by
    simp only [DsonObj.visit, hstate, hfind, Option.bind_eq_bind, Option.bind_some]
    exact ⟨_, rfl⟩
  fd := fun _ _ _ _ hss hrun => copyRun_includes hstate hkind hsorted hfind hss hrun
  buf := fun _ _ _ _ hss hrun => copyRun_includes hstate hkind hsorted hfind hss hrun
  stream := fun _ _ _ _ hrun => copyToStream_includes hstate hkind hfind hrun

/-- A lookup in a parsed object. -/
theorem get_of_kind (hkind : d.dsonKind ≠ .dataBufNeedParse) (hstate : d.state ≠ .ready) :
    DsonObj.get e key (.dson d children) m = some (.null, .dson d children, m) := by
  rw [DsonObj.get, if_neg hkind]
  simp only [Option.bind_eq_bind, Option.bind_some]
  rw [if_pos hstate]
  rfl

/-- Nothing is found in an object in error. -/
theorem get_error {f : Found} {x : DsonObj × Mem} (hstate : d.state = .error)
    (hget : DsonObj.get e key (.dson d children) m = some (f, x)) : f = .null := by
  by_cases hk : d.dsonKind = .dataBufNeedParse
  · have htype : d.dataType e m = some TypesMap.empty := if_pos hstate
    have hparse : d.parseBuf e children m = some ({ d with dsonKind := .oneObjectInDataBuf }, children) := by
      rw [Dson.parseBuf, htype]
      rfl
    rw [DsonObj.get, if_pos hk, hparse] at hget
    simp only [Option.bind_eq_bind, Option.bind_some] at hget
    rw [if_pos (by simp [hstate])] at hget
    cases hget
    rfl
  · rw [get_of_kind hk (by simp [hstate])] at hget
    cases hget
    rfl

/-- Only a ready container answers with a child. -/
theorem kind_of_found {x : DsonObj × Mem} (hkind : d.dsonKind ≠ .dataBufNeedParse)
    (hget : DsonObj.get e key (.dson d children) m = some (.child key, x)) :
    d.state = .ready ∧ d.dsonKind = .dsonContainer := by
  by_cases hstate : d.state ≠ .ready
  · rw [get_of_kind hkind hstate] at hget
    cases hget
  rw [DsonObj.get, if_neg hkind] at hget
  simp only [Option.bind_eq_bind, Option.bind_some] at hget
  rw [if_neg hstate] at hget
  refine ⟨not_not.mp hstate, ?_⟩
  cases hk : d.dsonKind with
  | dsonContainer => rfl
  | dataBufNeedParse => exact absurd hk hkind
  | oneObjectInDataBuf =>
      simp only [hk, Option.bind_eq_some_iff, Option.pure_def] at hget
      obtain ⟨own, -, hget⟩ := hget
      split_ifs at hget
      · obtain ⟨p, -, heq⟩ := Option.bind_eq_some_iff.mp hget
        cases heq
      · cases hget

/-! ### Insertions -/

theorem Dson.header_clear (d : Dson) (m : Mem) : (d.clear.header m).isSome ↔ (d.header m).isSome := by
  cases halloc : d.wasBufAllocation with
  | true => simp [Dson.header, Dson.headerIsLocal, Dson.clear, halloc, BufPtr.isNull]
  | false => simp [Dson.header, Dson.headerIsLocal, Dson.clear, halloc]

/-- An object in error is cleared. -/
theorem Dson.insertInternal_error (hstate : d.state = .error) (obj : DsonObj) :
    d.insertInternal e key obj children m = d.clear.insertInternal e key obj [] m := by
  rw [insertInternal, insertInternal, if_pos (by simp [hstate]), if_neg (by simp [clear]), resetState, if_pos hstate]

/-- A load or a copy ends. -/
theorem Dson.insertInternal_reset (hstate : d.state ≠ .error) (obj : DsonObj) :
    d.insertInternal e key obj children m = Dson.insertInternal e key obj { d with state := .ready } children m := by
  by_cases hready : d.state = .ready
  · have hself : { d with state := .ready } = d := by rw [← hready]
    rw [hself]
  · rw [insertInternal, insertInternal, if_pos hready, if_neg (by simp), resetState, if_neg hstate]

/-- An object that has been opened takes the new child, when its header can be written. -/
theorem Dson.insertInternal_opened {d₁ : Dson} {children₁ : ObjMap} {m₁ : Mem} (hready : d.state = .ready)
    (hopen : d.openAsContainer e children m = some (d₁, children₁, m₁)) (hready₁ : d₁.state = .ready) (obj : DsonObj) :
    d.insertInternal e key obj children m = (d₁.setDataTypeInternal e m₁ TypesMap.dsonContainer).map fun p =>
      (p.1, KeyMap.insertOrAssign key obj children₁, p.2) := by
  rw [insertInternal, if_neg (by simp [hready])]
  simp only [hopen, Option.bind_eq_bind, Option.bind_some]
  rw [if_neg (by simp [hready₁]), Option.map_eq_bind]
  rfl

theorem Dson.setDataTypeInternal_fields {h : Header} (hread : d.header m = some h) (type : Int) :
    ∃ d' m', d.setDataTypeInternal e m type = some (d', m') ∧ d'.state = d.state ∧ d'.dsonKind = d.dsonKind := by
  obtain ⟨d', m', hset, -, hd', -⟩ := Dson.setHeader_read hread (h.setDataType e type)
  refine ⟨d', m', ?_, by rw [hd'], by rw [hd']⟩
  rw [setDataTypeInternal, hread]
  exact hset

theorem Dson.header_of_setDataTypeInternal {type : Int} {x : Dson × Mem}
    (hset : d.setDataTypeInternal e m type = some x) : (d.header m).isSome := by
  obtain ⟨h, hread, -⟩ := Option.bind_eq_some_iff.mp hset
  rw [hread]
  rfl

/-- The end of a load or a copy is no matter to an insertion. -/
theorem Dson.accepts_ready (hstate : d.state ≠ .error) : Dson.Accepts e { d with state := .ready } m ↔ d.Accepts e m := by
  have hdata : Dson.data { d with state := .ready } = d.data := by
    rw [Dson.data, Dson.data]
    simp [hstate]
  have hunparsed : Dson.unparsed { d with state := .ready } m = d.unparsed m := by
    rw [Dson.unparsed, hdata, Dson.unparsed]
  have hread : Dson.header { d with state := .ready } m = d.header m := rfl
  simp only [Dson.Accepts, hread, hdata, hunparsed, hstate, reduceCtorEq]

/-- The header that a promotion finds in front of the payload. -/
theorem Dson.header_promoted (h : Header) {off : Nat} (hnull : d.buf.isNull = false) :
    (ofHeaderAndBuf h (d.buf.child off)).header (d.inner m) =
      (d.buf.tail m off).bind fun t => (Header.read t).map Prod.fst := by
  have htail : (d.buf.child off).tail (d.inner m) 0 = d.buf.tail m off := by
    cases hbuf : d.buf with
    | null =>
        rw [hbuf] at hnull
        cases hnull
    | own block => simp [BufPtr.child, BufPtr.tail, inner, hbuf, Mem.block]
    | view region start => simp [BufPtr.child, BufPtr.tail, inner, hbuf]
  have hlocal : (ofHeaderAndBuf h (d.buf.child off)).headerIsLocal = false := by
    cases hbuf : d.buf with
    | null =>
        rw [hbuf] at hnull
        cases hnull
    | own block => rfl
    | view region start => rfl
  have hbuf' : (ofHeaderAndBuf h (d.buf.child off)).buf = d.buf.child off := rfl
  rw [header, if_neg (by simp [hlocal]), hbuf', htail]
  cases d.buf.tail m off with
  | none => rfl
  | some t =>
      simp only [Option.bind_eq_bind, Option.bind_some]
      cases Header.read t <;> rfl

theorem Dson.isNull_of_data {off : Nat} (hdata : d.data = some off) : d.buf.isNull = false := by
  rw [Dson.data] at hdata
  split_ifs at hdata with hor
  · simpa using (not_or.mp hor).2
  · simpa using (not_or.mp hor).2

/-- A block that has been accepted is opened. -/
theorem Dson.Accepts.opened (h : d.Accepts e m) (hready : d.state = .ready) (hsorted : KeyMap.Sorted children)
    (hblocks : d.dsonKind = .dataBufNeedParse → d.Blocks) :
    ∃ d' children' m', d.openAsContainer e children m = some (d', children', m') ∧ d'.state = .ready ∧
      d'.dsonKind = .dsonContainer ∧ KeyMap.Sorted children' ∧ (d'.header m').isSome := by
  obtain ⟨hd, hread, herror | hkinds⟩ := h
  · rw [hready] at herror
    cases herror
  have hstate : d.state ≠ .error := by simp [hready]
  have hsome : (d.header m).isSome := by simp [hread]
  cases hkind : d.dsonKind with
  | dsonContainer =>
      refine ⟨d, children, m, ?_, hready, hkind, hsorted, hsome⟩
      simp only [Dson.openAsContainer, hkind]
  | dataBufNeedParse =>
      rw [hkind] at hkinds
      obtain ⟨htype, hrecords⟩ := hkinds
      rw [Dson.openAsContainer_unparsed hkind]
      rcases hblocks hkind with ⟨halloc, block, hbuf, hsize, hlimit⟩ | ⟨halloc, hsize⟩
      · have hlocal : d.headerIsLocal = true := by simp [Dson.headerIsLocal, halloc]
        rw [header_local hlocal] at hread
        cases hread
        rcases parseBuf_spec hbuf halloc hsize hstate htype hlimit children with
          ⟨recs, -, -, hparse⟩ | ⟨hnot, -⟩
        · rw [hparse]
          exact ⟨_, _, _, rfl, hready, rfl, sorted_views e 0 recs hsorted, hsome⟩
        · refine absurd ?_ hnot
          have hunparsed : d.unparsed m = block := by
            simp [Dson.unparsed, Dson.data, hstate, hbuf, BufPtr.isNull, halloc, BufPtr.tail, hsize]
          rwa [hunparsed] at hrecords
      · have hdata : d.dataType e m = some TypesMap.dsonContainer := by
          rw [Dson.dataType, if_neg hstate, hread, Option.map_some, htype]
        have hparse : d.parseBuf e children m = some ({ d with dsonKind := .dsonContainer }, children) := by
          rw [parseBuf, hdata]
          simp only [Option.bind_eq_bind, Option.bind_some, ne_eq, not_true_eq_false, if_false, hsize]
          rw [Dson.parseLoop_stop (by decide)]
          rfl
        rw [hparse]
        exact ⟨_, _, _, rfl, hready, rfl, hsorted, hsome⟩
  | oneObjectInDataBuf =>
      rw [hkind] at hkinds
      obtain ⟨off, t, h', rest, hdata, htail, hfront, hnonneg⟩ := hkinds
      have hkey : (ofHeaderAndBuf hd (d.buf.child off)).key e (d.inner m) = some (h'.keyOf e) := by
        rw [Dson.key, Dson.header_promoted hd (Dson.isNull_of_data hdata), htail, Option.bind_some, hfront]
        rfl
      obtain ⟨d', m', hset, hstate', hkind'⟩ :=
        @Dson.setDataTypeInternal_fields e { d with dsonKind := .dsonContainer } m hd hread TypesMap.dsonContainer
      have hopen : d.openAsContainer e children m = some (d', KeyMap.insertOrAssign (h'.keyOf e)
          (.dson (ofHeaderAndBuf hd (d.buf.child off)) []) children, m') := by
        simp only [Dson.openAsContainer, hkind, Dson.oneObjectBufToContainer, hdata, hread, hkey, Option.bind_eq_bind,
          Option.bind_some]
        rw [if_neg (not_lt.mpr hnonneg), hset]
        rfl
      refine ⟨_, _, _, hopen, hstate'.trans hready, hkind', KeyMap.sorted_insertOrAssign hsorted _ _, ?_⟩
      obtain ⟨d₂, m₂, hset₂, hread₂, -⟩ :=
        @Dson.setHeader_read { d with dsonKind := .dsonContainer } m hd hread (hd.setDataType e TypesMap.dsonContainer)
      have hrun : Dson.setDataTypeInternal e { d with dsonKind := .dsonContainer } m TypesMap.dsonContainer =
          some (d₂, m₂) := by
        rw [setDataTypeInternal, show Dson.header { d with dsonKind := .dsonContainer } m = some hd from hread]
        exact hset₂
      cases hset.symm.trans hrun
      simp [hread₂]

/-- What opening an object can make of it: it stays ready, and is then parsed, or it is in error. -/
theorem Dson.openAsContainer_state {d₁ : Dson} {children₁ : ObjMap} {m₁ : Mem} (hready : d.state = .ready)
    (hopen : d.openAsContainer e children m = some (d₁, children₁, m₁)) :
    d₁.state = .error ∨ (d₁.state = .ready ∧ d₁.dsonKind ≠ .dataBufNeedParse) := by
  cases hkind : d.dsonKind with
  | dsonContainer =>
      simp only [Dson.openAsContainer, hkind] at hopen
      cases hopen
      exact Or.inr ⟨hready, by simp [hkind]⟩
  | dataBufNeedParse =>
      rw [Dson.openAsContainer_unparsed hkind] at hopen
      obtain ⟨⟨d', children'⟩, hparse, heq⟩ := Option.map_eq_some_iff.mp hopen
      cases heq
      rcases parseBuf_cases hparse with ⟨rfl, -, -⟩ | ⟨-, notUsed, -, ⟨-, rfl⟩ | ⟨-, rfl⟩⟩
      · exact Or.inr ⟨hready, by simp⟩
      · exact Or.inl rfl
      · exact Or.inr ⟨hready, by simp⟩
  | oneObjectInDataBuf =>
      simp only [Dson.openAsContainer, hkind] at hopen
      rcases oneObjectBufToContainer_cases hopen with ⟨rfl, -, -, -⟩ | ⟨off, h, own, -, -, -, -, hset, -⟩
      · exact Or.inl rfl
      · have hrewrites := setDataTypeInternal_rewrites hset
        refine Or.inr ⟨by rw [hrewrites.fields]; exact hready, ?_⟩
        rw [hrewrites.fields]
        simp

/-- A ready object that becomes a container has been accepted. -/
theorem Dson.accepts_of_opened {d₁ : Dson} {children₁ : ObjMap} {m₁ : Mem} (hready : d.state = .ready)
    (hblocks : d.dsonKind = .dataBufNeedParse → d.Blocks)
    (hopen : d.openAsContainer e children m = some (d₁, children₁, m₁)) (hready₁ : d₁.state = .ready)
    (hkind₁ : d₁.dsonKind = .dsonContainer) (hread₁ : (d₁.header m₁).isSome) : d.Accepts e m := by
  have hstate : d.state ≠ .error := by simp [hready]
  cases hkind : d.dsonKind with
  | dsonContainer =>
      simp only [Dson.openAsContainer, hkind] at hopen
      cases hopen
      obtain ⟨h, hread⟩ := Option.isSome_iff_exists.mp hread₁
      refine ⟨h, hread, Or.inr ?_⟩
      rw [hkind]
      trivial
  | dataBufNeedParse =>
      rw [Dson.openAsContainer_unparsed hkind] at hopen
      obtain ⟨⟨d', children'⟩, hparse, heq⟩ := Option.map_eq_some_iff.mp hopen
      cases heq
      rcases parseBuf_cases hparse with ⟨rfl, -, -⟩ | ⟨htype, notUsed, -, -⟩
      · cases hkind₁
      rw [Dson.dataType, if_neg hstate] at htype
      obtain ⟨h, hread, htype⟩ := Option.map_eq_some_iff.mp htype
      refine ⟨h, hread, Or.inr ?_⟩
      rw [hkind]
      refine ⟨htype, ?_⟩
      rcases hblocks hkind with ⟨halloc, block, hbuf, hsize, hlimit⟩ | ⟨halloc, hsize⟩
      · have hlocal : d.headerIsLocal = true := by simp [Dson.headerIsLocal, halloc]
        rw [header_local hlocal] at hread
        cases hread
        have hunparsed : d.unparsed m = block := by
          simp [Dson.unparsed, Dson.data, hstate, hbuf, BufPtr.isNull, halloc, BufPtr.tail, hsize]
        rw [hunparsed]
        rcases parseBuf_spec hbuf halloc hsize hstate htype hlimit children with
          ⟨recs, hfits, hbytes, -⟩ | ⟨-, map', hfail⟩
        · exact ⟨recs, hfits, hbytes⟩
        · cases hparse.symm.trans hfail
          cases hready₁
      · rw [Dson.unparsed, hsize]
        exact isRecords_nil e
  | oneObjectInDataBuf =>
      simp only [Dson.openAsContainer, hkind] at hopen
      rcases oneObjectBufToContainer_cases hopen with ⟨rfl, -, -, -⟩ | ⟨off, h, own, hdata, hread, hkey, hnonneg, -, -⟩
      · cases hready₁
      refine ⟨h, hread, Or.inr ?_⟩
      rw [hkind]
      rw [Dson.key, Dson.header_promoted h (Dson.isNull_of_data hdata)] at hkey
      obtain ⟨h', hfront, hkey⟩ := Option.map_eq_some_iff.mp hkey
      obtain ⟨t, htail, hfront⟩ := Option.bind_eq_some_iff.mp hfront
      obtain ⟨p, hp, rfl⟩ := Option.map_eq_some_iff.mp hfront
      refine ⟨off, t, p.1, p.2, hdata, htail, hp, ?_⟩
      rw [hkey]
      exact hnonneg

/-- An insertion into an object that accepts it binds the key in a ready container. -/
theorem Dson.Accepts.insertInternal (h : d.Accepts e m) (hsorted : KeyMap.Sorted children)
    (hblocks : d.dsonKind = .dataBufNeedParse → d.Blocks) (v : DsonObj) :
    ∃ d' children' m', d.insertInternal e key v children m = some (d', children', m') ∧ d'.state = .ready ∧
      d'.dsonKind = .dsonContainer ∧ KeyMap.Sorted children' ∧ KeyMap.find key children' = some v := by
  -- the object is ready, when it has been cleared or reset
  have main : ∀ {d : Dson} {children : ObjMap}, d.Accepts e m → d.state = .ready → KeyMap.Sorted children →
      (d.dsonKind = .dataBufNeedParse → d.Blocks) →
      ∃ d' children' m', d.insertInternal e key v children m = some (d', children', m') ∧ d'.state = .ready ∧
        d'.dsonKind = .dsonContainer ∧ KeyMap.Sorted children' ∧ KeyMap.find key children' = some v := by
    intro d children h hready hsorted hblocks
    obtain ⟨d₁, children₁, m₁, hopen, hready₁, hkind₁, hsorted₁, hread₁⟩ := h.opened hready hsorted hblocks
    obtain ⟨h₁, hread₁⟩ := Option.isSome_iff_exists.mp hread₁
    obtain ⟨d', m', hset, hstate', hkind'⟩ := @Dson.setDataTypeInternal_fields e _ _ _ hread₁ TypesMap.dsonContainer
    refine ⟨d', _, m', ?_, hstate'.trans hready₁, hkind'.trans hkind₁, KeyMap.sorted_insertOrAssign hsorted₁ key v,
      KeyMap.find_insertOrAssign_self key v children₁⟩
    rw [Dson.insertInternal_opened hready hopen hready₁, hset]
    rfl
  by_cases hstate : d.state = .error
  · rw [Dson.insertInternal_error hstate]
    obtain ⟨h₀, hread, -⟩ := h
    obtain ⟨h₁, hread₁⟩ := Option.isSome_iff_exists.mp ((Dson.header_clear d m).mpr (by simp [hread]))
    exact main ⟨h₁, hread₁, Or.inr trivial⟩ rfl KeyMap.sorted_nil fun hk => by cases hk
  · rw [Dson.insertInternal_reset hstate]
    exact main ((Dson.accepts_ready hstate).mpr h) rfl hsorted hblocks

/-- An insertion after which the key is found has been accepted. -/
theorem Dson.accepts_of_found (hblocks : d.dsonKind = .dataBufNeedParse → d.Blocks) {v : DsonObj} {d' : Dson}
    {children' : ObjMap} {m' : Mem} {x : DsonObj × Mem}
    (hrun : d.insertInternal e key v children m = some (d', children', m'))
    (hfound : DsonObj.get e key (.dson d' children') m' = some (.child key, x)) : d.Accepts e m := by
  have main : ∀ {d : Dson} {children : ObjMap}, d.state = .ready → (d.dsonKind = .dataBufNeedParse → d.Blocks) →
      d.insertInternal e key v children m = some (d', children', m') → d.Accepts e m := by
    intro d children hready hblocks hrun
    rw [Dson.insertInternal, if_neg (by simp [hready])] at hrun
    obtain ⟨⟨d₁, children₁, m₁⟩, hopen, hrun⟩ := Option.bind_eq_some_iff.mp hrun
    dsimp only at hrun
    rcases Dson.openAsContainer_state hready hopen with herror | ⟨hready₁, hkind₁⟩
    · rw [if_pos (by simp [herror])] at hrun
      cases hrun
      cases get_error herror hfound
    · rw [if_neg (by simp [hready₁])] at hrun
      obtain ⟨⟨d₂, m₂⟩, hset, heq⟩ := Option.bind_eq_some_iff.mp hrun
      cases heq
      have hrewrites := Dson.setDataTypeInternal_rewrites hset
      have hsame : d₂.dsonKind = d₁.dsonKind := by rw [hrewrites.fields]
      have hcontainer := (kind_of_found (by rw [hsame]; exact hkind₁) hfound).2
      exact Dson.accepts_of_opened hready hblocks hopen hready₁ (hsame.symm.trans hcontainer)
        (Dson.header_of_setDataTypeInternal hset)
  by_cases hstate : d.state = .error
  · rw [Dson.insertInternal_error hstate] at hrun
    obtain ⟨h, hread, -⟩ := main rfl (fun hk => by cases hk) hrun
    obtain ⟨h₀, hread₀⟩ := Option.isSome_iff_exists.mp ((Dson.header_clear d m).mp (by simp [hread]))
    exact ⟨h₀, hread₀, Or.inl hstate⟩
  · rw [Dson.insertInternal_reset hstate] at hrun
    exact (Dson.accepts_ready hstate).mp (main rfl hblocks hrun)

end

/-- What is put under a key is found there, and is part of every complete emission, if and only if the object
accepted it. The map of children is in the order of its keys, what has not been parsed has a block of its size or
none, and the new child is one that a lookup can convert where it lies. -/
theorem emplace_kept_iff {e : Endian} {d : Dson} {children : ObjMap} {m m₁ : Mem} {key : Int} {v v' : DsonObj}
    (hsorted : KeyMap.Sorted children) (hblocks : d.dsonKind = .dataBufNeedParse → d.Blocks)
    (hkey : v.setKey e m key = some (v', m₁))
    (hv : ∀ d' children' m', DsonObj.emplace e key v (.dson d children) m = some (.dson d' children', m') →
      (v'.toHost e (d'.inner m')).isSome) :
    (∃ o' m', DsonObj.emplace e key v (.dson d children) m = some (o', m') ∧ Emplaced e key v' o' m') ↔
      d.Accepts e m₁ := by
  have hrun : DsonObj.emplace e key v (.dson d children) m =
      (d.insertInternal e key v' children m₁).map fun p => (.dson p.1 p.2.1, p.2.2) := by
    rw [DsonObj.emplace, hkey, Option.map_eq_bind]
    rfl
  constructor
  · rintro ⟨o', m', hemplace, hemplaced⟩
    rw [hrun] at hemplace
    obtain ⟨⟨d', children', m''⟩, hins, heq⟩ := Option.map_eq_some_iff.mp hemplace
    cases heq
    obtain ⟨x, hfound⟩ := hemplaced.found
    exact Dson.accepts_of_found hblocks hins hfound
  · intro h
    obtain ⟨d', children', m', hins, hready, hkind, hsorted', hfind⟩ := h.insertInternal hsorted hblocks v'
    have hemplace : DsonObj.emplace e key v (.dson d children) m = some (.dson d' children', m') := by
      rw [hrun, hins]
      rfl
    exact ⟨_, _, hemplace, .of_container hready hkind hsorted' hfind (hv d' children' m' hemplace)⟩

theorem emplace_kept_iff_sample : ∃ o' m',
    DsonObj.emplace .little 7 (DsonObj.ofStringObj .little 0 [104, 105]) (.empty .little) ⟨[], []⟩ = some (o', m') ∧
      Emplaced .little 7 (DsonObj.ofStringObj .little 7 [104, 105]) o' m' :=
  (emplace_kept_iff KeyMap.sorted_nil (fun hk => by cases hk) rfl fun _ _ _ _ => rfl).mpr ⟨_, rfl, Or.inr trivial⟩

/-- A message with the number 9 under the key 5, loaded and not looked at. -/
def loadedNumber : Dson :=
  Dson.loaded ⟨markHostOrder .little, Cell.ofInt .little 4, Cell.ofInt .little 5, Cell.ofInt .little 3⟩ [9, 0, 0, 0]

/-- What is put into it is not found. -/
example : ((DsonObj.emplace .little 7 (DsonObj.ofStringObj .little 0 [104, 105]) (.dson loadedNumber [])
    ⟨[], []⟩).bind fun p => (DsonObj.get .little 7 p.1 p.2).map Prod.fst) = some .null := by decide

end LeanDson
