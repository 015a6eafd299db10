import LeanDson.Arrival
import LeanDson.Inversion
import LeanDson.Reading
import LeanDson.History

/-! Promotion of a single object to a container. The child that `one_object_buf_to_container` makes has
a header of its own, but reads its header where its buffer starts, which is the payload; and an object
that has been loaded and not looked at is not promoted at all. -/

namespace LeanDson

/-! ### What a caller sees of an object -/

/-- The key, the type, and as many bytes at the data pointer as the object announces. -/
def DsonObj.seen (e : Endian) : DsonObj → Mem → Option (Int × Int × Bytes)
  | .dson d children, m => do
      let key ← d.key e m
      let type ← d.dataType e m
      let size ← DsonObj.dataSize e m (.dson d children)
      let off ← d.data
      let t ← d.buf.tail m off
      if size < 0 ∨ t.length < size.toNat then none else return (key, type, t.take size.toNat)
  | .string s, _ => some (s.header.keyOf e, s.header.dataTypeOf e, s.object)
  | .route r, _ => some (r.header.keyOf e, TypesMap.vectorUint32, r.address.bytes)

/-- The same of what a lookup has found. -/
def DsonObj.seenAt (e : Endian) (f : Found) (o : DsonObj) (m : Mem) : Option (Int × Int × Bytes) :=
  match f with
  | .null => none
  | .self => o.seen e m
  | .child key => (o.onChild key (fun o m => (o.seen e m).map fun a => (a, o, m)) m).map Prod.fst

/-- The keys that an iteration over the map goes through. -/
def DsonObj.mapKeys : DsonObj → List Int
  | .dson _ children => KeyMap.keys children
  | _ => []

/-- A lookup under `key` finds an object with that key, the type and a payload of `n` bytes. -/
def Finds (e : Endian) (key type : Int) (n : Nat) (o : DsonObj) (m : Mem) : Prop :=
  ∃ f o' m' payload, o.get e key m = some (f, o', m') ∧ o'.seenAt e f m' = some (key, type, payload) ∧
    payload.length = n

/-- An insertion under another key goes through, and the object that was there is still found. -/
def KeptByEmplace (e : Endian) (key type : Int) (n : Nat) (key₂ : Int) (obj o : DsonObj) (m : Mem) : Prop :=
  ∃ o' m', DsonObj.emplace e key₂ obj o m = some (o', m') ∧ Finds e key type n o' m'

/-- `map` goes through, and its one entry is the object that was there. -/
def KeptByMap (e : Endian) (key type : Int) (n : Nat) (o : DsonObj) (m : Mem) : Prop :=
  ∃ o' m' payload, DsonObj.map e o m = some (o', m') ∧ o'.mapKeys = [key] ∧
    o'.seenAt e (.child key) m' = some (key, type, payload) ∧ payload.length = n

/-- The objects that hold exactly one object which is not a container, with its key, its type and the
length of its payload: built from a value, loaded and not looked at, or loaded and then read. -/
inductive Single (e : Endian) : DsonObj → Int → Int → Nat → Prop
  | built {d : Dson} {k : Int} {v : Value} (h : Built e (.dson d []) k (.leaf v)) (hk : 0 ≤ k) :
      Single e (.dson d []) k v.type v.size
  | loaded {o : DsonObj} {h : Header} {body : Bytes} (ho : Arrives e o (h.bytes ++ body)) (hm : IsMessage e h body)
      (hv : h.ValidMark e) (hk : 0 ≤ h.keyOf e) (ht : h.dataTypeOf e ≠ TypesMap.dsonContainer) :
      Single e o (h.keyOf e) (h.dataTypeOf e) body.length
  | read {o o' : DsonObj} {h : Header} {body : Bytes} {key : Int} {f : Found} {m m' : Mem}
      (ho : Arrives e o (h.bytes ++ body)) (hm : IsMessage e h body) (hv : h.ValidMark e) (hk : 0 ≤ h.keyOf e)
      (ht : h.dataTypeOf e ≠ TypesMap.dsonContainer) (hget : o.get e key m = some (f, o', m')) :
      Single e o' (h.keyOf e) (h.dataTypeOf e) body.length

/-! ### The three forms -/

/-- A single object over a block of its own, with the fields that its promotion reads. -/
structure Dson.IsSingle (e : Endian) (d : Dson) (key type : Int) (block : Bytes) : Prop where
  state : d.state = .ready
  kind : d.dsonKind = .oneObjectInDataBuf
  alloc : d.wasBufAllocation = true
  buf : d.buf = .own block
  nonempty : block ≠ []
  key : d.headerBuf.keyOf e = key
  type : d.headerBuf.dataTypeOf e = type
  size : d.headerBuf.dataSizeOf e = block.length

/-- A loaded object that has not been looked at. -/
structure Dson.IsUnread (e : Endian) (d : Dson) (key type : Int) : Prop where
  state : d.state = .ready
  kind : d.dsonKind = .dataBufNeedParse
  alloc : d.wasBufAllocation = true
  key : d.headerBuf.keyOf e = key
  type : d.headerBuf.dataTypeOf e = type

/-- A message without a payload is a container without children. -/
structure Dson.IsBlank (d : Dson) : Prop where
  state : d.state = .ready
  kind : d.dsonKind = .dsonContainer
  buf : d.buf = .null
  alloc : d.wasBufAllocation = false

section

variable {e : Endian} {o : DsonObj} {key type : Int} {n : Nat}

theorem Dson.Took.single {d : Dson} {h : Header} {body : Bytes} (ht : d.Took e h body) :
    d.IsUnread e (h.keyOf e) (h.dataTypeOf e) ∨ d.IsBlank := by
  obtain ⟨rfl, -, -, ⟨-, hd⟩ | ⟨-, hstate, hkind, hbuf, halloc⟩⟩ := ht
  · exact Or.inl ⟨hd.state, hd.kind, hd.alloc, rfl, rfl⟩
  · exact Or.inr ⟨hstate, hkind, hbuf, halloc⟩

/-- A lookup on a loaded object that is not a container makes it a single object. -/
theorem Dson.Took.get_single {d : Dson} {h : Header} {body : Bytes} (ht : d.Took e h body) (hm : IsMessage e h body)
    (hv : h.ValidMark e) (htype : h.dataTypeOf e ≠ TypesMap.dsonContainer) {k : Int} {f : Found} {m m' : Mem}
    (hget : DsonObj.get e k (.dson d []) m = some (f, o, m')) :
    ∃ d', o = .dson d' [] ∧
      ((∃ block, d'.IsSingle e (h.keyOf e) (h.dataTypeOf e) block ∧ block.length = body.length) ∨ d'.IsBlank) := by
  obtain ⟨rfl, -, -, ⟨hne, hd⟩ | ⟨-, hstate, hkind, hbuf, halloc⟩⟩ := ht
  · have hread := header_local (show d.headerIsLocal = true by simp [headerIsLocal, hd.alloc]) m
    have hparse := parseBuf_other [] (by simp [hd.state]) hread htype
    have hsingle : Dson.IsSingle e { d with dsonKind := .oneObjectInDataBuf } (d.headerBuf.keyOf e)
        (d.headerBuf.dataTypeOf e) body := ⟨hd.state, rfl, hd.alloc, hd.buf, hne, rfl, rfl, hm.size⟩
    rw [DsonObj.get, if_pos hd.kind, hparse] at hget
    simp only [Option.bind_eq_bind, Option.bind_some] at hget
    rw [if_neg (by simp [hd.state]), Dson.key, header_local (by simp [headerIsLocal, hd.alloc])] at hget
    simp only [Option.map_some, Option.bind_some] at hget
    by_cases hk : d.headerBuf.keyOf e = k
    · rw [if_pos hk] at hget
      obtain ⟨⟨d', m''⟩, hhost, heq⟩ := Option.bind_eq_some_iff.mp hget
      cases heq
      have hput := isRecord_own (d := { d with dsonKind := .oneObjectInDataBuf }) hd.alloc (by simp [hd.state]) m
      have hrec := hput.toOrder e d.headerBuf body false
      have hd' : { ({ d with dsonKind := .oneObjectInDataBuf } : Dson) with
          headerBuf := d.headerBuf, buf := .own body } = { d with dsonKind := .oneObjectInDataBuf } := by
        rw [← hd.buf]
      rw [hd', toOrder, if_neg (by simp), hhost] at hrec
      obtain ⟨⟨h', b'⟩, hconv, heq⟩ := Option.map_eq_some_iff.mp hrec.symm
      cases heq
      have hlen := (convertRecord_local hconv).1
      have hheader := convertRecord_header hconv
      refine ⟨_, rfl, Or.inl ⟨b', ⟨hd.state, rfl, hd.alloc, rfl, ?_, ?_, ?_, ?_⟩, hlen⟩⟩
      · intro hnil
        rw [hnil] at hlen
        exact hne (List.eq_nil_of_length_eq_zero hlen.symm)
      · rcases hheader with rfl | rfl
        · rfl
        · exact Header.keyOf_toOrder hv false
      · rcases hheader with rfl | rfl
        · rfl
        · exact Header.dataTypeOf_toOrder hv false
      · dsimp only
        rw [hlen, ← hm.size]
        rcases hheader with rfl | rfl
        · rfl
        · exact Header.dataSizeOf_toOrder hv false
    · rw [if_neg hk] at hget
      cases hget
      exact ⟨_, rfl, Or.inl ⟨body, hsingle, rfl⟩⟩
  · rw [DsonObj.get, if_neg (by simp [hkind])] at hget
    simp only [Option.bind_eq_bind, Option.bind_some] at hget
    rw [if_neg (by simp [hstate])] at hget
    simp only [hkind, DsonObj.getInternal, KeyMap.find] at hget
    cases hget
    exact ⟨d, rfl, Or.inr ⟨hstate, hkind, hbuf, halloc⟩⟩

/-- The three forms of a single object. -/
theorem Single.cases (h : Single e o key type n) : ∃ d, o = .dson d [] ∧ type ≠ TypesMap.dsonContainer ∧
    ((∃ block, d.IsSingle e key type block ∧ block.length = n) ∨ d.IsUnread e key type ∨ d.IsBlank) := by
  cases h with
  | built h hk =>
      have ho := h.holds
      rw [Holds] at ho
      obtain ⟨hstate, -, block, hown, hl⟩ := ho
      exact ⟨_, rfl, hl.leaf, Or.inl ⟨block, ⟨hstate, hown.kind, hown.alloc, hown.buf, hown.nonempty, hl.key, hl.type,
        hl.size⟩, hl.length_eq.symm⟩⟩
  | loaded ho hm hv hk ht =>
      obtain ⟨d, rfl, htook⟩ := ho.took hm
      exact ⟨d, rfl, ht, Or.inr htook.single⟩
  | read ho hm hv hk ht hget =>
      obtain ⟨d, rfl, htook⟩ := ho.took hm
      obtain ⟨d', rfl, hcases⟩ := htook.get_single hm hv ht hget
      exact ⟨d', rfl, ht, hcases.imp id Or.inr⟩

/-! ### The promoted child -/

/-- The child that a promotion makes reads its header at the start of the payload. -/
theorem Dson.IsSingle.promoted {d : Dson} {block : Bytes} (hd : d.IsSingle e key type block) {d' : Dson}
    {children : ObjMap} {m m' : Mem} (hrun : d.oneObjectBufToContainer e [] m = some (d', children, m')) :
    (d' = { d with state := .error } ∧ children = []) ∨
      ∃ h b, block = Header.bytes h ++ b ∧ d' = { d with
        dsonKind := .dsonContainer
        headerBuf := d.headerBuf.setDataType e TypesMap.dsonContainer } ∧ m' = m ∧
        children = [(h.keyOf e, .dson (ofHeaderAndBuf d.headerBuf (.view .owner 0)) [])] := by
  have hdata : d.data = some 0 := by
    rw [data, if_neg (by simp [hd.state, hd.buf, BufPtr.isNull]), if_pos hd.alloc]
  have hlocal : d.headerIsLocal = true := by simp [headerIsLocal, hd.alloc]
  have hchild : d.buf.child 0 = .view .owner 0 := by rw [hd.buf, BufPtr.child]
  simp only [oneObjectBufToContainer, hdata, header_local hlocal, hchild, Option.bind_eq_bind,
    Option.bind_some] at hrun
  obtain ⟨k, hkey, hrest⟩ := Option.bind_eq_some_iff.mp hrun
  have hread : ∃ h b, Header.read block = some (h, b) ∧ h.keyOf e = k := by
    rw [Dson.key, Dson.header, if_neg (by simp [headerIsLocal, ofHeaderAndBuf, uninit, BufPtr.isNull])] at hkey
    simp only [ofHeaderAndBuf, BufPtr.tail, Mem.block, inner, hd.buf, Nat.zero_add, Nat.zero_le, if_true,
      List.drop_zero, Option.bind_eq_bind, Option.bind_some] at hkey
    cases hr : Header.read block with
    | none =>
        rw [hr] at hkey
        cases hkey
    | some p =>
        rw [hr] at hkey
        exact ⟨p.1, p.2, rfl, Option.some.inj hkey⟩
  obtain ⟨h, b, hr, rfl⟩ := hread
  by_cases hneg : h.keyOf e < 0
  · rw [if_pos hneg] at hrest
    cases hrest
    exact Or.inl ⟨rfl, rfl⟩
  · rw [if_neg hneg] at hrest
    have hlocal' : ({ d with dsonKind := .dsonContainer } : Dson).headerIsLocal = true := hlocal
    rw [setDataTypeInternal_local hlocal'] at hrest
    cases hrest
    exact Or.inr ⟨h, b, Header.eq_of_read hr, rfl, rfl, rfl⟩

theorem ofHeaderAndBuf_isView (h : Header) : (Dson.ofHeaderAndBuf h (.view .owner 0)).IsView ([] : Bytes).length :=
  ⟨by simp [Dson.ofHeaderAndBuf, Dson.uninit], by simp [Dson.ofHeaderAndBuf], rfl, rfl⟩

/-- A view over the payload has fewer bytes behind its header than the payload. -/
theorem seen_promoted {h₀ h : Header} {b : Bytes} {m : Mem} {k t : Int} {payload : Bytes}
    (hblock : m.owner = h.bytes ++ b)
    (hseen : DsonObj.seen e (.dson (Dson.ofHeaderAndBuf h₀ (.view .owner 0)) []) m = some (k, t, payload)) :
    payload.length ≤ b.length := by
  have hview := ofHeaderAndBuf_isView h₀
  have hblock' : m.owner = ([] : Bytes) ++ (h.bytes ++ b) := hblock
  rw [DsonObj.seen] at hseen
  simp only [Option.bind_eq_bind, Option.bind_eq_some_iff] at hseen
  obtain ⟨k', -, t', -, size, -, off, hoff, tail, htail, hseen⟩ := hseen
  rw [Dson.IsView.data hview] at hoff
  cases hoff
  rw [Dson.IsView.tail hview hblock'] at htail
  cases htail
  split_ifs at hseen
  cases hseen
  rw [List.length_take]
  exact min_le_right _ _

/-- The conversion of such a view keeps the length of the block. -/
theorem toHost_promoted {h₀ h : Header} {b : Bytes} {m m' : Mem} {o' : DsonObj} (hblock : m.owner = h.bytes ++ b)
    (hrun : DsonObj.toHost e (.dson (Dson.ofHeaderAndBuf h₀ (.view .owner 0)) []) m = some (o', m')) :
    o' = .dson (Dson.ofHeaderAndBuf h₀ (.view .owner 0)) [] ∧
      ∃ h' b', m'.owner = Header.bytes h' ++ b' ∧ b'.length = b.length := by
  have hblock' : m.owner = ([] : Bytes) ++ (h.bytes ++ b) := hblock
  rw [DsonObj.toHost, Dson.IsView.toHost (ofHeaderAndBuf_isView h₀) hblock'] at hrun
  obtain ⟨⟨d', m''⟩, hhost, heq⟩ := Option.bind_eq_some_iff.mp hrun
  cases heq
  obtain ⟨⟨h', b'⟩, hconv, heq⟩ := Option.map_eq_some_iff.mp hhost
  cases heq
  exact ⟨rfl, h', b', rfl, (convertRecord_local hconv).1⟩

/-- A promoted child is not found with its payload. -/
theorem not_finds_promoted {d : Dson} {children : ObjMap} {g h : Header} {b : Bytes} {m : Mem}
    (hstate : d.state = .ready) (hkind : d.dsonKind = .dsonContainer) (hbuf : d.buf = .own (h.bytes ++ b))
    (hfind : KeyMap.find key children = none ∨
      KeyMap.find key children = some (.dson (Dson.ofHeaderAndBuf g (.view .owner 0)) []))
    (hn : b.length < n) : ¬Finds e key type n (.dson d children) m := by
  rintro ⟨f, o', m', payload, hget, hseen, hlen⟩
  rw [DsonObj.get, if_neg (by simp [hkind])] at hget
  simp only [Option.bind_eq_bind, Option.bind_some] at hget
  rw [if_neg (by simp [hstate])] at hget
  simp only [hkind, DsonObj.getInternal] at hget
  rcases hfind with hnone | hsome
  · rw [hnone] at hget
    cases hget
    cases hseen
  · have hinner : (d.inner m).owner = h.bytes ++ b := by rw [Dson.inner, hbuf]
    simp only [hsome, DsonObj.onChild, Option.bind_eq_bind, Option.bind_some] at hget
    obtain ⟨⟨f', o'', inside⟩, hchild, hrest⟩ := Option.bind_eq_some_iff.mp hget
    obtain ⟨⟨o₁, m₁⟩, hhost, heq⟩ := Option.bind_eq_some_iff.mp hchild
    cases heq
    obtain ⟨rfl, h', b', hblock, hlen'⟩ := toHost_promoted hinner hhost
    have houter : d.outer m m₁ = ({ d with buf := .own m₁.owner }, { m with external := m₁.external }) := by
      rw [Dson.outer, hbuf]
    rw [houter] at hrest
    cases hrest
    simp only [DsonObj.seenAt, DsonObj.onChild, KeyMap.find_insertOrAssign_self, Option.bind_eq_bind,
      Option.bind_some] at hseen
    obtain ⟨⟨a, p⟩, ha, rfl⟩ := Option.map_eq_some_iff.mp hseen
    obtain ⟨⟨a', o₂, m₂⟩, hfound, heq⟩ := Option.bind_eq_some_iff.mp ha
    obtain ⟨a'', hseen', heq'⟩ := Option.map_eq_some_iff.mp hfound
    cases heq'
    cases heq
    have hle := seen_promoted (m := Dson.inner { d with buf := .own m₁.owner } { m with external := m₁.external })
      hblock hseen'
    omega

/-! ### Insertions -/

/-- What an insertion does to a ready object: it opens it as a container, and stops or binds the key. -/
theorem emplace_cases {d : Dson} {children : ObjMap} (hstate : d.state = .ready) {key₂ : Int} {obj o' : DsonObj}
    {m m' : Mem} (hrun : DsonObj.emplace e key₂ obj (.dson d children) m = some (o', m')) :
    ∃ m₀ d₁ children₁ m₁, d.openAsContainer e children m₀ = some (d₁, children₁, m₁) ∧
      ((d₁.state ≠ .ready ∧ o' = .dson d₁ children₁) ∨
        ∃ obj' d₂, d₁.setDataTypeInternal e m₁ TypesMap.dsonContainer = some (d₂, m') ∧ d₁.state = .ready ∧
          o' = .dson d₂ (KeyMap.insertOrAssign key₂ obj' children₁)) := by
  obtain ⟨⟨obj', m₀⟩, -, hrun⟩ := Option.bind_eq_some_iff.mp hrun
  obtain ⟨⟨d', children', m''⟩, hins, heq⟩ := Option.bind_eq_some_iff.mp hrun
  cases heq
  rw [Dson.insertInternal, if_neg (by simp [hstate])] at hins
  obtain ⟨⟨d₁, children₁, m₁⟩, hopen, hins⟩ := Option.bind_eq_some_iff.mp hins
  refine ⟨m₀, d₁, children₁, m₁, hopen, ?_⟩
  dsimp only at hins
  by_cases hready : d₁.state = .ready
  · rw [if_neg (by simp [hready])] at hins
    obtain ⟨⟨d₂, m₂⟩, hset, heq⟩ := Option.bind_eq_some_iff.mp hins
    cases heq
    exact Or.inr ⟨obj', d₂, hset, hready, rfl⟩
  · rw [if_pos (by simpa using hready)] at hins
    cases hins
    exact Or.inl ⟨hready, rfl⟩

/-- An object that is not ready finds nothing. -/
theorem not_finds_error {d : Dson} {children : ObjMap} (hstate : d.state ≠ .ready)
    (hkind : d.dsonKind ≠ .dataBufNeedParse) (m : Mem) : ¬Finds e key type n (.dson d children) m := by
  rintro ⟨f, o', m', payload, hget, hseen, -⟩
  rw [DsonObj.get, if_neg hkind] at hget
  simp only [Option.bind_eq_bind, Option.bind_some] at hget
  rw [if_pos hstate] at hget
  cases hget
  cases hseen

/-- Nothing is found under a key that a container does not have. -/
theorem not_finds_none {d : Dson} {children : ObjMap} (hstate : d.state = .ready) (hkind : d.dsonKind = .dsonContainer)
    (hfind : KeyMap.find key children = none) (m : Mem) : ¬Finds e key type n (.dson d children) m := by
  rintro ⟨f, o', m', payload, hget, hseen, -⟩
  rw [DsonObj.get, if_neg (by simp [hkind])] at hget
  simp only [Option.bind_eq_bind, Option.bind_some] at hget
  rw [if_neg (by simp [hstate])] at hget
  simp only [hkind, DsonObj.getInternal, hfind] at hget
  cases hget
  cases hseen

theorem Dson.IsSingle.not_keptByEmplace {d : Dson} {block : Bytes} (hd : d.IsSingle e key type block) {key₂ : Int}
    (hne : key₂ ≠ key) (obj : DsonObj) (m : Mem) :
    ¬KeptByEmplace e key type block.length key₂ obj (.dson d []) m := by
  rintro ⟨o', m', hrun, hfinds⟩
  obtain ⟨m₀, d₁, children₁, m₁, hopen, hcases⟩ := emplace_cases hd.state hrun
  simp only [openAsContainer, hd.kind] at hopen
  rcases hd.promoted hopen with ⟨rfl, rfl⟩ | ⟨h, b, hblock, rfl, rfl, rfl⟩
  · rcases hcases with ⟨-, rfl⟩ | ⟨-, -, -, hready, -⟩
    · exact not_finds_error (by simp) (by simp [hd.kind]) _ hfinds
    · cases hready
  · rcases hcases with ⟨hnot, -⟩ | ⟨obj', d₂, hset, -, rfl⟩
    · exact hnot hd.state
    · rw [setDataTypeInternal_local (by simp [headerIsLocal, hd.alloc])] at hset
      cases hset
      have hlen := congrArg List.length hblock
      rw [List.length_append, Header.bytes_length] at hlen
      refine absurd hfinds (not_finds_promoted (g := d.headerBuf) (h := h) (b := b) hd.state rfl
        (by rw [← hblock]; exact hd.buf) ?_ (by omega))
      rw [KeyMap.find_insertOrAssign_ne (Ne.symm hne), KeyMap.find]
      split_ifs
      · exact Or.inr rfl
      · exact Or.inl rfl

/-- An object with the type of a container is not converted. -/
theorem toHost_container {d : Dson} (hlocal : d.headerIsLocal = true)
    (htype : d.headerBuf.dataTypeOf e = TypesMap.dsonContainer) (hstate : d.state ≠ .error) (m : Mem) :
    d.toHost e m = some (d, m) := by
  have hnone : toHostOrder e TypesMap.dsonContainer = none := rfl
  rw [Dson.toHost, Dson.isHostOrder, Dson.header_local hlocal, Dson.dataType, if_neg hstate, Dson.header_local hlocal]
  simp only [Option.map_some, Option.bind_eq_bind, Option.bind_some, htype, hnone, Option.pure_def, ite_self]

/-- An object that has not been looked at stays what it is, under the type of a container. -/
theorem Dson.IsUnread.not_keptByEmplace {d : Dson} (hd : d.IsUnread e key type) (htype : type ≠ TypesMap.dsonContainer)
    (key₂ : Int) (obj : DsonObj) (m : Mem) : ¬KeptByEmplace e key type n key₂ obj (.dson d []) m := by
  rintro ⟨o', m', hrun, f, o'', m'', payload, hget, hseen, -⟩
  have hlocal : d.headerIsLocal = true := by simp [headerIsLocal, hd.alloc]
  obtain ⟨m₀, d₁, children₁, m₁, hopen, hcases⟩ := emplace_cases hd.state hrun
  have hparse : d.parseBuf e [] m₀ = some ({ d with dsonKind := .oneObjectInDataBuf }, []) := by
    rw [parseBuf, dataType, if_neg (by simp [hd.state]), header_local hlocal]
    simp only [Option.map_some, Option.bind_eq_bind, Option.bind_some]
    rw [if_pos (by rw [hd.type]; exact htype)]
    rfl
  simp only [openAsContainer, hd.kind, hparse, Option.bind_eq_bind, Option.bind_some] at hopen
  cases hopen
  rcases hcases with ⟨hnot, -⟩ | ⟨obj', d₂, hset, -, rfl⟩
  · exact hnot hd.state
  · rw [setDataTypeInternal_local (by simp [headerIsLocal, hd.alloc])] at hset
    cases hset
    have hlocal₂ : Dson.headerIsLocal { d with
        dsonKind := .oneObjectInDataBuf
        headerBuf := d.headerBuf.setDataType e TypesMap.dsonContainer } = true := hlocal
    have hcontainer : (d.headerBuf.setDataType e TypesMap.dsonContainer).dataTypeOf e = TypesMap.dsonContainer :=
      Header.dataTypeOf_setDataType _ (by decide)
    have hhost := toHost_container hlocal₂ hcontainer (by simp [hd.state]) m'
    rw [DsonObj.get, if_neg (by simp)] at hget
    simp only [Option.bind_eq_bind, Option.bind_some] at hget
    rw [if_neg (by simp [hd.state]), Dson.key, header_local hlocal₂] at hget
    simp only [Option.map_some, Option.bind_some, Header.keyOf_setDataType, hd.key, if_true, hhost] at hget
    cases hget
    rw [DsonObj.seenAt, DsonObj.seen, Dson.dataType, if_neg (by simp [hd.state]), header_local hlocal₂] at hseen
    simp only [Option.map_some, hcontainer, Option.bind_eq_bind, Option.bind_some, Option.bind_eq_some_iff] at hseen
    obtain ⟨k', -, size, -, off, -, t, -, hseen⟩ := hseen
    split_ifs at hseen
    exact htype (Prod.mk.inj (Prod.mk.inj (Option.some.inj hseen)).2).1.symm

theorem Dson.IsBlank.not_keptByEmplace {d : Dson} (hd : d.IsBlank) {key₂ : Int} (hne : key₂ ≠ key) (obj : DsonObj)
    (m : Mem) : ¬KeptByEmplace e key type n key₂ obj (.dson d []) m := by
  rintro ⟨o', m', hrun, hfinds⟩
  obtain ⟨m₀, d₁, children₁, m₁, hopen, hcases⟩ := emplace_cases hd.state hrun
  simp only [openAsContainer, hd.kind] at hopen
  cases hopen
  rcases hcases with ⟨hnot, -⟩ | ⟨obj', d₂, hset, -, rfl⟩
  · exact hnot hd.state
  · rw [setDataTypeInternal_local (by simp [headerIsLocal, hd.buf, BufPtr.isNull])] at hset
    cases hset
    refine absurd hfinds (not_finds_none ?_ ?_ ?_ m')
    · exact hd.state
    · exact hd.kind
    rw [KeyMap.find_insertOrAssign_ne (Ne.symm hne), KeyMap.find]

/-! ### Iterations -/

/-- What an iteration does to a ready object: it opens it as a container and converts the children. -/
theorem map_cases {d : Dson} {children : ObjMap} (hstate : d.state = .ready) {o' : DsonObj} {m m' : Mem}
    (hrun : DsonObj.map e (.dson d children) m = some (o', m')) :
    ∃ d₁ children₁ m₁ children₂ inside, d.openAsContainer e children m = some (d₁, children₁, m₁) ∧
      DsonObj.childrenToHost e children₁ (d₁.inner m₁) = some (children₂, inside) ∧
      o' = .dson (d₁.outer m₁ inside).1 children₂ ∧ m' = (d₁.outer m₁ inside).2 := by
  rw [DsonObj.map, if_neg (by simp [hstate])] at hrun
  obtain ⟨⟨d₁, children₁, m₁⟩, hopen, hrun⟩ := Option.bind_eq_some_iff.mp hrun
  obtain ⟨⟨children₂, inside⟩, hhost, hrun⟩ := Option.bind_eq_some_iff.mp hrun
  cases hrun
  exact ⟨d₁, children₁, m₁, children₂, inside, hopen, hhost, rfl, rfl⟩

theorem Dson.IsSingle.not_keptByMap {d : Dson} {block : Bytes} (hd : d.IsSingle e key type block) (m : Mem) :
    ¬KeptByMap e key type block.length (.dson d []) m := by
  rintro ⟨o', m', payload, hrun, hkeys, hseen, hlen⟩
  obtain ⟨d₁, children₁, m₁, children₂, inside, hopen, hhost, rfl, rfl⟩ := map_cases hd.state hrun
  simp only [openAsContainer, hd.kind] at hopen
  rcases hd.promoted hopen with ⟨rfl, rfl⟩ | ⟨h, b, hblock, rfl, rfl, rfl⟩
  · cases hhost
    cases hkeys
  · obtain ⟨⟨o₁, m₂⟩, hone, hhost⟩ := Option.bind_eq_some_iff.mp hhost
    cases hhost
    have hinner : (Dson.inner { d with
        dsonKind := .dsonContainer
        headerBuf := d.headerBuf.setDataType e TypesMap.dsonContainer } m₁).owner = h.bytes ++ b := by
      rw [Dson.inner]
      simp only [hd.buf]
      exact hblock
    obtain ⟨rfl, h', b', hblock', hlen'⟩ := toHost_promoted hinner hone
    have houter : Dson.outer { d with
        dsonKind := .dsonContainer
        headerBuf := d.headerBuf.setDataType e TypesMap.dsonContainer } m₁ inside =
        ({ d with
          dsonKind := .dsonContainer
          headerBuf := d.headerBuf.setDataType e TypesMap.dsonContainer
          buf := .own inside.owner }, { m₁ with external := inside.external }) := by
      rw [Dson.outer]
      simp only [hd.buf]
    rw [houter] at hseen
    have hkey : h.keyOf e = key := (List.cons.inj hkeys).1
    simp only [DsonObj.seenAt, DsonObj.onChild, KeyMap.find, if_pos hkey.symm, Option.bind_eq_bind,
      Option.bind_some] at hseen
    obtain ⟨⟨a, p⟩, ha, rfl⟩ := Option.map_eq_some_iff.mp hseen
    obtain ⟨⟨a', o₂, m₃⟩, hfound, heq⟩ := Option.bind_eq_some_iff.mp ha
    obtain ⟨a'', hseen', heq'⟩ := Option.map_eq_some_iff.mp hfound
    cases heq'
    cases heq
    have hle := seen_promoted (m := Dson.inner { d with
      dsonKind := .dsonContainer
      headerBuf := d.headerBuf.setDataType e TypesMap.dsonContainer
      buf := .own inside.owner } { m₁ with external := inside.external }) hblock' hseen'
    have hsize := congrArg List.length hblock
    rw [List.length_append, Header.bytes_length] at hsize
    omega

theorem Dson.IsUnread.not_keptByMap {d : Dson} (hd : d.IsUnread e key type) (htype : type ≠ TypesMap.dsonContainer)
    (m : Mem) : ¬KeptByMap e key type n (.dson d []) m := by
  rintro ⟨o', m', payload, hrun, hkeys, -⟩
  have hparse : d.parseBuf e [] m = some ({ d with dsonKind := .oneObjectInDataBuf }, []) := by
    rw [parseBuf, dataType, if_neg (by simp [hd.state]), header_local (by simp [headerIsLocal, hd.alloc])]
    simp only [Option.map_some, Option.bind_eq_bind, Option.bind_some]
    rw [if_pos (by rw [hd.type]; exact htype)]
    rfl
  obtain ⟨d₁, children₁, m₁, children₂, inside, hopen, hhost, rfl, rfl⟩ := map_cases hd.state hrun
  simp only [openAsContainer, hd.kind, hparse, Option.bind_eq_bind, Option.bind_some] at hopen
  cases hopen
  cases hhost
  cases hkeys

theorem Dson.IsBlank.not_keptByMap {d : Dson} (hd : d.IsBlank) (m : Mem) :
    ¬KeptByMap e key type n (.dson d []) m := by
  rintro ⟨o', m', payload, hrun, hkeys, -⟩
  obtain ⟨d₁, children₁, m₁, children₂, inside, hopen, hhost, rfl, rfl⟩ := map_cases hd.state hrun
  simp only [openAsContainer, hd.kind] at hopen
  cases hopen
  cases hhost
  cases hkeys

end

/-- No single object survives its promotion: after an insertion under another key a lookup no longer
finds it with its type and a payload of its length, and it is not the one entry of `map`. -/
theorem promotion_loses {e : Endian} {o : DsonObj} {key type : Int} {n : Nat} (h : Single e o key type n) (m : Mem) :
    (∀ key₂, key₂ ≠ key → ∀ obj, ¬KeptByEmplace e key type n key₂ obj o m) ∧ ¬KeptByMap e key type n o m := by
  obtain ⟨d, rfl, htype, ⟨block, hd, rfl⟩ | hd | hd⟩ := h.cases
  · exact ⟨fun key₂ hne obj => hd.not_keptByEmplace hne obj m, hd.not_keptByMap m⟩
  · exact ⟨fun key₂ _ obj => hd.not_keptByEmplace htype key₂ obj m, hd.not_keptByMap htype m⟩
  · exact ⟨fun key₂ hne obj => hd.not_keptByEmplace hne obj m, hd.not_keptByMap m⟩

/-- The header of a message with a text of two bytes under the key 5. -/
def textHeader : Header :=
  ⟨markHostOrder .little, Cell.ofInt .little 2, Cell.ofInt .little 5, Cell.ofInt .little TypesMap.string⟩

/-- The message, loaded and not looked at. -/
def loadedText : DsonObj := .dson (Dson.loaded textHeader [104, 105]) []

theorem loadedText_arrives : Arrives .little loadedText (textHeader.bytes ++ [104, 105]) :=
  ⟨fun _ => 0, Dson.uninit (Dson.clearHeader .little), [], ⟨[], []⟩, ⟨by decide, by decide, Or.inr rfl⟩, Or.inl ⟨[], rfl⟩⟩

theorem loadedText_single : Single .little loadedText 5 TypesMap.string 2 :=
  .loaded loadedText_arrives (by decide) (by decide) (by decide) (by decide)

/-- The text is lost in both ways. -/
theorem promotion_loses_text : (∀ obj, ¬KeptByEmplace .little 5 TypesMap.string 2 6 obj loadedText ⟨[], []⟩) ∧
    ¬KeptByMap .little 5 TypesMap.string 2 loadedText ⟨[], []⟩ :=
  (promotion_loses loadedText_single ⟨[], []⟩).imp_left fun h => h 6 (by decide)

/-- After `emplace(6, Dson())` the key 5 leads to an object of container type; `map` has no entry. -/
theorem loadedText_not_kept : Single .little loadedText 5 TypesMap.string 2 ∧
    ¬KeptByEmplace .little 5 TypesMap.string 2 6 (.empty .little) loadedText ⟨[], []⟩ ∧
    ¬KeptByMap .little 5 TypesMap.string 2 loadedText ⟨[], []⟩ := by
  refine ⟨loadedText_single, ?_, ?_⟩
  · rintro ⟨o', m', hrun, f, o'', m'', payload, hget, hseen, -⟩
    cases hrun
    cases hget
    have hcontainer : DsonObj.seenAt .little .self (.dson { Dson.loaded textHeader [104, 105] with
        headerBuf := textHeader.setDataType .little TypesMap.dsonContainer
        dsonKind := .oneObjectInDataBuf } []) ⟨[], []⟩ = some (5, TypesMap.dsonContainer, [104, 105]) := rfl
    cases hcontainer.symm.trans hseen
  · rintro ⟨o', m', payload, hrun, hkeys, -⟩
    cases hrun
    cases hkeys

end LeanDson
