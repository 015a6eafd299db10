import LeanDson.Inclusion
import LeanDson.Relay
import LeanDson.Transfer

/-! Letters: containers of plain values as they are loaded, looked at and sent on. The stream emitter sends them on with
the same contents, in either order, looked at or not. -/

namespace LeanDson

open ByteSink

variable {e : Endian}

/-! ### Letters -/

/-- A message with a key and children: a header under one of the two marks, and records of the children. -/
structure Letter (e : Endian) (k : Int) (ts : Forest) (h : Header) (recs : List Record) : Prop where
  mark : h.ValidMark e
  size : h.dataSizeOf e = Forest.size ts
  limit : Forest.size ts ≤ 2 ^ 30
  key : h.keyOf e = k
  type : h.dataTypeOf e = if ts.isEmpty then TypesMap.empty else TypesMap.dsonContainer
  carries : Carries e recs ts
  sorted : KeyMap.Sorted ts
  keys : ∀ key ∈ KeyMap.keys ts, 0 ≤ key

theorem Carries.length {recs : List Record} {ts : Forest} (h : Carries e recs ts) :
    (recordsBytes recs).length = Forest.size ts := by
  induction h with
  | nil => rfl
  | @cons r p recs ts hr _ ih =>
      obtain ⟨v, ht, -, hl⟩ := hr
      obtain ⟨k, t⟩ := p
      obtain rfl : t = .leaf v := ht
      rw [recordsBytes_cons, List.length_append, ih, Record.bytes_length, Forest.size, Tree.size, hl.length_eq]

theorem Carries.nil_iff {recs : List Record} {ts : Forest} (h : Carries e recs ts) : recs = [] ↔ ts = [] := by
  cases h <;> simp

section

variable {k : Int} {ts : Forest} {h : Header} {recs : List Record}

theorem Letter.isMessage (hl : Letter e k ts h recs) : IsMessage e h (recordsBytes recs) := by
  have hlen := hl.carries.length
  have hlimit := hl.limit
  exact ⟨by rw [hl.size, hlen], by omega⟩

/-- The same children in other records. -/
theorem Letter.replace (hl : Letter e k ts h recs) {recs' : List Record} (hc : Carries e recs' ts) :
    Letter e k ts h recs' := { hl with carries := hc }

/-- The header of a letter, turned into an order and given its size again. -/
theorem Letter.reorder (hl : Letter e k ts h recs) (network : Bool) :
    Letter e k ts ((h.toOrder e network).setDataSize e (Forest.size ts)) recs where
  mark := (Header.validMark_congr ((h.toOrder e network).setDataSize_markByteOrder _)).mpr
    (Header.toOrder_valid hl.mark network)
  size := by
    have hlimit := hl.limit
    exact Header.dataSizeOf_setDataSize _ (by simp only [IsInt32]; omega)
  limit := hl.limit
  key := by rw [Header.keyOf_setDataSize, Header.keyOf_toOrder hl.mark, hl.key]
  type := by rw [Header.dataTypeOf_setDataSize, Header.dataTypeOf_toOrder hl.mark, hl.type]
  carries := hl.carries
  sorted := hl.sorted
  keys := hl.keys

theorem Letter.shows (hl : Letter e k ts h recs) {d : Dson} (ht : d.Took e h (recordsBytes recs)) :
    Shows e (.dson d []) k ts := by
  rw [← hl.key]
  exact ht.shows hl.carries hl.sorted hl.keys hl.type

end

/-! ### Looks -/

theorem Dson.outer_fst (d : Dson) (m inside : Mem) : ∃ buf, (d.outer m inside).1 = { d with buf := buf } := by
  rw [Dson.outer]
  split
  · exact ⟨_, rfl⟩
  · exact ⟨d.buf, rfl⟩

/-- An operation on a child changes nothing of its container but the bytes of the block. -/
theorem DsonObj.onChild_container {α : Type} {key : Int} {f : DsonObj → Mem → Option (α × DsonObj × Mem)} {d : Dson}
    {children : ObjMap} {m m' : Mem} {a : α} {o' : DsonObj}
    (hrun : DsonObj.onChild key f (.dson d children) m = some (a, o', m')) :
    ∃ buf children', o' = .dson { d with buf := buf } children' := by
  obtain ⟨o, -, hrun⟩ := Option.bind_eq_some_iff.mp hrun
  obtain ⟨⟨b, o₁, inside⟩, -, heq⟩ := Option.bind_eq_some_iff.mp hrun
  cases heq
  obtain ⟨buf, hbuf⟩ := d.outer_fst m inside
  exact ⟨buf, _, congrArg (DsonObj.dson · _) hbuf⟩

/-- So does a look into a container. -/
theorem look_container {key : Int} {x : Reading} {d : Dson} {children : ObjMap} {m m' : Mem} {a : Answer}
    {o' : DsonObj} (hstate : d.state = .ready) (hkind : d.dsonKind = .dsonContainer)
    (hrun : look e key x (.dson d children) m = some (a, o', m')) :
    ∃ buf children', o' = .dson { d with buf := buf } children' := by
  obtain ⟨⟨f, o₁, m₁⟩, hget, hrun⟩ := Option.bind_eq_some_iff.mp hrun
  rw [DsonObj.get, if_neg (by simp [hkind])] at hget
  simp only [Option.bind_eq_bind, Option.bind_some] at hget
  rw [if_neg (by simp [hstate])] at hget
  simp only [hkind, DsonObj.getInternal] at hget
  split at hget
  · cases hget
    cases hrun
    exact ⟨d.buf, _, rfl⟩
  · obtain ⟨buf, children', rfl⟩ := DsonObj.onChild_container hget
    obtain ⟨o, -, hrest⟩ := Option.bind_eq_some_iff.mp hget
    obtain ⟨⟨f', o₂, inside⟩, hfetch, heq⟩ := Option.bind_eq_some_iff.mp hrest
    obtain ⟨⟨o₃, m₃⟩, -, heq'⟩ := Option.bind_eq_some_iff.mp hfetch
    cases heq'
    have hfound : some (Found.child key) = some f := congrArg (Option.map Prod.fst) heq
    cases hfound
    obtain ⟨buf', children'', rfl⟩ := DsonObj.onChild_container hrun
    exact ⟨buf', children'', rfl⟩

/-- The children of a container that has been opened are in its map. -/
def DsonObj.Opened : DsonObj → Prop
  | .dson d _ => d.dsonKind = .dsonContainer
  | _ => False

/-- A letter in the hands of a relay: as it came, or looked at. -/
inductive Held (e : Endian) (k : Int) (ts : Forest) : DsonObj → Prop
  | came {d : Dson} {h : Header} {recs : List Record} (hl : Letter e k ts h recs)
      (ht : d.Took e h (recordsBytes recs)) : Held e k ts (.dson d [])
  | looked {d : Dson} {recs : List Record} (hl : Letter e k ts d.headerBuf recs) (hd : d.Parsed recs)
      (hne : recs ≠ []) : Held e k ts (.dson d (views e 0 recs []))

section

variable {k : Int} {ts : Forest} {o : DsonObj}

theorem Held.shows (ho : Held e k ts o) : Shows e o k ts := by
  cases ho with
  | came hl ht => exact hl.shows ht
  | looked hl hd _ =>
      rw [← hl.key]
      exact Shows.parsed hd hl.sorted hl.carries

/-- A look into a parsed container. -/
theorem Held.look_parsed {d : Dson} {recs : List Record} (hl : Letter e k ts d.headerBuf recs) (hd : d.Parsed recs)
    (hne : recs ≠ []) (key : Int) (x : Reading) (m : Mem) :
    ∃ o', look e key x (.dson d (views e 0 recs [])) m = some (ts.answer key x, o', m) ∧ Held e k ts o' ∧
      o'.Opened := by
  obtain ⟨o', hrun, hshows⟩ := LeanDson.look_parsed hd hl.sorted hl.carries key x m
  obtain ⟨buf, children', rfl⟩ := look_container hd.state hd.kind hrun
  refine ⟨_, hrun, ?_, hd.kind⟩
  cases hshows with
  | nothing => exact absurd (hl.carries.nil_iff.mpr rfl) hne
  | block hd' =>
      have hkind := hd'.kind
      rw [hd.kind] at hkind
      cases hkind
  | parsed hd' hs hc =>
      exact .looked (hl.replace hc) hd' fun hnil => hne (hl.carries.nil_iff.mpr (hc.nil_iff.mp hnil))

/-- A look leaves the letter where it is, and opens it. -/
theorem Held.look (ho : Held e k ts o) (key : Int) (x : Reading) (m : Mem) :
    ∃ o', look e key x o m = some (ts.answer key x, o', m) ∧ Held e k ts o' ∧ o'.Opened := by
  cases ho with
  | @came d h recs hl ht =>
      obtain ⟨hheader, -, hlen, ⟨hne, hloaded⟩ | ⟨hnil, hstate, hkind, hbuf, -⟩⟩ := id ht
      · have hfits := hl.carries.fits hl.keys
        have hts : ts.isEmpty = false := by
          rw [List.isEmpty_eq_false_iff]
          intro hts
          exact hne (by rw [hl.carries.nil_iff.mpr hts, recordsBytes_nil])
        have htype : d.headerBuf.dataTypeOf e = TypesMap.dsonContainer := by
          rw [hheader, hl.type, hts]
          rfl
        obtain ⟨hparsed, hget⟩ := get_block hloaded htype hlen hfits
        have hl' : Letter e k ts ({ d with dsonKind := .dsonContainer } : Dson).headerBuf recs := by
          rw [← hheader] at hl
          exact hl
        rw [LeanDson.look, hget]
        exact Held.look_parsed hl' hparsed (fun hnil => hne (by rw [hnil, recordsBytes_nil])) key x m
      · obtain ⟨o', hrun, -⟩ := (hl.shows ht).look key x m
        have hsame := hrun
        rw [LeanDson.look, get_nothing hstate hkind] at hsame
        simp only [Option.bind_eq_bind, Option.bind_some, Option.pure_def, Option.some.injEq, Prod.mk.injEq] at hsame
        obtain ⟨-, rfl, -⟩ := hsame
        exact ⟨_, hrun, .came hl ht, hkind⟩
  | looked hl hd hne => exact Held.look_parsed hl hd hne key x m

theorem Held.lookAll (ho : Held e k ts o) (looks : List (Int × Reading)) (m : Mem) :
    ∃ o', lookAll e looks o m = some (looks.map fun p => ts.answer p.1 p.2, o', m) ∧ Held e k ts o' ∧
      (looks ≠ [] → o'.Opened) ∧ (o.Opened → o'.Opened) := by
  induction looks generalizing o with
  | nil => exact ⟨o, rfl, ho, fun hne => absurd rfl hne, id⟩
  | cons p rest ih =>
      obtain ⟨o', hlook, hheld, hopened⟩ := ho.look p.1 p.2 m
      obtain ⟨o'', hrest, hheld', -, hkept⟩ := ih hheld
      refine ⟨o'', ?_, hheld', fun _ => hkept hopened, fun _ => hkept hopened⟩
      rw [LeanDson.lookAll, hlook]
      simp only [Option.bind_eq_bind, Option.bind_some, hrest, List.map_cons]
      rfl

end

/-! ### The children of a parsed container, in order -/

/-- The views of records one after the other, under their keys. -/
def viewsFrom (e : Endian) : Nat → List Record → ObjMap
  | _, [] => []
  | off, r :: recs => (r.key e, .dson (r.view e off) []) :: viewsFrom e (off + r.bytes.length) recs

/-- Records in the order of their keys are put into the map in the order of the records. -/
theorem views_eq_append {recs : List Record} (hs : (recs.map (Record.key e)).Pairwise (· < ·)) {map : ObjMap}
    (hlt : ∀ key ∈ KeyMap.keys map, ∀ r ∈ recs, key < r.key e) (off : Nat) :
    views e off recs map = map ++ viewsFrom e off recs := by
  induction recs generalizing map off with
  | nil => simp [views, viewsFrom]
  | cons r recs ih =>
      rw [List.map_cons, List.pairwise_cons] at hs
      rw [views, viewsFrom, KeyMap.insertOrAssign_append fun key hkey => hlt key hkey r List.mem_cons_self, ih hs.2]
      · rw [List.append_assoc, List.singleton_append]
      · intro key hkey r' hr'
        rw [KeyMap.keys, List.map_append, List.mem_append] at hkey
        rcases hkey with hkey | hkey
        · exact hlt key hkey r' (List.mem_cons_of_mem _ hr')
        · rw [List.map_singleton, List.mem_singleton] at hkey
          rw [hkey]
          exact hs.1 _ (List.mem_map_of_mem hr')

theorem Carries.map_key {recs : List Record} {ts : Forest} (h : Carries e recs ts) :
    recs.map (Record.key e) = KeyMap.keys ts := by
  induction h with
  | nil => rfl
  | cons hr _ ih =>
      obtain ⟨v, -, -, hl⟩ := hr
      rw [List.map_cons, ih, KeyMap.keys_cons, Record.key, hl.key]

theorem Carries.views_eq {recs : List Record} {ts : Forest} (h : Carries e recs ts) (hs : KeyMap.Sorted ts) :
    views e 0 recs [] = viewsFrom e 0 recs := by
  rw [views_eq_append (by rw [h.map_key]; exact hs) (by simp), List.nil_append]

/-- Records of the same children lie alike. -/
theorem Carries.viewsFrom_congr {recs recs' : List Record} {ts : Forest} (h : Carries e recs ts)
    (h' : Carries e recs' ts) (off : Nat) : viewsFrom e off recs = viewsFrom e off recs' := by
  induction h generalizing recs' off with
  | nil =>
      cases h'
      rfl
  | @cons r p recs ts hr _ ih =>
      cases h' with
      | @cons r' _ recs' _ hr' hrest' =>
          obtain ⟨v, ht, -, hl⟩ := hr
          obtain ⟨v', ht', -, hl'⟩ := hr'
          obtain rfl : v = v' := by
            rw [ht] at ht'
            exact Tree.leaf.inj ht'
          have hlen : r'.bytes.length = r.bytes.length := by
            rw [Record.bytes_length, Record.bytes_length, ← hl'.length_eq, ← hl.length_eq]
          rw [viewsFrom, viewsFrom, ih hrest', Record.key, Record.key, hl.key, hl'.key, Record.view, Record.view, hl.type,
            hl'.type, hlen]

/-! ### The stream emitter -/

theorem LeafRecord.view_kind {k : Int} {v : Value} {r : Record} (hl : LeafRecord e k v r.header r.payload) (off : Nat) :
    (r.view e off).dsonKind = .oneObjectInDataBuf := by
  have hne := hl.leaf
  rw [← hl.type] at hne
  exact if_neg hne

/-- A view is appended to a stream as its record, converted. -/
theorem LeafRecord.streamFuel {k : Int} {v : Value} {r : Record} (hl : LeafRecord e k v r.header r.payload)
    (network : Bool) (n : Nat) {m : Mem} {front tail : Bytes} (hm : m.owner = front ++ (r.bytes ++ tail)) :
    ∃ r' : Record, LeafRecord e k v r'.header r'.payload ∧ r'.bytes.length = r.bytes.length ∧
      DsonObj.streamFuel e network (n + 1) (.dson (r.view e front.length) []) m =
        some (.dson (r.view e front.length) [], { m with owner := front ++ (r'.bytes ++ tail) }, r'.bytes) := by
  obtain ⟨h', b', hconv, hl', hlen⟩ := hl.convert network
  refine ⟨⟨h', b'⟩, hl', by rw [Record.bytes_length, Record.bytes_length, hlen], ?_⟩
  have hview := r.view_isView e front.length
  have hkind := hl.view_kind front.length
  have hblock : m.owner = front ++ (r.header.bytes ++ (r.payload ++ tail)) := by
    rw [hm, Record.bytes, List.append_assoc]
  have hblock' : ({ m with owner := front ++ (h'.bytes ++ (b' ++ tail)) } : Mem).owner =
      front ++ (h'.bytes ++ (b' ++ tail)) := rfl
  have hbefore := hview.dataSize hblock e []
  have hafter := hview.dataSize hblock' e []
  rw [hl.size] at hbefore
  rw [hl'.size, hlen] at hafter
  have hturn := Record.view_toOrder (e := e) hm e network
  rw [(convertRecord_local hconv).2] at hturn
  have hraw : (r.view e front.length).streamRaw e [] { m with owner := front ++ (h'.bytes ++ (b' ++ tail)) }
      (r.payload.length : Int) = some (.dson (r.view e front.length) [],
        { m with owner := front ++ (h'.bytes ++ (b' ++ tail)) }, h'.bytes ++ b') := by
    have hdata : (r.view e front.length).streamData { m with owner := front ++ (h'.bytes ++ (b' ++ tail)) }
        (r.payload.length : Int) = some b' := by
      rw [Dson.streamData]
      split_ifs with hzero hneg
      · rw [← hlen] at hzero
        have hnil : b' = [] := List.eq_nil_of_length_eq_zero (by exact_mod_cast hzero)
        rw [hnil]
      · omega
      · rw [hview.data]
        simp only [Option.bind_eq_bind, Option.bind_some, hview.tail hblock', ← hlen, Int.toNat_natCast, List.take_left]
        rw [if_neg (by rw [List.length_append]; omega)]
    rw [Dson.streamRaw, Dson.streamHeader, if_neg (by simp [hkind])]
    simp only [Option.bind_eq_bind, Option.bind_some, hview.header hblock', hdata, Option.pure_def]
  rw [DsonObj.streamFuel, Dson.streamInternal, if_neg (by simp [Record.view, Dson.overBuf, Dson.uninit]),
    if_neg (by simp [hkind]), Dson.streamKind, hkind]
  simp only [hbefore, hturn, Option.bind_eq_bind, Option.bind_some, Option.map_some, hafter, ite_self, hraw, Record.bytes,
    List.append_assoc]

/-- The children of a parsed container are appended as records of the same values. -/
theorem Carries.streamMap {recs : List Record} {ts : Forest} (hc : Carries e recs ts) (network : Bool) (n : Nat)
    (front : Bytes) {m : Mem} (hm : m.owner = front ++ recordsBytes recs) :
    ∃ recs', Carries e recs' ts ∧
      Dson.streamMap (DsonObj.streamFuel e network (n + 1)) (viewsFrom e front.length recs) m =
        some (viewsFrom e front.length recs, { m with owner := front ++ recordsBytes recs' }, recordsBytes recs') := by
  induction hc generalizing front m with
  | nil =>
      refine ⟨[], .nil, ?_⟩
      rw [viewsFrom, Dson.streamMap, ← hm]
      rfl
  | @cons r p recs ts hr _ ih =>
      obtain ⟨v, ht, hplain, hl⟩ := hr
      rw [recordsBytes_cons] at hm
      obtain ⟨r', hl', hlen, hrun⟩ := hl.streamFuel network n hm
      have hm' : ({ m with owner := front ++ (r'.bytes ++ recordsBytes recs) } : Mem).owner =
          (front ++ r'.bytes) ++ recordsBytes recs := by simp
      obtain ⟨recs', hc', hrest⟩ := ih (front ++ r'.bytes) hm'
      rw [List.length_append, hlen] at hrest
      refine ⟨r' :: recs', .cons ⟨v, ht, hplain, hl'⟩ hc', ?_⟩
      rw [viewsFrom, Dson.streamMap, hrun]
      simp only [Option.bind_eq_bind, Option.bind_some, hrest, Option.pure_def, recordsBytes_cons, List.append_assoc]

/-- The children of a parsed container add up to their records. -/
theorem Carries.dataSizes {recs : List Record} {ts : Forest} (hc : Carries e recs ts) (hlimit : Forest.size ts ≤ 2 ^ 30)
    (front : Bytes) {m : Mem} (hm : m.owner = front ++ recordsBytes recs) :
    DsonObj.dataSizes e m (viewsFrom e front.length recs) = some (Forest.size ts : Int) := by
  induction hc generalizing front with
  | nil => rfl
  | @cons r p recs ts hr _ ih =>
      obtain ⟨v, ht, -, hl⟩ := hr
      obtain ⟨k, t⟩ := p
      obtain rfl : t = .leaf v := ht
      rw [Forest.size, Tree.size] at hlimit ⊢
      rw [recordsBytes_cons] at hm
      have hm' : m.owner = (front ++ r.bytes) ++ recordsBytes recs := by rw [hm, List.append_assoc]
      have hblock : m.owner = front ++ (r.header.bytes ++ (r.payload ++ recordsBytes recs)) := by
        rw [hm, Record.bytes, List.append_assoc]
      have hrest := ih (by omega) (front ++ r.bytes) hm'
      rw [List.length_append] at hrest
      rw [viewsFrom, DsonObj.dataSizes, (r.view_isView e front.length).dataSize hblock, hrest, hl.size, ← hl.length_eq]
      have hone : wrap32 ((v.size : Int) + headerSize) = (v.size : Int) + headerSize :=
        wrap32_of_isInt32 (by simp only [IsInt32, headerSize] at hlimit ⊢; omega)
      simp only [Option.bind_eq_bind, Option.bind_some, Option.pure_def, Option.some.injEq, hone]
      rw [wrap32_of_isInt32 (by simp only [IsInt32, headerSize] at hlimit ⊢; omega)]
      push_cast
      omega

section

variable {k : Int} {ts : Forest}

/-- The first look, or the first turn into the other order, makes records of a block. -/
theorem Letter.parseBuf {d : Dson} {h : Header} {recs : List Record} (hl : Letter e k ts h recs)
    (ht : d.Took e h (recordsBytes recs)) (hne : recs ≠ []) (m : Mem) :
    d.dsonKind = .dataBufNeedParse ∧ d.parseBuf e [] m = some ({ d with dsonKind := .dsonContainer }, viewsFrom e 0 recs) ∧
      Dson.Parsed { d with dsonKind := .dsonContainer } recs := by
  obtain ⟨hheader, -, hlen, ⟨-, hd⟩ | ⟨hnil, -⟩⟩ := ht
  · have hts : ts.isEmpty = false := by
      rw [List.isEmpty_eq_false_iff]
      exact fun hts => hne (hl.carries.nil_iff.mpr hts)
    have htype : d.headerBuf.dataTypeOf e = TypesMap.dsonContainer := by
      rw [hheader, hl.type, hts]
      rfl
    have hfits := hl.carries.fits hl.keys
    refine ⟨hd.kind, ?_, hd.state, rfl, hd.alloc, hd.buf, hd.size⟩
    rcases Dson.parseBuf_spec (m := m) hd.buf hd.alloc hd.size (by simp [hd.state]) htype hlen [] with
      ⟨recs', hfits', hbytes', hparse⟩ | ⟨hnot, -⟩
    · obtain rfl := recordsBytes_inj hfits' hfits hbytes'
      rw [hparse, hl.carries.views_eq hl.sorted]
    · exact absurd ⟨recs, hfits, rfl⟩ hnot
  · cases recs with
    | nil => exact absurd rfl hne
    | cons r recs =>
        have hlen := congrArg List.length hnil
        simp [headerSize] at hlen

/-- A parsed container is appended to a stream as a letter. -/
theorem Letter.streamKind {d : Dson} {recs : List Record} (hl : Letter e k ts d.headerBuf recs) (hd : d.Parsed recs)
    (network : Bool) (n : Nat) (m : Mem) :
    ∃ (d' : Dson) (recs' : List Record), d.streamKind e (DsonObj.streamFuel e network (n + 1)) network
      (viewsFrom e 0 recs) m = some (.dson d' (viewsFrom e 0 recs'), m, d'.headerBuf.bytes ++ recordsBytes recs') ∧
      Letter e k ts d'.headerBuf recs' ∧ d'.Parsed recs' := by
  have hinner : d.inner m = { m with owner := [] ++ recordsBytes recs } := by rw [Dson.inner, hd.buf, List.nil_append]
  obtain ⟨recs', hc', hmap⟩ := hl.carries.streamMap network n [] (m := d.inner m) (by rw [hinner])
  have hsize := hl.carries.dataSizes hl.limit [] (m := d.inner m) (by rw [hinner])
  rw [List.length_nil] at hmap hsize
  have hlen : (recordsBytes recs').length = (recordsBytes recs).length := by rw [hc'.length, hl.carries.length]
  have hlocal : d.headerIsLocal = true := by simp [Dson.headerIsLocal, hd.alloc]
  have hlocal' : ({ d with headerBuf := d.headerBuf.toOrder e network } : Dson).headerIsLocal = true := hlocal
  refine ⟨{ d with
    headerBuf := (d.headerBuf.toOrder e network).setDataSize e (Forest.size ts)
    buf := .own (recordsBytes recs') }, recs', ?_, (hl.reorder network).replace hc', hd.state, hd.kind, hd.alloc, rfl,
    by rw [hlen]; exact hd.size⟩
  have hall : DsonObj.dataSize e m (.dson d (viewsFrom e 0 recs)) = some (Forest.size ts : Int) := by
    simp only [DsonObj.dataSize, hd.kind, hsize]
  have hhead : ({ d with headerBuf := d.headerBuf.toOrder e network } : Dson).streamHeader e m (Forest.size ts) =
      some ({ d with headerBuf := (d.headerBuf.toOrder e network).setDataSize e (Forest.size ts) }, m,
        ((d.headerBuf.toOrder e network).setDataSize e (Forest.size ts)).bytes) := by
    rw [Dson.streamHeader, if_pos hd.kind, Dson.setDataSizeInternal_local hlocal']
    simp only [Option.bind_eq_bind, Option.bind_some]
    rw [Dson.header_local (by exact hlocal)]
    rfl
  have hinner' : ({ d with headerBuf := (d.headerBuf.toOrder e network).setDataSize e (Forest.size ts) } : Dson).inner m =
      d.inner m := rfl
  rw [Dson.streamKind, hd.kind]
  simp only [hall, Dson.headerToOrder_local hlocal, hhead, hinner', hmap, Option.bind_eq_bind, Option.bind_some]
  simp only [Dson.outer, hd.buf, hd.kind, hinner, Option.pure_def, hl.carries.viewsFrom_congr hc' 0, List.nil_append]

/-- A letter without children is appended to a stream as its header. -/
theorem Letter.copyToStream_nil {d : Dson} {h : Header} (hl : Letter e k [] h []) (ht : d.Took e h [])
    (network : Bool) (m : Mem) :
    ∃ (d' : Dson) (h' : Header), (DsonObj.dson d []).copyToStream e network m = some (.dson d' [], m, h'.bytes) ∧
      Letter e k [] h' [] ∧ d'.Took e h' [] := by
  have hl' := hl.reorder network
  rw [Forest.size, Nat.cast_zero] at hl'
  obtain ⟨hheader, -, -, ⟨hne, -⟩ | ⟨-, hstate, hkind, hbuf, halloc⟩⟩ := ht
  · exact absurd rfl hne
  have hlocal : d.headerIsLocal = true := by simp [Dson.headerIsLocal, hbuf, BufPtr.isNull]
  have hlocal' : ({ d with headerBuf := d.headerBuf.toOrder e network } : Dson).headerIsLocal = true := hlocal
  refine ⟨{ d with headerBuf := (h.toOrder e network).setDataSize e 0 }, _, ?_, hl', rfl, hl'.size, Nat.zero_le _,
    Or.inr ⟨rfl, hstate, hkind, hbuf, halloc⟩⟩
  have hhead : ({ d with headerBuf := d.headerBuf.toOrder e network } : Dson).streamHeader e m 0 =
      some ({ d with headerBuf := (d.headerBuf.toOrder e network).setDataSize e 0 }, m,
        ((d.headerBuf.toOrder e network).setDataSize e 0).bytes) := by
    rw [Dson.streamHeader, if_pos hkind, Dson.setDataSizeInternal_local hlocal']
    simp only [Option.bind_eq_bind, Option.bind_some]
    rw [Dson.header_local (by exact hlocal)]
    rfl
  have hzero : DsonObj.dataSize e m (.dson d []) = some 0 := by
    simp only [DsonObj.dataSize, hkind, DsonObj.dataSizes]
  rw [DsonObj.copyToStream, DsonObj.depth, DsonObj.streamFuel, Dson.streamInternal, if_neg (by simp [hstate]),
    if_neg (by simp [hkind]), Dson.streamKind, hkind]
  simp only [hzero, Dson.headerToOrder_local hlocal, hhead, Dson.streamMap, Option.bind_eq_bind, Option.bind_some]
  simp only [Dson.inner, Dson.outer, hbuf, hkind, hheader, Option.pure_def, List.append_nil]

/-- A block in the other order is parsed before it is appended to a stream. -/
theorem Letter.copyToStream_block {d : Dson} {h : Header} {recs : List Record} (hl : Letter e k ts h recs)
    (ht : d.Took e h (recordsBytes recs)) (hne : recs ≠ []) {network : Bool} (hin : ¬h.inOrder e network) (m : Mem) :
    (DsonObj.dson d []).copyToStream e network m =
      Dson.streamKind e (DsonObj.streamFuel e network 1) network { d with dsonKind := .dsonContainer }
        (viewsFrom e 0 recs) m := by
  obtain ⟨hkind, hparse, -⟩ := hl.parseBuf ht hne m
  have hread := ht.bears.read m
  rw [DsonObj.copyToStream, DsonObj.depth, DsonObj.streamFuel, Dson.streamInternal, if_neg (by simp [ht.ready]),
    if_pos hkind]
  cases network with
  | false =>
    have hfits : d.isHostOrder e m = some false := by
      rw [Dson.isHostOrder, hread]
      exact congrArg some (Bool.not_eq_true _ ▸ hin)
    simp only [Bool.false_eq_true, if_false, hfits, Option.bind_eq_bind, Option.bind_some, hparse]
    rfl
  | true =>
    have hfits : d.isNetworkOrder e m = some false := by
      rw [Dson.isNetworkOrder, hread]
      exact congrArg some (Bool.not_eq_true _ ▸ hin)
    simp only [if_true, hfits, Option.bind_eq_bind, Option.bind_some, Bool.false_eq_true, if_false, hparse]
    rfl

/-- A letter that a relay holds is appended to a stream as a letter with the same contents, in either order. -/
theorem Held.copyToStream {o : DsonObj} (ho : Held e k ts o) (network : Bool) (m : Mem) :
    ∃ o' h recs, o.copyToStream e network m = some (o', m, h.bytes ++ recordsBytes recs) ∧ Letter e k ts h recs ∧
      Held e k ts o' := by
  cases ho with
  | @looked d recs hl hd hne =>
      obtain ⟨d', recs', hrun, hl', hd'⟩ := hl.streamKind hd network
        (max 1 (DsonObj.depths (views e 0 recs [])) - 1) m
      have hfuel : max 1 (DsonObj.depths (views e 0 recs [])) - 1 + 1 = max 1 (DsonObj.depths (views e 0 recs [])) := by
        omega
      have hne' : recs' ≠ [] := fun hnil => hne (hl.carries.nil_iff.mpr (hl'.carries.nil_iff.mp hnil))
      rw [hfuel, ← hl.carries.views_eq hl.sorted, ← hl'.carries.views_eq hl.sorted] at hrun
      refine ⟨_, _, _, ?_, hl', .looked hl' hd' hne'⟩
      rw [DsonObj.copyToStream, DsonObj.depth, DsonObj.streamFuel, Dson.streamInternal, if_neg (by simp [hd.state]),
        if_neg (by simp [hd.kind]), hrun]
  | @came d h recs hl ht =>
      by_cases hin : h.inOrder e network
      · exact ⟨_, h, recs, ht.copyToStream hin m, hl, .came hl ht⟩
      by_cases hne : recs = []
      · subst hne
        obtain rfl := hl.carries.nil_iff.mp rfl
        obtain ⟨d', h', hrun, hl', ht'⟩ := hl.copyToStream_nil ht network m
        exact ⟨_, h', [], by rw [hrun, recordsBytes_nil, List.append_nil], hl', .came hl' ht'⟩
      · obtain ⟨hkind, hparse, hd⟩ := hl.parseBuf ht hne m
        have hl₀ : Letter e k ts ({ d with dsonKind := .dsonContainer } : Dson).headerBuf recs := by
          have hheader := ht.1
          rw [← hheader] at hl
          exact hl
        obtain ⟨d', recs', hrun, hl', hd'⟩ := hl₀.streamKind hd network 0 m
        have hne' : recs' ≠ [] := fun hnil => hne (hl.carries.nil_iff.mpr (hl'.carries.nil_iff.mp hnil))
        rw [← hl'.carries.views_eq hl'.sorted] at hrun
        exact ⟨_, _, _, by rw [hl.copyToStream_block ht hne hin, hrun], hl', .looked hl' hd' hne'⟩

end

end LeanDson
