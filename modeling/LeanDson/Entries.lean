import LeanDson.Transfer

/-! What is read back of a container whose children may be containers themselves. The entries of its children
are looked for by one `get` after the other. Of a received container the children are read as they were sent, in
any order and any number of times; the entries of a child are never found. -/

namespace LeanDson

/-! ### Trees -/

/-- The type marker of a tree. -/
def Tree.type : Tree → Int
  | .leaf v => v.type
  | .node ts => if ts.isEmpty then TypesMap.empty else TypesMap.dsonContainer

mutual

/-- Every value is one that the objects of the library hold. -/
def Tree.Plain : Tree → Prop
  | .leaf v => v.Plain
  | .node ts => Forest.Plain ts

def Forest.Plain : Forest → Prop
  | [] => True
  | (_, t) :: ts => t.Plain ∧ Forest.Plain ts

end

theorem Forest.Plain.find {ts : Forest} (h : Forest.Plain ts) {key : Int} {t : Tree}
    (hfind : KeyMap.find key ts = some t) : t.Plain := by
  induction ts with
  | nil => cases hfind
  | cons p ts ih =>
      rw [Forest.Plain] at h
      rw [KeyMap.find] at hfind
      split_ifs at hfind
      · cases hfind
        exact h.1
      · exact ih h.2 hfind

theorem Forest.Plain.insert {ts : Forest} (h : Forest.Plain ts) {t : Tree} (ht : t.Plain) (key : Int) :
    Forest.Plain (KeyMap.insertOrAssign key t ts) := by
  induction ts with
  | nil => exact ⟨ht, h⟩
  | cons p ts ih =>
      have hall := h
      rw [Forest.Plain] at h
      rw [KeyMap.insertOrAssign]
      split_ifs
      · exact ⟨ht, hall⟩
      · exact ⟨ht, h.2⟩
      · exact ⟨h.1, ih h.2⟩

/-- A change at the end of a path that keeps the children plain. -/
theorem Tree.Plain.modify {f : Forest → Forest} (hf : ∀ ts, Forest.Plain ts → Forest.Plain (f ts)) {path : List Int}
    {t t' : Tree} (h : t.Plain) (ht : t.modify f path = some t') : t'.Plain := by
  induction path generalizing t t' with
  | nil =>
      cases t with
      | leaf v => cases ht
      | node ts =>
          cases ht
          exact hf ts h
  | cons key path ih =>
      cases t with
      | leaf v => cases ht
      | node ts =>
          obtain ⟨sub, hfind, ht⟩ := Option.bind_eq_some_iff.mp ht
          obtain ⟨sub', hsub, heq⟩ := Option.bind_eq_some_iff.mp ht
          cases heq
          rw [Tree.Plain] at h
          exact h.insert (ih (h.find hfind) hsub) key

section

variable {e : Endian}

theorem Built.plain {o : DsonObj} {k : Int} {t : Tree} (h : Built e o k t) : t.Plain := by
  induction h with
  | emplace _ _ _ ht _ ih ihobj => exact ih.modify (fun _ hts => hts.insert ihobj _) ht
  | emplacePtr _ _ ht _ ih ihobj => exact ih.modify (fun _ hts => hts.insert ihobj _) ht
  | container | int32 | uint32 | double | string | stringObj => trivial
  | routeObj => exact (rfl : (Address.words _ _).length = 4)
  | setKey _ _ _ ih | get _ _ _ ih | map _ _ _ ih | stream _ _ _ _ ih | fd _ _ _ _ _ ih | buf _ _ _ _ _ ih => exact ih

/-! ### Records of trees -/

/-- A record of a container. -/
structure NodeRecord (e : Endian) (k : Int) (ts : Forest) (r : Record) : Prop where
  size : r.header.dataSizeOf e = r.payload.length
  key : r.header.keyOf e = k
  type : r.header.dataTypeOf e = (Tree.node ts).type

/-- The record of a tree. -/
def RecordOf (e : Endian) (k : Int) : Tree → Record → Prop
  | .leaf v, r => LeafRecord e k v r.header r.payload
  | .node ts, r => NodeRecord e k ts r

namespace RecordOf

variable {k : Int} {t : Tree} {r : Record}

theorem key (h : RecordOf e k t r) : r.key e = k := by
  cases t with
  | leaf v => exact LeafRecord.key h
  | node ts => exact NodeRecord.key h

theorem size (h : RecordOf e k t r) : r.header.dataSizeOf e = r.payload.length := by
  cases t with
  | leaf v => exact LeafRecord.size h
  | node ts => exact NodeRecord.size h

theorem type (h : RecordOf e k t r) : r.header.dataTypeOf e = t.type := by
  cases t with
  | leaf v => exact LeafRecord.type h
  | node ts => exact NodeRecord.type h

/-- A conversion to host order leaves a record of the same tree. -/
theorem toHost (h : RecordOf e k t r) : ∃ r' : Record,
    convertRecord e false r.header r.payload = some (r'.header, r'.payload) ∧ RecordOf e k t r' ∧
      r'.payload.length = r.payload.length := by
  cases t with
  | leaf v =>
      obtain ⟨h', b', hconv, hl', hlen⟩ := LeafRecord.convert h false
      exact ⟨⟨h', b'⟩, hconv, hl', hlen⟩
  | node ts =>
      have hnone : converterTo e false (r.header.dataTypeOf e) = none := by
        rw [h.type, Tree.type]
        split_ifs <;> cases e <;> rfl
      exact ⟨r, convertRecord_none hnone r.payload, h, rfl⟩

end RecordOf

/-- Records of the children of a forest, in order. -/
def RecordsOf (e : Endian) (recs : List Record) (ts : Forest) : Prop :=
  List.Forall₂ (fun r p => RecordOf e p.1 p.2 r) recs ts

section

variable {recs : List Record} {ts : Forest}

theorem RecordsOf.mem_keys (h : RecordsOf e recs ts) (key : Int) :
    key ∈ KeyMap.keys ts ↔ ∃ r ∈ recs, r.key e = key := forall₂_mem_keys (fun _ _ hr => hr.key) h key

theorem RecordsOf.last (h : RecordsOf e recs ts) (hs : KeyMap.Sorted ts) {key : Int} {t : Tree}
    (hfind : KeyMap.find key ts = some t) :
    ∃ before r after, IsLast e key recs before r after ∧ RecordOf e key t r ∧
      ∀ r', RecordOf e key t r' → RecordsOf e (before ++ r' :: after) ts :=
  forall₂_last (fun _ _ hr => hr.key) h hs hfind

theorem RecordsOf.fits (h : RecordsOf e recs ts) (hkeys : ∀ key ∈ KeyMap.keys ts, 0 ≤ key) :
    ∀ r ∈ recs, Record.Fits e r := by
  induction h with
  | nil => simp
  | cons hr _ ih =>
      rw [List.forall_mem_cons]
      refine ⟨⟨?_, hr.size⟩, ih fun key hk => hkeys key (List.mem_cons_of_mem _ hk)⟩
      rw [hr.key]
      exact hkeys _ List.mem_cons_self

end

/-- The encoding of an object is a record of its tree. -/
theorem Holds.wire_record {o : DsonObj} {k : Int} {t : Tree} (ho : Holds e o k t) (hlt : t.size < 2 ^ 31)
    (network : Bool) : ∃ r, o.wire e network = r.bytes ∧ RecordOf e k t r := by
  cases t with
  | leaf v => exact ho.wire_leaf network
  | node ts =>
      cases o with
      | string s => exact ho.elim
      | route r => exact ho.elim
      | dson d children =>
          rw [Holds] at ho
          obtain ⟨-, hnode, -, hall⟩ := ho
          have hlen := hall.wires_length network
          rw [Tree.size] at hlt
          obtain ⟨hsize, hkey, htype⟩ := hnode.header (DsonObj.wires e network children).length
            (by simp only [IsInt32]; omega) network
          have hwire : (DsonObj.dson d children).wire e network = Record.bytes
              ⟨(d.headerBuf.setDataSize e (DsonObj.wires e network children).length).toOrder e network,
                DsonObj.wires e network children⟩ := by
            simp only [DsonObj.wire, hnode.kind, Record.bytes]
          exact ⟨_, hwire, hsize, hkey, htype⟩

theorem HoldsAll.wires_records (network : Bool) : ∀ {children : ObjMap} {ts : Forest}, HoldsAll e children ts →
    (∀ p ∈ ts, p.2.size < 2 ^ 31) → ∃ recs, DsonObj.wires e network children = recordsBytes recs ∧ RecordsOf e recs ts
  | [], [], _, _ => ⟨[], rfl, List.Forall₂.nil⟩
  | (k, o) :: rest, (k', t) :: ts, h, hlt => by
      rw [HoldsAll] at h
      obtain ⟨rfl, ho, hrest⟩ := h
      obtain ⟨r, hwire, hr⟩ := ho.wire_record (hlt _ List.mem_cons_self) network
      obtain ⟨recs, hwires, hrecs⟩ := hrest.wires_records network fun p hp => hlt p (List.mem_cons_of_mem _ hp)
      refine ⟨r :: recs, ?_, List.Forall₂.cons hr hrecs⟩
      rw [DsonObj.wires, hwire, hwires, recordsBytes_cons]
  | [], _ :: _, h, _ => h.elim
  | _ :: _, [], h, _ => h.elim

end

/-! ### Questions -/

/-- One `get` after the other along a path of keys, and an extractor on what is found. -/
def lookAt (e : Endian) (x : Reading) : List Int → DsonObj → Mem → Option (Answer × DsonObj × Mem)
  | [], o, m => readTyped e x o m
  | key :: path, o, m => do
      let (f, o, m) ← o.get e key m
      match f with
      | .null => return (.null, o, m)
      | .self => lookAt e x path o m
      | .child key => o.onChild key (lookAt e x path) m

theorem lookAt_one (e : Endian) (key : Int) (x : Reading) (o : DsonObj) (m : Mem) :
    lookAt e x [key] o m = look e key x o m := rfl

/-- One question after the other. -/
def askAll (e : Endian) : List (List Int × Reading) → DsonObj → Mem → Option (List Answer × DsonObj × Mem)
  | [], o, m => some ([], o, m)
  | (path, x) :: rest, o, m => do
      let (a, o, m) ← lookAt e x path o m
      let (more, o, m) ← askAll e rest o m
      return (a :: more, o, m)

/-- The answer that a forest has for a path of keys. -/
def Forest.answerAt (x : Reading) : Forest → List Int → Answer
  | _, [] => .other
  | ts, [key] => ts.answer key x
  | ts, key :: path =>
      match KeyMap.find key ts with
      | some (.node sub) => Forest.answerAt x sub path
      | _ => .null

/-- The paths to the entries of a forest, those of its children and of their children included. -/
inductive Forest.Entry : Forest → List Int → Prop
  | here {ts : Forest} {key : Int} {t : Tree} (hfind : KeyMap.find key ts = some t) : Forest.Entry ts [key]
  | inside {ts sub : Forest} {key : Int} {path : List Int} (hfind : KeyMap.find key ts = some (.node sub))
      (hpath : Forest.Entry sub path) : Forest.Entry ts (key :: path)

/-- A tree without entries of its own: a value, or a container that is empty. -/
def Tree.Flat : Tree → Prop
  | .leaf _ => True
  | .node ts => ts.isEmpty = true

instance : DecidablePred Tree.Flat
  | .leaf _ => inferInstanceAs (Decidable True)
  | .node ts => inferInstanceAs (Decidable (ts.isEmpty = true))

/-- Of flat children there are no entries below. -/
theorem Forest.Entry.eq_of_flat {ts : Forest} {path : List Int} (h : Forest.Entry ts path)
    (hflat : ∀ p ∈ ts, p.2.Flat) : ∃ key, path = [key] := by
  cases h with
  | here hfind => exact ⟨_, rfl⟩
  | inside hfind hpath =>
      have hnil : List.isEmpty _ = true := hflat _ (KeyMap.mem_of_find hfind)
      rw [List.isEmpty_iff.mp hnil] at hpath
      cases hpath with
      | here hfind => cases hfind
      | inside hfind => cases hfind

/-- A container that has been received, with its children: without any, not looked at yet, or parsed. -/
inductive Presents (e : Endian) : DsonObj → Forest → Prop
  | nothing {d : Dson} (hstate : d.state = .ready) (hkind : d.dsonKind = .dsonContainer) (hbuf : d.buf = .null) :
      Presents e (.dson d []) []
  | block {d : Dson} {recs : List Record} {ts : Forest} (hd : d.Loaded (recordsBytes recs))
      (htype : d.headerBuf.dataTypeOf e = TypesMap.dsonContainer) (hlen : (recordsBytes recs).length ≤ 2 ^ 30)
      (hs : KeyMap.Sorted ts) (hkeys : ∀ key ∈ KeyMap.keys ts, 0 ≤ key) (hc : RecordsOf e recs ts) :
      Presents e (.dson d []) ts
  | parsed {d : Dson} {recs : List Record} {ts : Forest} (hd : d.Parsed recs) (hs : KeyMap.Sorted ts)
      (hc : RecordsOf e recs ts) : Presents e (.dson d (views e 0 recs [])) ts

section

variable {e : Endian}

/-- An extractor on the view of a tree answers it, and leaves a record of the same tree. -/
theorem RecordOf.readTyped {d : Dson} {m : Mem} {front tail : Bytes} {k : Int} {t : Tree} {r : Record}
    (h : RecordOf e k t r) (hplain : t.Plain) (hd : d.IsView front.length)
    (hblock : m.owner = front ++ (r.header.bytes ++ (r.payload ++ tail))) (children : ObjMap) (x : Reading) :
    ∃ r', RecordOf e k t r' ∧ r'.payload.length = r.payload.length ∧ LeanDson.readTyped e x (.dson d children) m =
      some (Forest.answer [(k, t)] k x, .dson d children,
        { m with owner := front ++ (r'.header.bytes ++ (r'.payload ++ tail)) }) := by
  cases t with
  | leaf v =>
      obtain ⟨h', b', hl', hlen, hread⟩ := readTyped_view hd hblock children h hplain x
      refine ⟨⟨h', b'⟩, hl', hlen, ?_⟩
      rw [hread, Forest.answer, KeyMap.find, if_pos rfl]
  | node ts =>
      have hne : r.header.dataTypeOf e ≠ x.type := by
        rw [h.type, Tree.type]
        split_ifs <;> cases x <;> simp [Reading.type]
      refine ⟨r, h, rfl, ?_⟩
      rw [LeanDson.readTyped, DsonObj.dataType, hd.dataType hblock]
      simp only [Option.bind_eq_bind, Option.bind_some]
      rw [if_neg hne, ← hblock, Forest.answer, KeyMap.find, if_pos rfl]

/-- The answer of a forest is that of the child under the key. -/
theorem Forest.answer_find {ts : Forest} {key : Int} {t : Tree} (hfind : KeyMap.find key ts = some t) (x : Reading) :
    ts.answer key x = Forest.answer [(key, t)] key x := by
  have hone : KeyMap.find key [(key, t)] = some t := by rw [KeyMap.find, if_pos rfl]
  rw [Forest.answer, Forest.answer, hfind, hone]

/-- A lookup that finds the record of a tree in a parsed container converts the record. -/
theorem RecordsOf.get {d : Dson} {recs : List Record} {ts : Forest} (hc : RecordsOf e recs ts) (hd : d.Parsed recs)
    (hs : KeyMap.Sorted ts) {key : Int} {t : Tree} (hfind : KeyMap.find key ts = some t) (m : Mem) :
    ∃ before r after, IsLast e key (before ++ r :: after) before r after ∧ RecordOf e key t r ∧
      (∀ r', RecordOf e key t r' → RecordsOf e (before ++ r' :: after) ts) ∧
      Dson.Parsed { d with buf := .own (recordsBytes (before ++ r :: after)) } (before ++ r :: after) ∧
      DsonObj.get e key (.dson d (views e 0 recs [])) m = some (.child key,
        .dson { d with buf := .own (recordsBytes (before ++ r :: after)) } (views e 0 (before ++ r :: after) []), m) := by
  obtain ⟨before, r, after, hlast, hr, hreplace⟩ := hc.last hs hfind
  obtain ⟨r', hconv, hr', hlen⟩ := hr.toHost
  obtain ⟨hparsed, hviews⟩ := hd.replace hlast (hr'.key.trans hr.key.symm) (hr'.type.trans hr.type.symm) hlen
  have hlast' : IsLast e key (before ++ r' :: after) before r' after := ⟨rfl, hr'.key, hlast.2.2⟩
  rw [← hlast'.bytes] at hparsed
  refine ⟨before, r', after, hlast', hr', hreplace, hparsed, ?_⟩
  rw [hd.get_last hlast, (convertRecord_local hconv).2, hviews, hlast'.bytes, Record.bytes, List.append_assoc]
  rfl

/-- A lookup in a container that has been parsed. -/
theorem Dson.Parsed.look {d : Dson} {recs : List Record} {ts : Forest} (hd : d.Parsed recs) (hs : KeyMap.Sorted ts)
    (hplain : Forest.Plain ts) (hc : RecordsOf e recs ts) (key : Int) (x : Reading) (m : Mem) :
    ∃ o', LeanDson.look e key x (.dson d (views e 0 recs [])) m = some (ts.answer key x, o', m) ∧ Presents e o' ts := by
  cases hfind : KeyMap.find key ts with
  | none =>
      have hne : ∀ r ∈ recs, r.key e ≠ key := fun r hr heq =>
        KeyMap.find_eq_none.mp hfind ((hc.mem_keys key).mpr ⟨r, hr, heq⟩)
      refine ⟨_, ?_, Presents.parsed hd hs hc⟩
      rw [LeanDson.look, hd.get_none hne, Forest.answer, hfind]
      rfl
  | some t =>
      obtain ⟨before, r, after, hlast, hr, hreplace, hparsed, hget⟩ := hc.get hd hs hfind m
      have hblock : ({ m with owner := recordsBytes (before ++ r :: after) } : Mem).owner =
          recordsBytes before ++ (r.header.bytes ++ (r.payload ++ recordsBytes after)) := by
        rw [hlast.bytes, Record.bytes, List.append_assoc]
      obtain ⟨r', hr', hlen, hread⟩ := hr.readTyped (hplain.find hfind)
        (r.view_isView e (recordsBytes before).length) hblock [] x
      have hchild := onChild_view (m := m) hparsed.buf hlast (x := some (Forest.answer [(key, t)] key x,
        recordsBytes before ++ (r'.header.bytes ++ (r'.payload ++ recordsBytes after)))) hread
      obtain ⟨hparsed', hviews⟩ := hparsed.replace hlast (hr'.key.trans hr.key.symm) (hr'.type.trans hr.type.symm) hlen
      rw [Record.bytes, List.append_assoc] at hparsed'
      refine ⟨_, ?_, hviews ▸ Presents.parsed hparsed' hs (hreplace r' hr')⟩
      rw [LeanDson.look, hget, Forest.answer_find hfind]
      simp only [Option.bind_eq_bind, Option.bind_some, hchild]
      rfl

/-- A lookup in a container that has been received. -/
theorem Presents.look {o : DsonObj} {ts : Forest} (h : Presents e o ts) (hplain : Forest.Plain ts) (key : Int)
    (x : Reading) (m : Mem) : ∃ o', LeanDson.look e key x o m = some (ts.answer key x, o', m) ∧ Presents e o' ts := by
  cases h with
  | nothing hstate hkind hbuf =>
      refine ⟨_, ?_, Presents.nothing hstate hkind hbuf⟩
      rw [LeanDson.look, get_nothing hstate hkind]
      rfl
  | block hd htype hlen hs hkeys hc =>
      obtain ⟨hparsed, hget⟩ := get_block hd htype hlen (hc.fits hkeys)
      rw [LeanDson.look, hget]
      exact hparsed.look hs hplain hc key x m
  | parsed hd hs hc => exact hd.look hs hplain hc key x m

/-- Any sequence of lookups under the keys of the children and others. -/
theorem Presents.askAll {o : DsonObj} {ts : Forest} (h : Presents e o ts) (hplain : Forest.Plain ts)
    {asks : List (List Int × Reading)} (hasks : ∀ p ∈ asks, ∃ key, p.1 = [key]) (m : Mem) :
    ∃ o', LeanDson.askAll e asks o m = some (asks.map fun p => ts.answerAt p.2 p.1, o', m) ∧ Presents e o' ts := by
  induction asks generalizing o with
  | nil => exact ⟨o, rfl, h⟩
  | cons p rest ih =>
      obtain ⟨path, x⟩ := p
      obtain ⟨⟨key, rfl⟩, hrest⟩ := List.forall_mem_cons.mp hasks
      obtain ⟨o', hlook, ho'⟩ := h.look hplain key x m
      obtain ⟨o'', hmore, ho''⟩ := ih ho' hrest
      refine ⟨o'', ?_, ho''⟩
      rw [LeanDson.askAll, lookAt_one, hlook]
      simp only [Option.bind_eq_bind, Option.bind_some, hmore, List.map_cons]
      rfl

/-! ### Children of children -/

/-- A view that is taken for a container is parsed with the size zero, and nothing is found in it. -/
theorem Record.get_view {r : Record} {off : Nat} {m : Mem} {tail : Bytes} {front : Bytes} (hoff : front.length = off)
    (hblock : m.owner = front ++ (r.bytes ++ tail)) (htype : r.header.dataTypeOf e = TypesMap.dsonContainer)
    (key : Int) : ∃ d, DsonObj.get e key (.dson (r.view e off) []) m = some (.null, .dson d [], m) := by
  subst hoff
  have hview := r.view_isView e front.length
  have hkind : (r.view e front.length).dsonKind = .dataBufNeedParse := if_pos htype
  have hparse : (r.view e front.length).parseBuf e [] m =
      some ({ r.view e front.length with dsonKind := .dsonContainer }, []) := by
    rw [Record.bytes, List.append_assoc] at hblock
    rw [Dson.parseBuf, hview.dataType hblock, htype]
    rfl
  rw [DsonObj.get, if_pos hkind, hparse]
  exact ⟨_, rfl⟩

/-- The entries of a child that is a container are not found. -/
theorem Dson.Parsed.lookAt_below {d : Dson} {recs : List Record} {ts sub : Forest} (hd : d.Parsed recs)
    (hs : KeyMap.Sorted ts) (hc : RecordsOf e recs ts) {key : Int} (hfind : KeyMap.find key ts = some (.node sub))
    (hsub : sub.isEmpty = false) (key' : Int) (x : Reading) (m : Mem) :
    ∃ o', lookAt e x [key, key'] (.dson d (views e 0 recs [])) m = some (.null, o', m) := by
  obtain ⟨before, r, after, hlast, hr, -, hparsed, hget⟩ := hc.get hd hs hfind m
  have htype : r.header.dataTypeOf e = TypesMap.dsonContainer := by
    rw [hr.type, Tree.type, hsub]
    rfl
  obtain ⟨v, hnull⟩ := Record.get_view (e := e) (m := { m with owner := recordsBytes (before ++ r :: after) }) rfl
    hlast.bytes htype key'
  have hinner : Dson.inner { d with buf := .own (recordsBytes (before ++ r :: after)) } m =
      { m with owner := recordsBytes (before ++ r :: after) } := rfl
  rw [lookAt, hget]
  simp only [Option.bind_eq_bind, Option.bind_some, DsonObj.onChild, find_views_last hlast [], hinner]
  rw [lookAt, hnull]
  exact ⟨_, rfl⟩

/-! ### Containers that have been taken -/

/-- A container that has been taken presents the children that were sent. -/
theorem Dson.Took.presents {d : Dson} {h : Header} {recs : List Record} {ts : Forest}
    (ht : d.Took e h (recordsBytes recs)) (hc : RecordsOf e recs ts) (hs : KeyMap.Sorted ts)
    (hkeys : ∀ key ∈ KeyMap.keys ts, 0 ≤ key) (htype : h.dataTypeOf e = (Tree.node ts).type) :
    Presents e (.dson d []) ts := by
  obtain ⟨rfl, -, hlen, ⟨hne, hloaded⟩ | ⟨hnil, hstate, hkind, hbuf, -⟩⟩ := ht
  · have hts : ts.isEmpty = false := by
      cases hc with
      | nil => exact absurd rfl hne
      | cons _ _ => rfl
    rw [Tree.type, hts] at htype
    exact Presents.block hloaded htype hlen hs hkeys hc
  · have hts : ts = [] := by
      cases hc with
      | nil => rfl
      | @cons r _ recs _ _ _ =>
          have hlen := congrArg List.length hnil
          simp [headerSize] at hlen
    subst hts
    exact Presents.nothing hstate hkind hbuf

end

end LeanDson
