import LeanDson.Parsing

/-! Payloads that are not records. A parse that fails leaves the children it has made so far, and `map`
hands them out: nothing can be seen of a malformed payload if and only if its first header is refused. -/

namespace LeanDson

/-- A look at a loaded message. -/
inductive Lookup where
  | get (key : Int)
  | map

/-- What a look answers: what was found, or the map of the children. -/
inductive Looked where
  | found (f : Found)
  | children (map : ObjMap)

/-- Nothing found, or an empty map. -/
def Looked.Nothing : Looked → Prop
  | .found f => f = .null
  | .children map => map = []

namespace DsonObj

variable (e : Endian)

def keyToValMap : DsonObj → ObjMap
  | .dson _ children => children
  | _ => []

def lookup : Lookup → DsonObj → Mem → Option (Looked × DsonObj × Mem)
  | .get key, o, m => (DsonObj.get e key o m).map fun (f, o, m) => (.found f, o, m)
  | .map, o, m => (DsonObj.map e o m).map fun (o, m) => (.children o.keyToValMap, o, m)

def lookups : List Lookup → DsonObj → Mem → Option (List Looked × DsonObj × Mem)
  | [], o, m => some ([], o, m)
  | op :: ops, o, m => do
      let (a, o, m) ← lookup e op o m
      let (answers, o, m) ← lookups ops o m
      return (a :: answers, o, m)

end DsonObj

/-- Whatever is asked, nothing is found, there are no children, and no byte of the payload has changed. -/
def ShowsNothing (e : Endian) (d : Dson) (block : Bytes) (m : Mem) : Prop :=
  ∀ ops, ∃ answers d', DsonObj.lookups e ops (.dson d []) m = some (answers, .dson d' [], m) ∧
    (∀ a ∈ answers, a.Nothing) ∧ d'.buf = .own block

/-- There is no first record: too few bytes for a header, or a negative key or size. -/
def FirstRefused (e : Endian) (block : Bytes) : Prop :=
  ∀ h rest, Header.read block = some (h, rest) → h.keyOf e < 0 ∨ h.dataSizeOf e < 0

section

variable {e : Endian} {d : Dson} {block : Bytes} {m : Mem}

/-! ### What a failed parse leaves -/

/-- The loop takes nothing back. -/
theorem Dson.parseLoop_ne_nil {p : BufPtr} {fuel : Nat} : ∀ {notUsed ptr n : Int} {map map' : ObjMap}, map ≠ [] →
    Dson.parseLoop e p m fuel notUsed ptr map = some (n, map') → map' ≠ [] := by
  induction fuel with
  | zero =>
      intro notUsed ptr n map map' hne hloop
      rw [Dson.parseLoop] at hloop
      split_ifs at hloop
      cases hloop
      exact hne
  | succ fuel ih =>
      intro notUsed ptr n map map' hne hloop
      rw [Dson.parseLoop] at hloop
      split_ifs at hloop
      · cases hloop
        exact hne
      · simp only [Option.bind_eq_bind, Option.bind_eq_some_iff] at hloop
        obtain ⟨obj, -, key, -, hloop⟩ := hloop
        split_ifs at hloop
        · cases hloop
          exact hne
        · obtain ⟨size, -, hloop⟩ := Option.bind_eq_some_iff.mp hloop
          split_ifs at hloop
          · cases hloop
            exact hne
          · exact ih (KeyMap.insertOrAssign_ne_nil _ _ _) hloop

/-- A block that is not records is refused at once, or after a child has been made. -/
theorem Dson.Loaded.parseBuf_malformed (hd : d.Loaded block) (htype : d.headerBuf.dataTypeOf e = TypesMap.dsonContainer)
    (hlen : block.length ≤ 2 ^ 30) (hbad : ¬IsRecords e block) (m : Mem) :
    ∃ children, d.parseBuf e [] m = some ({ d with state := .error }, children) ∧
      (children = [] ↔ FirstRefused e block) := by
  have hdata : d.data = some 0 := by
    rw [Dson.data, if_neg (by simp [hd.state, hd.buf, BufPtr.isNull]), if_pos hd.alloc]
  have hinner : (d.inner m).owner = [] ++ block := by rw [Dson.inner, hd.buf, List.nil_append]
  have htype' : d.dataType e m = some TypesMap.dsonContainer := by
    rw [Dson.dataType, if_neg (by simp [hd.state]), Dson.header_local (by simp [Dson.headerIsLocal, hd.alloc]),
      Option.map_some, htype]
  obtain ⟨n, children, hloop, hcases⟩ := Dson.parseLoop_spec (e := e) [] hinner hlen le_rfl
  obtain ⟨hn, -⟩ : n ≠ 0 ∧ ¬IsRecords e block := by
    rcases hcases with ⟨-, recs, hfits, hbytes, -⟩ | hnot
    · exact absurd ⟨recs, hfits, hbytes⟩ hbad
    · exact hnot
  refine ⟨children, ?_, ?_⟩
  · rw [List.length_nil] at hloop
    rw [Dson.parseBuf, htype']
    simp only [Option.bind_eq_bind, Option.bind_some, ne_eq, not_true_eq_false, if_false, hd.buf, BufPtr.child,
      hd.size, Int.toNat_natCast, hdata, Option.getD_some]
    rw [hloop]
    simp [hn]
  · by_cases hshort : block.length < headerSize
    · rw [Dson.parseLoop_stop (by exact_mod_cast hshort)] at hloop
      cases hloop
      refine ⟨fun _ h rest hread => ?_, fun _ => rfl⟩
      rw [Header.read_eq_none hshort] at hread
      cases hread
    · obtain ⟨h, rest, hread⟩ := Header.read_isSome (b := block) (not_lt.mp hshort)
      have hblock := Header.eq_of_read hread
      have hrefused : FirstRefused e block ↔ h.keyOf e < 0 ∨ h.dataSizeOf e < 0 := by
        constructor
        · exact fun hfirst => hfirst h rest hread
        · intro hneg h' rest' hread'
          cases hread.symm.trans hread'
          exact hneg
      obtain ⟨fuel, hfuel⟩ : ∃ fuel, block.length = fuel + 1 := ⟨block.length - 1, by rw [headerSize] at hshort; omega⟩
      have hfirst : (d.inner m).owner = [] ++ (h.bytes ++ rest) := by rw [hinner, hblock]
      have hn' : (headerSize : Int) ≤ ((fuel + 1 : Nat) : Int) := by
        rw [← hfuel]
        exact_mod_cast not_lt.mp hshort
      rw [hrefused]
      rw [hfuel, Dson.parseLoop_header hfirst fuel hn'] at hloop
      split_ifs at hloop with hkey hsize
      · cases hloop
        exact ⟨fun _ => Or.inl hkey, fun _ => rfl⟩
      · cases hloop
        exact ⟨fun _ => Or.inr hsize, fun _ => rfl⟩
      · have hne := Dson.parseLoop_ne_nil (KeyMap.insertOrAssign_ne_nil _ _ _) hloop
        exact ⟨fun hnil => absurd hnil hne, fun hneg => absurd hneg (not_or.mpr ⟨hkey, hsize⟩)⟩

/-! ### Looking at a malformed payload -/

/-- After a failed parse that has left no child. -/
structure Dson.Failed (d : Dson) (block : Bytes) : Prop where
  state : d.state = .error
  kind : d.dsonKind ≠ .dsonContainer
  buf : d.buf = .own block

theorem Dson.Failed.get (hd : d.Failed block) (key : Int) (children : ObjMap) (m : Mem) :
    ∃ d', DsonObj.get e key (.dson d children) m = some (.null, .dson d' children, m) ∧ d'.Failed block := by
  have htype : d.dataType e m = some TypesMap.empty := by rw [Dson.dataType, if_pos hd.state]
  have hparse : d.parseBuf e children m = some ({ d with dsonKind := .oneObjectInDataBuf }, children) := by
    rw [Dson.parseBuf, htype]
    rfl
  rw [DsonObj.get]
  by_cases hkind : d.dsonKind = .dataBufNeedParse
  · rw [if_pos hkind, hparse]
    simp only [Option.bind_eq_bind, Option.bind_some]
    rw [if_pos (by simp [hd.state])]
    exact ⟨_, rfl, hd.state, by simp, hd.buf⟩
  · rw [if_neg hkind]
    simp only [Option.bind_eq_bind, Option.bind_some]
    rw [if_pos (by simp [hd.state])]
    exact ⟨_, rfl, hd⟩

theorem Dson.Failed.map (hd : d.Failed block) (children : ObjMap) (m : Mem) :
    DsonObj.map e (.dson d children) m = some (.dson d children, m) := by
  rw [DsonObj.map, if_pos (by simp [hd.state])]
  rfl

theorem Dson.Failed.lookups (e : Endian) (ops : List Lookup) : ∀ {d : Dson}, d.Failed block →
    ∃ answers d', DsonObj.lookups e ops (.dson d []) m = some (answers, .dson d' [], m) ∧
      (∀ a ∈ answers, a.Nothing) ∧ d'.buf = .own block := by
  induction ops with
  | nil => exact fun {d} hd => ⟨[], d, rfl, by simp, hd.buf⟩
  | cons op ops ih =>
      intro d hd
      cases op with
      | get key =>
          obtain ⟨d₁, hget, hd₁⟩ := hd.get (e := e) key [] m
          obtain ⟨answers, d', hrun, hnothing, hbuf⟩ := ih hd₁
          refine ⟨.found .null :: answers, d', ?_, List.forall_mem_cons.mpr ⟨rfl, hnothing⟩, hbuf⟩
          simp only [DsonObj.lookups, DsonObj.lookup, hget, Option.map_some, Option.bind_eq_bind, Option.bind_some, hrun]
          rfl
      | map =>
          obtain ⟨answers, d', hrun, hnothing, hbuf⟩ := ih hd
          refine ⟨.children [] :: answers, d', ?_, List.forall_mem_cons.mpr ⟨rfl, hnothing⟩, hbuf⟩
          simp only [DsonObj.lookups, DsonObj.lookup, hd.map, Option.map_some, Option.bind_eq_bind, Option.bind_some, hrun]
          rfl

theorem Dson.openAsContainer_unparsed {d : Dson} (hkind : d.dsonKind = .dataBufNeedParse) (e : Endian)
    (children : ObjMap) (m : Mem) :
    d.openAsContainer e children m = (d.parseBuf e children m).map fun p => (p.1, p.2, m) := by
  unfold Dson.openAsContainer
  rw [hkind]
  cases d.parseBuf e children m <;> rfl

/-- The first look at a payload that is refused at once. -/
theorem Dson.Loaded.lookup_refused (hd : d.Loaded block)
    (hparse : d.parseBuf e [] m = some ({ d with state := .error }, [])) (op : Lookup) :
    ∃ a, DsonObj.lookup e op (.dson d []) m = some (a, .dson { d with state := .error } [], m) ∧ a.Nothing := by
  cases op with
  | get key =>
      refine ⟨.found .null, ?_, rfl⟩
      rw [DsonObj.lookup, get_parse hd.kind hparse key, if_neg (by simp)]
      rfl
  | map =>
      refine ⟨.children [], ?_, rfl⟩
      have hopen : d.openAsContainer e [] m = some ({ d with state := .error }, [], m) := by
        rw [Dson.openAsContainer_unparsed hd.kind, hparse, Option.map_some]
      have houter : Dson.outer { d with state := .error } m (Dson.inner { d with state := .error } m) =
          ({ d with state := .error }, m) := by
        simp only [Dson.outer, Dson.inner, hd.buf]
      rw [DsonObj.lookup, DsonObj.map, if_neg (by simp [hd.state])]
      simp only [hopen, DsonObj.childrenToHost, Option.bind_eq_bind, Option.bind_some, houter]
      rfl

/-- Nothing of a payload that is not records can be seen if and only if its first header is refused. -/
theorem malformed_iff (hd : d.Loaded block) (htype : d.headerBuf.dataTypeOf e = TypesMap.dsonContainer)
    (hlen : block.length ≤ 2 ^ 30) (hbad : ¬IsRecords e block) (m : Mem) :
    ShowsNothing e d block m ↔ FirstRefused e block := by
  obtain ⟨children, hparse, hiff⟩ := hd.parseBuf_malformed htype hlen hbad m
  rw [← hiff]
  constructor
  · intro hshows
    obtain ⟨answers, d', hrun, hnothing, -⟩ := hshows [.get 0, .map]
    have hget : DsonObj.get e 0 (.dson d []) m = some (.null, .dson { d with state := .error } children, m) := by
      rw [get_parse hd.kind hparse 0, if_neg (by simp)]
    have hfailed : Dson.Failed { d with state := .error } block := ⟨rfl, by simp [hd.kind], hd.buf⟩
    simp only [DsonObj.lookups, DsonObj.lookup, hget, Option.map_some, Option.bind_eq_bind, Option.bind_some,
      hfailed.map, Option.pure_def, Option.some.injEq, Prod.mk.injEq] at hrun
    exact hnothing (.children children) (by rw [← hrun.1]; simp [DsonObj.keyToValMap])
  · rintro rfl ops
    have hfailed : Dson.Failed { d with state := .error } block := ⟨rfl, by simp [hd.kind], hd.buf⟩
    cases ops with
    | nil => exact ⟨[], d, rfl, by simp, hd.buf⟩
    | cons op ops =>
        obtain ⟨a, hlookup, ha⟩ := hd.lookup_refused hparse op
        obtain ⟨answers, d', hrun, hnothing, hbuf⟩ := Dson.Failed.lookups e ops (m := m) hfailed
        refine ⟨a :: answers, d', ?_, List.forall_mem_cons.mpr ⟨ha, hnothing⟩, hbuf⟩
        simp only [DsonObj.lookups, hlookup, Option.bind_eq_bind, Option.bind_some, hrun]
        rfl

/-- Four bytes that are no record. -/
theorem malformed_iff_sample :
    ShowsNothing .little (Dson.loaded (containerHeader 0 4) [7, 0, 0, 0]) [7, 0, 0, 0] ⟨[], []⟩ ↔
      FirstRefused .little [7, 0, 0, 0] :=
  malformed_iff (Dson.loaded_loaded _ _) (by decide) (by decide) (by
    rintro ⟨recs, -, hbytes⟩
    have hlen := congrArg List.length hbytes
    cases recs with
    | nil => cases hbytes
    | cons r recs =>
        rw [recordsBytes_cons, List.length_append, Record.bytes_length] at hlen
        simp only [headerSize, List.length_cons, List.length_nil] at hlen
        omega) ⟨[], []⟩

/-- A record and four more bytes. -/
def overlongBlock : Bytes := recordsBytes twoRecords ++ [7, 0, 0, 0]

/-- The map of a payload with four bytes too many shows the records in front of them. -/
theorem overlong_shows : ¬IsRecords .little overlongBlock ∧
    ¬ShowsNothing .little (Dson.loaded (containerHeader 0 40) overlongBlock) overlongBlock ⟨[], []⟩ := by
  have hloaded := Dson.loaded_loaded (containerHeader 0 40) overlongBlock
  have hstate : ((Dson.loaded (containerHeader 0 40) overlongBlock).parseBuf .little [] ⟨[], []⟩).map
      (fun p => p.1.state) = some .error := by decide +kernel
  have hbad : ¬IsRecords .little overlongBlock := by
    rcases Dson.parseBuf_spec (e := .little) (m := ⟨[], []⟩) hloaded.buf hloaded.alloc hloaded.size
      (by simp [hloaded.state]) (by decide) (by decide) [] with ⟨recs, -, -, hparse⟩ | ⟨hbad, -⟩
    · rw [hparse] at hstate
      cases hstate
    · exact hbad
  refine ⟨hbad, fun hshows => ?_⟩
  obtain ⟨answers, d', hrun, -⟩ := hshows [.get 0, .map]
  have hkeys : (DsonObj.lookups .little [.get 0, .map] (.dson (Dson.loaded (containerHeader 0 40) overlongBlock) [])
      ⟨[], []⟩).map (fun p => KeyMap.keys p.2.1.keyToValMap) = some [5, 9] := by decide +kernel
  rw [hrun] at hkeys
  cases hkeys

end

end LeanDson
