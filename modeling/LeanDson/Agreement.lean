import LeanDson.Inversion
import LeanDson.Parsing
import LeanDson.Promotion

/-! A view and an owner over the same message. They read the same header, but a view is parsed with the
size zero, so it has no children, and only a view is promoted by its first iteration. -/

namespace LeanDson

/-! ### Well-formed messages -/

/-- A header and a payload of the announced size, which for a container is records that are well formed
again, under keys that are not negative. Marks may be mixed. -/
inductive WellFormed (e : Endian) : Header → Bytes → Prop
  | leaf {h : Header} {b : Bytes} (hv : h.ValidMark e) (hsize : h.dataSizeOf e = b.length)
      (ht : h.dataTypeOf e ≠ TypesMap.dsonContainer) : WellFormed e h b
  | node {h : Header} {recs : List Record} (hv : h.ValidMark e) (hsize : h.dataSizeOf e = (recordsBytes recs).length)
      (ht : h.dataTypeOf e = TypesMap.dsonContainer) (hkeys : ∀ r ∈ recs, 0 ≤ r.key e)
      (hrecs : ∀ r ∈ recs, WellFormed e r.header r.payload) : WellFormed e h (recordsBytes recs)

theorem WellFormed.size {e : Endian} {h : Header} {b : Bytes} (hw : WellFormed e h b) :
    h.dataSizeOf e = b.length := by
  cases hw <;> assumption

/-! ### What a caller finds out about an object -/

/-- The key, the type and the size. -/
abbrev Summary := Int × Int × Int

def DsonObj.summary (e : Endian) (o : DsonObj) (m : Mem) : Option Summary := do
  let key ← o.key e m
  let type ← o.dataType e m
  let size ← o.dataSize e m
  return (key, type, size)

/-- Successive lookups, and the summary of the object they lead to; none for a null pointer. -/
def lookPath (e : Endian) : List Int → DsonObj → Mem → Option (Option Summary × DsonObj × Mem)
  | [], o, m => (o.summary e m).map fun s => (some s, o, m)
  | key :: path, o, m => do
      let (f, o, m) ← o.get e key m
      match f with
      | .null => return (none, o, m)
      | .self => lookPath e path o m
      | .child key => o.onChild key (lookPath e path) m

/-- Two objects, each in its memory, that a caller cannot tell apart by their headers, by lookups of any
depth or by the keys of `map`. -/
structure Agree (e : Endian) (o₁ : DsonObj) (m₁ : Mem) (o₂ : DsonObj) (m₂ : Mem) : Prop where
  summary : o₁.summary e m₁ = o₂.summary e m₂
  paths : ∀ path, (lookPath e path o₁ m₁).map Prod.fst = (lookPath e path o₂ m₂).map Prod.fst
  keys : (DsonObj.map e o₁ m₁).map (fun p => p.1.mapKeys) = (DsonObj.map e o₂ m₂).map fun p => p.1.mapKeys

/-- Where a path of keys leads in a message: through the last record under each key, to a value. -/
inductive LeadsTo (e : Endian) : List Int → Header → Bytes → Summary → Prop
  | here {h : Header} {b : Bytes} (ht : h.dataTypeOf e ≠ TypesMap.dsonContainer) :
      LeadsTo e [] h b (h.keyOf e, h.dataTypeOf e, h.dataSizeOf e)
  | step {h : Header} {recs before after : List Record} {r : Record} {key : Int} {path : List Int} {s : Summary}
      (ht : h.dataTypeOf e = TypesMap.dsonContainer) (hlast : IsLast e key recs before r after)
      (hs : LeadsTo e path r.header r.payload s) : LeadsTo e (key :: path) h (recordsBytes recs) s

/-- The view and the owner agree, and every path of the message leads to its value. -/
def Agrees (e : Endian) (h : Header) (body : Bytes) (v : Dson) (o : DsonObj) (m : Mem) : Prop :=
  Agree e (.dson v []) m o m ∧
    ∀ path s, LeadsTo e path h body s → (lookPath e path o m).map Prod.fst = some (some s)

/-- The payload read as a header has a negative key. -/
def NegativeInside (e : Endian) (body : Bytes) : Prop := ∃ h b, body = Header.bytes h ++ b ∧ h.keyOf e < 0

/-! ### Single objects -/

section

variable {e : Endian}

theorem summary_dson {d : Dson} {children : ObjMap} {m : Mem} {h : Header} (hheader : d.header m = some h)
    (hstate : d.state ≠ .error) (hkind : d.dsonKind ≠ .dsonContainer) :
    DsonObj.summary e (.dson d children) m = some (h.keyOf e, h.dataTypeOf e, h.dataSizeOf e) := by
  rw [DsonObj.summary, DsonObj.key, Dson.key, DsonObj.dataType, Dson.dataType, if_neg hstate,
    Dson.dataSize_header hkind, hheader]
  rfl

/-- The empty path leads to the object itself, if anywhere. -/
theorem lookPath_nil_ne (o : DsonObj) (m : Mem) : (lookPath e [] o m).map Prod.fst ≠ some none := by
  rw [lookPath, Option.map_map]
  cases o.summary e m <;> simp

theorem lookPath_null {o o' : DsonObj} {m m' : Mem} {key : Int} (hget : o.get e key m = some (.null, o', m'))
    (path : List Int) : (lookPath e (key :: path) o m).map Prod.fst = some none := by
  rw [lookPath, hget]
  rfl

/-- A single object: a header and a payload, wherever they lie, read as what they are. -/
structure Dson.IsAlone (put : Header → Bytes → Dson × Mem) : Prop where
  isRecord : IsRecord put
  state (h : Header) (b : Bytes) : (put h b).1.state = .ready
  kind (h : Header) (b : Bytes) : (put h b).1.dsonKind = .oneObjectInDataBuf

/-- A lookup on a single object converts it under its own key. -/
theorem Dson.IsAlone.get {put : Header → Bytes → Dson × Mem} (hput : IsAlone put) (h : Header) (b : Bytes) (key : Int) :
    DsonObj.get e key (.dson (put h b).1 []) (put h b).2 =
      if h.keyOf e = key then (convertRecord e false h b).map fun p =>
        (Found.self, .dson (put p.1 p.2).1 [], (put p.1 p.2).2)
      else some (.null, .dson (put h b).1 [], (put h b).2) := by
  have hkey : Dson.key e (put h b).1 (put h b).2 = some (h.keyOf e) := by
    rw [Dson.key, hput.isRecord.header]
    rfl
  have hhost := hput.isRecord.toOrder e h b false
  rw [toOrder, if_neg (by simp)] at hhost
  rw [DsonObj.get, if_neg (by simp [hput.kind])]
  simp only [Option.bind_eq_bind, Option.bind_some]
  rw [if_neg (by simp [hput.state])]
  simp only [hput.kind, hkey, Option.bind_some, hhost]
  split_ifs
  · cases convertRecord e false h b <;> rfl
  · rfl

/-- Single objects with the same header and payload answer successive lookups alike. -/
theorem lookPath_alone {put₁ put₂ : Header → Bytes → Dson × Mem} (h₁ : Dson.IsAlone put₁) (h₂ : Dson.IsAlone put₂)
    (h : Header) (b : Bytes) (path : List Int) :
    (lookPath e path (.dson (put₁ h b).1 []) (put₁ h b).2).map Prod.fst =
      (lookPath e path (.dson (put₂ h b).1 []) (put₂ h b).2).map Prod.fst := by
  induction path generalizing h b with
  | nil =>
      rw [lookPath, lookPath, summary_dson (h₁.isRecord.header h b) (h₁.isRecord.state h b) (by simp [h₁.kind]),
        summary_dson (h₂.isRecord.header h b) (h₂.isRecord.state h b) (by simp [h₂.kind])]
      rfl
  | cons key path ih =>
      by_cases hk : h.keyOf e = key
      · rw [lookPath, lookPath, h₁.get, h₂.get, if_pos hk, if_pos hk]
        cases convertRecord e false h b with
        | none => rfl
        | some p => exact ih p.1 p.2
      · rw [lookPath_null ((h₁.get h b key).trans (if_neg hk)), lookPath_null ((h₂.get h b key).trans (if_neg hk))]

/-- The first lookup on a loaded object that is not a container. -/
theorem get_unread {d : Dson} {body : Bytes} (hd : d.Loaded body) (ht : d.headerBuf.dataTypeOf e ≠ TypesMap.dsonContainer)
    (key : Int) (m : Mem) : DsonObj.get e key (.dson d []) m =
      DsonObj.get e key (.dson { d with dsonKind := .oneObjectInDataBuf } []) m := by
  have hread := Dson.header_local (show d.headerIsLocal = true by simp [Dson.headerIsLocal, hd.alloc]) m
  rw [get_parse hd.kind (Dson.parseBuf_other [] (by simp [hd.state]) hread ht), if_pos hd.state]

theorem Dson.Loaded.isAlone {d : Dson} {body : Bytes} (hd : d.Loaded body) (m : Mem) :
    IsAlone fun h b => ({ ({ d with dsonKind := .oneObjectInDataBuf } : Dson) with
      headerBuf := h, buf := .own b }, m) where
  isRecord := isRecord_own (d := { d with dsonKind := .oneObjectInDataBuf }) hd.alloc (by simp [hd.state]) m
  state _ _ := hd.state
  kind _ _ := rfl

/-! ### Views of a message -/

/-- The memory in which a message lies outside the objects. -/
def messageMem (h : Header) (body : Bytes) : Mem := ⟨[], h.bytes ++ body⟩

theorem ofBuf_message {h : Header} {body : Bytes} (hm : IsMessage e h body) :
    Dson.ofBuf e (.view .external 0) (messageMem h body) = some { Dson.overBuf (.view .external 0) with
      dsonKind := if h.dataTypeOf e = TypesMap.dsonContainer then .dataBufNeedParse else .oneObjectInDataBuf } := by
  have hblock : (messageMem h body).block .external = ([] : Bytes) ++ (h.bytes ++ body) := rfl
  have hlimit := hm.limit
  have hview := Dson.ofBuf_eq (e := e) hblock rfl
  rw [Dson.viewOver, if_neg] at hview
  · exact hview
  · rw [hm.size, maxDsonRamSize]
    omega

/-- The view of a message. -/
structure Dson.Windows (e : Endian) (v : Dson) (h : Header) : Prop where
  state : v.state = .ready
  kind : v.dsonKind = if h.dataTypeOf e = TypesMap.dsonContainer then .dataBufNeedParse else .oneObjectInDataBuf
  alloc : v.wasBufAllocation = false
  buf : v.buf = .view .external 0
  size : v.bufSize = 0

theorem windows_of_ofBuf {h : Header} {body : Bytes} (hm : IsMessage e h body) {v : Dson}
    (hrun : Dson.ofBuf e (.view .external 0) (messageMem h body) = some v) : v.Windows e h := by
  rw [ofBuf_message hm] at hrun
  cases hrun
  exact ⟨rfl, rfl, rfl, rfl, rfl⟩

theorem Dson.Windows.isAlone {v : Dson} {h : Header} (hv : v.Windows e h)
    (ht : h.dataTypeOf e ≠ TypesMap.dsonContainer) (body : Bytes) :
    IsAlone fun h' b => (v, (messageMem h body).setBlock .external ([] ++ (Header.bytes h' ++ b))) where
  isRecord := isRecord_view hv.alloc (by simp [hv.state]) hv.buf (messageMem h body) rfl
  state _ _ := hv.state
  kind _ _ := by rw [hv.kind, if_neg ht]

theorem Dson.Windows.header {v : Dson} {h : Header} (hv : v.Windows e h) (body : Bytes) :
    v.header (messageMem h body) = some h :=
  header_view hv.alloc hv.buf (show (messageMem h body).block .external = [] ++ (h.bytes ++ body) from rfl) rfl

/-- A view and an owner of a message that is not a container answer lookups alike. -/
theorem Dson.Windows.lookPath_eq {v d : Dson} {body : Bytes} (hv : v.Windows e d.headerBuf) (hd : d.Loaded body)
    (ht : d.headerBuf.dataTypeOf e ≠ TypesMap.dsonContainer) (path : List Int) :
    (lookPath e path (.dson v []) (messageMem d.headerBuf body)).map Prod.fst =
      (lookPath e path (.dson d []) (messageMem d.headerBuf body)).map Prod.fst := by
  have hd' : ({ ({ d with dsonKind := .oneObjectInDataBuf } : Dson) with
      headerBuf := d.headerBuf, buf := .own body } : Dson) = { d with dsonKind := .oneObjectInDataBuf } := by
    rw [← hd.buf]
  have halone := lookPath_alone (e := e) (hv.isAlone ht body) (hd.isAlone (messageMem d.headerBuf body))
    d.headerBuf body path
  rw [hd'] at halone
  cases path with
  | nil =>
      rw [lookPath, lookPath, summary_dson (hv.header body) (by simp [hv.state]) (by rw [hv.kind, if_neg ht]; simp),
        summary_dson (Dson.header_local (by simp [Dson.headerIsLocal, hd.alloc]) _) (by simp [hd.state])
          (by simp [hd.kind])]
      rfl
  | cons key path => rwa [lookPath, lookPath, get_unread hd ht]

/-- A view of a container is parsed with the size zero. -/
theorem Dson.Windows.parseBuf {v : Dson} {h : Header} {body : Bytes} (hv : v.Windows e h)
    (ht : h.dataTypeOf e = TypesMap.dsonContainer) :
    v.parseBuf e [] (messageMem h body) = some ({ v with dsonKind := .dsonContainer }, []) := by
  rw [Dson.parseBuf, Dson.dataType, if_neg (by simp [hv.state]), hv.header]
  simp only [Option.map_some, Option.bind_eq_bind, Option.bind_some, ht, ne_eq, not_true_eq_false, if_false,
    hv.size, Int.toNat_zero, parseLoop]
  rfl

/-! ### The first iteration -/

theorem childrenToHost_keys {children children' : ObjMap} {m m' : Mem}
    (hrun : DsonObj.childrenToHost e children m = some (children', m')) :
    KeyMap.keys children' = KeyMap.keys children := by
  induction children generalizing children' m with
  | nil =>
      cases hrun
      rfl
  | cons p rest ih =>
      obtain ⟨⟨o, m₁⟩, -, hrun⟩ := Option.bind_eq_some_iff.mp hrun
      obtain ⟨⟨rest', m₂⟩, hrest, hrun⟩ := Option.bind_eq_some_iff.mp hrun
      cases hrun
      rw [KeyMap.keys_cons, KeyMap.keys_cons, ih hrest]

/-- A promotion of a view reads the key of the child from the payload. -/
theorem Dson.Windows.promote {v : Dson} {h : Header} {body : Bytes} (hv : v.Windows e h) :
    v.oneObjectBufToContainer e [] (messageMem h body) = (Header.read body).bind fun p =>
      if p.1.keyOf e < 0 then some ({ v with state := .error }, [], messageMem h body)
      else ({ v with dsonKind := .dsonContainer }.setDataTypeInternal e (messageMem h body)
        TypesMap.dsonContainer).map fun (q : Dson × Mem) =>
          (q.1, [(p.1.keyOf e, .dson (ofHeaderAndBuf h (.view .external headerSize)) [])], q.2) := by
  have hdata : v.data = some headerSize := by
    rw [data, if_neg (by simp [hv.state, hv.buf, BufPtr.isNull]), if_neg (by simp [hv.alloc])]
  have hinner : v.inner (messageMem h body) = messageMem h body := by rw [inner, hv.buf]
  have hchild : v.buf.child headerSize = .view .external headerSize := by
    rw [hv.buf, BufPtr.child, Nat.zero_add]
  have hkey : (ofHeaderAndBuf h (.view .external headerSize)).key e (messageMem h body) =
      (Header.read body).map fun p => p.1.keyOf e := by
    have htail : (BufPtr.view .external headerSize).tail (messageMem h body) 0 = some body :=
      BufPtr.tail_view (messageMem h body) .external (show h.bytes.length = headerSize + 0 from rfl) body
    rw [Dson.key, Dson.header, if_neg (by simp [headerIsLocal, ofHeaderAndBuf, uninit, BufPtr.isNull])]
    simp only [ofHeaderAndBuf, htail, Option.bind_eq_bind, Option.bind_some]
    cases Header.read body <;> rfl
  simp only [oneObjectBufToContainer, hdata, hv.header, hinner, hchild, Option.bind_eq_bind, Option.bind_some, hkey]
  cases Header.read body with
  | none => rfl
  | some p =>
      simp only [Option.map_some, Option.bind_some]
      split_ifs
      · rfl
      · rw [Option.map_eq_bind]
        rfl

/-- A view that is not a container has an iteration without entries exactly when its payload read as a
header has a negative key. -/
theorem Dson.Windows.map_single {v : Dson} {h : Header} {body : Bytes} (hv : v.Windows e h)
    (ht : h.dataTypeOf e ≠ TypesMap.dsonContainer) :
    (DsonObj.map e (.dson v []) (messageMem h body)).map (fun p => p.1.mapKeys) = some [] ↔ NegativeInside e body := by
  have hopen : v.openAsContainer e [] (messageMem h body) = v.oneObjectBufToContainer e [] (messageMem h body) := by
    simp only [openAsContainer, hv.kind, if_neg ht]
  constructor
  · intro hkeys
    obtain ⟨⟨o', m'⟩, hrun, hnil⟩ := Option.map_eq_some_iff.mp hkeys
    obtain ⟨d₁, children₁, m₁, children₂, inside, hopen', hhost, rfl, -⟩ := map_cases hv.state hrun
    rw [hopen, hv.promote] at hopen'
    obtain ⟨⟨h', b⟩, hread, hrest⟩ := Option.bind_eq_some_iff.mp hopen'
    refine ⟨h', b, Header.eq_of_read hread, ?_⟩
    by_contra hneg
    rw [if_neg hneg] at hrest
    obtain ⟨q, -, heq⟩ := Option.map_eq_some_iff.mp hrest
    cases heq
    have hsame := childrenToHost_keys hhost
    rw [show KeyMap.keys children₂ = [] from hnil] at hsame
    cases hsame
  · rintro ⟨h', b, rfl, hneg⟩
    rw [DsonObj.map, if_neg (by simp [hv.state]), hopen, hv.promote, Header.read_bytes_append]
    simp only [Option.bind_eq_bind, Option.bind_some, if_pos hneg]
    rfl

/-- An owner that has not been looked at has an iteration without entries, unless it is a container. -/
theorem map_unread {d : Dson} {body : Bytes} (hd : d.Loaded body) (ht : d.headerBuf.dataTypeOf e ≠ TypesMap.dsonContainer)
    (m : Mem) : (DsonObj.map e (.dson d []) m).map (fun p => p.1.mapKeys) = some [] := by
  have hparse : d.parseBuf e [] m = some ({ d with dsonKind := .oneObjectInDataBuf }, []) := by
    rw [Dson.parseBuf, Dson.dataType, if_neg (by simp [hd.state]),
      Dson.header_local (by simp [Dson.headerIsLocal, hd.alloc])]
    simp only [Option.map_some, Option.bind_eq_bind, Option.bind_some]
    rw [if_pos ht]
    rfl
  rw [DsonObj.map, if_neg (by simp [hd.state]), Dson.openAsContainer]
  simp only [hd.kind, hparse, Option.bind_eq_bind, Option.bind_some]
  rfl

/-! ### Containers -/

/-- A view of a container finds nothing. -/
theorem Dson.Windows.get_container {v : Dson} {h : Header} {body : Bytes} (hv : v.Windows e h)
    (ht : h.dataTypeOf e = TypesMap.dsonContainer) (key : Int) :
    DsonObj.get e key (.dson v []) (messageMem h body) =
      some (.null, .dson { v with dsonKind := .dsonContainer } [], messageMem h body) := by
  rw [DsonObj.get, if_pos (by rw [hv.kind, if_pos ht]), hv.parseBuf ht]
  simp only [Option.bind_eq_bind, Option.bind_some]
  rw [if_neg (by simp [hv.state])]
  rfl

/-- Under a key of a container that has been loaded there is a child. -/
theorem lookPath_owner {d : Dson} {recs before after : List Record} {r : Record} (hd : d.Loaded (recordsBytes recs))
    (ht : d.headerBuf.dataTypeOf e = TypesMap.dsonContainer) (hlen : (recordsBytes recs).length ≤ 2 ^ 30)
    (hfits : ∀ r ∈ recs, Record.Fits e r) {key : Int} (hlast : IsLast e key recs before r after) (m : Mem) :
    (lookPath e [key] (.dson d []) m).map Prod.fst ≠ some none := by
  rcases Dson.parseBuf_spec (m := m) hd.buf hd.alloc hd.size (by simp [hd.state]) ht hlen [] with
    ⟨recs', hfits', hbytes', hparse⟩ | ⟨hnot, -⟩
  · obtain rfl := recordsBytes_inj hfits' hfits hbytes'
    have hparsed : Dson.Parsed { d with dsonKind := .dsonContainer } recs' :=
      ⟨hd.state, rfl, hd.alloc, hd.buf, hd.size⟩
    have hget := get_parse hd.kind hparse key
    rw [if_pos (by exact hd.state), hparsed.get_last hlast] at hget
    rw [lookPath, hget]
    cases convertRecord e false r.header (r.payload ++ recordsBytes after) with
    | none => simp
    | some p =>
        -- what the lookup has found is there, and a summary of it is not a null pointer
        intro hnull
        simp only [Option.map_some, Option.bind_eq_bind, Option.bind_some, DsonObj.onChild,
          find_views_last hlast] at hnull
        obtain ⟨⟨s, o', m'⟩, hrun, hs⟩ := Option.map_eq_some_iff.mp hnull
        obtain ⟨⟨s', o'', inside⟩, hsummary, heq⟩ := Option.bind_eq_some_iff.mp hrun
        cases heq
        exact lookPath_nil_ne _ _ (by rw [hsummary, Option.map_some, hs])
  · exact absurd ⟨recs, hfits, rfl⟩ hnot

/-- Lookups on a container without children. -/
theorem lookPath_blank {d : Dson} (hd : d.IsBlank) (path : List Int) (m : Mem) :
    (lookPath e path (.dson d []) m).map Prod.fst = some (if path = [] then
      some (d.headerBuf.keyOf e, d.headerBuf.dataTypeOf e, 0) else none) := by
  cases path with
  | nil =>
      have hlocal : d.headerIsLocal = true := by simp [Dson.headerIsLocal, hd.buf, BufPtr.isNull]
      have hsize : DsonObj.dataSize e m (.dson d []) = some 0 := by
        rw [DsonObj.dataSize, hd.kind]
        rfl
      rw [lookPath, DsonObj.summary, DsonObj.key, Dson.key, DsonObj.dataType, Dson.dataType,
        if_neg (by simp [hd.state]), Dson.header_local hlocal, hsize]
      rfl
  | cons key path => exact lookPath_null (get_nothing hd.state hd.kind key m) path

theorem recordsBytes_eq_nil {recs : List Record} (h : recordsBytes recs = []) : recs = [] := by
  cases recs with
  | nil => rfl
  | cons r recs =>
      have hlen := congrArg List.length h
      simp [headerSize] at hlen

/-- No path leads into an empty container. -/
theorem not_leadsTo_nil {h : Header} {path : List Int} {s : Summary} (ht : h.dataTypeOf e = TypesMap.dsonContainer) :
    ¬LeadsTo e path h [] s := by
  generalize hb : ([] : Bytes) = b
  intro hleads
  cases hleads with
  | here hnot => exact hnot ht
  | step _ hlast _ =>
      obtain rfl := recordsBytes_eq_nil hb.symm
      have hsplit := hlast.1
      simp at hsplit

/-! ### The comparison -/

section

variable {h : Header} {body : Bytes} {v d : Dson}

/-- The owner of a container with children has a child that the view does not have. -/
theorem not_agrees_container (hw : WellFormed e d.headerBuf body) (hlimit : body.length ≤ 2 ^ 30)
    (ht : d.headerBuf.dataTypeOf e = TypesMap.dsonContainer) (hne : body ≠ []) (hv : v.Windows e d.headerBuf)
    (hd : d.Loaded body) : ¬Agrees e d.headerBuf body v (.dson d []) (messageMem d.headerBuf body) := by
  rintro ⟨hagree, -⟩
  cases hw with
  | leaf _ _ hnot => exact absurd ht hnot
  | @node _ recs _ _ _ hkeys hrecs =>
      obtain ⟨r, recs', rfl⟩ := List.exists_cons_of_ne_nil (l := recs) (fun hnil => hne (by rw [hnil]; rfl))
      obtain ⟨before, r', after, hlast⟩ := exists_isLast (e := e) ⟨r, List.mem_cons_self, rfl⟩
      have hpath := hagree.paths [r.key e]
      rw [lookPath_null (hv.get_container ht _)] at hpath
      exact lookPath_owner hd ht hlimit (fun r hr => ⟨hkeys r hr, (hrecs r hr).size⟩) hlast _ hpath.symm

theorem agrees_blank (hm : IsMessage e d.headerBuf []) (ht : d.headerBuf.dataTypeOf e = TypesMap.dsonContainer)
    (hv : v.Windows e d.headerBuf) (hd : d.IsBlank) :
    Agrees e d.headerBuf [] v (.dson d []) (messageMem d.headerBuf []) := by
  have hsize : d.headerBuf.dataSizeOf e = 0 := hm.size
  have hview : DsonObj.summary e (.dson v []) (messageMem d.headerBuf []) =
      some (d.headerBuf.keyOf e, d.headerBuf.dataTypeOf e, 0) := by
    rw [← hsize]
    exact summary_dson (hv.header []) (by simp [hv.state]) (by rw [hv.kind, if_pos ht]; simp)
  refine ⟨⟨?_, ?_, ?_⟩, fun path s hs => absurd hs (not_leadsTo_nil ht)⟩
  · have hown := lookPath_blank (e := e) hd [] (messageMem d.headerBuf [])
    rw [lookPath, if_pos rfl, Option.map_map] at hown
    rw [hview]
    cases hs : DsonObj.summary e (.dson d []) (messageMem d.headerBuf []) with
    | none =>
        rw [hs] at hown
        cases hown
    | some s =>
        rw [hs] at hown
        exact (Option.some.inj hown).symm
  · intro path
    rw [lookPath_blank hd]
    cases path with
    | nil =>
        rw [lookPath, hview]
        rfl
    | cons key path => rw [lookPath_null (hv.get_container ht key), if_neg (by simp)]
  · have hopen : v.openAsContainer e [] (messageMem d.headerBuf []) =
        some ({ v with dsonKind := .dsonContainer }, [], messageMem d.headerBuf []) := by
      simp only [Dson.openAsContainer, hv.kind, if_pos ht, hv.parseBuf ht]
      rfl
    have hopen' : d.openAsContainer e [] (messageMem d.headerBuf []) = some (d, [], messageMem d.headerBuf []) := by
      simp only [Dson.openAsContainer, hd.kind]
    rw [DsonObj.map, if_neg (by simp [hv.state]), hopen, DsonObj.map, if_neg (by simp [hd.state]), hopen']
    rfl

/-- A single object is found alike through both; they may differ in the first iteration. -/
theorem agrees_single (ht : d.headerBuf.dataTypeOf e ≠ TypesMap.dsonContainer) (hv : v.Windows e d.headerBuf)
    (hd : d.Loaded body) : Agrees e d.headerBuf body v (.dson d []) (messageMem d.headerBuf body) ↔
      NegativeInside e body := by
  have hmap := map_unread hd ht (messageMem d.headerBuf body)
  have hlocal : d.headerIsLocal = true := by simp [Dson.headerIsLocal, hd.alloc]
  have hown : DsonObj.summary e (.dson d []) (messageMem d.headerBuf body) = some (d.headerBuf.keyOf e,
      d.headerBuf.dataTypeOf e, d.headerBuf.dataSizeOf e) :=
    summary_dson (Dson.header_local hlocal _) (by simp [hd.state]) (by simp [hd.kind])
  constructor
  · rintro ⟨hagree, -⟩
    have hkeys := hagree.keys
    rw [hmap] at hkeys
    exact (hv.map_single ht).mp hkeys
  · intro hneg
    refine ⟨⟨?_, hv.lookPath_eq hd ht, ?_⟩, fun path s hs => ?_⟩
    · rw [hown, summary_dson (hv.header body) (by simp [hv.state]) (by rw [hv.kind, if_neg ht]; simp)]
    · rw [hmap]
      exact (hv.map_single ht).mpr hneg
    · cases hs with
      | here _ =>
          rw [lookPath, hown]
          rfl
      | step hyes _ _ => exact absurd hyes ht

/-- The view of an empty single object finds it, the owner is a container without children. -/
theorem not_agrees_empty (ht : d.headerBuf.dataTypeOf e ≠ TypesMap.dsonContainer) (hv : v.Windows e d.headerBuf)
    (hd : d.IsBlank) : ¬Agrees e d.headerBuf [] v (.dson d []) (messageMem d.headerBuf []) := by
  rintro ⟨hagree, -⟩
  have hpath := hagree.paths [d.headerBuf.keyOf e]
  rw [lookPath_blank hd, if_neg (by simp)] at hpath
  have hget := (hv.isAlone ht []).get (e := e) d.headerBuf [] (d.headerBuf.keyOf e)
  rw [if_pos rfl] at hget
  change DsonObj.get e _ (.dson v []) (messageMem d.headerBuf []) = _ at hget
  rw [lookPath, hget] at hpath
  cases hconv : convertRecord e false d.headerBuf [] with
  | none =>
      rw [hconv] at hpath
      cases hpath
  | some p =>
      rw [hconv] at hpath
      exact lookPath_nil_ne _ _ hpath

end

end

/-- A view and an owner of a well-formed message agree, and every path of keys leads to its value, exactly
when the message is a container without children, or a single object whose payload is a header or longer
and has a negative key when it is read as one. -/
theorem view_agrees_iff {e : Endian} {h : Header} {body : Bytes} (hw : WellFormed e h body)
    (hlimit : body.length ≤ 2 ^ 30) {v : Dson}
    (hv : Dson.ofBuf e (.view .external 0) (messageMem h body) = some v) {o : DsonObj}
    (ho : Arrives e o (h.bytes ++ body)) :
    Agrees e h body v o (messageMem h body) ↔
      (h.dataTypeOf e = TypesMap.dsonContainer ∧ body = []) ∨
        (h.dataTypeOf e ≠ TypesMap.dsonContainer ∧ NegativeInside e body) := by
  have hm : IsMessage e h body := ⟨hw.size, hlimit⟩
  have hwin := windows_of_ofBuf hm hv
  obtain ⟨d, rfl, rfl, -, -, hcases⟩ := ho.took hm
  by_cases ht : d.headerBuf.dataTypeOf e = TypesMap.dsonContainer
  · rcases hcases with ⟨hne, hd⟩ | ⟨rfl, hstate, hkind, hbuf, halloc⟩
    · have hnot := not_agrees_container hw hlimit ht hne hwin hd
      simp [hnot, ht, hne]
    · have hyes := agrees_blank hm ht hwin ⟨hstate, hkind, hbuf, halloc⟩
      simp [hyes, ht]
  · rcases hcases with ⟨hne, hd⟩ | ⟨rfl, hstate, hkind, hbuf, halloc⟩
    · simp [agrees_single ht hwin hd, ht]
    · have hnot := not_agrees_empty ht hwin ⟨hstate, hkind, hbuf, halloc⟩
      have hneg : ¬NegativeInside e [] := by
        rintro ⟨h', b, hnil, -⟩
        have hlen := congrArg List.length hnil
        rw [List.length_append, Header.bytes_length, List.length_nil] at hlen
        omega
      simp [hnot, hneg, ht]

theorem view_agrees_iff_sample : ∃ v o, Dson.ofBuf .little (.view .external 0) (messageMem (containerHeader 3 0) []) =
    some v ∧ Agrees .little (containerHeader 3 0) [] v o (messageMem (containerHeader 3 0) []) :=
  ⟨_, _, rfl, (view_agrees_iff (show WellFormed .little (containerHeader 3 0) (recordsBytes []) from
      .node (Or.inl rfl) rfl rfl (by simp) (by simp)) (by simp) rfl
    ⟨fun _ => 0, Dson.uninit (Dson.clearHeader .little), [], ⟨[], []⟩, ⟨by decide, by decide, Or.inr rfl⟩,
      Or.inl ⟨[], rfl⟩⟩).mpr (Or.inl ⟨rfl, rfl⟩)⟩

/-- A number under the key 5. -/
def numberRecord : Record :=
  ⟨⟨markHostOrder .little, Cell.ofInt .little 4, Cell.ofInt .little 5, Cell.ofInt .little TypesMap.int32⟩, [7, 0, 0, 0]⟩

/-- In a container with one number the owner finds the number and the view finds nothing. -/
theorem view_of_number_not_agrees : ∃ v o,
    Dson.ofBuf .little (.view .external 0) (messageMem (containerHeader 0 20) (recordsBytes [numberRecord])) = some v ∧
      WellFormed .little (containerHeader 0 20) (recordsBytes [numberRecord]) ∧
      Arrives .little o ((containerHeader 0 20).bytes ++ recordsBytes [numberRecord]) ∧
      ¬Agrees .little (containerHeader 0 20) (recordsBytes [numberRecord]) v o
        (messageMem (containerHeader 0 20) (recordsBytes [numberRecord])) := by
  refine ⟨_, .dson (Dson.loaded (containerHeader 0 20) (recordsBytes [numberRecord])) [], rfl, ?_, ?_, ?_⟩
  · refine .node (Or.inl rfl) (by decide) (by decide) (by decide) fun r hr => ?_
    rw [List.mem_singleton.mp hr]
    exact .leaf (Or.inl rfl) (by decide) (by decide)
  · exact ⟨fun _ => 0, Dson.uninit (Dson.clearHeader .little), [], ⟨[], []⟩, ⟨by decide, by decide, Or.inr rfl⟩,
      Or.inl ⟨[], rfl⟩⟩
  · rintro ⟨hagree, -⟩
    have hown : (lookPath .little [5] (.dson (Dson.loaded (containerHeader 0 20) (recordsBytes [numberRecord])) [])
        (messageMem (containerHeader 0 20) (recordsBytes [numberRecord]))).map Prod.fst =
      some (some (5, TypesMap.int32, 4)) := by decide +kernel
    cases hown.symm.trans (hagree.paths [5]).symm

end LeanDson
