import LeanDson.Abandon
import LeanDson.Shadows

/-! Objects that are loaded again. `clear` keeps the header, and a buffer that is not the object's own: a cleared
object loads a message with data like a fresh one if and only if it does not point at a header in foreign memory that
announces another size, and every message if and only if it does not point into foreign memory. -/

namespace LeanDson

open ByteSink

/-! ### Comparisons -/

/-- The object but for its offset. -/
def DsonObj.settled : DsonObj → DsonObj
  | .dson d children => .dson { d with offset := 0 } children
  | o => o

/-- Two objects over the same memory that answer alike. -/
structure SameAnswers (e : Endian) (o₁ o₂ : DsonObj) (m : Mem) : Prop where
  key : o₁.key e m = o₂.key e m
  dataType : o₁.dataType e m = o₂.dataType e m
  dataSize : o₁.dataSize e m = o₂.dataSize e m
  get : ∀ key, (DsonObj.get e key o₁ m).map (fun p => (p.1, p.2.1.settled, p.2.2)) =
    (DsonObj.get e key o₂ m).map fun p => (p.1, p.2.1.settled, p.2.2)

/-- A message is loaded into the cleared object as it is into a fresh one, and no memory around it changes. A
run stops at the first call that is not in process. -/
structure Reloads (e : Endian) (junk : Nat → UInt8) (o : DsonObj) (m : Mem) (h : Header) (body : Bytes) : Prop where
  stream : ∀ later, ∃ o₁ o₂, DsonObj.loadFromStream e junk (h.bytes ++ (body ++ later)) o.clear m = some (o₁, m, later) ∧
    DsonObj.loadFromStream e junk (h.bytes ++ (body ++ later)) (.empty e) m = some (o₂, m, later) ∧
    SameAnswers e o₁ o₂ m
  fd : ∀ n answers later, none ∉ answers → ∃ r o₁ o₂ fd,
    DsonObj.loadFdRun e junk n o.clear m ⟨answers, h.bytes ++ (body ++ later)⟩ = some (r, o₁, m, fd) ∧
      DsonObj.loadFdRun e junk n (.empty e) m ⟨answers, h.bytes ++ (body ++ later)⟩ = some (r, o₂, m, fd) ∧
      (r ≠ .inProcess → SameAnswers e o₁ o₂ m)
  buf : ∀ windows more later, windows.flatten ++ more = h.bytes ++ (body ++ later) → ∃ r o₁ o₂,
    DsonObj.loadBufRun e junk windows o.clear m = some (r, o₁, m) ∧
      DsonObj.loadBufRun e junk windows (.empty e) m = some (r, o₂, m) ∧
      (r ≠ .inProcess → SameAnswers e o₁ o₂ m)

/-- A call of `emplace`. -/
inductive Insertion where
  | emplace (key : Int) (obj : DsonObj)
  | emplacePtr (obj : DsonObj)

namespace DsonObj

variable (e : Endian)

def insertions : List Insertion → DsonObj → Mem → Option (DsonObj × Mem)
  | [], o, m => some (o, m)
  | .emplace key obj :: ops, o, m => do
      let (o, m) ← DsonObj.emplace e key obj o m
      insertions ops o m
  | .emplacePtr obj :: ops, o, m => do
      let (o, m) ← DsonObj.emplacePtr e obj o m
      insertions ops o m

/-- `set_key` and calls of `emplace`. -/
def rebuild (key : Int) (ops : List Insertion) (o : DsonObj) (m : Mem) : Option (DsonObj × Mem) := do
  let (o, m) ← o.setKey e m key
  insertions e ops o m

end DsonObj

/-- Two objects over the same memory that have the same key, children and complete emissions. -/
structure SameContents (e : Endian) (o₁ o₂ : DsonObj) (m : Mem) : Prop where
  key : o₁.key e m = o₂.key e m
  get : ∀ key, (DsonObj.get e key o₁ m).map (fun p => (p.1, p.2.1.keyToValMap, p.2.2)) =
    (DsonObj.get e key o₂ m).map fun p => (p.1, p.2.1.keyToValMap, p.2.2)
  run : ∀ {σ : Type} [ByteSink σ] (network : Bool) (ss : List σ),
    (o₁.copyRun e network m ss).map (fun p => (p.1, p.2.2)) = (o₂.copyRun e network m ss).map fun p => (p.1, p.2.2)
  stream : ∀ network, (o₁.copyToStream e network m).map (fun p => p.2.2) =
    (o₂.copyToStream e network m).map fun p => p.2.2

/-- The cleared object is built up like a fresh one, and leaves the same memory around it. -/
def Rebuilds (e : Endian) (o : DsonObj) (m : Mem) (key : Int) (ops : List Insertion) : Prop :=
  Option.Rel (fun p₁ p₂ => p₁.2 = p₂.2 ∧ SameContents e p₁.1 p₂.1 p₁.2)
    (o.clear.rebuild e key ops m) ((DsonObj.empty e).rebuild e key ops m)

/-- The object does not point into memory of somebody else. -/
def Dson.Unattached (d : Dson) : Prop := d.wasBufAllocation = true ∨ d.buf = .null

/-! ### Offsets -/

section

variable {e : Endian} {d : Dson} {m : Mem} (n : Nat)

theorem Dson.setHeader_offset (h : Header) : Dson.setHeader { d with offset := n } m h =
    (d.setHeader m h).map fun p => ({ p.1 with offset := n }, p.2) := by
  have hlocal : Dson.headerIsLocal { d with offset := n } = d.headerIsLocal := rfl
  rw [Dson.setHeader, Dson.setHeader, hlocal]
  split_ifs
  · rfl
  · cases d.buf.tail m 0 with
    | none => rfl
    | some t =>
        simp only [Option.bind_eq_bind, Option.bind_some]
        cases Header.read t <;> rfl

theorem Dson.headerToOrder_offset (network : Bool) : Dson.headerToOrder e network { d with offset := n } m =
    (d.headerToOrder e network m).map fun p => ({ p.1 with offset := n }, p.2) := by
  have hheader : Dson.header { d with offset := n } m = d.header m := rfl
  rw [Dson.headerToOrder, Dson.headerToOrder, hheader]
  cases d.header m with
  | none => rfl
  | some h => exact Dson.setHeader_offset n _

theorem Dson.convertData_offset (converter : Converter) : Dson.convertData converter { d with offset := n } m =
    (d.convertData converter m).map fun p => ({ p.1 with offset := n }, p.2) := by
  have hheader : Dson.header { d with offset := n } m = d.header m := rfl
  have hdata : Dson.data { d with offset := n } = d.data := rfl
  rw [Dson.convertData, Dson.convertData, hheader, hdata]
  cases d.data with
  | none => rfl
  | some off =>
      cases d.header m with
      | none => rfl
      | some h =>
          simp only [Option.bind_eq_bind, Option.bind_some]
          cases d.buf.tail m off with
          | none => rfl
          | some t =>
              simp only [Option.bind_some]
              cases converter h t <;> rfl

theorem Dson.toHost_offset : Dson.toHost e { d with offset := n } m =
    (d.toHost e m).map fun p => ({ p.1 with offset := n }, p.2) := by
  have hhost : Dson.isHostOrder e { d with offset := n } m = d.isHostOrder e m := rfl
  have htype : Dson.dataType e { d with offset := n } m = d.dataType e m := rfl
  rw [Dson.toHost, Dson.toHost, hhost, htype]
  cases d.isHostOrder e m with
  | none => rfl
  | some host =>
      simp only [Option.bind_eq_bind, Option.bind_some]
      split_ifs
      · rfl
      · cases d.dataType e m with
        | none => rfl
        | some type =>
            simp only [Option.bind_some]
            cases toHostOrder e type with
            | none => rfl
            | some converter =>
                simp only [Dson.toHostInternal, Dson.headerToOrder_offset, Option.bind_eq_bind]
                cases d.headerToOrder e false m with
                | none => rfl
                | some p => exact Dson.convertData_offset n converter

theorem Dson.parseBuf_offset (children : ObjMap) : Dson.parseBuf e { d with offset := n } children m =
    (d.parseBuf e children m).map fun p => ({ p.1 with offset := n }, p.2) := by
  have htype : Dson.dataType e { d with offset := n } m = d.dataType e m := rfl
  have hdata : Dson.data { d with offset := n } = d.data := rfl
  have hinner : Dson.inner { d with offset := n } m = d.inner m := rfl
  rw [Dson.parseBuf, Dson.parseBuf, htype, hdata, hinner]
  cases d.dataType e m with
  | none => rfl
  | some type =>
      simp only [Option.bind_eq_bind, Option.bind_some]
      split_ifs
      · rfl
      · cases Dson.parseLoop e (d.buf.child 0) (d.inner m) d.bufSize.toNat d.bufSize (d.data.getD 0) children with
        | none => rfl
        | some p =>
            simp only [Option.bind_some]
            split_ifs <;> rfl

theorem DsonObj.onChild_offset {α : Type} (key : Int) (f : DsonObj → Mem → Option (α × DsonObj × Mem))
    (children : ObjMap) : (DsonObj.onChild key f (.dson { d with offset := n } children) m).map
      (fun p => (p.1, p.2.1.settled, p.2.2)) =
        (DsonObj.onChild key f (.dson d children) m).map fun p => (p.1, p.2.1.settled, p.2.2) := by
  have hinner : Dson.inner { d with offset := n } m = d.inner m := rfl
  simp only [DsonObj.onChild, hinner]
  cases KeyMap.find key children with
  | none => rfl
  | some o =>
      simp only [Option.bind_eq_bind, Option.bind_some]
      cases f o (d.inner m) with
      | none => rfl
      | some p =>
          obtain ⟨a, o', inside⟩ := p
          obtain ⟨state, offset, headerBuf, buf, bufSize, alloc, kind, it⟩ := d
          cases buf <;> rfl

/-- A lookup does not depend on the offset. -/
theorem DsonObj.get_offset (key : Int) (children : ObjMap) :
    (DsonObj.get e key (.dson { d with offset := n } children) m).map (fun p => (p.1, p.2.1.settled, p.2.2)) =
      (DsonObj.get e key (.dson d children) m).map fun p => (p.1, p.2.1.settled, p.2.2) := by
  have hparsed : ∀ (d : Dson) (children : ObjMap), d.dsonKind ≠ .dataBufNeedParse →
      (DsonObj.get e key (.dson { d with offset := n } children) m).map (fun p => (p.1, p.2.1.settled, p.2.2)) =
        (DsonObj.get e key (.dson d children) m).map fun p => (p.1, p.2.1.settled, p.2.2) := by
    intro d children hkind
    have hkey : Dson.key e { d with offset := n } m = d.key e m := rfl
    rw [DsonObj.get, DsonObj.get, if_neg hkind, if_neg hkind]
    simp only [Option.bind_eq_bind, Option.bind_some, hkey]
    split_ifs
    · rfl
    · have hhost := Dson.toHost_offset (e := e) (d := d) (m := m) n
      have hchild := DsonObj.onChild_offset (d := d) (m := m) n key (fun o m => do
        let (o, m) ← o.toHost e m
        return (Found.child key, o, m)) children
      obtain ⟨state, offset, headerBuf, buf, bufSize, alloc, kind, it⟩ := d
      cases kind with
      | dataBufNeedParse => rfl
      | oneObjectInDataBuf =>
          cases Dson.key e ⟨state, offset, headerBuf, buf, bufSize, alloc, .oneObjectInDataBuf, it⟩ m with
          | none => rfl
          | some own =>
              simp only [Option.bind_some]
              split_ifs
              · rw [hhost]
                cases Dson.toHost e ⟨state, offset, headerBuf, buf, bufSize, alloc, .oneObjectInDataBuf, it⟩ m <;> rfl
              · rfl
      | dsonContainer =>
          simp only [DsonObj.getInternal]
          cases KeyMap.find key children with
          | none => rfl
          | some o => exact hchild
  by_cases hkind : d.dsonKind = .dataBufNeedParse
  · have hoffset := Dson.parseBuf_offset (e := e) (d := d) (m := m) n children
    cases hparse : d.parseBuf e children m with
    | none =>
        rw [hparse] at hoffset
        rw [DsonObj.get, DsonObj.get, if_pos hkind, if_pos hkind, hparse, hoffset]
        rfl
    | some p =>
        rw [hparse] at hoffset
        rw [get_parse hkind hparse, get_parse (d := { d with offset := n }) hkind hoffset]
        dsimp only
        split_ifs with hready
        · refine hparsed p.1 p.2 ?_
          rcases Dson.parseBuf_cases hparse with ⟨hp, -, -⟩ | ⟨-, notUsed, -, ⟨-, hp⟩ | ⟨-, hp⟩⟩
          · simp [hp]
          · rw [hp] at hready
            cases hready
          · simp [hp]
        · rfl
  · exact hparsed d children hkind

theorem SameAnswers.offset (d : Dson) (m : Mem) :
    SameAnswers e (.dson { d with offset := n } []) (.dson d []) m :=
  ⟨rfl, rfl, rfl, fun key => DsonObj.get_offset n key []⟩

theorem Dson.headerLoaded_offset (junk : Nat → UInt8) (children : ObjMap) :
    Dson.headerLoaded e junk { d with offset := n } children m =
      (d.headerLoaded e junk children m).map fun p => (p.1, { p.2 with offset := n }) := by
  have hsize : DsonObj.dataSize e m (.dson { d with offset := n } children) = DsonObj.dataSize e m (.dson d children) :=
    rfl
  simp only [Dson.headerLoaded, hsize]
  cases DsonObj.dataSize e m (.dson d children) with
  | none => rfl
  | some size =>
      simp only [Option.bind_eq_bind, Option.bind_some, Dson.allocate]
      split_ifs <;> rfl

theorem Dson.patchBuf_offset (off : Nat) (chunk : Bytes) : Dson.patchBuf { d with offset := n } m off chunk =
    (d.patchBuf m off chunk).map fun p => ({ p.1 with offset := n }, p.2) := by
  simp only [Dson.patchBuf]
  cases d.buf.tail m off with
  | none => rfl
  | some t =>
      simp only [Option.bind_eq_bind, Option.bind_some]
      cases poke t chunk <;> rfl

end

/-! ### Loads -/

section

variable {e : Endian} {junk : Nat → UInt8} {d₁ d₂ : Dson} {m m' : Mem}

/-- Two objects that `clear` leaves alike, but for the header and the offset. -/
def Dson.Twins (d₁ d₂ : Dson) : Prop :=
  d₁.clear = { d₂.clear with offset := d₁.offset, headerBuf := d₁.headerBuf }

theorem Dson.Twins.loadFromStream (ht : d₁.Twins d₂) {h : Header} {rest rest' : Bytes} {children₁ children₂ : ObjMap}
    {d : Dson} (hrun : DsonObj.loadFromStream e junk (h.bytes ++ rest) (.dson d₂ children₂) m =
      some (.dson d [], m', rest')) :
    DsonObj.loadFromStream e junk (h.bytes ++ rest) (.dson d₁ children₁) m =
      some (.dson { d with offset := d₁.offset } [], m', rest') := by
  have hstart : ({ d₁.clear with headerBuf := h, dsonKind := .dataBufNeedParse } : Dson) =
      { ({ d₂.clear with headerBuf := h, dsonKind := .dataBufNeedParse } : Dson) with offset := d₁.offset } := by
    rw [show d₁.clear = _ from ht]
  rw [DsonObj.loadFromStream_eq] at hrun ⊢
  rw [hstart, Dson.headerLoaded_offset]
  obtain ⟨⟨r, d'⟩, hloaded, hrun⟩ := Option.bind_eq_some_iff.mp hrun
  rw [hloaded]
  cases r with
  | some r =>
      cases hrun
      rfl
  | none =>
      simp only [Option.map_some, Option.bind_some, Dson.patchBuf_offset] at hrun ⊢
      obtain ⟨⟨d'', m''⟩, hpatch, hrun⟩ := Option.bind_eq_some_iff.mp hrun
      rw [hpatch]
      simp only [Option.map_some, Option.bind_some] at hrun ⊢
      split_ifs at hrun ⊢
      · cases hrun
        rfl
      · cases hrun
        rfl

/-- Two objects that have taken the same first part of a header. -/
structure Dson.Halves (got : Bytes) (d₁ d₂ : Dson) : Prop where
  first : d₁.AwaitsHeader got
  second : d₂.AwaitsHeader got
  same : d₂ = { d₁ with headerBuf := d₂.headerBuf }

section

variable {got chunk window : Bytes} {children : ObjMap} {r : Result} {d : Dson}

/-- One more piece: less than a header, or the same header. -/
theorem Dson.Halves.headerTaken (ht : Dson.Halves got d₁ d₂) (chunk : Bytes) (hle : got.length + chunk.length ≤ headerSize) :
    ((got ++ chunk).length < headerSize → Dson.Halves (got ++ chunk) (d₁.headerTaken chunk) (d₂.headerTaken chunk)) ∧
      ((got ++ chunk).length = headerSize → d₁.headerTaken chunk = d₂.headerTaken chunk) := by
  have hsame : d₂.headerTaken chunk = { d₁.headerTaken chunk with headerBuf := (d₂.headerTaken chunk).headerBuf } := by
    have hfields : ∀ g : Header, ({ d₁ with headerBuf := g } : Dson).headerTaken chunk =
        { d₁.headerTaken chunk with headerBuf := g.patch d₁.offset chunk } := fun g => rfl
    rw [ht.same]
    exact hfields d₂.headerBuf
  refine ⟨fun hshort => ⟨ht.first.more hle hshort, ht.second.more hle hshort, hsame⟩, fun hfull => ?_⟩
  have hfirst := ht.first.bytes_taken hle
  have hsecond := ht.second.bytes_taken hle
  rw [hfull, List.take_of_length_le (by simp [headerSize])] at hfirst hsecond
  rw [hsame, Header.bytes_inj (hsecond.trans hfirst.symm)]

theorem Dson.Halves.loadHeaderFromFd (ht : Dson.Halves got d₁ d₂) {fd fd' : FdIn} (hfd : none ∉ fd.answers)
    (hrun : d₁.loadHeaderFromFd e junk children m fd = some (r, d, m', fd')) :
    ∃ d', d₂.loadHeaderFromFd e junk children m fd = some (r, d', m', fd') ∧
      (d' = d ∨ r = .inProcess ∧ ∃ got', Dson.Halves got' d d') := by
  have hshort := ht.first.short
  have hoff₁ := ht.first.offset
  have hoff₂ := ht.second.offset
  obtain ⟨j, k, hread, -, hk, hinput, -⟩ := readFromFd_some hfd (headerSize - got.length)
  have hlen : (fd.input.take k).length = k := by rw [List.length_take, min_eq_left hinput]
  have htaken := ht.headerTaken (fd.input.take k) (by omega)
  rw [Dson.loadHeaderFromFd_eq (by omega), hoff₁, hread] at hrun
  rw [Dson.loadHeaderFromFd_eq (by omega), hoff₂, hread]
  dsimp only at hrun ⊢
  rw [List.length_append] at htaken
  split_ifs at hrun ⊢ with hmore
  · cases hrun
    exact ⟨_, rfl, Or.inr ⟨rfl, _, htaken.1 hmore⟩⟩
  · rw [← htaken.2 (by omega), hrun]
    exact ⟨d, rfl, Or.inl rfl⟩

theorem Dson.Halves.loadHeaderFromBuf (ht : Dson.Halves got d₁ d₂)
    (hrun : d₁.loadHeaderFromBuf e junk children m window = some (r, d, m')) :
    ∃ d', d₂.loadHeaderFromBuf e junk children m window = some (r, d', m') ∧
      (d' = d ∨ r = .inProcess ∧ ∃ got', Dson.Halves got' d d') := by
  have hshort := ht.first.short
  have hoff₁ := ht.first.offset
  have hoff₂ := ht.second.offset
  have hle : (window.take (headerSize - got.length)).length ≤ headerSize - got.length := List.length_take_le _ _
  have htaken := ht.headerTaken (window.take (headerSize - got.length)) (by omega)
  rw [Dson.loadHeaderFromBuf_eq (by omega), hoff₁] at hrun
  rw [Dson.loadHeaderFromBuf_eq (by omega), hoff₂]
  rw [List.length_append] at htaken
  by_cases hmore : got.length + (window.take (headerSize - got.length)).length < headerSize
  · rw [if_pos hmore] at hrun ⊢
    cases hrun
    exact ⟨_, rfl, Or.inr ⟨rfl, _, htaken.1 hmore⟩⟩
  · rw [if_neg hmore] at hrun ⊢
    rw [← htaken.2 (by omega), hrun]
    exact ⟨d, rfl, Or.inl rfl⟩

/-- Two objects between the calls of a load: they are the same, or the header is not complete, or they are about
to start alike. -/
def Dson.Alike (d₁ d₂ : Dson) : Prop :=
  d₁ = d₂ ∨ (∃ got, Dson.Halves got d₁ d₂) ∨
    (d₁.state = .ready ∧ d₂.state = .ready ∧ Dson.Halves [] d₁.beginLoad d₂.beginLoad)

theorem Dson.Alike.of_halves {d' : Dson} (h : d' = d ∨ r = .inProcess ∧ ∃ got, Dson.Halves got d d') :
    d.Alike d' ∧ (r ≠ .inProcess → d = d') := by
  rcases h with rfl | ⟨hr, hhalves⟩
  · exact ⟨Or.inl rfl, fun _ => rfl⟩
  · exact ⟨Or.inr (Or.inl hhalves), fun hne => absurd hr hne⟩

/-- A call that has not ended the load leaves the first object in the middle of it. -/
theorem Dson.Stands.loads (hs : d.Stands e r got) (hr : r = .inProcess) : d.Loads e [] got := by
  rcases hs with ⟨-, hawaits⟩ | ⟨rfl, -⟩ | ⟨rfl, -⟩
  · exact Or.inr ⟨rfl, hawaits⟩
  · cases hr
  · cases hr

theorem Dson.Alike.loadFromFd (ha : d₁.Alike d₂) (hl : d₁.Loads e [] got) (junk : Nat → UInt8) {fd : FdIn}
    (hfd : none ∉ fd.answers) (m : Mem) :
    ∃ r d d' fd', DsonObj.loadFromFd e junk fd (.dson d₁ []) m = some (r, .dson d [], m, fd') ∧
      DsonObj.loadFromFd e junk fd (.dson d₂ []) m = some (r, .dson d' [], m, fd') ∧ none ∉ fd'.answers ∧
      (d.Alike d' ∧ (r ≠ .inProcess → d = d')) ∧ (r = .inProcess → ∃ got', d.Loads e [] got') := by
  obtain ⟨r, d, j, k, hrun, -, -, hstands, -⟩ := hl.loadFromFd junk fd hfd m
  suffices hsecond : ∃ d', DsonObj.loadFromFd e junk fd (.dson d₂ []) m = some (r, .dson d' [], m, fd.after j k) ∧
      d.Alike d' ∧ (r ≠ .inProcess → d = d') by
    obtain ⟨d', hrun', hsame⟩ := hsecond
    exact ⟨r, d, d', _, hrun, hrun', FdIn.none_notMem_after hfd j k, hsame, fun hr => ⟨_, hstands.loads hr⟩⟩
  rcases ha with rfl | ⟨got, ht⟩ | ⟨hready₁, hready₂, ht⟩
  · exact ⟨d, hrun, Or.inl rfl, fun _ => rfl⟩
  · rw [DsonObj.loadFromFd_header ht.first.state] at hrun
    obtain ⟨⟨r', d₀, m', fd'⟩, hload, heq⟩ := Option.map_eq_some_iff.mp hrun
    cases heq
    obtain ⟨d', hload', hcases⟩ := ht.loadHeaderFromFd hfd hload
    refine ⟨d', ?_, Dson.Alike.of_halves hcases⟩
    rw [DsonObj.loadFromFd_header ht.second.state, hload']
    rfl
  · rw [DsonObj.loadFromFd_start (by simp [hready₁]) (by simp [hready₁])] at hrun
    obtain ⟨⟨r', d₀, m', fd'⟩, hload, heq⟩ := Option.map_eq_some_iff.mp hrun
    cases heq
    obtain ⟨d', hload', hcases⟩ := ht.loadHeaderFromFd hfd hload
    refine ⟨d', ?_, Dson.Alike.of_halves hcases⟩
    rw [DsonObj.loadFromFd_start (by simp [hready₂]) (by simp [hready₂]), hload']
    rfl

theorem Dson.Alike.loadFromBuf (ha : d₁.Alike d₂) (hl : d₁.Loads e [] got) (junk : Nat → UInt8) (window : Bytes)
    (m : Mem) :
    ∃ r d d', DsonObj.loadFromBuf e junk window (.dson d₁ []) m = some (r, .dson d [], m) ∧
      DsonObj.loadFromBuf e junk window (.dson d₂ []) m = some (r, .dson d' [], m) ∧
      (d.Alike d' ∧ (r ≠ .inProcess → d = d')) ∧ (r = .inProcess → ∃ got', d.Loads e [] got') := by
  obtain ⟨r, d, k, hrun, -, hstands, -⟩ := hl.loadFromBuf junk window m
  suffices hsecond : ∃ d', DsonObj.loadFromBuf e junk window (.dson d₂ []) m = some (r, .dson d' [], m) ∧
      d.Alike d' ∧ (r ≠ .inProcess → d = d') by
    obtain ⟨d', hrun', hsame⟩ := hsecond
    exact ⟨r, d, d', hrun, hrun', hsame, fun hr => ⟨_, hstands.loads hr⟩⟩
  rcases ha with rfl | ⟨got, ht⟩ | ⟨hready₁, hready₂, ht⟩
  · exact ⟨d, hrun, Or.inl rfl, fun _ => rfl⟩
  · rw [DsonObj.loadFromBuf_header ht.first.state] at hrun
    obtain ⟨⟨r', d₀, m'⟩, hload, heq⟩ := Option.map_eq_some_iff.mp hrun
    cases heq
    obtain ⟨d', hload', hcases⟩ := ht.loadHeaderFromBuf hload
    refine ⟨d', ?_, Dson.Alike.of_halves hcases⟩
    rw [DsonObj.loadFromBuf_header ht.second.state, hload']
    rfl
  · rw [DsonObj.loadFromBuf_start (by simp [hready₁]) (by simp [hready₁])] at hrun
    obtain ⟨⟨r', d₀, m'⟩, hload, heq⟩ := Option.map_eq_some_iff.mp hrun
    cases heq
    obtain ⟨d', hload', hcases⟩ := ht.loadHeaderFromBuf hload
    refine ⟨d', ?_, Dson.Alike.of_halves hcases⟩
    rw [DsonObj.loadFromBuf_start (by simp [hready₂]) (by simp [hready₂]), hload']
    rfl

/-- Over a descriptor the two objects are the same as soon as a call is not in process. -/
theorem Dson.Alike.fdRun (ha : d₁.Alike d₂) (hl : d₁.Loads e [] got) (junk : Nat → UInt8) (n : Nat) (fd : FdIn)
    (hfd : none ∉ fd.answers) (m : Mem) : ∃ r o₁ o₂ fd',
      DsonObj.loadFdRun e junk n (.dson d₁ []) m fd = some (r, o₁, m, fd') ∧
        DsonObj.loadFdRun e junk n (.dson d₂ []) m fd = some (r, o₂, m, fd') ∧ (r ≠ .inProcess → o₁ = o₂) := by
  induction n generalizing d₁ d₂ got fd with
  | zero => exact ⟨_, _, _, _, rfl, rfl, fun hne => absurd rfl hne⟩
  | succ n ih =>
      obtain ⟨r, d, d', fd', hcall, hcall', hfd', ⟨halike, hsame⟩, hloads⟩ := ha.loadFromFd hl junk hfd m
      rw [DsonObj.loadFdRun, DsonObj.loadFdRun, hcall, hcall']
      simp only [Option.bind_eq_bind, Option.bind_some]
      by_cases hr : r = .inProcess
      · obtain ⟨got', hl'⟩ := hloads hr
        rw [if_pos hr, if_pos hr]
        exact ih halike hl' fd' hfd'
      · rw [if_neg hr, if_neg hr]
        exact ⟨_, _, _, _, rfl, rfl, fun hne => by rw [hsame hne]⟩

/-- Over windows the two objects are the same as soon as a call is not in process. -/
theorem Dson.Alike.bufRun (ha : d₁.Alike d₂) (hl : d₁.Loads e [] got) (junk : Nat → UInt8) (windows : List Bytes)
    (m : Mem) : ∃ r o₁ o₂,
      DsonObj.loadBufRun e junk windows (.dson d₁ []) m = some (r, o₁, m) ∧
        DsonObj.loadBufRun e junk windows (.dson d₂ []) m = some (r, o₂, m) ∧ (r ≠ .inProcess → o₁ = o₂) := by
  induction windows generalizing d₁ d₂ got with
  | nil => exact ⟨_, _, _, rfl, rfl, fun hne => absurd rfl hne⟩
  | cons window rest ih =>
      obtain ⟨r, d, d', hcall, hcall', ⟨halike, hsame⟩, hloads⟩ := ha.loadFromBuf hl junk window m
      rw [DsonObj.loadBufRun, DsonObj.loadBufRun, hcall, hcall']
      simp only [Option.bind_eq_bind, Option.bind_some]
      by_cases hr : r = .inProcess
      · obtain ⟨got', hl'⟩ := hloads hr
        rw [if_pos hr, if_pos hr]
        exact ih halike hl'
      · rw [if_neg hr, if_neg hr]
        exact ⟨_, _, _, rfl, rfl, fun hne => by rw [hsame hne]⟩

end

/-! ### Cleared objects -/

/-- The object that a fresh one is, but for the offset and the header. -/
def Dson.blank (e : Endian) (d : Dson) : Dson :=
  { Dson.uninit (Dson.clearHeader e) with
    offset := d.offset
    headerBuf := d.headerBuf }

theorem Dson.Unattached.clear_eq (hd : d₁.Unattached) (e : Endian) : d₁.clear = d₁.blank e := by
  have hbuf : (if d₁.wasBufAllocation then BufPtr.null else d₁.buf) = .null := by
    rcases hd with halloc | hnull
    · rw [if_pos halloc]
    · rw [hnull, ite_self]
  rw [Dson.clear, hbuf]
  rfl

/-- What the object was before it was cleared does not matter to a load. -/
theorem Dson.Unattached.reloads (hd : d₁.Unattached) (e : Endian) (junk : Nat → UInt8) (children : ObjMap) (m : Mem)
    {h : Header} {body : Bytes} (hm : IsMessage e h body) : Reloads e junk (.dson d₁ children) m h body := by
  have hidle : (Dson.uninit (Dson.clearHeader e)).Idle := ⟨by simp [Dson.uninit], by simp [Dson.uninit], Or.inr rfl⟩
  have hidle' : (d₁.blank e).Idle := ⟨by simp [Dson.blank, Dson.uninit], by simp [Dson.blank, Dson.uninit], Or.inr rfl⟩
  have halike : (d₁.blank e).Alike (Dson.uninit (Dson.clearHeader e)) :=
    Or.inr (Or.inr ⟨rfl, rfl, hidle'.beginLoad, hidle.beginLoad, rfl⟩)
  have hclear : (DsonObj.dson d₁ children).clear = .dson (d₁.blank e) [] := by rw [DsonObj.clear, hd.clear_eq e]
  have hsame : ∀ {r : Result} {o₁ o₂ : DsonObj}, (r ≠ .inProcess → o₁ = o₂) →
      r ≠ .inProcess → SameAnswers e o₁ o₂ m := by
    intro r o₁ o₂ heq hr
    rw [heq hr]
    exact ⟨rfl, rfl, rfl, fun _ => rfl⟩
  refine ⟨fun later => ?_, fun n answers later hanswers => ?_, fun windows more later _ => ?_⟩
  · obtain ⟨d, hrun, -⟩ := hidle.loadFromStream hm junk later [] m
    have htwins : (d₁.blank e).Twins (Dson.uninit (Dson.clearHeader e)) := rfl
    refine ⟨_, _, ?_, hrun, SameAnswers.offset d₁.offset d m⟩
    rw [hclear]
    exact htwins.loadFromStream hrun
  · rw [hclear]
    obtain ⟨r, o₁, o₂, fd', hrun, hrun', heq⟩ := halike.fdRun (Or.inl ⟨rfl, hidle'⟩) junk n
      ⟨answers, h.bytes ++ (body ++ later)⟩ hanswers m
    exact ⟨r, o₁, o₂, fd', hrun, hrun', hsame heq⟩
  · rw [hclear]
    obtain ⟨r, o₁, o₂, hrun, hrun', heq⟩ := halike.bufRun (Or.inl ⟨rfl, hidle'⟩) junk windows m
    exact ⟨r, o₁, o₂, hrun, hrun', hsame heq⟩

/-- An object that points into foreign memory reads the size of a message there. -/
theorem Dson.headerLoaded_foreign {d : Dson} (junk : Nat → UInt8) (halloc : d.wasBufAllocation = false) (hforeign : d.buf.isNull = false)
    (h : Header) : Dson.headerLoaded e junk { d with headerBuf := h, dsonKind := .dataBufNeedParse } [] m =
      (d.header m).bind fun h₀ =>
        if h₀.dataSizeOf e < 0 ∨ h₀.dataSizeOf e > maxDsonRamSize then
          some (some .error, { d with headerBuf := h, dsonKind := .dataBufNeedParse, state := .error })
        else if h₀.dataSizeOf e = 0 then
          some (some .ready, { d with headerBuf := h, dsonKind := .dsonContainer, state := .ready })
        else some (none, { d with
          headerBuf := h
          dsonKind := .dataBufNeedParse
          buf := .own ((List.range (h₀.dataSizeOf e).toNat).map junk)
          bufSize := h₀.dataSizeOf e
          wasBufAllocation := true }) := by
  have hread : Dson.header { d with headerBuf := h, dsonKind := .dataBufNeedParse } m = d.header m :=
    Dson.header_foreign d { d with headerBuf := h, dsonKind := .dataBufNeedParse } hforeign rfl halloc halloc m
  cases hh : d.header m with
  | none =>
      have hsize : DsonObj.dataSize e m (.dson { d with headerBuf := h, dsonKind := .dataBufNeedParse } []) = none := by
        change (Dson.header { d with headerBuf := h, dsonKind := .dataBufNeedParse } m).map _ = _
        rw [hread, hh, Option.map_none]
      rw [Dson.headerLoaded, hsize]
      rfl
  | some h₀ =>
      refine Dson.headerLoaded_of_size ?_ junk
      change (Dson.header { d with headerBuf := h, dsonKind := .dataBufNeedParse } m).map _ = _
      rw [hread, hh, Option.map_some]

/-- The stream loader takes as many bytes behind the header as the header in foreign memory announces. -/
theorem Dson.loadFromStream_foreign {d : Dson} (junk : Nat → UInt8) (halloc : d.wasBufAllocation = false)
    (hforeign : d.buf.isNull = false) (h : Header) (children : ObjMap) :
    (d.header m = none → ∀ rest, DsonObj.loadFromStream e junk (h.bytes ++ rest) (.dson d children) m = none) ∧
      ∀ h₀, d.header m = some h₀ → ∀ rest : Bytes, (h₀.dataSizeOf e).toNat ≤ rest.length →
        ∃ o, DsonObj.loadFromStream e junk (h.bytes ++ rest) (.dson d children) m =
          some (o, m, if Dson.Refused e h₀ then rest else rest.drop (h₀.dataSizeOf e).toNat) := by
  have hclear : d.clear.buf = d.buf := by simp [Dson.clear, halloc]
  have hread : d.clear.header m = d.header m := Dson.header_foreign d d.clear hforeign hclear halloc rfl m
  have hload := DsonObj.loadFromStream_eq e junk d children m h
  have hloaded := Dson.headerLoaded_foreign (e := e) (m := m) (d := d.clear) junk rfl
    (by rw [hclear]; exact hforeign) h
  rw [hread] at hloaded
  refine ⟨fun hnone rest => ?_, fun h₀ hsome rest hlen => ?_⟩
  · rw [hload, hloaded, hnone]
    rfl
  rw [hload, hloaded, hsome, Option.bind_some]
  by_cases hrefused : h₀.dataSizeOf e < 0 ∨ h₀.dataSizeOf e > maxDsonRamSize
  · rw [if_pos hrefused, if_pos (show Dson.Refused e h₀ from hrefused)]
    exact ⟨_, rfl⟩
  rw [if_neg hrefused, if_neg (show ¬Dson.Refused e h₀ from hrefused)]
  by_cases hzero : h₀.dataSizeOf e = 0
  · rw [if_pos hzero, hzero]
    exact ⟨_, rfl⟩
  -- the block holds what has come
  have htake : (rest.take (h₀.dataSizeOf e).toNat).length = (h₀.dataSizeOf e).toNat := List.length_take_of_le hlen
  have hstored := Dson.patchBuf_own (d := { d.clear with
    headerBuf := h, dsonKind := .dataBufNeedParse,
    buf := .own ((List.range (h₀.dataSizeOf e).toNat).map junk), bufSize := h₀.dataSizeOf e,
    wasBufAllocation := true }) [] m (show _ = BufPtr.own ([] ++ _) from rfl)
    (show (rest.take (h₀.dataSizeOf e).toNat).length ≤ _ by rw [htake, List.length_map, List.length_range])
  rw [List.length_nil] at hstored
  rw [if_neg hzero]
  simp only [Option.bind_some, hstored]
  rw [if_neg (by rw [htake]; omega)]
  exact ⟨_, rfl⟩

/-- A message with data is loaded into the cleared object like into a fresh one if and only if the object does not
point at a header in foreign memory that announces another size. -/
theorem reloads_iff {d : Dson} {h : Header} {body : Bytes} (hm : IsMessage e h body) (hne : body ≠ []) (children : ObjMap) :
    Reloads e junk (.dson d children) m h body ↔ d.Takes e m h := by
  have hpos : 0 < body.length := List.length_pos_iff.mpr hne
  have hmsize := hm.size
  by_cases hd : d.Unattached
  · exact ⟨fun _ => hd.elim Or.inl fun hnull => Or.inr (Or.inl hnull), fun _ => hd.reloads e junk children m hm⟩
  obtain ⟨halloc, hbuf⟩ := not_or.mp hd
  have halloc' : d.wasBufAllocation = false := Bool.eq_false_iff.mpr halloc
  have hkept : d.clear.buf = d.buf := by simp [Dson.clear, halloc']
  have hread : d.clear.header m = d.header m :=
    Dson.header_foreign d d.clear (Dson.isNull_of_ne hbuf) hkept halloc' rfl m
  constructor
  · intro hr
    have hload := Dson.loadFromStream_foreign (e := e) (m := m) (d := d.clear) junk rfl
      (by rw [hkept]; exact Dson.isNull_of_ne hbuf) h []
    rw [hread] at hload
    cases hcase : d.header m with
    | none =>
        obtain ⟨o₁, o₂, hrun, -⟩ := hr.stream []
        cases (hload.1 hcase _).symm.trans hrun
    | some h₀ =>
        -- enough bytes behind the message for whatever the other header announces
        obtain ⟨o₁, o₂, hrun, -⟩ := hr.stream (List.replicate (h₀.dataSizeOf e).toNat 0)
        obtain ⟨o, hrun'⟩ := hload.2 h₀ hcase (body ++ List.replicate (h₀.dataSizeOf e).toNat 0)
          (by rw [List.length_append, List.length_replicate]; omega)
        have hrest := congrArg (fun p => p.2.2.length) (Option.some.inj (hrun'.symm.trans hrun))
        refine Or.inr (Or.inr ⟨h₀, hcase, ?_, fun hzero => absurd hzero (by omega)⟩)
        dsimp only at hrest
        split_ifs at hrest with hrefused
        · rw [List.length_append] at hrest
          omega
        · rw [Dson.Refused, not_or] at hrefused
          rw [List.length_drop, List.length_append, List.length_replicate] at hrest
          omega
  · intro ht
    -- the object without its buffer is loaded like a fresh one
    obtain ⟨h₀, hh₀, hsize⟩ := (ht.resolve_left halloc).resolve_left hbuf
    have hs : d.clear.Shadows e m h (d.blank e) := by
      refine ⟨rfl, rfl, ?_, by rw [hkept]; exact Dson.isNull_of_ne hbuf, h₀, hread.trans hh₀, hsize⟩
      rw [Dson.clear, halloc']
      rfl
    have hl : (d.blank e).Loads e [] [] :=
      Or.inl ⟨rfl, by simp [Dson.blank, Dson.uninit], by simp [Dson.blank, Dson.uninit], Or.inr rfl⟩
    have hblank : (d.blank e).Unattached := Or.inr rfl
    obtain ⟨hstream, hfd, hwindows⟩ := hblank.reloads e junk [] m hm
    have hclear : (DsonObj.dson (d.blank e) []).clear = .dson (d.blank e) [] := rfl
    rw [hclear] at hstream hfd hwindows
    refine ⟨fun later => ?_, fun n answers later hanswers => ?_, fun windows more later hsplit => ?_⟩
    · obtain ⟨o₁, o₂, hrun, hfresh, hsame⟩ := hstream later
      refine ⟨o₁, o₂, ?_, hfresh, hsame⟩
      have hclear' : d.clear.clear = d.clear := by simp [Dson.clear]
      rw [← hrun]
      exact Dson.Shadows.loadFromStream (by rw [hclear']; exact hs) hm hne junk _ [] []
    · obtain ⟨r, o₁, o₂, fd, hrun, hfresh, hsame⟩ := hfd n answers later hanswers
      obtain ⟨r', o, o', fd', hrun', hrun₀, heq⟩ := Dson.Shadows.fdRun (Or.inr hs) hl hm hne junk n hanswers
        (show [] ++ (⟨answers, h.bytes ++ (body ++ later)⟩ : FdIn).input = _ from rfl)
      cases hrun.symm.trans hrun₀
      exact ⟨r, o, o₂, fd, hrun', hfresh, fun hr => by rw [heq hr]; exact hsame hr⟩
    · obtain ⟨r, o₁, o₂, hrun, hfresh, hsame⟩ := hwindows windows more later hsplit
      obtain ⟨r', o, o', hrun', hrun₀, heq⟩ := Dson.Shadows.bufRun (Or.inr hs) hl hm hne junk
        (show [] ++ (windows.flatten ++ more) = _ from hsplit)
      cases hrun.symm.trans hrun₀
      exact ⟨r, o, o₂, hrun', hfresh, fun hr => by rw [heq hr]; exact hsame hr⟩

/-- An object over foreign memory does not take every message. -/
theorem Dson.Unattached.of_reloads {d : Dson} {children : ObjMap}
    (hr : ∀ h body, IsMessage e h body → Reloads e junk (.dson d children) m h body) : d.Unattached := by
  have htakes : ∀ (size : Int) (body : Bytes), IsMessage e ((Dson.clearHeader e).setDataSize e size) body → body ≠ [] →
      d.Takes e m ((Dson.clearHeader e).setDataSize e size) := fun size body hm hne =>
    (reloads_iff hm hne children).mp (hr _ _ hm)
  have hone : IsMessage e ((Dson.clearHeader e).setDataSize e 1) [0] := by cases e <;> decide
  have htwo : IsMessage e ((Dson.clearHeader e).setDataSize e 2) [0, 0] := by cases e <;> decide
  rcases htakes 1 _ hone (List.cons_ne_nil _ _) with halloc | hnull | ⟨h₁, hread₁, hsize₁, -⟩
  · exact Or.inl halloc
  · exact Or.inr hnull
  rcases htakes 2 _ htwo (List.cons_ne_nil _ _) with halloc | hnull | ⟨h₂, hread₂, hsize₂, -⟩
  · exact Or.inl halloc
  · exact Or.inr hnull
  -- one header cannot announce both sizes
  obtain rfl : h₁ = h₂ := Option.some.inj (hread₁.symm.trans hread₂)
  rw [hone.size] at hsize₁
  rw [htwo.size, hsize₁] at hsize₂
  cases hsize₂

end

end LeanDson
