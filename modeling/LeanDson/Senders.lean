import LeanDson.Anchors
import LeanDson.Inclusion
import LeanDson.Failure
import LeanDson.Records

/-! Objects that can be sent, in whatever shape they have: built, loaded, opened or views of foreign memory. The
incremental emitter hands over the payloads that an object owns, and none that it only points at. -/

namespace LeanDson

/-! ### Objects at rest -/

mutual

/-- The length of an object as a message: a header, and what a container has under its keys or what any other
object announces. -/
def DsonObj.extent (e : Endian) (m : Mem) : DsonObj → Nat
  | .dson d children =>
      match d.dsonKind with
      | .dsonContainer => headerSize + DsonObj.extents e (d.inner m) children
      | _ => headerSize + ((d.header m).elim 0 fun h => (h.dataSizeOf e).toNat)
  | .string s => headerSize + (s.dataSize e).toNat
  | .route _ => headerSize + addressSize

def DsonObj.extents (e : Endian) (m : Mem) : ObjMap → Nat
  | [] => 0
  | (_, o) :: rest => o.extent e m + DsonObj.extents e m rest

end

/-- A payload in a block of the object's own. -/
structure Dson.Laden (d : Dson) (block : Bytes) : Prop where
  kind : d.dsonKind ≠ .dsonContainer
  alloc : d.wasBufAllocation = true
  buf : d.buf = .own block
  size : d.bufSize = block.length
  nonempty : block ≠ []

/-- The header announces the payload. A single object can be converted, and a message that has not been opened
consists of records with a payload each. -/
structure Dson.Stocked (e : Endian) (d : Dson) (block : Bytes) : Prop extends d.Laden block where
  mark : d.headerBuf.ValidMark e
  announced : d.headerBuf.dataSizeOf e = block.length
  single : d.dsonKind = .oneObjectInDataBuf → ∀ network, (convertRecord e network d.headerBuf block).isSome
  records : d.dsonKind = .dataBufNeedParse → d.headerBuf.dataTypeOf e = TypesMap.dsonContainer ∧
    ∃ recs, recordsBytes recs = block ∧ ∀ r ∈ recs, Record.Fits e r ∧ r.payload ≠ []

/-- A view of foreign memory that announces a payload. The views of the library have no size of their own. -/
structure Dson.Overlooks (e : Endian) (d : Dson) (m : Mem) : Prop where
  kind : d.dsonKind ≠ .dsonContainer
  foreign : d.headerIsLocal = false
  size : d.bufSize = 0
  announced : ∃ h, d.header m = some h ∧ 0 < h.dataSizeOf e

/-- A header with one of the two marks, of the object's own or at the start of a view. -/
structure Dson.Headed (e : Endian) (d : Dson) (m : Mem) : Prop where
  header : ∃ h, d.header m = some h ∧ h.ValidMark e
  place : d.headerIsLocal = true ∨ ∃ region off, d.buf = .view region off

mutual

/-- The headers around an object that a call on it may write over: its own one and those in it, unless they lie in its
own block. -/
def DsonObj.anchors : DsonObj → List Anchor
  | .dson d children =>
      match d.dsonKind, d.buf with
      | .dsonContainer, .own _ => (DsonObj.anchorsAll children).filter (·.1 = .external)
      | .dsonContainer, _ => d.anchor ++ DsonObj.anchorsAll children
      | _, _ => []
  | _ => []

def DsonObj.anchorsAll : ObjMap → List Anchor
  | [] => []
  | (_, o) :: rest => o.anchors ++ DsonObj.anchorsAll rest

end

mutual

/-- A non-empty object at rest, or a container of such objects. The headers that a call writes over do not overlap. -/
def DsonObj.Packed (e : Endian) : DsonObj → Mem → Prop
  | .dson d children, m => d.state = .ready ∧
      (children = [] ∧ ((∃ block, d.Stocked e block) ∨ d.Overlooks e m) ∨
        d.dsonKind = .dsonContainer ∧ KeyMap.Sorted children ∧ d.Headed e m ∧
          (d.anchor ++ DsonObj.anchorsAll children).Pairwise Anchor.Apart ∧ DsonObj.AllPacked e children (d.inner m))
  | .string s, _ => ∃ k v, Holds e (.string s) k (.leaf v)
  | .route r, _ => ∃ k v, Holds e (.route r) k (.leaf v)

def DsonObj.AllPacked (e : Endian) : ObjMap → Mem → Prop
  | [], _ => True
  | (_, o) :: rest, m => o.Packed e m ∧ DsonObj.AllPacked e rest m

end

mutual

/-- The incremental emitter has a payload to hand over at every object: a container hands over its children, and a
single object the block it owns. A message that has to be opened on the way out has nothing but views, unless it
is empty. -/
def DsonObj.Deliverable (e : Endian) (network : Bool) : DsonObj → Mem → Prop
  | .dson d children, m =>
      match d.dsonKind with
      | .dsonContainer => DsonObj.AllDeliverable e network children (d.inner m)
      | .dataBufNeedParse => ∃ h, d.header m = some h ∧
          if h.inOrder e !network then h.dataSizeOf e = 0 else 0 < d.bufSizeWithoutHeader
      | .oneObjectInDataBuf => 0 < d.bufSizeWithoutHeader
  | _, _ => True

def DsonObj.AllDeliverable (e : Endian) (network : Bool) : ObjMap → Mem → Prop
  | [], _ => True
  | (_, o) :: rest, m => o.Deliverable e network m ∧ DsonObj.AllDeliverable e network rest m

end

/-- A header without a payload: a container without children, or an object whose header announces nothing. -/
structure Dson.HeaderAlone (e : Endian) (d : Dson) (m : Mem) : Prop where
  state : d.state = .ready
  header : ∃ h, d.header m = some h ∧ (d.dsonKind = .dsonContainer ∨ d.bufSize = 0 ∧ h.dataSizeOf e = 0 ∧
    (d.dsonKind = .dataBufNeedParse → h.dataTypeOf e = TypesMap.dsonContainer))

/-- A header alone, a non-empty single object, or a container of such objects. -/
inductive IsSender (e : Endian) : DsonObj → Mem → Prop
  | headerAlone {d : Dson} {m : Mem} (hd : d.HeaderAlone e m) : IsSender e (.dson d []) m
  | packed {o : DsonObj} {m : Mem} (ho : o.Packed e m) : IsSender e o m

section

variable {e : Endian} {network : Bool}

theorem Dson.Overlooks.bufSizeWithoutHeader {d : Dson} {m : Mem} (hd : d.Overlooks e m) :
    d.bufSizeWithoutHeader ≤ 0 := by
  have halloc : d.wasBufAllocation = false := by
    have hforeign := hd.foreign
    rw [Dson.headerIsLocal, Bool.or_eq_false_iff] at hforeign
    exact hforeign.1
  rw [Dson.bufSizeWithoutHeader, halloc, hd.size]
  decide

theorem Dson.Overlooks.not_deliverable {d : Dson} {m : Mem} (hd : d.Overlooks e m) :
    ¬(DsonObj.dson d []).Deliverable e network m := by
  have hsize := hd.bufSizeWithoutHeader
  obtain ⟨h, hread, hpos⟩ := hd.announced
  have hkind := hd.kind
  rw [DsonObj.Deliverable]
  cases hcase : d.dsonKind with
  | dsonContainer => exact absurd hcase hkind
  | oneObjectInDataBuf => exact not_lt.mpr hsize
  | dataBufNeedParse =>
      rintro ⟨h', hread', hcond⟩
      obtain rfl : h = h' := Option.some.inj (hread.symm.trans hread')
      split_ifs at hcond
      · omega
      · omega

/-! ### Headers around an object -/

theorem Mem.marked_congr {m m' : Mem} {p : Anchor} (h : m.block p.1 = m'.block p.1) : m.Marked e p ↔ m'.Marked e p := by
  rw [Mem.Marked, Mem.Marked, Mem.headerAt, Mem.headerAt, h]

theorem Dson.inner_external (d : Dson) (m : Mem) : (d.inner m).external = m.external := by
  rw [Dson.inner]
  split <;> rfl

theorem Dson.inner_of_ne {d : Dson} (hown : ∀ block, d.buf ≠ .own block) (m : Mem) : d.inner m = m := by
  rw [Dson.inner]
  split
  · rename_i block hbuf
    exact absurd hbuf (hown block)
  · rfl

/-- The header of a container can be read wherever the headers around it have their marks. -/
theorem Dson.Headed.header_of {d : Dson} {m m' : Mem} (hd : d.Headed e m) (hm : ∀ p ∈ d.anchor, m'.Marked e p) :
    ∃ h, d.header m' = some h ∧ h.ValidMark e := by
  obtain ⟨⟨h, hread, hmark⟩, hplace⟩ := hd
  cases hlocal : d.headerIsLocal with
  | true =>
      rw [Dson.header_local hlocal] at hread
      exact ⟨h, (Dson.header_local hlocal m').trans hread, hmark⟩
  | false =>
      obtain ⟨region, off, hbuf⟩ := hplace.resolve_left (by simp [hlocal])
      rw [Dson.header_anchor hlocal hbuf]
      exact hm (region, off) (by simp [Dson.anchor, hlocal, hbuf])

mutual

/-- In the memory that an object has been packed over the headers around it have their marks. -/
theorem DsonObj.Packed.marked : ∀ {o : DsonObj} {m : Mem}, o.Packed e m → ∀ p ∈ o.anchors, m.Marked e p
  | .dson d children, m, ho, p, hp => by
      rw [DsonObj.Packed] at ho
      rw [DsonObj.anchors] at hp
      split at hp
      · rename_i block hkind hbuf
        obtain ⟨-, ⟨-, ⟨block, hd⟩ | hd⟩ | ⟨-, -, -, -, hall⟩⟩ := ho
        · exact absurd hkind hd.kind
        · exact absurd hkind hd.kind
        obtain ⟨hp, hregion⟩ := List.mem_filter.mp hp
        have hexternal : p.1 = .external := by simpa using hregion
        refine (Mem.marked_congr ?_).mp (hall.marked p hp)
        rw [hexternal]
        exact d.inner_external m
      · rename_i hkind hown
        obtain ⟨-, ⟨-, ⟨block, hd⟩ | hd⟩ | ⟨-, -, hhead, -, hall⟩⟩ := ho
        · exact absurd hkind hd.kind
        · exact absurd hkind hd.kind
        rw [Dson.inner_of_ne hown] at hall
        rcases List.mem_append.mp hp with hp | hp
        · obtain ⟨⟨h, hread, hmark⟩, hplace⟩ := hhead
          rw [Dson.anchor] at hp
          split at hp
          · rename_i region off hlocal hbuf
            rw [List.mem_singleton] at hp
            exact ⟨h, by rw [hp, ← Dson.header_anchor hlocal hbuf, hread], hmark⟩
          · cases hp
        · exact hall.marked p hp
      · cases hp
  | .string _, _, _, p, hp => by cases hp
  | .route _, _, _, p, hp => by cases hp

theorem DsonObj.AllPacked.marked : ∀ {children : ObjMap} {m : Mem}, DsonObj.AllPacked e children m →
    ∀ p ∈ DsonObj.anchorsAll children, m.Marked e p
  | [], _, _, p, hp => by cases hp
  | (k, o) :: rest, m, hall, p, hp => by
      rw [DsonObj.AllPacked] at hall
      rw [DsonObj.anchorsAll] at hp
      rcases List.mem_append.mp hp with hp | hp
      · exact hall.1.marked p hp
      · exact hall.2.marked p hp

end

/-! ### Objects that have been built -/

mutual

/-- What has been built from values has headers of its own. -/
theorem Holds.anchors_eq : ∀ {o : DsonObj} {k : Int} {t : Tree}, Holds e o k t → o.anchors = []
  | .dson d children, k, .leaf v, h => by
      rw [Holds] at h
      obtain ⟨-, -, block, hown, -⟩ := h
      simp only [DsonObj.anchors, hown.kind]
  | .dson d children, k, .node ts, h => by
      rw [Holds] at h
      obtain ⟨-, hnode, -, hall⟩ := h
      have hlocal : d.headerIsLocal = true := by simp [Dson.headerIsLocal, hnode.buf, BufPtr.isNull]
      simp only [DsonObj.anchors, hnode.kind, hnode.buf, hall.anchors_eq, Dson.anchor, hlocal, List.append_nil]
  | .string _, _, _, _ => rfl
  | .route _, _, _, _ => rfl

theorem HoldsAll.anchors_eq : ∀ {children : ObjMap} {ts : Forest}, HoldsAll e children ts →
    DsonObj.anchorsAll children = []
  | [], [], _ => rfl
  | (k, o) :: rest, (k', t) :: ts, h => by
      rw [HoldsAll] at h
      rw [DsonObj.anchorsAll, h.2.1.anchors_eq, h.2.2.anchors_eq]
      rfl
  | [], _ :: _, h => h.elim
  | _ :: _, [], h => h.elim

end

mutual

/-- What has been built from values can be sent. -/
theorem Holds.packed : ∀ {o : DsonObj} {k : Int} {t : Tree} (m : Mem), Holds e o k t → o.Packed e m
  | .dson d children, k, .leaf v, m, h => by
      rw [Holds] at h
      obtain ⟨hstate, rfl, block, hown, hl⟩ := h
      rw [DsonObj.Packed]
      have hkind : d.dsonKind ≠ .dsonContainer := by simp [hown.kind]
      refine ⟨hstate, Or.inl ⟨rfl, Or.inl ⟨block, ⟨hkind, hown.alloc, hown.buf, hown.size, hown.nonempty⟩, hl.mark, hl.size,
        fun _ network => ?_, fun hneeds => ?_⟩⟩⟩
      · obtain ⟨h', b', hconv, -⟩ := hl.convert network
        rw [hconv]
        rfl
      · rw [hown.kind] at hneeds
        cases hneeds
  | .dson d children, k, .node ts, m, h => by
      rw [Holds] at h
      obtain ⟨hstate, hnode, hsorted, hall⟩ := h
      have hlocal : d.headerIsLocal = true := by simp [Dson.headerIsLocal, hnode.buf, BufPtr.isNull]
      rw [DsonObj.Packed]
      refine ⟨hstate, Or.inr ⟨hnode.kind, hsorted, ⟨⟨_, Dson.header_local hlocal m, hnode.mark⟩, Or.inl hlocal⟩, ?_,
        hall.packed _⟩⟩
      rw [hall.anchors_eq, Dson.anchor, hlocal]
      exact List.Pairwise.nil
  | .string s, k, .leaf v, _, h => ⟨k, v, h⟩
  | .route r, k, .leaf v, _, h => ⟨k, v, h⟩
  | .string _, _, .node _, _, h => h.elim
  | .route _, _, .node _, _, h => h.elim

theorem HoldsAll.packed : ∀ {children : ObjMap} {ts : Forest} (m : Mem), HoldsAll e children ts →
    DsonObj.AllPacked e children m
  | [], [], _, _ => trivial
  | (k, o) :: rest, (k', t) :: ts, m, h => by
      rw [HoldsAll] at h
      exact ⟨h.2.1.packed m, h.2.2.packed m⟩
  | [], _ :: _, _, h => h.elim
  | _ :: _, [], _, h => h.elim

end

end

end LeanDson
