import LeanDson.Lockstep
import LeanDson.Outgoing
import LeanDson.Strings

/-! Announced lengths. Sizes are narrowed to 32 bits where a string is stored, and added in 32 bits over a
container; nothing is refused. What is sent is exact as long as the payload stays within the limit of the
loaders, and no `DsonStringObj` is empty. -/

namespace LeanDson

/-! ### Objects over strings of any length -/

/-- The objects that the constructors and `emplace` lead to, with their keys and the trees they were given. -/
inductive Composed (e : Endian) : DsonObj → Int → Tree → Prop
  | container : Composed e (DsonObj.empty e) 0 (.node [])
  | int32 {h : Header} {junk : Nat → UInt8} {v : Int} {o : DsonObj} (hv : IsInt32 v)
      (hrun : DsonObj.ofInt32 e h junk v = some o) : Composed e o (h.key.int32 e) (.leaf (.int32 v))
  | uint32 {h : Header} {junk : Nat → UInt8} {v : Nat} {o : DsonObj} (hv : v < 2 ^ 32)
      (hrun : DsonObj.ofUInt32 e h junk v = some o) : Composed e o (h.key.int32 e) (.leaf (.uint32 v))
  | double {h : Header} {junk : Nat → UInt8} {x : Binary64} {o : DsonObj}
      (hrun : DsonObj.ofDouble e h junk x = some o) : Composed e o (h.key.int32 e) (.leaf (.double x.canon))
  | string {h : Header} {junk : Nat → UInt8} {s : Bytes} {o : DsonObj} {k : Int}
      (hrun : DsonObj.ofString e h junk s = some o) (hkey : o.key e ⟨[], []⟩ = some k) :
      Composed e o k (.leaf (.string s))
  | stringObj {key : Int} {s : Bytes} (hkey : IsInt32 key) :
      Composed e (DsonObj.ofStringObj e key s) key (.leaf (.string s))
  | routeObj {key : Int} {a : Address} (hkey : IsInt32 key) :
      Composed e (DsonObj.ofRouteObj e key a) key (.leaf (.words (a.words e)))
  | setKey {o o' : DsonObj} {k k' : Int} {t : Tree} {m m' : Mem} (ho : Composed e o k t) (hk : IsInt32 k')
      (hrun : o.setKey e m k' = some (o', m')) : Composed e o' k' t
  | emplace {o o' obj : DsonObj} {k k₀ key : Int} {ts : Forest} {t : Tree} {m m' : Mem}
      (ho : Composed e o k (.node ts)) (hobj : Composed e obj k₀ t) (hkey : IsInt32 key)
      (hrun : DsonObj.emplace e key obj o m = some (o', m')) :
      Composed e o' k (.node (KeyMap.insertOrAssign key t ts))
  | emplacePtr {o o' obj : DsonObj} {k key : Int} {ts : Forest} {t : Tree} {m m' : Mem}
      (ho : Composed e o k (.node ts)) (hobj : Composed e obj key t)
      (hrun : DsonObj.emplacePtr e obj o m = some (o', m')) :
      Composed e o' k (.node (KeyMap.insertOrAssign key t ts))

/-- A `Dson` that has been given an empty string: a container whose header has not been written. -/
structure Dson.Unwritten (e : Endian) (d : Dson) (k : Int) : Prop where
  state : d.state = .ready
  kind : d.dsonKind = .dsonContainer
  buf : d.buf = .null
  key : d.headerBuf.keyOf e = k

/-- A `DsonStringObj` over a string of any length. -/
structure DsonStringObj.Has (e : Endian) (o : DsonStringObj) (k : Int) (s : Bytes) : Prop where
  state : o.state = .ready
  object : o.object = s
  mark : o.header.ValidMark e
  size : o.header.dataSizeOf e = wrap32 s.length
  key : o.header.keyOf e = k
  type : o.header.dataTypeOf e = TypesMap.string

mutual

/-- An object at rest that has been given a tree under a key. -/
def Has (e : Endian) : DsonObj → Int → Tree → Prop
  | .dson d children, k, .leaf v =>
      Holds e (.dson d children) k (.leaf v) ∨ (children = [] ∧ v = .string [] ∧ d.Unwritten e k)
  | .dson d children, k, .node ts =>
      d.state = .ready ∧ d.IsNode e k ts ∧ KeyMap.Sorted children ∧ HasAll e children ts
  | .string o, k, .leaf v => ∃ s, v = .string s ∧ o.Has e k s
  | .route r, k, .leaf v => Holds e (.route r) k (.leaf v)
  | .string _, _, .node _ => False
  | .route _, _, .node _ => False

def HasAll (e : Endian) : ObjMap → Forest → Prop
  | [], [] => True
  | (k, o) :: rest, (k', t) :: ts => k = k' ∧ Has e o k t ∧ HasAll e rest ts
  | [], _ :: _ => False
  | _ :: _, [] => False

end

section

variable {e : Endian}

/-- An object that holds a leaf has been given it. -/
theorem Holds.has_leaf {o : DsonObj} {k : Int} {v : Value} (ho : Holds e o k (.leaf v)) : Has e o k (.leaf v) := by
  cases o with
  | dson d children =>
      rw [Has]
      exact Or.inl ho
  | route r =>
      rw [Has]
      exact ho
  | string o =>
      rw [Holds] at ho
      obtain ⟨hstate, -, hl, htype⟩ := ho
      rw [Has]
      have hval := hl.value
      rw [payloadValue_string (hl.type.trans htype)] at hval
      have hv : v = .string o.object := (Prod.mk.inj (Option.some.inj hval)).1.symm
      refine ⟨o.object, hv, hstate, rfl, hl.mark, ?_, hl.key, hl.type.trans htype⟩
      rw [← hl.size, wrap32_of_isInt32 (Header.dataSizeOf_isInt32 _)]

theorem hasAll_iff : ∀ {children : ObjMap} {ts : Forest}, HasAll e children ts ↔
    List.Forall₂ (fun p q => p.1 = q.1 ∧ Has e p.2 p.1 q.2) children ts
  | [], [] => by
      rw [HasAll]
      exact ⟨fun _ => .nil, fun _ => trivial⟩
  | (k, o) :: rest, (k', t) :: ts => by rw [HasAll, List.forall₂_cons, hasAll_iff, and_assoc]
  | [], _ :: _ => ⟨fun h => by simp [HasAll] at h, fun h => by cases h⟩
  | _ :: _, [] => ⟨fun h => by simp [HasAll] at h, fun h => by cases h⟩

/-- A container that has been given one more child. -/
theorem Has.insert {d : Dson} {children : ObjMap} {k key : Int} {ts : Forest} {obj : DsonObj} {t : Tree}
    (ho : Has e (.dson d children) k (.node ts)) (hobj : Has e obj key t) :
    Has e (.dson { d with headerBuf := d.headerBuf.setDataType e TypesMap.dsonContainer }
      (KeyMap.insertOrAssign key obj children)) k (.node (KeyMap.insertOrAssign key t ts)) := by
  rw [Has] at ho ⊢
  obtain ⟨hstate, hnode, hsorted, hall⟩ := ho
  exact ⟨hstate, hnode.inserted key t, KeyMap.sorted_insertOrAssign hsorted key obj,
    hasAll_iff.mpr (KeyMap.forall₂_insertOrAssign (R := fun k v w => Has e v k w) (hasAll_iff.mp hall) key hobj)⟩

/-- `set_key`. -/
theorem Has.setKey {o : DsonObj} {k k' : Int} {t : Tree} (ho : Has e o k t) (hk : IsInt32 k') (m : Mem) :
    ∃ o', o.setKey e m k' = some (o', m) ∧ Has e o' k' t := by
  cases o with
  | string o =>
      cases t with
      | node ts => rw [Has] at ho; exact ho.elim
      | leaf v =>
          rw [Has] at ho
          obtain ⟨s, rfl, hs⟩ := ho
          refine ⟨_, rfl, ?_⟩
          rw [Has]
          exact ⟨s, rfl, hs.state, hs.object, (Header.validMark_congr rfl).mp hs.mark,
            (Header.dataSizeOf_setKey o.header k').trans hs.size, Header.keyOf_setKey o.header hk,
            (Header.dataTypeOf_setKey o.header k').trans hs.type⟩
  | route r =>
      cases t with
      | node ts => rw [Has] at ho; exact ho.elim
      | leaf v =>
          rw [Has] at ho
          obtain ⟨o', hrun, ho'⟩ := ho.setKey hk m
          exact ⟨o', hrun, ho'.has_leaf⟩
  | dson d children =>
      cases t with
      | leaf v =>
          rw [Has] at ho
          rcases ho with ho | ⟨hnil, rfl, hd⟩
          · obtain ⟨o', hrun, ho'⟩ := ho.setKey hk m
            exact ⟨o', hrun, ho'.has_leaf⟩
          · have hlocal : d.headerIsLocal = true := by simp [Dson.headerIsLocal, hd.buf, BufPtr.isNull]
            refine ⟨_, by rw [DsonObj.setKey, Dson.setKey_local hlocal]; rfl, ?_⟩
            rw [Has]
            exact Or.inr ⟨hnil, rfl, hd.state, hd.kind, hd.buf, Header.keyOf_setKey d.headerBuf hk⟩
      | node ts =>
          rw [Has] at ho
          obtain ⟨hstate, hnode, hsorted, hall⟩ := ho
          refine ⟨_, by rw [DsonObj.setKey, Dson.setKey_local hnode.headerIsLocal]; rfl, ?_⟩
          rw [Has]
          exact ⟨hstate, hnode.setKey hk, hsorted, hall⟩

/-- What `emplace` does to a container that has been given children. -/
theorem Has.emplace {o obj : DsonObj} {k k₀ key : Int} {ts : Forest} {t : Tree} (ho : Has e o k (.node ts))
    (hobj : Has e obj k₀ t) (hkey : IsInt32 key) (m : Mem) :
    ∃ o', DsonObj.emplace e key obj o m = some (o', m) ∧
      Has e o' k (.node (KeyMap.insertOrAssign key t ts)) := by
  obtain ⟨obj', hset, hobj'⟩ := hobj.setKey hkey m
  cases o with
  | string s => rw [Has] at ho; exact ho.elim
  | route r => rw [Has] at ho; exact ho.elim
  | dson d children =>
      have hparts := ho
      rw [Has] at hparts
      obtain ⟨hstate, hnode, -⟩ := hparts
      exact ⟨_, hnode.emplace_any hstate hset, ho.insert hobj'⟩

theorem Has.key {o : DsonObj} {k : Int} {t : Tree} (ho : Has e o k t) (m : Mem) : o.key e m = some k := by
  cases o with
  | string o =>
      cases t with
      | node ts => rw [Has] at ho; exact ho.elim
      | leaf v =>
          rw [Has] at ho
          obtain ⟨s, -, hs⟩ := ho
          rw [DsonObj.key, hs.key]
  | route r =>
      cases t with
      | node ts => rw [Has] at ho; exact ho.elim
      | leaf v =>
          rw [Has] at ho
          exact ho.key m
  | dson d children =>
      cases t with
      | leaf v =>
          rw [Has] at ho
          rcases ho with ho | ⟨-, -, hd⟩
          · exact ho.key m
          · rw [DsonObj.key, Dson.key, Dson.header, if_pos (by simp [Dson.headerIsLocal, hd.buf, BufPtr.isNull]),
              Option.map_some, hd.key]
      | node ts =>
          rw [Has] at ho
          rw [DsonObj.key, Dson.key, ho.2.1.header_eq, Option.map_some, ho.2.1.key]

/-- `emplace` of an object under its own key. -/
theorem Has.emplacePtr {o obj : DsonObj} {k key : Int} {ts : Forest} {t : Tree} (ho : Has e o k (.node ts))
    (hobj : Has e obj key t) (m : Mem) :
    ∃ o', DsonObj.emplacePtr e obj o m = some (o', m) ∧
      Has e o' k (.node (KeyMap.insertOrAssign key t ts)) := by
  cases o with
  | string s => rw [Has] at ho; exact ho.elim
  | route r => rw [Has] at ho; exact ho.elim
  | dson d children =>
      have hparts := ho
      rw [Has] at hparts
      obtain ⟨hstate, hnode, -⟩ := hparts
      refine ⟨_, ?_, ho.insert hobj⟩
      simp only [DsonObj.emplacePtr, hobj.key, Option.bind_eq_bind, Option.bind_some, hnode.insertInternal hstate]
      rfl

/-- A `DsonStringObj` as it is made. -/
theorem has_ofStringObj {key : Int} (hkey : IsInt32 key) (s : Bytes) :
    Has e (DsonObj.ofStringObj e key s) key (.leaf (.string s)) := by
  have hhost : Header.isHostOrder e ⟨markHostOrder e, Cell.ofInt e (wrap32 s.length), Cell.ofInt e key,
      Cell.ofInt e TypesMap.string⟩ := by simp [Header.isHostOrder]
  rw [DsonObj.ofStringObj, Has]
  refine ⟨s, rfl, rfl, rfl, Or.inl hhost, ?_, ?_, ?_⟩
  · rw [Header.dataSizeOf, Header.field_eq, Header.order, if_pos hhost, Cell.int32_ofInt _ (wrap32_isInt32 _)]
  · rw [Header.keyOf, Header.field_eq, Header.order, if_pos hhost, Cell.int32_ofInt _ hkey]
  · rw [Header.dataTypeOf, Header.field_eq, Header.order, if_pos hhost, Cell.int32_ofInt _ (by decide)]

/-- A `Dson` as it is made of a string. -/
theorem has_ofString {h : Header} {junk : Nat → UInt8} {s : Bytes} {o : DsonObj} {k : Int}
    (hrun : DsonObj.ofString e h junk s = some o) (hkey : o.key e ⟨[], []⟩ = some k) :
    Has e o k (.leaf (.string s)) := by
  by_cases hne : s = []
  · subst hne
    rw [DsonObj.ofString, if_pos rfl] at hrun
    cases hrun
    rw [Has]
    exact Or.inr ⟨rfl, rfl, rfl, rfl, rfl, Option.some.inj hkey⟩
  · obtain ⟨o', hrun', ho'⟩ := holds_ofString (e := e) h junk hne (ofString_lt hrun)
    rw [hrun'] at hrun
    cases hrun
    rw [ho'.key] at hkey
    cases hkey
    exact ho'.has_leaf

/-- However it was composed, an object has been given its tree. -/
theorem Composed.has {o : DsonObj} {k : Int} {t : Tree} (h : Composed e o k t) : Has e o k t := by
  induction h with
  | container =>
      have ho := holds_empty (e := e)
      rw [DsonObj.empty, Holds] at ho
      obtain ⟨hstate, hnode, hsorted, -⟩ := ho
      rw [DsonObj.empty, Has]
      exact ⟨hstate, hnode, hsorted, hasAll_iff.mpr .nil⟩
  | int32 hv hrun => exact (Built.int32 hv hrun).holds.has_leaf
  | uint32 hv hrun => exact (Built.uint32 hv hrun).holds.has_leaf
  | double hrun => exact (Built.double hrun).holds.has_leaf
  | string hrun hkey => exact has_ofString hrun hkey
  | stringObj hkey => exact has_ofStringObj hkey _
  | routeObj hkey => exact (Built.routeObj hkey).holds.has_leaf
  | setKey _ hk hrun ih =>
      obtain ⟨o', hrun', ho'⟩ := ih.setKey hk _
      rw [hrun'] at hrun
      cases hrun
      exact ho'
  | emplace _ _ hkey hrun ih ihobj =>
      obtain ⟨o', hrun', ho'⟩ := ih.emplace ihobj hkey _
      rw [hrun'] at hrun
      cases hrun
      exact ho'
  | emplacePtr _ _ hrun ih ihobj =>
      obtain ⟨o', hrun', ho'⟩ := ih.emplacePtr ihobj _
      rw [hrun'] at hrun
      cases hrun
      exact ho'

/-! ### Empty strings -/

mutual

/-- No `DsonStringObj` is empty. -/
def DsonObj.Filled : DsonObj → Prop
  | .dson _ children => DsonObj.FilledAll children
  | .string s => s.object ≠ []
  | .route _ => True

def DsonObj.FilledAll : ObjMap → Prop
  | [] => True
  | (_, o) :: rest => o.Filled ∧ DsonObj.FilledAll rest

end

mutual

/-- What a tree is sent as: in the place of an empty string in a `Dson`, an empty container. -/
def Tree.asSent : Tree → Tree
  | .leaf v => if v = .string [] then .node [] else .leaf v
  | .node ts => .node (Forest.asSent ts)

def Forest.asSent : Forest → Forest
  | [] => []
  | (k, t) :: ts => (k, t.asSent) :: Forest.asSent ts

end

mutual

theorem Tree.asSent_size : ∀ t : Tree, t.asSent.size = t.size
  | .leaf v => by
      rw [Tree.asSent]
      split_ifs with hv
      · rw [hv]
        rfl
      · rfl
  | .node ts => by rw [Tree.asSent, Tree.size, Tree.size, Forest.asSent_size ts]

theorem Forest.asSent_size : ∀ ts : Forest, Forest.size (Forest.asSent ts) = Forest.size ts
  | [] => rfl
  | (k, t) :: ts => by rw [Forest.asSent, Forest.size, Forest.size, Tree.asSent_size t, Forest.asSent_size ts]

end

mutual

/-- With no `DsonStringObj` empty, and below the range of 32-bit integers, the object can be sent. -/
theorem Has.sendable : ∀ {t : Tree} {o : DsonObj} {k : Int}, Has e o k t → o.Filled → t.size < 2 ^ 31 →
    Sendable e o t.asSent
  | .leaf v, .dson d children, k, ho, _, _ => by
      rw [Has] at ho
      rcases ho with ho | ⟨hnil, rfl, hd⟩
      · have hne : v ≠ .string [] := by
          rintro rfl
          rw [Holds] at ho
          obtain ⟨-, -, block, hown, hl⟩ := ho
          exact hown.nonempty (List.eq_nil_of_length_eq_zero hl.length_eq.symm)
        rw [Tree.asSent, if_neg hne]
        exact sendable_leaf.mpr ⟨k, ho⟩
      · rw [hnil, Tree.asSent, if_pos rfl, Sendable]
        exact ⟨hd.state, ⟨hd.kind, hd.buf, fun hne => absurd rfl hne⟩, KeyMap.sorted_nil, trivial⟩
  | .leaf v, .string o, k, ho, hfilled, hlt => by
      rw [Has] at ho
      obtain ⟨s, rfl, hs⟩ := ho
      obtain ⟨hstate, rfl, hmark, hsize, hkey, htype⟩ := hs
      have hne : Value.string o.object ≠ .string [] := fun heq => hfilled (Value.string.inj heq)
      have hsize' : (Tree.leaf (.string o.object)).size = headerSize + o.object.length := rfl
      rw [wrap32_of_isInt32 (by simp only [IsInt32]; omega)] at hsize
      rw [Tree.asSent, if_neg hne]
      refine sendable_leaf.mpr ⟨k, ?_⟩
      rw [Holds]
      refine ⟨hstate, hfilled, ⟨hmark, hsize, hkey, htype, payloadValue_string htype, ?_⟩, rfl⟩
      simp [Value.type]
  | .leaf v, .route r, k, ho, _, _ => by
      rw [Has] at ho
      have hne : v ≠ .string [] := by
        rintro rfl
        rw [Holds] at ho
        exact absurd ho.2.2 (by simp [Value.type])
      rw [Tree.asSent, if_neg hne]
      exact sendable_leaf.mpr ⟨k, ho⟩
  | .node ts, .dson d children, k, ho, hfilled, hlt => by
      rw [Has] at ho
      obtain ⟨hstate, hnode, hsorted, hall⟩ := ho
      rw [Tree.size] at hlt
      rw [Tree.asSent, Sendable]
      exact ⟨hstate, ⟨hnode.kind, hnode.buf, fun _ => hnode.mark⟩, hsorted, hall.sendableAll hfilled (by omega)⟩
  | .node ts, .string o, k, ho, _, _ => by rw [Has] at ho; exact ho.elim
  | .node ts, .route r, k, ho, _, _ => by rw [Has] at ho; exact ho.elim

theorem HasAll.sendableAll : ∀ {ts : Forest} {children : ObjMap}, HasAll e children ts → DsonObj.FilledAll children →
    Forest.size ts < 2 ^ 31 → SendableAll e children (Forest.asSent ts)
  | [], [], _, _, _ => trivial
  | (k', t) :: ts, (k, o) :: rest, h, hfilled, hlt => by
      rw [HasAll] at h
      rw [DsonObj.FilledAll] at hfilled
      rw [Forest.size] at hlt
      rw [Forest.asSent, SendableAll]
      exact ⟨h.2.1.sendable hfilled.1 (by omega), h.2.2.sendableAll hfilled.2 (by omega)⟩
  | _ :: _, [], h, _, _ => by rw [HasAll] at h; exact h.elim
  | [], _ :: _, h, _, _ => by rw [HasAll] at h; exact h.elim

end

mutual

/-- With an empty `DsonStringObj` in it the object is never emitted to a buffer. -/
theorem Has.stuck : ∀ {t : Tree} {o : DsonObj} {k : Int}, Has e o k t → ¬o.Filled → Stuck o
  | _, .string o, _, _, hfilled => .string (not_not.mp hfilled)
  | _, .route r, _, _, hfilled => absurd trivial hfilled
  | .leaf v, .dson d children, k, ho, hfilled => by
      rw [Has] at ho
      have hnil : children = [] := by
        rcases ho with ho | ⟨hnil, -⟩
        · rw [Holds] at ho
          exact ho.2.1
        · exact hnil
      rw [hnil] at hfilled
      exact absurd trivial hfilled
  | .node ts, .dson d children, k, ho, hfilled => by
      rw [Has] at ho
      obtain ⟨hstate, hnode, hsorted, hall⟩ := ho
      obtain ⟨key, c, hfind, hc⟩ := hall.stuck hsorted hfilled
      exact .node hnode.kind hsorted hfind hc (by simp [hstate])

theorem HasAll.stuck : ∀ {ts : Forest} {children : ObjMap}, HasAll e children ts → KeyMap.Sorted children →
    ¬DsonObj.FilledAll children → ∃ key c, KeyMap.find key children = some c ∧ Stuck c
  | [], [], _, _, hfilled => absurd trivial hfilled
  | (k', t) :: ts, (k, o) :: rest, h, hsorted, hfilled => by
      rw [HasAll] at h
      rw [DsonObj.FilledAll] at hfilled
      by_cases ho : o.Filled
      · obtain ⟨key, c, hfind, hc⟩ := h.2.2.stuck hsorted.tail fun hrest => hfilled ⟨ho, hrest⟩
        refine ⟨key, c, KeyMap.find_of_mem hsorted (List.mem_cons_of_mem _ (KeyMap.mem_of_find hfind)), hc⟩
      · exact ⟨k, o, by rw [KeyMap.find, if_pos rfl], h.2.1.stuck ho⟩
  | _ :: _, [], h, _, _ => by rw [HasAll] at h; exact h.elim
  | [], _ :: _, h, _, _ => by rw [HasAll] at h; exact h.elim

end

end

/-! ### What is sent -/

mutual

/-- The bytes are those of a tree as far as lengths go: every header announces as many bytes as follow it, and
every value has its bytes. -/
def Tree.Announced (e : Endian) : Tree → Bytes → Prop
  | .leaf v, bs => ∃ (h : Header) (b : Bytes), bs = h.bytes ++ b ∧ h.dataSizeOf e = b.length ∧ b.length = v.size
  | .node ts, bs => ∃ (h : Header) (b : Bytes), bs = h.bytes ++ b ∧ h.dataSizeOf e = b.length ∧ Forest.Announced e ts b

def Forest.Announced (e : Endian) : Forest → Bytes → Prop
  | [], bs => bs = []
  | (_, t) :: ts, bs => ∃ b more, bs = b ++ more ∧ t.Announced e b ∧ Forest.Announced e ts more

end

/-- Exact lengths, and a message that the loaders take. -/
def Exact (e : Endian) (t : Tree) (bs : Bytes) : Prop := t.Announced e bs ∧ bs.length ≤ headerSize + 2 ^ 30

/-- Whatever operation sends an object, it fails before it has emitted anything, or what it emits is exact. -/
structure SendsExactly (e : Endian) (o : DsonObj) (t : Tree) (m : Mem) : Prop where
  size : o.dataSize e m = some ((t.size : Int) - headerSize)
  stream : ∀ network, ∃ o' bs, o.copyToStream e network m = some (o', m, bs) ∧ (bs = [] ∨ Exact e t bs)
  fd : ∀ network calls, ∃ r o' bs, o.copyRun e network m (shortWrites calls) = some (r, (o', m), bs) ∧
    (r = .inProcess ∨ (r = .error ∧ bs = []) ∨ (r = .ready ∧ Exact e t bs))
  fd_ends : ∀ network, ∃ n, ∀ calls, (∀ counts ∈ calls, ∃ n rest, counts = (n + 1) :: rest) → n ≤ calls.length →
    ∃ r o' bs, o.copyRun e network m (shortWrites calls) = some (r, (o', m), bs) ∧ r ≠ .inProcess
  buf : ∀ network rooms, ∃ r o' bs, o.copyRun e network m (windows rooms) = some (r, (o', m), bs) ∧
    (r = .inProcess ∨ (r = .error ∧ bs = []) ∨ (r = .ready ∧ Exact e t bs))
  buf_ends : ∀ network, ∃ n, ∀ rooms, (∀ room ∈ rooms, 0 < room) → n ≤ rooms.length →
    ∃ r o' bs, o.copyRun e network m (windows rooms) = some (r, (o', m), bs) ∧ r ≠ .inProcess
  hostBuf : ∃ re o', o.toBufHostOrder e m = some (re, o', m) ∧ ∀ bs ∈ re, Exact e t bs

mutual

theorem Tree.Announced.length {e : Endian} : ∀ {t : Tree} {bs : Bytes}, t.Announced e bs → bs.length = t.size
  | .leaf v, bs, h => by
      rw [Tree.Announced] at h
      obtain ⟨h', b, rfl, -, hlen⟩ := h
      rw [List.length_append, Header.bytes_length, hlen, Tree.size, headerSize]
  | .node ts, bs, h => by
      rw [Tree.Announced] at h
      obtain ⟨h', b, rfl, -, hall⟩ := h
      rw [List.length_append, Header.bytes_length, hall.length, Tree.size, headerSize]

theorem Forest.Announced.length {e : Endian} : ∀ {ts : Forest} {bs : Bytes}, Forest.Announced e ts bs →
    bs.length = Forest.size ts
  | [], bs, h => by
      rw [Forest.Announced] at h
      rw [h]
      rfl
  | (k, t) :: ts, bs, h => by
      rw [Forest.Announced] at h
      obtain ⟨b, more, rfl, ht, hts⟩ := h
      rw [List.length_append, ht.length, hts.length, Forest.size]

end

section

variable {e : Endian}

mutual

/-- The encoding of an object that can be sent. -/
theorem Sendable.announced (network : Bool) : ∀ {t : Tree} {o : DsonObj}, Sendable e o t → t.size < 2 ^ 31 →
    t.Announced e (o.wire e network)
  | .leaf v, o, h, _ => by
      obtain ⟨k, ho⟩ := sendable_leaf.mp h
      obtain ⟨r, hwire, hl⟩ := ho.wire_leaf network
      rw [Tree.Announced, hwire]
      exact ⟨r.header, r.payload, rfl, hl.size, hl.length_eq.symm⟩
  | .node ts, .dson d children, h, hlt => by
      rw [Sendable] at h
      obtain ⟨-, hopen, -, hall⟩ := h
      rw [Tree.size] at hlt
      have hlen := hall.wires_length network
      rw [Tree.Announced]
      refine ⟨(d.headerBuf.setDataSize e (Forest.size ts)).toOrder e network, DsonObj.wires e network children, ?_, ?_,
        hall.announced network (by omega)⟩
      · simp only [DsonObj.wire, hopen.kind, hlen]
      · rw [hopen.setDataSize_toOrder, Header.dataSizeOf_setDataSize _ (by simp only [IsInt32]; omega), hlen]
  | .node _, .string _, h, _ => h.elim
  | .node _, .route _, h, _ => h.elim

theorem SendableAll.announced (network : Bool) : ∀ {ts : Forest} {children : ObjMap}, SendableAll e children ts →
    Forest.size ts < 2 ^ 31 → Forest.Announced e ts (DsonObj.wires e network children)
  | [], [], _, _ => by
      rw [Forest.Announced]
      rfl
  | (_, t) :: ts, (k, o) :: rest, h, hlt => by
      rw [SendableAll] at h
      rw [Forest.size] at hlt
      rw [Forest.Announced, DsonObj.wires]
      exact ⟨_, _, rfl, h.1.announced network (by omega), h.2.announced network (by omega)⟩
  | [], _ :: _, h, _ => h.elim
  | _ :: _, [], h, _ => h.elim

end

mutual

/-- An empty container has the lengths of an empty string. -/
theorem Tree.announced_of_asSent : ∀ {t : Tree} {bs : Bytes}, t.asSent.Announced e bs → t.Announced e bs
  | .leaf v, bs, h => by
      rw [Tree.asSent] at h
      split_ifs at h with hv
      · rw [Tree.Announced] at h
        rw [Tree.Announced]
        obtain ⟨h', b, hbs, hsize, hall⟩ := h
        rw [Forest.Announced] at hall
        exact ⟨h', b, hbs, hsize, by rw [hall, hv]; rfl⟩
      · exact h
  | .node ts, bs, h => by
      rw [Tree.asSent] at h
      rw [Tree.Announced] at h
      rw [Tree.Announced]
      obtain ⟨h', b, hbs, hsize, hall⟩ := h
      exact ⟨h', b, hbs, hsize, Forest.announced_of_asSent hall⟩

theorem Forest.announced_of_asSent : ∀ {ts : Forest} {bs : Bytes}, Forest.Announced e (Forest.asSent ts) bs →
    Forest.Announced e ts bs
  | [], bs, h => h
  | (k, t) :: ts, bs, h => by
      rw [Forest.asSent] at h
      rw [Forest.Announced] at h ⊢
      obtain ⟨b, more, hbs, ht, hts⟩ := h
      exact ⟨b, more, hbs, Tree.announced_of_asSent ht, Forest.announced_of_asSent hts⟩

end

/-- `to_buf_host_order` gives the encoding in host order. -/
theorem Sendable.toBufHostOrder {o : DsonObj} {t : Tree} (h : Sendable e o t) (hlt : t.size < 2 ^ 31) (m : Mem) :
    ∃ o', o.toBufHostOrder e m = some (some (o.wire e false), o', m) := by
  have hwrap : wrap32 ((t.size : Int) - headerSize + headerSize) = t.size := by
    rw [Int.sub_add_cancel, wrap32_of_isInt32 (by simp only [IsInt32]; omega)]
  obtain ⟨r, o', s', hout, hhand⟩ := h.outgoing.copyTo hlt false m (BufOut.fresh t.size)
  have hlen := h.wire_length false
  rw [h.pending] at hhand
  rcases hhand.window with ⟨-, -, hbs, hroom⟩ | ⟨-, ho', hroom, hout', hbs⟩
  · refine ⟨o', ?_⟩
    have hzero : s'.room = 0 := by omega
    rw [DsonObj.toBufHostOrder, h.dataSize m hlt]
    simp only [Option.bind_eq_bind, Option.bind_some, hwrap]
    rw [if_neg (by omega), DsonObj.copyToBufHostOrder, Int.toNat_natCast, hout, Option.bind_some, hbs, hzero,
      List.replicate_zero, List.append_nil]
    rfl
  · have hlen' := congrArg List.length hbs
    rw [List.length_append, hlen, hout'] at hlen'
    exact absurd (List.eq_nil_of_length_eq_zero (by omega)) (ho'.pending_ne_nil false)

/-- An object with no empty `DsonStringObj` in it, and within the limit of the loaders, is sent exactly. -/
theorem Has.sendsExactly {o : DsonObj} {k : Int} {t : Tree} (ho : Has e o k t) (hfilled : o.Filled)
    (hle : t.size ≤ headerSize + 2 ^ 30) (m : Mem) : SendsExactly e o t m := by
  have hlt : t.size < 2 ^ 31 := by
    rw [headerSize] at hle
    omega
  have hlt' : t.asSent.size < 2 ^ 31 := by rwa [Tree.asSent_size]
  have h := ho.sendable hfilled hlt
  have hexact : ∀ network, Exact e t (o.wire e network) := fun network =>
    ⟨Tree.announced_of_asSent (h.announced network hlt'), by rw [h.wire_length, Tree.asSent_size]; exact hle⟩
  constructor
  · rw [h.dataSize m hlt', Tree.asSent_size]
  · intro network
    obtain ⟨o', hrun⟩ := h.copyToStream hlt' network m
    exact ⟨o', _, hrun, Or.inr (hexact network)⟩
  · intro network calls
    obtain ⟨r, o', bs, hrun, hr | ⟨hr, rfl⟩⟩ := h.copyRun hlt' network m (shortWrites_willing calls)
    · exact ⟨r, o', bs, hrun, Or.inl hr⟩
    · exact ⟨r, o', _, hrun, Or.inr (Or.inr ⟨hr, hexact network⟩)⟩
  · intro network
    refine ⟨t.asSent.size, fun calls hcalls hlen => ?_⟩
    obtain ⟨o', hrun⟩ := h.copyRun_completes hlt' network m (shortWrites_eager hcalls)
      (by rw [shortWrites, List.length_map]; exact hlen)
    exact ⟨.ready, o', _, hrun, by simp⟩
  · intro network rooms
    obtain ⟨r, o', bs, hrun, hr | ⟨hr, rfl⟩⟩ := h.copyRun hlt' network m (windows_willing rooms)
    · exact ⟨r, o', bs, hrun, Or.inl hr⟩
    · exact ⟨r, o', _, hrun, Or.inr (Or.inr ⟨hr, hexact network⟩)⟩
  · intro network
    refine ⟨t.asSent.size, fun rooms hrooms hlen => ?_⟩
    obtain ⟨o', hrun⟩ := h.copyRun_completes hlt' network m (windows_eager hrooms)
      (by rw [windows, List.length_map]; exact hlen)
    exact ⟨.ready, o', _, hrun, by simp⟩
  · obtain ⟨o', hrun⟩ := h.toBufHostOrder hlt' m
    refine ⟨_, o', hrun, fun bs hbs => ?_⟩
    cases hbs
    exact hexact false

/-! ### Sending nothing -/

theorem header_append_ne_nil (h : Header) (bs : Bytes) : h.bytes ++ bs ≠ [] :=
  List.ne_nil_of_length_pos (by rw [List.length_append, Header.bytes_length]; omega)

theorem streamHeader_eq {d d' : Dson} {m m' : Mem} {size : Int} {head : Bytes}
    (hrun : d.streamHeader e m size = some (d', m', head)) : ∃ h : Header, head = h.bytes := by
  rw [Dson.streamHeader] at hrun
  split_ifs at hrun
  all_goals
    obtain ⟨⟨d₁, m₁⟩, -, hrun⟩ := Option.bind_eq_some_iff.mp hrun
    obtain ⟨h, -, heq⟩ := Option.bind_eq_some_iff.mp hrun
    cases heq
    exact ⟨h, rfl⟩

/-- A stream that has been written by an object at rest is not empty. -/
theorem streamKind_ne_nil {copy : DsonObj → Mem → Option (DsonObj × Mem × Bytes)} {network : Bool} {d : Dson}
    {children : ObjMap} {m m' : Mem} {o' : DsonObj} {bs : Bytes} (hkind : d.dsonKind ≠ .dataBufNeedParse)
    (hrun : d.streamKind e copy network children m = some (o', m', bs)) : bs ≠ [] := by
  cases hk : d.dsonKind with
  | dataBufNeedParse => exact absurd hk hkind
  | oneObjectInDataBuf =>
      rw [Dson.streamKind_one hk] at hrun
      obtain ⟨before, -, hrun⟩ := Option.bind_eq_some_iff.mp hrun
      obtain ⟨⟨d₁, m₁⟩, -, hrun⟩ := Option.bind_eq_some_iff.mp hrun
      obtain ⟨after, -, hrun⟩ := Option.bind_eq_some_iff.mp hrun
      obtain ⟨⟨d₂, m₂, head⟩, hhead, hrun⟩ := Option.bind_eq_some_iff.mp hrun
      obtain ⟨payload, -, heq⟩ := Option.bind_eq_some_iff.mp hrun
      cases heq
      obtain ⟨h, rfl⟩ := streamHeader_eq hhead
      exact header_append_ne_nil h payload
  | dsonContainer =>
      rw [Dson.streamKind_container hk] at hrun
      obtain ⟨size, -, hrun⟩ := Option.bind_eq_some_iff.mp hrun
      obtain ⟨⟨d₁, m₁⟩, -, hrun⟩ := Option.bind_eq_some_iff.mp hrun
      obtain ⟨⟨d₂, m₂, head⟩, hhead, hrun⟩ := Option.bind_eq_some_iff.mp hrun
      obtain ⟨⟨children', inside, more⟩, -, heq⟩ := Option.bind_eq_some_iff.mp hrun
      cases heq
      obtain ⟨h, rfl⟩ := streamHeader_eq hhead
      exact header_append_ne_nil h more

theorem Has.atRest {d : Dson} {children : ObjMap} {k : Int} {t : Tree}
    (ho : Has e (.dson d children) k t) : d.state = .ready ∧ d.dsonKind ≠ .dataBufNeedParse := by
  cases t with
  | leaf v =>
      rw [Has] at ho
      rcases ho with ho | ⟨-, -, hd⟩
      · rw [Holds] at ho
        obtain ⟨hstate, -, block, hown, -⟩ := ho
        exact ⟨hstate, by simp [hown.kind]⟩
      · exact ⟨hd.state, by simp [hd.kind]⟩
  | node ts =>
      rw [Has] at ho
      exact ⟨ho.1, by simp [ho.2.1.kind]⟩

theorem Has.copyToStream_ne_nil {o o' : DsonObj} {k : Int} {t : Tree} (ho : Has e o k t)
    {network : Bool} {m m' : Mem} {bs : Bytes} (hrun : o.copyToStream e network m = some (o', m', bs)) : bs ≠ [] := by
  cases o with
  | string o =>
      cases hrun
      exact header_append_ne_nil _ _
  | route r =>
      cases hrun
      exact header_append_ne_nil _ _
  | dson d children =>
      obtain ⟨hstate, hkind⟩ := ho.atRest
      rw [DsonObj.copyToStream, DsonObj.depth, DsonObj.streamFuel, Dson.streamInternal_ready hstate hkind] at hrun
      exact streamKind_ne_nil hkind hrun

/-- Into a window of one byte goes the first byte of the header. -/
theorem Stuck.copyTo_one {o : DsonObj} (h : Stuck o) (hstate : o.state = .ready) {network : Bool} {m m' : Mem}
    {r : Result} {o' : DsonObj} {s' : BufOut} (hrun : o.copyTo e network m (BufOut.fresh 1) = some (r, o', m', s')) :
    s'.out ≠ [] := by
  cases h with
  | @string s hempty =>
      have hout : (s.copyTo e network (BufOut.fresh 1)).2.2 = s' :=
        congrArg (fun p => p.2.2.2) (Option.some.inj hrun)
      rw [DsonStringObj.copyTo, if_pos (show s.state = .ready from hstate)] at hout
      subst hout
      change (s.header.toOrder e network).bytes.take 1 ≠ []
      simp [Header.bytes, Cell.bytes]
  | @node d children k c hkind hsorted hfind hc hat =>
      rw [DsonObj.copyTo, DsonObj.depth, DsonObj.copyFuel, Dson.copyInternal, show d.state = .ready from hstate] at hrun
      obtain ⟨⟨d₁, children₁, m₁⟩, hprepare, hrun⟩ := Option.bind_eq_some_iff.mp hrun
      obtain ⟨h', d₂, d₃, -, -, -, rfl⟩ := Dson.prepareCopy_cases hprepare
      dsimp only at hrun
      rw [Dson.copyHeader_eq, if_neg (by simp [headerSize])] at hrun
      obtain ⟨h₁, -, hrun⟩ := Option.bind_eq_some_iff.mp hrun
      cases hrun
      simp [BufOut.fresh, Header.bytes, Cell.bytes]

theorem Has.state {o : DsonObj} {k : Int} {t : Tree} (ho : Has e o k t) : o.state = .ready := by
  cases o with
  | dson d children => exact ho.atRest.1
  | string o =>
      cases t with
      | node ts => rw [Has] at ho; exact ho.elim
      | leaf v =>
          rw [Has] at ho
          obtain ⟨s, -, hs⟩ := ho
          exact hs.state
  | route r =>
      cases t with
      | node ts => rw [Has] at ho; exact ho.elim
      | leaf v =>
          rw [Has] at ho
          exact ho.state

/-- A run from rest over windows of one byte has emitted something. -/
theorem Stuck.copyRun_ne_nil {o : DsonObj} (h : Stuck o) (hstate : o.state = .ready) {network : Bool} {m : Mem} {n : Nat}
    {r : Result} {p : DsonObj × Mem} {bs : Bytes}
    (hrun : o.copyRun e network m (windows (List.replicate (n + 1) 1)) = some (r, p, bs)) : bs ≠ [] := by
  rw [DsonObj.copyRun, List.replicate_succ, windows, List.map_cons, emitRun] at hrun
  obtain ⟨⟨r₁, ⟨o₁, m₁⟩, s₁⟩, hcall, hnext⟩ := Option.bind_eq_some_iff.mp hrun
  obtain ⟨⟨r₂, o₂, m₂, s₂⟩, hcopy, heq⟩ := Option.bind_eq_some_iff.mp hcall
  cases heq
  have hout : ByteSink.written s₁ ≠ [] := h.copyTo_one hstate hcopy
  dsimp only at hnext
  split_ifs at hnext
  · obtain ⟨⟨r₃, p₃, bs₃⟩, -, heq⟩ := Option.bind_eq_some_iff.mp hnext
    cases heq
    exact fun hnil => hout (List.append_eq_nil_iff.mp hnil).1
  · cases hnext
    exact hout

/-- What comes of an object over an empty string is not exact. -/
theorem Stuck.not_sendsExactly {o : DsonObj} (h : Stuck o) (hstate : o.state = .ready) (t : Tree) (m : Mem) :
    ¬SendsExactly e o t m := by
  intro hsends
  obtain ⟨n, hn⟩ := hsends.buf_ends true
  obtain ⟨r, o', bs, hrun, hr⟩ := hn (List.replicate (n + 1) 1) (by simp) (by simp)
  obtain ⟨r', o'', bs', hrun', hcases⟩ := hsends.buf true (List.replicate (n + 1) 1)
  rw [hrun] at hrun'
  cases hrun'
  rcases hcases with hin | ⟨-, hnil⟩ | ⟨hready, -⟩
  · exact hr hin
  · exact h.copyRun_ne_nil hstate hrun hnil
  · exact h.copyRun hrun hready

/-- Beyond the limit of the loaders what is sent is not exact. -/
theorem Has.size_le {o : DsonObj} {k : Int} {t : Tree} (ho : Has e o k t) {m : Mem}
    (hsends : SendsExactly e o t m) : t.size ≤ headerSize + 2 ^ 30 := by
  obtain ⟨o', bs, hrun, hnil | ⟨hannounced, hlimit⟩⟩ := hsends.stream true
  · exact absurd hnil (ho.copyToStream_ne_nil hrun)
  · rwa [hannounced.length] at hlimit

/-- The narrowing of string sizes keeps all bits below the range of 32-bit integers, and only there; and an object
is sent exactly if and only if no `DsonStringObj` in it is empty and the payload is within the limit of the loaders. -/
theorem sends_exactly_iff (m : Mem) :
    (∀ h junk s, (∃ o, DsonObj.ofString e h junk s = some o) ↔ s.length < 2 ^ 31) ∧
      (∀ key s, DsonObj.dataSize e m (DsonObj.ofStringObj e key s) = some (s.length : Int) ↔ s.length < 2 ^ 31) ∧
        ∀ o k t, Composed e o k t → (SendsExactly e o t m ↔ o.Filled ∧ t.size ≤ headerSize + 2 ^ 30) := by
  refine ⟨fun h junk s => ⟨fun ⟨o, hrun⟩ => ofString_lt hrun, fun hlt => ?_⟩, fun key s => ?_,
    fun o k t ho => ⟨fun hsends => ⟨?_, ho.has.size_le hsends⟩, fun ⟨hfilled, hle⟩ => ho.has.sendsExactly hfilled hle m⟩⟩
  · by_cases hne : s = []
    · exact ⟨_, if_pos hne⟩
    · obtain ⟨o, hrun, -⟩ := holds_ofString (e := e) h junk hne hlt
      exact ⟨o, hrun⟩
  · have hhost : Header.isHostOrder e ⟨markHostOrder e, Cell.ofInt e (wrap32 s.length), Cell.ofInt e key,
        Cell.ofInt e TypesMap.string⟩ := by simp [Header.isHostOrder]
    have hsize : DsonObj.dataSize e m (DsonObj.ofStringObj e key s) = some (wrap32 s.length) := by
      change some (Header.dataSizeOf e ⟨markHostOrder e, Cell.ofInt e (wrap32 s.length), Cell.ofInt e key,
        Cell.ofInt e TypesMap.string⟩) = _
      rw [Header.dataSizeOf, Header.field_eq, Header.order, if_pos hhost, Cell.int32_ofInt _ (wrap32_isInt32 _)]
    have hint := wrap32_isInt32 s.length
    rw [hsize, Option.some.injEq]
    constructor
    · intro heq
      rw [heq, IsInt32] at hint
      omega
    · intro hlt
      exact wrap32_of_isInt32 (by simp only [IsInt32]; omega)
  · by_contra hfilled
    exact (ho.has.stuck hfilled).not_sendsExactly ho.has.state t m hsends

/-- Three bytes in a container are sent exactly, and so is an empty string in a `Dson`. -/
theorem sends_exactly_iff_sample :
    (∃ o : DsonObj, SendsExactly .little o (.node [(7, .leaf (.string [104, 105, 33]))]) ⟨[], []⟩) ∧
      ∃ o : DsonObj, DsonObj.ofString .little (Dson.clearHeader .little) (fun _ => 0) [] = some o ∧
        SendsExactly .little o (.leaf (.string [])) ⟨[], []⟩ := by
  have hstring : Composed .little (DsonObj.ofStringObj .little 7 [104, 105, 33]) 7 (.leaf (.string [104, 105, 33])) :=
    .stringObj (by decide)
  have hempty : Composed .little (DsonObj.empty .little) 0 (.node []) := .container
  obtain ⟨o, hrun, -⟩ := hempty.has.emplacePtr hstring.has ⟨[], []⟩
  have ho := Composed.emplacePtr hempty hstring hrun
  have hfilled : o.Filled := by
    cases hrun
    exact ⟨List.cons_ne_nil _ _, trivial⟩
  obtain ⟨o', hmade⟩ := ((sends_exactly_iff ⟨[], []⟩).1 (Dson.clearHeader .little) (fun _ => 0) []).mpr (by decide)
  have ho' : Composed .little o' 0 (.leaf (.string [])) := by
    cases hmade
    exact .string rfl rfl
  have hfilled' : o'.Filled := by
    cases hmade
    trivial
  exact ⟨⟨o, ((sends_exactly_iff ⟨[], []⟩).2.2 o 0 _ ho).mpr ⟨hfilled, by decide⟩⟩,
    o', hmade, ((sends_exactly_iff ⟨[], []⟩).2.2 o' 0 _ ho').mpr ⟨hfilled', by decide⟩⟩

/-- One string of a byte more than the loaders take is sent in full, with a length that they refuse. -/
theorem long_string_sent : ¬SendsExactly .little (DsonObj.ofStringObj .little 7 (List.replicate (2 ^ 30 + 1) 0))
    (.leaf (.string (List.replicate (2 ^ 30 + 1) 0))) ⟨[], []⟩ := by
  intro hsends
  have ho : Composed .little (DsonObj.ofStringObj .little 7 (List.replicate (2 ^ 30 + 1) 0)) 7
      (.leaf (.string (List.replicate (2 ^ 30 + 1) 0))) := .stringObj (by decide)
  have hle := ho.has.size_le hsends
  rw [Tree.size, Value.size, List.length_replicate] at hle
  omega

end

end LeanDson
