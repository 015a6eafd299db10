import LeanDson.History

/-! Copies of objects that may have containers in them whose headers have not been written. Such a container has no
children, and whatever its header holds, it is given the size zero, so that it is handed over as any other object is.
`Sendable` are the objects at rest, `Outgoing` those in the middle of a copy that began at rest. -/

namespace LeanDson

open ByteSink

/-! ### Objects that can be sent -/

/-- A container without a buffer. If it has no children its header may hold anything. -/
structure Dson.IsOpen (e : Endian) (d : Dson) (ts : Forest) : Prop where
  kind : d.dsonKind = .dsonContainer
  buf : d.buf = .null
  mark : ts ≠ [] → d.headerBuf.ValidMark e

mutual

/-- An object at rest that is sent as a tree. -/
def Sendable (e : Endian) : DsonObj → Tree → Prop
  | .dson d children, .leaf v => ∃ k, Holds e (.dson d children) k (.leaf v)
  | .dson d children, .node ts => d.state = .ready ∧ d.IsOpen e ts ∧ KeyMap.Sorted children ∧ SendableAll e children ts
  | .string s, .leaf v => ∃ k, Holds e (.string s) k (.leaf v)
  | .route r, .leaf v => ∃ k, Holds e (.route r) k (.leaf v)
  | .string _, .node _ => False
  | .route _, .node _ => False

def SendableAll (e : Endian) : ObjMap → Forest → Prop
  | [], [] => True
  | (_, o) :: rest, (_, t) :: ts => Sendable e o t ∧ SendableAll e rest ts
  | [], _ :: _ => False
  | _ :: _, [] => False

end

mutual

/-- An object that is being sent as a tree. -/
def Outgoing (e : Endian) : DsonObj → Tree → Prop
  | .dson d children, .leaf v => ∃ k, Emittable e (.dson d children) k (.leaf v)
  | .dson d children, .node ts =>
      d.IsOpen e ts ∧ KeyMap.Sorted children ∧
        ((d.state = .ready ∨ d.state = .copyingHeader ∧ d.offset < headerSize) ∧ SendableAll e children ts ∨
          d.state = .copyingData ∧ ∃ key, d.copyIter = .node key ∧ key ∈ KeyMap.keys children ∧
            OutgoingFrom e key children ts)
  | .string s, .leaf v => ∃ k, Emittable e (.string s) k (.leaf v)
  | .route r, .leaf v => ∃ k, Emittable e (.route r) k (.leaf v)
  | .string _, .node _ => False
  | .route _, .node _ => False

/-- Children of which those in front of `key` have been handed over. -/
def OutgoingFrom (e : Endian) (key : Int) : ObjMap → Forest → Prop
  | (k, o) :: rest, (_, t) :: ts =>
      (k < key ∧ OutgoingFrom e key rest ts) ∨ (k = key ∧ Outgoing e o t ∧ SendableAll e rest ts)
  | [], [] => False
  | [], _ :: _ => False
  | _ :: _, [] => False

end

section

variable {e : Endian} {network : Bool}

theorem sendable_leaf {o : DsonObj} {v : Value} : Sendable e o (.leaf v) ↔ ∃ k, Holds e o k (.leaf v) := by
  cases o <;> rw [Sendable]

theorem outgoing_leaf {o : DsonObj} {v : Value} : Outgoing e o (.leaf v) ↔ ∃ k, Emittable e o k (.leaf v) := by
  cases o <;> rw [Outgoing]

theorem Sendable.outgoing {o : DsonObj} {t : Tree} (h : Sendable e o t) : Outgoing e o t := by
  cases t with
  | leaf v =>
      obtain ⟨k, ho⟩ := sendable_leaf.mp h
      exact outgoing_leaf.mpr ⟨k, ho.emittable⟩
  | node ts =>
      cases o with
      | string s => exact h.elim
      | route r => exact h.elim
      | dson d children =>
          rw [Sendable] at h
          obtain ⟨hstate, hopen, hsorted, hall⟩ := h
          rw [Outgoing]
          exact ⟨hopen, hsorted, Or.inl ⟨Or.inl hstate, hall⟩⟩

theorem Dson.IsOpen.headerIsLocal {d : Dson} {ts : Forest} (h : d.IsOpen e ts) : d.headerIsLocal = true := by
  simp [Dson.headerIsLocal, h.buf, BufPtr.isNull]

theorem Dson.IsOpen.congr {d d' : Dson} {ts : Forest} (h : d.IsOpen e ts) (hh : d'.headerBuf = d.headerBuf)
    (hkind : d'.dsonKind = d.dsonKind) (hbuf : d'.buf = d.buf) : d'.IsOpen e ts :=
  ⟨hkind.trans h.kind, hbuf.trans h.buf, fun hne => hh ▸ h.mark hne⟩

/-- The size may be set before or after the header is converted. -/
theorem Dson.IsOpen.setDataSize_toOrder {d : Dson} {ts : Forest} (h : d.IsOpen e ts) (network : Bool) :
    (d.headerBuf.setDataSize e (Forest.size ts)).toOrder e network =
      (d.headerBuf.toOrder e network).setDataSize e (Forest.size ts) := by
  cases ts with
  | nil => exact Header.setDataSize_zero_toOrder e d.headerBuf network
  | cons p ts => exact (Header.setDataSize_toOrder (h.mark (by simp)) _ network).symm

/-- A container with its header prepared for a copy. -/
theorem Dson.IsOpen.prepared {d : Dson} {ts : Forest} (h : d.IsOpen e ts) (network : Bool) {d' : Dson}
    (hh : d'.headerBuf = (d.headerBuf.setDataSize e (Forest.size ts)).toOrder e network)
    (hkind : d'.dsonKind = d.dsonKind) (hbuf : d'.buf = d.buf) : d'.IsOpen e ts :=
  ⟨hkind.trans h.kind, hbuf.trans h.buf, fun hne =>
    hh ▸ Header.toOrder_valid (h := d.headerBuf.setDataSize e _) ((Header.validMark_congr rfl).mp (h.mark hne)) network⟩

/-! ### Lengths -/

mutual

theorem Sendable.wire_length (network : Bool) : ∀ {t : Tree} {o : DsonObj}, Sendable e o t →
    (o.wire e network).length = t.size
  | .leaf v, o, h => by
      obtain ⟨k, ho⟩ := sendable_leaf.mp h
      exact ho.wire_length network
  | .node ts, .dson d children, h => by
      rw [Sendable] at h
      obtain ⟨-, hopen, -, hall⟩ := h
      simp only [DsonObj.wire, hopen.kind, Tree.size, List.length_append, Header.bytes_length,
        hall.wires_length network, headerSize]
  | .node _, .string _, h => h.elim
  | .node _, .route _, h => h.elim

theorem SendableAll.wires_length (network : Bool) : ∀ {ts : Forest} {children : ObjMap}, SendableAll e children ts →
    (DsonObj.wires e network children).length = Forest.size ts
  | [], [], _ => rfl
  | (_, t) :: ts, (k, o) :: rest, h => by
      rw [SendableAll] at h
      rw [DsonObj.wires, Forest.size, List.length_append, h.1.wire_length network, h.2.wires_length network]
  | [], _ :: _, h => h.elim
  | _ :: _, [], h => h.elim

end

mutual

theorem Sendable.dataSize (m : Mem) : ∀ {t : Tree} {o : DsonObj}, Sendable e o t → t.size < 2 ^ 31 →
    o.dataSize e m = some ((t.size : Int) - headerSize)
  | .leaf v, o, h, hlt => by
      obtain ⟨k, ho⟩ := sendable_leaf.mp h
      exact ho.dataSize m hlt
  | .node ts, .dson d children, h, hlt => by
      rw [Sendable] at h
      obtain ⟨-, hopen, -, hall⟩ := h
      rw [Tree.size] at hlt
      simp only [DsonObj.dataSize, hopen.kind, Dson.inner, hopen.buf, hall.dataSizes m (by omega), Tree.size]
      simp
  | .node _, .string _, h, _ => h.elim
  | .node _, .route _, h, _ => h.elim

theorem SendableAll.dataSizes (m : Mem) : ∀ {ts : Forest} {children : ObjMap}, SendableAll e children ts →
    Forest.size ts < 2 ^ 31 → DsonObj.dataSizes e m children = some (Forest.size ts : Int)
  | [], [], _, _ => rfl
  | (_, t) :: ts, (k, o) :: rest, h, hlt => by
      rw [SendableAll] at h
      rw [Forest.size] at hlt
      have hle := t.headerSize_le_size
      simp only [DsonObj.dataSizes, h.1.dataSize m (by omega), h.2.dataSizes m (by omega), Option.bind_eq_bind,
        Option.bind_some, Option.pure_def, Forest.size, Option.some.injEq, Int.sub_add_cancel]
      rw [wrap32_add_left, wrap32_of_isInt32 (by simp only [IsInt32]; omega)]
      omega
  | [], _ :: _, h, _ => h.elim
  | _ :: _, [], h, _ => h.elim

end

/-! ### What is still to come -/

mutual

theorem Sendable.pending (network : Bool) : ∀ {t : Tree} {o : DsonObj}, Sendable e o t →
    o.pending e network = o.wire e network
  | .leaf v, o, h => by
      obtain ⟨k, ho⟩ := sendable_leaf.mp h
      exact ho.pending network
  | .node ts, .dson d children, h => by
      rw [Sendable] at h
      obtain ⟨hstate, hopen, -, hall⟩ := h
      simp only [DsonObj.pending, hstate, hopen.kind, DsonObj.wire, hall.pendings network]
  | .node _, .string _, h => h.elim
  | .node _, .route _, h => h.elim

theorem SendableAll.pendings (network : Bool) : ∀ {ts : Forest} {children : ObjMap}, SendableAll e children ts →
    DsonObj.pendings e network children = DsonObj.wires e network children
  | [], [], _ => rfl
  | (_, _) :: _, (_, _) :: _, h => by
      rw [SendableAll] at h
      rw [DsonObj.pendings, DsonObj.wires, h.1.pending network, h.2.pendings network]
  | [], _ :: _, h => h.elim
  | _ :: _, [], h => h.elim

end

mutual

theorem Outgoing.pending_ne_nil (network : Bool) : ∀ {t : Tree} {o : DsonObj}, Outgoing e o t →
    o.pending e network ≠ []
  | .leaf v, o, h => by
      obtain ⟨k, ho⟩ := outgoing_leaf.mp h
      exact ho.pending_ne_nil network
  | .node ts, .dson d children, h => by
      rw [Outgoing] at h
      obtain ⟨hopen, -, ⟨hstate | ⟨hstate, hoff⟩, -⟩ | ⟨hstate, key, hit, -, hfrom⟩⟩ := h
      · simp only [DsonObj.pending, hstate, hopen.kind]
        exact bytes_append_ne_nil (Header.toOrder e network _) (Nat.zero_lt_succ _) _
      · simp only [DsonObj.pending, hstate, hopen.kind]
        exact bytes_append_ne_nil _ hoff _
      · simp only [DsonObj.pending, hstate, hopen.kind, hit]
        exact hfrom.pendingsFrom_ne_nil network
  | .node _, .string _, h => h.elim
  | .node _, .route _, h => h.elim

theorem OutgoingFrom.pendingsFrom_ne_nil (network : Bool) : ∀ {ts : Forest} {key : Int} {children : ObjMap},
    OutgoingFrom e key children ts → DsonObj.pendingsFrom e network (.node key) children ≠ []
  | (_, t) :: ts, key, (k, o) :: rest, h => by
      rw [OutgoingFrom] at h
      rcases h with ⟨hlt, hfrom⟩ | ⟨rfl, ho, -⟩
      · rw [DsonObj.pendingsFrom, if_pos hlt]
        exact hfrom.pendingsFrom_ne_nil network
      · rw [DsonObj.pendingsFrom, if_neg (lt_irrefl k)]
        exact fun hnil => ho.pending_ne_nil network (List.append_eq_nil_iff.mp hnil).1
  | [], _, [], h => h.elim
  | [], _, _ :: _, h => h.elim
  | _ :: _, _, [], h => h.elim

end

/-! ### The incremental emitters -/

section

variable {σ : Type} [ByteSink σ] {copy : DsonObj → Mem → σ → Option (Result × DsonObj × Mem × σ)} {fuel : Nat}

/-- One call on an object that is being sent, with the memory around it left alone. -/
def HandsOut (e : Endian) (network : Bool) (t : Tree) (before : Bytes) (m : Mem) (s : σ)
    (out : Option (Result × DsonObj × Mem × σ)) : Prop :=
  ∃ r o' s', out = some (r, o', m, s') ∧
    HandsOver s s' before r True (Outgoing e o' t) (o'.pending e network) fun _ => True

/-- What the loop asks of the emitter of the children. -/
def HandsOutBelow (e : Endian) (network : Bool) (fuel : Nat)
    (copy : DsonObj → Mem → σ → Option (Result × DsonObj × Mem × σ)) : Prop :=
  ∀ {o : DsonObj} {t : Tree} (m : Mem) (s : σ), Outgoing e o t → t.size < 2 ^ 31 → o.depth ≤ fuel →
    HandsOut e network t (o.pending e network) m s (copy o m s)

/-- One call of the loop over the children. -/
def MapHandsOut (e : Endian) (network : Bool) (it : CopyIter) (children : ObjMap) (ts : Forest) (m : Mem) (s : σ)
    (out : Option (Result × CopyIter × ObjMap × Mem × σ)) : Prop :=
  ∃ r it' children' s', out = some (r, it', children', m, s') ∧ KeyMap.keys children' = KeyMap.keys children ∧
    HandsOver s s' (DsonObj.pendingsFrom e network it children) r True
      (∃ key, it' = .node key ∧ key ∈ KeyMap.keys children ∧ OutgoingFrom e key children' ts)
      (DsonObj.pendingsFrom e network it' children') fun _ => True

/-- A child in front, from which the loop goes on. -/
theorem copyMap_handsOut_here {k k' : Int} {o : DsonObj} {t : Tree} {rest : ObjMap} {ts : Forest} (m : Mem) {s : σ}
    (ho : Outgoing e o t) (hcopy : HandsOut e network t (o.pending e network) m s (copy o m s))
    (hsorted : KeyMap.Sorted ((k, o) :: rest)) (hall : SendableAll e rest ts)
    (hrest : ∀ s : σ, MapHandsOut e network (Dson.mapBegin rest) rest ts m s
      (Dson.copyMap copy (Dson.mapBegin rest) rest m s)) :
    MapHandsOut e network (.node k) ((k, o) :: rest) ((k', t) :: ts) m s
      (Dson.copyMap copy (.node k) ((k, o) :: rest) m s) := by
  obtain ⟨r, o', s', hout, hhand⟩ := hcopy
  have hpend : ∀ o : DsonObj, DsonObj.pendingsFrom e network (.node k) ((k, o) :: rest) =
      o.pending e network ++ DsonObj.pendings e network rest := fun o => by
    rw [DsonObj.pendingsFrom, if_neg (lt_irrefl k)]
  rw [Dson.copyMap, if_neg (lt_irrefl k), hout]
  simp only [Option.bind_eq_bind, Option.bind_some]
  by_cases hr : r = .ready
  · subst hr
    obtain ⟨r, it, rest', s'', hout', hkeys, hhand'⟩ := hrest s'
    rw [DsonObj.pendingsFrom_begin] at hhand'
    rw [if_neg (by simp), hout']
    refine ⟨r, it, (k, o') :: rest', s'', rfl, by rw [KeyMap.keys_cons, KeyMap.keys_cons, hkeys], ?_⟩
    rw [hpend]
    refine hhand.append (ho.pending_ne_nil network) (hhand'.imp (fun _ h => h) ?_ fun _ _ _ _ h => h)
    rintro - ⟨key, rfl, hkey, hfrom⟩
    have hlt : k < key := (KeyMap.sorted_cons.mp hsorted).1 key hkey
    refine ⟨⟨key, rfl, List.mem_cons_of_mem _ hkey, ?_⟩, ?_⟩
    · rw [OutgoingFrom]
      exact Or.inl ⟨hlt, hfrom⟩
    · rw [DsonObj.pendingsFrom, if_pos hlt]
  · rw [if_pos hr]
    refine ⟨r, .node k, (k, o') :: rest, s', rfl, rfl, ?_⟩
    rw [hpend, hpend]
    refine (hhand.stop hr _ fun _ h => h).imp (fun _ h => h) (fun _ ho' => ⟨⟨k, rfl, List.mem_cons_self, ?_⟩, rfl⟩)
      fun _ _ _ _ h => h
    rw [OutgoingFrom]
    exact Or.inr ⟨rfl, ho', hall⟩

/-- The loop from the start. -/
theorem copyMap_handsOut_begin (hcopy : HandsOutBelow e network fuel copy) {children : ObjMap} {ts : Forest} (m : Mem)
    (s : σ) (hall : SendableAll e children ts) (hsorted : KeyMap.Sorted children) (hlt : Forest.size ts < 2 ^ 31)
    (hfuel : DsonObj.depths children ≤ fuel) :
    MapHandsOut e network (Dson.mapBegin children) children ts m s
      (Dson.copyMap copy (Dson.mapBegin children) children m s) := by
  induction children generalizing ts s with
  | nil =>
      refine ⟨_, _, _, _, rfl, rfl, ?_⟩
      rw [DsonObj.pendingsFrom_begin, DsonObj.pendings]
      exact HandsOver.nothing s trivial _ _ _
  | cons p rest ih =>
      obtain ⟨k, o⟩ := p
      cases ts with
      | nil => exact hall.elim
      | cons q ts =>
          rw [SendableAll] at hall
          obtain ⟨ho, hrest⟩ := hall
          rw [Forest.size] at hlt
          rw [DsonObj.depths] at hfuel
          exact copyMap_handsOut_here m ho.outgoing (hcopy m s ho.outgoing (by omega) (by omega)) hsorted hrest
            fun s => ih s hrest hsorted.tail (by omega) (by omega)

/-- The loop from a node. -/
theorem copyMap_handsOut_node (hcopy : HandsOutBelow e network fuel copy) {key : Int} {children : ObjMap} {ts : Forest}
    (m : Mem) (s : σ) (hfrom : OutgoingFrom e key children ts) (hsorted : KeyMap.Sorted children)
    (hlt : Forest.size ts < 2 ^ 31) (hfuel : DsonObj.depths children ≤ fuel) :
    MapHandsOut e network (.node key) children ts m s (Dson.copyMap copy (.node key) children m s) := by
  induction children generalizing ts with
  | nil => cases ts <;> exact hfrom.elim
  | cons p rest ih =>
      obtain ⟨k, o⟩ := p
      cases ts with
      | nil => exact hfrom.elim
      | cons q ts =>
          rw [Forest.size] at hlt
          rw [DsonObj.depths] at hfuel
          rw [OutgoingFrom] at hfrom
          rcases hfrom with ⟨hkey, hrest⟩ | ⟨rfl, ho, hrest⟩
          · obtain ⟨r, it, rest', s', hout, hkeys, hhand⟩ := ih hrest hsorted.tail (by omega) (by omega)
            rw [Dson.copyMap, if_pos hkey, hout]
            refine ⟨r, it, (k, o) :: rest', s', rfl, by rw [KeyMap.keys_cons, KeyMap.keys_cons, hkeys], ?_⟩
            rw [DsonObj.pendingsFrom, if_pos hkey]
            refine hhand.imp (fun _ h => h) ?_ fun _ _ _ _ h => h
            rintro - ⟨key', rfl, hmem, hfrom⟩
            have hlt' : k < key' := (KeyMap.sorted_cons.mp hsorted).1 key' hmem
            refine ⟨⟨key', rfl, List.mem_cons_of_mem _ hmem, ?_⟩, ?_⟩
            · rw [OutgoingFrom]
              exact Or.inl ⟨hlt', hfrom⟩
            · rw [DsonObj.pendingsFrom, if_pos hlt']
          · exact copyMap_handsOut_here m ho (hcopy m s ho (by omega) (by omega)) hsorted hrest
              fun s => copyMap_handsOut_begin hcopy m s hrest hsorted.tail (by omega) (by omega)

/-- A container in its data phase, given what its loop does. -/
theorem Dson.copyData_handsOut {d : Dson} {children : ObjMap} {ts : Forest} {m : Mem} {s : σ} (hopen : d.IsOpen e ts)
    (hstate : d.state = .copyingData) (hsorted : KeyMap.Sorted children)
    (hmap : MapHandsOut e network d.copyIter children ts m s (copyMap copy d.copyIter children m s)) :
    HandsOut e network (.node ts) (DsonObj.pendingsFrom e network d.copyIter children) m s (d.copyData copy children m s) := by
  obtain ⟨r, it, children', s', hout, hkeys, hhand⟩ := hmap
  have hinner : d.inner m = m := by rw [Dson.inner, hopen.buf]
  have houter : ∀ inside, d.outer m inside = (d, inside) := fun inside => by rw [Dson.outer, hopen.buf]
  rw [Dson.copyData, if_pos hopen.kind, hinner, hout]
  simp only [Option.bind_eq_bind, Option.bind_some, houter]
  by_cases hr : r = .ready
  · subst hr
    rw [if_neg (by simp)]
    exact ⟨_, _, _, rfl, hhand.imp (fun _ h => h) (fun h => by cases h) fun _ _ _ _ h => h⟩
  · rw [if_pos hr]
    refine ⟨_, _, _, rfl, hhand.imp (fun _ h => h) ?_ fun _ _ _ _ h => h⟩
    rintro - ⟨key, rfl, hkey, hfrom⟩
    refine ⟨?_, by simp only [DsonObj.pending, hstate, hopen.kind]⟩
    rw [Outgoing]
    exact ⟨hopen.congr rfl rfl rfl, hsorted.congr hkeys, Or.inr ⟨hstate, key, rfl, hkeys ▸ hkey, hfrom⟩⟩

/-- A container with its header prepared, up to its first child. -/
theorem Dson.copyHeader_handsOut (hcopy : HandsOutBelow e network fuel copy) {d : Dson} {children : ObjMap} {ts : Forest}
    (m : Mem) (s : σ) (hopen : d.IsOpen e ts) (hstate : d.state = .copyingHeader) (hoff : d.offset < headerSize)
    (hall : SendableAll e children ts) (hsorted : KeyMap.Sorted children) (hlt : Forest.size ts < 2 ^ 31)
    (hfuel : DsonObj.depths children ≤ fuel) :
    HandsOut e network (.node ts) (d.headerBuf.bytes.drop d.offset ++ DsonObj.pendings e network children) m s
      (d.copyHeader copy children m s) := by
  have hoff' : d.offset < d.headerBuf.bytes.length := hoff
  rw [Dson.copyHeader, if_neg (by omega), Dson.header_local hopen.headerIsLocal]
  simp only [Option.bind_eq_bind, Option.bind_some]
  rcases write_drop s d.headerBuf.bytes hoff' with ⟨s', hw, hfail⟩ | ⟨n, s', hw, hle, hstep⟩
  · simp only [hw]
    exact ⟨_, _, _, rfl, hfail trivial⟩
  obtain ⟨hpart, hfollow⟩ := hstep (DsonObj.pendings e network children)
  simp only [hw]
  by_cases hend : d.offset + n < headerSize
  · rw [if_pos hend]
    have hlive : Outgoing e (.dson { d with offset := d.offset + n } children) (.node ts) := by
      rw [Outgoing]
      exact ⟨hopen.congr rfl rfl rfl, hsorted, Or.inl ⟨Or.inr ⟨hstate, hend⟩, hall⟩⟩
    have hpend : (DsonObj.dson { d with offset := d.offset + n } children).pending e network =
        d.headerBuf.bytes.drop (d.offset + n) ++ DsonObj.pendings e network children := by
      simp only [DsonObj.pending, hstate, hopen.kind]
    refine ⟨_, _, _, rfl, ?_⟩
    rw [hpend]
    exact hpart hend hlive
  · rw [if_neg hend, if_pos hopen.kind]
    have hopen' : Dson.IsOpen e { d with
        offset := d.offset + n
        copyIter := mapBegin children
        state := .copyingData } ts := hopen.congr rfl rfl rfl
    obtain ⟨r, o', s'', hout, hhand⟩ := Dson.copyData_handsOut hopen' rfl hsorted
      (copyMap_handsOut_begin hcopy m s' hall hsorted hlt hfuel)
    refine ⟨r, o', s'', hout, hfollow (le_antisymm hle (not_lt.mp hend)) ?_⟩
    rwa [DsonObj.pendingsFrom_begin] at hhand

/-- The header of a container gets its size and its order. -/
theorem Dson.prepareCopy_open {d : Dson} {children : ObjMap} {ts : Forest} (hopen : d.IsOpen e ts)
    (hall : SendableAll e children ts) (hlt : Forest.size ts < 2 ^ 31) (network : Bool) (m : Mem) :
    d.prepareCopy e network children m = some ({ d with
      headerBuf := (d.headerBuf.setDataSize e (Forest.size ts)).toOrder e network
      offset := 0, state := .copyingHeader }, children, m) := by
  have hlocal := hopen.headerIsLocal
  have hsize : DsonObj.dataSize e m (.dson d children) = some (Forest.size ts : Int) := by
    simp only [DsonObj.dataSize, hopen.kind, Dson.inner, hopen.buf, hall.dataSizes m hlt]
  simp only [Dson.prepareCopy, Dson.isHostOrder, Dson.isNetworkOrder, Dson.header_local hlocal, Option.map_some,
    Option.bind_eq_bind, Option.bind_some]
  rw [if_neg (by simp [hopen.kind])]
  simp only [Option.bind_some, hopen.kind, if_true, hsize, Dson.setDataSizeInternal_local hlocal]
  rw [if_neg (by simp), Dson.headerToOrder_local (by exact hlocal)]
  rfl

theorem Dson.copyInternal_handsOut (hcopy : HandsOutBelow e network fuel copy) {d : Dson} {children : ObjMap} {ts : Forest}
    (m : Mem) (s : σ) (ho : Outgoing e (.dson d children) (.node ts)) (hlt : Forest.size ts < 2 ^ 31)
    (hfuel : DsonObj.depths children ≤ fuel) :
    HandsOut e network (.node ts) ((DsonObj.dson d children).pending e network) m s
      (d.copyInternal e copy network children m s) := by
  rw [Outgoing] at ho
  obtain ⟨hopen, hsorted, ⟨hstate | ⟨hstate, hoff⟩, hall⟩ | ⟨hstate, key, hit, -, hfrom⟩⟩ := ho
  · have hopen' : Dson.IsOpen e { d with
        headerBuf := (d.headerBuf.setDataSize e (Forest.size ts)).toOrder e network
        offset := 0, state := .copyingHeader } ts := hopen.prepared network rfl rfl rfl
    have hhands := Dson.copyHeader_handsOut hcopy m s hopen' rfl (Nat.zero_lt_succ _) hall hsorted hlt hfuel
    rw [List.drop_zero] at hhands
    have hpend : (DsonObj.dson d children).pending e network =
        ((d.headerBuf.setDataSize e (Forest.size ts)).toOrder e network).bytes ++ DsonObj.pendings e network children := by
      simp only [DsonObj.pending, hstate, hopen.kind, hall.wires_length network]
    rw [hpend]
    simp only [Dson.copyInternal, hstate, Dson.prepareCopy_open hopen hall hlt, Option.bind_eq_bind, Option.bind_some]
    exact hhands
  · simp only [Dson.copyInternal, hstate, DsonObj.pending, hopen.kind]
    exact Dson.copyHeader_handsOut hcopy m s hopen hstate hoff hall hsorted hlt hfuel
  · have hmap := copyMap_handsOut_node hcopy m s hfrom hsorted hlt hfuel
    rw [← hit] at hmap
    simp only [Dson.copyInternal, hstate, DsonObj.pending, hopen.kind]
    exact Dson.copyData_handsOut hopen hstate hsorted hmap

theorem copyFuel_handsOut (fuel : Nat) : HandsOutBelow (σ := σ) e network fuel (DsonObj.copyFuel e network fuel) := by
  induction fuel with
  | zero =>
      intro o t m s _ _ hfuel
      cases o <;> simp [DsonObj.depth] at hfuel
  | succ fuel ih =>
      intro o t m s ho hlt hfuel
      cases t with
      | leaf v =>
          obtain ⟨k, ho⟩ := outgoing_leaf.mp ho
          have hemits : Emits e network o k (.leaf v) m s (DsonObj.copyFuel e network (fuel + 1) o m s) :=
            copyFuel_emits (fuel + 1) m s ho hlt hfuel
          obtain ⟨r, o', s', hout, -, hhand⟩ := hemits
          exact ⟨r, o', s', hout, hhand.imp (fun _ _ => trivial)
            (fun _ h => ⟨outgoing_leaf.mpr ⟨k, h.1⟩, rfl⟩) fun _ _ _ _ _ => trivial⟩
      | node ts =>
          cases o with
          | string s => exact ho.elim
          | route r => exact ho.elim
          | dson d children =>
              rw [DsonObj.depth] at hfuel
              rw [Tree.size] at hlt
              exact Dson.copyInternal_handsOut ih m s ho (by omega) (by omega)

/-- One call of an incremental emitter. -/
theorem Outgoing.copyTo {o : DsonObj} {t : Tree} (h : Outgoing e o t) (hlt : t.size < 2 ^ 31) (network : Bool) (m : Mem)
    (s : σ) : HandsOut e network t (o.pending e network) m s (o.copyTo e network m s) :=
  copyFuel_handsOut o.depth m s h hlt le_rfl

/-- The incremental emitters, as resumable calls on an object with its memory. -/
theorem copyCall_handsOut {t : Tree} (hlt : t.size < 2 ^ 31) (network : Bool) (m : Mem) :
    Resumable (σ := σ) (DsonObj.copyCall e network) (fun p => p.2 = m ∧ Outgoing e p.1 t) (fun p => p.2 = m)
      (fun p => p.1.pending e network) fun _ _ _ => True where
  step := by
    rintro ⟨o, m'⟩ s ⟨rfl, ho⟩
    obtain ⟨r, o', s', hout, hhand⟩ := ho.copyTo hlt network m' s
    refine ⟨r, (o', m'), s', ?_, hhand.imp (fun _ _ => rfl) (fun _ h => ⟨⟨rfl, h⟩, rfl⟩) fun _ _ _ _ h => h⟩
    rw [DsonObj.copyCall, hout]
    rfl

end

/-! ### The stream emitter -/

/-- What the loop asks of the emitter of the children. -/
def StreamsWireBelow (e : Endian) (network : Bool) (fuel : Nat)
    (copy : DsonObj → Mem → Option (DsonObj × Mem × Bytes)) : Prop :=
  ∀ {o : DsonObj} {t : Tree} (m : Mem), Sendable e o t → t.size < 2 ^ 31 → o.depth ≤ fuel →
    ∃ o', copy o m = some (o', m, o.wire e network)

theorem streamMap_wires {fuel : Nat} {copy : DsonObj → Mem → Option (DsonObj × Mem × Bytes)}
    (hcopy : StreamsWireBelow e network fuel copy) {children : ObjMap} {ts : Forest} (m : Mem)
    (hall : SendableAll e children ts) (hlt : Forest.size ts < 2 ^ 31) (hfuel : DsonObj.depths children ≤ fuel) :
    ∃ children', Dson.streamMap copy children m = some (children', m, DsonObj.wires e network children) := by
  induction children generalizing ts with
  | nil => exact ⟨[], rfl⟩
  | cons p rest ih =>
      obtain ⟨k, o⟩ := p
      cases ts with
      | nil => exact hall.elim
      | cons q ts =>
          rw [SendableAll] at hall
          rw [Forest.size] at hlt
          rw [DsonObj.depths] at hfuel
          obtain ⟨o', hout⟩ := hcopy m hall.1 (by omega) (by omega)
          obtain ⟨rest', hout'⟩ := ih hall.2 (by omega) (by omega)
          refine ⟨(k, o') :: rest', ?_⟩
          rw [Dson.streamMap, hout]
          simp only [Option.bind_eq_bind, Option.bind_some, hout', DsonObj.wires]
          rfl

theorem Dson.streamInternal_wire {fuel : Nat} {copy : DsonObj → Mem → Option (DsonObj × Mem × Bytes)}
    (hcopy : StreamsWireBelow e network fuel copy) {d : Dson} {children : ObjMap} {ts : Forest} (m : Mem)
    (ho : Sendable e (.dson d children) (.node ts)) (hlt : (Tree.node ts).size < 2 ^ 31)
    (hfuel : DsonObj.depths children ≤ fuel) :
    ∃ o', d.streamInternal e copy network children m = some (o', m, (DsonObj.dson d children).wire e network) := by
  have hsize := ho.dataSize m hlt
  have hwire : (Tree.node ts).size - (headerSize : Int) = Forest.size ts := by
    rw [Tree.size]
    simp
  rw [hwire] at hsize
  rw [Sendable] at ho
  obtain ⟨hstate, hopen, -, hall⟩ := ho
  rw [Tree.size] at hlt
  have hlocal := hopen.headerIsLocal
  have hinner : ∀ h, Dson.inner { d with headerBuf := h } m = m := fun h => by simp only [Dson.inner, hopen.buf]
  have houter : ∀ h inside, Dson.outer { d with headerBuf := h } m inside = ({ d with headerBuf := h }, inside) :=
    fun h inside => by simp only [Dson.outer, hopen.buf]
  obtain ⟨children', hout⟩ := streamMap_wires hcopy m hall (by omega) hfuel
  rw [Dson.streamInternal_ready hstate (by simp [hopen.kind]), Dson.streamKind_container hopen.kind, hsize,
    Dson.headerToOrder_local hlocal]
  simp only [Option.bind_eq_bind, Option.bind_some]
  rw [Dson.streamHeader, if_pos (by exact hopen.kind), Dson.setDataSizeInternal_local (by exact hlocal)]
  simp only [Option.bind_eq_bind, Option.bind_some, Option.pure_def]
  rw [Dson.header_local (by exact hlocal), Option.bind_some, Option.bind_some, hinner, hout]
  simp only [Option.bind_some, houter, ← hopen.setDataSize_toOrder]
  simp only [DsonObj.wire, hopen.kind, hall.wires_length network]
  exact ⟨_, rfl⟩

theorem streamFuel_wire (fuel : Nat) : StreamsWireBelow e network fuel (DsonObj.streamFuel e network fuel) := by
  induction fuel with
  | zero =>
      intro o t m _ _ hfuel
      cases o <;> simp [DsonObj.depth] at hfuel
  | succ fuel ih =>
      intro o t m ho hlt hfuel
      cases t with
      | leaf v =>
          obtain ⟨k, ho⟩ := sendable_leaf.mp ho
          have hstreams : Streams e network o k (.leaf v) m (DsonObj.streamFuel e network (fuel + 1) o m) :=
            streamFuel_streams (fuel + 1) m ho hfuel
          obtain ⟨o', hout, -⟩ := hstreams
          exact ⟨o', hout⟩
      | node ts =>
          cases o with
          | string s => exact ho.elim
          | route r => exact ho.elim
          | dson d children =>
              rw [DsonObj.depth] at hfuel
              exact Dson.streamInternal_wire ih m ho hlt (by omega)

/-- The stream emitter appends the whole encoding. -/
theorem Sendable.copyToStream {o : DsonObj} {t : Tree} (h : Sendable e o t) (hlt : t.size < 2 ^ 31) (network : Bool)
    (m : Mem) : ∃ o', o.copyToStream e network m = some (o', m, o.wire e network) :=
  streamFuel_wire o.depth m h hlt le_rfl

/-! ### Runs -/

/-- A run over willing sinks hands over the encoding, or a first part of it. -/
theorem Sendable.copyRun {σ : Type} [ByteSink σ] {o : DsonObj} {t : Tree} (h : Sendable e o t) (hlt : t.size < 2 ^ 31)
    (network : Bool) (m : Mem) {ss : List σ} (hss : ∀ s ∈ ss, Willing s ∧ written s = []) :
    ∃ r o' bs, o.copyRun e network m ss = some (r, (o', m), bs) ∧
      (r = .inProcess ∨ r = .ready ∧ bs = o.wire e network) := by
  obtain ⟨r, ⟨o', m'⟩, bs, hrun, hcases⟩ := (copyCall_handsOut hlt network m).run
    (⟨rfl, h.outgoing⟩ : (o, m).2 = m ∧ _) hss
  rw [h.pending] at hcases
  rcases hcases with ⟨hr, rfl, hbs⟩ | ⟨hr, ⟨rfl, -⟩, -⟩
  · exact ⟨r, o', bs, hrun, Or.inr ⟨hr, hbs.symm⟩⟩
  · exact ⟨r, o', bs, hrun, Or.inl hr⟩

/-- Over sinks that always take something a run ends. -/
theorem Sendable.copyRun_completes {σ : Type} [ByteSink σ] {o : DsonObj} {t : Tree} (h : Sendable e o t)
    (hlt : t.size < 2 ^ 31) (network : Bool) (m : Mem) {ss : List σ}
    (hss : ∀ s ∈ ss, Willing s ∧ written s = [] ∧ Eager s) (hlen : t.size ≤ ss.length) :
    ∃ o', o.copyRun e network m ss = some (.ready, (o', m), o.wire e network) := by
  obtain ⟨⟨o', m'⟩, hrun, rfl⟩ := (copyCall_handsOut hlt network m).completes
    (⟨rfl, h.outgoing⟩ : (o, m).2 = m ∧ _) (fun hlive => hlive.2.pending_ne_nil network) hss
      (by rw [h.pending, h.wire_length]; exact hlen)
  rw [h.pending] at hrun
  exact ⟨o', hrun⟩

end

end LeanDson
