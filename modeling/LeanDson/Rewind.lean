import LeanDson.Failure

/-! Interrupted copies that are rewound. `reset_state` puts a container back to its first byte, but not its
children: what is emitted next is the encoding in the order asked for if and only if no child has handed over
anything, or has been prepared in the other order. -/

namespace LeanDson

open ByteSink

/-! ### Interruptions -/

/-- One call of an incremental emitter, in one of the orders and over one of the sinks. -/
inductive CopyStep where
  | fd (network : Bool) (counts : List Nat)
  | buf (network : Bool) (room : Nat)

namespace DsonObj

def copyStep (e : Endian) (o : DsonObj) (m : Mem) : CopyStep → Option (Result × DsonObj × Mem)
  | .fd network counts => (o.copyTo e network m (FdOut.fresh (counts.map some))).map fun (r, o, m, _) => (r, o, m)
  | .buf network room => (o.copyTo e network m (BufOut.fresh room)).map fun (r, o, m, _) => (r, o, m)

/-- Steps all of which leave the copy in process. -/
def interrupt (e : Endian) : List CopyStep → DsonObj → Mem → Option (DsonObj × Mem)
  | [], o, m => some (o, m)
  | step :: steps, o, m => do
      let (r, o, m) ← o.copyStep e m step
      if r = .inProcess then interrupt e steps o m else none

/-- `reset_state`. -/
def resetState : DsonObj → DsonObj
  | .dson d children => .dson (d.resetState children).1 (d.resetState children).2
  | .string s => .string { s with state := .ready }
  | .route r => .route { r with state := .ready }

end DsonObj

mutual

/-- Nothing of the object has been handed over, although its header may have been prepared. -/
def DsonObj.Unstarted : DsonObj → Prop
  | .dson d children => (d.state = .ready ∨ d.state = .copyingHeader ∧ d.offset = 0) ∧ DsonObj.UnstartedAll children
  | .string s => s.state = .ready ∨ s.state = .copyingHeader ∧ s.offset = 0
  | .route r => r.state = .ready ∨ r.state = .copyingHeader ∧ r.offset = 0

def DsonObj.UnstartedAll : ObjMap → Prop
  | [] => True
  | (_, o) :: rest => o.Unstarted ∧ DsonObj.UnstartedAll rest

end

/-- The header stands in an order: the conversion that prepares a copy leaves it alone. -/
def Dson.StandsIn (e : Endian) (network : Bool) (d : Dson) : Prop :=
  d.headerBuf.inOrder e network ∨
    d.dsonKind = .oneObjectInDataBuf ∧ converterTo e network (d.headerBuf.dataTypeOf e) = none

mutual

/-- Nothing of the object has been handed over, and its header has not been prepared in the other order. -/
def DsonObj.Untouched (e : Endian) (network : Bool) : DsonObj → Prop
  | .dson d children =>
      (d.state = .ready ∨ d.state = .copyingHeader ∧ d.offset = 0 ∧ d.StandsIn e network) ∧
        DsonObj.UntouchedAll e network children
  | .string s => s.state = .ready ∨ s.state = .copyingHeader ∧ s.offset = 0 ∧ s.header.inOrder e network
  | .route r => r.state = .ready ∨ r.state = .copyingHeader ∧ r.offset = 0 ∧ r.header.inOrder e network

def DsonObj.UntouchedAll (e : Endian) (network : Bool) : ObjMap → Prop
  | [] => True
  | (_, o) :: rest => o.Untouched e network ∧ DsonObj.UntouchedAll e network rest

end

/-- The children of a container, apart from one that is about to be replaced. -/
def DsonObj.ChildrenUntouched (e : Endian) (network : Bool) (replaced : Option Int) : DsonObj → Prop
  | .dson _ children => ∀ p ∈ children, some p.1 ≠ replaced → p.2.Untouched e network
  | _ => True

/-- The complete encoding of an object in an order: a header in that order, as many bytes as it announces, and the
reference decoder reads the tree from it. -/
def Complete (e : Endian) (network : Bool) (o : DsonObj) (k : Int) (t : Tree) (bs : Bytes) : Prop :=
  bs = o.wire e network ∧ ∃ h body, Header.read bs = some (h, body) ∧ h.inOrder e network ∧
    h.dataSizeOf e = body.length ∧ decodeMessage e bs = some (k, t.shown, [])

section

variable {e : Endian} {network : Bool}

theorem DsonObj.untouchedAll_iff {children : ObjMap} :
    DsonObj.UntouchedAll e network children ↔ ∀ p ∈ children, p.2.Untouched e network := by
  induction children with
  | nil => simp [DsonObj.UntouchedAll]
  | cons p rest ih => rw [DsonObj.UntouchedAll, ih, List.forall_mem_cons]

mutual

theorem DsonObj.Untouched.unstarted : ∀ {o : DsonObj}, o.Untouched e network → o.Unstarted
  | .dson _ _, h => by
      rw [DsonObj.Untouched] at h
      rw [DsonObj.Unstarted]
      exact ⟨h.1.imp_right fun hprepared => ⟨hprepared.1, hprepared.2.1⟩, DsonObj.UntouchedAll.unstartedAll h.2⟩
  | .string _, h => by
      rw [DsonObj.Untouched] at h
      exact h.imp_right fun hprepared => ⟨hprepared.1, hprepared.2.1⟩
  | .route _, h => by
      rw [DsonObj.Untouched] at h
      exact h.imp_right fun hprepared => ⟨hprepared.1, hprepared.2.1⟩

theorem DsonObj.UntouchedAll.unstartedAll : ∀ {children : ObjMap}, DsonObj.UntouchedAll e network children →
    DsonObj.UnstartedAll children
  | [], _ => trivial
  | (_, _) :: _, h => by
      rw [DsonObj.UntouchedAll] at h
      exact ⟨h.1.unstarted, DsonObj.UntouchedAll.unstartedAll h.2⟩

end

/-! ### Lengths -/

mutual

/-- No more than the whole encoding is still to come. -/
theorem Emittable.pending_length_le (network : Bool) : ∀ {o : DsonObj} {k : Int} {t : Tree}, Emittable e o k t →
    (o.pending e network).length ≤ t.size
  | .dson d children, k, .leaf v, h => by
      have hwire := h.wire_length network
      rw [Emittable] at h
      obtain ⟨rfl, block, hown, hl, hstate | ⟨hstate, -⟩ | ⟨hstate, -⟩⟩ := h
      · simp only [DsonObj.pending, hstate, hown.kind, hwire]
        exact le_rfl
      · simp only [DsonObj.pending, hstate, hown.kind, hown.buf, List.length_append, List.length_drop,
          Header.bytes_length, Tree.size, headerSize, hl.length_eq]
        omega
      · simp only [DsonObj.pending, hstate, hown.kind, hown.buf, List.length_drop, Tree.size, hl.length_eq]
        omega
  | .dson d children, k, .node ts, h => by
      rw [Emittable] at h
      obtain ⟨hnode, -, ⟨hstate, hall⟩ | ⟨hstate, -, -, hall⟩ | ⟨hstate, key, hit, -, hfrom⟩⟩ := h
      · have hle := hall.pendings_length_le network
        simp only [DsonObj.pending, hstate, hnode.kind, List.length_append, Header.bytes_length, Tree.size, headerSize]
        omega
      · have hle := hall.pendings_length_le network
        simp only [DsonObj.pending, hstate, hnode.kind, List.length_append, List.length_drop, Header.bytes_length,
          Tree.size, headerSize]
        omega
      · have hle := hfrom.pendingsFrom_length_le network
        simp only [DsonObj.pending, hstate, hnode.kind, hit, Tree.size]
        omega
  | .string s, k, .leaf v, h => by
      have hwire := h.wire_length network
      rw [Emittable] at h
      obtain ⟨-, hl, -, hstate | ⟨hstate, -⟩ | ⟨hstate, -⟩⟩ := h
      · simp only [DsonObj.pending, hstate, hwire]
        exact le_rfl
      · simp only [DsonObj.pending, hstate, List.length_append, List.length_drop, Header.bytes_length, Tree.size,
          headerSize, hl.length_eq]
        omega
      · simp only [DsonObj.pending, hstate, List.length_drop, Tree.size, hl.length_eq]
        omega
  | .route r, k, .leaf v, h => by
      have hwire := h.wire_length network
      rw [Emittable] at h
      obtain ⟨hl, -, hstate | ⟨hstate, -⟩⟩ := h
      · simp only [DsonObj.pending, hstate, hwire]
        exact le_rfl
      · simp only [DsonObj.pending, hstate, List.length_drop, Tree.size, hl.length_eq]
        exact (Nat.sub_le _ _).trans (le_of_eq List.length_append)
  | .string _, _, .node _, h => h.elim
  | .route _, _, .node _, h => h.elim

theorem EmittableAll.pendings_length_le (network : Bool) : ∀ {children : ObjMap} {ts : Forest},
    EmittableAll e children ts → (DsonObj.pendings e network children).length ≤ Forest.size ts
  | [], [], _ => le_rfl
  | (k, o) :: rest, (k', t) :: ts, h => by
      rw [EmittableAll] at h
      have ho := h.2.1.pending_length_le network
      have hrest := h.2.2.pendings_length_le network
      rw [DsonObj.pendings, List.length_append, Forest.size]
      omega
  | [], _ :: _, h => h.elim
  | _ :: _, [], h => h.elim

theorem EmittableFrom.pendingsFrom_length_le (network : Bool) : ∀ {key : Int} {children : ObjMap} {ts : Forest},
    EmittableFrom e key children ts →
      (DsonObj.pendingsFrom e network (.node key) children).length ≤ Forest.size ts
  | key, (k, o) :: rest, (k', t) :: ts, h => by
      rw [EmittableFrom] at h
      rw [DsonObj.pendingsFrom, Forest.size]
      obtain ⟨-, ⟨hlt, -, hfrom⟩ | ⟨rfl, ho, hall⟩⟩ := h
      · have hle := hfrom.pendingsFrom_length_le network
        rw [if_pos hlt]
        omega
      · have hle := ho.pending_length_le network
        have hrest := hall.pendings_length_le network
        rw [if_neg (lt_irrefl k), List.length_append]
        omega
  | _, [], [], h => h.elim
  | _, [], _ :: _, h => h.elim
  | _, _ :: _, [], h => h.elim

end

/-! ### Whole encodings -/

theorem Header.drop_bytes_length (h : Header) (off : Nat) : (h.bytes.drop off).length = 16 - off := by
  rw [List.length_drop, Header.bytes_length]

mutual

/-- A whole encoding is still to come of exactly those objects that have not handed over anything. -/
theorem Emittable.unstarted_iff (network : Bool) : ∀ {o : DsonObj} {k : Int} {t : Tree}, Emittable e o k t →
    ((o.pending e network).length = t.size ↔ o.Unstarted)
  | .dson d children, k, .leaf v, h => by
      have hwire := h.wire_length network
      rw [Emittable] at h
      obtain ⟨rfl, block, hown, hl, hstate | ⟨hstate, hoff⟩ | ⟨hstate, hoff⟩⟩ := h
      · simp only [DsonObj.pending, hstate, hown.kind, hwire, DsonObj.Unstarted, DsonObj.UnstartedAll, true_or,
          and_self]
      · simp only [DsonObj.pending, hstate, hown.kind, hown.buf, List.length_append, Header.drop_bytes_length,
          Tree.size, headerSize, hl.length_eq, DsonObj.Unstarted, DsonObj.UnstartedAll]
        simp only [headerSize] at hoff
        simp only [reduceCtorEq, false_or, true_and, and_true]
        omega
      · simp only [DsonObj.pending, hstate, hown.kind, hown.buf, List.length_drop, Tree.size, headerSize,
          hl.length_eq, DsonObj.Unstarted, reduceCtorEq, false_and, or_self, iff_false]
        omega
  | .dson d children, k, .node ts, h => by
      rw [Emittable] at h
      obtain ⟨hnode, -, ⟨hstate, hall⟩ | ⟨hstate, hoff, -, hall⟩ | ⟨hstate, key, hit, -, hfrom⟩⟩ := h
      · rw [DsonObj.Unstarted, ← hall.unstartedAll_iff network]
        simp only [DsonObj.pending, hstate, hnode.kind, List.length_append, Header.bytes_length, Tree.size,
          headerSize, true_or, true_and]
        omega
      · have hup := hall.pendings_length_le network
        rw [DsonObj.Unstarted, ← hall.unstartedAll_iff network]
        simp only [DsonObj.pending, hstate, hnode.kind, List.length_append, Header.drop_bytes_length, Tree.size,
          headerSize, reduceCtorEq, false_or, true_and]
        omega
      · have hup := hfrom.pendingsFrom_length_le network
        simp only [DsonObj.pending, hstate, hnode.kind, hit, Tree.size, headerSize, DsonObj.Unstarted, reduceCtorEq,
          false_and, or_self, iff_false]
        omega
  | .string s, k, .leaf v, h => by
      have hwire := h.wire_length network
      rw [Emittable] at h
      obtain ⟨-, hl, -, hstate | ⟨hstate, -⟩ | ⟨hstate, -⟩⟩ := h
      · simp only [DsonObj.pending, hstate, hwire, DsonObj.Unstarted, true_or]
      · simp only [DsonObj.pending, hstate, List.length_append, Header.drop_bytes_length, Tree.size, headerSize,
          hl.length_eq, DsonObj.Unstarted, reduceCtorEq, false_or, true_and]
        omega
      · simp only [DsonObj.pending, hstate, List.length_drop, Tree.size, headerSize, hl.length_eq,
          DsonObj.Unstarted, reduceCtorEq, false_and, or_self, iff_false]
        omega
  | .route r, k, .leaf v, h => by
      have hwire := h.wire_length network
      rw [Emittable] at h
      obtain ⟨hl, -, hstate | ⟨hstate, -⟩⟩ := h
      · simp only [DsonObj.pending, hstate, hwire, DsonObj.Unstarted, true_or]
      · have hlen : r.bytes.length = 16 + r.address.bytes.length := List.length_append
        simp only [DsonObj.pending, hstate, List.length_drop, Tree.size, headerSize, hl.length_eq,
          DsonObj.Unstarted, reduceCtorEq, false_or, true_and]
        omega
  | .string _, _, .node _, h => h.elim
  | .route _, _, .node _, h => h.elim

theorem EmittableAll.unstartedAll_iff (network : Bool) : ∀ {children : ObjMap} {ts : Forest},
    EmittableAll e children ts →
      ((DsonObj.pendings e network children).length = Forest.size ts ↔ DsonObj.UnstartedAll children)
  | [], [], _ => by simp [DsonObj.pendings, Forest.size, DsonObj.UnstartedAll]
  | (k, o) :: rest, (k', t) :: ts, h => by
      rw [EmittableAll] at h
      have hup := h.2.1.pending_length_le network
      have hrest := h.2.2.pendings_length_le network
      rw [DsonObj.pendings, List.length_append, Forest.size, DsonObj.UnstartedAll, ← h.2.1.unstarted_iff network,
        ← h.2.2.unstartedAll_iff network]
      omega
  | [], _ :: _, h => h.elim
  | _ :: _, [], h => h.elim

end

mutual

/-- The decoder reads what is still to come of an object that has not handed over anything. -/
theorem Emittable.decode_pending (network : Bool) : ∀ {o : DsonObj} {k : Int} {t : Tree}, Emittable e o k t →
    o.Unstarted → t.size < 2 ^ 31 → ∀ {n : Nat}, t.depth ≤ n + 1 → ∀ rest : Bytes,
      decode e (n + 1) (o.pending e network ++ rest) = some (k, t.shown, rest)
  | .dson d children, k, .leaf v, h, hfresh, hlt, n, hn, rest => by
      rw [Emittable] at h
      rw [DsonObj.Unstarted] at hfresh
      obtain ⟨rfl, block, hown, hl, -⟩ := h
      rcases hfresh.1 with hstate | ⟨hstate, hoff⟩
      · obtain ⟨h', b', hconv, hl', -⟩ := hl.convert network
        simp only [DsonObj.pending, hstate, DsonObj.wire, hown.kind, hown.buf, hconv]
        exact decode_leaf hl' n rest
      · simp only [DsonObj.pending, hstate, hown.kind, hown.buf, hoff, List.drop_zero]
        exact decode_leaf hl n rest
  | .dson d children, k, .node ts, h, hfresh, hlt, n, hn, rest => by
      rw [Emittable] at h
      rw [DsonObj.Unstarted] at hfresh
      rw [Tree.size, headerSize] at hlt
      rw [Tree.depth] at hn
      have hrecs : ∀ {children : ObjMap}, EmittableAll e children ts → DsonObj.UnstartedAll children →
          (DsonObj.pendings e network children).length = Forest.size ts ∧ ∀ n', n = n' + 1 →
            decodeRecords (decode e (n' + 1)) (DsonObj.pendings e network children).length
              (DsonObj.pendings e network children) = some (Forest.shown ts) := by
        intro children hall hunstarted
        refine ⟨(hall.unstartedAll_iff network).mpr hunstarted, ?_⟩
        rintro n' rfl
        exact hall.decode_pendings network hunstarted (by omega) (by omega) le_rfl
      obtain ⟨hnode, -, ⟨hstate, hall⟩ | ⟨hstate, -, hsize, hall⟩ | ⟨hstate, -⟩⟩ := h
      · obtain ⟨hlen, hdec⟩ := hrecs hall hfresh.2
        have hwires := hall.wires_length network
        obtain ⟨hs, hk, ht⟩ := hnode.header (DsonObj.wires e network children).length
          (by simp only [IsInt32]; omega) network
        have hmark : (d.headerBuf.setDataSize e (DsonObj.wires e network children).length).ValidMark e :=
          (Header.validMark_congr rfl).mp hnode.mark
        simp only [DsonObj.pending, hstate, hnode.kind]
        exact decode_container (Header.toOrder_valid hmark network) (by rw [hs, hwires, hlen]) hk ht hlen
          (by omega) hdec rest
      · obtain ⟨hlen, hdec⟩ := hrecs hall hfresh.2
        obtain ⟨-, hoff⟩ : d.state = .copyingHeader ∧ d.offset = 0 := by
          simpa [hstate] using hfresh.1
        simp only [DsonObj.pending, hstate, hnode.kind, hoff, List.drop_zero]
        exact decode_container hnode.mark (by rw [hsize, hlen]) hnode.key hnode.type hlen (by omega) hdec rest
      · simp [hstate] at hfresh
  | .string s, k, .leaf v, h, hfresh, _, n, _, rest => by
      rw [Emittable] at h
      rw [DsonObj.Unstarted] at hfresh
      obtain ⟨-, hl, ht, -⟩ := h
      rcases hfresh with hstate | ⟨hstate, hoff⟩
      · simp only [DsonObj.pending, hstate]
        exact decode_leaf (hl.toOrder_string ht network) n rest
      · simp only [DsonObj.pending, hstate, hoff, List.drop_zero]
        exact decode_leaf hl n rest
  | .route r, k, .leaf v, h, hfresh, _, n, _, rest => by
      rw [Emittable] at h
      rw [DsonObj.Unstarted] at hfresh
      obtain ⟨hl, ht, -⟩ := h
      rcases hfresh with hstate | ⟨hstate, hoff⟩
      · simp only [DsonObj.pending, hstate]
        exact decode_leaf (hl.route_toOrder ht network) n rest
      · simp only [DsonObj.pending, hstate, hoff, List.drop_zero]
        exact decode_leaf hl n rest
  | .string _, _, .node _, h, _, _, _, _, _ => h.elim
  | .route _, _, .node _, h, _, _, _, _, _ => h.elim

theorem EmittableAll.decode_pendings (network : Bool) : ∀ {children : ObjMap} {ts : Forest},
    EmittableAll e children ts → DsonObj.UnstartedAll children → Forest.size ts < 2 ^ 31 → ∀ {n : Nat},
      Forest.depth ts ≤ n + 1 → ∀ {fuel : Nat}, (DsonObj.pendings e network children).length ≤ fuel →
        decodeRecords (decode e (n + 1)) fuel (DsonObj.pendings e network children) = some (Forest.shown ts)
  | [], [], _, _, _, _, _, fuel, _ => by cases fuel <;> rfl
  | (k, o) :: rest, (k', t) :: ts, h, hfresh, hlt, n, hn, fuel, hfuel => by
      rw [EmittableAll] at h
      rw [DsonObj.UnstartedAll] at hfresh
      rw [Forest.size] at hlt
      rw [Forest.depth] at hn
      obtain ⟨rfl, ho, hrest⟩ := h
      have hpos := List.length_pos_iff.mpr (ho.pending_ne_nil network)
      rw [DsonObj.pendings] at hfuel ⊢
      rw [List.length_append] at hfuel
      obtain ⟨fuel, rfl⟩ : ∃ f, fuel = f + 1 := ⟨fuel - 1, by omega⟩
      rw [decodeRecords_append (ho.decode_pending network hfresh.1 (by omega) (by omega) _) (ho.pending_ne_nil network),
        hrest.decode_pendings network hfresh.2 (by omega) (by omega) (by omega)]
      rfl
  | [], _ :: _, h, _, _, _, _, _, _ => h.elim
  | _ :: _, [], h, _, _, _, _, _, _ => h.elim

end

/-! ### The order asked for -/

/-- A header and a payload that stand in front of the same bytes. -/
theorem Header.bytes_append_inj {h h' : Header} {b b' : Bytes} (heq : h.bytes ++ b = h'.bytes ++ b') :
    h = h' ∧ b = b' := by
  obtain ⟨hh, hb⟩ := List.append_inj heq (by rw [Header.bytes_length, Header.bytes_length])
  exact ⟨Header.bytes_inj hh, hb⟩

/-- A header that a conversion leaves alone stands in the order of the conversion. -/
theorem Header.toOrder_eq_iff {h : Header} (hv : h.ValidMark e) : h.toOrder e network = h ↔ h.inOrder e network := by
  constructor
  · intro heq
    rw [← heq]
    exact Header.inOrder_toOrder hv network
  · exact Header.toOrder_of_inOrder

mutual

/-- An object hands over its whole encoding in the order asked for exactly when it is untouched. -/
theorem Emittable.pending_eq_wire_iff (network : Bool) : ∀ {o : DsonObj} {k : Int} {t : Tree}, Emittable e o k t →
    (o.pending e network = o.wire e network ↔ o.Untouched e network)
  | .dson d children, k, .leaf v, h => by
      have hfull := h.unstarted_iff network
      have hwire := h.wire_length network
      rw [Emittable] at h
      obtain ⟨rfl, block, hown, hl, hstate | ⟨hstate, hoff⟩ | ⟨hstate, hoff⟩⟩ := h
      · simp only [DsonObj.pending, hstate, hown.kind, DsonObj.Untouched, DsonObj.UntouchedAll, true_or, and_self]
      · obtain ⟨h', b', hconv, hl', -⟩ := hl.convert network
        have hpending : (DsonObj.dson d []).pending e network = d.headerBuf.bytes.drop d.offset ++ block := by
          simp only [DsonObj.pending, hstate, hown.kind, hown.buf]
        have hwire' : (DsonObj.dson d []).wire e network = h'.bytes ++ b' := by
          simp only [DsonObj.wire, hown.kind, hown.buf, hconv]
        constructor
        · intro heq
          have hunstarted := hfull.mp (by rw [heq, hwire])
          rw [DsonObj.Unstarted] at hunstarted
          obtain ⟨-, hzero⟩ : d.state = .copyingHeader ∧ d.offset = 0 := by
            simpa [hstate] using hunstarted.1
          rw [hpending, hwire', hzero, List.drop_zero] at heq
          obtain ⟨rfl, rfl⟩ := Header.bytes_append_inj heq
          refine ⟨Or.inr ⟨hstate, hzero, ?_⟩, trivial⟩
          by_cases hin : d.headerBuf.inOrder e network
          · exact Or.inl hin
          refine Or.inr ⟨hown.kind, ?_⟩
          cases hc : converterTo e network (d.headerBuf.dataTypeOf e) with
          | none => rfl
          | some c =>
              rw [convertRecord_some hin hc] at hconv
              obtain ⟨b, -, hpair⟩ := Option.map_eq_some_iff.mp hconv
              exact absurd ((Header.toOrder_eq_iff hl.mark).mp (Prod.mk.inj hpair).1) hin
        · rintro ⟨hready | ⟨-, hzero, hin | ⟨-, hnone⟩⟩, -⟩
          · simp [hstate] at hready
          · rw [convertRecord_inOrder hin] at hconv
            cases hconv
            rw [hpending, hwire', hzero, List.drop_zero]
          · rw [convertRecord_none hnone] at hconv
            cases hconv
            rw [hpending, hwire', hzero, List.drop_zero]
      · constructor
        · intro heq
          have hunstarted := hfull.mp (by rw [heq, hwire])
          simp [DsonObj.Unstarted, hstate] at hunstarted
        · intro huntouched
          simp [DsonObj.Untouched, hstate] at huntouched
  | .dson d children, k, .node ts, h => by
      have hfull := h.unstarted_iff network
      have hwire := h.wire_length network
      rw [Emittable] at h
      obtain ⟨hnode, -, ⟨hstate, hall⟩ | ⟨hstate, hoff, hsize, hall⟩ | ⟨hstate, key, hit, -, hfrom⟩⟩ := h
      · rw [DsonObj.Untouched, ← hall.pendings_eq_wires_iff network]
        simp only [DsonObj.pending, DsonObj.wire, hstate, hnode.kind, List.append_cancel_left_eq, true_or, true_and]
      · have hset : d.headerBuf.setDataSize e (DsonObj.wires e network children).length = d.headerBuf :=
          by rw [hall.wires_length network, ← hsize, Header.setDataSize_dataSizeOf]
        have hpending : (DsonObj.dson d children).pending e network =
            d.headerBuf.bytes.drop d.offset ++ DsonObj.pendings e network children := by
          simp only [DsonObj.pending, hstate, hnode.kind]
        have hwire' : (DsonObj.dson d children).wire e network =
            (d.headerBuf.toOrder e network).bytes ++ DsonObj.wires e network children := by
          simp only [DsonObj.wire, hnode.kind, hset]
        rw [DsonObj.Untouched, ← hall.pendings_eq_wires_iff network]
        constructor
        · intro heq
          have hunstarted := hfull.mp (by rw [heq, hwire])
          rw [DsonObj.Unstarted] at hunstarted
          obtain ⟨-, hzero⟩ : d.state = .copyingHeader ∧ d.offset = 0 := by
            simpa [hstate] using hunstarted.1
          rw [hpending, hwire', hzero, List.drop_zero] at heq
          obtain ⟨hheader, hrest⟩ := Header.bytes_append_inj heq
          exact ⟨Or.inr ⟨hstate, hzero, Or.inl ((Header.toOrder_eq_iff hnode.mark).mp hheader.symm)⟩, hrest⟩
        · rintro ⟨hready | ⟨-, hzero, hin | ⟨hkind, -⟩⟩, hrest⟩
          · simp [hstate] at hready
          · rw [hpending, hwire', hzero, List.drop_zero, hrest, Header.toOrder_of_inOrder hin]
          · rw [hnode.kind] at hkind
            cases hkind
      · constructor
        · intro heq
          have hunstarted := hfull.mp (by rw [heq, hwire])
          simp [DsonObj.Unstarted, hstate] at hunstarted
        · intro huntouched
          simp [DsonObj.Untouched, hstate] at huntouched
  | .string s, k, .leaf v, h => by
      have hfull := h.unstarted_iff network
      have hwire := h.wire_length network
      rw [Emittable] at h
      obtain ⟨-, hl, -, hstate | ⟨hstate, -⟩ | ⟨hstate, -⟩⟩ := h
      · simp only [DsonObj.pending, hstate, DsonObj.Untouched, true_or]
      · constructor
        · intro heq
          obtain ⟨-, hzero⟩ : s.state = .copyingHeader ∧ s.offset = 0 := by
            simpa [DsonObj.Unstarted, hstate] using hfull.mp (by rw [heq, hwire])
          simp only [DsonObj.pending, hstate, DsonObj.wire, hzero, List.drop_zero] at heq
          exact Or.inr ⟨hstate, hzero, (Header.toOrder_eq_iff hl.mark).mp (Header.bytes_append_inj heq).1.symm⟩
        · rintro (hready | ⟨-, hzero, hin⟩)
          · simp [hstate] at hready
          · simp only [DsonObj.pending, hstate, DsonObj.wire, hzero, List.drop_zero, Header.toOrder_of_inOrder hin]
      · constructor
        · intro heq
          have hunstarted := hfull.mp (by rw [heq, hwire])
          simp [DsonObj.Unstarted, hstate] at hunstarted
        · intro huntouched
          simp [DsonObj.Untouched, hstate] at huntouched
  | .route r, k, .leaf v, h => by
      have hfull := h.unstarted_iff network
      have hwire := h.wire_length network
      rw [Emittable] at h
      obtain ⟨hl, -, hstate | ⟨hstate, -⟩⟩ := h
      · simp only [DsonObj.pending, hstate, DsonObj.Untouched, true_or]
      · have horder : (r.toOrder e network).header = r.header.toOrder e network := by
          cases network <;> simp only [DsonRouteObj.toOrder, Header.toOrder, Header.toNetwork, Header.toHost,
            Bool.false_eq_true, if_true, if_false] <;> split_ifs <;> rfl
        constructor
        · intro heq
          obtain ⟨-, hzero⟩ : r.state = .copyingHeader ∧ r.offset = 0 := by
            simpa [DsonObj.Unstarted, hstate] using hfull.mp (by rw [heq, hwire])
          simp only [DsonObj.pending, hstate, DsonObj.wire, hzero, List.drop_zero, DsonRouteObj.bytes] at heq
          have hheader := (Header.bytes_append_inj heq).1
          rw [horder] at hheader
          exact Or.inr ⟨hstate, hzero, (Header.toOrder_eq_iff hl.mark).mp hheader.symm⟩
        · rintro (hready | ⟨-, hzero, hin⟩)
          · simp [hstate] at hready
          · simp only [DsonObj.pending, hstate, DsonObj.wire, hzero, List.drop_zero]
            have hsame : r.toOrder e network = r := by
              cases network <;> exact if_pos hin
            rw [hsame]
  | .string _, _, .node _, h => h.elim
  | .route _, _, .node _, h => h.elim

theorem EmittableAll.pendings_eq_wires_iff (network : Bool) : ∀ {children : ObjMap} {ts : Forest},
    EmittableAll e children ts →
      (DsonObj.pendings e network children = DsonObj.wires e network children ↔ DsonObj.UntouchedAll e network children)
  | [], [], _ => by simp [DsonObj.pendings, DsonObj.wires, DsonObj.UntouchedAll]
  | (k, o) :: rest, (k', t) :: ts, h => by
      rw [EmittableAll] at h
      rw [DsonObj.UntouchedAll, ← h.2.1.pending_eq_wire_iff network, ← h.2.2.pendings_eq_wires_iff network,
        DsonObj.pendings, DsonObj.wires]
      constructor
      · intro heq
        -- neither part can be longer than its encoding, so that both are as long
        have hup := h.2.1.pending_length_le network
        have hrest := h.2.2.pendings_length_le network
        have hlen := congrArg List.length heq
        rw [List.length_append, List.length_append, h.2.1.wire_length network, h.2.2.wires_length network] at hlen
        exact List.append_inj heq (by rw [h.2.1.wire_length network]; omega)
      · rintro ⟨ho, hr⟩
        rw [ho, hr]
  | [], _ :: _, h => h.elim
  | _ :: _, [], h => h.elim

end

/-! ### Rewound copies -/

theorem Emits.emittable {σ : Type} [ByteSink σ] {o : DsonObj} {k : Int} {t : Tree} {m : Mem} {s : σ}
    {out : Option (Result × DsonObj × Mem × σ)} (h : Emits e network o k t m s out) :
    ∃ r o' s', out = some (r, o', m, s') ∧ (r = .inProcess → Emittable e o' k t) := by
  obtain ⟨r, o', s', hout, -, bs, -, -, hcases⟩ := h
  refine ⟨r, o', s', hout, ?_⟩
  rintro rfl
  rcases hcases with ⟨hr, -⟩ | ⟨-, hlive, -⟩ | ⟨hr, -⟩
  · cases hr
  · exact hlive.1
  · cases hr

theorem Emittable.copyStep {o : DsonObj} {k : Int} {t : Tree} (h : Emittable e o k t) (hlt : t.size < 2 ^ 31)
    (m : Mem) (step : CopyStep) :
    ∃ r o', o.copyStep e m step = some (r, o', m) ∧ (r = .inProcess → Emittable e o' k t) := by
  cases step with
  | fd network counts =>
      obtain ⟨r, o', s', hout, ho'⟩ := (h.copyTo hlt network m (FdOut.fresh (counts.map some))).emittable
      exact ⟨r, o', by rw [DsonObj.copyStep, hout]; rfl, ho'⟩
  | buf network room =>
      obtain ⟨r, o', s', hout, ho'⟩ := (h.copyTo hlt network m (BufOut.fresh room)).emittable
      exact ⟨r, o', by rw [DsonObj.copyStep, hout]; rfl, ho'⟩

theorem Emittable.interrupt {k : Int} {t : Tree} (hlt : t.size < 2 ^ 31) {steps : List CopyStep} :
    ∀ {o o' : DsonObj} {m m' : Mem}, Emittable e o k t → DsonObj.interrupt e steps o m = some (o', m') →
      m' = m ∧ Emittable e o' k t := by
  induction steps with
  | nil =>
      intro o o' m m' h hrun
      cases hrun
      exact ⟨rfl, h⟩
  | cons step steps ih =>
      intro o o' m m' h hrun
      obtain ⟨r, o₁, hstep, ho₁⟩ := h.copyStep hlt m step
      simp only [DsonObj.interrupt, hstep, Option.bind_eq_bind, Option.bind_some] at hrun
      split_ifs at hrun with hr
      exact ih (ho₁ hr) hrun

theorem EmittableAll.insert {o : DsonObj} {k : Int} {t : Tree} (ho : Emittable e o k t) :
    ∀ {children : ObjMap} {ts : Forest}, EmittableAll e children ts →
      EmittableAll e (KeyMap.insertOrAssign k o children) (KeyMap.insertOrAssign k t ts)
  | [], [], _ => by
      rw [KeyMap.insertOrAssign, KeyMap.insertOrAssign, EmittableAll]
      exact ⟨rfl, ho, trivial⟩
  | (k', o') :: rest, (k'', t') :: ts, h => by
      have hall := h
      rw [EmittableAll] at h
      obtain ⟨rfl, ho', hrest⟩ := h
      rw [KeyMap.insertOrAssign, KeyMap.insertOrAssign]
      split_ifs
      · rw [EmittableAll]
        exact ⟨rfl, ho, hall⟩
      · rw [EmittableAll]
        exact ⟨rfl, ho, hrest⟩
      · rw [EmittableAll]
        exact ⟨rfl, ho', hrest.insert ho⟩
  | [], _ :: _, h => h.elim
  | _ :: _, [], h => h.elim

/-- A container between two copies: its header is its own, its children are as the last copy left them. -/
structure Rewound (e : Endian) (d : Dson) (children : ObjMap) (k : Int) (ts : Forest) : Prop where
  state : d.state = .ready
  node : d.IsNode e k ts
  sorted : KeyMap.Sorted children
  all : EmittableAll e children ts

theorem Rewound.emittable {d : Dson} {children : ObjMap} {k : Int} {ts : Forest} (h : Rewound e d children k ts) :
    Emittable e (.dson d children) k (.node ts) := by
  rw [Emittable]
  exact ⟨h.node, h.sorted, Or.inl ⟨h.state, h.all⟩⟩

/-- What a rewound container emits is the complete encoding if and only if every child is untouched. -/
theorem Rewound.complete_iff {d : Dson} {children : ObjMap} {k : Int} {ts : Forest} (h : Rewound e d children k ts)
    (hlt : (Tree.node ts).size < 2 ^ 31) (network : Bool) :
    Complete e network (.dson d children) k (.node ts) ((DsonObj.dson d children).pending e network) ↔
      DsonObj.UntouchedAll e network children := by
  have hsize : Forest.size ts < 2 ^ 31 := lt_of_le_of_lt (Nat.le_add_left _ _) hlt
  have hwires := h.all.wires_length network
  obtain ⟨hs, -⟩ := h.node.header (DsonObj.wires e network children).length
    (by simp only [IsInt32]; omega) network
  have huntouched : (DsonObj.dson d children).Untouched e network ↔ DsonObj.UntouchedAll e network children := by
    rw [DsonObj.Untouched, and_iff_right (Or.inl h.state)]
  rw [← huntouched, ← h.emittable.pending_eq_wire_iff network]
  refine ⟨fun hcomplete => hcomplete.1, fun heq => ⟨heq, ?_⟩⟩
  have hunstarted := ((h.emittable.pending_eq_wire_iff network).mp heq).unstarted
  have hlen := (h.emittable.unstarted_iff network).mpr hunstarted
  have hdepth := Tree.depth_lt_size (.node ts)
  obtain ⟨n, hn⟩ : ∃ n, (Tree.node ts).size = n + 1 := ⟨(Tree.node ts).size - 1, by omega⟩
  have hdec := h.emittable.decode_pending network hunstarted hlt (n := n) (by omega) []
  rw [List.append_nil, ← hn, ← hlen] at hdec
  have hrest := (h.all.unstartedAll_iff network).mpr (by rw [DsonObj.Unstarted] at hunstarted; exact hunstarted.2)
  have hmark : (d.headerBuf.setDataSize e (DsonObj.wires e network children).length).ValidMark e :=
    (Header.validMark_congr rfl).mp h.node.mark
  refine ⟨(d.headerBuf.setDataSize e (DsonObj.wires e network children).length).toOrder e network,
    DsonObj.pendings e network children, ?_, Header.inOrder_toOrder hmark network, by rw [hs, hwires, hrest], hdec⟩
  simp only [DsonObj.pending, h.state, h.node.kind, Header.read_bytes_append]

/-- `reset_state` in the middle of a copy. -/
theorem Emittable.rewound {d : Dson} {children : ObjMap} {k : Int} {ts : Forest}
    (h : Emittable e (.dson d children) k (.node ts)) :
    d.state ≠ .error ∧ Rewound e { d with state := .ready } children k ts := by
  rw [Emittable] at h
  obtain ⟨hnode, hsorted, hcases⟩ := h
  have hnode' : Dson.IsNode e { d with state := .ready } k ts :=
    ⟨hnode.kind, hnode.alloc, hnode.buf, hnode.mark, hnode.key, hnode.type⟩
  rcases hcases with ⟨hstate, hall⟩ | ⟨hstate, -, -, hall⟩ | ⟨hstate, key, -, -, hfrom⟩
  · exact ⟨by simp [hstate], rfl, hnode', hsorted, hall⟩
  · exact ⟨by simp [hstate], rfl, hnode', hsorted, hall⟩
  · exact ⟨by simp [hstate], rfl, hnode', hsorted, hfrom.all⟩

/-- `insert_internal` rewinds first. -/
theorem Dson.insertInternal_rewinds {d : Dson} (hstate : d.state ≠ .error) (e : Endian) (key : Int) (obj : DsonObj)
    (children : ObjMap) (m : Mem) :
    d.insertInternal e key obj children m = Dson.insertInternal e key obj { d with state := .ready } children m := by
  have hreset : (if d.state ≠ .ready then d.resetState children else (d, children)) =
      ({ d with state := .ready }, children) := by
    by_cases hready : d.state = .ready
    · rw [if_neg (by simp [hready]), ← hready]
    · rw [if_pos hready, Dson.resetState, if_neg hstate]
  simp only [Dson.insertInternal, hreset]
  rfl

/-- `insert_internal` in the middle of a copy. -/
theorem Emittable.insertInternal {d : Dson} {children : ObjMap} {obj : DsonObj} {k key : Int} {ts : Forest} {t : Tree}
    (h : Emittable e (.dson d children) k (.node ts)) (hobj : Emittable e obj key t) (m : Mem) :
    ∃ d', d.insertInternal e key obj children m = some (d', KeyMap.insertOrAssign key obj children, m) ∧
      Rewound e d' (KeyMap.insertOrAssign key obj children) k (KeyMap.insertOrAssign key t ts) := by
  obtain ⟨hstate, hready⟩ := h.rewound
  rw [Dson.insertInternal_rewinds hstate, hready.node.insertInternal rfl]
  refine ⟨_, rfl, rfl, ?_, KeyMap.sorted_insertOrAssign hready.sorted key obj, hready.all.insert hobj⟩
  refine ⟨hready.node.kind, hready.node.alloc, hready.node.buf, (Header.validMark_congr rfl).mp hready.node.mark, ?_, ?_⟩
  · rw [Header.keyOf_setDataType, hready.node.key]
  · have hne := KeyMap.insertOrAssign_ne_nil key t ts
    rw [Header.dataTypeOf_setDataType _ (by decide), if_neg (by simpa using hne)]

/-- A copy in any order that emits the encoding of a tree in that order under a condition, and otherwise something
else. -/
def RestartsIff (e : Endian) (o : DsonObj) (m : Mem) (k : Int) (t : Tree) (P : Bool → Prop) : Prop :=
  ∀ network, ∃ bs, Resends e network o m bs ∧ (Complete e network o k t bs ↔ P network)

theorem Rewound.restartsIff {d : Dson} {children : ObjMap} {k : Int} {ts : Forest} (h : Rewound e d children k ts)
    (hlt : (Tree.node ts).size < 2 ^ 31) (m : Mem) :
    RestartsIff e (.dson d children) m k (.node ts) (fun network => DsonObj.UntouchedAll e network children) :=
  fun network => ⟨_, h.emittable.resends hlt network m, h.complete_iff hlt network⟩

theorem DsonObj.untouchedAll_insert {key : Int} {obj : DsonObj} {k : Int} {t : Tree} (hobj : Holds e obj k t)
    {children : ObjMap} (hsorted : KeyMap.Sorted children) (network : Bool) :
    DsonObj.UntouchedAll e network (KeyMap.insertOrAssign key obj children) ↔
      ∀ p ∈ children, some p.1 ≠ some key → p.2.Untouched e network := by
  have hfresh : obj.Untouched e network := by
    rw [← hobj.emittable.pending_eq_wire_iff network, hobj.pending]
  rw [DsonObj.untouchedAll_iff]
  constructor
  · exact fun h p hp hne => h p ((KeyMap.mem_insertOrAssign hsorted).mpr (Or.inr ⟨hp, fun heq => hne (by rw [heq])⟩))
  · intro h p hp
    rcases (KeyMap.mem_insertOrAssign hsorted).mp hp with rfl | ⟨hp, hne⟩
    · exact hfresh
    · exact h p hp (by simpa using hne)

/-- An insertion in the middle of a copy. -/
theorem Emittable.insert_restarts {d : Dson} {children : ObjMap} {obj : DsonObj} {k key : Int} {ts : Forest}
    {t : Tree} (h : Emittable e (.dson d children) k (.node ts)) (hobj : Holds e obj key t)
    (hlt : (Tree.node (KeyMap.insertOrAssign key t ts)).size < 2 ^ 31) (m : Mem) :
    ∃ d' children', d.insertInternal e key obj children m = some (d', children', m) ∧
      RestartsIff e (.dson d' children') m k (.node (KeyMap.insertOrAssign key t ts))
        (fun network => (DsonObj.dson d children).ChildrenUntouched e network (some key)) := by
  obtain ⟨d', hins, hrewound⟩ := h.insertInternal hobj.emittable m
  refine ⟨d', _, hins, fun network => ?_⟩
  obtain ⟨bs, hresends, hiff⟩ := hrewound.restartsIff hlt m network
  exact ⟨bs, hresends, hiff.trans (DsonObj.untouchedAll_insert hobj h.rewound.2.sorted network)⟩

/-- After `reset_state`, or an `emplace`, in the middle of a copy the next copy emits the whole encoding in the order
asked for if and only if no child that is still there has handed over anything or stands prepared in the other
order. -/
theorem rewind_iff {o o' : DsonObj} {k : Int} {ts : Forest} {m m' : Mem} {steps : List CopyStep}
    (h : Holds e o k (.node ts)) (hlt : (Tree.node ts).size < 2 ^ 31)
    (hrun : DsonObj.interrupt e steps o m = some (o', m')) :
    RestartsIff e o'.resetState m' k (.node ts) (fun network => o'.ChildrenUntouched e network none) ∧
      (∀ {obj key k₀ t}, Holds e obj k₀ t → IsInt32 key →
        (Tree.node (KeyMap.insertOrAssign key t ts)).size < 2 ^ 31 →
          ∃ o'', DsonObj.emplace e key obj o' m' = some (o'', m') ∧
            RestartsIff e o'' m' k (.node (KeyMap.insertOrAssign key t ts))
              (fun network => o'.ChildrenUntouched e network (some key))) ∧
      (∀ {obj key t}, Holds e obj key t → (Tree.node (KeyMap.insertOrAssign key t ts)).size < 2 ^ 31 →
          ∃ o'', DsonObj.emplacePtr e obj o' m' = some (o'', m') ∧
            RestartsIff e o'' m' k (.node (KeyMap.insertOrAssign key t ts))
              (fun network => o'.ChildrenUntouched e network (some key))) := by
  obtain ⟨rfl, ho'⟩ := h.emittable.interrupt hlt hrun
  cases o' with
  | string s => exact ho'.elim
  | route r => exact ho'.elim
  | dson d children =>
      refine ⟨fun network => ?_, fun {obj key k₀ t} hobj hkey hlt' => ?_, fun {obj key t} hobj hlt' => ?_⟩
      · obtain ⟨hstate, hrewound⟩ := ho'.rewound
        obtain ⟨bs, hresends, hiff⟩ := hrewound.restartsIff hlt m' network
        have hreset : (DsonObj.dson d children).resetState = .dson { d with state := .ready } children := by
          rw [DsonObj.resetState, Dson.resetState, if_neg hstate]
        rw [hreset]
        have hall : DsonObj.UntouchedAll e network children ↔
            (DsonObj.dson d children).ChildrenUntouched e network none := by
          rw [DsonObj.untouchedAll_iff, DsonObj.ChildrenUntouched]
          exact forall₂_congr fun p _ => ⟨fun h _ => h, fun h => h (by simp)⟩
        exact ⟨bs, hresends, hiff.trans hall⟩
      · obtain ⟨obj', hset, hobj'⟩ := hobj.setKey hkey m'
        obtain ⟨d', children', hins, hrestarts⟩ := ho'.insert_restarts hobj' hlt' m'
        refine ⟨.dson d' children', ?_, hrestarts⟩
        simp only [DsonObj.emplace, hset, Option.bind_eq_bind, Option.bind_some, hins]
        rfl
      · obtain ⟨d', children', hins, hrestarts⟩ := ho'.insert_restarts hobj hlt' m'
        refine ⟨.dson d' children', ?_, hrestarts⟩
        simp only [DsonObj.emplacePtr, hobj.key, Option.bind_eq_bind, Option.bind_some, hins]
        rfl

end

/-- A container with a number, interrupted in front of the number. -/
theorem rewind_iff_sample : ∃ o o', numberBox = some o ∧
    DsonObj.interrupt .little [.buf true 16] o ⟨[], []⟩ = some (o', ⟨[], []⟩) ∧
    RestartsIff .little o'.resetState ⟨[], []⟩ 0 (.node [(5, .leaf (.int32 7))])
      (fun network => o'.ChildrenUntouched .little network none) := by
  obtain ⟨o, hbox, ho⟩ := numberBox_holds
  have hsome : (numberBox.bind fun o =>
      (DsonObj.interrupt .little [.buf true 16] o ⟨[], []⟩).map fun p => p.2) = some ⟨[], []⟩ := by
    decide +kernel
  rw [hbox, Option.bind_some, Option.map_eq_some_iff] at hsome
  obtain ⟨⟨o', m'⟩, hrun, rfl⟩ := hsome
  exact ⟨o, o', hbox, hrun, (rewind_iff ho (by decide) hrun).1⟩

/-- A container whose child has been interrupted behind its fourth byte is rewound: what it emits announces
twenty bytes and has sixteen. -/
theorem rewound_child_shortens : ∃ bs,
    (numberBox.bind fun o => (DsonObj.interrupt .little [.buf true 20] o ⟨[], []⟩).bind fun p =>
      (p.1.resetState.copyRun .little true p.2 (windows [100])).map fun q => (q.1, q.2.2)) = some (.ready, bs) ∧
    ∀ o k t, ¬Complete .little true o k t bs := by
  have hrun : ((numberBox.bind fun o => (DsonObj.interrupt .little [.buf true 20] o ⟨[], []⟩).bind fun p =>
      (p.1.resetState.copyRun .little true p.2 (windows [100])).map fun q => (q.1, q.2.2)).map fun q =>
        (q.1, (Header.read q.2).map fun r => (r.1.dataSizeOf .little, r.2.length))) =
      some (.ready, some (20, 16)) := by
    decide +kernel
  rw [Option.map_eq_some_iff] at hrun
  obtain ⟨⟨r, bs⟩, hrun, hsizes⟩ := hrun
  simp only [Prod.mk.injEq, Option.map_eq_some_iff] at hsizes
  obtain ⟨rfl, ⟨h, body⟩, hread, hannounced, hlen⟩ := hsizes
  refine ⟨bs, hrun, ?_⟩
  rintro o k t ⟨-, h', body', hread', -, hannounced', -⟩
  cases hread.symm.trans hread'
  rw [hannounced, hlen] at hannounced'
  omega

end LeanDson
