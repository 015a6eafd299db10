import LeanDson.Leaves

/-! The incremental emitters hand over the encoding, and nothing else: the loop over the children of a container, and
runs of calls until everything has been handed over. -/

namespace LeanDson

open ByteSink

section

variable {e : Endian} {network : Bool} {σ : Type} [ByteSink σ]
variable {copy : DsonObj → Mem → σ → Option (Result × DsonObj × Mem × σ)}

/-! ### Containers -/

/-- One call of the loop over the children. -/
def MapEmits (e : Endian) (network : Bool) (it : CopyIter) (children : ObjMap) (ts : Forest) (m : Mem) (s : σ)
    (out : Option (Result × CopyIter × ObjMap × Mem × σ)) : Prop :=
  ∃ r it' children' s', out = some (r, it', children', m, s') ∧ DsonObj.AlikeAll e network children children' ∧
    HandsOver s s' (DsonObj.pendingsFrom e network it children) r (HoldsAll e children' ts)
      (∃ key, it' = .node key ∧ key ∈ KeyMap.keys children ∧ EmittableFrom e key children' ts ∧
        (DsonObj.StraightFrom e network it children → DsonObj.StraightFrom e network it' children'))
      (DsonObj.pendingsFrom e network it' children')
      (fun rest => ∃ key, it' = .node key ∧ key ∈ KeyMap.keys children ∧ EmittableFrom e key children' ts ∧
        (DsonObj.StraightFrom e network it children → DsonObj.pendingsFrom e network it' children' =
          (DsonObj.wires e network children).drop
            (DsonObj.resumesAt e network children ((DsonObj.wires e network children).length - rest.length))))

/-- A position behind the first child. -/
theorem DsonObj.resumesAt_behind {k : Int} {o : DsonObj} {children : ObjMap} {n : Nat}
    (hn : n ≤ (DsonObj.wires e network children).length) :
    (DsonObj.wires e network ((k, o) :: children)).drop (DsonObj.resumesAt e network ((k, o) :: children)
        ((DsonObj.wires e network ((k, o) :: children)).length - n)) =
      (DsonObj.wires e network children).drop
        (DsonObj.resumesAt e network children ((DsonObj.wires e network children).length - n)) := by
  have hpos : (DsonObj.wires e network ((k, o) :: children)).length - n =
      (o.wire e network).length + ((DsonObj.wires e network children).length - n) := by
    rw [DsonObj.wires, List.length_append]
    omega
  rw [hpos, DsonObj.resumesAt, if_neg (by omega), Nat.add_sub_cancel_left, DsonObj.wires, ← List.drop_drop,
    List.drop_left]

/-- A position in the first child, with the others still to come. -/
theorem DsonObj.resumesAt_here {k : Int} {o : DsonObj} {children : ObjMap} {rest : Bytes} (hne : rest ≠ [])
    (hle : rest.length ≤ (o.wire e network).length) :
    (DsonObj.wires e network ((k, o) :: children)).drop (DsonObj.resumesAt e network ((k, o) :: children)
        ((DsonObj.wires e network ((k, o) :: children)).length -
          (rest ++ DsonObj.wires e network children).length)) =
      (o.wire e network).drop (o.resumeAt e network ((o.wire e network).length - rest.length)) ++
        DsonObj.wires e network children := by
  have hlen := List.length_pos_of_ne_nil hne
  have hpos : (DsonObj.wires e network ((k, o) :: children)).length -
      (rest ++ DsonObj.wires e network children).length = (o.wire e network).length - rest.length := by
    rw [DsonObj.wires, List.length_append, List.length_append]
    omega
  have hresume : o.resumeAt e network ((o.wire e network).length - rest.length) ≤ _ := DsonObj.resumeAt_le e network o _
  rw [hpos, DsonObj.resumesAt, if_pos (by omega), DsonObj.wires, List.drop_append_of_le_length (by omega)]

/-- A child in front, from which the loop goes on. -/
theorem copyMap_here {k : Int} {o : DsonObj} {t : Tree} {rest : ObjMap} {ts : Forest} (m : Mem) {s : σ}
    (ho : Emittable e o k t) (hcopy : Emits e network o k t m s (copy o m s))
    (hsorted : KeyMap.Sorted ((k, o) :: rest)) (hall : EmittableAll e rest ts)
    (hrest : ∀ s : σ, MapEmits e network (Dson.mapBegin rest) rest ts m s
      (Dson.copyMap copy (Dson.mapBegin rest) rest m s)) :
    MapEmits e network (.node k) ((k, o) :: rest) ((k, t) :: ts) m s
      (Dson.copyMap copy (.node k) ((k, o) :: rest) m s) := by
  obtain ⟨r, o', s', hout, halike, hhand⟩ := hcopy
  have hne := ho.pending_ne_nil network
  have hpend : DsonObj.pendingsFrom e network (.node k) ((k, o) :: rest) =
      o.pending e network ++ DsonObj.pendings e network rest := by
    rw [DsonObj.pendingsFrom, if_neg (lt_irrefl k)]
  have hstraight : DsonObj.StraightFrom e network (.node k) ((k, o) :: rest) →
      o.Straight e network ∧ RestAll e rest := by
    rw [DsonObj.StraightFrom, if_neg (lt_irrefl k)]
    exact id
  rw [Dson.copyMap, if_neg (lt_irrefl k), hout]
  simp only [Option.bind_eq_bind, Option.bind_some]
  by_cases hr : r = .ready
  · subst hr
    obtain ⟨-, ho'⟩ | ⟨hr, -⟩ | ⟨hr, -⟩ := hhand.cases
    · rw [if_neg (by simp)]
      obtain ⟨r, it, rest', s'', hout', hall', hhand'⟩ := hrest s'
      rw [DsonObj.pendingsFrom_begin] at hhand'
      rw [hout']
      refine ⟨r, it, (k, o') :: rest', s'', rfl, .cons halike hall' k, ?_⟩
      rw [hpend]
      refine hhand.append hne (hhand'.imp (fun _ h => ?_) ?_ ?_)
      · rw [HoldsAll]
        exact ⟨rfl, ho', h⟩
      · rintro - ⟨key, rfl, hkey, hfrom, hs⟩
        have hlt : k < key := (KeyMap.sorted_cons.mp hsorted).1 key hkey
        refine ⟨⟨key, rfl, List.mem_cons_of_mem _ hkey, ?_, fun h => ?_⟩, ?_⟩
        · rw [EmittableFrom]
          exact ⟨rfl, Or.inl ⟨hlt, ho', hfrom⟩⟩
        · rw [DsonObj.StraightFrom, if_pos hlt]
          exact hs ((hstraight h).2.straightFrom network)
        · rw [DsonObj.pendingsFrom, if_pos hlt]
      · rintro - left - hsuffix ⟨key, rfl, hkey, hfrom, hs⟩
        have hlt : k < key := (KeyMap.sorted_cons.mp hsorted).1 key hkey
        refine ⟨key, rfl, List.mem_cons_of_mem _ hkey, ?_, fun h => ?_⟩
        · rw [EmittableFrom]
          exact ⟨rfl, Or.inl ⟨hlt, ho', hfrom⟩⟩
        · have hrestAll := (hstraight h).2
          rw [hrestAll.pendings] at hsuffix
          rw [DsonObj.pendingsFrom, if_pos hlt, hs (hrestAll.straightFrom network),
            DsonObj.resumesAt_behind hsuffix.length_le]
    · cases hr
    · cases hr
  · rw [if_pos hr]
    have hpend' : DsonObj.pendingsFrom e network (.node k) ((k, o') :: rest) =
        o'.pending e network ++ DsonObj.pendings e network rest := by
      rw [DsonObj.pendingsFrom, if_neg (lt_irrefl k)]
    have hfrom : Emittable e o' k t → EmittableFrom e k ((k, o') :: rest) ((k, t) :: ts) := by
      intro ho'
      rw [EmittableFrom]
      exact ⟨rfl, Or.inr ⟨rfl, ho', hall⟩⟩
    refine ⟨r, .node k, (k, o') :: rest, s', rfl, .cons halike (.refl rest) k, ?_⟩
    rw [hpend, hpend']
    -- The failing object is named together with what it had still to hand over.
    have hfailing : HandsOver s s' (o.pending e network) r (Holds e o' k t)
        (Emittable e o' k t ∧ (o.Straight e network → o'.Straight e network)) (o'.pending e network)
        (fun left => left ≠ [] ∧ left <:+ o.pending e network ∧ Fails e network k t o o' left) :=
      hhand.imp (fun _ h => h) (fun _ h => ⟨h, rfl⟩) fun _ left hleft hsuffix h => ⟨hleft, hsuffix, h⟩
    have hstop : HandsOver s s' (o.pending e network ++ DsonObj.pendings e network rest) r (Holds e o' k t)
        (Emittable e o' k t ∧ (o.Straight e network → o'.Straight e network))
        (o'.pending e network ++ DsonObj.pendings e network rest)
        (fun left' => ∃ left, left' = left ++ DsonObj.pendings e network rest ∧ left ≠ [] ∧
          left <:+ o.pending e network ∧ Fails e network k t o o' left) :=
      hfailing.stop hr _ fun left h => ⟨left, rfl, h⟩
    refine hstop.imp (fun hready _ => absurd hready hr) ?_ ?_
    · rintro - ⟨ho', hs⟩
      refine ⟨⟨k, rfl, List.mem_cons_self, hfrom ho', fun h => ?_⟩, rfl⟩
      rw [DsonObj.StraightFrom, if_neg (lt_irrefl k)]
      exact ⟨hs (hstraight h).1, (hstraight h).2⟩
    · rintro - left' - - ⟨left, rfl, hleft, hsuffix, ho', hresume⟩
      refine ⟨k, rfl, List.mem_cons_self, hfrom ho', fun h => ?_⟩
      obtain ⟨hs, hrestAll⟩ := hstraight h
      have hle := hsuffix.length_le.trans hs.suffix.length_le
      rw [hrestAll.pendings, DsonObj.resumesAt_here hleft hle, hresume hs]

variable {fuel : Nat}

/-- What the loop asks of the emitter of the children. -/
def EmitsBelow (e : Endian) (network : Bool) (fuel : Nat)
    (copy : DsonObj → Mem → σ → Option (Result × DsonObj × Mem × σ)) : Prop :=
  ∀ {o : DsonObj} {k : Int} {t : Tree} (m : Mem) (s : σ), Emittable e o k t → t.size < 2 ^ 31 →
    o.depth ≤ fuel → Emits e network o k t m s (copy o m s)

/-- The loop from the start. -/
theorem copyMap_begin (hcopy : EmitsBelow e network fuel copy) {children : ObjMap} {ts : Forest} (m : Mem)
    (s : σ) (hall : EmittableAll e children ts) (hsorted : KeyMap.Sorted children)
    (hlt : Forest.size ts < 2 ^ 31) (hfuel : DsonObj.depths children ≤ fuel) :
    MapEmits e network (Dson.mapBegin children) children ts m s
      (Dson.copyMap copy (Dson.mapBegin children) children m s) := by
  induction children generalizing ts s with
  | nil =>
      cases ts with
      | nil =>
          refine ⟨_, _, _, _, rfl, .refl [], ?_⟩
          rw [DsonObj.pendingsFrom_begin, DsonObj.pendings]
          exact HandsOver.nothing s trivial _ _ _
      | cons q ts => exact hall.elim
  | cons p rest ih =>
      obtain ⟨k, o⟩ := p
      cases ts with
      | nil => exact hall.elim
      | cons q ts =>
          obtain ⟨k', t⟩ := q
          rw [EmittableAll] at hall
          obtain ⟨rfl, ho, hrest⟩ := hall
          rw [Forest.size] at hlt
          rw [DsonObj.depths] at hfuel
          exact copyMap_here m ho (hcopy m s ho (by omega) (by omega)) hsorted hrest
            fun s => ih s hrest hsorted.tail (by omega) (by omega)

/-- The loop from a node. -/
theorem copyMap_node (hcopy : EmitsBelow e network fuel copy) {key : Int} {children : ObjMap} {ts : Forest}
    (m : Mem) (s : σ) (hfrom : EmittableFrom e key children ts) (hsorted : KeyMap.Sorted children)
    (hlt : Forest.size ts < 2 ^ 31) (hfuel : DsonObj.depths children ≤ fuel) :
    MapEmits e network (.node key) children ts m s (Dson.copyMap copy (.node key) children m s) := by
  induction children generalizing ts with
  | nil => cases ts <;> exact hfrom.elim
  | cons p rest ih =>
      obtain ⟨k, o⟩ := p
      cases ts with
      | nil => exact hfrom.elim
      | cons q ts =>
          obtain ⟨k', t⟩ := q
          rw [Forest.size] at hlt
          rw [DsonObj.depths] at hfuel
          rw [EmittableFrom] at hfrom
          obtain ⟨rfl, ⟨hkey, ho, hrest⟩ | ⟨rfl, ho, hrest⟩⟩ := hfrom
          · obtain ⟨r, it, rest', s', hout, hall, hhand⟩ := ih hrest hsorted.tail (by omega) (by omega)
            have hpend : DsonObj.pendingsFrom e network (.node key) ((k, o) :: rest) =
                DsonObj.pendingsFrom e network (.node key) rest := by rw [DsonObj.pendingsFrom, if_pos hkey]
            have hstraight : DsonObj.StraightFrom e network (.node key) ((k, o) :: rest) →
                DsonObj.StraightFrom e network (.node key) rest := by
              rw [DsonObj.StraightFrom, if_pos hkey]
              exact id
            rw [Dson.copyMap, if_pos hkey, hout]
            refine ⟨r, it, (k, o) :: rest', s', rfl, .cons ⟨rfl, rfl⟩ hall k, ?_⟩
            rw [hpend]
            refine hhand.imp (fun _ h => ?_) ?_ ?_
            · rw [HoldsAll]
              exact ⟨rfl, ho, h⟩
            · rintro - ⟨key', rfl, hmem, hfrom, hs⟩
              have hlt' : k < key' := (KeyMap.sorted_cons.mp hsorted).1 key' hmem
              refine ⟨⟨key', rfl, List.mem_cons_of_mem _ hmem, ?_, fun h => ?_⟩, ?_⟩
              · rw [EmittableFrom]
                exact ⟨rfl, Or.inl ⟨hlt', ho, hfrom⟩⟩
              · rw [DsonObj.StraightFrom, if_pos hlt']
                exact hs (hstraight h)
              · rw [DsonObj.pendingsFrom, if_pos hlt']
            · rintro - left - hsuffix ⟨key', rfl, hmem, hfrom, hs⟩
              have hlt' : k < key' := (KeyMap.sorted_cons.mp hsorted).1 key' hmem
              refine ⟨key', rfl, List.mem_cons_of_mem _ hmem, ?_, fun h => ?_⟩
              · rw [EmittableFrom]
                exact ⟨rfl, Or.inl ⟨hlt', ho, hfrom⟩⟩
              · have hle := hsuffix.length_le.trans (DsonObj.StraightFrom.suffix (hstraight h)).length_le
                rw [DsonObj.pendingsFrom, if_pos hlt', hs (hstraight h), DsonObj.resumesAt_behind hle]
          · exact copyMap_here m ho (hcopy m s ho (by omega) (by omega)) hsorted hrest
              fun s => copyMap_begin hcopy m s hrest hsorted.tail (by omega) (by omega)

/-- A container in its data phase, given what its loop does. -/
theorem Dson.copyData_node {d : Dson} {children : ObjMap} {k : Int} {ts : Forest} {m : Mem} {s : σ}
    (hnode : d.IsNode e k ts) (hstate : d.state = .copyingData) (hsorted : KeyMap.Sorted children)
    (hmap : MapEmits e network d.copyIter children ts m s (copyMap copy d.copyIter children m s)) :
    Emits e network (.dson d children) k (.node ts) m s (d.copyData copy children m s) := by
  obtain ⟨r, it, children', s', hout, hall, hhand⟩ := hmap
  have hsorted' : KeyMap.Sorted children' := by
    rw [KeyMap.Sorted, hall.keys]
    exact hsorted
  have hinner : d.inner m = m := by rw [Dson.inner, hnode.buf]
  have houter : ∀ inside, d.outer m inside = (d, inside) := fun inside => by rw [Dson.outer, hnode.buf]
  have hpend : (DsonObj.dson d children).pending e network =
      DsonObj.pendingsFrom e network d.copyIter children := by
    simp only [DsonObj.pending, hstate, hnode.kind]
  have halike : ∀ state, (DsonObj.dson d children).Alike e network
      (.dson { d with copyIter := it, state := state } children') := fun _ => hall.node hnode.kind hnode.kind rfl
  have hstraight : (DsonObj.dson d children).Straight e network →
      DsonObj.StraightFrom e network d.copyIter children := by
    intro h
    rw [DsonObj.Straight] at h
    exact (h.2 hnode.kind).1 hstate
  rw [Dson.copyData, if_pos hnode.kind, hinner, hout]
  simp only [Option.bind_eq_bind, Option.bind_some, houter]
  by_cases hr : r = .ready
  · subst hr
    rw [if_neg (by simp)]
    refine ⟨_, _, _, rfl, halike .ready, ?_⟩
    rw [hpend]
    refine hhand.imp (fun _ h => ?_) (fun hr => ?_) (fun hr => ?_)
    · rw [Holds]
      exact ⟨rfl, hnode.congr rfl rfl rfl rfl, hsorted', h⟩
    · cases hr
    · cases hr
  · rw [if_pos hr]
    have hpend' : (DsonObj.dson { d with copyIter := it } children').pending e network =
        DsonObj.pendingsFrom e network it children' := by
      simp only [DsonObj.pending, hstate, hnode.kind]
    have hlive : ∀ {key : Int}, it = .node key → key ∈ KeyMap.keys children → EmittableFrom e key children' ts →
        Emittable e (.dson { d with copyIter := it } children') k (.node ts) := by
      intro key hit hkey hfrom
      rw [Emittable]
      exact ⟨hnode.congr rfl rfl rfl rfl, hsorted', Or.inr (Or.inr ⟨hstate, key, hit, hall.keys ▸ hkey, hfrom⟩)⟩
    refine ⟨_, _, _, rfl, halike d.state, ?_⟩
    rw [hpend, hpend']
    refine hhand.imp (fun hready => absurd hready hr) ?_ ?_
    · rintro - ⟨key, hit, hkey, hfrom, hs⟩
      refine ⟨⟨hlive hit hkey hfrom, fun h => ?_⟩, rfl⟩
      have hnext := hs (hstraight h)
      rw [DsonObj.Straight]
      refine ⟨?_, fun _ => ⟨fun _ => hnext, fun hdata => absurd hstate hdata⟩⟩
      have hbody := hnext.suffix
      rw [hpend']
      refine hbody.trans ?_
      simp only [DsonObj.wire, hnode.kind]
      exact List.suffix_append _ _
    · rintro - rest - hsuffix ⟨key, hit, hkey, hfrom, hs⟩
      refine ⟨hlive hit hkey hfrom, fun h => ?_⟩
      have hle := hsuffix.length_le.trans (hstraight h).suffix.length_le
      have hpos : 16 + (DsonObj.wires e network children).length - rest.length =
          headerSize + ((DsonObj.wires e network children).length - rest.length) := by
        rw [headerSize]
        omega
      rw [hpend', hs (hstraight h), DsonObj.resumeAt]
      simp only [DsonObj.wire, hnode.kind, List.length_append, Header.bytes_length, hpos]
      rw [if_neg (by omega), Nat.add_sub_cancel_left, ← List.drop_drop]
      congr 1

/-- A container that is prepared for a copy, up to its first child. -/
theorem Dson.copyHeader_node (hcopy : EmitsBelow e network fuel copy) {d : Dson} {children : ObjMap} {k : Int}
    {ts : Forest} (m : Mem) (s : σ) (hnode : d.IsNode e k ts)
    (hstate : d.state = .copyingHeader) (hoff : d.offset < headerSize)
    (hsize : d.headerBuf.dataSizeOf e = Forest.size ts)
    (hall : EmittableAll e children ts) (hsorted : KeyMap.Sorted children) (hlt : Forest.size ts < 2 ^ 31)
    (hfuel : DsonObj.depths children ≤ fuel) :
    Emits e network (.dson d children) k (.node ts) m s (d.copyHeader copy children m s) := by
  have hoff' : d.offset < d.headerBuf.bytes.length := hoff
  have hpend : ∀ off, (DsonObj.dson { d with offset := off } children).pending e network =
      d.headerBuf.bytes.drop off ++ DsonObj.pendings e network children := fun off => by
    simp only [DsonObj.pending, hstate, hnode.kind]
  have halike : ∀ d' : Dson, d'.dsonKind = d.dsonKind → d'.headerBuf = d.headerBuf →
      (DsonObj.dson d children).Alike e network (.dson d' children) := by
    intro d' hkind hh
    exact DsonObj.AlikeAll.node (.refl children) hnode.kind (hkind.trans hnode.kind) (by rw [hh])
  have hrestAll : (DsonObj.dson d children).Straight e network → RestAll e children := by
    intro h
    rw [DsonObj.Straight] at h
    exact (h.2 hnode.kind).2 (by simp [hstate])
  rw [Dson.copyHeader, if_neg (by omega), hnode.header_eq]
  simp only [Option.bind_eq_bind, Option.bind_some]
  rcases write_drop s d.headerBuf.bytes hoff' with ⟨s', hw, hfail⟩ | ⟨n, s', hw, hle, hstep⟩
  · rw [Emits, hpend d.offset]
    simp only [hw]
    refine ⟨_, _, _, rfl, halike _ rfl rfl, hfail ⟨?_, fun h => ?_⟩⟩
    · rw [Emittable]
      exact ⟨hnode.congr rfl rfl rfl rfl, hsorted, Or.inl ⟨rfl, hall⟩⟩
    · have hpos : ((DsonObj.dson d children).wire e network).length -
          (d.headerBuf.bytes.drop d.offset ++ DsonObj.wires e network children).length < headerSize := by
        simp only [DsonObj.wire, hnode.kind, List.length_append, Header.bytes_length, List.length_drop]
        omega
      rw [(hrestAll h).pendings, DsonObj.resumeAt]
      simp only [hnode.kind]
      rw [if_pos hpos, List.drop_zero]
      simp only [DsonObj.pending, DsonObj.wire, hnode.kind, (hrestAll h).pendings]
  obtain ⟨hpart, hfollow⟩ := hstep (DsonObj.pendings e network children)
  simp only [hw]
  by_cases hend : d.offset + n < headerSize
  · rw [if_pos hend, Emits, hpend d.offset]
    refine ⟨_, _, _, rfl, halike _ rfl rfl, ?_⟩
    rw [hpend]
    refine hpart hend ⟨?_, fun h => ?_⟩
    · rw [Emittable]
      exact ⟨hnode.congr rfl rfl rfl rfl, hsorted, Or.inr (Or.inl ⟨hstate, hend, hsize, hall⟩)⟩
    · have hsuffix := h.suffix
      rw [hpend d.offset] at hsuffix
      rw [DsonObj.Straight]
      refine ⟨?_, fun _ => ⟨fun hdata => ?_, fun _ => hrestAll h⟩⟩
      · rw [(halike { d with offset := d.offset + n } rfl rfl).wire, hpend]
        obtain ⟨front, hfront⟩ := drop_add_suffix d.headerBuf.bytes d.offset n
        refine List.IsSuffix.trans ⟨front, ?_⟩ hsuffix
        rw [← List.append_assoc, hfront]
      · dsimp only at hdata
        rw [hstate] at hdata
        cases hdata
  · rw [if_neg hend, if_pos hnode.kind]
    have hfull : d.offset + n = d.headerBuf.bytes.length := le_antisymm hle (not_lt.mp hend)
    have hnode' : Dson.IsNode e { d with
        offset := d.offset + n
        copyIter := mapBegin children
        state := .copyingData } k ts := hnode.congr rfl rfl rfl rfl
    have hpend' : (DsonObj.dson { d with
        offset := d.offset + n
        copyIter := mapBegin children
        state := .copyingData } children).pending e network = DsonObj.pendings e network children := by
      simp only [DsonObj.pending, hnode.kind, DsonObj.pendingsFrom_begin]
    refine (Dson.copyData_node hnode' rfl hsorted
      (copyMap_begin hcopy m s' hall hsorted hlt hfuel)).follow (by rw [hpend']; exact hpend d.offset)
        (halike _ rfl rfl) (fun h => ?_) ?_
    · have hsuffix := h.suffix
      rw [hpend d.offset] at hsuffix
      rw [DsonObj.Straight]
      refine ⟨?_, fun _ => ⟨fun _ => (hrestAll h).straightFrom network, fun hdata => absurd rfl hdata⟩⟩
      rw [(halike { d with
        offset := d.offset + n
        copyIter := mapBegin children
        state := .copyingData } rfl rfl).wire, hpend']
      exact (List.suffix_append _ _).trans hsuffix
    · rw [hpend']
      exact hfollow hfull

theorem Dson.copyInternal_node (hcopy : EmitsBelow e network fuel copy) {d : Dson} {children : ObjMap}
    {k : Int} {ts : Forest} (m : Mem) (s : σ)
    (ho : Emittable e (.dson d children) k (.node ts)) (hlt : (Tree.node ts).size < 2 ^ 31)
    (hfuel : DsonObj.depths children ≤ fuel) :
    Emits e network (.dson d children) k (.node ts) m s (d.copyInternal e copy network children m s) := by
  have hlt' : Forest.size ts < 2 ^ 31 := by
    rw [Tree.size] at hlt
    omega
  rw [Emittable] at ho
  obtain ⟨hnode, hsorted, ⟨hstate, hall⟩ | ⟨hstate, hoff, hsize, hall⟩ | ⟨hstate, key, hit, hkey, hfrom⟩⟩ := ho
  · have hlen := hall.wires_length network
    have hsize : DsonObj.dataSize e m (.dson d children) = some ((DsonObj.wires e network children).length : Int) := by
      simp only [DsonObj.dataSize, hnode.kind, Dson.inner, hnode.buf, hall.dataSizes m hlt', hlen]
    have hint : IsInt32 ((DsonObj.wires e network children).length : Int) := by
      simp only [IsInt32]
      omega
    have hprep : d.prepareCopy e network children m = some
        ({ d with
          headerBuf := (d.headerBuf.setDataSize e (DsonObj.wires e network children).length).toOrder e network
          offset := 0, state := .copyingHeader }, children, m) := by
      have hlocal : d.headerIsLocal = true := by simp [Dson.headerIsLocal, hnode.buf, BufPtr.isNull]
      simp only [Dson.prepareCopy, Dson.isHostOrder, Dson.isNetworkOrder, hnode.header_eq, Option.map_some,
        Option.bind_eq_bind, Option.bind_some]
      rw [if_neg (by simp [hnode.kind])]
      simp only [Option.bind_some, hnode.kind, if_true, hsize, Dson.setDataSizeInternal_local hlocal]
      rw [if_neg (by simp), Dson.headerToOrder_local (by exact hlocal)]
      rfl
    have hnode' := hnode.prepared { d with
      headerBuf := (d.headerBuf.setDataSize e (DsonObj.wires e network children).length).toOrder e network
      offset := 0, state := .copyingHeader } rfl rfl rfl rfl
    have hmark : (d.headerBuf.setDataSize e (DsonObj.wires e network children).length).ValidMark e :=
      (Header.validMark_congr rfl).mp hnode.mark
    have hsize' : ((d.headerBuf.setDataSize e (DsonObj.wires e network children).length).toOrder e
        network).dataSizeOf e = Forest.size ts := by
      rw [Header.dataSizeOf_toOrder hmark, Header.dataSizeOf_setDataSize _ hint, hlen]
    have halike : (DsonObj.dson d children).Alike e network (.dson { d with
        headerBuf := (d.headerBuf.setDataSize e (DsonObj.wires e network children).length).toOrder e network
        offset := 0, state := .copyingHeader } children) :=
      DsonObj.AlikeAll.node (.refl children) hnode.kind hnode.kind (Header.prepared_again hnode.mark _ network)
    have hpend' : (DsonObj.dson { d with
        headerBuf := (d.headerBuf.setDataSize e (DsonObj.wires e network children).length).toOrder e network
        offset := 0, state := .copyingHeader } children).pending e network =
          (DsonObj.dson d children).pending e network := by
      simp only [DsonObj.pending, hstate, hnode.kind, List.drop_zero]
    simp only [Dson.copyInternal, hstate, hprep, Option.bind_eq_bind, Option.bind_some]
    refine (Dson.copyHeader_node hcopy m s hnode' rfl (Nat.zero_lt_succ _) hsize' hall hsorted hlt' hfuel).congr
      hpend'.symm halike fun h => ?_
    have hsuffix := h.suffix
    rw [DsonObj.Straight] at h ⊢
    refine ⟨by rw [hpend', halike.wire]; exact hsuffix, fun _ => ⟨fun hdata => ?_, fun _ => ?_⟩⟩
    · cases hdata
    · exact (h.2 hnode.kind).2 (by simp [hstate])
  · simp only [Dson.copyInternal, hstate]
    exact Dson.copyHeader_node hcopy m s hnode hstate hoff hsize hall hsorted hlt' hfuel
  · have hmap := copyMap_node hcopy m s hfrom hsorted hlt' hfuel
    rw [← hit] at hmap
    simp only [Dson.copyInternal, hstate]
    exact Dson.copyData_node hnode hstate hsorted hmap

/-! ### Runs -/

theorem copyFuel_emits (fuel : Nat) : EmitsBelow (σ := σ) e network fuel (DsonObj.copyFuel e network fuel) := by
  induction fuel with
  | zero =>
      intro o k t m s _ _ hfuel
      cases o <;> simp [DsonObj.depth] at hfuel
  | succ fuel ih =>
      intro o k t m s ho hlt hfuel
      cases o with
      | string o =>
          cases t with
          | leaf v => exact DsonStringObj.copyTo_emits m s ho
          | node ts => exact ho.elim
      | route o =>
          cases t with
          | leaf v => exact DsonRouteObj.copyTo_emits m s ho
          | node ts => exact ho.elim
      | dson d children =>
          cases t with
          | leaf v => exact Dson.copyInternal_leaf m s ho
          | node ts =>
              rw [DsonObj.depth] at hfuel
              exact Dson.copyInternal_node ih m s ho hlt (by omega)

/-- One call of an incremental emitter. -/
theorem Emittable.copyTo {o : DsonObj} {k : Int} {t : Tree} (h : Emittable e o k t) (hlt : t.size < 2 ^ 31)
    (network : Bool) (m : Mem) (s : σ) : Emits e network o k t m s (o.copyTo e network m s) :=
  copyFuel_emits o.depth m s h hlt le_rfl

/-- The incremental emitters, as resumable calls on an object with its memory; a copy that has been
straight so far stays so. -/
theorem copyCall_resumable {k : Int} {t : Tree} (hlt : t.size < 2 ^ 31) (m : Mem) (o : DsonObj) (straight : Prop) :
    Resumable (σ := σ) (DsonObj.copyCall e network)
      (fun p => p.2 = m ∧ Emittable e p.1 k t ∧ o.Alike e network p.1 ∧ (straight → p.1.Straight e network))
      (fun p => p.2 = m ∧ Holds e p.1 k t) (fun p => p.1.pending e network)
      (fun _ p rest => p.2 = m ∧ Emittable e p.1 k t ∧ (straight → p.1.pending e network =
        (o.wire e network).drop (o.resumeAt e network ((o.wire e network).length - rest.length)))) where
  step := by
    rintro ⟨o₁, m'⟩ s ⟨rfl, ho, halike, hstraight⟩
    obtain ⟨r, o', s', hout, halike', hhand⟩ := ho.copyTo hlt network m' s
    refine ⟨r, (o', m'), s', ?_, hhand.imp (fun _ h => ⟨rfl, h⟩) (fun _ h => ?_) fun _ rest _ _ h => ?_⟩
    · rw [DsonObj.copyCall, hout]
      rfl
    · exact ⟨⟨rfl, h.1, halike.trans halike', fun hs => h.2 (hstraight hs)⟩, rfl⟩
    · refine ⟨rfl, h.1, fun hs => ?_⟩
      rw [h.2 (hstraight hs), halike.wire, halike.resume]

/-- A run over willing sinks never fails: it ends ready after the whole encoding, or is still in
process after a first part of it. -/
theorem Emittable.copyRun {o : DsonObj} {k : Int} {t : Tree} (h : Emittable e o k t)
    (hlt : t.size < 2 ^ 31) (network : Bool) (m : Mem) {ss : List σ}
    (hss : ∀ s ∈ ss, Willing s ∧ written s = []) :
    ∃ r o' bs, o.copyRun e network m ss = some (r, (o', m), bs) ∧
      ((r = .ready ∧ Holds e o' k t ∧ o.pending e network = bs) ∨
        (r = .inProcess ∧ Emittable e o' k t ∧ o.pending e network = bs ++ o'.pending e network)) := by
  obtain ⟨r, ⟨o', m'⟩, bs, hrun, hcases⟩ := (copyCall_resumable hlt m o False).run
    (⟨rfl, h, ⟨rfl, rfl⟩, False.elim⟩ : (o, m).2 = m ∧ _) hss
  rcases hcases with ⟨hr, ⟨rfl, ho'⟩, hbs⟩ | ⟨hr, ⟨rfl, ho', -⟩, hbs⟩
  · exact ⟨r, o', bs, hrun, Or.inl ⟨hr, ho', hbs⟩⟩
  · exact ⟨r, o', bs, hrun, Or.inr ⟨hr, ho', hbs⟩⟩

/-- Over sinks that always take something a run ends. -/
theorem Emittable.copyRun_completes {o : DsonObj} {k : Int} {t : Tree} (h : Emittable e o k t)
    (hlt : t.size < 2 ^ 31) (network : Bool) (m : Mem) {ss : List σ}
    (hss : ∀ s ∈ ss, Willing s ∧ written s = [] ∧ Eager s)
    (hlen : (o.pending e network).length ≤ ss.length) :
    ∃ o', o.copyRun e network m ss = some (.ready, (o', m), o.pending e network) ∧ Holds e o' k t := by
  obtain ⟨⟨o', m'⟩, hrun, rfl, ho'⟩ := (copyCall_resumable hlt m o False).completes
    (⟨rfl, h, ⟨rfl, rfl⟩, False.elim⟩ : (o, m).2 = m ∧ _) (fun hlive => hlive.2.1.pending_ne_nil network) hss hlen
  exact ⟨o', hrun, ho'⟩

/-- A run over sinks one of which may fail. -/
theorem Emittable.copyRun_fails {o : DsonObj} {k : Int} {t : Tree} (h : Emittable e o k t)
    (hstraight : o.Straight e network) (hlt : t.size < 2 ^ 31) (m : Mem) {ss : List σ}
    (hss : ∀ s ∈ ss, written s = []) :
    ∃ r o' bs, o.copyRun e network m ss = some (r, (o', m), bs) ∧ Emittable e o' k t ∧
      (r = .error → ∃ rest, rest ≠ [] ∧ o.pending e network = bs ++ rest ∧ o'.pending e network =
        (o.wire e network).drop (o.resumeAt e network ((o.wire e network).length - rest.length))) := by
  obtain ⟨r, ⟨o', m'⟩, bs, hrun, hcases⟩ := (copyCall_resumable hlt m o True).run_cases
    (⟨rfl, h, ⟨rfl, rfl⟩, fun _ => hstraight⟩ : (o, m).2 = m ∧ _) hss
  rcases hcases with ⟨hr, ⟨rfl, ho'⟩, -⟩ | ⟨hr, ⟨rfl, ho', -⟩, -⟩ |
    ⟨hr, -, -, -, rest, -, -, hne, hbs, ⟨rfl, ho', hpend⟩⟩
  · exact ⟨r, o', bs, hrun, ho'.emittable, fun h => by rw [hr] at h; cases h⟩
  · exact ⟨r, o', bs, hrun, ho', fun h => by rw [hr] at h; cases h⟩
  · exact ⟨r, o', bs, hrun, ho', fun _ => ⟨rest, hne, hbs, hpend trivial⟩⟩

end

end LeanDson
