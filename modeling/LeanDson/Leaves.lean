import LeanDson.Pending

/-! One call of an incremental emitter. It hands over a first part of what is pending, over any sink, and leaves the
tree and its encoding as they were; a call that fails leaves an object that goes on from the position `resumeAt`. Here
the calls on objects without children. -/

namespace LeanDson

open ByteSink

section

variable {e : Endian} {network : Bool} {σ : Type} [ByteSink σ]

/-- What a failed call leaves of an object that had still to hand over `rest`. -/
def Fails (e : Endian) (network : Bool) (k : Int) (t : Tree) (o o' : DsonObj) (rest : Bytes) : Prop :=
  Emittable e o' k t ∧ (o.Straight e network → o'.pending e network =
    (o.wire e network).drop (o.resumeAt e network ((o.wire e network).length - rest.length)))

/-- One call on an emittable object, with the memory around it left alone. -/
def Emits (e : Endian) (network : Bool) (o : DsonObj) (k : Int) (t : Tree) (m : Mem) (s : σ)
    (out : Option (Result × DsonObj × Mem × σ)) : Prop :=
  ∃ r o' s', out = some (r, o', m, s') ∧ o.Alike e network o' ∧
    HandsOver s s' (o.pending e network) r (Holds e o' k t)
      (Emittable e o' k t ∧ (o.Straight e network → o'.Straight e network)) (o'.pending e network)
      (Fails e network k t o o')

/-- A call that goes on as a call on `o₁`, which has a first part of what was pending behind it. -/
theorem Emits.follow {o o₁ : DsonObj} {k : Int} {t : Tree} {m : Mem} {s s' : σ} {front : Bytes}
    {out : Option (Result × DsonObj × Mem × σ)} (h : Emits e network o₁ k t m s' out)
    (hpend : o.pending e network = front ++ o₁.pending e network)
    (halike : o.Alike e network o₁) (hstraight : o.Straight e network → o₁.Straight e network)
    (hfront : ∀ {s'' : σ} {r : Result} {done live : Prop} {after : Bytes} {failed : Bytes → Prop},
      HandsOver s' s'' (o₁.pending e network) r done live after failed →
        HandsOver s s'' (front ++ o₁.pending e network) r done live after failed) :
    Emits e network o k t m s out := by
  obtain ⟨r, o', s'', hout, hsame, hhand⟩ := h
  refine ⟨r, o', s'', hout, halike.trans hsame, ?_⟩
  rw [hpend]
  refine hfront (hhand.imp (fun _ h => h) (fun _ h => ⟨⟨h.1, fun hs => h.2 (hstraight hs)⟩, rfl⟩) ?_)
  rintro - rest - - ⟨ho', hresumes⟩
  refine ⟨ho', fun hs => ?_⟩
  rw [hresumes (hstraight hs), halike.wire, halike.resume]

/-- A call on the object as it is prepared for a copy. -/
theorem Emits.congr {o o₁ : DsonObj} {k : Int} {t : Tree} {m : Mem} {s : σ}
    {out : Option (Result × DsonObj × Mem × σ)} (h : Emits e network o₁ k t m s out)
    (hpend : o.pending e network = o₁.pending e network) (halike : o.Alike e network o₁)
    (hstraight : o.Straight e network → o₁.Straight e network) : Emits e network o k t m s out :=
  h.follow (hpend.trans (List.nil_append _).symm) halike hstraight fun h => h

theorem drop_add_suffix (bs : Bytes) (off n : Nat) : bs.drop (off + n) <:+ bs.drop off := by
  rw [← List.drop_drop]
  exact List.drop_suffix n _

/-! ### Custom objects -/

theorem LeafRecord.wrap32_length {k : Int} {v : Value} {h : Header} {b : Bytes}
    (hl : LeafRecord e k v h b) : wrap32 b.length = b.length := by
  have hint := Header.field_isInt32 (e := e) h h.dataSize
  rw [← Header.dataSizeOf, hl.size] at hint
  exact wrap32_of_isInt32 hint

/-- A string object that has been interrupted goes on where it was. -/
theorem DsonStringObj.fails {o o' : DsonStringObj} {k : Int} {t : Tree} {rest : Bytes}
    (ho' : Emittable e (.string o') k t) (hrest : (DsonObj.string o').pending e network = rest)
    (hsuffix : rest <:+ (DsonObj.string o).pending e network) :
    Fails e network k t (.string o) (.string o') rest := by
  refine ⟨ho', fun hs => ?_⟩
  rw [DsonObj.Straight] at hs
  rw [hrest, DsonObj.resumeAt]
  exact List.suffix_iff_eq_drop.mp (hsuffix.trans hs)

theorem DsonStringObj.copyData_emits {o : DsonStringObj} {k : Int} {v : Value} (m : Mem) (s : σ)
    (hl : LeafRecord e k v o.header o.object) (ht : v.type = TypesMap.string)
    (hstate : o.state = .copyingData) (hoff : o.offset < o.object.length) :
    Emits e network (.string o) k (.leaf v) m s
      (some ((o.copyData s).1, .string (o.copyData s).2.1, m, (o.copyData s).2.2)) := by
  have hlen := hl.wrap32_length
  have hne : o.object ≠ [] := List.ne_nil_of_length_pos (by omega)
  have hpend : ∀ off, (DsonObj.string { o with offset := off }).pending e network = o.object.drop off ++ [] :=
    fun off => by simp only [DsonObj.pending, hstate, List.append_nil]
  have hlive : ∀ off, off < o.object.length → Emittable e (.string { o with offset := off }) k (.leaf v) := by
    intro off hlt
    rw [Emittable]
    exact ⟨hne, hl, ht, Or.inr (Or.inr ⟨hstate, hlt⟩)⟩
  rw [DsonStringObj.copyData]
  simp only [hlen, Int.toNat_natCast, List.take_length]
  rw [if_neg (by omega), Emits, hpend o.offset]
  rcases write_drop s o.object hoff with ⟨s', hw, hfail⟩ | ⟨n, s', hw, hle, hstep⟩
  · simp only [hw]
    refine ⟨_, _, _, rfl, ⟨rfl, rfl⟩, hfail (DsonStringObj.fails (hlive o.offset hoff) (hpend o.offset) ?_)⟩
    simp only [hpend o.offset, List.suffix_rfl]
  obtain ⟨hpart, hall⟩ := hstep []
  simp only [hw]
  by_cases hend : o.offset + n < o.object.length
  · rw [if_pos (by exact_mod_cast hend)]
    refine ⟨_, _, _, rfl, ⟨rfl, rfl⟩, ?_⟩
    rw [hpend]
    refine hpart hend ⟨hlive _ hend, fun hs => ?_⟩
    rw [DsonObj.Straight, hpend o.offset] at hs
    rw [DsonObj.Straight, hpend]
    rw [List.append_nil] at hs ⊢
    exact (drop_add_suffix _ _ _).trans hs
  · rw [if_neg (by exact_mod_cast hend)]
    refine ⟨_, _, _, rfl, ⟨rfl, rfl⟩, hall (by omega) (HandsOver.nothing s' ?_ _ _ _)⟩
    rw [Holds]
    exact ⟨rfl, hne, hl, ht⟩

theorem DsonStringObj.copyLocal_emits {o : DsonStringObj} {k : Int} {v : Value} (m : Mem) (s : σ)
    (hc : Emittable e (.string o) k (.leaf v)) (hstate : o.state ≠ .ready) :
    Emits e network (.string o) k (.leaf v) m s
      (some ((o.copyLocal s).1, .string (o.copyLocal s).2.1, m, (o.copyLocal s).2.2)) := by
  have ho := hc
  rw [Emittable] at hc
  obtain ⟨hne, hl, ht, hready | ⟨hstate, hoff⟩ | ⟨hstate, hoff⟩⟩ := hc
  · exact absurd hready hstate
  · have hpend : ∀ off, (DsonObj.string { o with offset := off }).pending e network =
        o.header.bytes.drop off ++ o.object := fun off => by simp only [DsonObj.pending, hstate]
    have hnext : ∀ off, (DsonObj.string { o with state := .copyingHeader, offset := off }).pending e network =
        o.header.bytes.drop off ++ o.object := fun off => by simp only [DsonObj.pending]
    have hoff' : o.offset < o.header.bytes.length := hoff
    simp only [DsonStringObj.copyLocal, hstate]
    rw [if_neg (by omega)]
    rcases write_drop s o.header.bytes hoff' with ⟨s', hw, hfail⟩ | ⟨n, s', hw, hle, hstep⟩
    · rw [Emits, hpend o.offset]
      simp only [hw]
      refine ⟨_, _, _, rfl, ⟨rfl, rfl⟩, hfail (DsonStringObj.fails ho (hpend o.offset) ?_)⟩
      simp only [hpend o.offset, List.suffix_rfl]
    obtain ⟨hpart, hall⟩ := hstep o.object
    simp only [hw]
    by_cases hend : o.offset + n < headerSize
    · rw [if_pos hend, Emits, hpend o.offset]
      refine ⟨_, _, _, rfl, ⟨rfl, rfl⟩, ?_⟩
      rw [hnext]
      refine hpart hend ⟨?_, fun hs => ?_⟩
      · rw [Emittable]
        exact ⟨hne, hl, ht, Or.inr (Or.inl ⟨rfl, hend⟩)⟩
      · rw [DsonObj.Straight, hpend o.offset] at hs
        rw [DsonObj.Straight, hnext]
        obtain ⟨front, hfront⟩ := drop_add_suffix o.header.bytes o.offset n
        refine List.IsSuffix.trans ⟨front, ?_⟩ hs
        rw [← List.append_assoc, hfront]
    · rw [if_neg hend]
      have hdata : Emits e network (.string { o with state := .copyingData, offset := 0 }) k (.leaf v) m s' _ :=
        DsonStringObj.copyData_emits m s' hl ht rfl (List.length_pos_of_ne_nil hne)
      have hfull : o.offset + n = o.header.bytes.length := le_antisymm hle (not_lt.mp hend)
      have hpend' : (DsonObj.string { o with state := .copyingData, offset := 0 }).pending e network = o.object := by
        simp only [DsonObj.pending, List.drop_zero]
      refine hdata.follow (by rw [hpend']; exact hpend o.offset) ⟨rfl, rfl⟩ (fun hs => ?_) ?_
      · rw [DsonObj.Straight, hpend o.offset] at hs
        rw [DsonObj.Straight, hpend']
        exact (List.suffix_append _ _).trans hs
      · rw [hpend']
        exact hall hfull
  · have hcopy : o.copyLocal s = o.copyData s := by simp only [DsonStringObj.copyLocal, hstate]
    rw [hcopy]
    exact DsonStringObj.copyData_emits m s hl ht hstate hoff

theorem DsonStringObj.copyTo_emits {o : DsonStringObj} {k : Int} {v : Value} (m : Mem) (s : σ)
    (ho : Emittable e (.string o) k (.leaf v)) :
    Emits e network (.string o) k (.leaf v) m s
      (some ((o.copyTo e network s).1, .string (o.copyTo e network s).2.1, m, (o.copyTo e network s).2.2)) := by
  by_cases hstate : o.state = .ready
  · rw [Emittable] at ho
    obtain ⟨hne, hl, ht, -⟩ := ho
    rw [DsonStringObj.copyTo, if_pos hstate]
    have hcopy : Emittable e (.string { o.prepareHeader e network with state := .copyingHeader, offset := 0 })
        k (.leaf v) := by
      rw [Emittable]
      exact ⟨hne, hl.toOrder_string ht network, ht, Or.inr (Or.inl ⟨rfl, Nat.zero_lt_succ _⟩)⟩
    have hwire : (DsonObj.string { o.prepareHeader e network with state := .copyingHeader, offset := 0 }).wire e
        network = (DsonObj.string o).wire e network := by
      simp only [DsonObj.wire, DsonStringObj.prepareHeader, Header.toOrder_toOrder hl.mark]
    have hpend : (DsonObj.string { o.prepareHeader e network with state := .copyingHeader, offset := 0 }).pending e
        network = (DsonObj.string o).wire e network := by
      simp only [DsonObj.pending, DsonObj.wire, DsonStringObj.prepareHeader, List.drop_zero]
    refine (DsonStringObj.copyLocal_emits m s hcopy (by simp)).congr ?_ ⟨hwire, rfl⟩ fun _ => ?_
    · rw [hpend]
      simp only [DsonObj.pending, hstate]
    · simp only [DsonObj.Straight, hpend, hwire, List.suffix_rfl]
  · rw [DsonStringObj.copyTo, if_neg hstate]
    exact DsonStringObj.copyLocal_emits m s ho hstate

theorem DsonRouteObj.wire_congr {o o' : DsonRouteObj} (hh : o'.header = o.header) (ha : o'.address = o.address) :
    (DsonObj.route o').wire e network = (DsonObj.route o).wire e network := by
  simp only [DsonObj.wire, DsonRouteObj.toOrder, hh, ha]
  split_ifs <;> simp [DsonRouteObj.bytes, hh, ha]

theorem DsonRouteObj.copyLocal_emits {o : DsonRouteObj} {k : Int} {v : Value} (m : Mem) (s : σ)
    (hc : Emittable e (.route o) k (.leaf v)) (hstate : o.state ≠ .ready) :
    Emits e network (.route o) k (.leaf v) m s
      (some ((o.copyLocal s).1, .route (o.copyLocal s).2.1, m, (o.copyLocal s).2.2)) := by
  have ho := hc
  rw [Emittable] at hc
  obtain ⟨hl, ht, hready | ⟨hstate, hoff⟩⟩ := hc
  · exact absurd hready hstate
  have hpend : (DsonObj.route o).pending e network = o.bytes.drop o.offset ++ [] := by
    simp only [DsonObj.pending, hstate, List.append_nil]
  have hnext : ∀ off, (DsonObj.route { o with state := .copyingHeader, offset := off }).pending e network =
      o.bytes.drop off ++ [] := fun off => by
    simp only [DsonObj.pending, List.append_nil]
    rfl
  have hoff' : o.offset < o.bytes.length := hoff
  simp only [DsonRouteObj.copyLocal, hstate]
  rw [if_neg (by omega), Emits, hpend]
  rcases write_drop s o.bytes hoff' with ⟨s', hw, hfail⟩ | ⟨n, s', hw, hle, hstep⟩
  · simp only [hw]
    refine ⟨_, _, _, rfl, ⟨rfl, rfl⟩, hfail ⟨ho, fun hs => ?_⟩⟩
    rw [DsonObj.Straight, hpend] at hs
    rw [hpend, DsonObj.resumeAt]
    exact List.suffix_iff_eq_drop.mp hs
  obtain ⟨hpart, hall⟩ := hstep []
  simp only [hw]
  by_cases hend : o.offset + n < headerSize + addressSize
  · rw [if_pos hend]
    refine ⟨_, _, _, rfl, ⟨DsonRouteObj.wire_congr rfl rfl, rfl⟩, ?_⟩
    rw [hnext]
    refine hpart hend ⟨?_, fun hs => ?_⟩
    · rw [Emittable]
      exact ⟨hl, ht, Or.inr ⟨rfl, hend⟩⟩
    · rw [DsonObj.Straight, hpend] at hs
      have hsame : (DsonObj.route { o with state := .copyingHeader, offset := o.offset + n }).wire e network =
          (DsonObj.route o).wire e network := DsonRouteObj.wire_congr rfl rfl
      rw [DsonObj.Straight, hnext, hsame]
      rw [List.append_nil] at hs ⊢
      exact (drop_add_suffix _ _ _).trans hs
  · rw [if_neg hend]
    have hfull : o.offset + n = o.bytes.length := le_antisymm hle (not_lt.mp hend)
    refine ⟨_, _, _, rfl, ⟨DsonRouteObj.wire_congr rfl rfl, rfl⟩, hall hfull (HandsOver.nothing s' ?_ _ _ _)⟩
    rw [Holds]
    exact ⟨rfl, hl, ht⟩

theorem DsonRouteObj.copyTo_emits {o : DsonRouteObj} {k : Int} {v : Value} (m : Mem) (s : σ)
    (ho : Emittable e (.route o) k (.leaf v)) :
    Emits e network (.route o) k (.leaf v) m s
      (some ((o.copyTo e network s).1, .route (o.copyTo e network s).2.1, m, (o.copyTo e network s).2.2)) := by
  by_cases hstate : o.state = .ready
  · rw [Emittable] at ho
    obtain ⟨hl, ht, -⟩ := ho
    rw [DsonRouteObj.copyTo, if_pos hstate]
    have hcopy : Emittable e (.route { o.toOrder e network with state := .copyingHeader, offset := 0 })
        k (.leaf v) := by
      rw [Emittable]
      exact ⟨hl.route_toOrder ht network, ht, Or.inr ⟨rfl, Nat.zero_lt_succ _⟩⟩
    have hwire : (DsonObj.route { o.toOrder e network with state := .copyingHeader, offset := 0 }).wire e network =
        (DsonObj.route o).wire e network := by
      have hagain := DsonRouteObj.toOrder_toOrder hl.mark network
      have hsame : (DsonObj.route { o.toOrder e network with state := .copyingHeader, offset := 0 }).wire e network =
          (DsonObj.route (o.toOrder e network)).wire e network := DsonRouteObj.wire_congr rfl rfl
      exact hsame.trans (congrArg DsonRouteObj.bytes hagain)
    have hpend : (DsonObj.route { o.toOrder e network with state := .copyingHeader, offset := 0 }).pending e
        network = (DsonObj.route o).wire e network := by
      simp only [DsonObj.pending, DsonObj.wire, List.drop_zero]
      rfl
    refine (DsonRouteObj.copyLocal_emits m s hcopy (by simp)).congr ?_ ⟨hwire, rfl⟩ fun _ => ?_
    · rw [hpend]
      simp only [DsonObj.pending, hstate]
    · simp only [DsonObj.Straight, hpend, hwire, List.suffix_rfl]
  · rw [DsonRouteObj.copyTo, if_neg hstate]
    exact DsonRouteObj.copyLocal_emits m s ho hstate

/-! ### Single objects -/

variable {copy : DsonObj → Mem → σ → Option (Result × DsonObj × Mem × σ)}

/-- A single object is emitted alike, whatever state it is in. -/
theorem Dson.Owns.alike {d d' : Dson} {block : Bytes} (hown : d.Owns block) (hown' : d'.Owns block)
    (hh : d'.headerBuf = d.headerBuf) (children : ObjMap) :
    (DsonObj.dson d children).Alike e network (.dson d' children) where
  wire := by simp only [DsonObj.wire, hown.kind, hown.buf, hown'.kind, hown'.buf, hh]
  resume := by
    funext p
    simp only [DsonObj.resumeAt, hown.kind, hown'.kind]

/-- A single object that has been interrupted starts over. -/
theorem Dson.Owns.fails {d : Dson} {k : Int} {v : Value} {block : Bytes} (hown : d.Owns block)
    (hl : LeafRecord e k v d.headerBuf block) (rest : Bytes) :
    Fails e network k (.leaf v) (.dson d []) (.dson { d with state := .ready } []) rest := by
  have hown' : Dson.Owns { d with state := .ready } block :=
    ⟨hown.kind, hown.alloc, hown.buf, hown.size, hown.nonempty⟩
  refine ⟨?_, fun _ => ?_⟩
  · rw [Emittable]
    exact ⟨rfl, block, hown', hl, Or.inl rfl⟩
  · rw [← (hown.alike hown' rfl []).wire, DsonObj.resumeAt]
    simp only [hown.kind, List.drop_zero]
    simp only [DsonObj.pending]

theorem Dson.Owns.straight {d : Dson} {block : Bytes} (hown : d.Owns block)
    (hsuffix : (DsonObj.dson d []).pending e network <:+ (DsonObj.dson d []).wire e network) :
    (DsonObj.dson d []).Straight e network := by
  rw [DsonObj.Straight]
  refine ⟨hsuffix, fun hkind => ?_⟩
  rw [hown.kind] at hkind
  cases hkind

theorem Dson.copyData_leaf {d : Dson} {k : Int} {v : Value} {block : Bytes} (m : Mem) (s : σ)
    (hown : d.Owns block) (hl : LeafRecord e k v d.headerBuf block)
    (hstate : d.state = .copyingData) (hoff : d.offset < block.length) :
    Emits e network (.dson d []) k (.leaf v) m s (d.copyData copy [] m s) := by
  have hsize : d.bufSizeWithoutHeader = block.length := by
    rw [Dson.bufSizeWithoutHeader, if_pos hown.alloc, hown.size]
  have hdata : d.data = some 0 := by
    rw [Dson.data, if_neg (by simp [hstate, hown.buf, BufPtr.isNull]), if_pos hown.alloc]
  have htail : d.buf.tail m 0 = some block := by
    rw [hown.buf, BufPtr.tail, if_pos (Nat.zero_le _), List.drop_zero]
  have hpend : ∀ off, (DsonObj.dson { d with offset := off } []).pending e network = block.drop off ++ [] :=
    fun off => by simp only [DsonObj.pending, hstate, hown.kind, hown.buf, List.append_nil]
  have hown' : ∀ off state, Dson.Owns { d with offset := off, state := state } block := fun _ _ =>
    ⟨hown.kind, hown.alloc, hown.buf, hown.size, hown.nonempty⟩
  rw [Dson.copyData, if_neg (by simp [hown.kind]), Dson.copyBuf, hsize, if_neg (by omega), Emits, hpend d.offset]
  simp only [hdata, htail, Option.bind_eq_bind, Option.bind_some, Int.toNat_natCast, List.take_length]
  rw [if_neg (by omega)]
  rcases write_drop s block hoff with ⟨s', hw, hfail⟩ | ⟨n, s', hw, hle, hstep⟩
  · simp only [hw]
    exact ⟨_, _, _, rfl, hown.alike (hown' d.offset .ready) rfl [], hfail (hown.fails hl _)⟩
  obtain ⟨hpart, hall⟩ := hstep []
  simp only [hw]
  by_cases hend : d.offset + n = block.length
  · rw [if_pos (by exact_mod_cast hend)]
    refine ⟨_, _, _, rfl, hown.alike (hown' _ .ready) rfl [], hall hend (HandsOver.nothing s' ?_ _ _ _)⟩
    rw [Holds]
    exact ⟨rfl, rfl, block, hown' _ .ready, hl⟩
  · rw [if_neg (by exact_mod_cast hend)]
    have halike : (DsonObj.dson d []).Alike e network (.dson { d with offset := d.offset + n } []) :=
      hown.alike (hown' (d.offset + n) d.state) rfl []
    refine ⟨_, _, _, rfl, halike, ?_⟩
    rw [hpend]
    refine hpart (by omega) ⟨?_, fun hs => ?_⟩
    · rw [Emittable]
      exact ⟨rfl, block, hown' _ d.state, hl, Or.inr (Or.inr ⟨hstate, by dsimp only; omega⟩)⟩
    · have hsuffix := hs.1
      rw [hpend d.offset, List.append_nil] at hsuffix
      refine (hown' (d.offset + n) d.state).straight ?_
      rw [halike.wire, hpend, List.append_nil]
      exact (drop_add_suffix _ _ _).trans hsuffix

theorem Dson.copyHeader_leaf {d : Dson} {k : Int} {v : Value} {block : Bytes} (m : Mem) (s : σ)
    (hown : d.Owns block) (hl : LeafRecord e k v d.headerBuf block)
    (hstate : d.state = .copyingHeader) (hoff : d.offset < headerSize) :
    Emits e network (.dson d []) k (.leaf v) m s (d.copyHeader copy [] m s) := by
  have hpend : ∀ off, (DsonObj.dson { d with offset := off } []).pending e network =
      d.headerBuf.bytes.drop off ++ block :=
    fun off => by simp only [DsonObj.pending, hstate, hown.kind, hown.buf]
  have hown' : ∀ off state, Dson.Owns { d with offset := off, state := state } block := fun _ _ =>
    ⟨hown.kind, hown.alloc, hown.buf, hown.size, hown.nonempty⟩
  have hoff' : d.offset < d.headerBuf.bytes.length := hoff
  rw [Dson.copyHeader, if_neg (by omega), hown.header]
  simp only [Option.bind_eq_bind, Option.bind_some]
  rcases write_drop s d.headerBuf.bytes hoff' with ⟨s', hw, hfail⟩ | ⟨n, s', hw, hle, hstep⟩
  · rw [Emits, hpend d.offset]
    simp only [hw]
    exact ⟨_, _, _, rfl, hown.alike (hown' d.offset .ready) rfl [], hfail (hown.fails hl _)⟩
  obtain ⟨hpart, hall⟩ := hstep block
  simp only [hw]
  by_cases hend : d.offset + n < headerSize
  · rw [if_pos hend, Emits, hpend d.offset]
    have halike : (DsonObj.dson d []).Alike e network (.dson { d with offset := d.offset + n } []) :=
      hown.alike (hown' (d.offset + n) d.state) rfl []
    refine ⟨_, _, _, rfl, halike, ?_⟩
    rw [hpend]
    refine hpart hend ⟨?_, fun hs => ?_⟩
    · rw [Emittable]
      exact ⟨rfl, block, hown' _ d.state, hl, Or.inr (Or.inl ⟨hstate, hend⟩)⟩
    · have hsuffix := hs.1
      rw [hpend d.offset] at hsuffix
      refine (hown' (d.offset + n) d.state).straight ?_
      rw [halike.wire, hpend]
      obtain ⟨front, hfront⟩ := drop_add_suffix d.headerBuf.bytes d.offset n
      refine List.IsSuffix.trans ⟨front, ?_⟩ hsuffix
      rw [← List.append_assoc, hfront]
  · have hfull : d.offset + n = d.headerBuf.bytes.length := le_antisymm hle (not_lt.mp hend)
    have hkind : d.dsonKind ≠ .dsonContainer := by simp [hown.kind]
    have hpend' : (DsonObj.dson { d with offset := 0, state := .copyingData } []).pending e network = block := by
      simp only [DsonObj.pending, hown.kind, hown.buf, List.drop_zero]
    have halike : (DsonObj.dson d []).Alike e network (.dson { d with offset := 0, state := .copyingData } []) :=
      hown.alike (hown' 0 .copyingData) rfl []
    rw [if_neg hend, if_neg hkind]
    refine (Dson.copyData_leaf m s' (hown' 0 .copyingData) hl rfl
      (List.length_pos_of_ne_nil hown.nonempty)).follow (by rw [hpend']; exact hpend d.offset) halike
      (fun hs => ?_) ?_
    · have hsuffix := hs.1
      rw [hpend d.offset] at hsuffix
      refine (hown' 0 .copyingData).straight ?_
      rw [halike.wire, hpend']
      exact (List.suffix_append _ _).trans hsuffix
    · rw [hpend']
      exact hall hfull

theorem Dson.copyInternal_leaf {d : Dson} {children : ObjMap} {k : Int} {v : Value} (m : Mem) (s : σ)
    (ho : Emittable e (.dson d children) k (.leaf v)) :
    Emits e network (.dson d children) k (.leaf v) m s (d.copyInternal e copy network children m s) := by
  rw [Emittable] at ho
  obtain ⟨rfl, block, hown, hl, hstate | ⟨hstate, hoff⟩ | ⟨hstate, hoff⟩⟩ := ho
  · obtain ⟨h', b', hconv, hl', hlen⟩ := hl.convert network
    have hprep : d.prepareCopy e network [] m = some
        ({ d with headerBuf := h', buf := .own b', offset := 0, state := .copyingHeader }, [], m) := by
      have horder := hown.toOrder (by simp [hstate]) e network m
      rw [hconv] at horder
      simp [Dson.prepareCopy, Dson.isHostOrder, Dson.isNetworkOrder, hown.header, hown.kind, horder]
    have hown' : Dson.Owns { d with headerBuf := h', buf := .own b', offset := 0, state := .copyingHeader }
        b' := ⟨hown.kind, hown.alloc, rfl, by rw [hlen]; exact hown.size,
          fun hnil => hown.nonempty (List.eq_nil_of_length_eq_zero (by rw [← hlen, hnil]; rfl))⟩
    have hwire : (DsonObj.dson d []).wire e network = h'.bytes ++ b' := by
      simp only [DsonObj.wire, hown.kind, hown.buf, hconv]
    have hwire' : (DsonObj.dson { d with
        headerBuf := h', buf := .own b', offset := 0, state := .copyingHeader } []).wire e network = h'.bytes ++ b' := by
      simp only [DsonObj.wire, hown.kind, convertRecord_again hl.mark hconv]
    have hpend' : (DsonObj.dson { d with
        headerBuf := h', buf := .own b', offset := 0, state := .copyingHeader } []).pending e network = h'.bytes ++ b' := by
      simp only [DsonObj.pending, hown.kind, List.drop_zero]
    have hpend : (DsonObj.dson d []).pending e network = (DsonObj.dson d []).wire e network := by
      simp only [DsonObj.pending, hstate, hown.kind]
    simp only [Dson.copyInternal, hstate, hprep, Option.bind_eq_bind, Option.bind_some]
    refine (Dson.copyHeader_leaf m s hown' hl' rfl (Nat.zero_lt_succ _)).congr ?_ ⟨?_, ?_⟩ fun _ => ?_
    · rw [hpend, hwire, hpend']
    · rw [hwire, hwire']
    · funext p
      simp only [DsonObj.resumeAt, hown.kind]
    · refine hown'.straight ?_
      simp only [hwire', hpend', List.suffix_rfl]
  · simp only [Dson.copyInternal, hstate]
    exact Dson.copyHeader_leaf m s hown hl hstate hoff
  · simp only [Dson.copyInternal, hstate]
    exact Dson.copyData_leaf m s hown hl hstate hoff

end

end LeanDson
