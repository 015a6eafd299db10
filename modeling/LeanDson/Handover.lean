import LeanDson.Senders

/-! What an object hands over from a call on, window by window: the bytes still to come, whatever the windows, and the
memory around it when all of them are gone. -/

namespace LeanDson

open ByteSink

variable {e : Endian} {network : Bool}

/-! ### Calls to come -/

/-- For `n` more calls the object hands over a first part of these bytes, or all of them and is ready, with the memory
`m₁` around it. -/
def Yields (e : Endian) (network : Bool) (m₁ : Mem) : Nat → DsonObj → Mem → Bytes → Prop
  | 0, _, _, _ => True
  | n + 1, o, m, bs => bs ≠ [] ∧ ∀ (fuel : Nat) (s : BufOut), o.depth ≤ fuel → ∃ r o' m' s' after,
      o.copyFuel e network fuel m s = some (r, o', m', s') ∧
        HandsOver s s' bs r (m' = m₁) (Yields e network m₁ n o' m' after) after (fun _ => True)

/-- The children hand over these bytes, one after the other. -/
def YieldsAll (e : Endian) (network : Bool) (m₁ : Mem) (n : Nat) : ObjMap → Mem → Bytes → Prop
  | [], m, bs => bs = [] ∧ m = m₁
  | (_, o) :: rest, m, bs => ∃ front back m', bs = front ++ back ∧ Yields e network m' n o m front ∧
      YieldsAll e network m₁ n rest m' back

/-- So do the children from a key on. -/
def YieldsFrom (e : Endian) (network : Bool) (m₁ : Mem) (n : Nat) (key : Int) : ObjMap → Mem → Bytes → Prop
  | [], _, _ => False
  | (k, o) :: rest, m, bs => k < key ∧ YieldsFrom e network m₁ n key rest m bs ∨
      k = key ∧ YieldsAll e network m₁ n ((k, o) :: rest) m bs

theorem Yields.pred {m₁ : Mem} {n : Nat} : ∀ {o : DsonObj} {m : Mem} {bs : Bytes}, Yields e network m₁ (n + 1) o m bs →
    Yields e network m₁ n o m bs := by
  induction n with
  | zero => exact fun _ => trivial
  | succ n ih =>
      rintro o m bs ⟨hne, hstep⟩
      refine ⟨hne, fun fuel s hfuel => ?_⟩
      obtain ⟨r, o', m', s', after, hrun, hhand⟩ := hstep fuel s hfuel
      exact ⟨r, o', m', s', after, hrun, hhand.imp (fun _ h => h) (fun _ h => ⟨ih h, rfl⟩) fun _ _ _ _ h => h⟩

theorem YieldsAll.pred {m₁ : Mem} {n : Nat} : ∀ {children : ObjMap} {m : Mem} {bs : Bytes},
    YieldsAll e network m₁ (n + 1) children m bs → YieldsAll e network m₁ n children m bs
  | [], _, _, h => h
  | (_, _) :: _, _, _, ⟨front, back, m', hbs, ho, hrest⟩ => ⟨front, back, m', hbs, ho.pred, hrest.pred⟩

theorem YieldsFrom.ne_nil {m₁ : Mem} {n : Nat} {key : Int} : ∀ {children : ObjMap} {m : Mem} {bs : Bytes},
    YieldsFrom e network m₁ (n + 1) key children m bs → bs ≠ []
  | (_, _) :: _, _, _, Or.inl ⟨_, hrest⟩ => hrest.ne_nil
  | (_, _) :: _, _, _, Or.inr ⟨_, front, back, _, hbs, ho, _⟩ => by
      rw [hbs, ne_eq, List.append_eq_nil_iff]
      exact fun h => ho.1 h.1

/-- What hands over the encoding of a tree does so for any number of calls, and leaves the memory alone. -/
theorem Emittable.yields (m : Mem) (n : Nat) {k : Int} {t : Tree} (hlt : t.size < 2 ^ 31) :
    ∀ {o : DsonObj}, Emittable e o k t → Yields e network m n o m (o.pending e network) := by
  induction n with
  | zero => exact fun _ => trivial
  | succ n ih =>
      intro o ho
      refine ⟨ho.pending_ne_nil network, fun fuel s hfuel => ?_⟩
      obtain ⟨r, o', s', hrun, -, hhand⟩ := copyFuel_emits fuel m s ho hlt hfuel
      exact ⟨r, o', m, s', _, hrun, hhand.imp (fun _ _ => rfl) (fun _ h => ⟨ih h.1, rfl⟩) fun _ _ _ _ _ => trivial⟩

/-! ### Payloads -/

section

variable {d : Dson} {block : Bytes}

namespace Dson.Laden

variable (hd : d.Laden block)

include hd

theorem headerIsLocal : d.headerIsLocal = true := by simp [Dson.headerIsLocal, hd.alloc]

theorem update {d' : Dson} (hkind : d'.dsonKind = d.dsonKind) (halloc : d'.wasBufAllocation = d.wasBufAllocation)
    (hbuf : d'.buf = d.buf) (hsize : d'.bufSize = d.bufSize) : d'.Laden block :=
  ⟨hkind ▸ hd.kind, halloc ▸ hd.alloc, hbuf ▸ hd.buf, hsize ▸ hd.size, hd.nonempty⟩

theorem data (hstate : d.state ≠ .error) : d.data = some 0 := by
  rw [Dson.data, if_neg (by simp [hstate, hd.buf, BufPtr.isNull]), if_pos hd.alloc]

theorem tail (m : Mem) : d.buf.tail m 0 = some block := by
  rw [hd.buf, BufPtr.tail, if_pos (Nat.zero_le _), List.drop_zero]

theorem copyBuf (hstate : d.state = .copyingData) (hoff : d.offset < block.length) (m : Mem) (s : BufOut) :
    ∃ r d' s' after, d.copyBuf m s = some (r, d', s') ∧ HandsOver s s' (block.drop d.offset) r True
      (d'.Laden block ∧ d'.state = .copyingData ∧ d'.offset < block.length ∧ after = block.drop d'.offset) after
      (fun _ => True) := by
  have hsize : d.bufSizeWithoutHeader = block.length := by rw [Dson.bufSizeWithoutHeader, if_pos hd.alloc, hd.size]
  rw [Dson.copyBuf, hsize, if_neg (by omega)]
  simp only [hd.data (by simp [hstate]), hd.tail m, Option.bind_eq_bind, Option.bind_some, Int.toNat_natCast,
    List.take_length]
  rw [if_neg (by omega)]
  have hall : block.drop d.offset = block.drop d.offset ++ [] := (List.append_nil _).symm
  rcases write_drop s block hoff with ⟨s', hw, hfail⟩ | ⟨n, s', hw, hle, hstep⟩
  · simp only [hw]
    refine ⟨_, _, _, [], rfl, ?_⟩
    rw [hall]
    exact hfail trivial
  · obtain ⟨hpart, hrest⟩ := hstep []
    simp only [hw]
    by_cases hend : d.offset + n = block.length
    · rw [if_pos (by exact_mod_cast hend)]
      refine ⟨_, _, _, [], rfl, ?_⟩
      rw [hall]
      exact hrest hend (HandsOver.nothing s' trivial _ _ _)
    · rw [if_neg (by exact_mod_cast hend)]
      refine ⟨_, _, _, block.drop (d.offset + n) ++ [], rfl, ?_⟩
      rw [hall]
      exact hpart (by omega) ⟨hd.update rfl rfl rfl rfl, hstate, by dsimp only; omega, List.append_nil _⟩

end Dson.Laden

/-- A payload on its way. -/
theorem Dson.Laden.yields_data (m : Mem) (n : Nat) : ∀ {d : Dson}, d.Laden block → d.state = .copyingData →
    d.offset < block.length → Yields e network m n (.dson d []) m (block.drop d.offset) := by
  induction n with
  | zero => exact fun _ _ _ => trivial
  | succ n ih =>
      intro d hd hstate hoff
      refine ⟨drop_ne_nil hoff, fun fuel s hfuel => ?_⟩
      obtain ⟨fuel, rfl⟩ : ∃ k, fuel = k + 1 := Nat.exists_eq_succ_of_ne_zero (by rw [DsonObj.depth] at hfuel; omega)
      obtain ⟨r, d', s', after, hrun, hhand⟩ := hd.copyBuf hstate hoff m s
      refine ⟨r, .dson d' [], m, s', after, ?_, hhand.imp (fun _ _ => rfl) ?_ fun _ _ _ _ h => h⟩
      · simp only [DsonObj.copyFuel, Dson.copyInternal, hstate, Dson.copyData_payload _ _ hd.kind, hrun, Option.map_some]
      · rintro - ⟨hd', hstate', hoff', rfl⟩
        exact ⟨ih hd' hstate' hoff', rfl⟩

/-- A header and a payload on their way. -/
theorem Dson.Laden.yields_header (m : Mem) (n : Nat) : ∀ {d : Dson}, d.Laden block → d.state = .copyingHeader →
    d.offset < headerSize → Yields e network m n (.dson d []) m (d.headerBuf.bytes.drop d.offset ++ block) := by
  induction n with
  | zero => exact fun _ _ _ => trivial
  | succ n ih =>
      intro d hd hstate hoff
      refine ⟨fun h => hd.nonempty (List.append_eq_nil_iff.mp h).2, fun fuel s hfuel => ?_⟩
      obtain ⟨fuel, rfl⟩ : ∃ k, fuel = k + 1 := Nat.exists_eq_succ_of_ne_zero (by rw [DsonObj.depth] at hfuel; omega)
      simp only [DsonObj.copyFuel, Dson.copyInternal, hstate]
      rw [Dson.copyHeader_eq, if_neg (by omega), Dson.header_local hd.headerIsLocal, Option.bind_some]
      rcases write_drop s d.headerBuf.bytes (show d.offset < d.headerBuf.bytes.length from hoff) with
        ⟨s', hw, hfail⟩ | ⟨n', s', hw, hle, hstep⟩
      · simp only [hw]
        exact ⟨_, _, _, _, [], rfl, hfail trivial⟩
      obtain ⟨hpart, hrest⟩ := hstep block
      simp only [hw]
      by_cases hend : d.offset + n' < headerSize
      · rw [if_pos hend]
        exact ⟨_, _, _, _, _, rfl, hpart hend (ih (hd.update rfl rfl rfl rfl) hstate hend)⟩
      · have hfull : d.offset + n' = d.headerBuf.bytes.length := le_antisymm hle (not_lt.mp hend)
        have hd' : (d.headerCopied [] n').Laden block := hd.update rfl rfl rfl rfl
        have hzero : (d.headerCopied [] n').offset = 0 := if_neg hd.kind
        obtain ⟨r, d', s'', after, hrun, hhand⟩ := hd'.copyBuf rfl
          (by rw [hzero]; exact List.length_pos_of_ne_nil hd.nonempty) m s'
        rw [hzero, List.drop_zero] at hhand
        rw [if_neg hend, Dson.copyData_payload _ _ hd'.kind, hrun, Option.map_some]
        refine ⟨r, _, m, s'', after, rfl, hrest hfull (hhand.imp (fun _ _ => rfl) ?_ fun _ _ _ _ h => h)⟩
        rintro - ⟨hd'', hstate'', hoff'', rfl⟩
        exact ⟨hd''.yields_data m n hstate'' hoff'', rfl⟩

end

/-! ### Children -/

theorem YieldsFrom.mem_keys {m₁ : Mem} {n : Nat} {key : Int} : ∀ {children : ObjMap} {m : Mem} {bs : Bytes},
    YieldsFrom e network m₁ n key children m bs → key ∈ KeyMap.keys children
  | (_, _) :: _, _, _, Or.inl ⟨_, hrest⟩ => List.mem_cons_of_mem _ hrest.mem_keys
  | (_, _) :: _, _, _, Or.inr ⟨rfl, _⟩ => List.mem_cons_self

/-- What the loop over the children does, from where it stands. -/
def LoopYields (e : Endian) (network : Bool) (m₁ : Mem) (n : Nat) (children : ObjMap) (bs : Bytes) (s : BufOut)
    (out : Option (Result × CopyIter × ObjMap × Mem × BufOut)) : Prop :=
  ∃ r it children' m' s' after, out = some (r, it, children', m', s') ∧ KeyMap.keys children' = KeyMap.keys children ∧
    HandsOver s s' bs r (m' = m₁) (∃ key, it = .node key ∧ YieldsFrom e network m₁ n key children' m' after) after
      (fun _ => True)

/-- The loop from the start. -/
theorem YieldsAll.copyMap {m₁ : Mem} {n fuel : Nat} : ∀ {children : ObjMap} {m : Mem} {bs : Bytes} (s : BufOut),
    YieldsAll e network m₁ (n + 1) children m bs → KeyMap.Sorted children → DsonObj.depths children ≤ fuel →
    LoopYields e network m₁ n children bs s
      (Dson.copyMap (DsonObj.copyFuel e network fuel) (Dson.mapBegin children) children m s)
  | [], m, bs, s, hall, _, _ => by
      obtain ⟨rfl, rfl⟩ := hall
      exact ⟨_, _, _, _, _, [], rfl, rfl, HandsOver.nothing s rfl _ _ _⟩
  | (k, o) :: rest, m, bs, s, hall, hsorted, hfuel => by
      obtain ⟨front, back, m', rfl, ho, hrest⟩ := hall
      rw [DsonObj.depths] at hfuel
      obtain ⟨r, o', m'', s', after, hrun, hhand⟩ := ho.2 fuel s (by omega)
      rw [Dson.mapBegin, Dson.copyMap, if_neg (lt_irrefl k), hrun]
      simp only [Option.bind_eq_bind, Option.bind_some]
      by_cases hr : r = .ready
      · subst hr
        obtain rfl : m'' = m' := hhand.done
        obtain ⟨r, it, rest', m₂, s'', after', hrun', hkeys, hhand'⟩ := hrest.copyMap s' hsorted.tail
          (show DsonObj.depths rest ≤ fuel by omega)
        rw [if_neg (by simp), hrun']
        refine ⟨r, it, (k, o') :: rest', m₂, s'', after', rfl, by rw [KeyMap.keys_cons, KeyMap.keys_cons, hkeys], ?_⟩
        refine (hhand.append ho.1 hhand').imp (fun _ h => h) ?_ fun _ _ _ _ h => h
        rintro - ⟨key, rfl, hfrom⟩
        have hlt : k < key := (KeyMap.sorted_cons.mp hsorted).1 key (hkeys ▸ hfrom.mem_keys)
        exact ⟨⟨key, rfl, Or.inl ⟨hlt, hfrom⟩⟩, rfl⟩
      · rw [if_pos hr]
        refine ⟨r, .node k, (k, o') :: rest, m'', s', after ++ back, rfl, rfl, ?_⟩
        refine (hhand.stop hr back fun _ _ => trivial).imp (fun h => absurd h hr) ?_ fun _ _ _ _ h => h
        exact fun _ ho' => ⟨⟨k, rfl, Or.inr ⟨rfl, after, back, m', rfl, ho', hrest.pred⟩⟩, rfl⟩

/-- The loop from the key of a child. -/
theorem YieldsFrom.copyMap {m₁ : Mem} {n fuel : Nat} {key : Int} : ∀ {children : ObjMap} {m : Mem} {bs : Bytes} (s : BufOut),
    YieldsFrom e network m₁ (n + 1) key children m bs → KeyMap.Sorted children → DsonObj.depths children ≤ fuel →
    LoopYields e network m₁ n children bs s (Dson.copyMap (DsonObj.copyFuel e network fuel) (.node key) children m s)
  | (k, o) :: rest, m, bs, s, Or.inl ⟨hlt, hrest⟩, hsorted, hfuel => by
      rw [DsonObj.depths] at hfuel
      obtain ⟨r, it, rest', m', s', after, hrun, hkeys, hhand⟩ := hrest.copyMap s hsorted.tail
        (show DsonObj.depths rest ≤ fuel by omega)
      rw [Dson.copyMap, if_pos hlt, hrun]
      refine ⟨r, it, (k, o) :: rest', m', s', after, rfl, by rw [KeyMap.keys_cons, KeyMap.keys_cons, hkeys], ?_⟩
      refine hhand.imp (fun _ h => h) ?_ fun _ _ _ _ h => h
      rintro - ⟨key', rfl, hfrom⟩
      have hlt' : k < key' := (KeyMap.sorted_cons.mp hsorted).1 key' (hkeys ▸ hfrom.mem_keys)
      exact ⟨⟨key', rfl, Or.inl ⟨hlt', hfrom⟩⟩, rfl⟩
  | (_, _) :: _, _, _, s, Or.inr ⟨rfl, hall⟩, hsorted, hfuel => YieldsAll.copyMap s hall hsorted hfuel

/-! ### Containers -/

section

variable {d : Dson} {children : ObjMap} {m m₁ : Mem} {bs : Bytes}

/-- The memory around a container does not depend on what it was before the children changed theirs. -/
theorem Dson.outer_outer (d : Dson) (m inside m₁ : Mem) (it : CopyIter) :
    (Dson.outer { (d.outer m inside).1 with copyIter := it } (d.outer m inside).2 m₁).2 = (d.outer m m₁).2 := by
  cases hbuf : d.buf <;> simp [Dson.outer, hbuf]

theorem Dson.outer_congr (d d' : Dson) (hbuf : d'.buf = d.buf) (m m₁ : Mem) : (d'.outer m m₁).2 = (d.outer m m₁).2 := by
  cases hcase : d.buf <;> simp [Dson.outer, hbuf, hcase]

/-- What a container does with what its loop does. -/
theorem LoopYields.copyData {n : Nat} {s : BufOut} {copy : DsonObj → Mem → BufOut → Option (Result × DsonObj × Mem × BufOut)}
    (hkind : d.dsonKind = .dsonContainer)
    (hloop : LoopYields e network m₁ n children bs s (Dson.copyMap copy d.copyIter children (d.inner m) s)) :
    ∃ r d' children' m' s' after, d.copyData copy children m s = some (r, .dson d' children', m', s') ∧
      HandsOver s s' bs r (m' = (d.outer m m₁).2) (∃ key inside, d' = { (d.outer m inside).1 with copyIter := .node key } ∧
        m' = (d.outer m inside).2 ∧ KeyMap.keys children' = KeyMap.keys children ∧
        YieldsFrom e network m₁ n key children' inside after) after (fun _ => True) := by
  obtain ⟨r, it, children', inside, s', after, hrun, hkeys, hhand⟩ := hloop
  rw [Dson.copyData_container _ _ hkind, hrun, Option.map_some]
  refine ⟨r, _, children', _, s', after, rfl, hhand.imp (fun _ h => by rw [h]) ?_ fun _ _ _ _ h => h⟩
  rintro rfl ⟨key, rfl, hfrom⟩
  exact ⟨⟨key, inside, rfl, rfl, hkeys, hfrom⟩, rfl⟩

/-- A container in the middle of its children. -/
theorem YieldsFrom.yields (n : Nat) : ∀ {d : Dson} {children : ObjMap} {m : Mem} {key : Int} {bs : Bytes},
    d.dsonKind = .dsonContainer → d.state = .copyingData → d.copyIter = .node key → KeyMap.Sorted children →
    YieldsFrom e network m₁ n key children (d.inner m) bs →
      Yields e network (d.outer m m₁).2 n (.dson d children) m bs := by
  induction n with
  | zero => exact fun _ _ _ _ _ => trivial
  | succ n ih =>
      intro d children m key bs hkind hstate hiter hsorted hfrom
      refine ⟨hfrom.ne_nil, fun fuel s hfuel => ?_⟩
      rw [DsonObj.depth] at hfuel
      obtain ⟨fuel, rfl⟩ : ∃ k, fuel = k + 1 := Nat.exists_eq_succ_of_ne_zero (by omega)
      have hloop := hfrom.copyMap s hsorted (show DsonObj.depths children ≤ fuel by omega)
      rw [← hiter] at hloop
      obtain ⟨r, d', children', m', s', after, hrun, hhand⟩ := hloop.copyData hkind
      simp only [DsonObj.copyFuel, Dson.copyInternal, hstate]
      refine ⟨r, _, m', s', after, hrun, hhand.imp (fun _ h => h) ?_ fun _ _ _ _ h => h⟩
      rintro - ⟨key', inside, rfl, rfl, hkeys, hfrom'⟩
      have hfields : (d.outer m inside).1.dsonKind = d.dsonKind ∧ (d.outer m inside).1.state = d.state := by
        rw [Dson.outer_fields]
        exact ⟨rfl, rfl⟩
      have hinside := d.inner_outer m inside (.node key') (d.outer m inside).1.state
      have hgoes := ih (d := { (d.outer m inside).1 with copyIter := .node key' }) (m := (d.outer m inside).2)
        (hfields.1.trans hkind) (hfields.2.trans hstate) rfl (by rw [KeyMap.Sorted, hkeys]; exact hsorted)
        (hinside.symm ▸ hfrom')
      rw [Dson.outer_outer] at hgoes
      exact ⟨hgoes, rfl⟩

/-- A container in the middle of its header. -/
theorem YieldsAll.yields {h : Header} (n : Nat) : ∀ {d : Dson}, d.dsonKind = .dsonContainer →
    d.state = .copyingHeader → d.offset < headerSize → d.header m = some h → KeyMap.Sorted children →
    YieldsAll e network m₁ n children (d.inner m) bs →
      Yields e network (d.outer m m₁).2 n (.dson d children) m (h.bytes.drop d.offset ++ bs) := by
  induction n with
  | zero => exact fun _ _ _ _ _ _ => trivial
  | succ n ih =>
      intro d hkind hstate hoff hread hsorted hall
      refine ⟨fun hnil => drop_ne_nil (show d.offset < h.bytes.length from hoff) (List.append_eq_nil_iff.mp hnil).1,
        fun fuel s hfuel => ?_⟩
      rw [DsonObj.depth] at hfuel
      obtain ⟨fuel, rfl⟩ : ∃ k, fuel = k + 1 := Nat.exists_eq_succ_of_ne_zero (by omega)
      simp only [DsonObj.copyFuel, Dson.copyInternal, hstate]
      rw [Dson.copyHeader_eq, if_neg (by omega), hread, Option.bind_some]
      rcases write_drop s h.bytes (show d.offset < h.bytes.length from hoff) with ⟨s', hw, hfail⟩ | ⟨n', s', hw, hle, hstep⟩
      · simp only [hw]
        exact ⟨_, _, _, _, [], rfl, hfail trivial⟩
      obtain ⟨hpart, hrest⟩ := hstep bs
      simp only [hw]
      by_cases hend : d.offset + n' < headerSize
      · rw [if_pos hend]
        have hgoes := ih (d := { d with offset := d.offset + n' }) hkind hstate hend hread hsorted hall.pred
        rw [Dson.outer_congr d { d with offset := d.offset + n' } rfl] at hgoes
        exact ⟨_, _, _, _, _, rfl, hpart hend hgoes⟩
      · have hfull : d.offset + n' = h.bytes.length := le_antisymm hle (not_lt.mp hend)
        have hiter : (d.headerCopied children n').copyIter = Dson.mapBegin children := if_pos hkind
        have hloop := hall.copyMap s' hsorted (show DsonObj.depths children ≤ fuel by omega)
        rw [← hiter] at hloop
        obtain ⟨r, d', children', m', s'', after, hrun, hhand⟩ :=
          LoopYields.copyData (d := d.headerCopied children n') (m := m) hkind hloop
        rw [Dson.outer_congr d (d.headerCopied children n') rfl] at hhand
        rw [if_neg hend]
        refine ⟨r, _, m', s'', after, hrun, hrest hfull (hhand.imp (fun _ h => h) ?_ fun _ _ _ _ h => h)⟩
        rintro - ⟨key, inside, rfl, rfl, hkeys, hfrom⟩
        have hfields : ((d.headerCopied children n').outer m inside).1.dsonKind = .dsonContainer ∧
            ((d.headerCopied children n').outer m inside).1.state = .copyingData := by
          rw [Dson.outer_fields]
          exact ⟨hkind, rfl⟩
        have hinside := (d.headerCopied children n').inner_outer m inside (.node key)
          ((d.headerCopied children n').outer m inside).1.state
        have hgoes := YieldsFrom.yields n
          (d := { ((d.headerCopied children n').outer m inside).1 with copyIter := .node key })
          (m := ((d.headerCopied children n').outer m inside).2) hfields.1 hfields.2 rfl
          (by rw [KeyMap.Sorted, hkeys]; exact hsorted) (hinside.symm ▸ hfrom)
        rw [Dson.outer_outer, Dson.outer_congr d (d.headerCopied children n') rfl] at hgoes
        exact ⟨hgoes, rfl⟩

/-- The first call prepares the copy. -/
theorem Yields.of_prepared {m' : Mem} {n : Nat} {d₁ : Dson} {children₁ : ObjMap} (hstate : d.state = .ready)
    (hprepare : d.prepareCopy e network children m = some (d₁, children₁, m'))
    (hstate₁ : d₁.state = .copyingHeader) (hdepth : DsonObj.depths children₁ ≤ DsonObj.depths children)
    (h : Yields e network m₁ n (.dson d₁ children₁) m' bs) : Yields e network m₁ n (.dson d children) m bs := by
  cases n with
  | zero => trivial
  | succ n =>
      refine ⟨h.1, fun fuel s hfuel => ?_⟩
      rw [DsonObj.depth] at hfuel
      obtain ⟨r, o', m'', s', after, hrun, hhand⟩ := h.2 fuel s (by rw [DsonObj.depth]; omega)
      refine ⟨r, o', m'', s', after, ?_, hhand⟩
      obtain ⟨fuel, rfl⟩ : ∃ k, fuel = k + 1 := Nat.exists_eq_succ_of_ne_zero (by omega)
      simp only [DsonObj.copyFuel, Dson.copyInternal, hstate₁] at hrun
      simp only [DsonObj.copyFuel, Dson.copyInternal, hstate, hprepare, Option.bind_eq_bind, Option.bind_some, hrun]

end

end LeanDson
