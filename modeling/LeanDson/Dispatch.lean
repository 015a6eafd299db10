import LeanDson.Consignment
import LeanDson.Loaders

/-! Senders, from the first call on. A deliverable one hands over a message; any other one gives up, or is ready, before
its length. -/

namespace LeanDson

open ByteSink

variable {e : Endian} {network : Bool}

/-! ### Bounds -/

/-- A call that is in process has filled less than `b` bytes, and one that is ready no more than `b`. -/
def DsonObj.Within (e : Endian) (network : Bool) (o : DsonObj) (b : Nat) : Prop :=
  ∀ {fuel : Nat} {m m' : Mem} {s s' : BufOut} {r : Result} {o' : DsonObj},
    o.copyFuel e network fuel m s = some (r, o', m', s') →
      (r = .ready → s.room ≤ s'.room + b) ∧ (r = .inProcess → s.room < b)

/-- So do the children of a container, one after the other. -/
def DsonObj.WithinAll (e : Endian) (network : Bool) : ObjMap → Nat → Prop
  | [], _ => True
  | (_, o) :: rest, b => ∃ front back, front + back ≤ b ∧ o.Within e network front ∧ DsonObj.WithinAll e network rest back

/-- An object that hands over as many bytes over every memory keeps to that length. -/
theorem DsonObj.Consigns.within {o : DsonObj} {b : Nat}
    (ho : ∀ m, ∃ bs m₁, o.Consigns e network m bs m₁ ∧ bs.length = b) : o.Within e network b := by
  intro fuel m m' s s' r o' hrun
  obtain ⟨bs, m₁, hbs, rfl⟩ := ho m
  obtain ⟨r₁, o₁, m₂, s₁, after, hrun₁, done, hkept, hwritten, hcases⟩ :=
    (hbs.yields 2).2 (max fuel o.depth) s (le_max_right _ _)
  have heq := (copyFuel_extends (le_max_left fuel o.depth) o m s _ hrun).symm.trans hrun₁
  cases heq
  have hroom : s'.room + s'.out.length = s.room + s.out.length := hkept
  have hout := congrArg List.length hwritten
  simp only [written, List.length_append] at hout
  rcases hcases with ⟨rfl, -, rfl⟩ | ⟨rfl, hafter, hfull, -, rfl⟩ | ⟨rfl, -⟩
  · exact ⟨fun _ => by omega, fun h => by cases h⟩
  · have hzero : s'.room = 0 := hfull
    have hpos := List.length_pos_iff.mpr hafter.1
    rw [List.length_append]
    exact ⟨fun h => (by cases h), fun _ => by omega⟩
  · exact ⟨fun h => (by cases h), fun h => by cases h⟩

/-- The loop over the children. -/
theorem DsonObj.WithinAll.copyMap {fuel : Nat} : ∀ {children children' : ObjMap} {b : Nat} {m m' : Mem} {s s' : BufOut}
    {r : Result} {it : CopyIter}, DsonObj.WithinAll e network children b →
    Dson.copyMap (DsonObj.copyFuel e network fuel) (Dson.mapBegin children) children m s = some (r, it, children', m', s') →
    (r = .ready → s.room ≤ s'.room + b) ∧ (r = .inProcess → s.room < b)
  | [], children', b, m, m', s, s', r, it, _, hrun => by
      cases hrun
      exact ⟨fun _ => Nat.le_add_right _ _, fun h => by cases h⟩
  | (k, o) :: rest, children', b, m, m', s, s', r, it, hall, hrun => by
      obtain ⟨front, back, hle, ho, hrest⟩ := hall
      rw [Dson.mapBegin, Dson.copyMap, if_neg (lt_irrefl k)] at hrun
      obtain ⟨⟨r₁, o₁, m₁, s₁⟩, hcopy, hrun⟩ := Option.bind_eq_some_iff.mp hrun
      obtain ⟨hready, hmore⟩ := ho hcopy
      dsimp only at hrun
      split_ifs at hrun with hr
      · cases hrun
        exact ⟨fun h => absurd h hr, fun h => (hmore h).trans_le (by omega)⟩
      · obtain ⟨⟨r₂, it₂, rest₂, m₂, s₂⟩, hmap, heq⟩ := Option.bind_eq_some_iff.mp hrun
        cases heq
        obtain ⟨hready₂, hmore₂⟩ := hrest.copyMap hmap
        have hfirst := hready (not_not.mp hr)
        dsimp only
        refine ⟨fun h => ?_, fun h => ?_⟩
        · have hrest := hready₂ h
          omega
        · have hrest := hmore₂ h
          omega

section

variable {copy : DsonObj → Mem → BufOut → Option (Result × DsonObj × Mem × BufOut)} {d : Dson} {children : ObjMap}
  {m m' : Mem} {s s' : BufOut} {r : Result} {o' : DsonObj}

/-- A header goes in front of what the data phase hands over. -/
theorem Dson.copyHeader_within {b : Nat} (hoff : d.offset = 0)
    (hdata : ∀ n s₁, (d.headerCopied children n).copyData copy children m s₁ = some (r, o', m', s') →
      (r = .ready → s₁.room ≤ s'.room + b) ∧ (r = .inProcess → s₁.room < b))
    (hrun : d.copyHeader copy children m s = some (r, o', m', s')) :
    (r = .ready → s.room ≤ s'.room + (headerSize + b)) ∧ (r = .inProcess → s.room < headerSize + b) := by
  rw [Dson.copyHeader_eq, hoff, if_neg (by decide)] at hrun
  obtain ⟨h, -, hrun⟩ := Option.bind_eq_some_iff.mp hrun
  simp only [ByteSink.write, writeToBuf, List.drop_zero, Header.bytes_length, Nat.zero_add] at hrun
  rw [headerSize] at hrun ⊢
  by_cases hpart : min s.room 16 < 16
  · rw [if_pos hpart] at hrun
    cases hrun
    exact ⟨fun h => (by cases h), fun _ => by omega⟩
  · rw [if_neg hpart] at hrun
    obtain ⟨hready, hmore⟩ := hdata _ _ hrun
    dsimp only at hready hmore
    refine ⟨fun h => ?_, fun h => ?_⟩
    · have hrest := hready h
      omega
    · have hrest := hmore h
      omega

/-- A container that has been prepared keeps to its header and its children. -/
theorem DsonObj.WithinAll.copyHeader {fuel b : Nat} (hall : DsonObj.WithinAll e network children b)
    (hkind : d.dsonKind = .dsonContainer) (hoff : d.offset = 0)
    (hrun : d.copyHeader (DsonObj.copyFuel e network fuel) children m s = some (r, o', m', s')) :
    (r = .ready → s.room ≤ s'.room + (headerSize + b)) ∧ (r = .inProcess → s.room < headerSize + b) := by
  refine Dson.copyHeader_within hoff (fun n s₁ hdata => ?_) hrun
  have hiter : (d.headerCopied children n).copyIter = Dson.mapBegin children := if_pos hkind
  rw [Dson.copyData_container _ _ (by exact hkind), hiter] at hdata
  obtain ⟨⟨r₂, it, children₂, inside, s₂⟩, hmap, heq⟩ := Option.map_eq_some_iff.mp hdata
  cases heq
  exact hall.copyMap hmap

/-- A container keeps to its header and its children. -/
theorem DsonObj.WithinAll.container {b : Nat} (hall : DsonObj.WithinAll e network children b) (hstate : d.state = .ready)
    (hkind : d.dsonKind = .dsonContainer) : (DsonObj.dson d children).Within e network (headerSize + b) := by
  intro fuel m m' s s' r o' hrun
  cases fuel with
  | zero => cases hrun
  | succ fuel =>
      simp only [DsonObj.copyFuel, Dson.copyInternal, hstate] at hrun
      obtain ⟨⟨d₁, children₁, m₁⟩, hprepare, hrun⟩ := Option.bind_eq_some_iff.mp hrun
      obtain ⟨h, d₂, d₃, -, ⟨hneeds, -⟩ | ⟨-, rfl, rfl⟩, hrewrites, rfl⟩ := Dson.prepareCopy_cases hprepare
      · rw [hkind] at hneeds
        cases hneeds
      have hkind₃ : d₃.dsonKind = .dsonContainer := hrewrites.dsonKind.trans hkind
      exact DsonObj.WithinAll.copyHeader (d := { d₃ with offset := 0, state := .copyingHeader }) hall hkind₃ rfl hrun

/-- What has no size of its own ends in an error behind its header. -/
theorem Dson.copyHeader_unsized (hkind : d.dsonKind ≠ .dsonContainer) (hsize : d.bufSize = 0) (hoff : d.offset = 0)
    (hrun : d.copyHeader copy children m s = some (r, o', m', s')) : r ≠ .ready ∧ (r = .inProcess → s.room < headerSize) := by
  have herror : ∀ n s₁, (d.headerCopied children n).copyData copy children m s₁ = some (r, o', m', s') → r = .error := by
    intro n s₁ hdata
    have hzero : (d.headerCopied children n).offset = 0 := if_neg hkind
    have hnone : ((d.headerCopied children n).offset : Int) ≥ (d.headerCopied children n).bufSizeWithoutHeader := by
      rw [hzero, Dson.bufSizeWithoutHeader, show (d.headerCopied children n).bufSize = 0 from hsize]
      split_ifs <;> simp
    rw [Dson.copyData_payload _ _ (by exact hkind), Dson.copyBuf, if_pos hnone] at hdata
    cases hdata
    rfl
  rw [Dson.copyHeader_eq, hoff, if_neg (by decide)] at hrun
  obtain ⟨h, -, hrun⟩ := Option.bind_eq_some_iff.mp hrun
  simp only [ByteSink.write, writeToBuf, List.drop_zero, Header.bytes_length, Nat.zero_add] at hrun
  by_cases hpart : min s.room 16 < headerSize
  · rw [if_pos hpart] at hrun
    cases hrun
    rw [headerSize] at hpart ⊢
    exact ⟨by simp, fun _ => by omega⟩
  · rw [if_neg hpart] at hrun
    rw [herror _ _ hrun]
    exact ⟨by simp, by simp⟩

/-- So it hands over a header, and is ready only when it has been opened. -/
theorem Dson.copyFuel_unsized {fuel : Nat} (hstate : d.state = .ready) (hkind : d.dsonKind ≠ .dsonContainer)
    (hsize : d.bufSize = 0) (hrun : (DsonObj.dson d []).copyFuel e network fuel m s = some (r, o', m', s')) :
    (r = .ready → s.room ≤ s'.room + headerSize ∧
      d.dsonKind = .dataBufNeedParse ∧ ∃ h, d.header m = some h ∧ h.inOrder e !network) ∧
      (r = .inProcess → s.room < headerSize) := by
  cases fuel with
  | zero => cases hrun
  | succ fuel =>
      simp only [DsonObj.copyFuel, Dson.copyInternal, hstate] at hrun
      obtain ⟨⟨d₁, children₁, m₁⟩, hprepare, hrun⟩ := Option.bind_eq_some_iff.mp hrun
      obtain ⟨h, d₂, d₃, hread, hopen, hrewrites, rfl⟩ := Dson.prepareCopy_cases hprepare
      have hsingle : d₂.dsonKind ≠ .dsonContainer → d₂.bufSize = 0 →
          r ≠ .ready ∧ (r = .inProcess → s.room < headerSize) := fun hkind₂ hsize₂ =>
        Dson.copyHeader_unsized (d := { d₃ with offset := 0, state := .copyingHeader }) (hrewrites.dsonKind ▸ hkind₂)
          (hrewrites.bufSize.trans hsize₂) rfl hrun
      rcases hopen with ⟨hneeds, hturn, hparse⟩ | ⟨-, rfl, rfl⟩
      · have hin : h.inOrder e !network := by cases network <;> simpa [Header.inOrder] using hturn
        rcases Dson.parseBuf_cases hparse with ⟨rfl, rfl, -⟩ | ⟨-, notUsed, hloop, hcases⟩
        · obtain ⟨hno, hmore⟩ := hsingle (by simp) hsize
          exact ⟨fun h => absurd h hno, hmore⟩
        · -- the loop of the parse has no bytes to read
          rw [hsize] at hloop
          simp only [Int.toNat_zero, Dson.parseLoop, headerSize, Nat.cast_ofNat, Nat.ofNat_pos, if_true,
            Option.some.injEq, Prod.mk.injEq] at hloop
          obtain ⟨rfl, rfl⟩ := hloop
          obtain ⟨hused, -⟩ | ⟨-, rfl⟩ := hcases
          · exact absurd rfl hused
          · have hnone : DsonObj.WithinAll e network [] 0 := trivial
            obtain ⟨hready, hmore⟩ := hnone.copyHeader (d := { d₃ with offset := 0, state := .copyingHeader })
              hrewrites.dsonKind rfl hrun
            exact ⟨fun h => ⟨hready h, hneeds, _, hread, hin⟩, hmore⟩
      · obtain ⟨hno, hmore⟩ := hsingle hkind hsize
        exact ⟨fun h => absurd h hno, hmore⟩

end

/-! ### Views -/

/-- A view has nothing but a header to hand over. -/
theorem Dson.within_unsized {d : Dson} (hstate : d.state = .ready) (hkind : d.dsonKind ≠ .dsonContainer)
    (hsize : d.bufSize = 0) : (DsonObj.dson d []).Within e network headerSize := fun hrun =>
  let ⟨hready, hmore⟩ := Dson.copyFuel_unsized hstate hkind hsize hrun
  ⟨fun h => (hready h).1, hmore⟩

theorem DsonObj.WithinAll.insertOrAssign {k : Int} {o : DsonObj} {b : Nat} (ho : o.Within e network b) :
    ∀ {children : ObjMap} {n : Nat}, DsonObj.WithinAll e network children n →
      DsonObj.WithinAll e network (KeyMap.insertOrAssign k o children) (n + b)
  | [], n, _ => ⟨b, 0, by omega, ho, trivial⟩
  | (k', o') :: rest, n, ⟨front, back, hle, ho', hrest⟩ => by
      rw [KeyMap.insertOrAssign]
      split_ifs
      · exact ⟨b, n, by omega, ho, front, back, hle, ho', hrest⟩
      · exact ⟨b, back, by omega, ho, hrest⟩
      · exact ⟨front, back + b, by omega, ho', hrest.insertOrAssign ho⟩

theorem Record.within_view (r : Record) (off : Nat) : (DsonObj.dson (r.view e off) []).Within e network headerSize := by
  refine Dson.within_unsized rfl ?_ rfl
  rw [Record.view]
  split_ifs <;> simp

/-- A parse gives nothing but headers to hand over. -/
theorem DsonObj.WithinAll.views {recs : List Record} : ∀ {off : Nat} {map : ObjMap} {n : Nat},
    DsonObj.WithinAll e network map n →
      DsonObj.WithinAll e network (views e off recs map) (n + headerSize * recs.length) := by
  induction recs with
  | nil => exact fun hmap => hmap
  | cons r recs ih =>
      intro off map n hmap
      have hrest := @ih (off + r.bytes.length) _ _ (hmap.insertOrAssign (k := r.key e) (r.within_view off))
      rw [Nat.add_assoc, Nat.add_comm headerSize, ← Nat.mul_succ] at hrest
      exact hrest

/-- Records with payloads are longer than their headers. -/
theorem recordsBytes_payloads {recs : List Record} (hall : ∀ r ∈ recs, r.payload ≠ []) :
    (headerSize + 1) * recs.length ≤ (recordsBytes recs).length := by
  induction recs with
  | nil => exact Nat.zero_le _
  | cons r recs ih =>
      have hrest := ih fun r' hr' => hall r' (List.mem_cons_of_mem _ hr')
      have hpos := List.length_pos_iff.mpr (hall r List.mem_cons_self)
      rw [recordsBytes_cons, List.length_append, Record.bytes_length, List.length_cons, Nat.mul_succ]
      omega

/-- A message that is opened on the way out. -/
theorem Dson.Stocked.within {d : Dson} {block : Bytes} (hd : d.Stocked e block) (hstate : d.state = .ready)
    (hkind : d.dsonKind = .dataBufNeedParse) (hin : d.headerBuf.inOrder e !network) (hle : block.length ≤ 2 ^ 30) :
    ∃ b, (DsonObj.dson d []).Within e network b ∧ b < headerSize + block.length := by
  obtain ⟨htype, recs, hbytes, hall⟩ := hd.records hkind
  have hviews : DsonObj.WithinAll e network (views e 0 recs []) (0 + headerSize * recs.length) :=
    DsonObj.WithinAll.views (n := 0) trivial
  rw [Nat.zero_add] at hviews
  refine ⟨headerSize + headerSize * recs.length, ?_, ?_⟩
  · intro fuel m m' s s' r o' hrun
    cases fuel with
    | zero => cases hrun
    | succ fuel =>
        simp only [DsonObj.copyFuel, Dson.copyInternal, hstate] at hrun
        obtain ⟨⟨d₁, children₁, m₁⟩, hprepare, hrun⟩ := Option.bind_eq_some_iff.mp hrun
        obtain ⟨h, d₂, d₃, hread, hopen, hrewrites, rfl⟩ := Dson.prepareCopy_cases hprepare
        rw [Dson.header_local hd.headerIsLocal] at hread
        cases hread
        rcases hopen with ⟨-, -, hparse⟩ | ⟨hnot, -⟩
        · rcases Dson.parseBuf_spec (m := m) hd.buf hd.alloc hd.size (by simp [hstate]) htype hle [] with
            ⟨recs', hfits', hbytes', hparse'⟩ | ⟨hnot, -⟩
          · have heq := hparse.symm.trans hparse'
            obtain rfl := recordsBytes_inj hfits' (fun r hr => (hall r hr).1) (hbytes'.trans hbytes.symm)
            cases heq
            exact hviews.copyHeader (d := { d₃ with offset := 0, state := .copyingHeader }) hrewrites.dsonKind rfl hrun
          · exact absurd ⟨recs, fun r hr => (hall r hr).1, hbytes⟩ hnot
        · refine absurd ⟨hkind, ?_⟩ hnot
          cases network <;> simpa [Header.inOrder] using hin
  · have hlen := recordsBytes_payloads fun r hr => (hall r hr).2
    have hpos := List.length_pos_iff.mpr hd.nonempty
    rw [hbytes] at hlen
    rw [headerSize] at hlen ⊢
    omega

/-! ### Objects that are not deliverable -/

/-- A payload of the object's own falls short when it has to be opened on the way out. -/
theorem Dson.Stocked.falls_short {d : Dson} {block : Bytes} {m : Mem} (hd : d.Stocked e block) (hstate : d.state = .ready)
    (hnot : ¬(DsonObj.dson d []).Deliverable e network m) (hle : (DsonObj.dson d []).extent e m ≤ headerSize + 2 ^ 30) :
    ∃ b, (DsonObj.dson d []).Within e network b ∧ b < (DsonObj.dson d []).extent e m := by
  have hread := Dson.header_local hd.headerIsLocal m
  have hpos := List.length_pos_iff.mpr hd.nonempty
  have hroom : 0 < d.bufSizeWithoutHeader := by
    rw [Dson.bufSizeWithoutHeader, if_pos hd.alloc, hd.size]
    exact_mod_cast hpos
  rw [DsonObj.Deliverable] at hnot
  rw [DsonObj.extent] at hle ⊢
  cases hcase : d.dsonKind with
  | dsonContainer => exact absurd hcase hd.kind
  | oneObjectInDataBuf =>
      rw [hcase] at hnot
      exact absurd hroom hnot
  | dataBufNeedParse =>
      simp only [hcase, hread, Option.elim_some, hd.announced, Int.toNat_natCast] at hle ⊢
      rw [hcase] at hnot
      have hin : d.headerBuf.inOrder e !network := by
        by_contra hother
        exact hnot ⟨d.headerBuf, hread, by rw [if_neg hother]; exact hroom⟩
      exact hd.within hstate hcase hin (by omega)

/-- So does a view. -/
theorem Dson.Overlooks.falls_short {d : Dson} {m : Mem} (hd : d.Overlooks e m) (hstate : d.state = .ready) :
    ∃ b, (DsonObj.dson d []).Within e network b ∧ b < (DsonObj.dson d []).extent e m := by
  obtain ⟨h, hread, hpos⟩ := hd.announced
  refine ⟨headerSize, Dson.within_unsized hstate hd.kind hd.size, ?_⟩
  rw [DsonObj.extent]
  cases hcase : d.dsonKind with
  | dsonContainer => exact absurd hcase hd.kind
  | oneObjectInDataBuf =>
      simp only [hread, Option.elim_some]
      omega
  | dataBufNeedParse =>
      simp only [hread, Option.elim_some]
      omega

mutual

/-- An object keeps to its length, and falls short of it when it is not deliverable. -/
theorem DsonObj.Packed.within : ∀ {o : DsonObj} {m : Mem}, o.Packed e m → o.extent e m ≤ headerSize + 2 ^ 30 →
    ∃ b, o.Within e network b ∧ b ≤ o.extent e m ∧ (¬o.Deliverable e network m → b < o.extent e m)
  | .dson d children, m, ho, hle => by
      rw [DsonObj.Packed] at ho
      obtain ⟨hstate, ⟨rfl, ⟨block, hd⟩ | hd⟩ | ⟨hkind, -, -, -, hall⟩⟩ := ho
      · by_cases hdel : (DsonObj.dson d []).Deliverable e network m
        · obtain ⟨bs, hbs, hlen⟩ := hd.consigns hstate hdel
          exact ⟨_, DsonObj.Consigns.within fun m => ⟨bs, m, hbs m, rfl⟩, hlen.le, fun h => absurd hdel h⟩
        · obtain ⟨b, hb, hlt⟩ := hd.falls_short hstate hdel hle
          exact ⟨b, hb, hlt.le, fun _ => hlt⟩
      · obtain ⟨b, hb, hlt⟩ : ∃ b, (DsonObj.dson d []).Within e network b ∧ b < (DsonObj.dson d []).extent e m :=
          hd.falls_short hstate
        exact ⟨b, hb, hlt.le, fun _ => hlt⟩
      · rw [DsonObj.Deliverable, hkind]
        rw [DsonObj.extent, hkind] at hle ⊢
        simp only at hle ⊢
        obtain ⟨b, hb, hb', hshort⟩ := hall.within (by omega)
        exact ⟨headerSize + b, hb.container hstate hkind, Nat.add_le_add_left hb' _,
          fun hnot => Nat.add_lt_add_left (hshort hnot) _⟩
  | .string s, m, ho, hle => by
      obtain ⟨bs, hbs, hlen⟩ := ho.consigns_string (by rw [headerSize] at hle; omega)
      refine ⟨_, DsonObj.Consigns.within fun m => ⟨bs, m, hbs m, rfl⟩, hlen.le, fun hnot => absurd ?_ hnot⟩
      rw [DsonObj.Deliverable]
      · trivial
      · simp
  | .route r, m, ho, hle => by
      obtain ⟨bs, hbs, hlen⟩ := ho.consigns_route
      refine ⟨_, DsonObj.Consigns.within fun m => ⟨bs, m, hbs m, rfl⟩, hlen.le, fun hnot => absurd ?_ hnot⟩
      rw [DsonObj.Deliverable]
      · trivial
      · simp

theorem DsonObj.AllPacked.within : ∀ {children : ObjMap} {m : Mem}, DsonObj.AllPacked e children m →
    DsonObj.extents e m children ≤ 2 ^ 30 → ∃ b, DsonObj.WithinAll e network children b ∧
      b ≤ DsonObj.extents e m children ∧
      (¬DsonObj.AllDeliverable e network children m → b < DsonObj.extents e m children)
  | [], m, _, _ => ⟨0, trivial, le_rfl, fun h => absurd trivial h⟩
  | (k, o) :: rest, m, hall, hle => by
      rw [DsonObj.AllPacked] at hall
      rw [DsonObj.extents] at hle ⊢
      rw [DsonObj.AllDeliverable]
      obtain ⟨b, hb, hb', hshort⟩ : ∃ b, o.Within e network b ∧ b ≤ o.extent e m ∧
          (¬o.Deliverable e network m → b < o.extent e m) := hall.1.within (by omega)
      obtain ⟨b₂, hb₂, hb₂', hshort₂⟩ : ∃ b, DsonObj.WithinAll e network rest b ∧ b ≤ DsonObj.extents e m rest ∧
          (¬DsonObj.AllDeliverable e network rest m → b < DsonObj.extents e m rest) := hall.2.within (by omega)
      refine ⟨b + b₂, ⟨b, b₂, le_rfl, hb, hb₂⟩, by omega, fun hnot => ?_⟩
      by_cases hdel : o.Deliverable e network m
      · have hlt := hshort₂ fun h => hnot ⟨hdel, h⟩
        omega
      · have hlt := hshort hdel
        omega

end

/-! ### Senders -/

/-- For `n` more calls the object, with its memory, hands over a first part of these bytes, or all of them. -/
def Sends (e : Endian) (network : Bool) : Nat → DsonObj → Mem → Bytes → Prop
  | 0, _, _, _ => True
  | n + 1, o, m, bs => bs ≠ [] ∧ ∀ s : BufOut, ∃ r o' m' s' after, o.copyTo e network m s = some (r, o', m', s') ∧
      HandsOver s s' bs r True (Sends e network n o' m' after) after (fun _ => True)

theorem Yields.sends {m₁ : Mem} (n : Nat) : ∀ {o : DsonObj} {m : Mem} {bs : Bytes}, Yields e network m₁ n o m bs →
    Sends e network n o m bs := by
  induction n with
  | zero => exact fun _ => trivial
  | succ n ih =>
      rintro o m bs ⟨hne, hstep⟩
      refine ⟨hne, fun s => ?_⟩
      obtain ⟨r, o', m', s', after, hrun, hhand⟩ := hstep o.depth s le_rfl
      exact ⟨r, o', m', s', after, hrun, hhand.imp (fun _ _ => trivial) (fun _ h => ⟨ih h, rfl⟩) fun _ _ _ _ h => h⟩

theorem DsonObj.headerSize_le_extent (o : DsonObj) (m : Mem) : headerSize ≤ o.extent e m := by
  cases o with
  | dson d children =>
      rw [DsonObj.extent]
      split <;> exact Nat.le_add_right _ _
  | string s => exact Nat.le_add_right _ _
  | route r => exact Nat.le_add_right _ _

section

variable {d : Dson} {children : ObjMap} {m : Mem} {h : Header} {bs : Bytes}

/-- A container without children is a header. -/
theorem Dson.consigns_header (e : Endian) (network : Bool) (hstate : d.state = .ready) (hkind : d.dsonKind = .dsonContainer)
    (hread : d.header m = some h) : ∃ m₁,
    (DsonObj.dson d []).Consigns e network m (((h.setDataSize e ([] : Bytes).length).toOrder e network).bytes ++ []) m₁ := by
  obtain ⟨d', m', hset, -⟩ := Dson.setHeader_read hread ((h.setDataSize e ([] : Bytes).length).toOrder e network)
  exact ⟨_, DsonObj.ConsignsAll.container hstate hkind hread (Or.inr rfl) KeyMap.sorted_nil (by decide) hset
    (DsonObj.consignsAll_nil _)⟩

theorem DsonObj.Consigns.copyToStream {o : DsonObj} {m₁ : Mem} (ho : o.Consigns e network m bs m₁) :
    (o.copyToStream e network m).map (fun p => p.2.2) = some bs := by
  obtain ⟨o', hrun⟩ := ho.stream o.depth le_rfl
  rw [DsonObj.copyToStream, hrun]
  rfl

/-- A message that has nothing in it is a container without children. -/
theorem Dson.parseBuf_nothing (hstate : d.state ≠ .error) (hread : d.header m = some h)
    (htype : h.dataTypeOf e = TypesMap.dsonContainer) (hsize : d.bufSize = 0) :
    d.parseBuf e [] m = some ({ d with dsonKind := .dsonContainer }, []) := by
  rw [Dson.parseBuf, Dson.dataType, if_neg hstate, hread, hsize]
  simp only [Option.map_some, Option.bind_eq_bind, Option.bind_some, htype, ne_eq, not_true_eq_false, if_false,
    Int.toNat_zero, Dson.parseLoop, headerSize]
  rfl

end

/-- A header without a payload is sent when the object is a container, or becomes one on the way out. -/
theorem Dson.HeaderAlone.sends {d : Dson} {m : Mem} (hd : d.HeaderAlone e m)
    (hdel : (DsonObj.dson d []).Deliverable e network m) : ∃ h : Header,
    ((DsonObj.dson d []).copyToStream e network m).map (fun p => p.2.2) = some (h.bytes ++ []) ∧ h.dataSizeOf e = 0 ∧
      ∀ n, Sends e network n (.dson d []) m (h.bytes ++ []) := by
  obtain ⟨hstate, h, hread, hcases⟩ := hd
  have hzero : ((h.setDataSize e ([] : Bytes).length).toOrder e network).dataSizeOf e = 0 :=
    Header.dataSizeOf_sent (Or.inr rfl) (by decide)
  by_cases hkind : d.dsonKind = .dsonContainer
  · obtain ⟨m₁, hbs⟩ := Dson.consigns_header e network hstate hkind hread
    exact ⟨_, hbs.copyToStream, hzero, fun n => (hbs.yields n).sends⟩
  obtain ⟨hsize, hnone, htype⟩ := hcases.resolve_left hkind
  have hroom : ¬0 < d.bufSizeWithoutHeader := by
    rw [Dson.bufSizeWithoutHeader, hsize]
    split_ifs <;> simp [headerSize]
  rw [DsonObj.Deliverable] at hdel
  cases hcase : d.dsonKind with
  | dsonContainer => exact absurd hcase hkind
  | oneObjectInDataBuf =>
      rw [hcase] at hdel
      exact absurd hdel hroom
  | dataBufNeedParse =>
      rw [hcase] at hdel
      obtain ⟨h', hread', hdel⟩ := hdel
      obtain rfl : h = h' := Option.some.inj (hread.symm.trans hread')
      have hin : h.inOrder e !network := by
        by_contra hnot
        rw [if_neg hnot] at hdel
        exact hroom hdel
      have hturn : h.isHostOrder e ∧ network ∨ h.isNetworkOrder e ∧ ¬network := by
        cases network <;> simpa [Header.inOrder] using hin
      have hparse := Dson.parseBuf_nothing (e := e) (by simp [hstate]) hread (htype hcase) hsize
      have hread₁ : Dson.header { d with dsonKind := .dsonContainer } m = some h := hread
      obtain ⟨m₁, hbs⟩ := Dson.consigns_header (d := { d with dsonKind := .dsonContainer }) e network hstate
        rfl hread₁
      refine ⟨_, ?_, hzero, fun n => ?_⟩
      · rw [DsonObj.copyToStream, DsonObj.depth, DsonObj.streamFuel, Dson.streamInternal_message hstate hcase hread]
        split_ifs with hfits
        · have hsame : (h.setDataSize e ([] : Bytes).length).toOrder e network = h := by
            have hset := h.setDataSize_dataSizeOf (e := e)
            rw [hnone] at hset
            rw [List.length_nil, Nat.cast_zero, hset, Header.toOrder_of_inOrder hfits]
          rw [dataSize_header hkind, hread, Option.map_some, hnone, Option.bind_some, hsame, Dson.streamRaw,
            Dson.streamHeader, if_neg hkind]
          simp only [Option.bind_eq_bind, Option.bind_some, hread]
          rfl
        · have hopened := hbs.copyToStream
          rw [DsonObj.copyToStream, DsonObj.depth, DsonObj.streamFuel,
            Dson.streamInternal_ready (by exact hstate) (by simp)] at hopened
          rw [hparse]
          exact hopened
      · have hopened := (hbs.yields n).sends
        have hprepare : d.prepareCopy e network [] m =
            Dson.prepareCopy e network { d with dsonKind := .dsonContainer } [] m := by
          rw [Dson.prepareCopy_eq, Dson.prepareCopy_eq, hread, hread₁, Option.bind_some, Option.bind_some,
            if_pos ⟨hcase, hturn⟩, hparse, if_neg (by simp)]
        cases n with
        | zero => trivial
        | succ n =>
            refine ⟨hopened.1, fun s => ?_⟩
            obtain ⟨r, o', m', s', after, hrun, hhand⟩ := hopened.2 s
            refine ⟨r, o', m', s', after, ?_, hhand⟩
            rw [← hrun, DsonObj.copyTo, DsonObj.copyTo, DsonObj.depth, DsonObj.depth]
            simp only [DsonObj.copyFuel, Dson.copyInternal, hstate, hprepare]

/-- A deliverable sender hands over a message, the one that the stream emitter appends. -/
theorem IsSender.sends {o : DsonObj} {m : Mem} (ho : IsSender e o m) (hdel : o.Deliverable e network m)
    (hle : o.extent e m ≤ headerSize + 2 ^ 30) : ∃ h body,
    (o.copyToStream e network m).map (fun p => p.2.2) = some (h.bytes ++ body) ∧ IsMessage e h body ∧
      (h.bytes ++ body).length = o.extent e m ∧ ∀ n, Sends e network n o m (h.bytes ++ body) := by
  cases ho with
  | @headerAlone d m hd =>
      obtain ⟨h, hstream, hsize, hsends⟩ := hd.sends hdel
      obtain ⟨-, h₀, hread, hcases⟩ := hd
      refine ⟨h, [], hstream, ⟨hsize, Nat.zero_le _⟩, ?_, hsends⟩
      rw [DsonObj.extent]
      cases hcase : d.dsonKind with
      | dsonContainer => rfl
      | oneObjectInDataBuf => simp [hread, (hcases.resolve_left (by simp [hcase])).2.1, headerSize]
      | dataBufNeedParse => simp [hread, (hcases.resolve_left (by simp [hcase])).2.1, headerSize]
  | packed ho =>
      obtain ⟨bs, m₁, hbs, hlen, -⟩ := ho.consigns hdel (by rw [headerSize] at hle; omega) ho.marked
      obtain ⟨h, body, rfl, hsize⟩ := hbs.message
      refine ⟨h, body, hbs.copyToStream, ⟨hsize, ?_⟩, hlen, fun n => (hbs.yields n).sends⟩
      rw [← hlen, List.length_append, Header.bytes_length, headerSize] at hle
      omega

/-- Any other sender is never ready, or is not in process over a window with one byte less than its length. -/
theorem IsSender.falls_short {o : DsonObj} {m : Mem} (ho : IsSender e o m) (hnot : ¬o.Deliverable e network m)
    (hle : o.extent e m ≤ headerSize + 2 ^ 30) :
    (∀ {s s' : BufOut} {r : Result} {o' : DsonObj} {m' : Mem}, o.copyTo e network m s = some (r, o', m', s') →
        r ≠ .ready) ∨
      ∀ {s s' : BufOut} {r : Result} {o' : DsonObj} {m' : Mem}, o.copyTo e network m s = some (r, o', m', s') →
        s.room + 1 = o.extent e m → r ≠ .inProcess := by
  have hwithin : ∀ {b : Nat}, o.Within e network b → b < o.extent e m →
      ∀ {s s' : BufOut} {r : Result} {o' : DsonObj} {m' : Mem}, o.copyTo e network m s = some (r, o', m', s') →
        s.room + 1 = o.extent e m → r ≠ .inProcess := by
    intro b hb hlt s s' r o' m' hrun hroom hr
    have hshort := (hb hrun).2 hr
    omega
  cases ho with
  | @headerAlone d m hd =>
      obtain ⟨hstate, h, hread, hcases⟩ := hd
      have hkind : d.dsonKind ≠ .dsonContainer := fun hkind => hnot (by
        rw [DsonObj.Deliverable, hkind]
        trivial)
      obtain ⟨hsize, hnone, -⟩ := hcases.resolve_left hkind
      refine Or.inl fun hrun hr => hnot ?_
      obtain ⟨-, hneeds, h', hread', hin⟩ := (Dson.copyFuel_unsized hstate hkind hsize hrun).1 hr
      obtain rfl : h = h' := Option.some.inj (hread.symm.trans hread')
      rw [DsonObj.Deliverable, hneeds]
      exact ⟨h, hread, by rw [if_pos hin]; exact hnone⟩
  | packed ho =>
      obtain ⟨b, hb, -, hshort⟩ := ho.within hle
      exact Or.inr (hwithin hb (hshort hnot))

end LeanDson
