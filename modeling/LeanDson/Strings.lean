import LeanDson.Inversion
import LeanDson.Keys

/-! Strings. An object that holds a string is emitted and read back as that string, with one exception:
an empty `DsonStringObj` is never done, and neither is a container that has one in it, so that no emission
to a descriptor or a buffer gets to its end. -/

namespace LeanDson

/-! ### Empty strings -/

/-- An object that no incremental emitter finishes: an empty `DsonStringObj`, or a container that has still
to come to such an object. -/
inductive Stuck : DsonObj → Prop
  | string {s : DsonStringObj} (hempty : s.object = []) : Stuck (.string s)
  | node {d : Dson} {children : ObjMap} {k : Int} {o : DsonObj} (hkind : d.dsonKind = .dsonContainer)
      (hsorted : KeyMap.Sorted children) (hfind : KeyMap.find k children = some o) (ho : Stuck o)
      (hat : d.state = .copyingData → ∃ key, d.copyIter = .node key ∧ key ≤ k) : Stuck (.dson d children)

section

variable {σ : Type}

/-- What the loop asks of the emitter of the children. -/
def StuckBelow (copy : DsonObj → Mem → σ → Option (Result × DsonObj × Mem × σ)) : Prop :=
  ∀ ⦃o : DsonObj⦄ ⦃m : Mem⦄ ⦃s : σ⦄ ⦃r : Result⦄ ⦃o' : DsonObj⦄ ⦃m' : Mem⦄ ⦃s' : σ⦄, Stuck o →
    copy o m s = some (r, o', m', s') → r ≠ .ready ∧ Stuck o'

variable {copy : DsonObj → Mem → σ → Option (Result × DsonObj × Mem × σ)}

/-- The loop does not get past a child that is never done. -/
theorem copyMap_stuck (hcopy : StuckBelow copy) {k : Int} {o : DsonObj} (ho : Stuck o) {children children' : ObjMap}
    {key : Int} {m m' : Mem} {s s' : σ} {r : Result} {it : CopyIter} (hsorted : KeyMap.Sorted children)
    (hfind : KeyMap.find k children = some o) (hle : key ≤ k)
    (hrun : Dson.copyMap copy (.node key) children m s = some (r, it, children', m', s')) :
    r ≠ .ready ∧ KeyMap.keys children' = KeyMap.keys children ∧
      (∃ o', KeyMap.find k children' = some o' ∧ Stuck o') ∧ ∃ key', it = .node key' ∧ key' ≤ k := by
  induction children generalizing key m s children' with
  | nil => cases hfind
  | cons p rest ih =>
      obtain ⟨k₀, c⟩ := p
      rw [KeyMap.find] at hfind
      rw [Dson.copyMap] at hrun
      have hrest := (KeyMap.sorted_cons.mp hsorted)
      by_cases hbefore : k₀ < key
      · -- a child that has been handed over already
        rw [if_neg (show k ≠ k₀ by omega)] at hfind
        rw [if_pos hbefore] at hrun
        obtain ⟨⟨r₁, it₁, rest', m₁, s₁⟩, hloop, heq⟩ := Option.bind_eq_some_iff.mp hrun
        cases heq
        obtain ⟨hr, hkeys, ⟨o', hfind', ho'⟩, hit⟩ := ih hrest.2 hfind hle hloop
        refine ⟨hr, by rw [KeyMap.keys_cons, KeyMap.keys_cons, hkeys], ⟨o', ?_, ho'⟩, hit⟩
        rw [KeyMap.find, if_neg (show k ≠ k₀ by omega), hfind']
      · rw [if_neg hbefore] at hrun
        obtain ⟨⟨r₁, c', m₁, s₁⟩, hchild, hnext⟩ := Option.bind_eq_some_iff.mp hrun
        dsimp only at hnext
        by_cases hkey : k = k₀
        · -- the child itself
          rw [if_pos hkey] at hfind
          cases hfind
          obtain ⟨hr, ho'⟩ := hcopy ho hchild
          rw [if_pos hr] at hnext
          cases hnext
          exact ⟨hr, rfl, ⟨c', by rw [KeyMap.find, if_pos hkey], ho'⟩, k₀, rfl, hkey.ge⟩
        · rw [if_neg hkey] at hfind
          have hlt : k₀ < k := hrest.1 k (KeyMap.mem_keys_of_find hfind)
          by_cases hr : r₁ = .ready
          · rw [if_neg (not_not.mpr hr)] at hnext
            obtain ⟨⟨r₂, it₂, rest', m₂, s₂⟩, hloop, heq⟩ := Option.bind_eq_some_iff.mp hnext
            cases heq
            cases rest with
            | nil => cases hfind
            | cons q rest =>
                have hfirst : q.1 ≤ k := by
                  rcases List.mem_cons.mp (KeyMap.mem_keys_of_find hfind) with heq | hmem
                  · exact heq.ge
                  · exact ((KeyMap.sorted_cons.mp hrest.2).1 k hmem).le
                obtain ⟨hr', hkeys, ⟨o', hfind', ho'⟩, hit⟩ := ih hrest.2 hfind hfirst hloop
                refine ⟨hr', by rw [KeyMap.keys_cons, KeyMap.keys_cons, hkeys], ⟨o', ?_, ho'⟩, hit⟩
                rw [KeyMap.find, if_neg hkey, hfind']
          · rw [if_pos hr] at hnext
            cases hnext
            exact ⟨hr, rfl, ⟨o, by rw [KeyMap.find, if_neg hkey, hfind], ho⟩, k₀, rfl, hlt.le⟩

end

section

variable {e : Endian} {network : Bool} {σ : Type} [ByteSink σ]

theorem DsonStringObj.copyData_stuck {o : DsonStringObj} (hempty : o.object = []) (s : σ) :
    o.copyData s = (.error, o, s) := by
  rw [copyData, hempty]
  exact if_pos (Int.natCast_nonneg _)

theorem DsonStringObj.copyLocal_stuck {o : DsonStringObj} (hempty : o.object = []) (s : σ) :
    (o.copyLocal s).1 ≠ .ready ∧ (o.copyLocal s).2.1.object = [] := by
  rw [copyLocal]
  cases o.state with
  | copyingHeader =>
      dsimp only
      by_cases hoff : o.offset ≥ headerSize
      · rw [if_pos hoff]
        exact ⟨by simp, hempty⟩
      · rw [if_neg hoff]
        rcases ByteSink.write s (o.header.bytes.drop o.offset) with ⟨n, s'⟩
        cases n with
        | none => exact ⟨by simp, hempty⟩
        | some n =>
            dsimp only
            split_ifs
            · exact ⟨by simp, hempty⟩
            · have hdata : DsonStringObj.copyData { o with state := .copyingData, offset := 0 } s' =
                  (.error, { o with state := .copyingData, offset := 0 }, s') := by
                exact copyData_stuck (o := { o with state := .copyingData, offset := 0 }) hempty s'
              rw [hdata]
              exact ⟨by simp, hempty⟩
  | copyingData =>
      dsimp only
      rw [copyData_stuck hempty]
      exact ⟨by simp, hempty⟩
  | ready | loadingHeader | loadingData | error => exact ⟨by simp, hempty⟩

theorem DsonStringObj.copyTo_stuck {o : DsonStringObj} (hempty : o.object = []) (s : σ) :
    (o.copyTo e network s).1 ≠ .ready ∧ (o.copyTo e network s).2.1.object = [] := by
  rw [copyTo]
  split_ifs
  · exact copyLocal_stuck (o := { o.prepareHeader e network with state := .copyingHeader, offset := 0 }) hempty s
  · exact copyLocal_stuck hempty s

/-- A container that has still to come to such an object, wherever its copy stands. -/
theorem Stuck.copyData {d : Dson} {children : ObjMap} {copy : DsonObj → Mem → σ → Option (Result × DsonObj × Mem × σ)}
    (hcopy : StuckBelow copy) (h : Stuck (.dson d children)) (hstate : d.state = .copyingData) {m m' : Mem} {s s' : σ}
    {r : Result} {o' : DsonObj} (hrun : d.copyData copy children m s = some (r, o', m', s')) : r ≠ .ready ∧ Stuck o' := by
  cases h with
  | node hkind hsorted hfind ho hat =>
      obtain ⟨key, hiter, hle⟩ := hat hstate
      rw [Dson.copyData_container copy s hkind, hiter] at hrun
      obtain ⟨⟨r₁, it, children', inside, s₁⟩, hloop, heq⟩ := Option.map_eq_some_iff.mp hrun
      obtain ⟨hr, hkeys, ⟨c, hfind', hc⟩, key', rfl, hle'⟩ := copyMap_stuck hcopy ho hsorted hfind hle hloop
      cases heq
      refine ⟨hr, .node ?_ (hsorted.congr hkeys) hfind' hc fun _ => ⟨key', rfl, hle'⟩⟩
      rw [Dson.outer_fields]
      exact hkind

theorem Stuck.copyHeader {d : Dson} {children : ObjMap} {copy : DsonObj → Mem → σ → Option (Result × DsonObj × Mem × σ)}
    (hcopy : StuckBelow copy) (h : Stuck (.dson d children)) (hstate : d.state = .copyingHeader) {m m' : Mem} {s s' : σ}
    {r : Result} {o' : DsonObj} (hrun : d.copyHeader copy children m s = some (r, o', m', s')) : r ≠ .ready ∧ Stuck o' := by
  rw [Dson.copyHeader_eq] at hrun
  split_ifs at hrun with hoff
  · cases hrun
    exact ⟨by simp, h⟩
  · obtain ⟨h', -, hrun⟩ := Option.bind_eq_some_iff.mp hrun
    cases h with
    | @node _ _ k o hkind hsorted hfind ho hat =>
        rcases hwrite : ByteSink.write s (h'.bytes.drop d.offset) with ⟨n, s₁⟩
        rw [hwrite] at hrun
        cases n with
        | none =>
            cases hrun
            exact ⟨by simp, .node hkind hsorted hfind ho (by simp)⟩
        | some n =>
            dsimp only at hrun
            split_ifs at hrun with hless
            · cases hrun
              exact ⟨by simp, .node hkind hsorted hfind ho (by simp [hstate])⟩
            · have hcopied : Stuck (.dson (d.headerCopied children n) children) := by
                refine .node hkind hsorted hfind ho fun _ => ?_
                cases children with
                | nil => cases hfind
                | cons p rest =>
                    refine ⟨p.1, if_pos hkind, ?_⟩
                    rcases List.mem_cons.mp (KeyMap.mem_keys_of_find hfind) with heq | hmem
                    · exact heq.ge
                    · exact ((KeyMap.sorted_cons.mp hsorted).1 k hmem).le
              exact Stuck.copyData hcopy hcopied rfl hrun

/-- One call never finishes such an object. -/
theorem copyFuel_stuck : ∀ fuel : Nat, StuckBelow (σ := σ) (DsonObj.copyFuel e network fuel)
  | 0 => fun _ _ _ _ _ _ _ _ hrun => by cases hrun
  | fuel + 1 => by
      intro o m s r o' m' s' h hrun
      cases h with
      | @string o hempty =>
          obtain ⟨hr, hempty'⟩ : (o.copyTo e network s).1 ≠ .ready ∧ (o.copyTo e network s).2.1.object = [] :=
            DsonStringObj.copyTo_stuck hempty s
          cases hrun
          exact ⟨hr, .string hempty'⟩
      | @node d children k o hkind hsorted hfind ho hat =>
          have h : Stuck (.dson d children) := .node hkind hsorted hfind ho hat
          rw [DsonObj.copyFuel, Dson.copyInternal] at hrun
          split at hrun
          · obtain ⟨⟨d', children', m₁⟩, hprepare, hrun⟩ := Option.bind_eq_some_iff.mp hrun
            obtain ⟨h', d₁, d₂, -, ⟨hneed, -⟩ | ⟨-, rfl, rfl⟩, hrewrites, rfl⟩ := Dson.prepareCopy_cases hprepare
            · rw [hkind] at hneed
              cases hneed
            · have hprepared : Stuck (.dson { d₂ with offset := 0, state := .copyingHeader } children') :=
                .node (hrewrites.dsonKind.trans hkind) hsorted hfind ho (by simp)
              exact Stuck.copyHeader (copyFuel_stuck fuel) hprepared rfl hrun
          · exact Stuck.copyHeader (copyFuel_stuck fuel) h ‹_› hrun
          · exact Stuck.copyData (copyFuel_stuck fuel) h ‹_› hrun
          · cases hrun
            exact ⟨by simp, h⟩

/-- A run never finishes such an object. -/
theorem Stuck.copyRun {o : DsonObj} (h : Stuck o) {m : Mem} {ss : List σ} {r : Result} {p : DsonObj × Mem} {bs : Bytes}
    (hrun : o.copyRun e network m ss = some (r, p, bs)) : r ≠ .ready := by
  rw [DsonObj.copyRun] at hrun
  induction ss generalizing o m bs with
  | nil =>
      cases hrun
      simp
  | cons s ss ih =>
      rw [emitRun] at hrun
      obtain ⟨⟨r₁, ⟨o₁, m₁⟩, s₁⟩, hcall, hnext⟩ := Option.bind_eq_some_iff.mp hrun
      obtain ⟨⟨r₂, o₂, m₂, s₂⟩, hcopy, heq⟩ := Option.bind_eq_some_iff.mp hcall
      cases heq
      obtain ⟨hr, ho⟩ := copyFuel_stuck _ h hcopy
      dsimp only at hnext
      split_ifs at hnext
      · obtain ⟨⟨r₃, p₃, bs₃⟩, hmore, heq⟩ := Option.bind_eq_some_iff.mp hnext
        cases heq
        exact ih ho hmore
      · cases hnext
        exact hr

end

/-! ### Objects with strings -/

/-- The objects that hold a string: `Dson(std::string)` and `Dson(std::string_view)` over whatever the memory
held, and `DsonStringObj`. -/
inductive HoldsString (e : Endian) (s : Bytes) : DsonObj → Int → Prop
  | dson {h : Header} {junk : Nat → UInt8} {o : DsonObj} (hrun : DsonObj.ofString e h junk s = some o) :
      HoldsString e s o (h.key.int32 e)
  | custom {key : Int} (hkey : IsInt32 key) : HoldsString e s (DsonObj.ofStringObj e key s) key

/-- A string under a key of a container survives: every object for it can be made and put in, by either
`emplace`; it is read before sending, every emission is done, and every load gives it and all other entries
back. -/
structure Survives (e : Endian) (s : Bytes) (key : Int) (ts : Forest) (o : DsonObj) (m : Mem) : Prop where
  made : ∀ h junk, ∃ obj, DsonObj.ofString e h junk s = some obj
  added : ∀ obj k₀, HoldsString e s obj k₀ → ∃ o', DsonObj.emplace e key obj o m = some (o', m)
  addedPtr : ∀ obj, HoldsString e s obj key → ∃ o', DsonObj.emplacePtr e obj o m = some (o', m)
  read : ∀ obj k₀ o', HoldsString e s obj k₀ → Added e key obj k₀ o m o' →
    ∃ o'', look e key .string o' m = some (.value (some (.string s)), o'', m)
  sent : ∀ obj k₀ o', HoldsString e s obj k₀ → Added e key obj k₀ o m o' →
    Emissions e o' m (Conveys e (KeyMap.insertOrAssign key (.leaf (.string s)) ts))

section

variable {e : Endian}

/-- Only below the range of 32-bit integers has the constructor room for the string. -/
theorem ofString_lt {h : Header} {junk : Nat → UInt8} {s : Bytes} {o : DsonObj}
    (hrun : DsonObj.ofString e h junk s = some o) : s.length < 2 ^ 31 := by
  by_contra hge
  have hne : s ≠ [] := by
    rintro rfl
    exact hge (by decide)
  rw [DsonObj.ofString, if_neg hne, DsonObj.ofValue, Dson.init] at hrun
  have hle : wrap32 s.length < s.length := by
    have := wrap32_isInt32 s.length
    rw [IsInt32] at this
    omega
  by_cases hpos : wrap32 s.length ≤ 0
  · rw [Dson.allocate, if_pos hpos] at hrun
    cases hrun
  · rw [Dson.allocate, if_neg hpos] at hrun
    simp only [Dson.store, BufPtr.tail, List.drop_zero, Nat.zero_le, if_true, Option.bind_eq_bind, Option.bind_some,
      poke, List.length_map, List.length_range] at hrun
    rw [if_pos (by omega)] at hrun
    cases hrun

theorem HoldsString.holds {s : Bytes} {o : DsonObj} {k : Int} (h : HoldsString e s o k) (hne : s ≠ [])
    (hlt : s.length < 2 ^ 31) : Holds e o k (.leaf (.string s)) := by
  cases h with
  | dson hrun =>
      obtain ⟨o', hrun', ho'⟩ := holds_ofString _ _ hne hlt
      rw [hrun'] at hrun
      cases hrun
      exact ho'
  | custom hkey => exact holds_ofStringObj hkey hne hlt

theorem readTyped_string {o : DsonObj} {m : Mem} {s : Bytes} (htype : o.dataType e m = some TypesMap.string)
    (hview : o.toStringView e m = some s) :
    readTyped e .string o m = some (.value (some (.string s)), o, m) := by
  rw [readTyped, htype]
  simp only [Option.bind_eq_bind, Option.bind_some]
  rw [if_pos (show TypesMap.string = Reading.type .string from rfl), Reading.run, hview]
  rfl

/-- A string is read from the object that holds it. -/
theorem Holds.readString {o : DsonObj} {k : Int} {s : Bytes} (ho : Holds e o k (.leaf (.string s))) (m : Mem) :
    readTyped e .string o m = some (.value (some (.string s)), o, m) := by
  cases o with
  | string s₀ =>
      rw [Holds] at ho
      obtain ⟨-, -, hl, -⟩ := ho
      have htype : s₀.header.dataTypeOf e = TypesMap.string := hl.type
      have hval := hl.value
      rw [payloadValue_string htype] at hval
      have hs : s₀.object = s := Value.string.inj (Prod.mk.inj (Option.some.inj hval)).1
      exact readTyped_string (by rw [DsonObj.dataType, htype]) (by rw [DsonObj.toStringView, hs])
  | route r =>
      rw [Holds] at ho
      obtain ⟨-, -, htype⟩ := ho
      exact absurd htype (by simp [Value.type])
  | dson d children =>
      rw [Holds] at ho
      obtain ⟨hstate, rfl, block, hown, hl⟩ := ho
      have htype : d.headerBuf.dataTypeOf e = TypesMap.string := hl.type
      have hval := hl.value
      rw [payloadValue_string htype] at hval
      have hs : block = s := Value.string.inj (Prod.mk.inj (Option.some.inj hval)).1
      subst hs
      have hread : d.dataType e m = some TypesMap.string := by
        rw [Dson.dataType, if_neg (by simp [hstate]), hown.header, Option.map_some, htype]
      have hdata : d.data = some 0 := by
        rw [Dson.data, if_neg (by simp [hstate, hown.buf, BufPtr.isNull]), if_pos hown.alloc]
      have hint := Header.dataSizeOf_isInt32 (e := e) d.headerBuf
      rw [hl.size, IsInt32] at hint
      have hsize : ((block.length : Int) % 2 ^ 32).toNat = block.length := by omega
      have hview : DsonObj.toStringView e (.dson d []) m = some block := by
        rw [DsonObj.toStringView, hread, hown.dataSize hl]
        simp only [Option.bind_eq_bind, Option.bind_some, hdata, hsize, hown.buf, BufPtr.tail, Nat.zero_le, if_true,
          List.drop_zero, lt_irrefl, if_false, List.take_length]
        rfl
      exact readTyped_string hread hview

/-- A string is read from the container that has it. -/
theorem Holds.lookString {o : DsonObj} {k key : Int} {ts : Forest} {s : Bytes} (ho : Holds e o k (.node ts))
    (hfind : KeyMap.find key ts = some (.leaf (.string s))) (m : Mem) :
    ∃ o', look e key .string o m = some (.value (some (.string s)), o', m) := by
  obtain ⟨o₁, hget, ho₁⟩ := ho.get_child hfind m
  obtain ⟨c, hc, honchild⟩ := ho₁.onChild hfind m
  obtain ⟨o₂, hread, -⟩ := honchild (hc.readString m)
  exact ⟨o₂, by rw [look, hget]; exact hread⟩

/-- A container that any object is put into. -/
theorem Dson.IsNode.emplace_any {d : Dson} {children : ObjMap} {obj obj' : DsonObj} {k key : Int} {ts : Forest}
    (hnode : d.IsNode e k ts) (hstate : d.state = .ready) {m : Mem} (hset : obj.setKey e m key = some (obj', m)) :
    DsonObj.emplace e key obj (.dson d children) m = some (.dson { d with
      headerBuf := d.headerBuf.setDataType e TypesMap.dsonContainer } (KeyMap.insertOrAssign key obj' children), m) := by
  simp only [DsonObj.emplace, hset, Option.bind_eq_bind, Option.bind_some, hnode.insertInternal hstate]
  rfl

/-- A container with an empty `DsonStringObj` in it is never emitted to a buffer. -/
theorem Holds.stuck_emplace {o : DsonObj} {k : Int} {ts : Forest} (ho : Holds e o k (.node ts)) (key k₀ : Int)
    (m : Mem) : ∃ o', DsonObj.emplace e key (DsonObj.ofStringObj e k₀ []) o m = some (o', m) ∧
      ∀ P, ¬Emissions e o' m P := by
  obtain ⟨s, hset, hempty⟩ : ∃ s, (DsonObj.ofStringObj e k₀ []).setKey e m key = some (.string s, m) ∧ s.object = [] :=
    ⟨_, rfl, rfl⟩
  cases o with
  | string s => exact ho.elim
  | route r => exact ho.elim
  | dson d children =>
      rw [Holds] at ho
      obtain ⟨hstate, hnode, hsorted, -⟩ := ho
      refine ⟨_, hnode.emplace_any hstate hset, fun P hemit => ?_⟩
      obtain ⟨n, hn⟩ := hemit.buf_completes true
      obtain ⟨o', bs, hready⟩ := hn (List.replicate n 1) (by simp) (by simp)
      have hstuck : Stuck (.dson { d with headerBuf := d.headerBuf.setDataType e TypesMap.dsonContainer }
          (KeyMap.insertOrAssign key (.string s) children)) :=
        .node hnode.kind (KeyMap.sorted_insertOrAssign hsorted key _) (KeyMap.find_insertOrAssign_self key _ children)
          (.string hempty) (by simp [hstate])
      exact hstuck.copyRun hready rfl

/-- A string survives in every representation if and only if it is not empty and the entries of the container
are such as a decoder takes. -/
theorem string_survives_iff {o : DsonObj} {k key : Int} {ts : Forest} {s : Bytes} (ho : Built e o k (.node ts))
    (hkey : IsInt32 key) (m : Mem) : Survives e s key ts o m ↔
      s ≠ [] ∧ Forest.Loadable (KeyMap.insertOrAssign key (.leaf (.string s)) ts) := by
  have hplain : Forest.Plain (KeyMap.insertOrAssign key (.leaf (.string s)) ts) := by
    have hts := ho.plain
    rw [Tree.Plain] at hts
    exact hts.insert (show (Tree.leaf (.string s)).Plain from trivial) key
  have hiff : ∀ {o' : DsonObj}, Holds e o' k (.node (KeyMap.insertOrAssign key (.leaf (.string s)) ts)) →
      (Emissions e o' m (Conveys e (KeyMap.insertOrAssign key (.leaf (.string s)) ts)) ↔
        Forest.Loadable (KeyMap.insertOrAssign key (.leaf (.string s)) ts)) :=
    fun ho' => ho'.conveys_iff hplain (KeyMap.insertOrAssign_ne_nil key _ ts) m
  constructor
  · intro hs
    have hne : s ≠ [] := by
      rintro rfl
      obtain ⟨o', hrun, hnot⟩ := ho.holds.stuck_emplace key 0 m
      exact hnot _ (hs.sent _ _ o' (.custom (by decide : IsInt32 0)) (.keyed hrun))
    obtain ⟨obj, hmade⟩ := hs.made (Dson.clearHeader e) fun _ => 0
    have hobj : HoldsString e s (DsonObj.ofStringObj e 0 s) 0 := .custom (by decide)
    obtain ⟨o', hrun⟩ := hs.added _ _ hobj
    have ho' := (Added.keyed hrun).holds ho.holds (hobj.holds hne (ofString_lt hmade)) hkey
    exact ⟨hne, (hiff ho').mp (hs.sent _ _ o' hobj (.keyed hrun))⟩
  · rintro ⟨hne, hloadable⟩
    have hfind := KeyMap.find_insertOrAssign_self key (Tree.leaf (.string s)) ts
    have hlt : s.length < 2 ^ 31 := by
      have hle := Forest.size_of_mem (KeyMap.mem_of_find hfind)
      have hlimit := hloadable.2
      have hsize : (Tree.leaf (.string s)).size = headerSize + s.length := rfl
      dsimp only at hle
      omega
    have hadded : ∀ {obj o' : DsonObj} {k₀ : Int}, HoldsString e s obj k₀ → Added e key obj k₀ o m o' →
        Holds e o' k (.node (KeyMap.insertOrAssign key (.leaf (.string s)) ts)) :=
      fun hobj h => h.holds ho.holds (hobj.holds hne hlt) hkey
    constructor
    · intro h junk
      obtain ⟨obj, hrun, -⟩ := holds_ofString (e := e) h junk hne hlt
      exact ⟨obj, hrun⟩
    · intro obj k₀ hobj
      obtain ⟨o', hrun, -⟩ := ho.holds.emplace (hobj.holds hne hlt) hkey m
      exact ⟨o', hrun⟩
    · intro obj hobj
      obtain ⟨o', hrun, -⟩ := ho.holds.emplacePtr (hobj.holds hne hlt) m
      exact ⟨o', hrun⟩
    · intro obj k₀ o' hobj h
      exact (hadded hobj h).lookString hfind m
    · intro obj k₀ o' hobj h
      exact (hiff (hadded hobj h)).mpr hloadable

/-- A string in a container of its own. -/
theorem string_survives_iff_sample : Survives .little [104, 105] 7 [] (DsonObj.empty .little) ⟨[], []⟩ :=
  (string_survives_iff .container (by decide) ⟨[], []⟩).mpr ⟨by decide, by decide⟩

/-- An empty string in an empty container. -/
theorem empty_string_lost : ¬Survives .little [] 7 [] (DsonObj.empty .little) ⟨[], []⟩ := by
  intro hs
  obtain ⟨o', hrun, hnot⟩ := (Built.container (e := .little)).holds.stuck_emplace 7 0 ⟨[], []⟩
  exact hnot _ (hs.sent _ _ o' (.custom (by decide : IsInt32 0)) (.keyed hrun))

end

end LeanDson
