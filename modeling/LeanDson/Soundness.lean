import LeanDson.Handling
import LeanDson.Safety

/-! What calls on an object, its copies and its streams leave of the memory around it, and of the positions of loads
that have not finished. -/

namespace LeanDson

/-! ### Safe trees -/

mutual

/-- The object, and every object in it, is not loading or has a position inside the memory it loads. -/
def DsonObj.Safe : DsonObj → Prop
  | .dson d children => d.LoadSafe ∧ DsonObj.SafeAll children
  | .string _ => True
  | .route _ => True

def DsonObj.SafeAll : ObjMap → Prop
  | [] => True
  | (_, o) :: rest => o.Safe ∧ DsonObj.SafeAll rest

end

/-- What a call leaves: safe objects stay safe, and no block of memory changes its size. -/
structure Sound (o : DsonObj) (m : Mem) (o' : DsonObj) (m' : Mem) : Prop where
  safe : o.Safe → o'.Safe
  mem : m.SameSize m'

/-- The same of the children of an object. -/
structure SoundAll (children : ObjMap) (m : Mem) (children' : ObjMap) (m' : Mem) : Prop where
  safe : DsonObj.SafeAll children → DsonObj.SafeAll children'
  mem : m.SameSize m'

namespace DsonObj

theorem safe_dson {d : Dson} {children : ObjMap} : Safe (.dson d children) ↔ d.LoadSafe ∧ SafeAll children := by
  rw [Safe]

theorem safeAll_cons {p : Int × DsonObj} {rest : ObjMap} : SafeAll (p :: rest) ↔ p.2.Safe ∧ SafeAll rest := by
  rw [SafeAll]

theorem safeAll_nil : SafeAll [] := trivial

theorem safeAll_iff {children : ObjMap} : SafeAll children ↔ ∀ p ∈ children, p.2.Safe := by
  induction children with
  | nil => simp [SafeAll]
  | cons p rest ih => rw [safeAll_cons, ih, List.forall_mem_cons]

theorem SafeAll.insert {children : ObjMap} (h : SafeAll children) {o : DsonObj} (ho : o.Safe) (key : Int) :
    SafeAll (KeyMap.insertOrAssign key o children) := by
  rw [safeAll_iff] at h ⊢
  intro p hp
  rcases KeyMap.mem_of_insertOrAssign hp with rfl | hp
  · exact ho
  · exact h p hp

theorem SafeAll.find {children : ObjMap} (h : SafeAll children) {o : DsonObj} {key : Int}
    (hfind : KeyMap.find key children = some o) : o.Safe :=
  safeAll_iff.mp h _ (KeyMap.mem_of_find hfind)

end DsonObj

theorem Sound.refl (o : DsonObj) (m : Mem) : Sound o m o m := ⟨id, .refl m⟩

theorem Sound.trans {o o' o'' : DsonObj} {m m' m'' : Mem} (h : Sound o m o' m') (h' : Sound o' m' o'' m'') :
    Sound o m o'' m'' := ⟨fun hs => h'.safe (h.safe hs), h.mem.trans h'.mem⟩

theorem SoundAll.refl (children : ObjMap) (m : Mem) : SoundAll children m children m := ⟨id, .refl m⟩

section

variable {e : Endian} {d d' : Dson} {children children' : ObjMap} {m m' : Mem} {o o' : DsonObj}

/-- Bytes that are written in place. -/
theorem Dson.Rewrites.sound (h : d.Rewrites m d' m') : Sound (.dson d children) m (.dson d' children) m' where
  safe hs := by
    rw [DsonObj.safe_dson] at hs ⊢
    exact ⟨h.loadSafe hs.1, hs.2⟩
  mem := h.mem

/-- The object after its children have been called. -/
theorem SoundAll.outer {inside : Mem} (h : SoundAll children (d.inner m) children' inside) :
    Sound (.dson d children) m (.dson (d.outer m inside).1 children') (d.outer m inside).2 where
  safe hs := by
    rw [DsonObj.safe_dson] at hs ⊢
    exact ⟨(Dson.outer_rewrites h.mem).loadSafe hs.1, h.safe hs.2⟩
  mem := (Dson.outer_rewrites h.mem).mem

/-! ### Calls -/

theorem Dson.safe_ofBuf {p : BufPtr} (hrun : Dson.ofBuf e p m = some d) : DsonObj.Safe (.dson d []) := by
  obtain ⟨-, hstate, -⟩ := Dson.ofBuf_cases hrun
  refine DsonObj.safe_dson.mpr ⟨.of_state ?_ ?_, DsonObj.safeAll_nil⟩
  · rcases hstate with h | h <;> simp [h]
  · rcases hstate with h | h <;> simp [h]

theorem Dson.parseBuf_sound (hrun : d.parseBuf e children m = some (d', children')) :
    Sound (.dson d children) m (.dson d' children') m where
  safe hs := by
    rw [DsonObj.safe_dson] at hs ⊢
    refine ⟨(hs.1.parseBuf hrun).safe, ?_⟩
    rcases Dson.parseBuf_cases hrun with ⟨-, rfl, -⟩ | ⟨-, notUsed, hloop, -⟩
    · exact hs.2
    · rw [DsonObj.safeAll_iff] at hs ⊢
      exact Dson.parseLoop_forall (fun ptr obj hobj => Dson.safe_ofBuf hobj) hloop hs.2
  mem := .refl m

theorem Dson.safe_promoted (h : Header) (p : BufPtr) : DsonObj.Safe (.dson (Dson.ofHeaderAndBuf h p) []) :=
  DsonObj.safe_dson.mpr ⟨.of_state (by simp [ofHeaderAndBuf, uninit]) (by simp [ofHeaderAndBuf, uninit]), DsonObj.safeAll_nil⟩

theorem Dson.openAsContainer_sound (hrun : d.openAsContainer e children m = some (d', children', m')) :
    Sound (.dson d children) m (.dson d' children') m' := by
  unfold Dson.openAsContainer at hrun
  split at hrun
  · obtain ⟨⟨d₁, children₁⟩, hparse, heq⟩ := Option.bind_eq_some_iff.mp hrun
    cases heq
    exact Dson.parseBuf_sound hparse
  · have hfields := hrun
    rcases Dson.oneObjectBufToContainer_cases hrun with ⟨rfl, rfl, rfl, -⟩ | ⟨off, h, key, -, -, -, -, hset, rfl⟩
    · refine ⟨fun hs => ?_, .refl _⟩
      rw [DsonObj.safe_dson] at hs ⊢
      exact ⟨(Dson.error_keeps d).safe, hs.2⟩
    · refine ⟨fun hs => ?_, (Dson.setDataTypeInternal_rewrites hset).mem⟩
      rw [DsonObj.safe_dson] at hs ⊢
      exact ⟨(hs.1.oneObjectBufToContainer hfields).safe, hs.2.insert (Dson.safe_promoted h _) key⟩
  · cases hrun
    exact .refl _ _

theorem Dson.resetState_sound (d : Dson) (children : ObjMap) (m : Mem) :
    Sound (.dson d children) m (.dson (d.resetState children).1 (d.resetState children).2) m where
  safe hs := by
    rw [DsonObj.safe_dson] at hs ⊢
    refine ⟨(Dson.resetState_keeps d children).1.safe, ?_⟩
    rw [Dson.resetState]
    split_ifs
    · exact DsonObj.safeAll_nil
    · exact hs.2
  mem := .refl m

/-- An insertion of a safe object, once the object is ready or reset. -/
theorem Dson.insertOpened_sound {key : Int} (ho : o.Safe)
    (hrun : (do
      let (d, children, m) ← d.openAsContainer e children m
      if d.state ≠ .ready then return (d, children, m)
      let (d, m) ← d.setDataTypeInternal e m TypesMap.dsonContainer
      return (d, KeyMap.insertOrAssign key o children, m)) = some (d', children', m')) :
    Sound (.dson d children) m (.dson d' children') m' := by
  obtain ⟨⟨d₁, children₁, m₁⟩, hopen, hrun⟩ := Option.bind_eq_some_iff.mp hrun
  have hsound := Dson.openAsContainer_sound hopen
  dsimp only at hrun
  split_ifs at hrun
  · cases hrun
    exact hsound
  · obtain ⟨⟨d₂, m₂⟩, hset, heq⟩ := Option.bind_eq_some_iff.mp hrun
    cases heq
    have hrewrites := Dson.setDataTypeInternal_rewrites hset
    refine hsound.trans ⟨fun hs => ?_, hrewrites.mem⟩
    rw [DsonObj.safe_dson] at hs ⊢
    exact ⟨hrewrites.loadSafe hs.1, hs.2.insert ho key⟩

/-- An insertion of a safe object. -/
theorem Dson.insertInternal_sound {key : Int} (ho : o.Safe)
    (hrun : d.insertInternal e key o children m = some (d', children', m')) :
    Sound (.dson d children) m (.dson d' children') m' := by
  rw [Dson.insertInternal] at hrun
  split_ifs at hrun
  · exact (Dson.resetState_sound d children m).trans (Dson.insertOpened_sound ho hrun)
  · exact Dson.insertOpened_sound ho hrun

theorem DsonObj.setKey_sound {key : Int} (hrun : o.setKey e m key = some (o', m')) : Sound o m o' m' := by
  cases o with
  | dson d children =>
      obtain ⟨⟨d', m₁⟩, hset, heq⟩ := Option.bind_eq_some_iff.mp hrun
      cases heq
      exact (Dson.setKey_rewrites hset).sound
  | string s =>
      cases hrun
      exact ⟨fun _ => trivial, .refl _⟩
  | route r =>
      cases hrun
      exact ⟨fun _ => trivial, .refl _⟩

theorem DsonObj.emplace_sound {key : Int} {v : DsonObj} (hv : v.Safe) (hrun : DsonObj.emplace e key v o m = some (o', m')) :
    Sound o m o' m' := by
  cases o with
  | dson d children =>
      obtain ⟨⟨v', m₁⟩, hset, hrun⟩ := Option.bind_eq_some_iff.mp hrun
      obtain ⟨⟨d', children', m₂⟩, hins, heq⟩ := Option.bind_eq_some_iff.mp hrun
      cases heq
      have hkeyed := DsonObj.setKey_sound hset
      have hsound := Dson.insertInternal_sound (hkeyed.safe hv) hins
      exact ⟨hsound.safe, hkeyed.mem.trans hsound.mem⟩
  | string s => cases hrun
  | route r => cases hrun

theorem DsonObj.emplacePtr_sound {v : DsonObj} (hv : v.Safe) (hrun : DsonObj.emplacePtr e v o m = some (o', m')) :
    Sound o m o' m' := by
  cases o with
  | dson d children =>
      obtain ⟨key, -, hrun⟩ := Option.bind_eq_some_iff.mp hrun
      obtain ⟨⟨d', children', m₂⟩, hins, heq⟩ := Option.bind_eq_some_iff.mp hrun
      cases heq
      exact Dson.insertInternal_sound hv hins
  | string s => cases hrun
  | route r => cases hrun

theorem DsonObj.toHost_sound (hrun : o.toHost e m = some (o', m')) : Sound o m o' m' := by
  cases o with
  | dson d children =>
      obtain ⟨⟨d', m₁⟩, hhost, heq⟩ := Option.bind_eq_some_iff.mp hrun
      cases heq
      exact (Dson.toHost_rewrites hhost).sound
  | string s =>
      cases hrun
      exact .refl _ _
  | route r =>
      cases hrun
      exact .refl _ _

theorem DsonObj.childrenToHost_sound (hrun : DsonObj.childrenToHost e children m = some (children', m')) :
    SoundAll children m children' m' := by
  induction children generalizing children' m m' with
  | nil =>
      cases hrun
      exact .refl _ _
  | cons p rest ih =>
      obtain ⟨⟨o₁, m₁⟩, hhost, hrun⟩ := Option.bind_eq_some_iff.mp hrun
      obtain ⟨⟨rest₁, m₂⟩, hrest, heq⟩ := Option.bind_eq_some_iff.mp hrun
      cases heq
      have ho := DsonObj.toHost_sound hhost
      have hall := ih hrest
      refine ⟨fun hs => ?_, ho.mem.trans hall.mem⟩
      rw [DsonObj.safeAll_cons] at hs ⊢
      exact ⟨ho.safe hs.1, hall.safe hs.2⟩

theorem DsonObj.get_sound {key : Int} {f : Found} (hrun : DsonObj.get e key o m = some (f, o', m')) : Sound o m o' m' := by
  cases o with
  | string s => cases hrun
  | route r => cases hrun
  | dson d children =>
      -- a lookup in a parsed object converts at most one object
      have hparsed : ∀ {d : Dson} {children : ObjMap}, d.dsonKind ≠ .dataBufNeedParse →
          DsonObj.get e key (.dson d children) m = some (f, o', m') → Sound (.dson d children) m o' m' := by
        intro d children hkind hrun
        rw [DsonObj.get, if_neg hkind] at hrun
        simp only [Option.bind_eq_bind, Option.bind_some] at hrun
        split_ifs at hrun
        · cases hrun
          exact .refl _ _
        split at hrun
        · obtain ⟨own, -, hrun⟩ := Option.bind_eq_some_iff.mp hrun
          split_ifs at hrun
          · obtain ⟨⟨d₂, m₂⟩, hhost, heq⟩ := Option.bind_eq_some_iff.mp hrun
            cases heq
            exact (Dson.toHost_rewrites hhost).sound
          · cases hrun
            exact .refl _ _
        · unfold DsonObj.getInternal at hrun
          split at hrun
          · cases hrun
            exact .refl _ _
          · obtain ⟨c, hfind, hchild⟩ := Option.bind_eq_some_iff.mp hrun
            obtain ⟨⟨a', c', inside⟩, hchild, heq⟩ := Option.bind_eq_some_iff.mp hchild
            obtain ⟨⟨c₁, m₁⟩, hhost, heq'⟩ := Option.bind_eq_some_iff.mp hchild
            cases heq'
            cases heq
            have hsound := DsonObj.toHost_sound hhost
            refine @SoundAll.outer d children _ m _ ⟨fun hall => ?_, hsound.mem⟩
            exact hall.insert (hsound.safe (hall.find hfind)) key
        · next hparse => exact absurd hparse hkind
      by_cases hkind : d.dsonKind = .dataBufNeedParse
      · cases hparse : d.parseBuf e children m with
        | none =>
            rw [DsonObj.get, if_pos hkind, hparse] at hrun
            cases hrun
        | some p =>
            obtain ⟨d₁, children₁⟩ := p
            have hsound := Dson.parseBuf_sound hparse
            rw [get_parse hkind hparse] at hrun
            split_ifs at hrun with hready
            · refine hsound.trans (hparsed ?_ hrun)
              rcases Dson.parseBuf_cases hparse with ⟨rfl, -⟩ | ⟨-, notUsed, -, ⟨-, rfl⟩ | ⟨-, rfl⟩⟩
              · simp
              · cases hready
              · simp
            · cases hrun
              exact hsound
      · exact hparsed hkind hrun

theorem DsonObj.map_sound (hrun : DsonObj.map e o m = some (o', m')) : Sound o m o' m' := by
  cases o with
  | string s => cases hrun
  | route r => cases hrun
  | dson d children =>
      rw [DsonObj.map] at hrun
      split_ifs at hrun
      · cases hrun
        exact .refl _ _
      obtain ⟨⟨d₁, children₁, m₁⟩, hopen, hrun⟩ := Option.bind_eq_some_iff.mp hrun
      obtain ⟨⟨children₂, inside⟩, hhost, heq⟩ := Option.bind_eq_some_iff.mp hrun
      cases heq
      exact (Dson.openAsContainer_sound hopen).trans (DsonObj.childrenToHost_sound hhost).outer

end

/-! ### Copies -/

/-- No load is going on. -/
def Dson.NotLoading (d : Dson) : Prop := d.state ≠ .loadingHeader ∧ d.state ≠ .loadingData

theorem Dson.NotLoading.safe {d : Dson} (h : d.NotLoading) : d.LoadSafe := .of_state h.1 h.2

theorem Dson.NotLoading.of_state {d d' : Dson} (h : d.NotLoading) (hstate : d'.state = d.state ∨ d'.state = .ready) :
    d'.NotLoading := by
  rcases hstate with hs | hs
  · rw [NotLoading, hs]
    exact h
  · simp [NotLoading, hs]

section

variable {σ : Type} [ByteSink σ] {e : Endian} {copy : DsonObj → Mem → σ → Option (Result × DsonObj × Mem × σ)}
  {d d' : Dson} {children children' : ObjMap} {m m' : Mem} {o o' : DsonObj} {s s' : σ} {r : Result}

/-- Every call of an emitter is sound. -/
def SoundCopy (copy : DsonObj → Mem → σ → Option (Result × DsonObj × Mem × σ)) : Prop :=
  ∀ {o m s r o' m' s'}, copy o m s = some (r, o', m', s') → Sound o m o' m'

theorem Dson.copyBuf_state (hrun : d.copyBuf m s = some (r, d', s')) : d'.state = d.state ∨ d'.state = .ready := by
  rw [Dson.copyBuf] at hrun
  split_ifs at hrun
  · cases hrun
    exact Or.inl rfl
  · simp only [Option.bind_eq_bind, Option.bind_eq_some_iff] at hrun
    obtain ⟨off, -, t, -, hrun⟩ := hrun
    split_ifs at hrun
    split at hrun
    · cases hrun
      exact Or.inr rfl
    · split_ifs at hrun
      · cases hrun
        exact Or.inr rfl
      · cases hrun
        exact Or.inl rfl

omit [ByteSink σ] in
theorem copyMap_sound (hcopy : SoundCopy copy) : ∀ {it it' : CopyIter} {m m' : Mem} {s s' : σ} {r : Result}
    {children' : ObjMap}, Dson.copyMap copy it children m s = some (r, it', children', m', s') →
    SoundAll children m children' m' := by
  induction children with
  | nil =>
      intro it it' m m' s s' r children' hrun
      cases it <;> cases hrun <;> exact .refl _ _
  | cons p rest ih =>
      intro it it' m m' s s' r children' hrun
      cases it with
      | unset => cases hrun
      | finished =>
          cases hrun
          exact .refl _ _
      | node key =>
          rw [Dson.copyMap] at hrun
          split_ifs at hrun
          · obtain ⟨⟨r₁, it₁, rest₁, m₁, s₁⟩, hrest, heq⟩ := Option.bind_eq_some_iff.mp hrun
            cases heq
            have hall := ih hrest
            refine ⟨fun hs => ?_, hall.mem⟩
            rw [DsonObj.safeAll_cons] at hs ⊢
            exact ⟨hs.1, hall.safe hs.2⟩
          · obtain ⟨⟨r₁, o₁, m₁, s₁⟩, hchild, hrun⟩ := Option.bind_eq_some_iff.mp hrun
            have ho := hcopy hchild
            dsimp only at hrun
            split_ifs at hrun
            · cases hrun
              refine ⟨fun hs => ?_, ho.mem⟩
              rw [DsonObj.safeAll_cons] at hs ⊢
              exact ⟨ho.safe hs.1, hs.2⟩
            · obtain ⟨⟨r₂, it₂, rest₂, m₂, s₂⟩, hrest, heq⟩ := Option.bind_eq_some_iff.mp hrun
              cases heq
              have hall := ih hrest
              refine ⟨fun hs => ?_, ho.mem.trans hall.mem⟩
              rw [DsonObj.safeAll_cons] at hs ⊢
              exact ⟨ho.safe hs.1, hall.safe hs.2⟩

theorem copyData_sound (hcopy : SoundCopy copy) (hnot : d.NotLoading)
    (hrun : d.copyData copy children m s = some (r, o', m', s')) : Sound (.dson d children) m o' m' := by
  by_cases hkind : d.dsonKind = .dsonContainer
  · rw [Dson.copyData_container _ _ hkind] at hrun
    obtain ⟨⟨r₁, it, children₁, inside, s₁⟩, hmap, heq⟩ := Option.map_eq_some_iff.mp hrun
    cases heq
    have hall := copyMap_sound hcopy hmap
    refine ⟨fun hs => ?_, (Dson.outer_rewrites hall.mem).mem⟩
    rw [DsonObj.safe_dson] at hs ⊢
    refine ⟨(hnot.of_state ?_).safe, hall.safe hs.2⟩
    have hstate : (d.outer m inside).1.state = d.state := by rw [Dson.outer_fields]
    dsimp only
    split_ifs
    · exact Or.inr rfl
    · exact Or.inl hstate
  · rw [Dson.copyData_payload _ _ hkind] at hrun
    obtain ⟨⟨r₁, d₁, s₁⟩, hbuf, heq⟩ := Option.map_eq_some_iff.mp hrun
    cases heq
    refine ⟨fun hs => ?_, .refl _⟩
    rw [DsonObj.safe_dson] at hs ⊢
    exact ⟨(hnot.of_state (Dson.copyBuf_state hbuf)).safe, hs.2⟩

theorem copyHeader_sound (hcopy : SoundCopy copy) (hnot : d.NotLoading)
    (hrun : d.copyHeader copy children m s = some (r, o', m', s')) : Sound (.dson d children) m o' m' := by
  rw [Dson.copyHeader_eq] at hrun
  split_ifs at hrun
  · cases hrun
    exact .refl _ _
  obtain ⟨h, -, hrun⟩ := Option.bind_eq_some_iff.mp hrun
  -- only the object itself has changed before the data phase
  have hself : ∀ {d' : Dson}, d'.NotLoading → Sound (.dson d children) m (.dson d' children) m := by
    intro d' hnot'
    refine ⟨fun hs => ?_, .refl _⟩
    rw [DsonObj.safe_dson] at hs ⊢
    exact ⟨hnot'.safe, hs.2⟩
  rcases hw : ByteSink.write s (h.bytes.drop d.offset) with ⟨n, s₁⟩
  rw [hw] at hrun
  cases n with
  | none =>
      cases hrun
      exact hself (hnot.of_state (Or.inr rfl))
  | some n =>
      dsimp only at hrun
      split_ifs at hrun
      · cases hrun
        exact hself (hnot.of_state (Or.inl rfl))
      · have hcopied : (d.headerCopied children n).NotLoading := by simp [Dson.NotLoading, Dson.headerCopied]
        exact (hself hcopied).trans (copyData_sound hcopy hcopied hrun)

theorem prepareCopy_sound {network : Bool} (hrun : d.prepareCopy e network children m = some (d', children', m')) :
    Sound (.dson d children) m (.dson d' children') m' ∧ d'.NotLoading := by
  obtain ⟨h, d₁, d₂, -, hparse, hrewrites, rfl⟩ := Dson.prepareCopy_cases hrun
  have hparsed : Sound (.dson d children) m (.dson d₁ children') m := by
    rcases hparse with ⟨-, -, hparse⟩ | ⟨-, rfl, rfl⟩
    · exact Dson.parseBuf_sound hparse
    · exact .refl _ _
  refine ⟨hparsed.trans ⟨fun hs => ?_, hrewrites.mem⟩, by simp [Dson.NotLoading]⟩
  rw [DsonObj.safe_dson] at hs ⊢
  exact ⟨.of_state (by simp) (by simp), hs.2⟩

theorem copyInternal_sound (hcopy : SoundCopy copy) {network : Bool}
    (hrun : d.copyInternal e copy network children m s = some (r, o', m', s')) : Sound (.dson d children) m o' m' := by
  cases hstate : d.state with
  | ready =>
      simp only [Dson.copyInternal, hstate] at hrun
      obtain ⟨⟨d₁, children₁, m₁⟩, hprepare, hrun⟩ := Option.bind_eq_some_iff.mp hrun
      obtain ⟨hsound, hnot⟩ := prepareCopy_sound hprepare
      exact hsound.trans (copyHeader_sound hcopy hnot hrun)
  | copyingHeader =>
      simp only [Dson.copyInternal, hstate] at hrun
      exact copyHeader_sound hcopy (by simp [Dson.NotLoading, hstate]) hrun
  | copyingData =>
      simp only [Dson.copyInternal, hstate] at hrun
      exact copyData_sound hcopy (by simp [Dson.NotLoading, hstate]) hrun
  | loadingHeader | loadingData | error =>
      simp only [Dson.copyInternal, hstate] at hrun
      cases hrun
      exact .refl _ _

theorem copyFuel_sound (network : Bool) (fuel : Nat) : SoundCopy (σ := σ) (DsonObj.copyFuel e network fuel) := by
  induction fuel with
  | zero =>
      intro o m s r o' m' s' hrun
      cases hrun
  | succ fuel ih =>
      intro o m s r o' m' s' hrun
      cases o with
      | dson d children => exact copyInternal_sound ih hrun
      | string o =>
          cases hrun
          exact ⟨fun _ => trivial, .refl _⟩
      | route o =>
          cases hrun
          exact ⟨fun _ => trivial, .refl _⟩

/-- A call of an incremental emitter. -/
theorem DsonObj.copyTo_sound {network : Bool} (hrun : o.copyTo e network m s = some (r, o', m', s')) : Sound o m o' m' :=
  copyFuel_sound network o.depth hrun

end

/-! ### Copies to a stream -/

section

variable {e : Endian} {copy : DsonObj → Mem → Option (DsonObj × Mem × Bytes)} {d : Dson} {children children' : ObjMap}
  {m m' : Mem} {o o' : DsonObj} {network : Bool} {bs : Bytes}

/-- Every call of a stream emitter is sound. -/
def SoundStream (copy : DsonObj → Mem → Option (DsonObj × Mem × Bytes)) : Prop :=
  ∀ {o m o' m' bs}, copy o m = some (o', m', bs) → Sound o m o' m'

theorem streamHeader_rewrites {size : Int} {d' : Dson} (hrun : d.streamHeader e m size = some (d', m', bs)) :
    d.Rewrites m d' m' := by
  simp only [Dson.streamHeader, Option.bind_eq_bind, Option.pure_def] at hrun
  split_ifs at hrun
  · obtain ⟨⟨d₁, m₁⟩, hset, hrun⟩ := Option.bind_eq_some_iff.mp hrun
    obtain ⟨h, -, heq⟩ := Option.bind_eq_some_iff.mp hrun
    cases heq
    exact Dson.setDataSizeInternal_rewrites hset
  · simp only [Option.bind_some] at hrun
    obtain ⟨h, -, heq⟩ := Option.bind_eq_some_iff.mp hrun
    cases heq
    exact .refl _ _

theorem streamRaw_sound {size : Int} (hrun : d.streamRaw e children m size = some (o', m', bs)) :
    Sound (.dson d children) m o' m' := by
  obtain ⟨⟨d₁, m₁, head⟩, hheader, hrun⟩ := Option.bind_eq_some_iff.mp hrun
  obtain ⟨payload, -, heq⟩ := Option.bind_eq_some_iff.mp hrun
  cases heq
  exact (streamHeader_rewrites hheader).sound

theorem streamMap_sound (hcopy : SoundStream copy) (hrun : Dson.streamMap copy children m = some (children', m', bs)) :
    SoundAll children m children' m' := by
  induction children generalizing children' m m' bs with
  | nil =>
      cases hrun
      exact .refl _ _
  | cons p rest ih =>
      obtain ⟨⟨o₁, m₁, bs₁⟩, hchild, hrun⟩ := Option.bind_eq_some_iff.mp hrun
      obtain ⟨⟨rest₁, m₂, bs₂⟩, hrest, heq⟩ := Option.bind_eq_some_iff.mp hrun
      cases heq
      have ho := hcopy hchild
      have hall := ih hrest
      refine ⟨fun hs => ?_, ho.mem.trans hall.mem⟩
      rw [DsonObj.safeAll_cons] at hs ⊢
      exact ⟨ho.safe hs.1, hall.safe hs.2⟩

theorem streamKind_sound (hcopy : SoundStream copy) (hrun : d.streamKind e copy network children m = some (o', m', bs)) :
    Sound (.dson d children) m o' m' := by
  unfold Dson.streamKind at hrun
  split at hrun
  · obtain ⟨before, -, hrun⟩ := Option.bind_eq_some_iff.mp hrun
    obtain ⟨⟨d₁, m₁⟩, horder, hrun⟩ := Option.bind_eq_some_iff.mp hrun
    obtain ⟨after, -, hrun⟩ := Option.bind_eq_some_iff.mp hrun
    exact (Dson.toOrder_rewrites horder).sound.trans (streamRaw_sound hrun)
  · obtain ⟨size, -, hrun⟩ := Option.bind_eq_some_iff.mp hrun
    obtain ⟨⟨d₁, m₁⟩, horder, hrun⟩ := Option.bind_eq_some_iff.mp hrun
    obtain ⟨⟨d₂, m₂, head⟩, hheader, hrun⟩ := Option.bind_eq_some_iff.mp hrun
    obtain ⟨⟨children₁, inside, bs₁⟩, hmap, heq⟩ := Option.bind_eq_some_iff.mp hrun
    cases heq
    have hrewrites := (Dson.headerToOrder_rewrites horder).trans (streamHeader_rewrites hheader)
    exact hrewrites.sound.trans (streamMap_sound hcopy hmap).outer
  · cases hrun
    exact .refl _ _

theorem streamInternal_sound (hcopy : SoundStream copy)
    (hrun : d.streamInternal e copy network children m = some (o', m', bs)) : Sound (.dson d children) m o' m' := by
  by_cases hstate : d.state = .ready
  · by_cases hkind : d.dsonKind = .dataBufNeedParse
    · have hcases : (∃ size, d.streamRaw e children m size = some (o', m', bs)) ∨ ∃ d₁ children₁,
          d.parseBuf e children m = some (d₁, children₁) ∧ d₁.streamKind e copy network children₁ m = some (o', m', bs) := by
        rw [Dson.streamInternal, if_neg (not_not.mpr hstate), if_pos hkind] at hrun
        simp only [Option.bind_eq_bind] at hrun
        split_ifs at hrun
        all_goals
          obtain ⟨fits, -, hrun⟩ := Option.bind_eq_some_iff.mp hrun
          cases fits with
          | true =>
              obtain ⟨size, -, hrun⟩ := Option.bind_eq_some_iff.mp hrun
              exact Or.inl ⟨size, hrun⟩
          | false =>
              obtain ⟨⟨d₁, children₁⟩, hparse, hrun⟩ := Option.bind_eq_some_iff.mp hrun
              exact Or.inr ⟨d₁, children₁, hparse, hrun⟩
      obtain ⟨size, hraw⟩ | ⟨d₁, children₁, hparse, hrun⟩ := hcases
      · exact streamRaw_sound hraw
      · exact (Dson.parseBuf_sound hparse).trans (streamKind_sound hcopy hrun)
    · rw [Dson.streamInternal, if_neg (not_not.mpr hstate), if_neg hkind] at hrun
      exact streamKind_sound hcopy hrun
  · rw [Dson.streamInternal, if_pos hstate] at hrun
    cases hrun
    exact .refl _ _

theorem streamFuel_sound (network : Bool) (fuel : Nat) : SoundStream (DsonObj.streamFuel e network fuel) := by
  induction fuel with
  | zero =>
      intro o m o' m' bs hrun
      cases hrun
  | succ fuel ih =>
      intro o m o' m' bs hrun
      cases o with
      | dson d children => exact streamInternal_sound ih hrun
      | string o =>
          cases hrun
          exact ⟨fun _ => trivial, .refl _⟩
      | route o =>
          cases hrun
          exact ⟨fun _ => trivial, .refl _⟩

/-- A call of the stream emitter. -/
theorem DsonObj.copyToStream_sound (hrun : o.copyToStream e network m = some (o', m', bs)) : Sound o m o' m' :=
  streamFuel_sound network o.depth hrun

end

end LeanDson
