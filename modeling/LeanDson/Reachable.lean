import LeanDson.Move
import LeanDson.Soundness

/-! Every state that public operations can lead to. Whatever is called on an object, on its children or on the
objects it is moved from and into, the position of a load lies in the memory that the load writes to. -/

namespace LeanDson

/-! ### Operations -/

/-- A member function of a `Dson` that takes no other object. -/
inductive Operation where
  | handle (f : Handle)
  | clear
  | init (type size : Int) (junk : Nat → UInt8)
  | initKey (key type size : Int) (junk : Nat → UInt8)
  | setKey (key : Int)
  | resetState
  /-- The caller writes through the pointer that `init` or `data` has given. -/
  | write (off : Nat) (bytes : Bytes)
  | loadFromFd (fd : FdIn) (junk : Nat → UInt8)
  | loadFromBuf (window : Bytes) (junk : Nat → UInt8)
  | loadFromStream (input : Bytes) (junk : Nat → UInt8)

/-- `init(key, data_type, data_size)`. -/
def Dson.initKey (e : Endian) (junk : Nat → UInt8) (d : Dson) (key type size : Int) : Dson :=
  match d.clear.allocate junk size with
  | none => d.clear
  | some _ => { d.init e junk type size with
      headerBuf := { (d.init e junk type size).headerBuf with key := Cell.ofInt e key } }

namespace Operation

variable (e : Endian)

/-- One call on a `Dson`. -/
def call : Operation → DsonObj → Mem → Option (DsonObj × Mem)
  | .handle f, o, m => f.call e o m
  | .clear, .dson d _, m => some (.dson d.clear [], m)
  | .init type size junk, .dson d _, m => some (.dson (d.init e junk type size) [], m)
  | .initKey key type size junk, .dson d _, m => some (.dson (d.initKey e junk key type size) [], m)
  | .setKey key, o, m => o.setKey e m key
  | .resetState, .dson d children, m => some (.dson (d.resetState children).1 (d.resetState children).2, m)
  | .write off bytes, .dson d children, m => (d.patchBuf m off bytes).map fun p => (.dson p.1 children, p.2)
  | .loadFromFd fd junk, o, m => (o.loadFromFd e junk fd m).map fun q => (q.2.1, q.2.2.1)
  | .loadFromBuf window junk, o, m => (o.loadFromBuf e junk window m).map fun q => (q.2.1, q.2.2)
  | .loadFromStream input junk, o, m => (o.loadFromStream e junk input m).map fun q => (q.1, q.2.1)
  | _, _, _ => none

end Operation

/-! ### Loads -/

section

variable {e : Endian} {junk : Nat → UInt8} {d d' : Dson} {children : ObjMap} {m m' : Mem} {o o' : DsonObj} {r : Result}

theorem loadDataFromFd_mem {fd fd' : FdIn} (hrun : d.loadDataFromFd m fd = some (r, d', m', fd')) : m.SameSize m' := by
  rw [Dson.loadDataFromFd] at hrun
  split_ifs at hrun
  · cases hrun
    exact .refl _
  split at hrun
  · cases hrun
    exact .refl _
  · obtain ⟨⟨d₁, m₁⟩, hpatch, hrun⟩ := Option.bind_eq_some_iff.mp hrun
    have hmem := (Dson.patchBuf_rewrites hpatch).mem
    dsimp only at hrun
    split_ifs at hrun
    · cases hrun
      exact hmem
    · cases hrun
      exact hmem

theorem loadHeaderFromFd_mem {fd fd' : FdIn} (hrun : d.loadHeaderFromFd e junk children m fd = some (r, d', m', fd')) :
    m.SameSize m' := by
  rw [Dson.loadHeaderFromFd] at hrun
  split_ifs at hrun
  · cases hrun
    exact .refl _
  split at hrun
  · cases hrun
    exact .refl _
  · simp only [Option.bind_eq_bind, Option.pure_def] at hrun
    split_ifs at hrun
    · cases hrun
      exact .refl _
    obtain ⟨⟨r₁, d₁⟩, -, hrun⟩ := Option.bind_eq_some_iff.mp hrun
    cases r₁ with
    | none => exact loadDataFromFd_mem hrun
    | some r₁ =>
        cases hrun
        exact .refl _

theorem loadDataFromBuf_mem {window : Bytes} (hrun : d.loadDataFromBuf m window = some (r, d', m')) : m.SameSize m' := by
  rw [Dson.loadDataFromBuf] at hrun
  split_ifs at hrun
  · cases hrun
    exact .refl _
  obtain ⟨⟨d₁, m₁⟩, hpatch, hrun⟩ := Option.bind_eq_some_iff.mp hrun
  have hmem := (Dson.patchBuf_rewrites hpatch).mem
  dsimp only at hrun
  split_ifs at hrun
  · cases hrun
    exact hmem
  · cases hrun
    exact hmem

theorem loadHeaderFromBuf_mem {window : Bytes} (hrun : d.loadHeaderFromBuf e junk children m window = some (r, d', m')) :
    m.SameSize m' := by
  rw [Dson.loadHeaderFromBuf] at hrun
  split_ifs at hrun
  · cases hrun
    exact .refl _
  simp only [Option.bind_eq_bind, Option.pure_def] at hrun
  split_ifs at hrun
  · cases hrun
    exact .refl _
  · obtain ⟨⟨r₁, d₁⟩, -, hrun⟩ := Option.bind_eq_some_iff.mp hrun
    cases r₁ with
    | none =>
        dsimp only at hrun
        cases hrun
        exact .refl _
    | some r₁ =>
        cases hrun
        exact .refl _
  · obtain ⟨⟨r₁, d₁⟩, -, hrun⟩ := Option.bind_eq_some_iff.mp hrun
    cases r₁ with
    | none => exact loadDataFromBuf_mem hrun
    | some r₁ =>
        cases hrun
        exact .refl _

theorem DsonObj.loadFromFd_sound {fd fd' : FdIn} (hrun : o.loadFromFd e junk fd m = some (r, o', m', fd')) :
    Sound o m o' m' := by
  cases o with
  | string s => cases hrun
  | route r => cases hrun
  | dson d children =>
      have hall := hrun
      -- the children are what they were, or there are none
      have hparts : m.SameSize m' ∧ ∃ d' children', o' = .dson d' children' ∧ (children' = children ∨ children' = []) := by
        rw [DsonObj.loadFromFd] at hrun
        split at hrun
        · obtain ⟨⟨r₁, d₁, m₁, fd₁⟩, hload, heq⟩ := Option.bind_eq_some_iff.mp hrun
          cases heq
          exact ⟨loadHeaderFromFd_mem hload, _, _, rfl, Or.inr rfl⟩
        · obtain ⟨⟨r₁, d₁, m₁, fd₁⟩, hload, heq⟩ := Option.bind_eq_some_iff.mp hrun
          cases heq
          exact ⟨loadHeaderFromFd_mem hload, _, _, rfl, Or.inr rfl⟩
        · obtain ⟨⟨r₁, d₁, m₁, fd₁⟩, hload, heq⟩ := Option.bind_eq_some_iff.mp hrun
          cases heq
          exact ⟨loadHeaderFromFd_mem hload, _, _, rfl, Or.inr rfl⟩
        · obtain ⟨⟨r₁, d₁, m₁, fd₁⟩, hload, heq⟩ := Option.bind_eq_some_iff.mp hrun
          cases heq
          exact ⟨loadHeaderFromFd_mem hload, _, _, rfl, Or.inr rfl⟩
        · obtain ⟨⟨r₁, d₁, m₁, fd₁⟩, hload, heq⟩ := Option.bind_eq_some_iff.mp hrun
          cases heq
          exact ⟨loadHeaderFromFd_mem hload, _, _, rfl, Or.inl rfl⟩
        · obtain ⟨⟨r₁, d₁, m₁, fd₁⟩, hload, heq⟩ := Option.bind_eq_some_iff.mp hrun
          cases heq
          exact ⟨loadDataFromFd_mem hload, _, _, rfl, Or.inl rfl⟩
      obtain ⟨hmem, d', children', rfl, hchildren⟩ := hparts
      refine ⟨fun hs => ?_, hmem⟩
      rw [DsonObj.safe_dson] at hs ⊢
      obtain ⟨d₁, children₁, heq, hkeeps⟩ := hs.1.loadFromFd hall
      cases heq
      refine ⟨hkeeps.safe, ?_⟩
      rcases hchildren with rfl | rfl
      · exact hs.2
      · exact DsonObj.safeAll_nil

theorem DsonObj.loadFromBuf_sound {window : Bytes} (hrun : o.loadFromBuf e junk window m = some (r, o', m')) :
    Sound o m o' m' := by
  cases o with
  | string s => cases hrun
  | route r => cases hrun
  | dson d children =>
      have hall := hrun
      have hparts : m.SameSize m' ∧ ∃ d' children', o' = .dson d' children' ∧ (children' = children ∨ children' = []) := by
        rw [DsonObj.loadFromBuf] at hrun
        split at hrun
        · obtain ⟨⟨r₁, d₁, m₁⟩, hload, heq⟩ := Option.bind_eq_some_iff.mp hrun
          cases heq
          exact ⟨loadHeaderFromBuf_mem hload, _, _, rfl, Or.inr rfl⟩
        · obtain ⟨⟨r₁, d₁, m₁⟩, hload, heq⟩ := Option.bind_eq_some_iff.mp hrun
          cases heq
          exact ⟨loadHeaderFromBuf_mem hload, _, _, rfl, Or.inr rfl⟩
        · obtain ⟨⟨r₁, d₁, m₁⟩, hload, heq⟩ := Option.bind_eq_some_iff.mp hrun
          cases heq
          exact ⟨loadHeaderFromBuf_mem hload, _, _, rfl, Or.inr rfl⟩
        · obtain ⟨⟨r₁, d₁, m₁⟩, hload, heq⟩ := Option.bind_eq_some_iff.mp hrun
          cases heq
          exact ⟨loadHeaderFromBuf_mem hload, _, _, rfl, Or.inr rfl⟩
        · obtain ⟨⟨r₁, d₁, m₁⟩, hload, heq⟩ := Option.bind_eq_some_iff.mp hrun
          cases heq
          exact ⟨loadHeaderFromBuf_mem hload, _, _, rfl, Or.inl rfl⟩
        · obtain ⟨⟨r₁, d₁, m₁⟩, hload, heq⟩ := Option.bind_eq_some_iff.mp hrun
          cases heq
          exact ⟨loadDataFromBuf_mem hload, _, _, rfl, Or.inl rfl⟩
      obtain ⟨hmem, d', children', rfl, hchildren⟩ := hparts
      refine ⟨fun hs => ?_, hmem⟩
      rw [DsonObj.safe_dson] at hs ⊢
      obtain ⟨d₁, children₁, heq, hkeeps⟩ := hs.1.loadFromBuf hall
      cases heq
      refine ⟨hkeeps.safe, ?_⟩
      rcases hchildren with rfl | rfl
      · exact hs.2
      · exact DsonObj.safeAll_nil

theorem DsonObj.loadFromStream_sound {input rest : Bytes} (hrun : o.loadFromStream e junk input m = some (o', m', rest)) :
    Sound o m o' m' := by
  cases o with
  | string s => cases hrun
  | route r => cases hrun
  | dson d children =>
      have hall := hrun
      have hparts : m.SameSize m' ∧ ∃ d', o' = .dson d' [] := by
        rw [DsonObj.loadFromStream] at hrun
        dsimp only at hrun
        split_ifs at hrun
        · cases hrun
          exact ⟨.refl _, _, rfl⟩
        obtain ⟨⟨r₁, d₁⟩, -, hrun⟩ := Option.bind_eq_some_iff.mp hrun
        cases r₁ with
        | some r₁ =>
            cases hrun
            exact ⟨.refl _, _, rfl⟩
        | none =>
            obtain ⟨⟨d₂, m₂⟩, hpatch, hrun⟩ := Option.bind_eq_some_iff.mp hrun
            have hmem := (Dson.patchBuf_rewrites hpatch).mem
            dsimp only at hrun
            split_ifs at hrun
            · cases hrun
              exact ⟨hmem, _, rfl⟩
            · cases hrun
              exact ⟨hmem, _, rfl⟩
      obtain ⟨hmem, d', rfl⟩ := hparts
      refine ⟨fun _ => ?_, hmem⟩
      obtain ⟨d₁, children₁, heq, hkeeps⟩ := Dson.loadFromStream_keeps hall
      cases heq
      exact DsonObj.safe_dson.mpr ⟨hkeeps.safe, DsonObj.safeAll_nil⟩

end

/-! ### Operations in general -/

section

variable {e : Endian} {d d' : Dson} {children : ObjMap} {m m' : Mem} {o o' s s' : DsonObj}

theorem Handle.call_sound {f : Handle} (hrun : f.call e o m = some (o', m')) : Sound o m o' m' := by
  cases f with
  | get key =>
      obtain ⟨⟨r, o₁, m₁⟩, hget, heq⟩ := Option.map_eq_some_iff.mp hrun
      cases heq
      exact DsonObj.get_sound hget
  | map => exact DsonObj.map_sound hrun
  | toOrder network =>
      cases o with
      | dson d children =>
          obtain ⟨⟨d₁, m₁⟩, horder, heq⟩ := Option.map_eq_some_iff.mp hrun
          cases heq
          exact (Dson.toOrder_rewrites horder).sound
      | string s => cases hrun
      | route r => cases hrun
  | headerToOrder network =>
      cases o with
      | dson d children =>
          obtain ⟨⟨d₁, m₁⟩, horder, heq⟩ := Option.map_eq_some_iff.mp hrun
          cases heq
          exact (Dson.headerToOrder_rewrites horder).sound
      | string s => cases hrun
      | route r => cases hrun
  | copyToFd network fd =>
      obtain ⟨⟨r, o₁, m₁, fd₁⟩, hcopy, heq⟩ := Option.map_eq_some_iff.mp hrun
      cases heq
      exact DsonObj.copyTo_sound hcopy
  | copyToBuf network buf =>
      obtain ⟨⟨r, o₁, m₁, buf₁⟩, hcopy, heq⟩ := Option.map_eq_some_iff.mp hrun
      cases heq
      exact DsonObj.copyTo_sound hcopy
  | copyToStream network =>
      obtain ⟨⟨o₁, m₁, bs⟩, hcopy, heq⟩ := Option.map_eq_some_iff.mp hrun
      cases heq
      exact DsonObj.copyToStream_sound hcopy

/-- An object without children that is not loading. -/
theorem Dson.NotLoading.sound_nil (h : d'.NotLoading) : Sound (.dson d children) m (.dson d' []) m :=
  ⟨fun _ => DsonObj.safe_dson.mpr ⟨h.safe, DsonObj.safeAll_nil⟩, .refl _⟩

theorem Dson.notLoading_clear (d : Dson) : d.clear.NotLoading := by simp [NotLoading, clear]

theorem Dson.notLoading_init (junk : Nat → UInt8) (d : Dson) (type size : Int) : (d.init e junk type size).NotLoading := by
  rw [init]
  cases halloc : d.clear.allocate junk size with
  | none => exact d.notLoading_clear
  | some d' =>
      rw [allocate] at halloc
      split_ifs at halloc
      cases halloc
      exact d.notLoading_clear

theorem Dson.notLoading_initKey (junk : Nat → UInt8) (d : Dson) (key type size : Int) :
    (d.initKey e junk key type size).NotLoading := by
  rw [initKey]
  cases halloc : d.clear.allocate junk size with
  | none => exact d.notLoading_clear
  | some d' => exact d.notLoading_init junk type size

theorem Operation.call_sound {f : Operation} (hrun : f.call e o m = some (o', m')) : Sound o m o' m' := by
  cases f with
  | handle f => exact Handle.call_sound hrun
  | setKey key => exact DsonObj.setKey_sound hrun
  | loadFromFd fd junk =>
      obtain ⟨⟨r, o₁, m₁, fd₁⟩, hload, heq⟩ := Option.map_eq_some_iff.mp hrun
      cases heq
      exact DsonObj.loadFromFd_sound hload
  | loadFromBuf window junk =>
      obtain ⟨⟨r, o₁, m₁⟩, hload, heq⟩ := Option.map_eq_some_iff.mp hrun
      cases heq
      exact DsonObj.loadFromBuf_sound hload
  | loadFromStream input junk =>
      obtain ⟨⟨o₁, m₁, rest⟩, hload, heq⟩ := Option.map_eq_some_iff.mp hrun
      cases heq
      exact DsonObj.loadFromStream_sound hload
  | clear =>
      cases o with
      | dson d children =>
          cases hrun
          exact d.notLoading_clear.sound_nil
      | string s => cases hrun
      | route r => cases hrun
  | init type size junk =>
      cases o with
      | dson d children =>
          cases hrun
          exact (d.notLoading_init junk type size).sound_nil
      | string s => cases hrun
      | route r => cases hrun
  | initKey key type size junk =>
      cases o with
      | dson d children =>
          cases hrun
          exact (d.notLoading_initKey junk key type size).sound_nil
      | string s => cases hrun
      | route r => cases hrun
  | resetState =>
      cases o with
      | dson d children =>
          cases hrun
          exact Dson.resetState_sound d children m
      | string s => cases hrun
      | route r => cases hrun
  | write off bytes =>
      cases o with
      | dson d children =>
          obtain ⟨⟨d₁, m₁⟩, hpatch, heq⟩ := Option.map_eq_some_iff.mp hrun
          cases heq
          exact (Dson.patchBuf_rewrites hpatch).sound
      | string s => cases hrun
      | route r => cases hrun

/-! ### Moves -/

/-- A view is not in the middle of a payload, and may be in the middle of a header. -/
theorem Dson.LoadSafe.mallocView {junk : Nat → UInt8} {size : Int} (h : d.LoadSafe) (hview : d.wasBufAllocation = false) :
    (d.mallocView junk size).LoadSafe := by
  have hdata : d.state ≠ .loadingData := fun hs => by
    obtain ⟨halloc, -⟩ := h.data hs
    rw [hview] at halloc
    cases halloc
  rw [Dson.mallocView]
  split_ifs
  · exact ⟨h.header, fun hs => absurd hs hdata⟩
  · exact ⟨h.header, fun hs => absurd hs hdata⟩

/-- A view that is filled is safe, and so is the object that it is filled from. -/
theorem Dson.fillFrom_sound (hd : d.LoadSafe) (hrun : d.fillFrom e children s m = some (o', s', m')) :
    (DsonObj.SafeAll children → o'.Safe) ∧ Sound s m s' m' := by
  have herror : ∀ x : Dson, x.state = .error → DsonObj.SafeAll children → DsonObj.Safe (.dson x children) :=
    fun x hx hc => DsonObj.safe_dson.mpr ⟨.of_state (by simp [hx]) (by simp [hx]), hc⟩
  rw [Dson.fillFrom] at hrun
  obtain ⟨⟨r₁, s₁, m₁, out₁⟩, hcopy₁, hrun⟩ := Option.bind_eq_some_iff.mp hrun
  have hs₁ : Sound s m s₁ m₁ := DsonObj.copyTo_sound hcopy₁
  dsimp only at hrun
  split_ifs at hrun with hhead
  · cases hrun
    exact ⟨herror _ rfl, hs₁⟩
  obtain ⟨⟨r₂, s₂, m₂, out₂⟩, hcopy₂, hrun⟩ := Option.bind_eq_some_iff.mp hrun
  have hs₂ : Sound s m s₂ m₂ := hs₁.trans (DsonObj.copyTo_sound hcopy₂)
  obtain ⟨⟨d₁, m₃⟩, hpatch, hrun⟩ := Option.bind_eq_some_iff.mp hrun
  have hrewrites := Dson.patchBuf_rewrites hpatch
  have hs₃ : Sound s m s₂ m₃ := ⟨hs₂.safe, hs₂.mem.trans hrewrites.mem⟩
  have hd₁ : d₁.LoadSafe := hrewrites.loadSafe ⟨hd.header, hd.data⟩
  dsimp only at hrun
  split_ifs at hrun
  · cases hrun
    exact ⟨herror _ rfl, hs₃⟩
  · cases hrun
    exact ⟨fun hc => DsonObj.safe_dson.mpr ⟨hd₁, hc⟩, hs₃⟩

/-- After a move both objects are safe. -/
theorem DsonObj.moveFromOther_sound {junk : Nat → UInt8} (ho : o.Safe) (hs : s.Safe)
    (hrun : o.moveFromOther e junk s m = some (o', s', m')) : o'.Safe ∧ s'.Safe := by
  cases o with
  | string s => cases hrun
  | route r => cases hrun
  | dson d children =>
      cases s with
      | string s => cases hrun
      | route r => cases hrun
      | dson sd cs =>
          have hd := safe_dson.mp ho
          rw [DsonObj.moveFromOther] at hrun
          split_ifs at hrun with hview
          · obtain ⟨size, -, hrun⟩ := Option.bind_eq_some_iff.mp hrun
            have hmalloc := @Dson.LoadSafe.mallocView d junk size hd.1 hview.1
            dsimp only at hrun
            split_ifs at hrun
            · cases hrun
              exact ⟨safe_dson.mpr ⟨hmalloc, hd.2⟩, hs⟩
            · obtain ⟨hfilled, hsource⟩ := Dson.fillFrom_sound hmalloc hrun
              exact ⟨hfilled hd.2, hsource.safe hs⟩
          · cases hrun
            exact ⟨hs, safe_dson.mpr ⟨.of_state (by simp) (by simp), hd.2⟩⟩

end

/-! ### Reachable objects -/

/-- The objects that a program can have, with the memory around them. The memory is that of others, who write to
it as they like; and what a program does to an object in another one leaves there an object that it could have
had by itself. -/
inductive Reachable (e : Endian) : DsonObj → Mem → Prop
  | fresh (h : Header) (m : Mem) : Reachable e (.dson (Dson.uninit h) []) m
  | string (s : DsonStringObj) (m : Mem) : Reachable e (.string s) m
  | route (r : DsonRouteObj) (m : Mem) : Reachable e (.route r) m
  | view {p : BufPtr} {d : Dson} {m : Mem} (hrun : Dson.ofBuf e p m = some d) : Reachable e (.dson d []) m
  | headerAndBuf (h : Header) (p : BufPtr) (m : Mem) : Reachable e (.dson (Dson.ofHeaderAndBuf h p) []) m
  | written {o : DsonObj} {m : Mem} (m' : Mem) (ho : Reachable e o m) : Reachable e o m'
  | call {o o' : DsonObj} {m m' : Mem} (f : Operation) (ho : Reachable e o m) (hrun : f.call e o m = some (o', m')) :
      Reachable e o' m'
  | emplace {o o' v : DsonObj} {m m' : Mem} (key : Int) (ho : Reachable e o m) (hv : Reachable e v m)
      (hrun : DsonObj.emplace e key v o m = some (o', m')) : Reachable e o' m'
  | emplacePtr {o o' v : DsonObj} {m m' : Mem} (ho : Reachable e o m) (hv : Reachable e v m)
      (hrun : DsonObj.emplacePtr e v o m = some (o', m')) : Reachable e o' m'
  | movedTo {o s o' s' : DsonObj} {m m' : Mem} (junk : Nat → UInt8) (ho : Reachable e o m) (hs : Reachable e s m)
      (hrun : o.moveFromOther e junk s m = some (o', s', m')) : Reachable e o' m'
  | movedFrom {o s o' s' : DsonObj} {m m' : Mem} (junk : Nat → UInt8) (ho : Reachable e o m) (hs : Reachable e s m)
      (hrun : o.moveFromOther e junk s m = some (o', s', m')) : Reachable e s' m'
  | child {d : Dson} {children : ObjMap} {m : Mem} {key : Int} {c : DsonObj} (ho : Reachable e (.dson d children) m)
      (hfind : KeyMap.find key children = some c) : Reachable e c (d.inner m)
  | left {d : Dson} {children : ObjMap} {m inside : Mem} {key : Int} {c : DsonObj}
      (ho : Reachable e (.dson d children) m) (hc : Reachable e c inside) (hmem : (d.inner m).SameSize inside) :
      Reachable e (.dson (d.outer m inside).1 (KeyMap.insertOrAssign key c children)) (d.outer m inside).2

/-- No step leads out of the safe objects. -/
theorem Reachable.safe {e : Endian} {o : DsonObj} {m : Mem} (h : Reachable e o m) : o.Safe := by
  induction h with
  | fresh h m =>
      exact DsonObj.safe_dson.mpr ⟨.of_state (by simp [Dson.uninit]) (by simp [Dson.uninit]), DsonObj.safeAll_nil⟩
  | string s m => trivial
  | route r m => trivial
  | view hrun => exact Dson.safe_ofBuf hrun
  | headerAndBuf h p m => exact Dson.safe_promoted h p
  | written m' ho ih => exact ih
  | call f ho hrun ih => exact (Operation.call_sound hrun).safe ih
  | emplace key ho hv hrun iho ihv => exact (DsonObj.emplace_sound ihv hrun).safe iho
  | emplacePtr ho hv hrun iho ihv => exact (DsonObj.emplacePtr_sound ihv hrun).safe iho
  | movedTo junk ho hs hrun iho ihs => exact (DsonObj.moveFromOther_sound iho ihs hrun).1
  | movedFrom junk ho hs hrun iho ihs => exact (DsonObj.moveFromOther_sound iho ihs hrun).2
  | child ho hfind ih => exact (DsonObj.safe_dson.mp ih).2.find hfind
  | @left d children m inside key c ho hc hmem iho ihc =>
      have hsound := @SoundAll.outer d children (KeyMap.insertOrAssign key c children) m inside
        ⟨fun hall => hall.insert ihc key, hmem⟩
      exact hsound.safe iho

/-! ### Loads of reachable objects -/

/-- The header that a piece completes has no size: it is read where a view points to, or in children there, and no
header is there. -/
def Dson.Unsized (e : Endian) (d : Dson) (children : ObjMap) (m : Mem) : Prop :=
  ∃ chunk, DsonObj.dataSize e m (.dson (d.headerTaken chunk) children) = none

section

variable {e : Endian} {junk : Nat → UInt8} {d d' : Dson} {children : ObjMap} {m : Mem}

/-- The store of a piece of a payload stays inside the block. -/
theorem Dson.patchBuf_isSome {block chunk : Bytes} {off : Nat} (hbuf : d.buf = .own block)
    (hle : off + chunk.length ≤ block.length) : (d.patchBuf m off chunk).isSome := by
  have hpoke : poke (block.drop off) chunk = some (chunk ++ (block.drop off).drop chunk.length) :=
    poke_isSome (by rw [List.length_drop]; omega)
  rw [patchBuf, hbuf, BufPtr.tail, if_pos (by omega)]
  simp [hpoke]

namespace Dson.LoadSafe

theorem loadDataFromFd_isSome (h : d.LoadSafe) (hstate : d.state = .loadingData) (fd : FdIn) :
    (d.loadDataFromFd m fd).isSome := by
  obtain ⟨-, block, hown, hsize, -, hoff⟩ := h.data hstate
  rw [Dson.loadDataFromFd, if_neg (by omega)]
  split
  · rfl
  · next chunk fd₁ hread =>
      have hlen := length_readFromFd hread
      obtain ⟨⟨d₁, m₁⟩, hpatch⟩ := Option.isSome_iff_exists.mp
        (@Dson.patchBuf_isSome d m block chunk d.offset hown (by omega))
      rw [hpatch]
      simp only [Option.bind_eq_bind, Option.bind_some]
      split_ifs <;> rfl

theorem loadDataFromBuf_isSome (h : d.LoadSafe) (hstate : d.state = .loadingData) (window : Bytes) :
    (d.loadDataFromBuf m window).isSome := by
  obtain ⟨-, block, hown, hsize, -, hoff⟩ := h.data hstate
  rw [Dson.loadDataFromBuf, if_neg (by omega)]
  have hlen : (window.take (d.bufSize - d.offset).toNat).length ≤ (d.bufSize - d.offset).toNat := by
    rw [List.length_take]
    omega
  obtain ⟨⟨d₁, m₁⟩, hpatch⟩ := Option.isSome_iff_exists.mp
    (@Dson.patchBuf_isSome d m block (window.take (d.bufSize - d.offset).toNat) d.offset hown (by omega))
  simp only [hpatch, Option.bind_eq_bind, Option.bind_some]
  split_ifs <;> rfl

/-- Behind a complete header only the size can be missing. -/
theorem headerLoaded_none (hrun : d.headerLoaded e junk children m = none) :
    DsonObj.dataSize e m (.dson d children) = none := by
  cases hsize : DsonObj.dataSize e m (.dson d children) with
  | none => rfl
  | some size =>
      rw [headerLoaded, hsize] at hrun
      simp only [Option.bind_eq_bind, Option.bind_some] at hrun
      split_ifs at hrun
      split at hrun
      · cases hrun
      · cases hrun

theorem loadHeaderFromFd_none (h : d.LoadSafe) (hstate : d.state = .loadingHeader) {fd : FdIn}
    (hrun : d.loadHeaderFromFd e junk children m fd = none) : d.Unsized e children m := by
  have hoff := h.header hstate
  rw [Dson.loadHeaderFromFd, if_neg (by omega)] at hrun
  split at hrun
  · cases hrun
  · next chunk fd₁ hread =>
      dsimp only at hrun
      split_ifs at hrun with hshort
      cases hloaded : (d.headerTaken chunk).headerLoaded e junk children m with
      | none => exact ⟨chunk, headerLoaded_none hloaded⟩
      | some q =>
          obtain ⟨r₁, d₁⟩ := q
          rw [headerTaken] at hloaded
          rw [hloaded] at hrun
          cases r₁ with
          | some r₁ => cases hrun
          | none =>
              have hbegin := (headerLoaded_keeps hloaded).2 rfl
              have hsome := @loadDataFromFd_isSome d₁.beginData m hbegin.safe rfl fd₁
              simp only [Option.bind_eq_bind, Option.bind_some] at hrun
              rw [hrun] at hsome
              cases hsome

theorem loadHeaderFromBuf_none (h : d.LoadSafe) (hstate : d.state = .loadingHeader) {window : Bytes}
    (hrun : d.loadHeaderFromBuf e junk children m window = none) : d.Unsized e children m := by
  rw [loadHeaderFromBuf_eq (h.header hstate)] at hrun
  by_cases hshort : d.offset + (window.take (headerSize - d.offset)).length < headerSize
  · rw [if_pos hshort] at hrun
    cases hrun
  rw [if_neg hshort] at hrun
  cases hloaded : (d.headerTaken (window.take (headerSize - d.offset))).headerLoaded e junk children m with
  | none => exact ⟨_, headerLoaded_none hloaded⟩
  | some q =>
      obtain ⟨r₁, d₁⟩ := q
      rw [hloaded] at hrun
      cases r₁ with
      | some r₁ => cases hrun
      | none =>
          have hbegin := (headerLoaded_keeps hloaded).2 rfl
          simp only [Option.bind_some] at hrun
          split_ifs at hrun
          have hsome := @loadDataFromBuf_isSome d₁.beginData m hbegin.safe rfl
            (window.drop (window.take (headerSize - d.offset)).length)
          rw [hrun] at hsome
          cases hsome

end Dson.LoadSafe

/-- A step that always gives something is not where nothing comes from. -/
theorem bind_none {α β : Type} {x : Option α} {f : α → Option β} (hf : ∀ a, (f a).isSome) (h : x.bind f = none) :
    x = none := by
  cases x with
  | none => rfl
  | some a =>
      have hsome := hf a
      rw [Option.bind_some] at h
      rw [h] at hsome
      cases hsome

/-- A load that cannot go on, as a new one or as the one that is going on. -/
theorem Dson.LoadSafe.loadFromFd_none (h : d.LoadSafe) {fd : FdIn}
    (hrun : DsonObj.loadFromFd e junk fd (.dson d children) m = none) :
    d.Unsized e children m ∨ d.beginLoad.Unsized e [] m := by
  have hfresh := (beginLoad_keeps d).safe
  rw [DsonObj.loadFromFd] at hrun
  split at hrun
  · exact Or.inr (hfresh.loadHeaderFromFd_none rfl (bind_none (fun _ => rfl) hrun))
  · exact Or.inr (hfresh.loadHeaderFromFd_none rfl (bind_none (fun _ => rfl) hrun))
  · exact Or.inr (hfresh.loadHeaderFromFd_none rfl (bind_none (fun _ => rfl) hrun))
  · exact Or.inr (hfresh.loadHeaderFromFd_none rfl (bind_none (fun _ => rfl) hrun))
  · next hstate => exact Or.inl (h.loadHeaderFromFd_none hstate (bind_none (fun _ => rfl) hrun))
  · next hstate =>
      have hnone := bind_none (fun _ => rfl) hrun
      have hsome := @loadDataFromFd_isSome d m h hstate fd
      rw [hnone] at hsome
      cases hsome

theorem Dson.LoadSafe.loadFromBuf_none (h : d.LoadSafe) {window : Bytes}
    (hrun : DsonObj.loadFromBuf e junk window (.dson d children) m = none) :
    d.Unsized e children m ∨ d.beginLoad.Unsized e [] m := by
  have hfresh := (beginLoad_keeps d).safe
  rw [DsonObj.loadFromBuf] at hrun
  split at hrun
  · exact Or.inr (hfresh.loadHeaderFromBuf_none rfl (bind_none (fun _ => rfl) hrun))
  · exact Or.inr (hfresh.loadHeaderFromBuf_none rfl (bind_none (fun _ => rfl) hrun))
  · exact Or.inr (hfresh.loadHeaderFromBuf_none rfl (bind_none (fun _ => rfl) hrun))
  · exact Or.inr (hfresh.loadHeaderFromBuf_none rfl (bind_none (fun _ => rfl) hrun))
  · next hstate => exact Or.inl (h.loadHeaderFromBuf_none hstate (bind_none (fun _ => rfl) hrun))
  · next hstate =>
      have hnone := bind_none (fun _ => rfl) hrun
      have hsome := @loadDataFromBuf_isSome d m h hstate window
      rw [hnone] at hsome
      cases hsome

/-- Whatever a program has done with its objects: a position in a header is inside `header_`, a position in a payload
is inside a block of the object's own that has the size the object has kept, and no store of a load is out of range.
The only step of a load that can be undefined is the reading of the size that a header announces. -/
theorem Reachable.loads_in_bounds (h : Reachable e (.dson d children) m) :
    (d.state = .loadingHeader → d.offset < headerSize) ∧
    (d.state = .loadingData → d.wasBufAllocation = true ∧ ∃ block, d.buf = .own block ∧ d.bufSize = block.length ∧
      block.length ≤ 2 ^ 30 ∧ d.offset < block.length) ∧
    (∀ junk fd, DsonObj.loadFromFd e junk fd (.dson d children) m = none →
      d.Unsized e children m ∨ d.beginLoad.Unsized e [] m) ∧
    (∀ junk window, DsonObj.loadFromBuf e junk window (.dson d children) m = none →
      d.Unsized e children m ∨ d.beginLoad.Unsized e [] m) := by
  have hsafe := (DsonObj.safe_dson.mp h.safe).1
  exact ⟨hsafe.header, hsafe.data, fun junk fd hrun => hsafe.loadFromFd_none hrun,
    fun junk window hrun => hsafe.loadFromBuf_none hrun⟩

/-- One byte of a payload of two has come. -/
def halfLoaded : Dson where
  state := .loadingData
  offset := 1
  headerBuf := ⟨⟨1, 0, 0, 0⟩, ⟨2, 0, 0, 0⟩, ⟨9, 0, 0, 0⟩, ⟨3, 0, 0, 0⟩⟩
  buf := .own [7, 0]
  bufSize := 2
  wasBufAllocation := true
  dsonKind := .dataBufNeedParse
  copyIter := .unset

theorem Reachable.loads_in_bounds_sample : ∃ block, halfLoaded.buf = .own block ∧ halfLoaded.offset < block.length := by
  have hrun : (Operation.loadFromBuf [1, 0, 0, 0, 2, 0, 0, 0, 9, 0, 0, 0, 3, 0, 0, 0, 7] (fun _ => 0)).call .little
      (.dson (Dson.uninit halfLoaded.headerBuf) []) ⟨[], []⟩ = some (.dson halfLoaded [], ⟨[], []⟩) := rfl
  obtain ⟨-, block, hown, -, -, hoff⟩ := (Reachable.loads_in_bounds (.call _ (.fresh _ _) hrun)).2.1 rfl
  exact ⟨block, hown, hoff⟩

end

end LeanDson
