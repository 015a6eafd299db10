import LeanDson.Decoding
import LeanDson.Streaming

/-! Histories: every object that the constructors, `set_key`, `emplace`, `get`, `map` and complete
emissions lead to holds a tree, and what it emits next, whatever came before, is that tree. -/

namespace LeanDson

/-- Descriptors that take at most so many bytes at each `write`, one descriptor a call. -/
def shortWrites (calls : List (List Nat)) : List FdOut := calls.map fun counts => .fresh (counts.map some)

/-- Windows of so many bytes, one a call. -/
def windows (rooms : List Nat) : List BufOut := rooms.map .fresh

/-- `emplace(key, obj)`, as an operation at the end of a path. -/
def emplaceAt (e : Endian) (key : Int) (obj : DsonObj) (o : DsonObj) (m : Mem) : Option (Unit × DsonObj × Mem) :=
  (DsonObj.emplace e key obj o m).map fun p => ((), p)

/-- `emplace(obj)`, as an operation at the end of a path. -/
def emplacePtrAt (e : Endian) (obj : DsonObj) (o : DsonObj) (m : Mem) : Option (Unit × DsonObj × Mem) :=
  (DsonObj.emplacePtr e obj o m).map fun p => ((), p)

/-- `map`, as an operation at the end of a path. -/
def mapAt (e : Endian) (o : DsonObj) (m : Mem) : Option (Unit × DsonObj × Mem) :=
  (DsonObj.map e o m).map fun p => ((), p)

/-- A run of an incremental emitter, as an operation at the end of a path. -/
def copyRunAt {σ : Type} [ByteSink σ] (e : Endian) (network : Bool) (ss : List σ) (o : DsonObj) (m : Mem) :
    Option ((Result × Bytes) × DsonObj × Mem) :=
  (DsonObj.copyRun e network o m ss).map fun (r, p, bs) => ((r, bs), p)

/-- The stream emitter, as an operation at the end of a path. -/
def copyToStreamAt (e : Endian) (network : Bool) (o : DsonObj) (m : Mem) : Option (Bytes × DsonObj × Mem) :=
  (DsonObj.copyToStream e network o m).map fun (o, m, bs) => (bs, o, m)

/-- The objects that some history leads to, with their keys and the trees they should hold. -/
inductive Built (e : Endian) : DsonObj → Int → Tree → Prop
  | container : Built e (DsonObj.empty e) 0 (.node [])
  | int32 {h : Header} {junk : Nat → UInt8} {v : Int} {o : DsonObj} (hv : IsInt32 v)
      (hrun : DsonObj.ofInt32 e h junk v = some o) : Built e o (h.key.int32 e) (.leaf (.int32 v))
  | uint32 {h : Header} {junk : Nat → UInt8} {v : Nat} {o : DsonObj} (hv : v < 2 ^ 32)
      (hrun : DsonObj.ofUInt32 e h junk v = some o) : Built e o (h.key.int32 e) (.leaf (.uint32 v))
  | double {h : Header} {junk : Nat → UInt8} {x : Binary64} {o : DsonObj}
      (hrun : DsonObj.ofDouble e h junk x = some o) : Built e o (h.key.int32 e) (.leaf (.double x.canon))
  | string {h : Header} {junk : Nat → UInt8} {s : Bytes} {o : DsonObj} (hs : s ≠ [])
      (hlt : s.length < 2 ^ 31) (hrun : DsonObj.ofString e h junk s = some o) :
      Built e o (h.key.int32 e) (.leaf (.string s))
  | stringObj {key : Int} {s : Bytes} (hkey : IsInt32 key) (hs : s ≠ []) (hlt : s.length < 2 ^ 31) :
      Built e (DsonObj.ofStringObj e key s) key (.leaf (.string s))
  | routeObj {key : Int} {a : Address} (hkey : IsInt32 key) :
      Built e (DsonObj.ofRouteObj e key a) key (.leaf (.words (a.words e)))
  | setKey {o o' : DsonObj} {k k' : Int} {t : Tree} {m m' : Mem} (ho : Built e o k t) (hk : IsInt32 k')
      (hrun : o.setKey e m k' = some (o', m')) : Built e o' k' t
  | emplace {o o' obj : DsonObj} {k k₀ key : Int} {t t' t₀ : Tree} {path : List Int} {m m' : Mem} {u : Unit}
      (ho : Built e o k t) (hobj : Built e obj k₀ t₀) (hkey : IsInt32 key)
      (ht : t.modify (KeyMap.insertOrAssign key t₀) path = some t')
      (hrun : DsonObj.onPath (emplaceAt e key obj) path o m = some (u, o', m')) : Built e o' k t'
  | emplacePtr {o o' obj : DsonObj} {k key : Int} {t t' t₀ : Tree} {path : List Int} {m m' : Mem} {u : Unit}
      (ho : Built e o k t) (hobj : Built e obj key t₀)
      (ht : t.modify (KeyMap.insertOrAssign key t₀) path = some t')
      (hrun : DsonObj.onPath (emplacePtrAt e obj) path o m = some (u, o', m')) : Built e o' k t'
  | get {o o' : DsonObj} {k key : Int} {t : Tree} {ts : Forest} {path : List Int} {m m' : Mem} {f : Found}
      (ho : Built e o k t) (ht : t.at path = some (.node ts))
      (hrun : DsonObj.onPath (DsonObj.get e key) path o m = some (f, o', m')) : Built e o' k t
  | map {o o' : DsonObj} {k : Int} {t : Tree} {ts : Forest} {path : List Int} {m m' : Mem} {u : Unit}
      (ho : Built e o k t) (ht : t.at path = some (.node ts))
      (hrun : DsonObj.onPath (mapAt e) path o m = some (u, o', m')) : Built e o' k t
  | stream {o o' : DsonObj} {k : Int} {t sub : Tree} {path : List Int} {network : Bool} {m m' : Mem}
      {bs : Bytes} (ho : Built e o k t) (ht : t.at path = some sub) (hlt : sub.size < 2 ^ 31)
      (hrun : DsonObj.onPath (copyToStreamAt e network) path o m = some (bs, o', m')) : Built e o' k t
  | fd {o o' : DsonObj} {k : Int} {t sub : Tree} {path : List Int} {network : Bool} {calls : List (List Nat)}
      {m m' : Mem} {r : Result} {bs : Bytes} (ho : Built e o k t) (ht : t.at path = some sub)
      (hlt : sub.size < 2 ^ 31) (hr : r ≠ .inProcess)
      (hrun : DsonObj.onPath (copyRunAt e network (shortWrites calls)) path o m = some ((r, bs), o', m')) :
      Built e o' k t
  | buf {o o' : DsonObj} {k : Int} {t sub : Tree} {path : List Int} {network : Bool} {rooms : List Nat}
      {m m' : Mem} {r : Result} {bs : Bytes} (ho : Built e o k t) (ht : t.at path = some sub)
      (hlt : sub.size < 2 ^ 31) (hr : r ≠ .inProcess)
      (hrun : DsonObj.onPath (copyRunAt e network (windows rooms)) path o m = some ((r, bs), o', m')) :
      Built e o' k t

/-! ### What a history leaves -/

section

variable {e : Endian}

theorem Turns.emplaceAt {obj : DsonObj} {k₀ key : Int} {t : Tree} (hobj : Holds e obj k₀ t) (hkey : IsInt32 key)
    (k : Int) (ts : Forest) : Turns e (fun _ => True) (emplaceAt e key obj) k (.node ts)
      (.node (KeyMap.insertOrAssign key t ts)) := by
  intro o m ho
  obtain ⟨o', hrun, ho'⟩ := ho.emplace hobj hkey m
  exact ⟨(), o', by rw [LeanDson.emplaceAt, hrun]; rfl, fun _ => ho'⟩

theorem Turns.emplacePtrAt {obj : DsonObj} {key : Int} {t : Tree} (hobj : Holds e obj key t) (k : Int)
    (ts : Forest) : Turns e (fun _ => True) (emplacePtrAt e obj) k (.node ts)
      (.node (KeyMap.insertOrAssign key t ts)) := by
  intro o m ho
  obtain ⟨o', hrun, ho'⟩ := ho.emplacePtr hobj m
  exact ⟨(), o', by rw [LeanDson.emplacePtrAt, hrun]; rfl, fun _ => ho'⟩

theorem Turns.mapAt (k : Int) (ts : Forest) :
    Turns e (fun _ => True) (mapAt e) k (.node ts) (.node ts) := by
  intro o m ho
  obtain ⟨o', hrun, ho'⟩ := ho.map m
  exact ⟨(), o', by rw [LeanDson.mapAt, hrun]; rfl, fun _ => ho'⟩

theorem Turns.copyToStreamAt (network : Bool) (t : Tree) (k : Int) :
    Turns e (fun _ => True) (copyToStreamAt e network) k t t := by
  intro o m ho
  obtain ⟨o', hrun, ho'⟩ := ho.copyToStream network m
  exact ⟨_, o', by rw [LeanDson.copyToStreamAt, hrun]; rfl, fun _ => ho'⟩

theorem Turns.copyRunAt {σ : Type} [ByteSink σ] (network : Bool) {ss : List σ}
    (hss : ∀ s ∈ ss, ByteSink.Willing s ∧ ByteSink.written s = []) {t : Tree} (hlt : t.size < 2 ^ 31) (k : Int) :
    Turns e (fun a => a.1 ≠ .inProcess) (copyRunAt e network ss) k t t := by
  intro o m ho
  obtain ⟨r, o', bs, hrun, hcases⟩ := Emittable.copyRun ho.emittable hlt network m hss
  refine ⟨(r, bs), o', by rw [LeanDson.copyRunAt, hrun]; rfl, fun hr => ?_⟩
  rcases hcases with ⟨-, ho', -⟩ | ⟨hin, -, -⟩
  · exact ho'
  · exact absurd hin hr

theorem shortWrites_willing (calls : List (List Nat)) :
    ∀ s ∈ shortWrites calls, ByteSink.Willing s ∧ ByteSink.written s = [] := by
  intro s hs
  obtain ⟨counts, -, rfl⟩ := List.mem_map.mp hs
  exact ⟨by simp [ByteSink.Willing, FdOut.fresh], rfl⟩

theorem windows_willing (rooms : List Nat) :
    ∀ s ∈ windows rooms, ByteSink.Willing s ∧ ByteSink.written s = [] := by
  intro s hs
  obtain ⟨room, -, rfl⟩ := List.mem_map.mp hs
  exact ⟨trivial, rfl⟩

/-- Sinks that take something at every call. -/
theorem shortWrites_eager {calls : List (List Nat)} (hcalls : ∀ counts ∈ calls, ∃ n rest, counts = (n + 1) :: rest) :
    ∀ s ∈ shortWrites calls, ByteSink.Willing s ∧ ByteSink.written s = [] ∧ Eager s := by
  intro s hs
  obtain ⟨hwill, hempty⟩ := shortWrites_willing calls s hs
  obtain ⟨counts, hmem, rfl⟩ := List.mem_map.mp hs
  obtain ⟨n, rest, rfl⟩ := hcalls counts hmem
  exact ⟨hwill, hempty, FdOut.eager (Nat.succ_ne_zero n) _⟩

theorem windows_eager {rooms : List Nat} (hrooms : ∀ room ∈ rooms, 0 < room) :
    ∀ s ∈ windows rooms, ByteSink.Willing s ∧ ByteSink.written s = [] ∧ Eager s := by
  intro s hs
  obtain ⟨hwill, hempty⟩ := windows_willing rooms s hs
  obtain ⟨room, hmem, rfl⟩ := List.mem_map.mp hs
  exact ⟨hwill, hempty, BufOut.eager (hrooms room hmem).ne'⟩

/-- The object after an operation that is known to have run. -/
theorem Turns.holds {α : Type} {Q : α → Prop} {f : DsonObj → Mem → Option (α × DsonObj × Mem)} {k : Int}
    {t t' : Tree} (hf : Turns e Q f k t t') {o o' : DsonObj} {m m' : Mem} {a : α} (ho : Holds e o k t)
    (hrun : f o m = some (a, o', m')) (ha : Q a) : Holds e o' k t' := by
  obtain ⟨a', o'', hrun', ho''⟩ := hf m ho
  rw [hrun] at hrun'
  cases hrun'
  exact ho'' ha

/-- Whatever the history, the object holds its tree. -/
theorem Built.holds {o : DsonObj} {k : Int} {t : Tree} (h : Built e o k t) : Holds e o k t := by
  induction h with
  | container => exact holds_empty
  | int32 hv hrun =>
      obtain ⟨o, hrun', ho⟩ := holds_ofInt32 _ _ hv
      rw [hrun'] at hrun
      cases hrun
      exact ho
  | uint32 hv hrun =>
      obtain ⟨o, hrun', ho⟩ := holds_ofUInt32 _ _ hv
      rw [hrun'] at hrun
      cases hrun
      exact ho
  | double hrun =>
      obtain ⟨o, hrun', ho⟩ := holds_ofDouble _ _ _
      rw [hrun'] at hrun
      cases hrun
      exact ho
  | string hs hlt hrun =>
      obtain ⟨o, hrun', ho⟩ := holds_ofString _ _ hs hlt
      rw [hrun'] at hrun
      cases hrun
      exact ho
  | stringObj hkey hs hlt => exact holds_ofStringObj hkey hs hlt
  | routeObj hkey => exact holds_ofRouteObj hkey _
  | setKey _ hk hrun ih =>
      obtain ⟨o', hrun', ho'⟩ := ih.setKey hk _
      rw [hrun'] at hrun
      cases hrun
      exact ho'
  | emplace _ _ hkey ht hrun ih ihobj =>
      exact Turns.holds (Turns.onPath (fun k ts => Turns.emplaceAt ihobj hkey k ts) ht) ih hrun trivial
  | emplacePtr _ _ ht hrun ih ihobj =>
      exact Turns.holds (Turns.onPath (fun k ts => Turns.emplacePtrAt ihobj k ts) ht) ih hrun trivial
  | get _ ht hrun ih =>
      exact Turns.holds (Turns.onPath_same (fun k => Turns.get _ k _) ht) ih hrun trivial
  | map _ ht hrun ih =>
      exact Turns.holds (Turns.onPath_same (fun k => Turns.mapAt k _) ht) ih hrun trivial
  | stream _ ht _ hrun ih =>
      exact Turns.holds (Turns.onPath_same (fun k => Turns.copyToStreamAt _ _ k) ht) ih hrun trivial
  | fd _ ht hlt hr hrun ih =>
      exact Turns.holds (Turns.onPath_same (fun k => Turns.copyRunAt _ (shortWrites_willing _) hlt k) ht) ih hrun hr
  | buf _ ht hlt hr hrun ih =>
      exact Turns.holds (Turns.onPath_same (fun k => Turns.copyRunAt _ (windows_willing _) hlt k) ht) ih hrun hr

/-- The operations of a container all have an outcome, and leave the memory around it alone. -/
structure Serves (e : Endian) (o : DsonObj) (t : Tree) (m : Mem) : Prop where
  setKey : ∀ key, IsInt32 key → ∃ o', o.setKey e m key = some (o', m)
  emplace : ∀ {path key obj k₀ t₀ t'}, Built e obj k₀ t₀ → IsInt32 key →
    t.modify (KeyMap.insertOrAssign key t₀) path = some t' →
      ∃ u o', DsonObj.onPath (emplaceAt e key obj) path o m = some (u, o', m)
  emplacePtr : ∀ {path key obj t₀ t'}, Built e obj key t₀ →
    t.modify (KeyMap.insertOrAssign key t₀) path = some t' →
      ∃ u o', DsonObj.onPath (emplacePtrAt e obj) path o m = some (u, o', m)
  get : ∀ {path ts} key, t.at path = some (.node ts) →
    ∃ f o', DsonObj.onPath (DsonObj.get e key) path o m = some (f, o', m)
  map : ∀ {path ts}, t.at path = some (.node ts) → ∃ u o', DsonObj.onPath (mapAt e) path o m = some (u, o', m)

theorem Built.serves {o : DsonObj} {k : Int} {t : Tree} (h : Built e o k t) (m : Mem) : Serves e o t m where
  setKey key hkey := by
    obtain ⟨o', hrun, -⟩ := h.holds.setKey hkey m
    exact ⟨o', hrun⟩
  emplace := by
    intro path key obj k₀ t₀ t' hobj hkey ht
    obtain ⟨u, o', hrun, -⟩ := Turns.onPath (fun k ts => Turns.emplaceAt hobj.holds hkey k ts) ht m h.holds
    exact ⟨u, o', hrun⟩
  emplacePtr := by
    intro path key obj t₀ t' hobj ht
    obtain ⟨u, o', hrun, -⟩ := Turns.onPath (fun k ts => Turns.emplacePtrAt hobj.holds k ts) ht m h.holds
    exact ⟨u, o', hrun⟩
  get := by
    intro path ts key ht
    obtain ⟨f, o', hrun, -⟩ := Turns.onPath_same (fun k => Turns.get key k ts) ht m h.holds
    exact ⟨f, o', hrun⟩
  map := by
    intro path ts ht
    obtain ⟨u, o', hrun, -⟩ := Turns.onPath_same (fun k => Turns.mapAt k ts) ht m h.holds
    exact ⟨u, o', hrun⟩

/-- An emission that is complete is ready, and the reference decoder reads the tree from its bytes and
uses them up. -/
def Delivers (e : Endian) (k : Int) (t : Tree) (r : Result) (bs : Bytes) : Prop :=
  r = .ready ∧ decodeMessage e bs = some (k, t.shown, [])

/-- The three emitters on an object that should hold a tree under a key. -/
structure EmitsTree (e : Endian) (network : Bool) (o : DsonObj) (k : Int) (t : Tree) (m : Mem) : Prop where
  stream : ∃ o' bs, o.copyToStream e network m = some (o', m, bs) ∧ o'.state = .ready ∧
    Delivers e k t .ready bs
  fd : ∀ calls, ∃ r o' bs, o.copyRun e network m (shortWrites calls) = some (r, (o', m), bs) ∧
    (r = .inProcess ∨ Delivers e k t r bs)
  fd_completes : ∀ calls, (∀ counts ∈ calls, ∃ n rest, counts = (n + 1) :: rest) → t.size ≤ calls.length →
    ∃ o' bs, o.copyRun e network m (shortWrites calls) = some (.ready, (o', m), bs)
  buf : ∀ rooms, ∃ r o' bs, o.copyRun e network m (windows rooms) = some (r, (o', m), bs) ∧
    (r = .inProcess ∨ Delivers e k t r bs)
  buf_completes : ∀ rooms, (∀ room ∈ rooms, 0 < room) → t.size ≤ rooms.length →
    ∃ o' bs, o.copyRun e network m (windows rooms) = some (.ready, (o', m), bs)

theorem Holds.copyRun_delivers {σ : Type} [ByteSink σ] {o : DsonObj} {k : Int} {t : Tree} (h : Holds e o k t)
    (hlt : t.size < 2 ^ 31) (network : Bool) (m : Mem) {ss : List σ}
    (hss : ∀ s ∈ ss, ByteSink.Willing s ∧ ByteSink.written s = []) :
    ∃ r o' bs, o.copyRun e network m ss = some (r, (o', m), bs) ∧ (r = .inProcess ∨ Delivers e k t r bs) := by
  obtain ⟨r, o', bs, hrun, ⟨hr, -, hbs⟩ | ⟨hr, -⟩⟩ := Emittable.copyRun h.emittable hlt network m hss
  · refine ⟨r, o', bs, hrun, Or.inr ⟨hr, ?_⟩⟩
    rw [← hbs, h.pending, h.decodeMessage_wire hlt]
  · exact ⟨r, o', bs, hrun, Or.inl hr⟩

theorem Holds.emitsTree {o : DsonObj} {k : Int} {t : Tree} (h : Holds e o k t) (hlt : t.size < 2 ^ 31)
    (network : Bool) (m : Mem) : EmitsTree e network o k t m where
  stream := by
    obtain ⟨o', hrun, ho'⟩ := h.copyToStream network m
    exact ⟨o', _, hrun, ho'.state, rfl, h.decodeMessage_wire hlt network⟩
  fd calls := h.copyRun_delivers hlt network m (shortWrites_willing calls)
  fd_completes := by
    intro calls hcalls hlen
    obtain ⟨o', hrun, -⟩ := Emittable.copyRun_completes h.emittable hlt network m (shortWrites_eager hcalls)
      (by rw [h.pending, h.wire_length, shortWrites, List.length_map]; exact hlen)
    exact ⟨o', _, hrun⟩
  buf rooms := h.copyRun_delivers hlt network m (windows_willing rooms)
  buf_completes := by
    intro rooms hrooms hlen
    obtain ⟨o', hrun, -⟩ := Emittable.copyRun_completes h.emittable hlt network m (windows_eager hrooms)
      (by rw [h.pending, h.wire_length, windows, List.length_map]; exact hlen)
    exact ⟨o', _, hrun⟩

/-- Every emission of an object, by any emitter, in either order and with any chunking, ends ready with
bytes in `P`, or waits for more room; it ends where enough calls have room. -/
structure Emissions (e : Endian) (o : DsonObj) (m : Mem) (P : Bytes → Prop) : Prop where
  stream : ∀ network, ∃ o' bs, o.copyToStream e network m = some (o', m, bs) ∧ o'.state = .ready ∧ P bs
  fd : ∀ network calls, ∃ r o' bs, o.copyRun e network m (shortWrites calls) = some (r, (o', m), bs) ∧
    (r = .inProcess ∨ r = .ready ∧ P bs)
  fd_completes : ∀ network, ∃ n, ∀ calls, (∀ counts ∈ calls, ∃ n rest, counts = (n + 1) :: rest) →
    n ≤ calls.length → ∃ o' bs, o.copyRun e network m (shortWrites calls) = some (.ready, (o', m), bs)
  buf : ∀ network rooms, ∃ r o' bs, o.copyRun e network m (windows rooms) = some (r, (o', m), bs) ∧
    (r = .inProcess ∨ r = .ready ∧ P bs)
  buf_completes : ∀ network, ∃ n, ∀ rooms, (∀ room ∈ rooms, 0 < room) → n ≤ rooms.length →
    ∃ o' bs, o.copyRun e network m (windows rooms) = some (.ready, (o', m), bs)

theorem Holds.copyRun_wire {σ : Type} [ByteSink σ] {o : DsonObj} {k : Int} {t : Tree} (h : Holds e o k t)
    (hlt : t.size < 2 ^ 31) (network : Bool) (m : Mem) {ss : List σ}
    (hss : ∀ s ∈ ss, ByteSink.Willing s ∧ ByteSink.written s = []) :
    ∃ r o' bs, o.copyRun e network m ss = some (r, (o', m), bs) ∧
      (r = .inProcess ∨ r = .ready ∧ bs = o.wire e network) := by
  obtain ⟨r, o', bs, hrun, ⟨hr, -, hbs⟩ | ⟨hr, -⟩⟩ := Emittable.copyRun h.emittable hlt network m hss
  · exact ⟨r, o', bs, hrun, Or.inr ⟨hr, by rw [← hbs, h.pending]⟩⟩
  · exact ⟨r, o', bs, hrun, Or.inl hr⟩

/-- What holds of the encoding of an object holds of all its emissions. -/
theorem Holds.emissions {o : DsonObj} {k : Int} {t : Tree} (h : Holds e o k t) (hlt : t.size < 2 ^ 31) (m : Mem)
    {P : Bytes → Prop} (hP : ∀ network, P (o.wire e network)) : Emissions e o m P where
  stream network := by
    obtain ⟨o', hrun, ho'⟩ := h.copyToStream network m
    exact ⟨o', _, hrun, ho'.state, hP network⟩
  fd network calls := by
    obtain ⟨r, o', bs, hrun, hr | ⟨hr, rfl⟩⟩ := h.copyRun_wire hlt network m (shortWrites_willing calls)
    · exact ⟨r, o', bs, hrun, Or.inl hr⟩
    · exact ⟨r, o', _, hrun, Or.inr ⟨hr, hP network⟩⟩
  fd_completes network := ⟨t.size, fun calls hcalls hlen => (h.emitsTree hlt network m).fd_completes calls hcalls hlen⟩
  buf network rooms := by
    obtain ⟨r, o', bs, hrun, hr | ⟨hr, rfl⟩⟩ := h.copyRun_wire hlt network m (windows_willing rooms)
    · exact ⟨r, o', bs, hrun, Or.inl hr⟩
    · exact ⟨r, o', _, hrun, Or.inr ⟨hr, hP network⟩⟩
  buf_completes network := ⟨t.size, fun rooms hrooms hlen => (h.emitsTree hlt network m).buf_completes rooms hrooms hlen⟩

/-- Encoding is correct and independent of the history: whatever built the object, its operations go
on, and below the range of 32-bit integers every complete emission is decoded into its tree, children
in ascending order of their keys. -/
theorem built_emission {o : DsonObj} {k : Int} {t : Tree} (h : Built e o k t) (m : Mem) :
    Serves e o t m ∧ t.shown.Ordered ∧ (t.Populated → t.shown = t) ∧
      (t.size < 2 ^ 31 → ∀ network, EmitsTree e network o k t m) :=
  ⟨h.serves m, Tree.shown_ordered h.holds.ordered, Tree.shown_of_populated,
    fun hlt network => h.holds.emitsTree hlt network m⟩

/-- A container that has been given a key, a number and a string. -/
theorem built_emission_sample : ∃ o, EmitsTree .little true o 3
    (.node [(5, .leaf (.int32 (-7))), (9, .leaf (.string [104, 105]))]) ⟨[], []⟩ := by
  obtain ⟨number, hnumber, -⟩ := holds_ofInt32 (e := .little) (Dson.clearHeader .little) (fun _ => 205)
    (v := -7) (by decide)
  have hchild := Built.int32 (by decide) hnumber
  obtain ⟨root, hkey⟩ := (Built.container.serves ⟨[], []⟩).setKey 3 (by decide)
  have hroot := Built.setKey .container (by decide) hkey
  obtain ⟨u, root', hfirst⟩ := (hroot.serves ⟨[], []⟩).emplace hchild (by decide : IsInt32 5)
    (rfl : (Tree.node []).modify _ [] = some _)
  have hroot' := Built.emplace hroot hchild (by decide) rfl hfirst
  have hstring : Built .little (DsonObj.ofStringObj .little 9 [104, 105]) 9 (.leaf (.string [104, 105])) :=
    .stringObj (by decide) (by decide) (by decide)
  obtain ⟨u, root'', hsecond⟩ := (hroot'.serves ⟨[], []⟩).emplacePtr hstring
    (rfl : (Tree.node _).modify _ [] = some _)
  have hroot'' := Built.emplacePtr hroot' hstring rfl hsecond
  exact ⟨root'', (built_emission hroot'' ⟨[], []⟩).2.2.2 (by decide) true⟩

end

end LeanDson
