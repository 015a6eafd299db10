import LeanDson.Hosts
import Mathlib.Data.List.Induction
import Mathlib.Data.List.Nodup
import Mathlib.Data.List.Perm.Subperm
import Mathlib.Algebra.Order.BigOperators.Group.List

/-! Network order between hosts of different endianness. A container is built on one host, emitted in
network order and loaded on another one. The receiver finds everything between hosts of the same
endianness; otherwise a string in a `Dson` and a double get lost, the first from a little-endian host
and the second in either direction. -/

namespace LeanDson

/-! ### Containers -/

/-- The children of a container as a forest. -/
def forest (cs : List (Int × Child)) : Forest := cs.map fun p => (p.1, .leaf p.2.value)

/-- Containers that are filled by `emplace`, with the children they should have. -/
inductive Filled (e : Endian) : DsonObj → List (Int × Child) → Prop
  | empty : Filled e (.empty e) []
  | emplace {o o' obj : DsonObj} {cs : List (Int × Child)} {c : Child} {key : Int} {m m' : Mem} (ho : Filled e o cs)
      (hobj : Made e obj c) (hkey : IsInt32 key) (hpos : 0 ≤ key)
      (hrun : DsonObj.emplace e key obj o m = some (o', m')) : Filled e o' (KeyMap.insertOrAssign key c cs)
  | emplacePtr {o o' obj : DsonObj} {cs : List (Int × Child)} {c : Child} {key : Int} {m m' : Mem}
      (ho : Filled e o cs) (hobj : Made e obj c) (hkey : obj.key e m = some key) (hpos : 0 ≤ key)
      (hrun : DsonObj.emplacePtr e obj o m = some (o', m')) : Filled e o' (KeyMap.insertOrAssign key c cs)

section

variable {e : Endian}

theorem forest_insert (key : Int) (c : Child) (cs : List (Int × Child)) :
    forest (KeyMap.insertOrAssign key c cs) = KeyMap.insertOrAssign key (.leaf c.value) (forest cs) :=
  (KeyMap.insertOrAssign_map (fun c : Child => Tree.leaf c.value) key c cs).symm

theorem Filled.built {o : DsonObj} {cs : List (Int × Child)} (h : Filled e o cs) : Built e o 0 (.node (forest cs)) := by
  induction h with
  | empty => exact .container
  | @emplace o o' obj cs c key m m' ho hobj hkey hpos hrun ih =>
      obtain ⟨k₀, hbuilt⟩ := hobj.built
      have hmod : (Tree.node (forest cs)).modify (KeyMap.insertOrAssign key (.leaf c.value)) [] =
          some (.node (forest (KeyMap.insertOrAssign key c cs))) := by rw [Tree.modify, forest_insert]
      have hrun' : DsonObj.onPath (emplaceAt e key obj) [] o m = some ((), o', m') := by
        rw [DsonObj.onPath, emplaceAt, hrun]
        rfl
      exact .emplace ih hbuilt hkey hmod hrun'
  | @emplacePtr o o' obj cs c key m m' ho hobj hkey hpos hrun ih =>
      obtain ⟨k₀, hbuilt⟩ := hobj.built
      obtain rfl : k₀ = key := Option.some.inj ((hbuilt.holds.key m).symm.trans hkey)
      have hmod : (Tree.node (forest cs)).modify (KeyMap.insertOrAssign k₀ (.leaf c.value)) [] =
          some (.node (forest (KeyMap.insertOrAssign k₀ c cs))) := by rw [Tree.modify, forest_insert]
      have hrun' : DsonObj.onPath (emplacePtrAt e obj) [] o m = some ((), o', m') := by
        rw [DsonObj.onPath, emplacePtrAt, hrun]
        rfl
      exact .emplacePtr ih hbuilt hmod hrun'

/-- An insertion into a container binds the key to the object under that key. -/
theorem Holds.emplace_eq {d : Dson} {children : ObjMap} {obj : DsonObj} {k k₀ key : Int} {ts : Forest} {t : Tree}
    (ho : Holds e (.dson d children) k (.node ts)) (hobj : Holds e obj k₀ t) (hkey : IsInt32 key) (m : Mem) :
    ∃ obj' d', obj.setKey e m key = some (obj', m) ∧
      DsonObj.emplace e key obj (.dson d children) m = some (.dson d' (KeyMap.insertOrAssign key obj' children), m) := by
  obtain ⟨obj', hset, -⟩ := hobj.setKey hkey m
  rw [Holds] at ho
  obtain ⟨hstate, hnode, -⟩ := ho
  refine ⟨obj', { d with headerBuf := d.headerBuf.setDataType e TypesMap.dsonContainer }, hset, ?_⟩
  rw [DsonObj.emplace, hset]
  simp only [Option.bind_eq_bind, Option.bind_some, hnode.insertInternal hstate]
  rfl

/-- Objects under keys, with the children that they are. -/
abbrev AllMade (e : Endian) (Q : DsonObj → Child → Prop) (children : ObjMap) (cs : List (Int × Child)) : Prop :=
  List.Forall₂ (fun p q => p.1 = q.1 ∧ Made e p.2 q.2 ∧ Q p.2 q.2) children cs

theorem Filled.children {o : DsonObj} {cs : List (Int × Child)} (h : Filled e o cs) :
    ∃ d children, o = .dson d children ∧ AllMade e (fun _ _ => True) children cs := by
  induction h with
  | empty => exact ⟨_, _, rfl, .nil⟩
  | @emplace o o' obj cs c key m m' ho hobj hkey hpos hrun ih =>
      obtain ⟨d, children, rfl, hall⟩ := ih
      obtain ⟨k₀, hbuilt⟩ := hobj.built
      obtain ⟨obj', d', hset, hrun'⟩ := ho.built.holds.emplace_eq hbuilt.holds hkey m
      cases hrun'.symm.trans hrun
      exact ⟨d', _, rfl, KeyMap.forall₂_insertOrAssign (R := fun _ v w => Made e v w ∧ True) hall key
        ⟨.setKey hobj hkey hset, trivial⟩⟩
  | @emplacePtr o o' obj cs c key m m' ho hobj hkey hpos hrun ih =>
      obtain ⟨d, children, rfl, hall⟩ := ih
      have hholds := ho.built.holds
      rw [Holds] at hholds
      obtain ⟨hstate, hnode, -⟩ := hholds
      rw [DsonObj.emplacePtr, hkey] at hrun
      simp only [Option.bind_eq_bind, Option.bind_some, hnode.insertInternal hstate] at hrun
      cases hrun
      exact ⟨_, _, rfl, KeyMap.forall₂_insertOrAssign (R := fun _ v w => Made e v w ∧ True) hall key
        ⟨hobj, trivial⟩⟩

end

/-- Children in the order of their keys, which are not negative, with arguments in range. -/
structure AreChildren (cs : List (Int × Child)) : Prop where
  sorted : KeyMap.Sorted cs
  keys : ∀ p ∈ cs, 0 ≤ p.1 ∧ IsInt32 p.1
  valid : ∀ p ∈ cs, p.2.Valid

section

variable {e : Endian}

/-- A double child can have any five bytes behind its value. -/
theorem exists_made {c : Child} (hc : c.Valid) (n : UInt8) : ∃ o, Made e o c ∧
    ∀ x, c = .double x → o.block = bytesOf e 8 x.toNat ++ leftover n := by
  have hkey : IsInt32 0 := by decide
  let junk : Nat → UInt8 := fun i => ([0, 0, 0, 0, 0, 0, 0, 0, 1, 0, 0, 0, n] : Bytes).getD i 0
  have hbuild : ∃ o, c.build e (Dson.clearHeader e) junk 0 = some o ∧
      ∀ x, c = .double x → o.block = bytesOf e 8 x.toNat ++ leftover n := by
    cases c with
    | int32 v =>
        obtain ⟨o, hrun, -⟩ := holds_ofInt32 (e := e) (Dson.clearHeader e) junk hc
        exact ⟨o, hrun, fun x hx => by cases hx⟩
    | uint32 v =>
        obtain ⟨o, hrun, -⟩ := holds_ofUInt32 (e := e) (Dson.clearHeader e) junk hc
        exact ⟨o, hrun, fun x hx => by cases hx⟩
    | double x =>
        have hrun : DsonObj.ofDouble e (Dson.clearHeader e) junk x = some (.dson
            (builtDson e (Dson.clearHeader e) TypesMap.double (bytesOf e 8 x.toNat ++ leftover n)) []) := by
          cases e <;> rfl
        refine ⟨_, hrun, fun x' hx => ?_⟩
        cases hx
        rfl
    | string s =>
        obtain ⟨o, hrun, -⟩ := holds_ofString (e := e) (Dson.clearHeader e) junk hc.1 hc.2
        exact ⟨o, hrun, fun x hx => by cases hx⟩
    | stringObj s => exact ⟨_, rfl, fun x hx => by cases hx⟩
    | routeObj a b c d => exact ⟨_, rfl, fun x hx => by cases hx⟩
  obtain ⟨o, hrun, hblock⟩ := hbuild
  exact ⟨o, .build hc hkey hrun, hblock⟩

theorem DsonObj.block_setKey {o o' : DsonObj} {t : Tree} {k key : Int} {m m' : Mem} (ho : Holds e o k t)
    (hrun : o.setKey e m key = some (o', m')) : o'.block = o.block := by
  cases o with
  | string s =>
      cases hrun
      rfl
  | route r =>
      cases hrun
      rfl
  | dson d children =>
      have hlocal : d.headerIsLocal = true := by
        cases t with
        | leaf v =>
            rw [Holds] at ho
            obtain ⟨-, -, block, hown, -⟩ := ho
            simp [Dson.headerIsLocal, hown.alloc]
        | node ts =>
            rw [Holds] at ho
            exact ho.2.1.headerIsLocal
      rw [DsonObj.setKey, Dson.setKey_local hlocal] at hrun
      cases hrun
      rfl

/-- Any children can be put into a container, with the same bytes behind every double. -/
theorem exists_filled {cs : List (Int × Child)} (hcs : AreChildren cs) (n : UInt8) : ∃ d children,
    Filled e (.dson d children) cs ∧
      AllMade e (fun o c => ∀ x, c = .double x → o.block = bytesOf e 8 x.toNat ++ leftover n) children cs := by
  induction cs using List.reverseRecOn with
  | nil => exact ⟨_, _, .empty, .nil⟩
  | append_singleton cs p ih =>
      obtain ⟨key, c⟩ := p
      obtain ⟨hsorted, hkeys, hvalid⟩ := hcs
      have hpair := List.pairwise_append.mp (show (KeyMap.keys cs ++ [key]).Pairwise (· < ·) by
        rw [KeyMap.Sorted, KeyMap.keys, List.map_append] at hsorted
        exact hsorted)
      obtain ⟨d, children, hfilled, hall⟩ := ih ⟨hpair.1, fun p hp => hkeys p (List.mem_append_left _ hp),
        fun p hp => hvalid p (List.mem_append_left _ hp)⟩
      obtain ⟨hpos, hint⟩ := hkeys (key, c) (by simp)
      obtain ⟨obj, hobj, hblock⟩ := exists_made (e := e) (hvalid (key, c) (by simp)) n
      obtain ⟨k₀, hbuilt⟩ := hobj.built
      obtain ⟨obj', d', hset, hrun⟩ := hfilled.built.holds.emplace_eq hbuilt.holds hint ⟨[], []⟩
      have happend : KeyMap.insertOrAssign key c cs = cs ++ [(key, c)] :=
        KeyMap.insertOrAssign_append fun k hk => hpair.2.2 k hk key (by simp)
      rw [← happend]
      refine ⟨d', _, .emplace hfilled hobj hint hpos hrun, KeyMap.forall₂_insertOrAssign
        (R := fun _ v w => Made e v w ∧ ∀ x, w = .double x → v.block = bytesOf e 8 x.toNat ++ leftover n) hall key
        ⟨.setKey hobj hint hset, fun x hx => ?_⟩⟩
      rw [DsonObj.block_setKey hbuilt.holds hset, hblock x hx]

/-! ### The encoding of a container -/

theorem wires_sent {Q : DsonObj → Child → Prop} {children : ObjMap} {cs : List (Int × Child)}
    (hmade : AllMade e Q children cs) (hall : HoldsAll e children (forest cs)) :
    ∃ recs, DsonObj.wires e true children = recordsBytes recs ∧
      List.Forall₂ (fun r q => ∃ o, Q o q.2 ∧ q.2.Sent e q.1 o r) recs cs := by
  induction hmade with
  | nil => exact ⟨[], rfl, .nil⟩
  | @cons p q children cs hpq hrest ih =>
      obtain ⟨k, o⟩ := p
      obtain ⟨k', c⟩ := q
      rw [forest, List.map_cons, HoldsAll] at hall
      obtain ⟨rfl, ho, htail⟩ := hall
      obtain ⟨-, hmade, hq⟩ := hpq
      obtain ⟨recs, hwires, hsent⟩ := ih htail
      obtain ⟨r, hwire, hr⟩ := hmade.sent ho
      exact ⟨r :: recs, by rw [DsonObj.wires, hwire, hwires, recordsBytes_cons], .cons ⟨o, hq, hr⟩ hsent⟩

/-- The message in network order: a header under the network mark, and the records of the children. -/
structure IsWire (e : Endian) (cs : List (Int × Child)) (Q : DsonObj → Child → Prop) (h : Header)
    (recs : List Record) : Prop where
  mark : h.isNetworkOrder e
  size : h.dataSizeOf e = (recordsBytes recs).length
  length : (recordsBytes recs).length = Forest.size (forest cs)
  type : h.dataTypeOf e = if (forest cs).isEmpty then TypesMap.empty else TypesMap.dsonContainer
  sent : List.Forall₂ (fun r q => ∃ o, Q o q.2 ∧ q.2.Sent e q.1 o r) recs cs

theorem Holds.isWire {d : Dson} {children : ObjMap} {k : Int} {cs : List (Int × Child)} {Q : DsonObj → Child → Prop}
    (ho : Holds e (.dson d children) k (.node (forest cs))) (hmade : AllMade e Q children cs)
    (hlt : Forest.size (forest cs) < 2 ^ 31) : ∃ h recs,
      (DsonObj.dson d children).wire e true = h.bytes ++ recordsBytes recs ∧ IsWire e cs Q h recs := by
  rw [Holds] at ho
  obtain ⟨-, hnode, -, hall⟩ := ho
  obtain ⟨recs, hwires, hsent⟩ := wires_sent hmade hall
  have hlen := hall.wires_length true
  rw [hwires] at hlen
  obtain ⟨hsize, -, htype⟩ := hnode.header (recordsBytes recs).length (by simp only [IsInt32]; omega) true
  refine ⟨_, recs, ?_, ?_, hsize, hlen, htype, hsent⟩
  · simp only [DsonObj.wire, hnode.kind, hwires]
  · have hv : (d.headerBuf.setDataSize e (recordsBytes recs).length).ValidMark e :=
      (Header.validMark_congr rfl).mp hnode.mark
    rw [Header.isNetworkOrder_iff, Header.toOrder_mark hv true]
    rfl

end

/-! ### Emission and arrival -/

/-- The bytes of a complete emission in network order. -/
inductive Emitted (e : Endian) (o : DsonObj) : Bytes → Prop
  | stream {o' : DsonObj} {m m' : Mem} {bs : Bytes} (hrun : o.copyToStream e true m = some (o', m', bs)) : Emitted e o bs
  | fd {calls : List (List Nat)} {m : Mem} {p : DsonObj × Mem} {bs : Bytes}
      (hrun : o.copyRun e true m (shortWrites calls) = some (.ready, p, bs)) : Emitted e o bs
  | buf {rooms : List Nat} {m : Mem} {p : DsonObj × Mem} {bs : Bytes}
      (hrun : o.copyRun e true m (windows rooms) = some (.ready, p, bs)) : Emitted e o bs

/-- No loader refuses the bytes: the stream loader is ready, and no call of the other two is an error. -/
structure Accepted (e : Endian) (bs : Bytes) : Prop where
  stream : ∀ junk d children m, Dson.Idle d → ∃ o,
    DsonObj.loadFromStream e junk bs (.dson d children) m = some (o, m, []) ∧ o.state = .ready
  fd : ∀ junk d children m, Dson.Idle d → ∀ n answers, none ∉ answers → ∃ r o fd,
    DsonObj.loadFdRun e junk n (.dson d children) m ⟨answers, bs⟩ = some (r, o, m, fd) ∧ r ≠ .error
  buf : ∀ junk d children m, Dson.Idle d → ∀ windows, windows.flatten = bs → ∃ r o,
    DsonObj.loadBufRun e junk windows (.dson d children) m = some (r, o, m) ∧ r ≠ .error

/-- The object has exactly the children: every lookup gives a child with its key, type and size, and the
extractors give its value. -/
structure Received (e : Endian) (cs : List (Int × Child)) (o : DsonObj) : Prop where
  gets : ∀ key m, (lookPath e [key] o m).map Prod.fst =
    some ((KeyMap.find key cs).map fun c => (key, c.value.type, (c.value.size : Int)))
  answers : ∀ looks m, ∃ o', lookAll e looks o m = some (looks.map fun p => (forest cs).answer p.1 p.2, o', m)

/-- However the children are put into a container on one host and the container is emitted in network
order, every loader on the other host takes it and finds the children. -/
def Portable (e₁ e₂ : Endian) (cs : List (Int × Child)) : Prop :=
  ∀ o, Filled e₁ o cs → (∃ bs, Emitted e₁ o bs) ∧
    ∀ bs, Emitted e₁ o bs → Accepted e₂ bs ∧ (∃ o', Arrives e₂ o' bs) ∧ ∀ o', Arrives e₂ o' bs → Received e₂ cs o'

/-- The children that stay what they are between hosts of different endianness. From a little-endian
host, all but strings in a `Dson`, and of the doubles one; from a big-endian host all but the doubles. -/
def Child.Portable (e₁ e₂ : Endian) : Child → Prop
  | string _ => e₁ = .little → e₂ = .little
  | double x => e₁ = e₂ ∨ (e₁ = .little ∧ x = Binary64.fixed)
  | _ => True

section

variable {e e₁ e₂ : Endian}

theorem Holds.emitted {o : DsonObj} {k : Int} {t : Tree} (h : Holds e o k t) (hlt : t.size < 2 ^ 31) {bs : Bytes} :
    Emitted e o bs ↔ bs = o.wire e true := by
  constructor
  · rintro (hrun | hrun | hrun)
    · rename_i o' m m'
      obtain ⟨o'', hrun', -⟩ := h.copyToStream true m
      cases hrun'.symm.trans hrun
      rfl
    · rename_i calls m p
      obtain ⟨r, o'', bs', hrun', hcases⟩ := Emittable.copyRun h.emittable hlt true m (shortWrites_willing calls)
      cases hrun'.symm.trans hrun
      rcases hcases with ⟨-, -, hbs⟩ | ⟨hr, -⟩
      · rw [← hbs, h.pending]
      · cases hr
    · rename_i rooms m p
      obtain ⟨r, o'', bs', hrun', hcases⟩ := Emittable.copyRun h.emittable hlt true m (windows_willing rooms)
      cases hrun'.symm.trans hrun
      rcases hcases with ⟨-, -, hbs⟩ | ⟨hr, -⟩
      · rw [← hbs, h.pending]
      · cases hr
  · rintro rfl
    obtain ⟨o', hrun, -⟩ := h.copyToStream true ⟨[], []⟩
    exact .stream hrun

theorem IsMessage.accepted {h : Header} {body : Bytes} (hm : IsMessage e h body) : Accepted e (h.bytes ++ body) where
  stream junk d children m hd := by
    obtain ⟨d', hrun, htook⟩ := hd.loadFromStream hm junk [] children m
    rw [List.append_nil] at hrun
    refine ⟨_, hrun, ?_⟩
    obtain ⟨-, -, -, ⟨-, hd'⟩ | ⟨-, hstate, -⟩⟩ := htook
    · exact hd'.state
    · exact hstate
  fd junk d children m hd n answers hanswers := by
    have hsplit : (⟨answers, h.bytes ++ body⟩ : FdIn).input = h.bytes ++ (body ++ []) := by rw [List.append_nil]
    obtain ⟨r, d', children', fd', hrun, hcases⟩ := Dson.Loads.loadFdRun (Or.inl ⟨rfl, hd⟩) hm junk n hanswers hsplit m
    refine ⟨r, _, fd', hrun, ?_⟩
    rcases hcases with ⟨rfl, -⟩ | ⟨rfl, -⟩ <;> simp
  buf junk d children m hd windows hflat := by
    have hsplit : windows.flatten = h.bytes ++ (body ++ []) := by rw [hflat, List.append_nil]
    obtain ⟨r, d', children', hrun, hcases⟩ := Dson.Loads.loadBufRun (Or.inl ⟨rfl, hd⟩) hm junk hsplit m
    refine ⟨r, _, hrun, ?_⟩
    rcases hcases with ⟨rfl, -⟩ | ⟨rfl, -⟩ <;> simp

/-- A message above the limit is refused. -/
theorem not_accepted {h : Header} {body : Bytes} (hsize : h.dataSizeOf e = body.length) (hlimit : 2 ^ 30 < body.length) :
    ¬Accepted e (h.bytes ++ body) := by
  intro hacc
  have hidle : (Dson.uninit (Dson.clearHeader e)).Idle := ⟨by simp [Dson.uninit], by simp [Dson.uninit], Or.inr rfl⟩
  obtain ⟨r, o, hrun, hr⟩ := hacc.buf (fun _ => 0) _ [] ⟨[], []⟩ hidle [h.bytes ++ body] (by simp)
  have hloads : (Dson.uninit (Dson.clearHeader e)).Loads e [] [] := Or.inl ⟨rfl, hidle⟩
  obtain ⟨r', d', k, hcall, -, hstands, hall⟩ := hloads.loadFromBuf (fun _ => 0) (h.bytes ++ body) ⟨[], []⟩
  rw [List.nil_append] at hstands
  -- whatever header the object has taken is the one at the start of the bytes
  have hheader : ∀ {h' : Header} {rest : Bytes}, (h.bytes ++ body).take k = h'.bytes ++ rest → h' = h := by
    intro h' rest htake
    have hbytes := List.take_append_drop k (h.bytes ++ body)
    rw [htake, List.append_assoc] at hbytes
    exact (Header.eq_of_append hbytes).1
  rcases hstands with ⟨rfl, hawaits⟩ | ⟨-, h', body', hgot, hh, hsize', hle, -⟩ | ⟨rfl, -⟩
  · rw [hall rfl, List.take_length] at hawaits
    rcases hawaits with hhead | ⟨body', hgot, hdata⟩
    · have hshort := hhead.short
      rw [List.length_append, Header.bytes_length, headerSize] at hshort
      omega
    · have hlim := hdata.limit
      rw [← hdata.size, ← (Header.eq_of_append hgot).1, hsize, maxDsonRamSize] at hlim
      omega
  · rw [hheader hgot, hsize] at hsize'
    omega
  · rw [DsonObj.loadBufRun, hcall] at hrun
    cases hrun
    exact hr rfl

theorem summary_parsed {d : Dson} {recs : List Record} {ts : Forest} (hd : d.Parsed recs) (hs : KeyMap.Sorted ts)
    (hc : Carries e recs ts) (key : Int) (m : Mem) :
    (KeyMap.find key ts = none ∧ (lookPath e [key] (.dson d (views e 0 recs [])) m).map Prod.fst = some none) ∨
      ∃ v, KeyMap.find key ts = some (.leaf v) ∧ (lookPath e [key] (.dson d (views e 0 recs [])) m).map Prod.fst =
        some (some (key, v.type, (v.size : Int))) := by
  cases hfind : KeyMap.find key ts with
  | none =>
      have hne : ∀ r ∈ recs, r.key e ≠ key := by
        intro r hr hk
        exact KeyMap.find_eq_none.mp hfind ((hc.mem_keys key).mpr ⟨r, hr, hk⟩)
      exact Or.inl ⟨rfl, lookPath_null (hd.get_none hne m) []⟩
  | some t =>
      obtain ⟨v, before, r, after, rfl, -, hlast, hl, -⟩ := hc.last hs hfind
      obtain ⟨h', b', hconv, hl', -⟩ := hl.convert false
      have hget := hd.get_last hlast m
      rw [(convertRecord_local hconv).2] at hget
      have hblock : ({ m with owner := recordsBytes before ++ (h'.bytes ++ (b' ++ recordsBytes after)) } : Mem).owner =
          recordsBytes before ++ (h'.bytes ++ (b' ++ recordsBytes after)) := rfl
      have hview := r.view_isView e (recordsBytes before).length
      have hsummary : DsonObj.summary e (.dson (r.view e (recordsBytes before).length) [])
          { m with owner := recordsBytes before ++ (h'.bytes ++ (b' ++ recordsBytes after)) } =
          some (key, v.type, (v.size : Int)) := by
        rw [summary_dson (hview.header hblock) hview.state hview.kind, hl'.key, hl'.type, hl'.size, hl'.length_eq]
      refine Or.inr ⟨v, rfl, ?_⟩
      rw [lookPath, hget]
      simp only [Option.map_some, Option.bind_eq_bind, Option.bind_some, DsonObj.onChild, find_views_last hlast,
        lookPath, Dson.inner, hsummary, Dson.outer]
      rfl

/-- What a lookup finds in a received container. -/
theorem Shows.summary {o : DsonObj} {k : Int} {ts : Forest} (h : Shows e o k ts) (key : Int) (m : Mem) :
    (KeyMap.find key ts = none ∧ (lookPath e [key] o m).map Prod.fst = some none) ∨
      ∃ v, KeyMap.find key ts = some (.leaf v) ∧
        (lookPath e [key] o m).map Prod.fst = some (some (key, v.type, (v.size : Int))) := by
  cases h with
  | nothing hstate hkind hbuf => exact Or.inl ⟨rfl, lookPath_null (get_nothing hstate hkind key m) []⟩
  | block hd htype hlen hs hkeys hc =>
      obtain ⟨hparsed, hget⟩ := get_block hd htype hlen (hc.fits hkeys)
      rw [lookPath, hget key m]
      exact summary_parsed hparsed hs hc key m
  | parsed hd hs hc => exact summary_parsed hd hs hc key m

/-- A container that shows the children has been received. -/
theorem Shows.received {o : DsonObj} {k : Int} {cs : List (Int × Child)} (h : Shows e o k (forest cs)) :
    Received e cs o where
  gets key m := by
    have hfind : KeyMap.find key (forest cs) = (KeyMap.find key cs).map fun c => Tree.leaf c.value :=
      KeyMap.find_map (fun c : Child => Tree.leaf c.value) key cs
    rcases h.summary key m with ⟨hnone, hrun⟩ | ⟨v, hsome, hrun⟩
    · rw [hfind] at hnone
      rw [hrun, Option.map_eq_none_iff.mp hnone]
      rfl
    · rw [hfind] at hsome
      obtain ⟨c, hc, heq⟩ := Option.map_eq_some_iff.mp hsome
      cases heq
      rw [hrun, hc]
      rfl
  answers looks m := by
    obtain ⟨o', hrun, -⟩ := h.lookAll looks m
    exact ⟨o', hrun⟩

/-! ### Records that arrive -/

/-- A record that has been sent is a record on the other host, of the value unless it is a double. -/
theorem Child.Sent.received {k : Int} {c : Child} {o : DsonObj} {r : Record} (h : c.Sent e₁ k o r)
    (hstring : ∀ s, c = .string s → e₁ = .little → e₂ = .little) :
    ∃ v : Value, v.Plain ∧ LeafRecord e₂ k v r.header r.payload ∧ ((∀ x, c ≠ .double x) → v = c.value) ∧
      ∀ x, c = .double x → ∃ y, v = .double y.canon ∧ doubleValue e₂ r.header r.payload = some y := by
  by_cases hsame : (∃ s, c = .string s) ∧ e₁ = .little
  · obtain ⟨⟨s, rfl⟩, rfl⟩ := hsame
    obtain rfl := hstring s rfl rfl
    exact ⟨_, Child.value_plain _, h.leaf, fun _ => rfl, fun x hx => by cases hx⟩
  have hmark : r.header.isNetworkOrder e₁ := by
    apply h.network
    intro s hs
    cases e₁ with
    | little => exact absurd ⟨⟨s, hs⟩, rfl⟩ hsame
    | big => rfl
  by_cases hdouble : ∃ x, c = .double x
  · obtain ⟨x, rfl⟩ := hdouble
    have hlen : r.payload.length = 13 := h.leaf.length_eq.symm
    obtain ⟨y, hy⟩ : ∃ y, doubleValue e₂ r.header r.payload = some y := by
      rw [doubleValue]
      split_ifs
      · exact ⟨_, readDouble_of_length e₂ (by omega)⟩
      · exact networkDouble_of_length (by omega)
    exact ⟨.double y.canon, trivial, h.leaf.across_double hmark e₂ hy, fun hne => absurd rfl (hne x), fun x' hx => ⟨y, rfl, hy⟩⟩
  · refine ⟨c.value, c.value_plain, h.leaf.across hmark e₂ ?_, fun _ => rfl, fun x hx => absurd ⟨x, hx⟩ hdouble⟩
    cases c with
    | double x => exact absurd ⟨x, rfl⟩ hdouble
    | _ => simp [Child.value, Value.type]

/-- What arrives of one child. -/
def Child.Arriving (e₁ e₂ : Endian) (Q : DsonObj → Child → Prop) (k : Int) (t : Tree) (c : Child) : Prop :=
  ∃ v o r, t = .leaf v ∧ Q o c ∧ c.Sent e₁ k o r ∧ ((∀ x, c ≠ .double x) → v = c.value) ∧
    ∀ x, c = .double x → ∃ y, v = .double y.canon ∧ doubleValue e₂ r.header r.payload = some y

theorem exists_arriving {Q : DsonObj → Child → Prop} {recs : List Record} {cs : List (Int × Child)}
    (hsent : List.Forall₂ (fun r q => ∃ o, Q o q.2 ∧ q.2.Sent e₁ q.1 o r) recs cs)
    (hstring : ∀ q ∈ cs, ∀ s, q.2 = .string s → e₁ = .little → e₂ = .little) :
    ∃ ts : Forest, Carries e₂ recs ts ∧
      List.Forall₂ (fun p q => p.1 = q.1 ∧ Child.Arriving e₁ e₂ Q p.1 p.2 q.2) ts cs := by
  induction hsent with
  | nil => exact ⟨[], .nil, .nil⟩
  | @cons r q recs cs hrq hrest ih =>
      obtain ⟨o, hq, hsent⟩ := hrq
      obtain ⟨ts, hc, hall⟩ := ih fun q hq => hstring q (List.mem_cons_of_mem _ hq)
      obtain ⟨v, hplain, hl, hsame, hdouble⟩ := hsent.received (hstring q List.mem_cons_self)
      exact ⟨(q.1, .leaf v) :: ts, .cons ⟨v, rfl, hplain, hl⟩ hc, .cons ⟨rfl, v, o, r, rfl, hq, hsent, hsame, hdouble⟩ hall⟩

/-- Unless a string is in the way, the receiver shows what arrives of the children. -/
theorem IsWire.shows {Q : DsonObj → Child → Prop} {cs : List (Int × Child)} {h : Header} {recs : List Record}
    (hw : IsWire e₁ cs Q h recs) (hcs : AreChildren cs) (hle : Forest.size (forest cs) ≤ 2 ^ 30)
    (hstring : ∀ q ∈ cs, ∀ s, q.2 = .string s → e₁ = .little → e₂ = .little) {o : DsonObj}
    (ho : Arrives e₂ o (h.bytes ++ recordsBytes recs)) : ∃ ts, Shows e₂ o (h.keyOf e₂) ts ∧
      List.Forall₂ (fun p q => p.1 = q.1 ∧ Child.Arriving e₁ e₂ Q p.1 p.2 q.2) ts cs := by
  obtain ⟨ts, hc, hall⟩ := exists_arriving hw.sent hstring
  have hkeys : KeyMap.keys ts = KeyMap.keys cs := KeyMap.keys_forall₂ hall
  have hempty : ts.isEmpty = (forest cs).isEmpty := by
    cases hall <;> rfl
  have hm : IsMessage e₂ h (recordsBytes recs) :=
    ⟨(Header.field_across hw.mark e₂ _).trans hw.size, by rw [hw.length]; exact hle⟩
  obtain ⟨d, rfl, htook⟩ := ho.took hm
  refine ⟨ts, htook.shows hc ?_ ?_ ?_, hall⟩
  · rw [KeyMap.Sorted, hkeys]
    exact hcs.sorted
  · intro key hkey
    rw [hkeys] at hkey
    obtain ⟨p, hp, rfl⟩ := List.mem_map.mp hkey
    exact (hcs.keys p hp).1
  · rw [hempty]
    exact (Header.field_across hw.mark e₂ _).trans hw.type

/-- What a big-endian host reads of a double from a little-endian one, and the reverse. -/
theorem Child.Sent.double_crossed {k : Int} {x y : Binary64} {o : DsonObj} {r : Record}
    (h : (Child.double x).Sent .little k o r) (hfin : x.isFinite)
    (hy : doubleValue .big r.header r.payload = some y) : y = x.crossed := by
  obtain ⟨tail, hblock, hpayload⟩ := h.double x rfl
  have hmark : r.header.isHostOrder .big :=
    Header.isNetworkOrder_across (h.network fun s hs => by cases hs) .big
  have hread : readDouble .little o.block = some x := by
    rw [hblock, readDouble_of_length .little (by simp), List.take_left' (bytesOf_length _ _ _),
      natOf_bytesOf _ 8 _ (x.toNat_lt.trans_eq (by norm_num)), Binary64.ofNat_toNat]
  rw [doubleValue, if_pos hmark, readDouble_encoded hread hfin hpayload] at hy
  exact (Option.some.inj hy).symm

theorem Child.Sent.double_raw {k : Int} {x y : Binary64} {o : DsonObj} {r : Record}
    (h : (Child.double x).Sent .big k o r) (hy : doubleValue .little r.header r.payload = some y) :
    networkDouble o.block = some y := by
  obtain ⟨tail, hblock, hpayload⟩ := h.double x rfl
  have hnot : ¬r.header.isHostOrder .little := by
    have hmark : r.header.isNetworkOrder .little :=
      Header.isNetworkOrder_across (h.network fun s hs => by cases hs) .little
    intro hhost
    rw [Header.isNetworkOrder_iff] at hmark
    rw [Header.isHostOrder_iff, hmark] at hhost
    exact Header.marks_little hhost
  rw [doubleValue, if_neg hnot] at hy
  rwa [← hpayload]

theorem Child.Sent.double_same {k : Int} {x y : Binary64} {o : DsonObj} {r : Record}
    (h : (Child.double x).Sent e k o r) (hy : doubleValue e r.header r.payload = some y) : y.canon = x.canon := by
  have hlen : r.payload.length = 13 := h.leaf.length_eq.symm
  have hvalue := h.leaf.value
  rw [payloadValue_double h.leaf.type (by omega) hy] at hvalue
  exact Value.double.inj (Prod.mk.inj (Option.some.inj hvalue)).1

/-- Of portable children exactly the values arrive. -/
theorem arriving_portable {Q : DsonObj → Child → Prop} {ts : Forest} {cs : List (Int × Child)}
    (hall : List.Forall₂ (fun p q => p.1 = q.1 ∧ Child.Arriving e₁ e₂ Q p.1 p.2 q.2) ts cs)
    (hvalid : ∀ q ∈ cs, q.2.Valid) (hport : ∀ q ∈ cs, q.2.Portable e₁ e₂) : ts = forest cs := by
  induction hall with
  | nil => rfl
  | @cons p q ts cs hpq hrest ih =>
      obtain ⟨k, t⟩ := p
      obtain ⟨k', c⟩ := q
      obtain ⟨rfl, v, o, r, rfl, -, hsent, hsame, hdouble⟩ := hpq
      have htail := ih (fun q hq => hvalid q (List.mem_cons_of_mem _ hq)) fun q hq => hport q (List.mem_cons_of_mem _ hq)
      have hhead : v = c.value := by
        by_cases hx : ∃ x, c = .double x
        · obtain ⟨x, rfl⟩ := hx
          obtain ⟨y, rfl, hy⟩ := hdouble x rfl
          have hfin : x.isFinite := hvalid (k, .double x) List.mem_cons_self
          rcases hport (k, .double x) List.mem_cons_self with rfl | ⟨rfl, hfixed⟩
          · rw [Child.value, hsent.double_same hy]
          · cases e₂ with
            | little => rw [Child.value, hsent.double_same hy]
            | big => rw [Child.value, hsent.double_crossed hfin hy, (Binary64.crossed_canon hfin).mpr hfixed]
        · exact hsame fun x hc => hx ⟨x, hc⟩
      rw [htail, hhead]
      rfl

/-! ### Strings from a little-endian host -/

/-- In front of the first string a big-endian host reads records. -/
theorem exists_first_string {Q : DsonObj → Child → Prop} {recs : List Record} {cs : List (Int × Child)}
    (hsent : List.Forall₂ (fun r q => ∃ o, Q o q.2 ∧ q.2.Sent .little q.1 o r) recs cs)
    (hkeys : ∀ q ∈ cs, 0 ≤ q.1) {k : Int} {s : Bytes} (hmem : (k, Child.string s) ∈ cs) :
    ∃ before r after, recs = before ++ r :: after ∧ (∀ r ∈ before, Record.Fits .big r) ∧
      r.header.dataType = Cell.ofInt .little TypesMap.string := by
  induction hsent with
  | nil => cases hmem
  | @cons r q recs cs hrq hrest ih =>
      obtain ⟨o, -, hsent⟩ := hrq
      by_cases hstring : ∃ s, q.2 = .string s
      · obtain ⟨s', hs'⟩ := hstring
        refine ⟨[], r, recs, rfl, by simp, ?_⟩
        have htype := hsent.leaf.type
        rw [hs', Header.dataTypeOf, Header.field, if_pos (hsent.host s' hs')] at htype
        rw [← Cell.ofInt_int32 .little r.header.dataType, htype]
        rfl
      · have htail : (k, Child.string s) ∈ cs := by
          rcases List.mem_cons.mp hmem with heq | htail
          · exact absurd ⟨s, by rw [← heq]⟩ hstring
          · exact htail
        obtain ⟨before, r', after, hsplit, hfits, htype⟩ := ih (fun q hq => hkeys q (List.mem_cons_of_mem _ hq)) htail
        have hnever : ∀ s, q.2 = .string s → Endian.little = .little → Endian.big = .little :=
          fun s hs => absurd ⟨s, hs⟩ hstring
        obtain ⟨v, -, hl, -⟩ := hsent.received hnever
        refine ⟨r :: before, r', after, by rw [hsplit, List.cons_append], fun r'' hr => ?_, htype⟩
        rcases List.mem_cons.mp hr with rfl | hr
        · exact ⟨by rw [Record.key, hl.key]; exact hkeys q List.mem_cons_self, hl.size⟩
        · exact hfits r'' hr

/-- The records behind a first part of a block start with the header that follows it. -/
theorem mem_of_recordsBytes {before recs : List Record} {h : Header} {rest : Bytes}
    (hbefore : ∀ r ∈ before, Record.Fits e r) (hrecs : ∀ r ∈ recs, Record.Fits e r)
    (hbytes : recordsBytes recs = recordsBytes before ++ (h.bytes ++ rest)) : ∃ r ∈ recs, r.header = h := by
  induction before generalizing recs with
  | nil =>
      cases recs with
      | nil =>
          have hlen := congrArg List.length hbytes
          rw [recordsBytes_nil, List.nil_append, List.length_append, Header.bytes_length, List.length_nil] at hlen
          omega
      | cons r recs =>
          rw [recordsBytes_cons, recordsBytes_nil, List.nil_append, Record.bytes, List.append_assoc] at hbytes
          exact ⟨r, List.mem_cons_self, (Header.eq_of_append hbytes).1⟩
  | cons r₀ before ih =>
      cases recs with
      | nil =>
          have hlen := congrArg List.length hbytes
          simp [headerSize] at hlen
          omega
      | cons r recs =>
          rw [recordsBytes_cons, recordsBytes_cons, Record.bytes, Record.bytes, List.append_assoc, List.append_assoc,
            List.append_assoc] at hbytes
          obtain ⟨hheader, htail⟩ := Header.eq_of_append hbytes
          have hsize := (hbefore r₀ List.mem_cons_self).2
          rw [← hheader, (hrecs r List.mem_cons_self).2] at hsize
          have hlen : r.payload.length = r₀.payload.length := by exact_mod_cast hsize
          obtain ⟨r', hr', heq⟩ := ih (fun r hr => hbefore r (List.mem_cons_of_mem _ hr))
            (fun r hr => hrecs r (List.mem_cons_of_mem _ hr)) (List.append_inj htail hlen).2
          exact ⟨r', List.mem_cons_of_mem _ hr', heq⟩

/-- What a lookup in a block finds on a big-endian host is one of its records. -/
theorem mem_of_summary {d : Dson} {body : Bytes} (hd : d.Loaded body)
    (ht : d.headerBuf.dataTypeOf .big = TypesMap.dsonContainer) (hlen : body.length ≤ 2 ^ 30) {key : Int} {s : Summary}
    {m : Mem} (hrun : (lookPath .big [key] (.dson d []) m).map Prod.fst = some (some s)) :
    ∃ recs, (∀ r ∈ recs, Record.Fits .big r) ∧ recordsBytes recs = body ∧ ∃ r ∈ recs,
      (r.header.keyOf .big, r.header.dataTypeOf .big, r.header.dataSizeOf .big) = s := by
  rcases Dson.parseBuf_spec (m := m) hd.buf hd.alloc hd.size (by simp [hd.state]) ht hlen [] with
    ⟨recs, hfits, hbytes, hparse⟩ | ⟨-, map', hparse⟩
  · refine ⟨recs, hfits, hbytes, ?_⟩
    have hget := get_parse hd.kind hparse key
    rw [if_pos (by exact hd.state)] at hget
    have hparsed : Dson.Parsed { d with dsonKind := .dsonContainer } recs :=
      ⟨hd.state, rfl, hd.alloc, by rw [hbytes]; exact hd.buf, by rw [hbytes]; exact hd.size⟩
    by_cases hkey : ∃ r ∈ recs, r.key .big = key
    · obtain ⟨before, r, after, hlast⟩ := exists_isLast hkey
      have hmem : r ∈ recs := by
        rw [hlast.1]
        simp
      rw [hparsed.get_last hlast] at hget
      rw [lookPath, hget] at hrun
      cases hconv : convertRecord .big false r.header (r.payload ++ recordsBytes after) with
      | none =>
          rw [hconv] at hrun
          cases hrun
      | some p =>
          obtain ⟨h', b'⟩ := p
          obtain rfl := convertRecord_big hconv
          have hblock : ({ m with owner := recordsBytes before ++ (r.header.bytes ++ b') } : Mem).owner =
              recordsBytes before ++ (r.header.bytes ++ b') := rfl
          have hview := r.view_isView .big (recordsBytes before).length
          have hsummary : DsonObj.summary .big (.dson (r.view .big (recordsBytes before).length) []) _ = _ :=
            summary_dson (hview.header hblock) hview.state hview.kind
          rw [hconv] at hrun
          simp only [Option.map_some, Option.bind_eq_bind, Option.bind_some, DsonObj.onChild, find_views_last hlast,
            lookPath, Dson.inner, hsummary, Dson.outer] at hrun
          exact ⟨r, hmem, Option.some.inj (Option.some.inj hrun)⟩
    · rw [hparsed.get_none fun r hr hk => hkey ⟨r, hr, hk⟩] at hget
      rw [lookPath_null hget []] at hrun
      cases hrun
  · have hget := get_parse hd.kind hparse key
    rw [if_neg (by simp)] at hget
    rw [lookPath_null hget []] at hrun
    cases hrun

/-- One record for each child: together they are as long as the children. -/
theorem exists_records {recs : List Record} {cs : List (Int × Child)} (hfits : ∀ r ∈ recs, Record.Fits e r)
    (h : ∀ q ∈ cs, ∃ r ∈ recs, (r.header.keyOf e, r.header.dataTypeOf e, r.header.dataSizeOf e) =
      (q.1, q.2.value.type, (q.2.value.size : Int))) :
    ∃ l, l ⊆ recs ∧ l.map (Record.key e) = KeyMap.keys cs ∧ (∀ r ∈ l, ∃ c : Child, r.header.dataTypeOf e = c.value.type) ∧
      (recordsBytes l).length = Forest.size (forest cs) := by
  induction cs with
  | nil => exact ⟨[], List.nil_subset _, rfl, by simp, rfl⟩
  | cons q cs ih =>
      obtain ⟨r, hr, heq⟩ := h q List.mem_cons_self
      obtain ⟨l, hsub, hkeys, htypes, hlen⟩ := ih fun q hq => h q (List.mem_cons_of_mem _ hq)
      simp only [Prod.mk.injEq] at heq
      obtain ⟨hkey, htype, hsize⟩ := heq
      have hpayload := (hfits r hr).2
      rw [hsize] at hpayload
      refine ⟨r :: l, List.cons_subset.mpr ⟨hr, hsub⟩, ?_, fun r' hr' => ?_, ?_⟩
      · rw [List.map_cons, hkeys, KeyMap.keys_cons]
        exact congrArg (· :: KeyMap.keys cs) hkey
      · rcases List.mem_cons.mp hr' with rfl | hr'
        · exact ⟨q.2, htype⟩
        · exact htypes r' hr'
      · rw [recordsBytes_cons, List.length_append, hlen, Record.bytes_length]
        show _ = (Tree.leaf q.2.value).size + Forest.size (forest cs)
        rw [Tree.size]
        omega

theorem nodup_length_le {l recs : List Record} (hnodup : l.Nodup) (hsub : l ⊆ recs) :
    (recordsBytes l).length ≤ (recordsBytes recs).length := by
  obtain ⟨l', hperm, hsublist⟩ := List.subperm_of_subset hnodup hsub
  have hlen : ∀ recs : List Record, (recordsBytes recs).length = (recs.map fun r => r.bytes.length).sum := by
    intro recs
    rw [recordsBytes, List.length_flatMap]
  rw [hlen, hlen, ← (hperm.map _).sum_eq]
  exact (hsublist.map _).sum_le_sum fun _ _ => Nat.zero_le _

/-- A big-endian host does not find the children of a container with a string from a little-endian one:
records for all of them would not leave room for the header of the string. -/
theorem not_received_string {Q : DsonObj → Child → Prop} {cs : List (Int × Child)} {h : Header} {recs : List Record}
    (hw : IsWire .little cs Q h recs) (hcs : AreChildren cs) (hle : Forest.size (forest cs) ≤ 2 ^ 30) {k : Int}
    {s : Bytes} (hmem : (k, Child.string s) ∈ cs) {o : DsonObj}
    (ho : Arrives .big o (h.bytes ++ recordsBytes recs)) : ¬Received .big cs o := by
  intro hrec
  have hm : IsMessage .big h (recordsBytes recs) :=
    ⟨(Header.field_across hw.mark .big _).trans hw.size, by rw [hw.length]; exact hle⟩
  obtain ⟨before, r₀, after, hsplit, hfits₀, htype₀⟩ := exists_first_string hw.sent (fun q hq => (hcs.keys q hq).1) hmem
  have hbody : recordsBytes recs = recordsBytes before ++ (r₀.header.bytes ++ (r₀.payload ++ recordsBytes after)) := by
    rw [hsplit, recordsBytes_append, recordsBytes_cons, Record.bytes, List.append_assoc]
  obtain ⟨d, rfl, rfl, -, -, hcases⟩ := ho.took hm
  rcases hcases with ⟨-, hd⟩ | ⟨hnil, -⟩
  · have hcontainer : d.headerBuf.dataTypeOf .big = TypesMap.dsonContainer := by
      have hne : (forest cs).isEmpty = false := by
        cases cs with
        | nil => cases hmem
        | cons q cs => rfl
      refine (Header.field_across hw.mark .big _).trans (hw.type.trans ?_)
      rw [hne]
      rfl
    have hlimit := hm.limit
    -- every child is found, as some record
    have hfound : ∀ q ∈ cs, ∃ recs', (∀ r ∈ recs', Record.Fits .big r) ∧ recordsBytes recs' = recordsBytes recs ∧
        ∃ r ∈ recs', (r.header.keyOf .big, r.header.dataTypeOf .big, r.header.dataSizeOf .big) =
          (q.1, q.2.value.type, (q.2.value.size : Int)) := by
      intro q hq
      have hget := hrec.gets q.1 ⟨[], []⟩
      rw [KeyMap.find_of_mem hcs.sorted hq] at hget
      exact mem_of_summary hd hcontainer hlimit hget
    obtain ⟨recs', hfits', hbytes', -⟩ := hfound _ hmem
    have hone : ∀ q ∈ cs, ∃ r ∈ recs', (r.header.keyOf .big, r.header.dataTypeOf .big, r.header.dataSizeOf .big) =
        (q.1, q.2.value.type, (q.2.value.size : Int)) := by
      intro q hq
      obtain ⟨recs'', hfits'', hbytes'', hr⟩ := hfound q hq
      rwa [recordsBytes_inj hfits'' hfits' (hbytes''.trans hbytes'.symm)] at hr
    obtain ⟨x, hx, hxheader⟩ := mem_of_recordsBytes hfits₀ hfits' (hbytes'.trans hbody)
    obtain ⟨l, hsub, hkeys, htypes, hlen⟩ := exists_records hfits' hone
    have hxtype : x.header.dataTypeOf .big = 33554432 := by
      have horder : r₀.header.order .big = .big := by rw [Header.order, ite_self]
      rw [hxheader, Header.dataTypeOf, Header.field_eq, htype₀, horder]
      decide
    have hnot : x ∉ l := by
      intro hxl
      obtain ⟨c, hc⟩ := htypes x hxl
      rw [hxtype] at hc
      cases c <;> simp [Child.value, Value.type] at hc
    have hnodup : (x :: l).Nodup := by
      refine List.nodup_cons.mpr ⟨hnot, List.Nodup.of_map (Record.key .big) ?_⟩
      rw [hkeys]
      exact hcs.sorted.imp ne_of_lt
    have hshort := nodup_length_le hnodup (List.cons_subset.mpr ⟨hx, hsub⟩)
    rw [recordsBytes_cons, List.length_append, hlen, hbytes', hw.length, Record.bytes_length, headerSize] at hshort
    omega
  · rw [hnil] at hbody
    have hlen := congrArg List.length hbody
    simp only [List.length_nil, List.length_append, Header.bytes_length] at hlen
    omega

/-- The value that arrives of a double is the one that was sent. -/
theorem received_double {Q : DsonObj → Child → Prop} {cs : List (Int × Child)} {h : Header} {recs : List Record}
    (hw : IsWire e₁ cs Q h recs) (hcs : AreChildren cs) (hle : Forest.size (forest cs) ≤ 2 ^ 30)
    (hstring : ∀ q ∈ cs, ∀ s, q.2 = .string s → e₁ = .little → e₂ = .little) {o : DsonObj}
    (ho : Arrives e₂ o (h.bytes ++ recordsBytes recs)) (hrec : Received e₂ cs o) {k : Int} {x : Binary64}
    (hmem : (k, Child.double x) ∈ cs) : ∃ obj r y, Q obj (.double x) ∧ (Child.double x).Sent e₁ k obj r ∧
      doubleValue e₂ r.header r.payload = some y ∧ y.canon = x.canon := by
  obtain ⟨ts, hshows, hall⟩ := hw.shows hcs hle hstring ho
  obtain ⟨t, hfind, v, obj, r, rfl, hq, hsent, -, hdouble⟩ := KeyMap.find_forall₂
    (R := Child.Arriving e₁ e₂ Q) hall (KeyMap.find_of_mem hcs.sorted hmem)
  obtain ⟨y, rfl, hy⟩ := hdouble x rfl
  refine ⟨obj, r, y, hq, hsent, hy, ?_⟩
  -- the receiver answers the double that it reads, and should answer the one that was sent
  obtain ⟨o₁, hrun₁, -⟩ := hshows.lookAll [(k, .double .quietNaN)] ⟨[], []⟩
  obtain ⟨o₂, hrun₂⟩ := hrec.answers [(k, .double .quietNaN)] ⟨[], []⟩
  have hsame := hrun₁.symm.trans hrun₂
  have hforest : KeyMap.find k (forest cs) = some (.leaf (.double x.canon)) := by
    rw [forest, KeyMap.find_map (fun c : Child => Tree.leaf c.value), KeyMap.find_of_mem hcs.sorted hmem]
    rfl
  simp only [List.map_cons, List.map_nil, Forest.answer, hfind, hforest, Value.type, Reading.type, if_true] at hsame
  have hanswer := (List.cons.inj (Prod.mk.inj (Option.some.inj hsame)).1).1
  exact Value.double.inj (Option.some.inj (Answer.value.inj hanswer))

end

/-- A container passes in network order from one host to another exactly when it is within the limit of
the loaders and, unless the hosts have the same endianness, has no string in a `Dson` from a little-endian
host and no double, the one apart that a big-endian host reads from its encoding. -/
theorem portable_iff {e₁ e₂ : Endian} {cs : List (Int × Child)} (hcs : AreChildren cs)
    (hlt : (Tree.node (forest cs)).size < 2 ^ 31) :
    Portable e₁ e₂ cs ↔ Forest.size (forest cs) ≤ 2 ^ 30 ∧ ∀ q ∈ cs, q.2.Portable e₁ e₂ := by
  have hlt' : Forest.size (forest cs) < 2 ^ 31 := by
    rw [Tree.size] at hlt
    omega
  constructor
  · intro hport
    -- what is emitted and loaded, with given bytes behind every double
    have hsend : ∀ n, ∃ h recs o, IsWire e₁ cs (fun o c => ∀ x, c = .double x → o.block = bytesOf e₁ 8 x.toNat ++
        leftover n) h recs ∧ Accepted e₂ (h.bytes ++ recordsBytes recs) ∧
        Arrives e₂ o (h.bytes ++ recordsBytes recs) ∧ Received e₂ cs o := by
      intro n
      obtain ⟨d, children, hfilled, hmade⟩ := exists_filled (e := e₁) hcs n
      have hholds := hfilled.built.holds
      obtain ⟨h, recs, hwire, hw⟩ := hholds.isWire hmade hlt'
      obtain ⟨-, hall⟩ := hport _ hfilled
      obtain ⟨hacc, ⟨o, ho⟩, hrec⟩ := hall _ ((hholds.emitted hlt).mpr rfl)
      rw [hwire] at hacc ho hrec
      exact ⟨h, recs, o, hw, hacc, ho, hrec o ho⟩
    have hle : Forest.size (forest cs) ≤ 2 ^ 30 := by
      obtain ⟨h, recs, o, hw, hacc, -⟩ := hsend 0
      by_contra hlarge
      refine not_accepted ((Header.field_across hw.mark e₂ _).trans hw.size) ?_ hacc
      rw [hw.length]
      omega
    have hstring : ∀ q ∈ cs, ∀ s, q.2 = .string s → e₁ = .little → e₂ = .little := by
      rintro ⟨k, c⟩ hq s rfl rfl
      cases e₂ with
      | little => rfl
      | big =>
          obtain ⟨h, recs, o, hw, -, ho, hrec⟩ := hsend 0
          exact absurd hrec (not_received_string hw hcs hle hq ho)
    refine ⟨hle, fun q hq => ?_⟩
    obtain ⟨k, c⟩ := q
    cases c with
    | string s => exact fun he => hstring _ hq s rfl he
    | double x =>
        have hfin : x.isFinite := hcs.valid _ hq
        obtain ⟨h₀, recs₀, o₀, hw₀, -, ho₀, hrec₀⟩ := hsend 0
        obtain ⟨obj₀, r₀, y₀, hblock₀, hsent₀, hy₀, hsame₀⟩ := received_double hw₀ hcs hle hstring ho₀ hrec₀ hq
        cases e₁ with
        | little =>
            cases e₂ with
            | little => exact Or.inl rfl
            | big =>
                rw [hsent₀.double_crossed hfin hy₀] at hsame₀
                exact Or.inr ⟨rfl, (Binary64.crossed_canon hfin).mp hsame₀⟩
        | big =>
            cases e₂ with
            | big => exact Or.inl rfl
            | little =>
                obtain ⟨h₁, recs₁, o₁, hw₁, -, ho₁, hrec₁⟩ := hsend 1
                obtain ⟨obj₁, r₁, y₁, hblock₁, hsent₁, hy₁, hsame₁⟩ := received_double hw₁ hcs hle hstring ho₁ hrec₁ hq
                have hraw₀ := hsent₀.double_raw hy₀
                have hraw₁ := hsent₁.double_raw hy₁
                rw [hblock₀ x rfl] at hraw₀
                rw [hblock₁ x rfl] at hraw₁
                exact absurd ⟨hsame₀, hsame₁⟩ (networkDouble_varies hfin hraw₀ hraw₁)
    | int32 v => trivial
    | uint32 v => trivial
    | stringObj s => trivial
    | routeObj a b c d => trivial
  · rintro ⟨hle, hchildren⟩ o hfilled
    have hholds := hfilled.built.holds
    obtain ⟨d, children, rfl, hmade⟩ := hfilled.children
    obtain ⟨h, recs, hwire, hw⟩ := hholds.isWire hmade hlt'
    have hm : IsMessage e₂ h (recordsBytes recs) :=
      ⟨(Header.field_across hw.mark e₂ _).trans hw.size, by rw [hw.length]; exact hle⟩
    refine ⟨⟨_, (hholds.emitted hlt).mpr rfl⟩, fun bs hbs => ?_⟩
    rw [(hholds.emitted hlt).mp hbs, hwire]
    refine ⟨hm.accepted, hm.arrives, fun o' ho' => ?_⟩
    have hstring : ∀ q ∈ cs, ∀ s, q.2 = .string s → e₁ = .little → e₂ = .little := by
      rintro ⟨k, c⟩ hq s rfl
      exact hchildren _ hq
    obtain ⟨ts, hshows, hall⟩ := hw.shows hcs hle hstring ho'
    rw [arriving_portable hall hcs.valid hchildren] at hshows
    exact hshows.received

theorem portable_iff_sample : Portable .big .little [(3, .int32 (-7)), (5, .string [104, 105])] :=
  (portable_iff ⟨by simp [KeyMap.Sorted], by decide, fun q hq => by
    rcases List.mem_cons.mp hq with rfl | hq
    · exact (by decide : IsInt32 (-7))
    · rw [List.mem_singleton.mp hq]
      exact ⟨by decide, by decide⟩⟩ (by decide)).mpr ⟨by decide, fun q hq => by
    rcases List.mem_cons.mp hq with rfl | hq
    · trivial
    · rw [List.mem_singleton.mp hq]
      exact fun he => by cases he⟩

/-- The text "hi" under the key 5. -/
def textChild : List (Int × Child) := [(5, .string [104, 105])]

theorem textChild_areChildren : AreChildren textChild := by
  refine ⟨by simp [KeyMap.Sorted, textChild], by decide, fun q hq => ?_⟩
  rw [List.mem_singleton.mp hq]
  exact ⟨by decide, by decide⟩

/-- The text gets lost from a little-endian host to a big-endian one. -/
theorem textChild_not_portable : AreChildren textChild ∧ ¬Portable .little .big textChild := by
  refine ⟨textChild_areChildren, fun hport => ?_⟩
  obtain ⟨d, children, hfilled, hmade⟩ := exists_filled (e := .little) textChild_areChildren 0
  have hholds := hfilled.built.holds
  obtain ⟨h, recs, hwire, hw⟩ := hholds.isWire hmade (by decide)
  obtain ⟨-, hall⟩ := hport _ hfilled
  obtain ⟨-, ⟨o, ho⟩, hrec⟩ := hall _ ((hholds.emitted (by decide)).mpr rfl)
  rw [hwire] at ho hrec
  exact not_received_string hw textChild_areChildren (by decide) (List.mem_singleton.mpr rfl) ho (hrec o ho)

end LeanDson
