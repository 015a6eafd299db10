import LeanDson.Settling

/-! Parsed containers. The children are views of records that follow one another; a call on one of them replaces its
record, and a loop over them goes from one to the next. -/

namespace LeanDson

variable {e : Endian}

/-! ### Children of a parsed container -/

/-- A child that is a view of the record its key is bound to. -/
def Seated (e : Endian) (recs : List Record) (idx : Int → Nat) (q : Int × DsonObj) : Prop :=
  ∃ c r, q.2 = .dson c [] ∧ r.key e = q.1 ∧ Dson.SitsAt e recs (idx q.1) r c

theorem Seated.alike {recs recs' : List Record} {idx : Int → Nat} {q : Int × DsonObj} (h : Seated e recs idx q)
    (ha : AlikeAll e recs recs') : Seated e recs' idx q := by
  obtain ⟨c, r, hq, hkey, hsits⟩ := h
  obtain ⟨r', halike, hsits'⟩ := hsits.alike ha
  exact ⟨c, r', hq, halike.key.trans hkey, hsits'⟩

/-- Children under different keys have different records. -/
theorem Seated.idx_ne {recs : List Record} {idx : Int → Nat} {q q' : Int × DsonObj} (h : Seated e recs idx q)
    (h' : Seated e recs idx q') (hne : q.1 ≠ q'.1) : idx q.1 ≠ idx q'.1 := by
  intro heq
  obtain ⟨c, r, -, hkey, hsits⟩ := h
  obtain ⟨c', r', -, hkey', hsits'⟩ := h'
  have hrec := hsits.record
  rw [heq, hsits'.record] at hrec
  cases hrec
  exact hne (hkey.symm.trans hkey')

/-- What a call on one child leaves. -/
theorem Dson.Kept.seated {recs : List Record} {idx : Int → Nat} {k : Int} {r : Record} {m m' : Mem} {o' : DsonObj}
    (h : Dson.Kept e recs (idx k) r m o' m') (hkey : r.key e = k) (hrec : recs[idx k]? = some r) :
    ∃ r', AlikeAll e recs (recs.set (idx k) r') ∧ Seated e (recs.set (idx k) r') idx (k, o') ∧
      m' = m.hold (recs.set (idx k) r') := by
  obtain ⟨r', c', halike, hsits, rfl, rfl⟩ := h
  exact ⟨r', AlikeAll.set halike hrec, ⟨c', r', rfl, halike.key.trans hkey, hsits⟩, rfl⟩

/-- What calls on some children of a container leave: as many children under the same keys, over records that
say the same. -/
structure Swept (e : Endian) (idx : Int → Nat) (recs recs' : List Record) (children children' : ObjMap) : Prop where
  alike : AlikeAll e recs recs'
  keys : KeyMap.keys children' = KeyMap.keys children
  seated : ∀ q ∈ children', Seated e recs' idx q

theorem Swept.refl {idx : Int → Nat} {recs : List Record} {children : ObjMap}
    (h : ∀ q ∈ children, Seated e recs idx q) : Swept e idx recs recs children children :=
  ⟨AlikeAll.refl e recs, rfl, h⟩

/-- The first child and then the others. -/
theorem Swept.cons {idx : Int → Nat} {recs recs₁ recs₂ : List Record} {k : Int} {o o' : DsonObj} {rest rest' : ObjMap}
    (ha : AlikeAll e recs recs₁) (hhead : Seated e recs₁ idx (k, o')) (htail : Swept e idx recs₁ recs₂ rest rest') :
    Swept e idx recs recs₂ ((k, o) :: rest) ((k, o') :: rest') where
  alike := ha.trans htail.alike
  keys := by rw [KeyMap.keys_cons, KeyMap.keys_cons, htail.keys]
  seated := List.forall_mem_cons.mpr ⟨hhead.alike htail.alike, htail.seated⟩

/-- The headers of the other records are what they were. -/
theorem Seated.others {recs : List Record} {idx : Int → Nat} {q : Int × DsonObj} {rest : ObjMap}
    (hs : KeyMap.Sorted (q :: rest)) (h : ∀ p ∈ q :: rest, Seated e recs idx p) (r' : Record) :
    ∀ p ∈ rest, (recs.set (idx q.1) r')[idx p.1]? = recs[idx p.1]? := by
  intro p hp
  have hlt : q.1 < p.1 := (KeyMap.sorted_cons.mp hs).1 p.1 (List.mem_map_of_mem hp)
  have hne := (h q List.mem_cons_self).idx_ne (h p (List.mem_cons_of_mem _ hp)) (ne_of_lt hlt)
  exact List.getElem?_set_ne hne

/-- Children of a container, over records that are as the calls to come want them. -/
structure Row (e : Endian) (P : Int → Dson → Record → Prop) (idx : Int → Nat) (recs : List Record) (children : ObjMap) :
    Prop where
  sorted : KeyMap.Sorted children
  seated : ∀ q ∈ children, Seated e recs idx q
  fits : ∀ r ∈ recs, Record.Fits e r
  wanted : ∀ q ∈ children, ∀ c r, q.2 = .dson c [] → recs[idx q.1]? = some r → P q.1 c r

section

variable {P : Int → Dson → Record → Prop} {idx : Int → Nat} {recs : List Record} {k : Int} {o o' : DsonObj}
  {children rest : ObjMap}

theorem Row.tail (h : Row e P idx recs ((k, o) :: rest)) : Row e P idx recs rest :=
  ⟨h.sorted.tail, fun q hq => h.seated q (List.mem_cons_of_mem _ hq), h.fits,
    fun q hq => h.wanted q (List.mem_cons_of_mem _ hq)⟩

theorem Row.imp {Q : Int → Dson → Record → Prop} (h : Row e P idx recs children)
    (hwanted : ∀ k ∈ KeyMap.keys children, ∀ c r, P k c r → Q k c r) : Row e Q idx recs children :=
  ⟨h.sorted, h.seated, h.fits,
    fun q hq c r hc hr => hwanted q.1 (List.mem_map_of_mem hq) c r (h.wanted q hq c r hc hr)⟩

theorem Row.swept_refl (h : Row e P idx recs children) : Swept e idx recs recs children children := .refl h.seated

theorem Row.head (h : Row e P idx recs ((k, o) :: rest)) :
    ∃ c r, o = .dson c [] ∧ r.key e = k ∧ Dson.SitsAt e recs (idx k) r c ∧ r.Fits e ∧ P k c r := by
  obtain ⟨c, r, ho, hkey, hsits⟩ := h.seated (k, o) List.mem_cons_self
  exact ⟨c, r, ho, hkey, hsits, hsits.fits h.fits, h.wanted (k, o) List.mem_cons_self c r ho hsits.record⟩

/-- A call on the first child leaves the records of the others as they are. -/
theorem Row.step (h : Row e P idx recs ((k, o) :: rest)) {r : Record} {m m' : Mem} (hkept : Dson.Kept e recs (idx k) r m o' m')
    (hkey : r.key e = k) (hrec : recs[idx k]? = some r) :
    ∃ recs₁, Row e P idx recs₁ rest ∧ AlikeAll e recs recs₁ ∧ Seated e recs₁ idx (k, o') ∧ m' = m.hold recs₁ := by
  obtain ⟨r', ha, hseated, hmem⟩ := hkept.seated hkey hrec
  refine ⟨_, ⟨h.sorted.tail, fun q hq => (h.tail.seated q hq).alike ha, ha.fits h.fits, fun q hq c r₁ hc hr₁ => ?_⟩,
    ha, hseated, hmem⟩
  rw [Seated.others h.sorted h.seated r' q hq] at hr₁
  exact h.tail.wanted q hq c r₁ hc hr₁

end

section

variable {idx : Int → Nat}

/-- The loop of `map`. -/
theorem Row.childrenToHost : ∀ {recs : List Record} {children children' : ObjMap} {m m' : Mem},
    Row e (fun _ _ r => r.Safe e false) idx recs children → m.owner = recordsBytes recs →
      DsonObj.childrenToHost e children m = some (children', m') →
        ∃ recs', Swept e idx recs recs' children children' ∧ m' = m.hold recs'
  | recs, [], children', m, m', h, hm, hrun => by
      cases hrun
      exact ⟨recs, h.swept_refl, (Mem.hold_self hm).symm⟩
  | recs, (k, o) :: rest, children', m, m', h, hm, hrun => by
      obtain ⟨c, r, rfl, hkey, hsits, hfits, hsafe⟩ := h.head
      simp only [DsonObj.childrenToHost, DsonObj.toHost, Option.bind_eq_bind, Option.bind_eq_some_iff,
        Option.pure_def] at hrun
      obtain ⟨⟨o₁, m₁⟩, ⟨⟨c₁, m₂⟩, hto, heq⟩, ⟨rest', m₃⟩, hrest, heq'⟩ := hrun
      cases heq
      cases heq'
      obtain ⟨r', hto', halike, -⟩ := hsits.kept_toOrder hm hfits hsafe
      have hsame : some (c₁, m₂) = some (c, m.hold (recs.set (idx k) r')) := hto.symm.trans hto'
      cases hsame
      have hkept : Dson.Kept e recs (idx k) r m (.dson c []) (m.hold (recs.set (idx k) r')) :=
        ⟨r', c, halike, hsits.set halike, rfl, rfl⟩
      obtain ⟨recs₁, hrow, ha, hseated, hmem⟩ := h.step hkept hkey hsits.record
      rw [hmem] at hrest
      obtain ⟨recs₂, hswept, rfl⟩ := hrow.childrenToHost (m := m.hold recs₁) rfl hrest
      exact ⟨recs₂, .cons ha hseated hswept, rfl⟩

/-- All the children that are left are still before an iteration at the first of them. -/
theorem CopyIter.ahead_rest {k key : Int} {o : DsonObj} {rest : ObjMap} (hs : KeyMap.Sorted ((k, o) :: rest))
    (hle : key ≤ k) : ∀ k' ∈ KeyMap.keys rest, (CopyIter.node key).Ahead k' := fun k' hk' =>
  hle.trans ((KeyMap.sorted_cons.mp hs).1 k' hk').le

/-- The loop of the incremental emitters. -/
theorem Row.copyMap {σ : Type} [ByteSink σ] {copy : DsonObj → Mem → σ → Option (Result × DsonObj × Mem × σ)}
    {Q : Dson → Record → Prop}
    (hcopy : ∀ {recs : List Record} {i : Nat} {r : Record} {c : Dson} {m m' : Mem} {s s' : σ} {res : Result} {o' : DsonObj},
      c.SitsAt e recs i r → m.owner = recordsBytes recs → r.Fits e → Q c r →
        copy (.dson c []) m s = some (res, o', m', s') → Dson.Kept e recs i r m o' m') :
    ∀ {recs : List Record} {it it' : CopyIter} {children children' : ObjMap} {m m' : Mem} {s s' : σ} {res : Result},
      Row e (fun k c r => it.Ahead k → Q c r) idx recs children → m.owner = recordsBytes recs →
        Dson.copyMap copy it children m s = some (res, it', children', m', s') →
          ∃ recs', Swept e idx recs recs' children children' ∧ m' = m.hold recs'
  | recs, .unset, _, _, _, _, _, _, _, _, _, _, hrun => by
      rw [Dson.copyMap] at hrun
      cases hrun
  | recs, .finished, _, children, children', m, m', s, s', res, h, hm, hrun => by
      rw [Dson.copyMap] at hrun
      cases hrun
      exact ⟨recs, h.swept_refl, (Mem.hold_self hm).symm⟩
  | recs, .node key, _, [], children', m, m', s, s', res, h, hm, hrun => by
      rw [Dson.copyMap] at hrun
      cases hrun
      exact ⟨recs, h.swept_refl, (Mem.hold_self hm).symm⟩
  | recs, .node key, it', (k, o) :: rest, children', m, m', s, s', res, h, hm, hrun => by
      rw [Dson.copyMap] at hrun
      split_ifs at hrun with hlt
      · simp only [Option.bind_eq_bind, Option.bind_eq_some_iff, Option.pure_def] at hrun
        obtain ⟨⟨res₁, it₁, rest₁, m₁, s₁⟩, hrest, heq⟩ := hrun
        cases heq
        obtain ⟨recs', hswept, hmem⟩ := h.tail.copyMap hcopy hm hrest
        exact ⟨recs', .cons (AlikeAll.refl e recs) (h.seated _ List.mem_cons_self) hswept, hmem⟩
      · obtain ⟨c, r, rfl, hkey, hsits, hfits, hwanted⟩ := h.head
        simp only [Option.bind_eq_bind, Option.bind_eq_some_iff, Option.pure_def] at hrun
        obtain ⟨⟨res₁, o₁, m₁, s₁⟩, hone, hrun⟩ := hrun
        have hkept := hcopy hsits hm hfits (hwanted (not_lt.mp hlt)) hone
        obtain ⟨recs₁, hrow, ha, hseated, rfl⟩ := h.step hkept hkey hsits.record
        dsimp only at hrun
        split_ifs at hrun with hready
        · cases hrun
          exact ⟨recs₁, .cons ha hseated hrow.swept_refl, rfl⟩
        · obtain ⟨⟨res₂, it₂, rest₂, m₂, s₂⟩, hrest, heq⟩ := Option.bind_eq_some_iff.mp hrun
          cases heq
          have hnext := hrow.imp (Q := fun k' c r => (Dson.mapBegin rest).Ahead k' → Q c r) fun k' hk' c r hq _ =>
            hq (CopyIter.ahead_rest h.sorted (not_lt.mp hlt) k' hk')
          obtain ⟨recs₂, hswept, rfl⟩ := hnext.copyMap hcopy (m := m.hold recs₁) rfl hrest
          exact ⟨recs₂, .cons ha hseated hswept, rfl⟩

/-- The loop of the stream emitter. -/
theorem Row.streamMap {copy : DsonObj → Mem → Option (DsonObj × Mem × Bytes)} {Q : Dson → Record → Prop}
    (hcopy : ∀ {recs : List Record} {i : Nat} {r : Record} {c : Dson} {m m' : Mem} {o' : DsonObj} {bs : Bytes},
      c.SitsAt e recs i r → m.owner = recordsBytes recs → r.Fits e → Q c r →
        copy (.dson c []) m = some (o', m', bs) → Dson.Kept e recs i r m o' m') :
    ∀ {recs : List Record} {children children' : ObjMap} {m m' : Mem} {bs : Bytes},
      Row e (fun _ => Q) idx recs children → m.owner = recordsBytes recs →
        Dson.streamMap copy children m = some (children', m', bs) →
          ∃ recs', Swept e idx recs recs' children children' ∧ m' = m.hold recs'
  | recs, [], children', m, m', bs, h, hm, hrun => by
      cases hrun
      exact ⟨recs, h.swept_refl, (Mem.hold_self hm).symm⟩
  | recs, (k, o) :: rest, children', m, m', bs, h, hm, hrun => by
      obtain ⟨c, r, rfl, hkey, hsits, hfits, hwanted⟩ := h.head
      simp only [Dson.streamMap, Option.bind_eq_bind, Option.bind_eq_some_iff, Option.pure_def] at hrun
      obtain ⟨⟨o₁, m₁, bs₁⟩, hone, ⟨rest', m₂, bs₂⟩, hrest, heq⟩ := hrun
      cases heq
      obtain ⟨recs₁, hrow, ha, hseated, rfl⟩ := h.step (hcopy hsits hm hfits hwanted hone) hkey hsits.record
      obtain ⟨recs₂, hswept, rfl⟩ := hrow.streamMap hcopy (m := m.hold recs₁) rfl hrest
      exact ⟨recs₂, .cons ha hseated hswept, rfl⟩

end

/-! ### Sizes -/

/-- The size of a view, parsed or not. -/
theorem Dson.SitsAt.dataSize {recs : List Record} {i : Nat} {r : Record} {c : Dson} (h : c.SitsAt e recs i r) {m : Mem}
    (hm : m.owner = recordsBytes recs) (hfits : r.Fits e) :
    DsonObj.dataSize e m (.dson c []) = some (r.header.dataSizeOf e) := by
  by_cases hkind : c.dsonKind = .dsonContainer
  · rw [DsonObj.dataSize, hkind, hfits.2, h.hollow hkind]
    rfl
  · exact h.dataSize_header hm hkind []

/-- Every child has a size. -/
theorem dataSizes_isSome {idx : Int → Nat} {recs : List Record} (hfits : ∀ r ∈ recs, Record.Fits e r) {m : Mem}
    (hm : m.owner = recordsBytes recs) : ∀ {children : ObjMap}, (∀ q ∈ children, Seated e recs idx q) →
      (DsonObj.dataSizes e m children).isSome
  | [], _ => rfl
  | (k, o) :: rest, hseated => by
      rw [List.forall_mem_cons] at hseated
      obtain ⟨⟨c, r, ho, -, hsits⟩, hrest⟩ := hseated
      dsimp only at ho
      subst ho
      obtain ⟨sum, hsum⟩ := Option.isSome_iff_exists.mp (dataSizes_isSome hfits hm hrest)
      rw [DsonObj.dataSizes, hsits.dataSize hm (hsits.fits hfits), hsum]
      rfl

/-! ### Views, copied -/

/-- A child whose record survives a copy can be copied. -/
theorem Dson.SitsAt.copyable {recs : List Record} {i : Nat} {r : Record} {c : Dson} (h : c.SitsAt e recs i r) {m : Mem}
    (hm : m.owner = recordsBytes recs) (hfits : r.Fits e) {stream network : Bool}
    (hcopy : c.Forwardable e r stream network) : c.Copyable e [] m stream network := by
  obtain ⟨hproceeds, hcopy⟩ := hcopy
  unfold Record.Copies at hcopy
  unfold Dson.Copyable
  have hpart : ∀ key r', ¬c.Part e [] m key r' := by
    rintro key r' (⟨-, hfind, -⟩ | ⟨-, -, -, -, hbytes, hlast, -⟩)
    · cases hfind
    · rw [h.unparsed, hlast, recordsBytes_append, recordsBytes_cons] at hbytes
      have hlen := congrArg List.length hbytes
      simp [headerSize] at hlen
  have htype : c.dsonKind ≠ .oneObjectInDataBuf → r.header.dataTypeOf e = TypesMap.dsonContainer := fun hkind => by
    by_contra hne
    exact hkind (h.kind.mpr hne)
  cases hkind : c.dsonKind with
  | oneObjectInDataBuf =>
      rw [if_neg (h.kind.mp hkind)] at hcopy
      intro hstate r' hread
      rw [h.asRecord hm hfits] at hread
      cases hread
      exact Or.inr ⟨(hcopy hstate).1, fun _ => (hcopy hstate).2⟩
  | dsonContainer =>
      rw [if_pos (htype (by simp [hkind]))] at hcopy
      refine ⟨hproceeds, fun hstate h' hread => ?_, fun key c' cs r' hfind => by cases hfind⟩
      rw [h.header hm] at hread
      cases hread
      exact (hcopy hstate).1
  | dataBufNeedParse =>
      rw [if_pos (htype (by simp [hkind]))] at hcopy
      intro hstate h' hread
      rw [h.header hm] at hread
      cases hread
      obtain ⟨hturns, hempty⟩ := hcopy hstate
      by_cases hparses : r.header.Parses e stream network
      · rw [if_pos hparses, if_pos (htype (by simp [hkind]))]
        refine ⟨hturns, ⟨fun h' hread _ => ?_, [], by simp, by rw [h.unparsed]; rfl, by simp⟩,
          fun key r' hp => absurd hp (hpart key r')⟩
        rw [h.header hm] at hread
        cases hread
        rw [h.unparsed, hempty hparses]
        rfl
      · rw [if_neg hparses]
        exact hturns

/-- The copy of one child by the incremental emitters. -/
theorem Dson.SitsAt.copyFuel {σ : Type} [ByteSink σ] {network : Bool} {fuel : Nat} {recs : List Record} {i : Nat}
    {r : Record} {c : Dson} (h : c.SitsAt e recs i r) {m m' : Mem} (hm : m.owner = recordsBytes recs) (hfits : r.Fits e)
    (hcopy : c.Forwardable e r false network) {s s' : σ} {res : Result} {o' : DsonObj}
    (hrun : DsonObj.copyFuel e network fuel (.dson c []) m s = some (res, o', m', s')) : Dson.Kept e recs i r m o' m' := by
  cases fuel with
  | zero => cases hrun
  | succ fuel => exact h.copyInternal hm hfits (h.copyable hm hfits hcopy) hrun

/-- The copy of one child by the stream emitter. -/
theorem Dson.SitsAt.streamFuel {network : Bool} {fuel : Nat} {recs : List Record} {i : Nat}
    {r : Record} {c : Dson} (h : c.SitsAt e recs i r) {m m' : Mem} (hm : m.owner = recordsBytes recs) (hfits : r.Fits e)
    (hcopy : c.Forwardable e r true network) {o' : DsonObj} {bs : Bytes}
    (hrun : DsonObj.streamFuel e network fuel (.dson c []) m = some (o', m', bs)) : Dson.Kept e recs i r m o' m' := by
  cases fuel with
  | zero => cases hrun
  | succ fuel => exact h.streamInternal hm hfits (h.copyable hm hfits hcopy) hrun

/-! ### Parsed containers -/

/-- A container that has parsed the block it owns; a copy may be under way. -/
structure Dson.Opened (e : Endian) (recs : List Record) (idx : Int → Nat) (d : Dson) (children : ObjMap) : Prop where
  kind : d.dsonKind = .dsonContainer
  state : d.state ≠ .error
  alloc : d.wasBufAllocation = true
  buf : d.buf = .own (recordsBytes recs)
  type : d.headerBuf.dataTypeOf e = TypesMap.dsonContainer
  fits : ∀ r ∈ recs, Record.Fits e r
  sorted : KeyMap.Sorted children
  seated : ∀ q ∈ children, Seated e recs idx q

/-- What a call on a parsed container leaves: a parsed container of the same key, over records that say the same. -/
def Dson.Reopened (e : Endian) (recs : List Record) (idx : Int → Nat) (d : Dson) (children : ObjMap) (m : Mem)
    (o' : DsonObj) (m' : Mem) : Prop :=
  ∃ recs' d' children', o' = .dson d' children' ∧ m' = m ∧ d'.Opened e recs' idx children' ∧
    AlikeAll e recs recs' ∧ KeyMap.keys children' = KeyMap.keys children ∧
    d'.headerBuf.keyOf e = d.headerBuf.keyOf e

theorem Dson.Reopened.of_header {recs : List Record} {idx : Int → Nat} {d : Dson} {children : ObjMap} {h' : Header}
    (hkey : h'.keyOf e = d.headerBuf.keyOf e) {m m' : Mem} {o' : DsonObj}
    (hre : Dson.Reopened e recs idx { d with headerBuf := h' } children m o' m') :
    Dson.Reopened e recs idx d children m o' m' := by
  obtain ⟨recs', d', children', rfl, rfl, hopen, halike, hkeys, hkey'⟩ := hre
  exact ⟨recs', d', children', rfl, rfl, hopen, halike, hkeys, hkey'.trans hkey⟩

namespace Dson.Opened

variable {recs : List Record} {idx : Int → Nat} {d : Dson} {children : ObjMap} (h : d.Opened e recs idx children)

include h

theorem headerIsLocal : d.headerIsLocal = true := by simp [Dson.headerIsLocal, h.alloc]

theorem inner (m : Mem) : d.inner m = m.hold recs := by
  rw [Dson.inner, h.buf]
  rfl

/-- The container after calls on children. -/
theorem swept {recs' : List Record} {children' : ObjMap} (hs : Swept e idx recs recs' children children') {d' : Dson}
    (hd : d.Progressed d') :
    Dson.Opened e recs' idx { d' with buf := .own (recordsBytes recs') } children' where
  kind := by rw [hd.fields, h.kind]
  state := fun he => h.state (hd.state he)
  alloc := by rw [hd.fields, h.alloc]
  buf := rfl
  type := by rw [hd.fields, h.type]
  fits := hs.alike.fits h.fits
  sorted := h.sorted.congr hs.keys
  seated := hs.seated

theorem reopened_swept {recs' : List Record} {children' : ObjMap} (hs : Swept e idx recs recs' children children')
    {d' : Dson} (hd : d.Progressed d') (m : Mem) :
    Dson.Reopened e recs idx d children m (.dson { d' with buf := .own (recordsBytes recs') } children') m :=
  ⟨recs', _, children', rfl, rfl, h.swept hs hd, hs.alike, hs.keys, by rw [hd.fields]⟩

theorem reopened_progressed {d' : Dson} (hd : d.Progressed d') (m : Mem) :
    Dson.Reopened e recs idx d children m (.dson d' children) m := by
  have hbuf : { d' with buf := .own (recordsBytes recs) } = d' := by rw [hd.fields, ← h.buf]
  have := h.reopened_swept (.refl h.seated) hd m
  rwa [hbuf] at this

theorem reopened_self (m : Mem) : Dson.Reopened e recs idx d children m (.dson d children) m :=
  h.reopened_progressed (.refl d) m

theorem outer_hold (recs' : List Record) (m : Mem) :
    d.outer m (m.hold recs') = ({ d with buf := .own (recordsBytes recs') }, m) := by
  rw [Dson.outer, h.buf]
  rfl

/-- The same container with another header in front. -/
theorem setHeader {h' : Header} (htype : h'.dataTypeOf e = TypesMap.dsonContainer) :
    Dson.Opened e recs idx { d with headerBuf := h' } children :=
  ⟨h.kind, h.state, h.alloc, h.buf, htype, h.fits, h.sorted, h.seated⟩

/-- The children as a call wants them. -/
theorem row {P : Int → Dson → Record → Prop} {m : Mem}
    (hparts : ∀ key c r, KeyMap.find key children = some (.dson c []) → c.asRecord e (d.inner m) = some r → P key c r) :
    Row e P idx recs children := by
  refine ⟨h.sorted, h.seated, h.fits, fun q hq c r hc hr => ?_⟩
  obtain ⟨c', r', hq', hkey, hsits⟩ := h.seated q hq
  have hsame : c' = c ∧ r' = r := by
    rw [hq'] at hc
    cases hc
    exact ⟨rfl, Option.some.inj (hsits.record.symm.trans hr)⟩
  obtain ⟨rfl, rfl⟩ := hsame
  refine hparts q.1 c' r' ?_ ?_
  · rw [← hq']
    exact KeyMap.find_of_mem h.sorted hq
  · rw [h.inner m]
    exact hsits.asRecord rfl (hsits.fits h.fits)

/-- A conversion by type leaves a container alone. -/
theorem toOrder (network : Bool) (m : Mem) : d.toOrder e network m = some (d, m) := by
  have hrec := (isRecord_own h.alloc h.state m).toOrder e d.headerBuf (recordsBytes recs) network
  have hself : ({ d with headerBuf := d.headerBuf, buf := .own (recordsBytes recs) } : Dson) = d := by rw [← h.buf]
  have hconv : convertRecord e network d.headerBuf (recordsBytes recs) = some (d.headerBuf, recordsBytes recs) := by
    refine convertRecord_none ?_ _
    rw [h.type]
    cases network <;> rfl
  simp only [hself, hconv, Option.map_some] at hrec
  exact hrec

end Dson.Opened

/-! ### Calls on a parsed container -/

namespace Dson.Opened

variable {recs : List Record} {idx : Int → Nat} {d : Dson} {children : ObjMap} (h : d.Opened e recs idx children)
  {m m' : Mem} {o' : DsonObj}

include h

/-- The view under a key. -/
theorem find {k : Int} {o : DsonObj} (hfind : KeyMap.find k children = some o) :
    ∃ c r, o = .dson c [] ∧ r.key e = k ∧ Dson.SitsAt e recs (idx k) r c ∧ r.Fits e := by
  obtain ⟨c, r, ho, hkey, hsits⟩ := h.seated (k, o) (KeyMap.mem_of_find hfind)
  exact ⟨c, r, ho, hkey, hsits, hsits.fits h.fits⟩

/-- An operation on one child. -/
theorem onChild {α : Type} {a : α} {k : Int} {f : DsonObj → Mem → Option (α × DsonObj × Mem)}
    (hf : ∀ c r a o' m', KeyMap.find k children = some (.dson c []) → Dson.SitsAt e recs (idx k) r c → r.Fits e →
      f (.dson c []) (m.hold recs) = some (a, o', m') → Dson.Kept e recs (idx k) r (m.hold recs) o' m')
    (hrun : DsonObj.onChild k f (.dson d children) m = some (a, o', m')) :
    Dson.Reopened e recs idx d children m o' m' := by
  simp only [DsonObj.onChild, h.inner m, Option.bind_eq_bind, Option.bind_eq_some_iff, Option.pure_def] at hrun
  obtain ⟨o, hfind, ⟨a₁, o₁, m₁⟩, hcall, heq⟩ := hrun
  obtain ⟨c, r, rfl, hkey, hsits, hfits⟩ := h.find hfind
  obtain ⟨r', ha, hseated, hmem⟩ := (hf c r a₁ o₁ m₁ hfind hsits hfits hcall).seated hkey hsits.record
  rw [hmem, Mem.hold_hold, h.outer_hold] at heq
  cases heq
  refine h.reopened_swept ⟨ha, ?_, fun q hq => ?_⟩ (.refl d) m
  · exact KeyMap.keys_insertOrAssign_of_mem h.sorted (KeyMap.mem_keys_of_find hfind)
  · rcases (KeyMap.mem_insertOrAssign h.sorted).mp hq with rfl | ⟨hq, -⟩
    · exact hseated
    · exact (h.seated q hq).alike ha

/-- A lookup converts the child it finds. -/
theorem get {key : Int} {found : Found} (hallowed : (Handle.get key).Allowed e d children m)
    (hrun : DsonObj.get e key (.dson d children) m = some (found, o', m')) :
    Dson.Reopened e recs idx d children m o' m' := by
  rw [DsonObj.get, if_neg (by simp [h.kind])] at hrun
  simp only [Option.bind_eq_bind, Option.bind_some, h.kind] at hrun
  split_ifs at hrun with hstate
  · cases hrun
    exact h.reopened_self m
  rw [DsonObj.getInternal] at hrun
  cases hfind : KeyMap.find key children with
  | none =>
      rw [hfind] at hrun
      cases hrun
      exact h.reopened_self m
  | some o =>
      rw [hfind] at hrun
      refine h.onChild (fun c r a o₁ m₁ hc hsits hfits hcall => ?_) hrun
      have hsafe : r.Safe e false := by
        refine (hallowed.2 (not_not.mp hstate)).1 _ (.child h.kind hc ?_)
        rw [h.inner m]
        exact hsits.asRecord rfl hfits
      obtain ⟨r', hto, halike, -⟩ := hsits.kept_toOrder (m := m.hold recs) rfl hfits hsafe
      have hhost : c.toHost e (m.hold recs) = some (c, (m.hold recs).hold (recs.set (idx key) r')) := hto
      simp only [DsonObj.toHost, hhost, Option.bind_eq_bind, Option.bind_some, Option.pure_def] at hcall
      cases hcall
      exact ⟨r', c, halike, hsits.set halike, rfl, rfl⟩

/-- An iteration converts every child. -/
theorem map (hallowed : Handle.map.Allowed e d children m)
    (hrun : DsonObj.map e (.dson d children) m = some (o', m')) : Dson.Reopened e recs idx d children m o' m' := by
  by_cases hstate : d.state = .ready
  · rw [DsonObj.map, if_neg (not_not.mpr hstate)] at hrun
    simp only [Dson.openAsContainer, h.kind, h.inner m, Option.bind_eq_bind, Option.bind_some,
      Option.bind_eq_some_iff, Option.pure_def] at hrun
    obtain ⟨⟨children', inside⟩, hloop, heq⟩ := hrun
    have hrow : Row e (fun _ _ r => r.Safe e false) idx recs children := h.row fun key c r hfind hread =>
      (hallowed hstate).2.2 key r (.child h.kind hfind hread)
    obtain ⟨recs', hswept, rfl⟩ := hrow.childrenToHost (m := m.hold recs) rfl hloop
    rw [Mem.hold_hold, h.outer_hold] at heq
    cases heq
    exact h.reopened_swept hswept (.refl d) m
  · rw [DsonObj.map, if_pos hstate] at hrun
    cases hrun
    exact h.reopened_self m

/-- The sum of the sizes of the children. -/
theorem dataSize (m : Mem) : ∃ size, DsonObj.dataSize e m (.dson d children) = some size := by
  rw [DsonObj.dataSize, h.kind, h.inner]
  exact Option.isSome_iff_exists.mp (dataSizes_isSome (m := m.hold recs) h.fits rfl h.seated)

/-- The first step of a copy gives the header its size and turns it. -/
theorem prepareCopy {network : Bool} (hturns : d.headerBuf.Turns e network) (m : Mem) :
    ∃ h', h'.keyOf e = d.headerBuf.keyOf e ∧ h'.dataTypeOf e = TypesMap.dsonContainer ∧
      d.prepareCopy e network children m =
        some ({ d with headerBuf := h', offset := 0, state := .copyingHeader }, children, m) := by
  obtain ⟨size, hsize⟩ := h.dataSize m
  have hset := setDataSizeInternal_local h.headerIsLocal m e size
  have hturn := @headerToOrder_local { d with headerBuf := d.headerBuf.setDataSize e size } h.headerIsLocal m e network
  refine ⟨_, hturns.setDataSize_key size, (hturns.setDataSize_dataType size).trans h.type, ?_⟩
  rw [prepareCopy_eq, header_local h.headerIsLocal, Option.bind_some, if_neg (by simp [h.kind]), Option.bind_some,
    Dson.prepareHeader, if_pos h.kind, hsize]
  simp only [Option.bind_eq_bind, Option.bind_some, hset]
  rw [if_neg (by simp [h.kind]), hturn]
  rfl

section

variable {σ : Type} [ByteSink σ] {network : Bool} {fuel : Nat} {s s' : σ} {res : Result}

/-- The children of a container are copied. -/
theorem copyData (hrow : Row e (fun k c r => d.copyIter.Ahead k → c.Forwardable e r false network) idx recs children)
    (hrun : d.copyData (DsonObj.copyFuel e network fuel) children m s = some (res, o', m', s')) :
    Dson.Reopened e recs idx d children m o' m' := by
  rw [copyData_container _ _ h.kind, h.inner m] at hrun
  obtain ⟨⟨res₁, it, children', inside, s₁⟩, hmap, heq⟩ := Option.map_eq_some_iff.mp hrun
  obtain ⟨recs', hswept, rfl⟩ := hrow.copyMap (fun hsits hm hfits hcopy hone => hsits.copyFuel hm hfits hcopy hone)
    (m := m.hold recs) rfl hmap
  simp only [Mem.hold_hold, h.outer_hold] at heq
  cases heq
  have hprog : d.Progressed { d with copyIter := it, state := if res = .ready then .ready else d.state } := by
    refine ⟨rfl, fun hs => ?_⟩
    dsimp only at hs
    split_ifs at hs
    exact hs
  exact h.reopened_swept hswept hprog m

/-- The header of a container is copied, and its children. -/
theorem copyHeader (hrow : Row e (fun _ c r => c.Forwardable e r false network) idx recs children)
    (hrun : d.copyHeader (DsonObj.copyFuel e network fuel) children m s = some (res, o', m', s')) :
    Dson.Reopened e recs idx d children m o' m' := by
  rw [copyHeader_eq] at hrun
  split_ifs at hrun with hoff
  · cases hrun
    exact h.reopened_self m
  · obtain ⟨h', -, hrun⟩ := Option.bind_eq_some_iff.mp hrun
    rcases hw : ByteSink.write s (h'.bytes.drop d.offset) with ⟨n, s₁⟩
    rw [hw] at hrun
    cases n with
    | none =>
        cases hrun
        exact h.reopened_progressed ⟨rfl, fun hs => by cases hs⟩ m
    | some n =>
        dsimp only at hrun
        split_ifs at hrun with hmore
        · cases hrun
          have hprog : d.Progressed { d with offset := d.offset + n } := ⟨rfl, id⟩
          exact h.reopened_progressed hprog m
        · have hcopied : Dson.Opened e recs idx (d.headerCopied children n) children :=
            ⟨h.kind, by simp [headerCopied], h.alloc, h.buf, h.type, h.fits, h.sorted, h.seated⟩
          obtain ⟨recs', d', children', rfl, rfl, hopen, halike, hkeys, hkey⟩ :=
            hcopied.copyData (hrow.imp fun _ _ _ _ hwanted _ => hwanted) hrun
          exact ⟨recs', d', children', rfl, rfl, hopen, halike, hkeys, hkey⟩

/-- A call of an incremental emitter on a container. -/
theorem copyInternal (hcopy : d.Copyable e children m false network)
    (hrun : d.copyInternal e (DsonObj.copyFuel e network fuel) network children m s = some (res, o', m', s')) :
    Dson.Reopened e recs idx d children m o' m' := by
  unfold Dson.Copyable at hcopy
  rw [h.kind] at hcopy
  have hrow : Row e (fun k c r => d.Ahead false k → c.Forwardable e r false network) idx recs children :=
    h.row fun key c r hfind hread => hcopy.2.2 key c [] r hfind hread
  cases hstate : d.state with
  | ready =>
      have hall := hrow.imp (Q := fun _ c r => c.Forwardable e r false network) fun k _ c r hwanted =>
        hwanted (by rw [Dson.Ahead, hstate]; trivial)
      simp only [Dson.copyInternal, hstate, Option.bind_eq_bind, Option.bind_eq_some_iff] at hrun
      obtain ⟨⟨d₁, children₁, m₁⟩, hprepare, hrun⟩ := hrun
      obtain ⟨h', hkey', htype', hprepared⟩ := h.prepareCopy (hcopy.2.1 hstate _ (header_local h.headerIsLocal m)) m
      rw [hprepared] at hprepare
      cases hprepare
      have hturned := h.setHeader htype'
      have hready : Dson.Opened e recs idx { d with headerBuf := h', offset := 0, state := .copyingHeader } children :=
        ⟨hturned.kind, by simp, hturned.alloc, hturned.buf, hturned.type, hturned.fits, hturned.sorted, hturned.seated⟩
      obtain ⟨recs', d', children', rfl, rfl, hopen, halike, hkeys, hkey⟩ := hready.copyHeader hall hrun
      exact ⟨recs', d', children', rfl, rfl, hopen, halike, hkeys, hkey.trans hkey'⟩
  | copyingHeader =>
      simp only [Dson.copyInternal, hstate] at hrun
      exact h.copyHeader (hrow.imp fun k _ c r hwanted => hwanted (by rw [Dson.Ahead, hstate])) hrun
  | copyingData =>
      simp only [Dson.copyInternal, hstate] at hrun
      exact h.copyData (hrow.imp fun k _ c r hwanted hahead => hwanted (by rw [Dson.Ahead, hstate]; exact ⟨rfl, hahead⟩)) hrun
  | loadingHeader | loadingData | error =>
      simp only [Dson.copyInternal, hstate] at hrun
      cases hrun
      exact h.reopened_self m

end

/-- The stream emitter on a container. -/
theorem streamKind {network : Bool} {fuel : Nat} {bs : Bytes} (hturns : d.headerBuf.Turns e network)
    (hrow : Row e (fun _ c r => c.Forwardable e r true network) idx recs children)
    (hrun : d.streamKind e (DsonObj.streamFuel e network fuel) network children m = some (o', m', bs)) :
    Dson.Reopened e recs idx d children m o' m' := by
  obtain ⟨size, d₁, m₁, d₂, m₂, children', inside, bs', -, hheader, hset, hmap, rfl, rfl⟩ :=
    streamKind_container_cases h.kind hrun
  rw [headerToOrder_local h.headerIsLocal] at hheader
  cases hheader
  have hturned := h.setHeader (hturns.dataType.trans h.type)
  rw [setDataSizeInternal_local hturned.headerIsLocal] at hset
  cases hset
  have hsized := @setHeader _ _ _ _ _ hturned ((d.headerBuf.toOrder e network).setDataSize e size)
    ((Header.dataTypeOf_setDataSize _ _).trans hturned.type)
  rw [hsized.inner] at hmap
  obtain ⟨recs', hswept, rfl⟩ := hrow.streamMap
    (fun hsits hm hfits hcopy hone => hsits.streamFuel hm hfits hcopy hone) (m := m.hold recs) rfl hmap
  rw [Mem.hold_hold, hsized.outer_hold]
  have hkey : ((d.headerBuf.toOrder e network).setDataSize e size).keyOf e = d.headerBuf.keyOf e :=
    (Header.keyOf_setDataSize _ _).trans hturns.key
  exact .of_header hkey (hsized.reopened_swept hswept (.refl _) m)

theorem streamInternal {network : Bool} {fuel : Nat} {bs : Bytes} (hcopy : d.Copyable e children m true network)
    (hrun : d.streamInternal e (DsonObj.streamFuel e network fuel) network children m = some (o', m', bs)) :
    Dson.Reopened e recs idx d children m o' m' := by
  unfold Dson.Copyable at hcopy
  rw [h.kind] at hcopy
  by_cases hstate : d.state = .ready
  · rw [streamInternal_ready hstate (by simp [h.kind])] at hrun
    refine h.streamKind (hcopy.2.1 hstate _ (header_local h.headerIsLocal m)) ?_ hrun
    exact h.row fun key c r hfind hread => hcopy.2.2 key c [] r hfind hread (by rw [Dson.Ahead, hstate]; trivial)
  · rw [Dson.streamInternal, if_pos hstate] at hrun
    cases hrun
    exact h.reopened_self m

end Dson.Opened

end LeanDson
