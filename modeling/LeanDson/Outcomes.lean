import LeanDson.Sending

/-! A copy has an outcome. What the emitters read lies inside the blocks of a handled message, and a copy that is
under way goes on where it was, unless the object became a container after the copy began. -/

namespace LeanDson

variable {e : Endian}

/-! ### Phases -/

/-- An iteration over no children ends. -/
theorem Dson.copyMap_nil_isSome {σ : Type} {copy : DsonObj → Mem → σ → Option (Result × DsonObj × Mem × σ)}
    {it : CopyIter} (hit : it ≠ .unset) (m : Mem) (s : σ) : (copyMap copy it [] m s).isSome := by
  cases it with
  | unset => exact absurd rfl hit
  | finished => rfl
  | node key => rfl

theorem Dson.mapBegin_ne_unset (children : ObjMap) : mapBegin children ≠ .unset := by
  cases children <;> simp [mapBegin]

section

variable {σ : Type} [ByteSink σ] {copy : DsonObj → Mem → σ → Option (Result × DsonObj × Mem × σ)} {d : Dson}
  {children : ObjMap} {m : Mem}

/-- A payload that is as long as it says is copied. -/
theorem Dson.copyBuf_isSome {off : Nat} {t : Bytes} (hdata : d.data = some off) (htail : d.buf.tail m off = some t)
    (hlen : d.bufSizeWithoutHeader ≤ t.length) (s : σ) : (d.copyBuf m s).isSome := by
  rw [Dson.copyBuf]
  split_ifs with hoff
  · rfl
  · simp only [hdata, htail, Option.bind_eq_bind, Option.bind_some]
    rw [if_neg (not_lt.mpr hlen)]
    rcases ByteSink.write s ((t.take d.bufSizeWithoutHeader.toNat).drop d.offset) with ⟨n, s'⟩
    cases n with
    | none => rfl
    | some n =>
        dsimp only
        split_ifs <;> rfl

/-- The data phase of a container is the loop over its children. -/
theorem Dson.copyData_container_isSome (hkind : d.dsonKind = .dsonContainer) {s : σ}
    (hmap : (copyMap copy d.copyIter children (d.inner m) s).isSome) : (d.copyData copy children m s).isSome := by
  rw [copyData_container _ _ hkind, Option.isSome_map]
  exact hmap

theorem Dson.copyData_payload_isSome (hkind : d.dsonKind ≠ .dsonContainer) {s : σ} (hbuf : (d.copyBuf m s).isSome) :
    (d.copyData copy children m s).isSome := by
  rw [copyData_payload _ _ hkind, Option.isSome_map]
  exact hbuf

/-- The header phase goes on to the data phase. -/
theorem Dson.copyHeader_isSome {h : Header} (hread : d.header m = some h)
    (hdata : ∀ n s, ((d.headerCopied children n).copyData copy children m s).isSome) (s : σ) :
    (d.copyHeader copy children m s).isSome := by
  rw [copyHeader_eq]
  split_ifs with hoff
  · rfl
  · rw [hread, Option.bind_some]
    rcases ByteSink.write s (h.bytes.drop d.offset) with ⟨n, s'⟩
    cases n with
    | none => rfl
    | some n =>
        dsimp only
        split_ifs
        · rfl
        · exact hdata n s'

end

theorem Dson.headerCopied_copyIter (d : Dson) (children : ObjMap) (n : Nat) (hkind : d.dsonKind = .dsonContainer) :
    (d.headerCopied children n).copyIter ≠ .unset := by
  rw [headerCopied]
  dsimp only
  rw [if_pos hkind]
  exact mapBegin_ne_unset children

theorem Dson.Copyable.proceeds {d : Dson} {children : ObjMap} {m : Mem} {network : Bool}
    (h : d.Copyable e children m false network) : d.Proceeds := by
  intro hkind
  unfold Dson.Copyable at h
  rw [hkind] at h
  exact h.1 rfl hkind

/-! ### Views -/

namespace Dson.SitsAt

variable {recs : List Record} {i : Nat} {r : Record} {c : Dson} (h : c.SitsAt e recs i r) {m : Mem}
  (hm : m.owner = recordsBytes recs)

include h

section

variable {σ : Type} [ByteSink σ] {copy : DsonObj → Mem → σ → Option (Result × DsonObj × Mem × σ)}

/-- A view has no bytes of its own to copy. -/
theorem copyBuf_isSome (m : Mem) (s : σ) : (c.copyBuf m s).isSome := by
  rw [Dson.copyBuf, if_pos]
  · rfl
  · rw [bufSizeWithoutHeader, if_neg (by simp [h.alloc]), h.size, headerSize]
    omega

theorem copyData_isSome (hit : c.dsonKind = .dsonContainer → c.copyIter ≠ .unset) (m : Mem) (s : σ) :
    (c.copyData copy [] m s).isSome := by
  by_cases hkind : c.dsonKind = .dsonContainer
  · exact copyData_container_isSome hkind (copyMap_nil_isSome (hit hkind) _ s)
  · exact copyData_payload_isSome hkind (h.copyBuf_isSome m s)

include hm

theorem copyHeader_isSome (s : σ) : (c.copyHeader copy [] m s).isSome := by
  refine Dson.copyHeader_isSome (h.header hm) (fun n s => ?_) s
  have hcopied := h.progressed (c.headerCopied_progressed [] n)
  exact hcopied.copyData_isSome (c.headerCopied_copyIter [] n) m s

/-- A call of an incremental emitter on a view. -/
theorem copyInternal_isSome (hfits : r.Fits e) {network : Bool} (hcopy : c.Copyable e [] m false network) (s : σ) :
    (c.copyInternal e copy network [] m s).isSome := by
  cases hstate : c.state with
  | ready =>
      obtain ⟨r', c', -, hsits, hprepared⟩ := h.prepareCopy hm hfits hstate hcopy
      rw [copyInternal_ready hstate, hprepared, Option.bind_some]
      exact hsits.copyHeader_isSome rfl s
  | copyingHeader =>
      simp only [Dson.copyInternal, hstate]
      exact h.copyHeader_isSome hm s
  | copyingData =>
      simp only [Dson.copyInternal, hstate]
      exact h.copyData_isSome (fun hkind => hcopy.proceeds hkind hstate) m s
  | loadingHeader | loadingData | error =>
      simp only [Dson.copyInternal, hstate]
      rfl

theorem copyFuel_isSome (hfits : r.Fits e) {network : Bool} (hcopy : c.Forwardable e r false network) (fuel : Nat) (s : σ) :
    (DsonObj.copyFuel e network (fuel + 1) (.dson c []) m s).isSome := by
  rw [DsonObj.copyFuel]
  exact h.copyInternal_isSome hm hfits (h.copyable hm hfits hcopy) s

end

end Dson.SitsAt

/-! ### Children -/

section

variable {idx : Int → Nat}

/-- The loop of the incremental emitters ends, or stops at a child. -/
theorem Row.copyMap_isSome {σ : Type} [ByteSink σ] {copy : DsonObj → Mem → σ → Option (Result × DsonObj × Mem × σ)}
    {Q : Dson → Record → Prop}
    (hcopy : ∀ {recs : List Record} {i : Nat} {r : Record} {c : Dson} {m m' : Mem} {s s' : σ} {res : Result} {o' : DsonObj},
      c.SitsAt e recs i r → m.owner = recordsBytes recs → r.Fits e → Q c r →
        copy (.dson c []) m s = some (res, o', m', s') → Dson.Kept e recs i r m o' m')
    (hsome : ∀ {recs : List Record} {i : Nat} {r : Record} {c : Dson} {m : Mem} (s : σ),
      c.SitsAt e recs i r → m.owner = recordsBytes recs → r.Fits e → Q c r → (copy (.dson c []) m s).isSome) :
    ∀ {recs : List Record} {it : CopyIter} {children : ObjMap} {m : Mem} (s : σ),
      Row e (fun k c r => it.Ahead k → Q c r) idx recs children → m.owner = recordsBytes recs → it ≠ .unset →
        (Dson.copyMap copy it children m s).isSome
  | _, .unset, _, _, _, _, _, hit => absurd rfl hit
  | _, .finished, _, _, _, _, _, _ => by
      rw [Dson.copyMap]
      rfl
  | _, .node key, [], _, s, _, _, hit => Dson.copyMap_nil_isSome hit _ s
  | recs, .node key, (k, o) :: rest, m, s, h, hm, hit => by
      rw [Dson.copyMap]
      split_ifs with hlt
      · obtain ⟨q, hrest⟩ := Option.isSome_iff_exists.mp (h.tail.copyMap_isSome hcopy hsome s hm hit)
        rw [hrest]
        rfl
      · obtain ⟨c, r, rfl, hkey, hsits, hfits, hwanted⟩ := h.head
        have hq := hwanted (not_lt.mp hlt)
        obtain ⟨⟨res₁, o₁, m₁, s₁⟩, hone⟩ := Option.isSome_iff_exists.mp (hsome s hsits hm hfits hq)
        obtain ⟨recs₁, hrow, -, -, rfl⟩ := h.step (hcopy hsits hm hfits hq hone) hkey hsits.record
        simp only [hone, Option.bind_eq_bind, Option.bind_some]
        split_ifs
        · rfl
        · have hnext := hrow.imp (Q := fun k' c r => (Dson.mapBegin rest).Ahead k' → Q c r) fun k' hk' c r hq _ =>
            hq (CopyIter.ahead_rest h.sorted (not_lt.mp hlt) k' hk')
          obtain ⟨q, hrest⟩ := Option.isSome_iff_exists.mp
            (hnext.copyMap_isSome hcopy hsome (m := m.hold recs₁) s₁ rfl (Dson.mapBegin_ne_unset rest))
          rw [hrest]
          rfl

/-- The loop of the stream emitter ends. -/
theorem Row.streamMap_isSome {copy : DsonObj → Mem → Option (DsonObj × Mem × Bytes)} {Q : Dson → Record → Prop}
    (hcopy : ∀ {recs : List Record} {i : Nat} {r : Record} {c : Dson} {m m' : Mem} {o' : DsonObj} {bs : Bytes},
      c.SitsAt e recs i r → m.owner = recordsBytes recs → r.Fits e → Q c r →
        copy (.dson c []) m = some (o', m', bs) → Dson.Kept e recs i r m o' m')
    (hsome : ∀ {recs : List Record} {i : Nat} {r : Record} {c : Dson} {m : Mem},
      c.SitsAt e recs i r → m.owner = recordsBytes recs → r.Fits e → Q c r → (copy (.dson c []) m).isSome) :
    ∀ {recs : List Record} {children : ObjMap} {m : Mem}, Row e (fun _ => Q) idx recs children →
      m.owner = recordsBytes recs → (Dson.streamMap copy children m).isSome
  | _, [], _, _, _ => rfl
  | recs, (k, o) :: rest, m, h, hm => by
      obtain ⟨c, r, rfl, hkey, hsits, hfits, hwanted⟩ := h.head
      obtain ⟨⟨o₁, m₁, bs⟩, hone⟩ := Option.isSome_iff_exists.mp (hsome hsits hm hfits hwanted)
      obtain ⟨recs₁, hrow, -, -, rfl⟩ := h.step (hcopy hsits hm hfits hwanted hone) hkey hsits.record
      obtain ⟨q, hrest⟩ := Option.isSome_iff_exists.mp (hrow.streamMap_isSome hcopy hsome (m := m.hold recs₁) rfl)
      simp only [Dson.streamMap, hone, hrest, Option.bind_eq_bind, Option.bind_some]
      rfl

end

/-! ### Streams -/

/-- A payload that is as long as it says is streamed. -/
theorem Dson.streamRaw_isSome {d : Dson} (hkind : d.dsonKind ≠ .dsonContainer) {m : Mem} {h : Header} {off : Nat}
    {t : Bytes} (hread : d.header m = some h) (hdata : d.data = some off) (htail : d.buf.tail m off = some t) {size : Nat}
    (hlen : size ≤ t.length) (children : ObjMap) : (d.streamRaw e children m size).isSome := by
  have hpayload : (d.streamData m size).isSome := by
    rw [Dson.streamData]
    split_ifs with hzero hneg
    · rfl
    · omega
    · simp only [hdata, htail, Option.bind_eq_bind, Option.bind_some]
      rw [if_neg (by omega)]
      rfl
  obtain ⟨payload, hpayload⟩ := Option.isSome_iff_exists.mp hpayload
  rw [Dson.streamRaw, Dson.streamHeader, if_neg hkind]
  simp only [Option.bind_eq_bind, Option.bind_some, hread, Option.pure_def, hpayload]
  rfl

/-- The header of a container is converted and given its size, and the children follow. -/
theorem Dson.streamKind_container_isSome {copy : DsonObj → Mem → Option (DsonObj × Mem × Bytes)} {network : Bool}
    {d d₁ d₂ : Dson} {children : ObjMap} {m m₁ m₂ : Mem} {size : Int} {h : Header} (hkind : d.dsonKind = .dsonContainer)
    (hsize : DsonObj.dataSize e m (.dson d children) = some size) (hturn : d.headerToOrder e network m = some (d₁, m₁))
    (hset : d₁.setDataSizeInternal e m₁ size = some (d₂, m₂)) (hread : d₂.header m₂ = some h)
    (hmap : (streamMap copy children (d₂.inner m₂)).isSome) : (d.streamKind e copy network children m).isSome := by
  obtain ⟨q, hmap⟩ := Option.isSome_iff_exists.mp hmap
  rw [Dson.streamKind_container hkind, hsize]
  simp only [Option.bind_eq_bind, Option.bind_some, hturn]
  rw [Dson.streamHeader, if_pos (by rw [(Dson.headerToOrder_rewrites hturn).dsonKind, hkind])]
  simp only [hset, hread, Option.bind_eq_bind, Option.bind_some, Option.pure_def, hmap]
  rfl

namespace Dson.SitsAt

variable {recs : List Record} {i : Nat} {r : Record} {c : Dson} (h : c.SitsAt e recs i r) {m : Mem}
  (hm : m.owner = recordsBytes recs) (hfits : r.Fits e)
  {copy : DsonObj → Mem → Option (DsonObj × Mem × Bytes)} {network : Bool}

include h hm hfits

theorem streamRaw_isSome (hkind : c.dsonKind ≠ .dsonContainer) :
    (c.streamRaw e [] m (r.header.dataSizeOf e)).isSome := by
  rw [hfits.2]
  exact Dson.streamRaw_isSome hkind (h.header hm) h.data (h.tail hm) (by simp) []

theorem streamKind_hollow_isSome (hkind : c.dsonKind = .dsonContainer) (ht : r.header.Turns e network) :
    (c.streamKind e copy network [] m).isSome := by
  have hsize : DsonObj.dataSize e m (.dson c []) = some 0 := by
    rw [DsonObj.dataSize, hkind]
    rfl
  have hturned := h.set ht.alike
  have hset := hturned.setHeader (m := m.hold (recs.set i ⟨r.header.toOrder e network, r.payload⟩)) rfl
    ((r.header.toOrder e network).setDataSize e 0)
  rw [List.set_set, Mem.hold_hold] at hset
  have hread := (h.set (ht.alike_zero hfits (h.hollow hkind))).header
    (m := m.hold (recs.set i ⟨(r.header.toOrder e network).setDataSize e 0, r.payload⟩)) rfl
  refine Dson.streamKind_container_isSome hkind hsize (h.headerToOrder hm network) ?_ hread rfl
  rw [Dson.setDataSizeInternal, hturned.header rfl]
  exact hset

/-- The stream emitter on a view. -/
theorem streamInternal_isSome (hcopy : c.Copyable e [] m true network) :
    (c.streamInternal e copy network [] m).isSome := by
  by_cases hstate : c.state = .ready
  · unfold Dson.Copyable at hcopy
    cases hkind : c.dsonKind with
    | oneObjectInDataBuf =>
        rw [hkind] at hcopy
        obtain ⟨r', hto, halike, -⟩ := h.kept_toOrder hm hfits (h.safe hm hfits (hcopy hstate))
        have hset := h.set halike
        have hkind' : c.dsonKind ≠ .dsonContainer := by simp [hkind]
        rw [streamInternal_ready hstate (by simp [hkind]), Dson.streamKind_one hkind, h.dataSize hm hfits]
        simp only [Option.bind_eq_bind, Option.bind_some, hto, hset.dataSize (m := m.hold (recs.set i r')) rfl (halike.fits hfits),
          halike.size, ite_self]
        rw [← halike.size]
        exact hset.streamRaw_isSome rfl (halike.fits hfits) hkind'
    | dsonContainer =>
        rw [hkind] at hcopy
        rw [streamInternal_ready hstate (by simp [hkind])]
        exact h.streamKind_hollow_isSome hm hfits hkind (hcopy.2.1 hstate _ (h.header hm))
    | dataBufNeedParse =>
        rw [hkind] at hcopy
        have hraw := hcopy hstate _ (h.header hm)
        rw [streamInternal_unread hstate hkind (h.header hm)]
        split_ifs with hparses
        · have htype : r.header.dataTypeOf e = TypesMap.dsonContainer := by
            by_contra hne
            rw [h.kind.mpr hne] at hkind
            cases hkind
          rw [if_pos hparses, if_pos htype] at hraw
          rw [h.parseBuf hm hkind, Option.bind_some]
          exact (h.parsed hm hfits hkind hraw.2.1.1).streamKind_hollow_isSome hm hfits rfl hraw.1
        · rw [h.dataSize hm hfits, Option.bind_some]
          exact h.streamRaw_isSome hm hfits (by simp [hkind])
  · rw [Dson.streamInternal, if_pos hstate]
    rfl

theorem streamFuel_isSome (hcopy : c.Forwardable e r true network) (fuel : Nat) :
    (DsonObj.streamFuel e network (fuel + 1) (.dson c []) m).isSome := by
  rw [DsonObj.streamFuel]
  exact h.streamInternal_isSome hm hfits (h.copyable hm hfits hcopy)

end Dson.SitsAt

/-! ### Parsed containers -/

namespace Dson.Opened

variable {recs : List Record} {idx : Int → Nat} {d : Dson} {children : ObjMap} (h : d.Opened e recs idx children)

include h

section

variable {σ : Type} [ByteSink σ] {network : Bool} {fuel : Nat}

theorem copyData_isSome (hrow : Row e (fun k c r => d.copyIter.Ahead k → c.Forwardable e r false network) idx recs children)
    (hit : d.copyIter ≠ .unset) (m : Mem) (s : σ) :
    (d.copyData (DsonObj.copyFuel e network (fuel + 1)) children m s).isSome := by
  refine copyData_container_isSome h.kind ?_
  rw [h.inner]
  exact hrow.copyMap_isSome (fun hsits hm hfits hcopy hone => hsits.copyFuel hm hfits hcopy hone)
    (fun s hsits hm hfits hcopy => hsits.copyFuel_isSome hm hfits hcopy fuel s)
    (m := m.hold recs) s rfl hit

theorem copyHeader_isSome (hrow : Row e (fun _ c r => c.Forwardable e r false network) idx recs children) (m : Mem) (s : σ) :
    (d.copyHeader (DsonObj.copyFuel e network (fuel + 1)) children m s).isSome := by
  refine Dson.copyHeader_isSome (header_local h.headerIsLocal m) (fun n s => ?_) s
  have hcopied : Dson.Opened e recs idx (d.headerCopied children n) children :=
    ⟨h.kind, by simp [headerCopied], h.alloc, h.buf, h.type, h.fits, h.sorted, h.seated⟩
  exact hcopied.copyData_isSome (hrow.imp fun _ _ _ _ hwanted _ => hwanted) (d.headerCopied_copyIter children n h.kind) m s

/-- A call of an incremental emitter on a container. -/
theorem copyInternal_isSome {m : Mem} (hcopy : d.Copyable e children m false network) (s : σ) :
    (d.copyInternal e (DsonObj.copyFuel e network (fuel + 1)) network children m s).isSome := by
  have hproceeds := hcopy.proceeds h.kind
  unfold Dson.Copyable at hcopy
  rw [h.kind] at hcopy
  have hrow : Row e (fun k c r => d.Ahead false k → c.Forwardable e r false network) idx recs children :=
    h.row fun key c r hfind hread => hcopy.2.2 key c [] r hfind hread
  cases hstate : d.state with
  | ready =>
      have hall := hrow.imp (Q := fun _ c r => c.Forwardable e r false network) fun k _ c r hwanted =>
        hwanted (by rw [Dson.Ahead, hstate]; trivial)
      obtain ⟨h', -, htype', hprepared⟩ := h.prepareCopy (hcopy.2.1 hstate _ (header_local h.headerIsLocal m)) m
      have hturned := h.setHeader htype'
      have hready : Dson.Opened e recs idx { d with headerBuf := h', offset := 0, state := .copyingHeader } children :=
        ⟨hturned.kind, by simp, hturned.alloc, hturned.buf, hturned.type, hturned.fits, hturned.sorted, hturned.seated⟩
      rw [copyInternal_ready hstate, hprepared, Option.bind_some]
      exact hready.copyHeader_isSome hall m s
  | copyingHeader =>
      simp only [Dson.copyInternal, hstate]
      exact h.copyHeader_isSome (hrow.imp fun k _ c r hwanted => hwanted (by rw [Dson.Ahead, hstate])) m s
  | copyingData =>
      simp only [Dson.copyInternal, hstate]
      exact h.copyData_isSome (hrow.imp fun k _ c r hwanted hahead => hwanted (by rw [Dson.Ahead, hstate]; exact ⟨rfl, hahead⟩))
        (hproceeds hstate) m s
  | loadingHeader | loadingData | error =>
      simp only [Dson.copyInternal, hstate]
      rfl

end

/-- The stream emitter on a container. -/
theorem streamKind_isSome {network : Bool} {fuel : Nat} (hturns : d.headerBuf.Turns e network)
    (hrow : Row e (fun _ c r => c.Forwardable e r true network) idx recs children) (m : Mem) :
    (d.streamKind e (DsonObj.streamFuel e network (fuel + 1)) network children m).isSome := by
  obtain ⟨size, hsize⟩ := h.dataSize m
  have hturned := h.setHeader (hturns.dataType.trans h.type)
  have hsized := @setHeader _ _ _ _ _ hturned ((d.headerBuf.toOrder e network).setDataSize e size)
    ((Header.dataTypeOf_setDataSize _ _).trans hturned.type)
  refine streamKind_container_isSome h.kind hsize (headerToOrder_local h.headerIsLocal m e network)
    (setDataSizeInternal_local hturned.headerIsLocal m e size) (header_local hsized.headerIsLocal m) ?_
  rw [hsized.inner]
  exact hrow.streamMap_isSome (fun hsits hm hfits hcopy hone => hsits.streamFuel hm hfits hcopy hone)
    (fun hsits hm hfits hcopy => hsits.streamFuel_isSome hm hfits hcopy fuel)
    (m := m.hold recs) rfl

theorem streamInternal_isSome {network : Bool} {fuel : Nat} {m : Mem} (hcopy : d.Copyable e children m true network) :
    (d.streamInternal e (DsonObj.streamFuel e network (fuel + 1)) network children m).isSome := by
  unfold Dson.Copyable at hcopy
  rw [h.kind] at hcopy
  by_cases hstate : d.state = .ready
  · rw [streamInternal_ready hstate (by simp [h.kind])]
    refine h.streamKind_isSome (hcopy.2.1 hstate _ (header_local h.headerIsLocal m)) ?_ m
    exact h.row fun key c r hfind hread => hcopy.2.2 key c [] r hfind hread (by rw [Dson.Ahead, hstate]; trivial)
  · rw [Dson.streamInternal, if_pos hstate]
    rfl

end Dson.Opened

/-! ### Messages that have not been opened -/

namespace Dson.Unopened

variable {body : Bytes} {d : Dson} {children : ObjMap} (h : d.Unopened e body children) {network : Bool}

include h

section

variable {σ : Type} [ByteSink σ] {fuel : Nat} {copy : DsonObj → Mem → σ → Option (Result × DsonObj × Mem × σ)}

theorem copyData_isSome (hstate : d.state ≠ .error) (m : Mem) (s : σ) : (d.copyData copy children m s).isSome := by
  refine copyData_payload_isSome h.kind (copyBuf_isSome (t := body) (h.data hstate) ?_ ?_ s)
  · simp [BufPtr.tail, h.buf]
  · rw [bufSizeWithoutHeader, if_pos h.alloc, h.bufSize]

theorem copyHeader_isSome (hstate : d.state ≠ .error) (m : Mem) (s : σ) : (d.copyHeader copy children m s).isSome := by
  refine Dson.copyHeader_isSome (header_local h.headerIsLocal m) (fun n s => ?_) s
  exact (h.progressed (d.headerCopied_progressed children n) hstate).copyData_isSome (by simp [headerCopied]) m s

/-- A call of an incremental emitter on a message. -/
theorem copyInternal_isSome {m : Mem} (hcopy : d.Copyable e children m false network) (s : σ) :
    (d.copyInternal e (DsonObj.copyFuel e network (fuel + 1)) network children m s).isSome := by
  have hread := header_local h.headerIsLocal m
  cases hstate : d.state with
  | ready =>
      have hne : d.state ≠ .error := by simp [hstate]
      rw [copyInternal_ready hstate]
      unfold Dson.Copyable at hcopy
      cases hkind : d.dsonKind with
      | dsonContainer => exact absurd hkind h.kind
      | oneObjectInDataBuf =>
          rw [hkind] at hcopy
          obtain ⟨body', d', hre, hs, hprepared⟩ := h.prepareCopy_single (m := m) hkind hstate (hcopy hstate)
          rw [hprepared, Option.bind_some]
          exact hre.unopened.copyHeader_isSome (by simp [hs]) m s
      | dataBufNeedParse =>
          rw [hkind] at hcopy
          have hraw := hcopy hstate _ hread
          by_cases hparses : d.headerBuf.Parses e false network
          · rw [if_pos hparses] at hraw
            by_cases htype : d.headerBuf.dataTypeOf e = TypesMap.dsonContainer
            · rw [if_pos htype] at hraw
              obtain ⟨recs, idx, hbytes, hfits, hnodup, hparse, hopen⟩ := h.opens hne htype hraw.2.1
              rw [prepareCopy_parse hread hkind hparses hparse (by simp) (header_local hopen.headerIsLocal m),
                ← copyInternal_ready (d := { d with dsonKind := .dsonContainer }) hstate]
              exact hopen.copyInternal_isSome
                (h.copyable_opened hfits hbytes hkind hstate htype hopen hraw.1 hraw.2.2) s
            · rw [if_neg htype] at hraw
              have hparse := Dson.parseBuf_other children hne hread htype
              have hone := h.restated_kind .oneObjectInDataBuf (by simp)
              obtain ⟨body', d', hre, hs, hprepared⟩ := hone.unopened.prepareCopy_single (m := m) rfl hstate hraw
              rw [prepareCopy_parse hread hkind hparses hparse (by simp) (header_local hone.unopened.headerIsLocal m),
                hprepared, Option.bind_some]
              exact hre.unopened.copyHeader_isSome (by simp [hs]) m s
          · rw [if_neg hparses] at hraw
            obtain ⟨d', hre, hs, hprepared⟩ := h.prepareCopy_raw hkind hne hparses hraw m
            rw [hprepared, Option.bind_some]
            exact hre.unopened.copyHeader_isSome (by simp [hs]) m s
  | copyingHeader =>
      simp only [Dson.copyInternal, hstate]
      exact h.copyHeader_isSome (by simp [hstate]) m s
  | copyingData =>
      simp only [Dson.copyInternal, hstate]
      exact h.copyData_isSome (by simp [hstate]) m s
  | loadingHeader | loadingData | error =>
      simp only [Dson.copyInternal, hstate]
      rfl

end

theorem dataSize (m : Mem) : DsonObj.dataSize e m (.dson d children) = some (body.length : Int) := by
  rw [Dson.dataSize_header h.kind, header_local h.headerIsLocal, Option.map_some, h.size]

theorem streamRaw_isSome (hstate : d.state ≠ .error) (m : Mem) : (d.streamRaw e children m body.length).isSome :=
  Dson.streamRaw_isSome (t := body) h.kind (header_local h.headerIsLocal m) (h.data hstate)
    (by simp [BufPtr.tail, h.buf]) (le_refl _) children

/-- The stream emitter on a single object. -/
theorem streamKind_single_isSome {copy : DsonObj → Mem → Option (DsonObj × Mem × Bytes)}
    (hkind : d.dsonKind = .oneObjectInDataBuf) (hstate : d.state ≠ .error) {m : Mem} (hconv : d.Convertible e m network) :
    (d.streamKind e copy network children m).isSome := by
  obtain ⟨body', h', hto, hre, -⟩ := h.toOrder hconv
  rw [Dson.streamKind_one hkind, h.dataSize]
  simp only [Option.bind_eq_bind, Option.bind_some, hto, hre.unopened.dataSize, hre.length, ite_self]
  have hraw := hre.unopened.streamRaw_isSome (fun hs => hstate (hre.state.mp hs)) m
  rwa [hre.length] at hraw

/-- The stream emitter on a message. -/
theorem streamInternal_isSome {fuel : Nat} {m : Mem} (hcopy : d.Copyable e children m true network) :
    (d.streamInternal e (DsonObj.streamFuel e network (fuel + 1)) network children m).isSome := by
  have hread := header_local h.headerIsLocal m
  by_cases hstate : d.state = .ready
  · have hne : d.state ≠ .error := by simp [hstate]
    unfold Dson.Copyable at hcopy
    cases hkind : d.dsonKind with
    | dsonContainer => exact absurd hkind h.kind
    | oneObjectInDataBuf =>
        rw [hkind] at hcopy
        rw [streamInternal_ready hstate (by simp [hkind])]
        exact h.streamKind_single_isSome hkind hne (hcopy hstate)
    | dataBufNeedParse =>
        rw [hkind] at hcopy
        have hraw := hcopy hstate _ hread
        rw [streamInternal_unread hstate hkind hread]
        by_cases hparses : d.headerBuf.Parses e true network
        · rw [if_pos hparses] at hraw ⊢
          by_cases htype : d.headerBuf.dataTypeOf e = TypesMap.dsonContainer
          · rw [if_pos htype] at hraw
            obtain ⟨recs, idx, hbytes, hfits, hnodup, hparse, hopen⟩ := h.opens hne htype hraw.2.1
            rw [hparse, Option.bind_some, ← streamInternal_ready (d := { d with dsonKind := .dsonContainer }) hstate (by simp)]
            exact hopen.streamInternal_isSome (h.copyable_opened hfits hbytes hkind hstate htype hopen hraw.1 hraw.2.2)
          · rw [if_neg htype] at hraw
            have hone := h.restated_kind .oneObjectInDataBuf (by simp)
            rw [Dson.parseBuf_other children hne hread htype, Option.bind_some]
            exact hone.unopened.streamKind_single_isSome rfl hne hraw
        · rw [if_neg hparses, h.dataSize, Option.bind_some]
          exact h.streamRaw_isSome hne m
  · rw [Dson.streamInternal, if_pos hstate]
    rfl

end Dson.Unopened

/-! ### Messages without a payload -/

namespace Dson.Hollow

variable {d : Dson} {children : ObjMap} (h : d.Hollow children) {network : Bool}

include h

section

variable {σ : Type} [ByteSink σ] {copy : DsonObj → Mem → σ → Option (Result × DsonObj × Mem × σ)}

theorem copyData_isSome (hit : d.copyIter ≠ .unset) (m : Mem) (s : σ) : (d.copyData copy children m s).isSome := by
  refine copyData_container_isSome h.kind ?_
  rw [h.nil]
  exact copyMap_nil_isSome hit _ s

theorem copyHeader_isSome (m : Mem) (s : σ) : (d.copyHeader copy children m s).isSome := by
  refine Dson.copyHeader_isSome (header_local h.headerIsLocal m) (fun n s => ?_) s
  exact (h.progressed (d.headerCopied_progressed children n)).copyData_isSome (d.headerCopied_copyIter children n h.kind) m s

theorem copyInternal_isSome {m : Mem} (hcopy : d.Copyable e children m false network) (s : σ) :
    (d.copyInternal e copy network children m s).isSome := by
  have hproceeds := hcopy.proceeds h.kind
  unfold Dson.Copyable at hcopy
  rw [h.kind] at hcopy
  cases hstate : d.state with
  | ready =>
      obtain ⟨h', -, -, hprepared⟩ := h.prepareCopy (hcopy.2.1 hstate _ (header_local h.headerIsLocal m)) m
      have hprog : Dson.Progressed { d with headerBuf := h' }
          { d with headerBuf := h', offset := 0, state := .copyingHeader } := ⟨rfl, fun hs => by cases hs⟩
      rw [copyInternal_ready hstate, hprepared, Option.bind_some]
      exact ((h.setHeader h').progressed hprog).copyHeader_isSome m s
  | copyingHeader =>
      simp only [Dson.copyInternal, hstate]
      exact h.copyHeader_isSome m s
  | copyingData =>
      simp only [Dson.copyInternal, hstate]
      exact h.copyData_isSome (hproceeds hstate) m s
  | loadingHeader | loadingData | error =>
      simp only [Dson.copyInternal, hstate]
      rfl

end

theorem streamInternal_isSome {copy : DsonObj → Mem → Option (DsonObj × Mem × Bytes)} (m : Mem) :
    (d.streamInternal e copy network children m).isSome := by
  by_cases hstate : d.state = .ready
  · have hsize : DsonObj.dataSize e m (.dson d children) = some 0 := by
      rw [DsonObj.dataSize, h.kind, h.nil]
      rfl
    rw [streamInternal_ready hstate (by simp [h.kind])]
    refine streamKind_container_isSome h.kind hsize (headerToOrder_local h.headerIsLocal m e network)
      (setDataSizeInternal_local (h.setHeader _).headerIsLocal m e 0)
      (header_local ((h.setHeader _).setHeader _).headerIsLocal m) ?_
    rw [h.nil]
    rfl
  · rw [Dson.streamInternal, if_pos hstate]
    rfl

end Dson.Hollow

/-! ### Calls -/

/-- An entry point has fuel for the object and for what a parse can add. -/
theorem DsonObj.exists_depth (d : Dson) (children : ObjMap) : ∃ fuel, (DsonObj.dson d children).depth = fuel + 1 + 1 :=
  ⟨max 1 (DsonObj.depths children) - 1, by rw [DsonObj.depth]; omega⟩

section

variable {d : Dson} {children : ObjMap} {f : Handle} {m : Mem}

theorem Dson.SitsAt.call_isSome {recs : List Record} {i : Nat} {r : Record} {c : Dson} (h : c.SitsAt e recs i r)
    (hm : m.owner = recordsBytes recs) (hfits : r.Fits e) (hallowed : f.Allowed e c [] m) (hconv : f.IsConversion) :
    (f.call e (.dson c []) m).isSome := by
  cases f with
  | get | map => cases hconv
  | toOrder network =>
      obtain ⟨r', hto, -⟩ := h.kept_toOrder hm hfits (h.safe hm hfits hallowed)
      rw [Handle.call, hto]
      rfl
  | headerToOrder network =>
      rw [Handle.call, h.headerToOrder hm]
      rfl
  | copyToFd network fd | copyToBuf network fd =>
      rw [Handle.call, Option.isSome_map]
      exact h.copyInternal_isSome hm hfits hallowed fd
  | copyToStream network =>
      rw [Handle.call, Option.isSome_map]
      exact h.streamInternal_isSome hm hfits hallowed

theorem Dson.Unopened.call_isSome {body : Bytes} (h : d.Unopened e body children) (hallowed : f.Allowed e d children m)
    (hconv : f.IsConversion) : (f.call e (.dson d children) m).isSome := by
  obtain ⟨fuel, hfuel⟩ := DsonObj.exists_depth d children
  cases f with
  | get | map => cases hconv
  | toOrder network =>
      obtain ⟨body', h', hto, -⟩ := h.toOrder hallowed
      rw [Handle.call, hto]
      rfl
  | headerToOrder network =>
      rw [Handle.call, headerToOrder_local h.headerIsLocal]
      rfl
  | copyToFd network fd | copyToBuf network fd =>
      rw [Handle.call, Option.isSome_map, DsonObj.copyTo, hfuel, DsonObj.copyFuel]
      exact h.copyInternal_isSome hallowed fd
  | copyToStream network =>
      rw [Handle.call, Option.isSome_map, DsonObj.copyToStream, hfuel, DsonObj.streamFuel]
      exact h.streamInternal_isSome hallowed

theorem Dson.Opened.call_isSome {recs : List Record} {idx : Int → Nat} (h : d.Opened e recs idx children)
    (hallowed : f.Allowed e d children m) (hconv : f.IsConversion) : (f.call e (.dson d children) m).isSome := by
  obtain ⟨fuel, hfuel⟩ := DsonObj.exists_depth d children
  cases f with
  | get | map => cases hconv
  | toOrder network =>
      rw [Handle.call, h.toOrder]
      rfl
  | headerToOrder network =>
      rw [Handle.call, headerToOrder_local h.headerIsLocal]
      rfl
  | copyToFd network fd | copyToBuf network fd =>
      rw [Handle.call, Option.isSome_map, DsonObj.copyTo, hfuel, DsonObj.copyFuel]
      exact h.copyInternal_isSome hallowed fd
  | copyToStream network =>
      rw [Handle.call, Option.isSome_map, DsonObj.copyToStream, hfuel, DsonObj.streamFuel]
      exact h.streamInternal_isSome hallowed

theorem Dson.Hollow.call_isSome (h : d.Hollow children) (hallowed : f.Allowed e d children m) (hconv : f.IsConversion) :
    (f.call e (.dson d children) m).isSome := by
  obtain ⟨fuel, hfuel⟩ := DsonObj.exists_depth d children
  cases f with
  | get | map => cases hconv
  | toOrder network =>
      obtain ⟨h', hto, -⟩ := h.toOrder hallowed
      rw [Handle.call, hto]
      rfl
  | headerToOrder network =>
      rw [Handle.call, headerToOrder_local h.headerIsLocal]
      rfl
  | copyToFd network fd | copyToBuf network fd =>
      rw [Handle.call, Option.isSome_map, DsonObj.copyTo, hfuel, DsonObj.copyFuel]
      exact h.copyInternal_isSome hallowed fd
  | copyToStream network =>
      rw [Handle.call, Option.isSome_map, DsonObj.copyToStream, hfuel, DsonObj.streamFuel]
      exact h.streamInternal_isSome m

end

end LeanDson
