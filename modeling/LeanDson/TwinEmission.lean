import LeanDson.Twins

/-! Emissions of twins. A finite double that goes to network order fills its gap; where the emission gets to no other
gap, the same bytes go out in both runs. -/

namespace LeanDson

open ByteSink

variable {e : Endian}

/-! ### Conversions of doubles -/

/-- The encoding of a finite double fills its thirteen bytes. -/
theorem doubleInBufToNetworkOrder_rest (e : Endian) {x : Binary64} (hfin : x.isFinite = true) {rest₁ rest₂ : Bytes}
    (hlen₁ : rest₁.length = 5) (hlen₂ : rest₂.length = 5) :
    doubleInBufToNetworkOrder e (bytesOf e 8 x.toNat ++ rest₁) =
      doubleInBufToNetworkOrder e (bytesOf e 8 x.toNat ++ rest₂) := by
  obtain ⟨hnan, hinf⟩ := Binary64.isFinite_iff.mp hfin
  have hread : ∀ rest : Bytes, readDouble e (bytesOf e 8 x.toNat ++ rest) = some x := by
    intro rest
    rw [readDouble, if_neg (by simp), List.take_left' (bytesOf_length e 8 x.toNat),
      natOf_bytesOf e 8 _ x.toNat_lt, Binary64.ofNat_toNat]
  have hpoke : ∀ {rest new : Bytes}, rest.length = 5 → new.length = 13 →
      poke (bytesOf e 8 x.toNat ++ rest) new = some new := by
    intro rest new hrest hnew
    rw [poke, if_neg (by simp [hrest, hnew]), List.drop_eq_nil_of_le (by simp [hrest, hnew]), List.append_nil]
  simp only [doubleInBufToNetworkOrder, hread, Option.bind_eq_bind, Option.bind_some, hnan, hinf, Bool.false_eq_true,
    if_false]
  rw [hpoke hlen₁ (by simp), hpoke hlen₂ (by simp)]

theorem Unwritten.toNetwork {x : Binary64} {d₁ d₂ : Dson} (h : Unwritten .little x d₁ d₂) (hfin : x.isFinite = true)
    (m : Mem) : d₁.toOrder .little true m = d₂.toOrder .little true m := by
  obtain ⟨h, rest₁, rest₂, hhost, htype, hlen₁, hlen₂, rfl, rfl⟩ := h
  have hin : ¬h.inOrder .little true := by
    have hmark : h.markByteOrder = markHostOrder .little := by simpa [Header.isHostOrder] using hhost
    simp [Header.inOrder, Header.isNetworkOrder, hmark]
    decide
  have hconv : converterTo .little true (h.dataTypeOf .little) = some fun _ data => doubleInBufToNetworkOrder .little data := by
    rw [htype]
    rfl
  have hrecord := Dson.isRecord_own (d := Dson.doubleOver .little h x []) rfl (by simp [Dson.doubleOver, Dson.uninit]) m
  have hrun : ∀ rest, (Dson.doubleOver .little h x rest).toOrder .little true m =
      (convertRecord .little true h (bytesOf .little 8 x.toNat ++ rest)).map fun p =>
        ({ Dson.doubleOver .little h x [] with headerBuf := p.1, buf := .own p.2 }, m) := fun rest =>
    hrecord.toOrder .little h (bytesOf .little 8 x.toNat ++ rest) true
  rw [hrun, hrun, convertRecord_some hin hconv, convertRecord_some hin hconv,
    doubleInBufToNetworkOrder_rest .little hfin hlen₁ hlen₂]

/-! ### Incremental emissions -/

theorem TwinMaps.prepareHeader {g : Gaps} {children₁ children₂ : ObjMap} (h : TwinMaps e g children₁ children₂)
    (network : Bool) (d : Dson) (m : Mem) :
    d.prepareHeader e network children₁ m = d.prepareHeader e network children₂ m := by
  rw [Dson.prepareHeader, Dson.prepareHeader, (h.dson d).dataSize]

theorem TwinMaps.prepareCopy {g : Gaps} {children₁ children₂ : ObjMap} (h : TwinMaps e g children₁ children₂)
    (network : Bool) (d : Dson) (m : Mem) :
    Option.Rel (fun p q => p.1 = q.1 ∧ TwinMaps e g p.2.1 q.2.1 ∧ p.2.2 = q.2.2) (d.prepareCopy e network children₁ m)
      (d.prepareCopy e network children₂ m) := by
  rw [Dson.prepareCopy_eq, Dson.prepareCopy_eq]
  refine rel_bind (rel_refl (r := Eq) (fun _ => rfl) (d.header m)) ?_
  rintro header _ rfl
  have hparsed : Option.Rel (fun p q => p.1 = q.1 ∧ TwinMaps e g p.2 q.2)
      (if d.dsonKind = .dataBufNeedParse ∧ (header.isHostOrder e ∧ network ∨ header.isNetworkOrder e ∧ ¬network) then
        d.parseBuf e children₁ m else some (d, children₁))
      (if d.dsonKind = .dataBufNeedParse ∧ (header.isHostOrder e ∧ network ∨ header.isNetworkOrder e ∧ ¬network) then
        d.parseBuf e children₂ m else some (d, children₂)) := by
    split_ifs
    · exact h.parseBuf d m
    · exact .some ⟨rfl, h⟩
  refine rel_bind hparsed ?_
  rintro ⟨d, map₁⟩ ⟨_, map₂⟩ ⟨rfl, hmap⟩
  dsimp only
  rw [hmap.prepareHeader]
  refine rel_map (rel_refl (r := Eq) (fun _ => rfl) _) ?_
  rintro p _ rfl
  exact ⟨rfl, hmap, rfl⟩

theorem TwinAll.mapBegin {g : Gaps} {children₁ children₂ : ObjMap} (h : TwinAll e g children₁ children₂) :
    Dson.mapBegin children₁ = Dson.mapBegin children₂ := by
  have hkeys := h.keys
  cases children₁ with
  | nil =>
      cases children₂ with
      | nil => rfl
      | cons p rest => cases hkeys
  | cons p rest₁ =>
      cases children₂ with
      | nil => cases hkeys
      | cons q rest₂ =>
          rw [KeyMap.keys_cons, KeyMap.keys_cons, List.cons.injEq] at hkeys
          rw [Dson.mapBegin, Dson.mapBegin, hkeys.1]

section

variable {σ : Type} {copy : DsonObj → Mem → σ → Option (Result × DsonObj × Mem × σ)}
  {closes : Int → DsonObj → Mem → σ → Bool} {g : Gaps}

/-- A call of an emitter on two twins: the same answer, memory and sink, and twins again. -/
def TwinCalls (e : Endian) (g : Gaps) (r₁ r₂ : Option (Result × DsonObj × Mem × σ)) : Prop :=
  Option.Rel (fun p q => p.1 = q.1 ∧ Twin e g p.2.1 q.2.1 ∧ p.2.2 = q.2.2) r₁ r₂

theorem TwinAll.copyMap (hcopy : ∀ key {o₁ o₂ : DsonObj} (m : Mem) (s : σ), closes key o₁ m s = true →
      Twin e (g.child key) o₁ o₂ → TwinCalls e (g.child key) (copy o₁ m s) (copy o₂ m s)) :
    ∀ (it : CopyIter) {children₁ children₂ : ObjMap} (m : Mem) (s : σ),
      Dson.closesMap copy closes it children₁ m s = true → TwinAll e g children₁ children₂ →
    Option.Rel (fun p q => p.1 = q.1 ∧ p.2.1 = q.2.1 ∧ TwinAll e g p.2.2.1 q.2.2.1 ∧ p.2.2.2 = q.2.2.2 ∧
        KeyMap.keys p.2.2.1 = KeyMap.keys children₁)
      (Dson.copyMap copy it children₁ m s) (Dson.copyMap copy it children₂ m s)
  | .unset, _, _, _, _, _, _ => by
      rw [Dson.copyMap, Dson.copyMap]
      exact .none
  | .finished, _, _, _, _, _, h => by
      rw [Dson.copyMap, Dson.copyMap]
      exact .some ⟨rfl, rfl, h, rfl, rfl⟩
  | .node _, [], [], _, _, _, h => by
      rw [Dson.copyMap]
      exact .some ⟨rfl, rfl, h, rfl, rfl⟩
  | .node key, (k₁, o₁) :: rest₁, (k₂, o₂) :: rest₂, m, s, hclose, h => by
      rw [TwinAll] at h
      obtain ⟨rfl, ho, hrest⟩ := h
      rw [Dson.closesMap] at hclose
      rw [Dson.copyMap, Dson.copyMap]
      split_ifs at hclose ⊢
      · refine rel_bind (TwinAll.copyMap hcopy (.node key) m s hclose hrest) ?_
        rintro ⟨r, it, map₁, m, s⟩ ⟨_, _, map₂, _⟩ ⟨rfl, rfl, hmap, heq, hkeys⟩
        cases heq
        refine .some ⟨rfl, rfl, ?_, rfl, by simp only [KeyMap.keys_cons, hkeys]⟩
        rw [TwinAll]
        exact ⟨rfl, ho, hmap⟩
      · obtain ⟨hhead, htail⟩ := Bool.and_eq_true_iff.mp hclose
        refine rel_bind_all (hcopy k₁ m s hhead ho) htail ?_
        rintro ⟨r, o₁, m, s⟩ ⟨_, o₂, _⟩ hclose ⟨rfl, ho, heq⟩
        cases heq
        dsimp only at hclose ⊢
        split_ifs with hready
        · refine .some ⟨rfl, rfl, ?_, rfl, rfl⟩
          rw [TwinAll]
          exact ⟨rfl, ho, hrest⟩
        · rw [decide_eq_false hready, Bool.false_or] at hclose
          rw [← hrest.mapBegin]
          refine rel_bind (TwinAll.copyMap hcopy _ m s hclose hrest) ?_
          rintro ⟨r, it, map₁, m, s⟩ ⟨_, _, map₂, _⟩ ⟨rfl, rfl, hmap, heq, hkeys⟩
          cases heq
          refine .some ⟨rfl, rfl, ?_, rfl, by simp only [KeyMap.keys_cons, hkeys]⟩
          rw [TwinAll]
          exact ⟨rfl, ho, hmap⟩
  | .node _, [], _ :: _, _, _, _, h => by simp [TwinAll] at h
  | .node _, _ :: _, [], _, _, _, h => by simp [TwinAll] at h

variable [ByteSink σ] {children₁ children₂ : ObjMap} (hcopy : ∀ key {o₁ o₂ : DsonObj} (m : Mem) (s : σ),
  closes key o₁ m s = true → Twin e (g.child key) o₁ o₂ → TwinCalls e (g.child key) (copy o₁ m s) (copy o₂ m s))
include hcopy

theorem TwinMaps.copyData (h : TwinMaps e g children₁ children₂) {d : Dson} {m : Mem} {s : σ}
    (hclose : d.closesData copy closes children₁ m s = true) :
    TwinCalls e g (d.copyData copy children₁ m s) (d.copyData copy children₂ m s) := by
  rw [Dson.copyData, Dson.copyData]
  split_ifs with hkind
  · rw [Dson.closesData, decide_eq_false (not_not.mpr hkind), Bool.false_or] at hclose
    refine rel_bind (h.all.copyMap hcopy d.copyIter (d.inner m) s hclose) ?_
    rintro ⟨r, it, map₁, inside, s⟩ ⟨_, _, map₂, _⟩ ⟨rfl, rfl, hmap, heq, hkeys⟩
    cases heq
    have hmaps : TwinMaps e g map₁ map₂ := ⟨h.sorted.congr hkeys, hmap⟩
    dsimp only
    split_ifs
    · exact .some ⟨rfl, hmaps.dson _, rfl⟩
    · exact .some ⟨rfl, hmaps.dson _, rfl⟩
  · refine rel_bind (rel_refl (r := Eq) (fun _ => rfl) (d.copyBuf m s)) ?_
    rintro ⟨r, d, s⟩ _ rfl
    exact .some ⟨rfl, h.dson d, rfl⟩

theorem TwinMaps.copyHeader (h : TwinMaps e g children₁ children₂) {d : Dson} {m : Mem} {s : σ}
    (hclose : d.closesHeader copy closes children₁ m s = true) :
    TwinCalls e g (d.copyHeader copy children₁ m s) (d.copyHeader copy children₂ m s) := by
  have hcopied : ∀ n, d.headerCopied children₂ n = d.headerCopied children₁ n := fun n => by
    rw [Dson.headerCopied, Dson.headerCopied, h.all.mapBegin]
  rw [Dson.copyHeader_eq, Dson.copyHeader_eq]
  rw [Dson.closesHeader] at hclose
  split_ifs with hoff
  · exact .some ⟨rfl, h.dson d, rfl⟩
  · rw [decide_eq_false hoff, Bool.false_or] at hclose
    refine rel_bind_all (rel_refl (r := Eq) (fun _ => rfl) (d.header m)) hclose ?_
    rintro header _ hclose rfl
    rcases hw : write s (header.bytes.drop d.offset) with ⟨_ | n, s⟩
    · exact .some ⟨rfl, h.dson _, rfl⟩
    · rw [hw] at hclose
      dsimp only at hclose ⊢
      split_ifs with hmore
      · exact .some ⟨rfl, h.dson _, rfl⟩
      · rw [decide_eq_false hmore, Bool.false_or] at hclose
        rw [hcopied]
        exact h.copyData hcopy hclose

theorem TwinMaps.copyInternal (h : TwinMaps e g children₁ children₂) {network : Bool} {d : Dson} {m : Mem} {s : σ}
    (hclose : d.closesInternal e copy closes network children₁ m s = true) :
    TwinCalls e g (d.copyInternal e copy network children₁ m s) (d.copyInternal e copy network children₂ m s) := by
  rw [Dson.closesInternal] at hclose
  rw [Dson.copyInternal, Dson.copyInternal]
  cases hstate : d.state with
  | ready =>
      rw [hstate] at hclose
      refine rel_bind_all (h.prepareCopy network d m) hclose ?_
      rintro ⟨d, map₁, m⟩ ⟨_, map₂, _⟩ hclose ⟨rfl, hmap, rfl⟩
      exact hmap.copyHeader hcopy hclose
  | copyingHeader =>
      rw [hstate] at hclose
      exact h.copyHeader hcopy hclose
  | copyingData =>
      rw [hstate] at hclose
      exact h.copyData hcopy hclose
  | loadingHeader => exact .some ⟨rfl, h.dson d, rfl⟩
  | loadingData => exact .some ⟨rfl, h.dson d, rfl⟩
  | error => exact .some ⟨rfl, h.dson d, rfl⟩

end

/-- A double that is converted on the way out is the same object in both runs from then on. -/
theorem Unwritten.prepareCopy {x : Binary64} {d₁ d₂ : Dson} (h : Unwritten .little x d₁ d₂) (hfin : x.isFinite = true)
    (m : Mem) : d₁.prepareCopy .little true [] m = d₂.prepareCopy .little true [] m := by
  have horder := h.toNetwork hfin m
  obtain ⟨h, rest₁, rest₂, -, -, -, -, rfl, rfl⟩ := h
  have hprepare : ∀ rest, (Dson.doubleOver .little h x rest).prepareCopy .little true [] m =
      ((Dson.doubleOver .little h x rest).toOrder .little true m).map fun q =>
        ({ q.1 with offset := 0, state := .copyingHeader }, [], q.2) := by
    intro rest
    rw [Dson.prepareCopy_eq]
    rfl
  rw [hprepare, hprepare, horder]

theorem Twin.copyFuel {σ : Type} [ByteSink σ] {network : Bool} (fuel : Nat) : ∀ {g : Gaps} {o₁ o₂ : DsonObj} (m : Mem)
    (s : σ), g.closesCopy e network fuel o₁ m s = true → Twin e g o₁ o₂ →
      TwinCalls e g (o₁.copyFuel e network fuel m s) (o₂.copyFuel e network fuel m s) := by
  induction fuel with
  | zero => exact fun _ _ _ _ => .none
  | succ fuel ih =>
      intro g o₁ o₂ m s hg h
      obtain ⟨rfl, ho⟩ | ⟨d, children₁, children₂, rfl, rfl, hall⟩ | ⟨x, d₁, d₂, rfl, hd, rfl, rfl⟩ := h.cases
      · cases o₁ with
        | dson d children => exact absurd rfl (ho d children)
        | string o => exact .some ⟨rfl, Twin.custom (by simp), rfl⟩
        | route o => exact .some ⟨rfl, Twin.custom (by simp), rfl⟩
      · rw [Gaps.closesCopy, Bool.and_eq_true] at hg
        exact hall.copyInternal (fun key o₁ o₂ m s hc ho => ih m s hc ho) hg.2
      · rw [Gaps.closesCopy, Bool.and_eq_true, Gaps.filled, Bool.and_eq_true, Bool.and_eq_true, beq_iff_eq] at hg
        obtain ⟨⟨⟨rfl, rfl⟩, hfin⟩, hg⟩ := hg
        have hrun : ∀ {d : Dson}, d.state = .ready → DsonObj.copyFuel .little true (fuel + 1) (.dson d []) m s =
            (d.prepareCopy .little true [] m).bind fun p =>
              p.1.copyHeader (DsonObj.copyFuel .little true fuel) p.2.1 p.2.2 s := by
          intro d hready
          rw [DsonObj.copyFuel, Dson.copyInternal, hready]
          rfl
        have hready : d₁.state = .ready ∧ d₂.state = .ready := by
          obtain ⟨h, rest₁, rest₂, -, -, -, -, rfl, rfl⟩ := hd
          exact ⟨rfl, rfl⟩
        rw [Dson.closesInternal, hready.1] at hg
        dsimp only at hg
        rw [hd.prepareCopy hfin] at hg
        rw [hrun hready.1, hrun hready.2, hd.prepareCopy hfin]
        refine rel_bind_all ((TwinMaps.nil (.behind x)).prepareCopy true d₂ m) hg ?_
        rintro ⟨d, map₁, m⟩ ⟨_, map₂, _⟩ hclose ⟨rfl, hmap, rfl⟩
        exact hmap.copyHeader (fun key o₁ o₂ m s hc ho => ih m s hc ho) hclose

theorem Twin.copyTo {σ : Type} [ByteSink σ] {network : Bool} {g : Gaps} {o₁ o₂ : DsonObj} (h : Twin e g o₁ o₂)
    {m : Mem} {s : σ} (hg : g.closesCopy e network o₁.depth o₁ m s = true) :
    TwinCalls e g (o₁.copyTo e network m s) (o₂.copyTo e network m s) := by
  rw [DsonObj.copyTo, DsonObj.copyTo, ← h.depth]
  exact Twin.copyFuel _ m s hg h

/-! ### Emissions to a stream -/

section

variable {copy : DsonObj → Mem → Option (DsonObj × Mem × Bytes)} {closes : Int → DsonObj → Mem → Bool} {g : Gaps}

/-- A call of the stream emitter on two twins. -/
def TwinStreams (e : Endian) (g : Gaps) (r₁ r₂ : Option (DsonObj × Mem × Bytes)) : Prop :=
  Option.Rel (fun p q => Twin e g p.1 q.1 ∧ p.2 = q.2) r₁ r₂

theorem TwinAll.streamMap (hcopy : ∀ key {o₁ o₂ : DsonObj} (m : Mem), closes key o₁ m = true →
      Twin e (g.child key) o₁ o₂ → TwinStreams e (g.child key) (copy o₁ m) (copy o₂ m)) :
    ∀ {children₁ children₂ : ObjMap} (m : Mem), Dson.closesStreamMap copy closes children₁ m = true →
      TwinAll e g children₁ children₂ →
    Option.Rel (fun p q => TwinAll e g p.1 q.1 ∧ p.2 = q.2 ∧ KeyMap.keys p.1 = KeyMap.keys children₁)
      (Dson.streamMap copy children₁ m) (Dson.streamMap copy children₂ m)
  | [], [], _, _, h => .some ⟨h, rfl, rfl⟩
  | (k₁, o₁) :: rest₁, (k₂, o₂) :: rest₂, m, hclose, h => by
      rw [TwinAll] at h
      obtain ⟨rfl, ho, hrest⟩ := h
      rw [Dson.closesStreamMap] at hclose
      obtain ⟨hhead, htail⟩ := Bool.and_eq_true_iff.mp hclose
      rw [Dson.streamMap, Dson.streamMap]
      refine rel_bind_all (hcopy k₁ m hhead ho) htail ?_
      rintro ⟨o₁, m, bs⟩ ⟨o₂, _⟩ hclose ⟨ho, heq⟩
      cases heq
      refine rel_bind (TwinAll.streamMap hcopy m hclose hrest) ?_
      rintro ⟨map₁, m, more⟩ ⟨map₂, _⟩ ⟨hmap, heq, hkeys⟩
      cases heq
      refine .some ⟨?_, rfl, by simp only [KeyMap.keys_cons, hkeys]⟩
      rw [TwinAll]
      exact ⟨rfl, ho, hmap⟩
  | [], _ :: _, _, _, h => by simp [TwinAll] at h
  | _ :: _, [], _, _, h => by simp [TwinAll] at h

theorem TwinMaps.streamRaw {children₁ children₂ : ObjMap} (h : TwinMaps e g children₁ children₂) (d : Dson) (m : Mem)
    (size : Int) : TwinStreams e g (d.streamRaw e children₁ m size) (d.streamRaw e children₂ m size) := by
  rw [Dson.streamRaw, Dson.streamRaw]
  refine rel_bind (rel_refl (r := Eq) (fun _ => rfl) (d.streamHeader e m size)) ?_
  rintro ⟨d, m, head⟩ _ rfl
  refine rel_bind (rel_refl (r := Eq) (fun _ => rfl) (d.streamData m size)) ?_
  rintro payload _ rfl
  exact .some ⟨h.dson d, rfl⟩

variable {children₁ children₂ : ObjMap} (hcopy : ∀ key {o₁ o₂ : DsonObj} (m : Mem), closes key o₁ m = true →
  Twin e (g.child key) o₁ o₂ → TwinStreams e (g.child key) (copy o₁ m) (copy o₂ m))
include hcopy

theorem TwinMaps.streamKind (h : TwinMaps e g children₁ children₂) {network : Bool} {d : Dson} {m : Mem}
    (hclose : d.closesStreamKind e copy closes network children₁ m = true) :
    TwinStreams e g (d.streamKind e copy network children₁ m) (d.streamKind e copy network children₂ m) := by
  cases hkind : d.dsonKind with
  | dataBufNeedParse =>
      rw [Dson.streamKind, Dson.streamKind, hkind]
      exact .some ⟨h.dson d, rfl⟩
  | oneObjectInDataBuf =>
      rw [Dson.streamKind_one hkind, Dson.streamKind_one hkind, (h.dson d).dataSize]
      refine rel_bind (rel_refl (r := Eq) (fun _ => rfl) _) ?_
      rintro before _ rfl
      refine rel_bind (rel_refl (r := Eq) (fun _ => rfl) (d.toOrder e network m)) ?_
      rintro ⟨d, m⟩ _ rfl
      dsimp only
      rw [(h.dson d).dataSize]
      refine rel_bind (rel_refl (r := Eq) (fun _ => rfl) _) ?_
      rintro after _ rfl
      exact h.streamRaw d m _
  | dsonContainer =>
      rw [Dson.closesStreamKind, decide_eq_false (not_not.mpr hkind), Bool.false_or] at hclose
      rw [Dson.streamKind_container hkind, Dson.streamKind_container hkind, ← (h.dson d).dataSize]
      refine rel_bind_all (rel_refl (r := Eq) (fun _ => rfl) _) hclose ?_
      rintro size _ hclose rfl
      refine rel_bind_all (rel_refl (r := Eq) (fun _ => rfl) (d.headerToOrder e network m)) hclose ?_
      rintro ⟨d, m⟩ _ hclose rfl
      refine rel_bind_all (rel_refl (r := Eq) (fun _ => rfl) (d.streamHeader e m size)) hclose ?_
      rintro ⟨d, m, head⟩ _ hclose rfl
      refine rel_bind (h.all.streamMap hcopy (d.inner m) hclose) ?_
      rintro ⟨map₁, inside, bs⟩ ⟨map₂, _⟩ ⟨hmap, heq, hkeys⟩
      cases heq
      exact .some ⟨TwinMaps.dson ⟨h.sorted.congr hkeys, hmap⟩ _, rfl⟩

theorem TwinMaps.streamInternal (h : TwinMaps e g children₁ children₂) {network : Bool} {d : Dson} {m : Mem}
    (hclose : d.closesStream e copy closes network children₁ m = true) :
    TwinStreams e g (d.streamInternal e copy network children₁ m) (d.streamInternal e copy network children₂ m) := by
  rw [Dson.streamInternal, Dson.streamInternal]
  by_cases hready : d.state = .ready
  · rw [if_neg (not_not.mpr hready), if_neg (not_not.mpr hready)]
    rw [Dson.closesStream, decide_eq_false (not_not.mpr hready), Bool.false_or] at hclose
    by_cases hkind : d.dsonKind = .dataBufNeedParse
    · have hfits : ∀ fits : Bool, (fits || (d.parseBuf e children₁ m).all fun p =>
            p.1.closesStreamKind e copy closes network p.2 m) = true → TwinStreams e g
          (if fits then (DsonObj.dataSize e m (.dson d children₁)).bind fun size => d.streamRaw e children₁ m size
            else (d.parseBuf e children₁ m).bind fun p => p.1.streamKind e copy network p.2 m)
          (if fits then (DsonObj.dataSize e m (.dson d children₂)).bind fun size => d.streamRaw e children₂ m size
            else (d.parseBuf e children₂ m).bind fun p => p.1.streamKind e copy network p.2 m) := by
        intro fits hclose
        cases fits with
        | true =>
            rw [if_pos rfl, if_pos rfl, (h.dson d).dataSize]
            refine rel_bind (rel_refl (r := Eq) (fun _ => rfl) _) ?_
            rintro size _ rfl
            exact h.streamRaw d m size
        | false =>
            rw [if_neg (by simp), if_neg (by simp)]
            refine rel_bind_all (h.parseBuf d m) hclose ?_
            rintro ⟨d, map₁⟩ ⟨_, map₂⟩ hclose ⟨rfl, hmap⟩
            exact hmap.streamKind hcopy hclose
      rw [if_pos hkind] at hclose
      rw [if_pos hkind, if_pos hkind]
      cases network with
      | true =>
          rw [if_pos rfl] at hclose
          refine rel_bind_all (rel_refl (r := Eq) (fun _ => rfl) (d.isNetworkOrder e m)) hclose ?_
          rintro fits _ hclose rfl
          exact hfits fits hclose
      | false =>
          rw [if_neg (by simp)] at hclose
          refine rel_bind_all (rel_refl (r := Eq) (fun _ => rfl) (d.isHostOrder e m)) hclose ?_
          rintro fits _ hclose rfl
          exact hfits fits hclose
    · rw [if_neg hkind] at hclose
      rw [if_neg hkind, if_neg hkind]
      exact h.streamKind hcopy hclose
  · rw [if_pos hready, if_pos hready]
    exact .some ⟨h.dson d, rfl⟩

end

/-- A double that is converted on the way to a stream is written alike in both runs. -/
theorem Unwritten.streamInternal {copy : DsonObj → Mem → Option (DsonObj × Mem × Bytes)} {x : Binary64} {d₁ d₂ : Dson}
    (h : Unwritten .little x d₁ d₂) (hfin : x.isFinite = true) (m : Mem) :
    d₁.streamInternal .little copy true [] m = d₂.streamInternal .little copy true [] m := by
  have horder := h.toNetwork hfin m
  have hsize := h.twin.dataSize m
  obtain ⟨h, rest₁, rest₂, -, -, -, -, rfl, rfl⟩ := h
  have hstream : ∀ rest, (Dson.doubleOver .little h x rest).streamInternal .little copy true [] m =
      (Dson.doubleOver .little h x rest).streamKind .little copy true [] m := fun rest =>
    Dson.streamInternal_ready rfl (by simp [Dson.doubleOver]) [] m
  rw [hstream, hstream, Dson.streamKind_one rfl, Dson.streamKind_one rfl, hsize, horder]

theorem Twin.streamFuel {network : Bool} (fuel : Nat) : ∀ {g : Gaps} {o₁ o₂ : DsonObj} (m : Mem),
    g.closesStream e network fuel o₁ m = true → Twin e g o₁ o₂ →
      TwinStreams e g (o₁.streamFuel e network fuel m) (o₂.streamFuel e network fuel m) := by
  induction fuel with
  | zero => exact fun _ _ _ => .none
  | succ fuel ih =>
      intro g o₁ o₂ m hg h
      obtain ⟨rfl, ho⟩ | ⟨d, children₁, children₂, rfl, rfl, hall⟩ | ⟨x, d₁, d₂, rfl, hd, rfl, rfl⟩ := h.cases
      · cases o₁ with
        | dson d children => exact absurd rfl (ho d children)
        | string o => exact .some ⟨Twin.custom (by simp), rfl⟩
        | route o => exact .some ⟨Twin.custom (by simp), rfl⟩
      · rw [Gaps.closesStream, Bool.and_eq_true] at hg
        exact hall.streamInternal (fun key o₁ o₂ m hc ho => ih m hc ho) hg.2
      · rw [Gaps.closesStream, Bool.and_eq_true, Gaps.filled, Bool.and_eq_true, Bool.and_eq_true, beq_iff_eq] at hg
        obtain ⟨⟨⟨rfl, rfl⟩, hfin⟩, -⟩ := hg
        rw [DsonObj.streamFuel, DsonObj.streamFuel, hd.streamInternal hfin]
        refine (TwinMaps.nil (.behind x)).streamInternal (fun key o₁ o₂ m hc ho => ih m hc ho) ?_
        obtain ⟨h, rest₁, rest₂, -, -, -, -, rfl, rfl⟩ := hd
        rfl

theorem Twin.copyToStream {network : Bool} {g : Gaps} {o₁ o₂ : DsonObj} (h : Twin e g o₁ o₂) {m : Mem}
    (hg : g.closesStream e network o₁.depth o₁ m = true) :
    TwinStreams e g (o₁.copyToStream e network m) (o₂.copyToStream e network m) := by
  rw [DsonObj.copyToStream, DsonObj.copyToStream, ← h.depth]
  exact Twin.streamFuel _ m hg h

end LeanDson
