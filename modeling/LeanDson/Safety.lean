import LeanDson.Inversion
import LeanDson.Loading

/-! The positions of a load. An object that is loading its header has a position in `header_`, one that is
loading its payload owns a block of the size it has kept and has a position in that; no operation on the
object leads out of these states otherwise than by ending the load. -/

namespace LeanDson

namespace Dson

/-- The position of a load lies in the memory that the load writes to. -/
structure LoadSafe (d : Dson) : Prop where
  header : d.state = .loadingHeader → d.offset < headerSize
  data : d.state = .loadingData → d.wasBufAllocation = true ∧ ∃ block, d.buf = .own block ∧
    d.bufSize = block.length ∧ block.length ≤ 2 ^ 30 ∧ d.offset < block.length

variable {e : Endian} {d d' : Dson} {m m' : Mem}

/-- An object that is not loading. -/
theorem LoadSafe.of_state (hheader : d.state ≠ .loadingHeader) (hdata : d.state ≠ .loadingData) : d.LoadSafe :=
  ⟨fun h => absurd h hheader, fun h => absurd h hdata⟩

/-- The kind and the iterator of an object say nothing of a load, nor do the bytes of its block. -/
theorem LoadSafe.congr (h : d.LoadSafe) (hstate : d'.state = d.state) (hoffset : d'.offset = d.offset)
    (halloc : d'.wasBufAllocation = d.wasBufAllocation) (hsize : d'.bufSize = d.bufSize)
    (hbuf : d.buf.SameSize d'.buf) : d'.LoadSafe where
  header hs := by
    rw [hoffset]
    exact h.header (hstate ▸ hs)
  data hs := by
    obtain ⟨ha, block, hown, hb, hmax, hoff⟩ := h.data (hstate ▸ hs)
    obtain ⟨block', hown', hlen⟩ := (hown ▸ hbuf).of_own
    rw [halloc, hsize, hoffset]
    exact ⟨ha, block', hown', by rw [hb, hlen], by omega, by omega⟩

theorem Rewrites.loadSafe (hrun : d.Rewrites m d' m') (h : d.LoadSafe) : d'.LoadSafe :=
  h.congr hrun.state hrun.offset hrun.wasBufAllocation hrun.bufSize hrun.buf

/-! ### Loads -/

/-- The three ends of a complete header. -/
theorem headerLoaded_some {junk : Nat → UInt8} {children : ObjMap} {r : Option Result}
    (hrun : d.headerLoaded e junk children m = some (r, d')) :
    (r = some .error ∧ d' = { d with state := .error }) ∨
      (r = some .ready ∧ d' = { d with state := .ready, dsonKind := .dsonContainer }) ∨
      (r = none ∧ ∃ block : Bytes, block ≠ [] ∧ block.length ≤ 2 ^ 30 ∧
        d' = { d with buf := .own block, bufSize := block.length, wasBufAllocation := true }) := by
  obtain ⟨size, -, hrun⟩ := Option.bind_eq_some_iff.mp hrun
  split_ifs at hrun with hbad hzero
  · cases hrun
    exact Or.inl ⟨rfl, rfl⟩
  · cases hrun
    exact Or.inr (Or.inl ⟨rfl, rfl⟩)
  · rw [allocate, if_neg (by omega)] at hrun
    cases hrun
    have hlen : (((List.range size.toNat).map junk).length : Int) = size := by
      rw [List.length_map, List.length_range]
      omega
    refine Or.inr (Or.inr ⟨rfl, (List.range size.toNat).map junk, ?_, ?_, by rw [hlen]⟩)
    · refine List.ne_nil_of_length_pos ?_
      omega
    · rw [maxDsonRamSize] at hbad
      omega

/-- The object owns a block of its size, within the limit of the loaders, or has no size. -/
def Blocks (d : Dson) : Prop :=
  (d.wasBufAllocation = true ∧ ∃ block, d.buf = .own block ∧ d.bufSize = block.length ∧ block.length ≤ 2 ^ 30) ∨
    (d.wasBufAllocation = false ∧ d.bufSize = 0)

theorem Rewrites.blocks (hrun : d.Rewrites m d' m') (h : d.Blocks) : d'.Blocks := by
  rcases h with ⟨ha, block, hown, hb, hmax⟩ | ⟨ha, hzero⟩
  · obtain ⟨block', hown', hlen⟩ := (hown ▸ hrun.buf).of_own
    exact Or.inl ⟨by rw [hrun.wasBufAllocation, ha], block', hown', by rw [hrun.bufSize, hb, hlen], by omega⟩
  · exact Or.inr ⟨by rw [hrun.wasBufAllocation, ha], by rw [hrun.bufSize, hzero]⟩

/-- What a call on an object that may be loading leaves. -/
structure Keeps (d d' : Dson) : Prop where
  safe : d'.LoadSafe
  blocks : d.Blocks → d'.Blocks

/-- A piece of a payload is stored in place. -/
theorem patchBuf_rewrites {off : Nat} {chunk : Bytes} (hrun : d.patchBuf m off chunk = some (d', m')) :
    d.Rewrites m d' m' := by
  obtain ⟨t, ht, hrun⟩ := Option.bind_eq_some_iff.mp hrun
  obtain ⟨t', ht', hrun⟩ := Option.bind_eq_some_iff.mp hrun
  cases hrun
  exact rewrites_setTail ht (poke_local ht').1

/-- A payload with one more piece of it is complete or not. -/
theorem LoadSafe.stored {chunk : Bytes} (h : d.LoadSafe) (hstate : d.state = .loadingData)
    (hle : (chunk.length : Int) ≤ d.bufSize - d.offset) (hrun : d.patchBuf m d.offset chunk = some (d', m')) :
    (((d'.offset + chunk.length : Nat) : Int) = d'.bufSize →
        d.Keeps { d' with offset := d'.offset + chunk.length, state := .ready }) ∧
      (((d'.offset + chunk.length : Nat) : Int) ≠ d'.bufSize → d.Keeps { d' with offset := d'.offset + chunk.length }) := by
  have hrewrites := patchBuf_rewrites hrun
  obtain ⟨ha, block, hown, hb, hmax, hoff⟩ := h.data hstate
  obtain ⟨block', hown', hlen⟩ := (hown ▸ hrewrites.buf).of_own
  refine ⟨fun _ => ⟨.of_state (by simp) (by simp), fun hblocks => hrewrites.blocks hblocks⟩,
    fun hne => ⟨⟨fun hs => ?_, fun _ => ?_⟩, fun hblocks => hrewrites.blocks hblocks⟩⟩
  · have hs' : d'.state = .loadingHeader := hs
    rw [hrewrites.state, hstate] at hs'
    cases hs'
  · rw [hrewrites.offset, hrewrites.bufSize] at hne
    refine ⟨hrewrites.wasBufAllocation.trans ha, block', hown', ?_, by omega, ?_⟩
    · dsimp only
      rw [hrewrites.bufSize, hb, hlen]
    · dsimp only
      rw [hrewrites.offset]
      omega

/-- The end of a read: no more than was asked for. -/
theorem length_readFromFd {fd fd' : FdIn} {size : Nat} {chunk : Bytes} (h : readFromFd fd size = (some chunk, fd')) :
    chunk.length ≤ size := by
  unfold readFromFd at h
  split at h
  · cases h
    exact Nat.zero_le _
  · cases h
  · cases h
    rw [List.length_take]
    omega

theorem LoadSafe.loadDataFromFd {fd fd' : FdIn} {r : Result} (h : d.LoadSafe) (hstate : d.state = .loadingData)
    (hrun : d.loadDataFromFd m fd = some (r, d', m', fd')) : d.Keeps d' := by
  obtain ⟨ha, block, hown, hb, hmax, hoff⟩ := h.data hstate
  rw [Dson.loadDataFromFd, if_neg (by omega)] at hrun
  split at hrun
  · cases hrun
    exact ⟨.of_state (by simp) (by simp), id⟩
  · next chunk fd₁ hread =>
      have hlen := length_readFromFd hread
      obtain ⟨⟨d₁, m₁⟩, hpatch, hrun⟩ := Option.bind_eq_some_iff.mp hrun
      obtain ⟨hfull, hmore⟩ := h.stored hstate (by omega) hpatch
      dsimp only at hrun
      split_ifs at hrun with heq
      · cases hrun
        exact hfull heq
      · cases hrun
        exact hmore heq

theorem LoadSafe.loadDataFromBuf {window : Bytes} {r : Result} (h : d.LoadSafe) (hstate : d.state = .loadingData)
    (hrun : d.loadDataFromBuf m window = some (r, d', m')) : d.Keeps d' := by
  obtain ⟨ha, block, hown, hb, hmax, hoff⟩ := h.data hstate
  rw [Dson.loadDataFromBuf, if_neg (by omega)] at hrun
  obtain ⟨⟨d₁, m₁⟩, hpatch, hrun⟩ := Option.bind_eq_some_iff.mp hrun
  have hlen : (window.take (d.bufSize - d.offset).toNat).length ≤ (d.bufSize - d.offset).toNat := by
    rw [List.length_take]
    omega
  obtain ⟨hfull, hmore⟩ := h.stored hstate (by omega) hpatch
  dsimp only at hrun
  split_ifs at hrun with heq
  · cases hrun
    exact hfull heq
  · cases hrun
    exact hmore heq

/-- A header that is complete ends the load or begins with the payload. -/
theorem headerLoaded_keeps {junk : Nat → UInt8} {children : ObjMap} {r : Option Result}
    (hrun : d.headerLoaded e junk children m = some (r, d')) :
    (r ≠ none → d.Keeps d') ∧ (r = none → d.Keeps d'.beginData) := by
  rcases headerLoaded_some hrun with ⟨rfl, rfl⟩ | ⟨rfl, rfl⟩ | ⟨rfl, block, hne, hmax, rfl⟩
  · exact ⟨fun _ => ⟨.of_state (by simp) (by simp), id⟩, fun hr => by cases hr⟩
  · exact ⟨fun _ => ⟨.of_state (by simp) (by simp), id⟩, fun hr => by cases hr⟩
  · have hpos := List.length_pos_of_ne_nil hne
    refine ⟨fun hr => absurd rfl hr, fun _ => ⟨⟨fun hs => ?_, fun _ => ⟨rfl, block, rfl, rfl, hmax, hpos⟩⟩,
      fun _ => Or.inl ⟨rfl, block, rfl, rfl, hmax⟩⟩⟩
    cases hs

theorem Keeps.trans {d'' : Dson} (h : d.Keeps d') (h' : d'.Keeps d'') : d.Keeps d'' :=
  ⟨h'.safe, fun hblocks => h'.blocks (h.blocks hblocks)⟩

theorem LoadSafe.loadHeaderFromFd {junk : Nat → UInt8} {children : ObjMap} {fd fd' : FdIn} {r : Result}
    (h : d.LoadSafe) (hstate : d.state = .loadingHeader)
    (hrun : d.loadHeaderFromFd e junk children m fd = some (r, d', m', fd')) : d.Keeps d' := by
  have hoff := h.header hstate
  rw [Dson.loadHeaderFromFd, if_neg (by omega)] at hrun
  split at hrun
  · cases hrun
    exact ⟨.of_state (by simp) (by simp), id⟩
  · next chunk fd₁ hread =>
      dsimp only at hrun
      split_ifs at hrun with hshort
      · cases hrun
        refine ⟨⟨fun _ => hshort, fun hs => ?_⟩, id⟩
        have hs' : d.state = .loadingData := hs
        rw [hstate] at hs'
        cases hs'
      · obtain ⟨⟨r₁, d₁⟩, hloaded, hrun⟩ := Option.bind_eq_some_iff.mp hrun
        obtain ⟨hend, hgo⟩ := headerLoaded_keeps hloaded
        have hfields : ∀ x : Dson, Keeps { d with
            headerBuf := d.headerBuf.patch d.offset chunk, offset := d.offset + chunk.length } x → d.Keeps x :=
          fun x hx => ⟨hx.safe, fun hblocks => hx.blocks hblocks⟩
        cases r₁ with
        | some r₁ =>
            cases hrun
            exact hfields _ (hend (by simp))
        | none =>
            have hbegin := hfields _ (hgo rfl)
            exact hbegin.trans (hbegin.safe.loadDataFromFd rfl hrun)

theorem LoadSafe.loadHeaderFromBuf {junk : Nat → UInt8} {children : ObjMap} {window : Bytes} {r : Result}
    (h : d.LoadSafe) (hstate : d.state = .loadingHeader)
    (hrun : d.loadHeaderFromBuf e junk children m window = some (r, d', m')) : d.Keeps d' := by
  rw [loadHeaderFromBuf_eq (h.header hstate)] at hrun
  by_cases hshort : d.offset + (window.take (headerSize - d.offset)).length < headerSize
  · rw [if_pos hshort] at hrun
    cases hrun
    refine ⟨⟨fun _ => hshort, fun hs => ?_⟩, id⟩
    have hs' : d.state = .loadingData := hs
    rw [hstate] at hs'
    cases hs'
  · rw [if_neg hshort] at hrun
    obtain ⟨⟨r₁, d₁⟩, hloaded, hrun⟩ := Option.bind_eq_some_iff.mp hrun
    obtain ⟨hend, hgo⟩ := headerLoaded_keeps hloaded
    have hfields : ∀ x, (d.headerTaken (window.take (headerSize - d.offset))).Keeps x → d.Keeps x :=
      fun x hx => ⟨hx.safe, fun hblocks => hx.blocks hblocks⟩
    cases r₁ with
    | some r₁ =>
        cases hrun
        exact hfields _ (hend (by simp))
    | none =>
        have hbegin := hfields _ (hgo rfl)
        dsimp only at hrun
        split_ifs at hrun
        · cases hrun
          exact hbegin
        · exact hbegin.trans (hbegin.safe.loadDataFromBuf rfl hrun)

/-- A load starts over with nothing. -/
theorem beginLoad_keeps (d : Dson) : d.Keeps d.beginLoad where
  safe := ⟨fun _ => (by decide : 0 < headerSize), fun hs => by cases hs⟩
  blocks _ := Or.inr ⟨rfl, rfl⟩

theorem LoadSafe.loadFromFd {junk : Nat → UInt8} {children : ObjMap} {fd fd' : FdIn} {r : Result} {o' : DsonObj}
    (h : d.LoadSafe) (hrun : DsonObj.loadFromFd e junk fd (.dson d children) m = some (r, o', m', fd')) :
    ∃ d' children', o' = .dson d' children' ∧ d.Keeps d' := by
  rw [DsonObj.loadFromFd] at hrun
  split at hrun <;> obtain ⟨⟨r₁, d₁, m₁, fd₁⟩, hload, heq⟩ := Option.bind_eq_some_iff.mp hrun <;> cases heq
  · exact ⟨d₁, [], rfl, (beginLoad_keeps d).trans ((beginLoad_keeps d).safe.loadHeaderFromFd rfl hload)⟩
  · exact ⟨d₁, [], rfl, (beginLoad_keeps d).trans ((beginLoad_keeps d).safe.loadHeaderFromFd rfl hload)⟩
  · exact ⟨d₁, [], rfl, (beginLoad_keeps d).trans ((beginLoad_keeps d).safe.loadHeaderFromFd rfl hload)⟩
  · exact ⟨d₁, [], rfl, (beginLoad_keeps d).trans ((beginLoad_keeps d).safe.loadHeaderFromFd rfl hload)⟩
  · next hstate => exact ⟨d₁, children, rfl, h.loadHeaderFromFd hstate hload⟩
  · next hstate => exact ⟨d₁, children, rfl, h.loadDataFromFd hstate hload⟩

theorem LoadSafe.loadFromBuf {junk : Nat → UInt8} {children : ObjMap} {window : Bytes} {r : Result} {o' : DsonObj}
    (h : d.LoadSafe) (hrun : DsonObj.loadFromBuf e junk window (.dson d children) m = some (r, o', m')) :
    ∃ d' children', o' = .dson d' children' ∧ d.Keeps d' := by
  rw [DsonObj.loadFromBuf] at hrun
  split at hrun <;> obtain ⟨⟨r₁, d₁, m₁⟩, hload, heq⟩ := Option.bind_eq_some_iff.mp hrun <;> cases heq
  · exact ⟨d₁, [], rfl, (beginLoad_keeps d).trans ((beginLoad_keeps d).safe.loadHeaderFromBuf rfl hload)⟩
  · exact ⟨d₁, [], rfl, (beginLoad_keeps d).trans ((beginLoad_keeps d).safe.loadHeaderFromBuf rfl hload)⟩
  · exact ⟨d₁, [], rfl, (beginLoad_keeps d).trans ((beginLoad_keeps d).safe.loadHeaderFromBuf rfl hload)⟩
  · exact ⟨d₁, [], rfl, (beginLoad_keeps d).trans ((beginLoad_keeps d).safe.loadHeaderFromBuf rfl hload)⟩
  · next hstate => exact ⟨d₁, children, rfl, h.loadHeaderFromBuf hstate hload⟩
  · next hstate => exact ⟨d₁, children, rfl, h.loadDataFromBuf hstate hload⟩

/-- The stream loader ends ready or in an error. -/
theorem loadFromStream_keeps {junk : Nat → UInt8} {children : ObjMap} {input rest : Bytes} {o' : DsonObj}
    (hrun : DsonObj.loadFromStream e junk input (.dson d children) m = some (o', m', rest)) :
    ∃ d' children', o' = .dson d' children' ∧ d.Keeps d' := by
  have hclear : ∀ x : Dson, (d.clear.Blocks → x.Blocks) → x.LoadSafe → d.Keeps x := fun x hx hsafe =>
    ⟨hsafe, fun _ => hx (Or.inr ⟨rfl, rfl⟩)⟩
  rw [DsonObj.loadFromStream] at hrun
  dsimp only at hrun
  split_ifs at hrun
  · cases hrun
    exact ⟨_, _, rfl, hclear _ (fun hb => hb) (.of_state (by simp) (by simp))⟩
  obtain ⟨⟨r₁, d₁⟩, hloaded, hrun⟩ := Option.bind_eq_some_iff.mp hrun
  obtain ⟨hend, hgo⟩ := headerLoaded_keeps hloaded
  cases r₁ with
  | some r₁ =>
      cases hrun
      exact ⟨_, _, rfl, hclear _ (fun hb => (hend (by simp)).blocks hb) (hend (by simp)).safe⟩
  | none =>
      obtain ⟨⟨d₂, m₂⟩, hpatch, hrun⟩ := Option.bind_eq_some_iff.mp hrun
      have hblocks : d.clear.Blocks → d₁.Blocks := fun hb => (hgo rfl).blocks hb
      have hrewrites := patchBuf_rewrites hpatch
      dsimp only at hrun
      split_ifs at hrun <;> cases hrun
      · exact ⟨_, _, rfl, hclear _ (fun hb => hrewrites.blocks (hblocks hb)) (.of_state (by simp) (by simp))⟩
      · exact ⟨_, _, rfl, hclear _ (fun hb => hrewrites.blocks (hblocks hb)) (.of_state (by simp) (by simp))⟩

/-! ### Looks and insertions -/

theorem LoadSafe.keeps (h : d.LoadSafe) : d.Keeps d := ⟨h, id⟩

theorem LoadSafe.rewritten (h : d.LoadSafe) (hrun : d.Rewrites m d' m') : d.Keeps d' :=
  ⟨hrun.loadSafe h, hrun.blocks⟩

/-- An object in error is not loading. -/
theorem error_keeps (d : Dson) : d.Keeps { d with state := .error } :=
  ⟨.of_state (by simp) (by simp), id⟩

/-- The kind says nothing of a load. -/
theorem LoadSafe.withKind (h : d.LoadSafe) (kind : DsonKind) : d.Keeps { d with dsonKind := kind } :=
  ⟨⟨h.header, h.data⟩, id⟩

theorem LoadSafe.parseBuf {children children' : ObjMap} (h : d.LoadSafe)
    (hrun : d.parseBuf e children m = some (d', children')) : d.Keeps d' := by
  rcases parseBuf_cases hrun with ⟨rfl, -⟩ | ⟨-, notUsed, -, ⟨-, rfl⟩ | ⟨-, rfl⟩⟩
  · exact h.withKind _
  · exact error_keeps d
  · exact h.withKind _

theorem clear_keeps (d : Dson) : d.Keeps d.clear :=
  ⟨.of_state (by simp [clear]) (by simp [clear]), fun _ => Or.inr ⟨rfl, rfl⟩⟩

theorem resetState_keeps (d : Dson) (children : ObjMap) :
    d.Keeps (d.resetState children).1 ∧ (d.resetState children).1.state = .ready := by
  unfold resetState
  split_ifs
  · exact ⟨clear_keeps d, rfl⟩
  · exact ⟨⟨.of_state (by simp) (by simp), id⟩, rfl⟩

theorem LoadSafe.oneObjectBufToContainer {children children' : ObjMap} (h : d.LoadSafe)
    (hrun : d.oneObjectBufToContainer e children m = some (d', children', m')) : d.Keeps d' := by
  rcases oneObjectBufToContainer_cases hrun with ⟨rfl, -⟩ | ⟨off, h', key, -, -, -, -, hset, -⟩
  · exact error_keeps d
  · exact (h.withKind _).trans ((h.withKind _).safe.rewritten (setDataTypeInternal_rewrites hset))

theorem LoadSafe.openAsContainer {children children' : ObjMap} (h : d.LoadSafe)
    (hrun : d.openAsContainer e children m = some (d', children', m')) : d.Keeps d' := by
  unfold Dson.openAsContainer at hrun
  split at hrun
  · obtain ⟨⟨d₁, children₁⟩, hparse, heq⟩ := Option.bind_eq_some_iff.mp hrun
    cases heq
    exact h.parseBuf hparse
  · exact h.oneObjectBufToContainer hrun
  · cases hrun
    exact h.keeps

/-- `insert_internal` ends a load before anything else. -/
theorem insertInternal_keeps {key : Int} {obj : DsonObj} {children children' : ObjMap}
    (h : d.LoadSafe) (hrun : d.insertInternal e key obj children m = some (d', children', m')) : d.Keeps d' := by
  obtain ⟨d₀, children₀, hreset, hkeeps⟩ : ∃ d₀ children₀,
      (if d.state ≠ .ready then d.resetState children else (d, children)) = (d₀, children₀) ∧ d.Keeps d₀ := by
    split_ifs
    · exact ⟨_, _, rfl, (resetState_keeps d children).1⟩
    · exact ⟨d, children, rfl, h.keeps⟩
  rw [insertInternal, hreset] at hrun
  obtain ⟨⟨d₁, children₁, m₁⟩, hopen, hrun⟩ := Option.bind_eq_some_iff.mp hrun
  have hopened := hkeeps.trans (hkeeps.safe.openAsContainer hopen)
  dsimp only at hrun
  split_ifs at hrun
  · cases hrun
    exact hopened
  · obtain ⟨⟨d₂, m₂⟩, hset, heq⟩ := Option.bind_eq_some_iff.mp hrun
    cases heq
    exact hopened.trans (hopened.safe.rewritten (setDataTypeInternal_rewrites hset))

/-- The memory of the children after they have been written in place. -/
theorem outer_rewrites {inside : Mem} (hsame : (d.inner m).SameSize inside) :
    d.Rewrites m (d.outer m inside).1 (d.outer m inside).2 := by
  unfold outer
  cases hbuf : d.buf with
  | own block =>
      rw [inner, hbuf] at hsame
      exact ⟨rfl, by rw [hbuf]; exact .own hsame.owner, ⟨rfl, hsame.external⟩⟩
  | null =>
      rw [inner, hbuf] at hsame
      exact ⟨rfl, .same _, hsame⟩
  | view r off =>
      rw [inner, hbuf] at hsame
      exact ⟨rfl, .same _, hsame⟩

theorem toHost_sameSize {o o' : DsonObj} (hrun : o.toHost e m = some (o', m')) : m.SameSize m' := by
  cases o with
  | dson d children =>
      obtain ⟨⟨d₁, m₁⟩, hhost, heq⟩ := Option.bind_eq_some_iff.mp hrun
      cases heq
      exact (toHost_rewrites hhost).mem
  | string s =>
      cases hrun
      exact Mem.SameSize.refl m
  | route r =>
      cases hrun
      exact Mem.SameSize.refl m

theorem childrenToHost_sameSize {children children' : ObjMap}
    (hrun : DsonObj.childrenToHost e children m = some (children', m')) : m.SameSize m' := by
  induction children generalizing m children' with
  | nil =>
      cases hrun
      exact Mem.SameSize.refl _
  | cons p rest ih =>
      obtain ⟨⟨o₁, m₁⟩, hhost, hrun⟩ := Option.bind_eq_some_iff.mp hrun
      obtain ⟨⟨rest₁, m₂⟩, hrest, heq⟩ := Option.bind_eq_some_iff.mp hrun
      cases heq
      exact (toHost_sameSize hhost).trans (ih hrest)

theorem LoadSafe.map {children : ObjMap} {o' : DsonObj} (h : d.LoadSafe)
    (hrun : DsonObj.map e (.dson d children) m = some (o', m')) :
    ∃ d' children', o' = .dson d' children' ∧ d.Keeps d' := by
  rw [DsonObj.map] at hrun
  split_ifs at hrun
  · cases hrun
    exact ⟨d, children, rfl, h.keeps⟩
  obtain ⟨⟨d₁, children₁, m₁⟩, hopen, hrun⟩ := Option.bind_eq_some_iff.mp hrun
  obtain ⟨⟨children₂, inside⟩, hhost, heq⟩ := Option.bind_eq_some_iff.mp hrun
  cases heq
  have hopened := h.openAsContainer hopen
  exact ⟨_, _, rfl, hopened.trans (hopened.safe.rewritten (outer_rewrites (childrenToHost_sameSize hhost)))⟩

theorem LoadSafe.get_parsed {children : ObjMap} {key : Int} {f : Found} {o' : DsonObj} (h : d.LoadSafe)
    (hkind : d.dsonKind ≠ .dataBufNeedParse) (hrun : DsonObj.get e key (.dson d children) m = some (f, o', m')) :
    ∃ d' children', o' = .dson d' children' ∧ d.Keeps d' := by
  rw [DsonObj.get, if_neg hkind] at hrun
  simp only [Option.bind_eq_bind, Option.bind_some] at hrun
  split_ifs at hrun
  · cases hrun
    exact ⟨_, _, rfl, h.keeps⟩
  split at hrun
  · obtain ⟨own, -, hrun⟩ := Option.bind_eq_some_iff.mp hrun
    split_ifs at hrun
    · obtain ⟨⟨d₂, m₂⟩, hhost, heq⟩ := Option.bind_eq_some_iff.mp hrun
      cases heq
      exact ⟨_, _, rfl, h.rewritten (toHost_rewrites hhost)⟩
    · cases hrun
      exact ⟨_, _, rfl, h.keeps⟩
  · unfold DsonObj.getInternal at hrun
    split at hrun
    · cases hrun
      exact ⟨_, _, rfl, h.keeps⟩
    · obtain ⟨o, -, hrun⟩ := Option.bind_eq_some_iff.mp hrun
      obtain ⟨⟨a, o₁, inside⟩, hchild, heq⟩ := Option.bind_eq_some_iff.mp hrun
      obtain ⟨⟨o₂, m₂⟩, hhost, heq'⟩ := Option.bind_eq_some_iff.mp hchild
      cases heq'
      cases heq
      exact ⟨_, _, rfl, h.rewritten (outer_rewrites (toHost_sameSize hhost))⟩
  · next hparse => exact absurd hparse hkind

/-- A lookup parses first, whatever the state. -/
theorem LoadSafe.get {children : ObjMap} {key : Int} {f : Found} {o' : DsonObj} (h : d.LoadSafe)
    (hrun : DsonObj.get e key (.dson d children) m = some (f, o', m')) :
    ∃ d' children', o' = .dson d' children' ∧ d.Keeps d' := by
  by_cases hkind : d.dsonKind = .dataBufNeedParse
  · cases hparse : d.parseBuf e children m with
    | none =>
        rw [DsonObj.get, if_pos hkind, hparse] at hrun
        cases hrun
    | some p =>
        obtain ⟨d₁, children₁⟩ := p
        have hparsed := h.parseBuf hparse
        rw [get_parse hkind hparse] at hrun
        split_ifs at hrun with hready
        · have hkind' : d₁.dsonKind ≠ .dataBufNeedParse := by
            rcases parseBuf_cases hparse with ⟨rfl, -⟩ | ⟨-, notUsed, -, ⟨-, rfl⟩ | ⟨-, rfl⟩⟩
            · simp
            · cases hready
            · simp
          obtain ⟨d₂, children₂, rfl, hkeeps⟩ := hparsed.safe.get_parsed hkind' hrun
          exact ⟨d₂, children₂, rfl, hparsed.trans hkeeps⟩
        · cases hrun
          exact ⟨_, _, rfl, hparsed⟩
  · exact h.get_parsed hkind hrun

end Dson

end LeanDson
