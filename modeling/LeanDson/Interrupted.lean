import LeanDson.Inversion
import LeanDson.Malformed
import LeanDson.Rewind
import LeanDson.Loaders

/-! Interrupted loads. What a call of a loader that has not finished leaves behind, and what the objects answer
that are used afterwards. -/

namespace LeanDson

open ByteSink

/-! ### Calls -/

/-- One call of an incremental loader. -/
inductive LoadCall where
  | fd (fd : FdIn)
  | buf (window : Bytes)

/-- What can be done with an object that holds nothing. -/
inductive Use where
  | look (op : Lookup)
  | emplace (key : Int) (obj : DsonObj)
  | copy (network : Bool) (room : Nat)
  | copyFd (network : Bool) (answers : List (Option Nat))
  | stream (network : Bool)
  | load (call : LoadCall)

/-- What the caller sees of it. -/
inductive Seen where
  | looked (a : Looked)
  | emplaced
  | copied (r : Result) (bs : Bytes)
  | streamed (bs : Bytes)
  | loaded (r : Result)

namespace DsonObj

section

variable (e : Endian) (junk : Nat → UInt8)

def loadCall : LoadCall → DsonObj → Mem → Option (Result × DsonObj × Mem)
  | .fd fd, o, m => (o.loadFromFd e junk fd m).map fun (r, o, m, _) => (r, o, m)
  | .buf window, o, m => o.loadFromBuf e junk window m

/-- Calls all of which leave the load in process. -/
def feed : List LoadCall → DsonObj → Mem → Option (DsonObj × Mem)
  | [], o, m => some (o, m)
  | call :: calls, o, m => do
      let (r, o, m) ← o.loadCall e junk call m
      if r = .inProcess then feed calls o m else none

def use : Use → DsonObj → Mem → Option (Seen × DsonObj × Mem)
  | .look op, o, m => (lookup e op o m).map fun (a, o, m) => (.looked a, o, m)
  | .emplace key obj, o, m => (DsonObj.emplace e key obj o m).map fun (o, m) => (.emplaced, o, m)
  | .copy network room, o, m =>
      (o.copyTo e network m (BufOut.fresh room)).map fun (r, o, m, s) => (.copied r s.out, o, m)
  | .copyFd network answers, o, m =>
      (o.copyTo e network m (FdOut.fresh answers)).map fun (r, o, m, s) => (.copied r s.out, o, m)
  | .stream network, o, m => (o.copyToStream e network m).map fun (o, m, bs) => (.streamed bs, o, m)
  | .load call, o, m => (o.loadCall e junk call m).map fun (r, o, m) => (.loaded r, o, m)

/-- What the caller sees of one use after the other. -/
def uses : List Use → DsonObj → Mem → Option (List Seen)
  | [], _, _ => some []
  | u :: us, o, m => do
      let (a, o, m) ← o.use e junk u m
      let answers ← uses us o m
      return a :: answers

end

/-- `clear`. -/
def clear : DsonObj → DsonObj
  | .dson d _ => .dson d.clear []
  | o => o

/-- `header()`, on a `Dson`. -/
def header (m : Mem) : DsonObj → Option Header
  | .dson d _ => d.header m
  | _ => none

/-- The object without any content, with a header that announces none. -/
def emptied (e : Endian) (h : Header) : DsonObj → Mem → Option (DsonObj × Mem)
  | .dson d _, m => (d.clear.setHeader m (h.setDataSize e 0)).map fun (d, m) => (.dson d [], m)
  | _, _ => none

end DsonObj

/-- What is emplaced is a value or a container. -/
def Use.Proper (e : Endian) : Use → Prop
  | .emplace key obj => IsInt32 key ∧ ∃ k t, Holds e obj k t
  | _ => True

/-- After `reset_state` in the middle of a load into `o` the object `o'` cannot be told from one without content that
has the header of `o`, before anything had come of the message. -/
def Abandoned (e : Endian) (junk : Nat → UInt8) (o o' : DsonObj) (m : Mem) : Prop :=
  ∃ h o₁ m₁, o.header m = some h ∧ o'.emptied e h m = some (o₁, m₁) ∧
    ∀ us, (∀ u ∈ us, u.Proper e) → DsonObj.uses e junk us o'.resetState m = DsonObj.uses e junk us o₁ m₁

/-- In the middle of a load into `o`: the header is not complete, and as it stands it is the header of `o`, of a
container and without a size. -/
def BlankSoFar (e : Endian) (m : Mem) (o : DsonObj) : DsonObj → Prop
  | .dson d _ => d.state = .loadingHeader ∧ ∃ h, o.header m = some h ∧ d.header m = some (h.setDataSize e 0) ∧
      h.ValidMark e ∧ h.dataTypeOf e = TypesMap.dsonContainer
  | _ => False

section

variable {e : Endian} {junk : Nat → UInt8} {d : Dson} {m : Mem}

/-! ### Objects in the middle of a load -/

/-- In the middle of the header. -/
structure Dson.HalfHeader (d : Dson) : Prop where
  state : d.state = .loadingHeader
  kind : d.dsonKind = .dataBufNeedParse
  alloc : d.wasBufAllocation = false
  size : d.bufSize = 0
  iter : d.copyIter = .unset

/-- In the middle of the payload. -/
structure Dson.HalfData (d : Dson) (block : Bytes) : Prop where
  state : d.state = .loadingData
  kind : d.dsonKind = .dataBufNeedParse
  alloc : d.wasBufAllocation = true
  buf : d.buf = .own block
  size : d.bufSize = block.length
  pos : block ≠ []

/-- In the middle of a load. -/
def Dson.Half (d : Dson) : Prop := d.HalfHeader ∨ ∃ block, d.HalfData block

theorem Dson.beginLoad_half (d : Dson) : d.beginLoad.HalfHeader := ⟨rfl, rfl, rfl, rfl, rfl⟩

/-- A write into a block of its own keeps the length of the block. -/
theorem Dson.patchBuf_length {d d' : Dson} {block chunk : Bytes} {off : Nat} {m' : Mem} (hbuf : d.buf = .own block)
    (hrun : d.patchBuf m off chunk = some (d', m')) :
    ∃ block', d' = { d with buf := .own block' } ∧ m' = m ∧ block'.length = block.length ∧
      off + chunk.length ≤ block.length := by
  rw [Dson.patchBuf, hbuf, BufPtr.tail] at hrun
  split_ifs at hrun with hoff
  · cases hpoke : poke (block.drop off) chunk with
    | none =>
        rw [Option.bind_eq_bind, Option.bind_some, hpoke] at hrun
        cases hrun
    | some t =>
        rw [Option.bind_eq_bind, Option.bind_some, hpoke] at hrun
        cases hrun
        have hlen := (poke_local hpoke).1
        have hfits : chunk.length ≤ (block.drop off).length := by
          by_contra hlong
          rw [poke, if_pos (by omega)] at hpoke
          cases hpoke
        rw [List.length_drop] at hlen hfits
        refine ⟨block.take off ++ t, rfl, rfl, ?_, by omega⟩
        rw [List.length_append, List.length_take, hlen]
        omega
  · cases hrun

/-- A piece of the payload is stored. -/
theorem Dson.HalfData.store {block chunk : Bytes} {off : Nat} (hd : d.HalfData block) {p : Dson × Mem}
    (hrun : d.patchBuf m off chunk = some p) (n : Nat) : p.2 = m ∧ Dson.Half { p.1 with offset := n } := by
  obtain ⟨block', hp, hm, hlen, -⟩ := Dson.patchBuf_length hd.buf (hrun : _ = some (p.1, p.2))
  have hpos : 0 < block'.length := by
    rw [hlen]
    exact List.length_pos_iff.mpr hd.pos
  refine ⟨hm, Or.inr ⟨block', ?_⟩⟩
  rw [hp]
  exact ⟨hd.state, hd.kind, hd.alloc, rfl, by rw [hlen]; exact hd.size, List.length_pos_iff.mp hpos⟩

theorem Dson.HalfData.loadDataFromFd {block : Bytes} (hd : d.HalfData block) {fd fd' : FdIn} {d' : Dson} {m' : Mem}
    (hrun : d.loadDataFromFd m fd = some (.inProcess, d', m', fd')) : m' = m ∧ d'.Half := by
  rw [Dson.loadDataFromFd] at hrun
  split_ifs at hrun
  · cases hrun
  split at hrun
  · cases hrun
  · next chunk fd₁ _ =>
      cases hpatch : d.patchBuf m d.offset chunk with
      | none =>
          rw [hpatch] at hrun
          cases hrun
      | some p =>
          rw [hpatch] at hrun
          simp only [Option.bind_eq_bind, Option.bind_some] at hrun
          split_ifs at hrun
          · cases hrun
          · cases hrun
            exact hd.store hpatch _

theorem Dson.HalfData.loadDataFromBuf {block : Bytes} (hd : d.HalfData block) {window : Bytes} {d' : Dson} {m' : Mem}
    (hrun : d.loadDataFromBuf m window = some (.inProcess, d', m')) : m' = m ∧ d'.Half := by
  rw [Dson.loadDataFromBuf] at hrun
  split_ifs at hrun
  · cases hrun
  dsimp only at hrun
  cases hpatch : d.patchBuf m d.offset (window.take (d.bufSize - d.offset).toNat) with
  | none =>
      rw [hpatch] at hrun
      cases hrun
  | some p =>
      rw [hpatch] at hrun
      simp only [Option.bind_eq_bind, Option.bind_some] at hrun
      split_ifs at hrun
      · cases hrun
      · cases hrun
        exact hd.store hpatch _

theorem Dson.HalfHeader.headerTaken (hd : d.HalfHeader) (chunk : Bytes) : (d.headerTaken chunk).HalfHeader :=
  ⟨hd.state, hd.kind, hd.alloc, hd.size, hd.iter⟩

/-- The loaders go on with the payload in a block of its own, or the call is over. -/
theorem Dson.HalfHeader.headerLoaded (hd : d.HalfHeader) {children : ObjMap} {r : Option Result} {d' : Dson}
    (hrun : d.headerLoaded e junk children m = some (r, d')) :
    r ≠ some .inProcess ∧ (r = none → ∃ block, d'.beginData.HalfData block) := by
  cases hsize : DsonObj.dataSize e m (.dson d children) with
  | none =>
      rw [Dson.headerLoaded, hsize] at hrun
      cases hrun
  | some size =>
      rw [Dson.headerLoaded_of_size hsize] at hrun
      split_ifs at hrun with hrefused hzero
      · cases hrun
        exact ⟨by simp, by simp⟩
      · cases hrun
        exact ⟨by simp, by simp⟩
      cases hrun
      simp only [maxDsonRamSize] at hrefused
      have hlen : ((List.range size.toNat).map junk).length = size.toNat := by
        rw [List.length_map, List.length_range]
      have hkind := hd.kind
      refine ⟨by simp, fun _ => ⟨(List.range size.toNat).map junk, rfl, hkind, rfl, rfl, ?_, ?_⟩⟩
      · rw [hlen]
        exact (Int.toNat_of_nonneg (not_lt.mp fun hneg => hrefused (Or.inl hneg))).symm
      · exact List.length_pos_iff.mp (by omega)

theorem Dson.HalfHeader.loadHeaderFromFd (hd : d.HalfHeader) {children : ObjMap} {fd fd' : FdIn} {d' : Dson} {m' : Mem}
    (hrun : d.loadHeaderFromFd e junk children m fd = some (Result.inProcess, d', m', fd')) : m' = m ∧ d'.Half := by
  by_cases hoff : d.offset < headerSize
  · rw [Dson.loadHeaderFromFd_eq hoff] at hrun
    split at hrun
    · cases hrun
    · next chunk fd₁ _ =>
        split_ifs at hrun
        · cases hrun
          exact ⟨rfl, Or.inl (hd.headerTaken chunk)⟩
        · obtain ⟨⟨r, d₁⟩, hloaded, hrest⟩ := Option.bind_eq_some_iff.mp hrun
          obtain ⟨hends, hgoes⟩ := (hd.headerTaken chunk).headerLoaded hloaded
          cases r with
          | none =>
              obtain ⟨block, hdata⟩ := hgoes rfl
              exact hdata.loadDataFromFd hrest
          | some r =>
              cases hrest
              exact absurd rfl hends
  · rw [Dson.loadHeaderFromFd, if_pos (by omega)] at hrun
    cases hrun

theorem Dson.HalfHeader.loadHeaderFromBuf (hd : d.HalfHeader) {children : ObjMap} {window : Bytes} {d' : Dson} {m' : Mem}
    (hrun : d.loadHeaderFromBuf e junk children m window = some (Result.inProcess, d', m')) : m' = m ∧ d'.Half := by
  by_cases hoff : d.offset < headerSize
  · rw [Dson.loadHeaderFromBuf_eq hoff] at hrun
    by_cases hmore : d.offset + (window.take (headerSize - d.offset)).length < headerSize
    · rw [if_pos hmore] at hrun
      cases hrun
      exact ⟨rfl, Or.inl (hd.headerTaken _)⟩
    · rw [if_neg hmore] at hrun
      obtain ⟨⟨r, d₁⟩, hloaded, hrest⟩ := Option.bind_eq_some_iff.mp hrun
      obtain ⟨hends, hgoes⟩ := (hd.headerTaken _).headerLoaded hloaded
      cases r with
      | none =>
          obtain ⟨block, hdata⟩ := hgoes rfl
          dsimp only at hrest
          split_ifs at hrest
          · cases hrest
            exact ⟨rfl, Or.inr ⟨block, hdata⟩⟩
          · exact hdata.loadDataFromBuf hrest
      | some r =>
          cases hrest
          exact absurd rfl hends
  · rw [Dson.loadHeaderFromBuf, if_pos (by omega)] at hrun
    cases hrun

/-- A call that leaves a load in process leaves the object in the middle of a load. -/
theorem Dson.Half.loadCall (hd : d.Half ∨ d.state ≠ .loadingHeader ∧ d.state ≠ .loadingData) {children : ObjMap}
    (hchildren : d.Half → children = []) {call : LoadCall} {o' : DsonObj} {m' : Mem}
    (hrun : DsonObj.loadCall e junk call (.dson d children) m = some (.inProcess, o', m')) :
    m' = m ∧ ∃ d', o' = .dson d' [] ∧ d'.Half := by
  cases call with
  | fd fd =>
      obtain ⟨⟨r, o₁, m₁, fd₁⟩, hrun, heq⟩ := Option.map_eq_some_iff.mp hrun
      cases heq
      rcases hd with hd | ⟨hheader, hdata⟩
      · cases hchildren hd
        rcases hd with hd | ⟨block, hd⟩
        · rw [DsonObj.loadFromFd_header hd.state] at hrun
          obtain ⟨⟨r, d₁, m₁, fd₁⟩, hload, heq⟩ := Option.map_eq_some_iff.mp hrun
          cases heq
          exact ⟨(hd.loadHeaderFromFd hload).1, d₁, rfl, (hd.loadHeaderFromFd hload).2⟩
        · rw [DsonObj.loadFromFd_data hd.state] at hrun
          obtain ⟨⟨r, d₁, m₁, fd₁⟩, hload, heq⟩ := Option.map_eq_some_iff.mp hrun
          cases heq
          exact ⟨(hd.loadDataFromFd hload).1, d₁, rfl, (hd.loadDataFromFd hload).2⟩
      · rw [DsonObj.loadFromFd_start hheader hdata] at hrun
        obtain ⟨⟨r, d₁, m₁, fd₁⟩, hload, heq⟩ := Option.map_eq_some_iff.mp hrun
        cases heq
        exact ⟨(d.beginLoad_half.loadHeaderFromFd hload).1, d₁, rfl, (d.beginLoad_half.loadHeaderFromFd hload).2⟩
  | buf window =>
      rcases hd with hd | ⟨hheader, hdata⟩
      · cases hchildren hd
        rcases hd with hd | ⟨block, hd⟩
        · rw [DsonObj.loadCall, DsonObj.loadFromBuf_header hd.state] at hrun
          obtain ⟨⟨r, d₁, m₁⟩, hload, heq⟩ := Option.map_eq_some_iff.mp hrun
          cases heq
          exact ⟨(hd.loadHeaderFromBuf hload).1, d₁, rfl, (hd.loadHeaderFromBuf hload).2⟩
        · rw [DsonObj.loadCall, DsonObj.loadFromBuf_data hd.state] at hrun
          obtain ⟨⟨r, d₁, m₁⟩, hload, heq⟩ := Option.map_eq_some_iff.mp hrun
          cases heq
          exact ⟨(hd.loadDataFromBuf hload).1, d₁, rfl, (hd.loadDataFromBuf hload).2⟩
      · rw [DsonObj.loadCall, DsonObj.loadFromBuf_start hheader hdata] at hrun
        obtain ⟨⟨r, d₁, m₁⟩, hload, heq⟩ := Option.map_eq_some_iff.mp hrun
        cases heq
        exact ⟨(d.beginLoad_half.loadHeaderFromBuf hload).1, d₁, rfl, (d.beginLoad_half.loadHeaderFromBuf hload).2⟩

/-- Calls that leave a load in process leave the object in the middle of a load. -/
theorem Dson.Half.feed {calls : List LoadCall} (hne : calls ≠ []) : ∀ {d : Dson} {children : ObjMap} {m : Mem} {o' : DsonObj}
    {m' : Mem}, (d.Half ∨ d.state ≠ .loadingHeader ∧ d.state ≠ .loadingData) → (d.Half → children = []) →
      DsonObj.feed e junk calls (.dson d children) m = some (o', m') → m' = m ∧ ∃ d', o' = .dson d' [] ∧ d'.Half := by
  induction calls with
  | nil => exact absurd rfl hne
  | cons call calls ih =>
      intro d children m o' m' hd hchildren hrun
      obtain ⟨⟨r, o₁, m₁⟩, hcall, hrun⟩ := Option.bind_eq_some_iff.mp hrun
      dsimp only at hrun
      split_ifs at hrun with hr
      subst hr
      obtain ⟨rfl, d₁, rfl, hd₁⟩ := Dson.Half.loadCall hd hchildren hcall
      cases calls with
      | nil =>
          cases hrun
          exact ⟨rfl, d₁, rfl, hd₁⟩
      | cons call' calls => exact ih (by simp) (Or.inl hd₁) (fun _ => rfl) hrun

/-! ### Copies into a window of sixteen bytes -/

theorem write_full (bs out : Bytes) : ByteSink.write (⟨0, out⟩ : BufOut) bs = (some 0, ⟨0, out⟩) := by
  change writeToBuf ⟨0, out⟩ bs = _
  simp [writeToBuf]

theorem write_header (h : Header) : ByteSink.write (BufOut.fresh headerSize) h.bytes = (some headerSize, ⟨0, h.bytes⟩) := by
  change writeToBuf ⟨headerSize, []⟩ h.bytes = _
  rw [writeToBuf, Header.bytes_length]
  simp only [headerSize, min_self, Nat.sub_self, List.nil_append, Prod.mk.injEq, BufOut.mk.injEq, true_and]
  exact List.take_of_length_le (by rw [Header.bytes_length])

variable {copy : DsonObj → Mem → BufOut → Option (Result × DsonObj × Mem × BufOut)} {children : ObjMap} {r : Result}
  {o' : DsonObj} {m' : Mem} {s' : BufOut} {out : Bytes}

/-- Nothing is ready with its first byte in a full window. -/
theorem Dson.copyHeader_full (hoff : d.offset = 0)
    (hrun : d.copyHeader copy children m (⟨0, out⟩ : BufOut) = some (r, o', m', s')) : r ≠ .ready := by
  rw [Dson.copyHeader, if_neg (by rw [hoff]; decide)] at hrun
  obtain ⟨h, -, hrun⟩ := Option.bind_eq_some_iff.mp hrun
  rw [write_full] at hrun
  simp only [hoff, Nat.add_zero, headerSize, Nat.zero_lt_succ, if_true, Option.pure_def, Option.some.injEq,
    Prod.mk.injEq] at hrun
  rw [← hrun.1]
  simp

theorem Dson.copyInternal_full {network : Bool} (hstate : d.state = .ready ∨ d.state = .error)
    (hrun : d.copyInternal e copy network children m (⟨0, out⟩ : BufOut) = some (r, o', m', s')) : r ≠ .ready := by
  rcases hstate with hstate | hstate
  · simp only [Dson.copyInternal, hstate, Option.bind_eq_bind, Option.bind_eq_some_iff] at hrun
    obtain ⟨⟨d₁, children₁, m₁⟩, hprep, hrun⟩ := hrun
    obtain ⟨-, -, d₂, -, -, -, rfl⟩ := Dson.prepareCopy_cases hprep
    exact Dson.copyHeader_full rfl hrun
  · simp only [Dson.copyInternal, hstate, Option.some.injEq, Prod.mk.injEq] at hrun
    rw [← hrun.1]
    simp

/-- Something that is not a container has a payload behind its header, or fails. -/
theorem Dson.copyHeader_payload (hoff : d.offset = 0) (hkind : d.dsonKind ≠ .dsonContainer)
    (hrun : d.copyHeader copy children m (BufOut.fresh headerSize) = some (r, o', m', s')) : r ≠ .ready := by
  rw [Dson.copyHeader, if_neg (by rw [hoff]; decide)] at hrun
  obtain ⟨h, -, hrun⟩ := Option.bind_eq_some_iff.mp hrun
  rw [hoff, List.drop_zero, write_header] at hrun
  simp only [Nat.zero_add, lt_irrefl, if_false, if_neg hkind, Dson.copyData] at hrun
  obtain ⟨⟨r₁, d₁, s₁⟩, hbuf, hrun⟩ := Option.bind_eq_some_iff.mp hrun
  cases hrun
  simp only [Dson.copyBuf] at hbuf
  split_ifs at hbuf with hsize
  · cases hbuf
    simp
  obtain ⟨off, -, hbuf⟩ := Option.bind_eq_some_iff.mp hbuf
  obtain ⟨t, -, hbuf⟩ := Option.bind_eq_some_iff.mp hbuf
  split_ifs at hbuf
  rw [write_full] at hbuf
  simp only [Nat.add_zero] at hbuf
  split_ifs at hbuf with hdone
  · omega
  · cases hbuf
    simp

/-- The first child of a container has not been handed over with the header. -/
theorem Dson.copyHeader_children {network : Bool} {fuel : Nat} {k : Int} {c : Dson} {cs rest : ObjMap} (hoff : d.offset = 0)
    (hkind : d.dsonKind = .dsonContainer) (hc : c.state = .ready ∨ c.state = .error)
    (hrun : d.copyHeader (DsonObj.copyFuel e network fuel) ((k, .dson c cs) :: rest) m (BufOut.fresh headerSize) =
      some (r, o', m', s')) : r ≠ .ready := by
  rw [Dson.copyHeader, if_neg (by rw [hoff]; decide)] at hrun
  obtain ⟨h, -, hrun⟩ := Option.bind_eq_some_iff.mp hrun
  rw [hoff, List.drop_zero, write_header] at hrun
  simp only [Nat.zero_add, lt_irrefl, if_false, hkind, if_true, Dson.copyData, Dson.mapBegin, Dson.copyMap] at hrun
  obtain ⟨⟨r₁, it, children₁, m₁, s₁⟩, hmap, hrun⟩ := Option.bind_eq_some_iff.mp hrun
  obtain ⟨⟨r₂, o₂, m₂, s₂⟩, hchild, hmap⟩ := Option.bind_eq_some_iff.mp hmap
  have hr₂ : r₂ ≠ .ready := by
    cases fuel with
    | zero => cases hchild
    | succ fuel => exact Dson.copyInternal_full hc hchild
  dsimp only at hmap
  rw [if_pos hr₂] at hmap
  cases hmap
  dsimp only at hrun
  rw [if_pos hr₂] at hrun
  cases hrun
  exact hr₂

end

end LeanDson
