import LeanDson.Frame
import LeanDson.Copy
import LeanDson.Load

/-! What a step can do. Each lemma lists the ways in which an operation that turns an unparsed buffer, a single
object and a container into one another can end. -/

namespace LeanDson

namespace Dson

variable {e : Endian} {d d' : Dson} {children children' : ObjMap} {m m' : Mem}

/-- A view is ready, or its size is refused. -/
theorem ofBuf_cases {p : BufPtr} (hrun : ofBuf e p m = some d) :
    d = { overBuf p with state := d.state, dsonKind := d.dsonKind } ∧ (d.state = .ready ∨ d.state = .error) ∧
      d.dsonKind ≠ .dsonContainer := by
  simp only [ofBuf, preParseBuf, Option.bind_eq_bind, Option.bind_eq_some_iff, Option.pure_def] at hrun
  obtain ⟨size, -, hrun⟩ := hrun
  split_ifs at hrun
  · cases hrun
    exact ⟨rfl, Or.inr rfl, by simp [overBuf]⟩
  obtain ⟨type, -, hrun⟩ := Option.bind_eq_some_iff.mp hrun
  split_ifs at hrun
  · cases hrun
    exact ⟨rfl, Or.inl rfl, by simp⟩
  · cases hrun
    exact ⟨rfl, Or.inl rfl, by simp⟩

/-- Every child that a parse makes is a view. -/
theorem parseLoop_forall {p : BufPtr} {Q : DsonObj → Prop}
    (hQ : ∀ ptr obj, ofBuf e (p.child ptr) m = some obj → Q (.dson obj [])) {fuel : Nat} :
    ∀ {notUsed ptr n : Int} {map map' : ObjMap}, parseLoop e p m fuel notUsed ptr map = some (n, map') →
      (∀ q ∈ map, Q q.2) → ∀ q ∈ map', Q q.2 := by
  induction fuel with
  | zero =>
      intro notUsed ptr n map map' hrun hmap
      rw [parseLoop] at hrun
      split_ifs at hrun
      cases hrun
      exact hmap
  | succ fuel ih =>
      intro notUsed ptr n map map' hrun hmap
      rw [parseLoop] at hrun
      split_ifs at hrun
      · cases hrun
        exact hmap
      simp only [Option.bind_eq_bind, Option.bind_eq_some_iff, Option.pure_def] at hrun
      obtain ⟨obj, hobj, key, -, hrun⟩ := hrun
      split_ifs at hrun
      · cases hrun
        exact hmap
      obtain ⟨size, -, hrun⟩ := Option.bind_eq_some_iff.mp hrun
      split_ifs at hrun
      · cases hrun
        exact hmap
      refine ih hrun fun q hq => ?_
      rcases KeyMap.mem_of_insertOrAssign hq with rfl | hq
      · exact hQ _ _ hobj
      · exact hmap q hq

/-- `parse_buf`: not a container, a failed parse or a parse. -/
theorem parseBuf_cases (hrun : d.parseBuf e children m = some (d', children')) :
    (d' = { d with dsonKind := .oneObjectInDataBuf } ∧ children' = children ∧
        ∃ type, d.dataType e m = some type ∧ type ≠ TypesMap.dsonContainer) ∨
      (d.dataType e m = some TypesMap.dsonContainer ∧ ∃ notUsed,
        parseLoop e (d.buf.child 0) (d.inner m) d.bufSize.toNat d.bufSize (d.data.getD 0) children =
            some (notUsed, children') ∧
          (notUsed ≠ 0 ∧ d' = { d with state := .error } ∨ notUsed = 0 ∧ d' = { d with dsonKind := .dsonContainer })) := by
  simp only [parseBuf, Option.bind_eq_bind, Option.bind_eq_some_iff, Option.pure_def] at hrun
  obtain ⟨type, htype, hrun⟩ := hrun
  split_ifs at hrun with hne
  · cases hrun
    exact Or.inl ⟨rfl, rfl, type, htype, hne⟩
  · rw [not_not] at hne
    obtain ⟨⟨notUsed, map⟩, hloop, hrun⟩ := Option.bind_eq_some_iff.mp hrun
    dsimp only at hrun
    refine Or.inr ⟨by rw [htype, hne], notUsed, ?_⟩
    split_ifs at hrun with hused
    · cases hrun
      exact ⟨hloop, Or.inl ⟨hused, rfl⟩⟩
    · cases hrun
      exact ⟨hloop, Or.inr ⟨not_not.mp hused, rfl⟩⟩

/-- What is not a container becomes a single object. -/
theorem parseBuf_other (children : ObjMap) {h : Header} (hstate : d.state ≠ .error) (hread : d.header m = some h)
    (htype : h.dataTypeOf e ≠ TypesMap.dsonContainer) :
    d.parseBuf e children m = some ({ d with dsonKind := .oneObjectInDataBuf }, children) := by
  rw [parseBuf, dataType, if_neg hstate, hread, Option.map_some, Option.bind_eq_bind, Option.bind_some, if_pos htype]
  rfl

/-- `one_object_buf_to_container`: an object without data or with a negative key, or a promotion. -/
theorem oneObjectBufToContainer_cases (hrun : d.oneObjectBufToContainer e children m = some (d', children', m')) :
    (d' = { d with state := .error } ∧ children' = children ∧ m' = m ∧
        (d.data = none ∨ ∃ off h key, d.data = some off ∧ d.header m = some h ∧
          (ofHeaderAndBuf h (d.buf.child off)).key e (d.inner m) = some key ∧ key < 0)) ∨
      ∃ off h key, d.data = some off ∧ d.header m = some h ∧
        (ofHeaderAndBuf h (d.buf.child off)).key e (d.inner m) = some key ∧ 0 ≤ key ∧
        { d with dsonKind := .dsonContainer }.setDataTypeInternal e m TypesMap.dsonContainer = some (d', m') ∧
        children' = KeyMap.insertOrAssign key (.dson (ofHeaderAndBuf h (d.buf.child off)) []) children := by
  rw [oneObjectBufToContainer] at hrun
  cases hdata : d.data with
  | none =>
      rw [hdata] at hrun
      cases hrun
      exact Or.inl ⟨rfl, rfl, rfl, Or.inl rfl⟩
  | some off =>
      rw [hdata] at hrun
      simp only [Option.bind_eq_bind, Option.bind_eq_some_iff, Option.pure_def] at hrun
      obtain ⟨h, hh, key, hkey, hrun⟩ := hrun
      split_ifs at hrun with hneg
      · cases hrun
        exact Or.inl ⟨rfl, rfl, rfl, Or.inr ⟨off, h, key, rfl, hh, hkey, hneg⟩⟩
      · obtain ⟨⟨d₁, m₁⟩, hset, hrun⟩ := Option.bind_eq_some_iff.mp hrun
        cases hrun
        exact Or.inr ⟨off, h, key, rfl, hh, hkey, not_lt.mp hneg, hset, rfl⟩

/-- The part of `prepareCopy` behind the parse. -/
def prepareHeader (e : Endian) (network : Bool) (d : Dson) (children : ObjMap) (m : Mem) : Option (Dson × Mem) := do
  let (d, m) ←
    if d.dsonKind = .dsonContainer then do
      let size ← DsonObj.dataSize e m (.dson d children)
      d.setDataSizeInternal e m size
    else some (d, m)
  if d.dsonKind = .oneObjectInDataBuf then d.toOrder e network m else d.headerToOrder e network m

theorem prepareCopy_eq (network : Bool) : d.prepareCopy e network children m = (d.header m).bind fun h =>
    (if d.dsonKind = .dataBufNeedParse ∧ (h.isHostOrder e ∧ network ∨ h.isNetworkOrder e ∧ ¬network) then
      d.parseBuf e children m else some (d, children)).bind fun p =>
      (p.1.prepareHeader e network p.2 m).map fun q => ({ q.1 with offset := 0, state := .copyingHeader }, p.2, q.2) := by
  cases hread : d.header m with
  | none => simp only [prepareCopy, isHostOrder, hread, Option.map_none, Option.bind_eq_bind, Option.bind_none]
  | some h =>
      have hfinish : ∀ (d : Dson) (children : ObjMap) (m : Mem),
          (if d.dsonKind = .oneObjectInDataBuf then (d.toOrder e network m).bind fun q =>
              some ({ q.1 with offset := 0, state := .copyingHeader }, children, q.2)
            else (d.headerToOrder e network m).bind fun q =>
              some ({ q.1 with offset := 0, state := .copyingHeader }, children, q.2)) =
            (if d.dsonKind = .oneObjectInDataBuf then d.toOrder e network m else d.headerToOrder e network m).map
              fun q => (({ q.1 with offset := 0, state := .copyingHeader } : Dson), children, q.2) := by
        intro d children m
        split_ifs
        · cases d.toOrder e network m <;> rfl
        · cases d.headerToOrder e network m <;> rfl
      have hrest : ∀ (d : Dson) (children : ObjMap),
          (if d.dsonKind = .dsonContainer then (DsonObj.dataSize e m (.dson d children)).bind fun size =>
              (d.setDataSizeInternal e m size).bind fun p =>
                if p.1.dsonKind = .oneObjectInDataBuf then (p.1.toOrder e network p.2).bind fun q =>
                    some ({ q.1 with offset := 0, state := .copyingHeader }, children, q.2)
                  else (p.1.headerToOrder e network p.2).bind fun q =>
                    some ({ q.1 with offset := 0, state := .copyingHeader }, children, q.2)
            else (some (d, m)).bind fun p =>
                if p.1.dsonKind = .oneObjectInDataBuf then (p.1.toOrder e network p.2).bind fun q =>
                    some ({ q.1 with offset := 0, state := .copyingHeader }, children, q.2)
                  else (p.1.headerToOrder e network p.2).bind fun q =>
                    some ({ q.1 with offset := 0, state := .copyingHeader }, children, q.2)) =
            (d.prepareHeader e network children m).map fun q =>
              (({ q.1 with offset := 0, state := .copyingHeader } : Dson), children, q.2) := by
        intro d children
        simp only [hfinish, prepareHeader]
        split_ifs
        · cases DsonObj.dataSize e m (.dson d children) with
          | none => rfl
          | some size =>
              simp only [Option.bind_eq_bind, Option.bind_some]
              cases d.setDataSizeInternal e m size <;> rfl
        · rfl
      rw [prepareCopy]
      simp only [isHostOrder, isNetworkOrder, hread, Option.map_some, Option.bind_eq_bind, Option.bind_some, Option.pure_def]
      by_cases hcond : d.dsonKind = .dataBufNeedParse ∧ (h.isHostOrder e ∧ network ∨ h.isNetworkOrder e ∧ ¬network)
      · rw [if_pos hcond, if_pos hcond]
        cases d.parseBuf e children m with
        | none => rfl
        | some p => exact hrest p.1 p.2
      · rw [if_neg hcond, if_neg hcond]
        exact hrest d children

theorem prepareHeader_rewrites {network : Bool} (hrun : d.prepareHeader e network children m = some (d', m')) :
    d.Rewrites m d' m' := by
  simp only [prepareHeader, Option.bind_eq_bind] at hrun
  have horder : ∀ {d : Dson} {m : Mem}, (if d.dsonKind = .oneObjectInDataBuf then d.toOrder e network m
      else d.headerToOrder e network m) = some (d', m') → d.Rewrites m d' m' := by
    intro d m hrun
    split_ifs at hrun
    · exact toOrder_rewrites hrun
    · exact headerToOrder_rewrites hrun
  split_ifs at hrun with hkind
  · obtain ⟨size, -, hrun⟩ := Option.bind_eq_some_iff.mp hrun
    obtain ⟨⟨d₁, m₁⟩, hset, hrun⟩ := Option.bind_eq_some_iff.mp hrun
    exact (setDataSizeInternal_rewrites hset).trans (horder hrun)
  · exact horder hrun

/-- `prepare_copy`: perhaps a parse, and then bytes are written. -/
theorem prepareCopy_cases {network : Bool} (hrun : d.prepareCopy e network children m = some (d', children', m')) :
    ∃ h d₁ d₂, d.header m = some h ∧
      ((d.dsonKind = .dataBufNeedParse ∧ (h.isHostOrder e ∧ network ∨ h.isNetworkOrder e ∧ ¬network) ∧
          d.parseBuf e children m = some (d₁, children')) ∨
        (¬(d.dsonKind = .dataBufNeedParse ∧ (h.isHostOrder e ∧ network ∨ h.isNetworkOrder e ∧ ¬network)) ∧
          d₁ = d ∧ children' = children)) ∧
      d₁.Rewrites m d₂ m' ∧ d' = { d₂ with offset := 0, state := .copyingHeader } := by
  rw [prepareCopy_eq] at hrun
  obtain ⟨h, hh, hrun⟩ := Option.bind_eq_some_iff.mp hrun
  obtain ⟨⟨d₁, children₁⟩, hparse, hrun⟩ := Option.bind_eq_some_iff.mp hrun
  obtain ⟨⟨d₂, m₂⟩, hprepare, heq⟩ := Option.map_eq_some_iff.mp hrun
  cases heq
  refine ⟨h, d₁, d₂, hh, ?_, prepareHeader_rewrites hprepare, rfl⟩
  split_ifs at hparse with hcond
  · exact Or.inl ⟨hcond.1, hcond.2, hparse⟩
  · cases hparse
    exact Or.inr ⟨hcond, rfl, rfl⟩

/-! ### Copies -/

theorem outer_inner (d : Dson) (m : Mem) : d.outer m (d.inner m) = (d, m) := by
  cases hbuf : d.buf <;> simp only [Dson.outer, Dson.inner, hbuf]
  rw [← hbuf]

theorem outer_fields (d : Dson) (m inside : Mem) :
    (d.outer m inside).1 = { d with buf := (d.outer m inside).1.buf } := by
  rw [Dson.outer]
  split <;> rfl

section

variable {σ : Type} [ByteSink σ] (copy : DsonObj → Mem → σ → Option (Result × DsonObj × Mem × σ)) (s : σ)

/-- The data phase of a container is the loop over the children. -/
theorem copyData_container (hkind : d.dsonKind = .dsonContainer) : d.copyData copy children m s =
    (copyMap copy d.copyIter children (d.inner m) s).map fun q => (q.1, .dson { (d.outer m q.2.2.2.1).1 with
      copyIter := q.2.1
      state := if q.1 = .ready then .ready else (d.outer m q.2.2.2.1).1.state } q.2.2.1,
      (d.outer m q.2.2.2.1).2, q.2.2.2.2) := by
  rw [copyData, if_pos hkind]
  cases copyMap copy d.copyIter children (d.inner m) s with
  | none => rfl
  | some q =>
      obtain ⟨r, it, children', inside, s'⟩ := q
      simp only [Option.bind_eq_bind, Option.bind_some, Option.map_some]
      cases r <;> rfl

/-- The data phase of any other object is the copy of its payload. -/
theorem copyData_payload (hkind : d.dsonKind ≠ .dsonContainer) : d.copyData copy children m s =
    (d.copyBuf m s).map fun q => (q.1, .dson q.2.1 children, m, q.2.2) := by
  rw [copyData, if_neg hkind]
  cases d.copyBuf m s <;> rfl

/-- The object as it goes on to the data phase, `n` bytes after it was called. -/
def headerCopied (d : Dson) (children : ObjMap) (n : Nat) : Dson :=
  { d with
    state := .copyingData
    offset := if d.dsonKind = .dsonContainer then d.offset + n else 0
    copyIter := if d.dsonKind = .dsonContainer then mapBegin children else d.copyIter }

theorem copyHeader_eq : d.copyHeader copy children m s =
    if d.offset ≥ headerSize then some (.error, .dson d children, m, s)
    else (d.header m).bind fun h =>
      match ByteSink.write s (h.bytes.drop d.offset) with
      | (none, s) => some (.error, .dson { d with state := .ready } children, m, s)
      | (some n, s) =>
          if d.offset + n < headerSize then some (.inProcess, .dson { d with offset := d.offset + n } children, m, s)
          else (d.headerCopied children n).copyData copy children m s := by
  rw [copyHeader]
  split_ifs with hoff
  · rfl
  · cases d.header m with
    | none => rfl
    | some h =>
        simp only [Option.bind_eq_bind, Option.bind_some]
        rcases ByteSink.write s (h.bytes.drop d.offset) with ⟨n, s'⟩
        cases n with
        | none => rfl
        | some n =>
            have hnext : ({ (if d.dsonKind = .dsonContainer then
                ({ d with offset := d.offset + n, copyIter := mapBegin children } : Dson)
                else { d with offset := 0 }) with state := .copyingData } : Dson) = d.headerCopied children n := by
              rw [headerCopied]
              split_ifs <;> rfl
            simp only [hnext]
            split_ifs <;> rfl

end

end Dson

/-- A lookup in what has not been parsed is a parse and, when that succeeds, a lookup. -/
theorem get_parse {e : Endian} {d d' : Dson} {children children' : ObjMap} {m : Mem}
    (hkind : d.dsonKind = .dataBufNeedParse) (hparse : d.parseBuf e children m = some (d', children')) (key : Int) :
    DsonObj.get e key (.dson d children) m = if d'.state = .ready then DsonObj.get e key (.dson d' children') m
      else some (.null, .dson d' children', m) := by
  rw [DsonObj.get, if_pos hkind, hparse]
  simp only [Option.bind_eq_bind, Option.bind_some]
  by_cases hstate : d'.state = .ready
  · have hparsed : d'.dsonKind ≠ .dataBufNeedParse := by
      rcases Dson.parseBuf_cases hparse with ⟨rfl, -, -⟩ | ⟨-, notUsed, -, ⟨-, rfl⟩ | ⟨-, rfl⟩⟩
      · simp
      · cases hstate
      · simp
    rw [if_neg (not_not.mpr hstate), if_pos hstate, DsonObj.get, if_neg hparsed]
    simp only [Option.bind_eq_bind, Option.bind_some]
    rw [if_neg (not_not.mpr hstate)]
  · rw [if_pos hstate, if_neg hstate]
    rfl

/-- A lookup in a container without children. -/
theorem get_nothing {e : Endian} {d : Dson} (hstate : d.state = .ready) (hkind : d.dsonKind = .dsonContainer)
    (key : Int) (m : Mem) : DsonObj.get e key (.dson d []) m = some (.null, .dson d [], m) := by
  rw [DsonObj.get, if_neg (by simp [hkind])]
  simp only [Option.bind_eq_bind, Option.bind_some]
  rw [if_neg (by simp [hstate])]
  simp only [hkind, DsonObj.getInternal, KeyMap.find]

end LeanDson
