import LeanDson.Conversion

/-! Writes in place. Setters and conversions rewrite bytes where they lie: no block changes its length, and of
an object only `header_` and the bytes of its block change. -/

namespace LeanDson

/-- The same blocks, with other bytes in them. -/
structure Mem.SameSize (m m' : Mem) : Prop where
  owner : m'.owner.length = m.owner.length
  external : m'.external.length = m.external.length

/-- The same pointer, or a block of the same length. -/
inductive BufPtr.SameSize : BufPtr → BufPtr → Prop
  | same (p : BufPtr) : SameSize p p
  | own {block block' : Bytes} (hlen : block'.length = block.length) : SameSize (.own block) (.own block')

/-- The object and its memory after bytes have been written. -/
structure Dson.Rewrites (d : Dson) (m : Mem) (d' : Dson) (m' : Mem) : Prop where
  fields : d' = { d with headerBuf := d'.headerBuf, buf := d'.buf }
  buf : d.buf.SameSize d'.buf
  mem : m.SameSize m'

theorem Mem.SameSize.refl (m : Mem) : m.SameSize m := ⟨rfl, rfl⟩

theorem Mem.SameSize.trans {m m' m'' : Mem} (h : m.SameSize m') (h' : m'.SameSize m'') : m.SameSize m'' :=
  ⟨h'.owner.trans h.owner, h'.external.trans h.external⟩

theorem Mem.SameSize.setBlock (m : Mem) (r : Region) {bs : Bytes} (hlen : bs.length = (m.block r).length) :
    m.SameSize (m.setBlock r bs) := by
  cases r with
  | owner => exact ⟨hlen, rfl⟩
  | external => exact ⟨rfl, hlen⟩

theorem BufPtr.SameSize.trans {p p' p'' : BufPtr} (h : p.SameSize p') (h' : p'.SameSize p'') : p.SameSize p'' := by
  cases h with
  | same => exact h'
  | own hlen =>
      cases h' with
      | same => exact .own hlen
      | own hlen' => exact .own (hlen'.trans hlen)

/-- A block stays a block of its length. -/
theorem BufPtr.SameSize.of_own {block : Bytes} {p : BufPtr} (h : BufPtr.SameSize (.own block) p) :
    ∃ block', p = .own block' ∧ block'.length = block.length := by
  cases h with
  | same => exact ⟨block, rfl, rfl⟩
  | own hlen => exact ⟨_, rfl, hlen⟩

/-- As many bytes are written as have been read. -/
theorem BufPtr.setTail_sameSize {p : BufPtr} {m : Mem} {off : Nat} {t t' : Bytes} (h : p.tail m off = some t)
    (hlen : t'.length = t.length) : p.SameSize (p.setTail m off t').1 ∧ m.SameSize (p.setTail m off t').2 := by
  cases p with
  | null => cases h
  | own block =>
      rw [tail] at h
      split_ifs at h with hoff
      cases h
      rw [List.length_drop] at hlen
      refine ⟨.own ?_, Mem.SameSize.refl m⟩
      rw [List.length_append, List.length_take]
      omega
  | view region base =>
      rw [tail] at h
      split_ifs at h with hoff
      cases h
      rw [List.length_drop] at hlen
      refine ⟨.same _, Mem.SameSize.setBlock m region ?_⟩
      rw [List.length_append, List.length_take]
      omega

namespace Dson

variable {e : Endian} {d d' d'' : Dson} {m m' m'' : Mem}

theorem Rewrites.refl (d : Dson) (m : Mem) : d.Rewrites m d m := ⟨rfl, .same _, Mem.SameSize.refl m⟩

theorem Rewrites.trans (h : d.Rewrites m d' m') (h' : d'.Rewrites m' d'' m'') : d.Rewrites m d'' m'' where
  fields := by
    rw [h'.fields, h.fields]
  buf := h.buf.trans h'.buf
  mem := h.mem.trans h'.mem

section

variable (h : d.Rewrites m d' m')

include h

theorem Rewrites.state : d'.state = d.state := by rw [h.fields]

theorem Rewrites.offset : d'.offset = d.offset := by rw [h.fields]

theorem Rewrites.bufSize : d'.bufSize = d.bufSize := by rw [h.fields]

theorem Rewrites.wasBufAllocation : d'.wasBufAllocation = d.wasBufAllocation := by rw [h.fields]

theorem Rewrites.dsonKind : d'.dsonKind = d.dsonKind := by rw [h.fields]

end

theorem rewrites_setTail {off : Nat} {t t' : Bytes} (h : d.buf.tail m off = some t) (hlen : t'.length = t.length) :
    d.Rewrites m { d with buf := (d.buf.setTail m off t').1 } (d.buf.setTail m off t').2 :=
  ⟨rfl, (BufPtr.setTail_sameSize h hlen).1, (BufPtr.setTail_sameSize h hlen).2⟩

theorem setHeader_rewrites {h : Header} (hrun : d.setHeader m h = some (d', m')) : d.Rewrites m d' m' := by
  by_cases hlocal : d.headerIsLocal
  · rw [setHeader, if_pos hlocal] at hrun
    cases hrun
    exact ⟨rfl, .same _, Mem.SameSize.refl m⟩
  · rw [setHeader, if_neg hlocal] at hrun
    simp only [Option.bind_eq_bind, Option.bind_eq_some_iff, Option.pure_def] at hrun
    obtain ⟨t, ht, ⟨h₀, rest⟩, hread, heq⟩ := hrun
    cases heq
    refine rewrites_setTail ht ?_
    rw [Header.eq_of_read hread, List.length_append, List.length_append, Header.bytes_length, Header.bytes_length]

/-- A setter reads the header and writes it. -/
theorem rewrites_of_header {f : Header → Header}
    (hrun : (d.header m).bind (fun h => d.setHeader m (f h)) = some (d', m')) : d.Rewrites m d' m' := by
  obtain ⟨h, -, hset⟩ := Option.bind_eq_some_iff.mp hrun
  exact setHeader_rewrites hset

theorem setKey_rewrites {key : Int} (hrun : d.setKey e m key = some (d', m')) : d.Rewrites m d' m' :=
  rewrites_of_header hrun

theorem setDataTypeInternal_rewrites {type : Int} (hrun : d.setDataTypeInternal e m type = some (d', m')) :
    d.Rewrites m d' m' := rewrites_of_header hrun

theorem setDataSizeInternal_rewrites {size : Int} (hrun : d.setDataSizeInternal e m size = some (d', m')) :
    d.Rewrites m d' m' := rewrites_of_header hrun

theorem headerToOrder_rewrites {network : Bool} (hrun : d.headerToOrder e network m = some (d', m')) :
    d.Rewrites m d' m' := rewrites_of_header hrun

theorem convertData_rewrites {converter : Converter} (hlocal : converter.Local)
    (hrun : d.convertData converter m = some (d', m')) : d.Rewrites m d' m' := by
  rw [convertData] at hrun
  split at hrun
  · cases hrun
    exact Rewrites.refl d m
  · simp only [Option.bind_eq_bind, Option.bind_eq_some_iff, Option.pure_def] at hrun
    obtain ⟨h, -, t, ht, t', hconv, heq⟩ := hrun
    cases heq
    exact rewrites_setTail ht (hlocal h t t' hconv).1

theorem toHost_rewrites (hrun : d.toHost e m = some (d', m')) : d.Rewrites m d' m' := by
  simp only [toHost, Option.bind_eq_bind, Option.bind_eq_some_iff, Option.pure_def] at hrun
  obtain ⟨host, -, hrun⟩ := hrun
  split_ifs at hrun
  · cases hrun
    exact Rewrites.refl d m
  obtain ⟨type, -, hrun⟩ := Option.bind_eq_some_iff.mp hrun
  split at hrun
  · cases hrun
    exact Rewrites.refl d m
  · next converter hconv =>
      obtain ⟨⟨d₁, m₁⟩, hheader, hdata⟩ := Option.bind_eq_some_iff.mp hrun
      exact (headerToOrder_rewrites hheader).trans
        (convertData_rewrites (converterTo_local (show converterTo e false _ = some converter from hconv)) hdata)

theorem toNetwork_rewrites (hrun : d.toNetwork e m = some (d', m')) : d.Rewrites m d' m' := by
  simp only [toNetwork, Option.bind_eq_bind, Option.bind_eq_some_iff, Option.pure_def] at hrun
  obtain ⟨network, -, hrun⟩ := hrun
  split_ifs at hrun
  · cases hrun
    exact Rewrites.refl d m
  obtain ⟨type, -, hrun⟩ := Option.bind_eq_some_iff.mp hrun
  split at hrun
  · cases hrun
    exact Rewrites.refl d m
  next converter hconv =>
    unfold toNetworkInternal at hrun
    split at hrun
    · cases hrun
      exact Rewrites.refl d m
    · obtain ⟨⟨d₁, m₁⟩, hdata, hheader⟩ := Option.bind_eq_some_iff.mp hrun
      exact (convertData_rewrites (converterTo_local (show converterTo e true _ = some converter from hconv)) hdata).trans
        (headerToOrder_rewrites hheader)

theorem toOrder_rewrites {network : Bool} (hrun : d.toOrder e network m = some (d', m')) : d.Rewrites m d' m' := by
  cases network with
  | false => exact toHost_rewrites hrun
  | true => exact toNetwork_rewrites hrun

end Dson

end LeanDson
