import LeanDson.Payload
import LeanDson.Object

/-! Conversions of objects where they lie. A `Dson` reads its header and its payload through `header()`
and `data()`; whether these are a local array and a block of its own or two parts of a foreign block,
the byte-order conversions act on the pair as on a record. -/

namespace LeanDson

@[simp] theorem Mem.block_setBlock (m : Mem) (r : Region) (bs : Bytes) : (m.setBlock r bs).block r = bs := by
  cases r <;> rfl

@[simp] theorem Mem.setBlock_setBlock (m : Mem) (r : Region) (as bs : Bytes) :
    (m.setBlock r as).setBlock r bs = m.setBlock r bs := by
  cases r <;> rfl

@[simp] theorem Mem.setBlock_block (m : Mem) (r : Region) : m.setBlock r (m.block r) = m := by
  cases r <;> rfl

theorem BufPtr.tail_view (m : Mem) (r : Region) {front : Bytes} {off n : Nat}
    (hoff : front.length = off + n) (bs : Bytes) :
    (BufPtr.view r off).tail (m.setBlock r (front ++ bs)) n = some bs := by
  simp only [tail, Mem.block_setBlock]
  rw [← hoff, if_pos (by simp), List.drop_left]

theorem BufPtr.setTail_view (m : Mem) (r : Region) {front : Bytes} {off n : Nat}
    (hoff : front.length = off + n) (bs bs' : Bytes) :
    (BufPtr.view r off).setTail (m.setBlock r (front ++ bs)) n bs' =
      (.view r off, m.setBlock r (front ++ bs')) := by
  simp only [setTail, Mem.block_setBlock, Mem.setBlock_setBlock]
  rw [← hoff, List.take_left]

/-- Writing back what has been read changes nothing. -/
theorem BufPtr.setTail_self {p : BufPtr} {m : Mem} {off : Nat} {t : Bytes} (h : p.tail m off = some t) :
    p.setTail m off t = (p, m) := by
  cases p with
  | null => cases h
  | own block =>
      rw [tail] at h
      split_ifs at h
      cases h
      rw [setTail, List.take_append_drop]
  | view region base =>
      rw [tail] at h
      split_ifs at h
      cases h
      rw [setTail, List.take_append_drop, Mem.setBlock_block]

/-- What has been written is read. -/
theorem BufPtr.tail_setTail {p : BufPtr} {m : Mem} {off : Nat} {t : Bytes} (h : p.tail m off = some t) (t' : Bytes) :
    (p.setTail m off t').1.tail (p.setTail m off t').2 off = some t' := by
  cases p with
  | null => cases h
  | own block =>
      rw [tail] at h
      split_ifs at h with hoff
      rw [setTail, tail, if_pos (by rw [List.length_append, List.length_take]; omega),
        List.drop_left' (by rw [List.length_take]; omega)]
  | view region base =>
      rw [tail] at h
      split_ifs at h with hoff
      rw [setTail, tail, Mem.block_setBlock, if_pos (by rw [List.length_append, List.length_take]; omega),
        List.drop_left' (by rw [List.length_take]; omega)]

theorem BufPtr.setTail_isNull (p : BufPtr) (m : Mem) (off : Nat) (t : Bytes) :
    (p.setTail m off t).1.isNull = p.isNull := by
  cases p <;> rfl

namespace Dson

/-! ### Headers -/

section

variable {d : Dson} {m : Mem} {h : Header} (hread : d.header m = some h)

include hread

/-- Turning to host order goes by the header. -/
theorem toHost_header (e : Endian) (hstate : d.state ≠ .error) :
    d.toHost e m = if h.isHostOrder e then some (d, m)
      else match toHostOrder e (h.dataTypeOf e) with
        | none => some (d, m)
        | some converter => d.toHostInternal e converter m := by
  rw [toHost, isHostOrder, dataType, if_neg hstate, hread]
  rfl

/-- Writing back the header changes nothing. -/
theorem setHeader_self : d.setHeader m h = some (d, m) := by
  by_cases hlocal : d.headerIsLocal
  · rw [header, if_pos hlocal] at hread
    cases hread
    rw [setHeader, if_pos hlocal]
  · rw [header, if_neg hlocal] at hread
    cases htail : d.buf.tail m 0 with
    | none =>
        rw [htail] at hread
        cases hread
    | some t =>
        rw [htail, Option.bind_eq_bind, Option.bind_some] at hread
        cases hparse : Header.read t with
        | none =>
            rw [hparse] at hread
            cases hread
        | some p =>
            rw [hparse] at hread
            cases hread
            rw [setHeader, if_neg hlocal, htail, Option.bind_eq_bind, Option.bind_some, hparse]
            simp only [Option.bind_eq_bind, Option.bind_some, ← Header.eq_of_read hparse, BufPtr.setTail_self htail]
            rfl

/-- A header that can be read can be written, and nothing else of the object changes. -/
theorem setHeader_read (h' : Header) : ∃ d' m', d.setHeader m h' = some (d', m') ∧ d'.header m' = some h' ∧
    d' = { d with headerBuf := d'.headerBuf, buf := d'.buf } ∧ d'.buf.isNull = d.buf.isNull := by
  by_cases hlocal : d.headerIsLocal
  · exact ⟨_, _, if_pos hlocal, if_pos hlocal, rfl, rfl⟩
  · rw [header, if_neg hlocal] at hread
    cases htail : d.buf.tail m 0 with
    | none =>
        rw [htail] at hread
        cases hread
    | some t =>
        rw [htail, Option.bind_eq_bind, Option.bind_some] at hread
        cases hparse : Header.read t with
        | none =>
            rw [hparse] at hread
            cases hread
        | some p =>
            have hnull := d.buf.setTail_isNull m 0 (h'.bytes ++ p.2)
            refine ⟨{ d with buf := (d.buf.setTail m 0 (h'.bytes ++ p.2)).1 }, (d.buf.setTail m 0 (h'.bytes ++ p.2)).2,
              ?_, ?_, rfl, hnull⟩
            · rw [setHeader, if_neg hlocal, htail, Option.bind_eq_bind, Option.bind_some, hparse]
              rfl
            · rw [header, if_neg (by rw [headerIsLocal, hnull]; exact hlocal)]
              simp only [BufPtr.tail_setTail htail, Option.bind_eq_bind, Option.bind_some, Header.read_bytes_append]
              rfl

end

/-! ### Local headers -/

section

variable {d : Dson} (hlocal : d.headerIsLocal = true) (m : Mem)

include hlocal

theorem header_local : d.header m = some d.headerBuf := if_pos hlocal

theorem setHeader_local (h : Header) : d.setHeader m h = some ({ d with headerBuf := h }, m) := if_pos hlocal

theorem setDataSizeInternal_local (e : Endian) (size : Int) :
    d.setDataSizeInternal e m size = some ({ d with headerBuf := d.headerBuf.setDataSize e size }, m) := by
  rw [setDataSizeInternal, header_local hlocal]
  exact setHeader_local hlocal m _

theorem setDataTypeInternal_local (e : Endian) (type : Int) :
    d.setDataTypeInternal e m type = some ({ d with headerBuf := d.headerBuf.setDataType e type }, m) := by
  rw [setDataTypeInternal, header_local hlocal]
  exact setHeader_local hlocal m _

theorem setKey_local (e : Endian) (key : Int) :
    d.setKey e m key = some ({ d with headerBuf := d.headerBuf.setKey e key }, m) := by
  rw [setKey, header_local hlocal]
  exact setHeader_local hlocal m _

theorem headerToOrder_local (e : Endian) (network : Bool) :
    d.headerToOrder e network m = some ({ d with headerBuf := d.headerBuf.toOrder e network }, m) := by
  rw [headerToOrder, header_local hlocal]
  exact setHeader_local hlocal m _

end

/-! ### Records in memory -/

/-- `put h b` is one object, with its memory, over the header `h` and the accessible bytes `b` from
its data pointer on. -/
structure IsRecord (put : Header → Bytes → Dson × Mem) : Prop where
  header : ∀ h b, (put h b).1.header (put h b).2 = some h
  setHeader : ∀ h b h', (put h b).1.setHeader (put h b).2 h' = some (put h' b)
  convertData : ∀ c h b, (put h b).1.convertData c (put h b).2 = (c h b).map (put h)
  state : ∀ h b, (put h b).1.state ≠ .error
  data : ∀ h b, (put h b).1.data ≠ none

namespace IsRecord

variable {put : Header → Bytes → Dson × Mem} (hput : IsRecord put) (e : Endian) (h : Header) (b : Bytes)

include hput

theorem dataType : (put h b).1.dataType e (put h b).2 = some (h.dataTypeOf e) := by
  rw [Dson.dataType, if_neg (hput.state h b), hput.header]
  rfl

theorem headerToOrder (network : Bool) :
    (put h b).1.headerToOrder e network (put h b).2 = some (put (h.toOrder e network) b) := by
  rw [Dson.headerToOrder, hput.header]
  exact hput.setHeader h b _

/-- A conversion of the object is the conversion of the record. -/
theorem toOrder (network : Bool) :
    (put h b).1.toOrder e network (put h b).2 =
      (convertRecord e network h b).map fun p => put p.1 p.2 := by
  cases network with
  | false =>
      rw [Dson.toOrder, if_neg (by simp), Dson.toHost_header (hput.header h b) e (hput.state h b)]
      by_cases hin : h.isHostOrder e
      · rw [if_pos hin, @convertRecord_inOrder e false h hin b]
        rfl
      rw [if_neg hin]
      cases hconv : toHostOrder e (h.dataTypeOf e) with
      | none =>
          rw [@convertRecord_none e false h hconv b]
          rfl
      | some c =>
          rw [@convertRecord_some e false h c hin hconv b]
          simp only [Dson.toHostInternal, hput.headerToOrder e h b false, Option.bind_eq_bind,
            Option.bind_some, hput.convertData]
          rw [Option.map_map]
          rfl
  | true =>
      have hnet : (put h b).1.isNetworkOrder e (put h b).2 = some (h.isNetworkOrder e) := by
        rw [Dson.isNetworkOrder, hput.header]
        rfl
      rw [Dson.toOrder, if_pos rfl, Dson.toNetwork, hnet]
      simp only [Option.bind_eq_bind, Option.bind_some, hput.dataType]
      by_cases hin : h.isNetworkOrder e
      · rw [if_pos hin, @convertRecord_inOrder e true h hin b]
        rfl
      rw [if_neg hin]
      cases hconv : toNetworkOrder e (h.dataTypeOf e) with
      | none =>
          rw [@convertRecord_none e true h hconv b]
          rfl
      | some c =>
          rw [@convertRecord_some e true h c hin hconv b]
          obtain ⟨off, hoff⟩ := Option.ne_none_iff_exists'.mp (hput.data h b)
          simp only [Dson.toNetworkInternal, hoff, hput.convertData, if_true]
          cases c h b with
          | none => rfl
          | some b' =>
              simp only [Option.map_some, Option.bind_eq_bind, Option.bind_some,
                hput.headerToOrder e h b' true]

end IsRecord

/-! ### The two places -/

/-- A local header and a block of its own. -/
theorem isRecord_own {d : Dson} (halloc : d.wasBufAllocation = true) (hstate : d.state ≠ .error)
    (m : Mem) : IsRecord fun h b => ({ d with headerBuf := h, buf := .own b }, m) where
  header h b := by simp [Dson.header, headerIsLocal, halloc]
  setHeader h b h' := by simp [Dson.setHeader, headerIsLocal, halloc]
  convertData c h b := by
    simp only [Dson.convertData, Dson.data, hstate, halloc, BufPtr.isNull, Dson.header, headerIsLocal,
      BufPtr.tail, BufPtr.setTail]
    rw [Option.map_eq_bind]
    simp
  state h b := hstate
  data h b := by simp [Dson.data, hstate, halloc, BufPtr.isNull]

/-- A header and a payload in a foreign block. -/
theorem isRecord_view {d : Dson} {r : Region} {off : Nat} (halloc : d.wasBufAllocation = false)
    (hstate : d.state ≠ .error) (hbuf : d.buf = .view r off) (m : Mem) {front : Bytes}
    (hoff : front.length = off) : IsRecord fun h b => (d, m.setBlock r (front ++ (h.bytes ++ b))) := by
  have hd : { d with buf := .view r off } = d := by rw [← hbuf]
  have hlocal : d.headerIsLocal = false := by simp [headerIsLocal, halloc, hbuf, BufPtr.isNull]
  have hdata : d.data = some headerSize := by
    rw [Dson.data, if_neg (by simp [hstate, hbuf, BufPtr.isNull]), if_neg (by simp [halloc])]
  have hheader : ∀ h b, d.header (m.setBlock r (front ++ (h.bytes ++ b))) = some h := fun h b => by
    rw [Dson.header, hlocal, if_neg (by simp), hbuf, BufPtr.tail_view m r (n := 0) hoff, Option.bind_eq_bind,
      Option.bind_some, Header.read_bytes_append]
    rfl
  refine ⟨hheader, fun h b h' => ?_, fun c h b => ?_, fun _ _ => hstate, fun h b => by simp [hdata]⟩
  · rw [Dson.setHeader, hlocal, if_neg (by simp), hbuf, BufPtr.tail_view m r (n := 0) hoff,
      Option.bind_eq_bind, Option.bind_some, Header.read_bytes_append]
    simp only [Option.bind_eq_bind, Option.bind_some, BufPtr.setTail_view m r (n := 0) hoff, hd]
    rfl
  · have hlen : (front ++ h.bytes).length = off + headerSize := by simp [hoff, headerSize]
    simp only [Dson.convertData, hdata, hheader]
    simp only [← List.append_assoc, hbuf, BufPtr.tail_view m r hlen, BufPtr.setTail_view m r hlen, hd,
      Option.bind_eq_bind, Option.bind_some]
    rw [Option.map_eq_bind]
    rfl

end Dson

end LeanDson
