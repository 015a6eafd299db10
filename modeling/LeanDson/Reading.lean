import LeanDson.Views

/-! The extractors on a child of a parsed container. The child is a view of its record: an extractor
converts the record and reads from its data pointer on, where the bytes of the following records are in
reach. -/

namespace LeanDson

/-! ### Views and the bytes behind their records -/

/-- A view of a header and what follows it, as the parser makes them. -/
structure Dson.IsView (d : Dson) (off : Nat) : Prop where
  state : d.state ≠ .error
  kind : d.dsonKind ≠ .dsonContainer
  alloc : d.wasBufAllocation = false
  buf : d.buf = .view .owner off

theorem Record.view_isView (e : Endian) (off : Nat) (r : Record) : (r.view e off).IsView off := by
  refine ⟨by simp [view, Dson.overBuf, Dson.uninit], ?_, rfl, rfl⟩
  rw [view]
  split_ifs <;> simp

namespace Dson.IsView

section

variable {d : Dson} {off : Nat} (hd : d.IsView off)

include hd

theorem data : d.data = some headerSize := by
  rw [Dson.data, if_neg (by simp [hd.state, hd.buf, BufPtr.isNull]), if_neg (by simp [hd.alloc])]

end

section

variable {d : Dson} {m : Mem} {front b : Bytes} {h : Header} (hd : d.IsView front.length)
  (hblock : m.owner = front ++ (h.bytes ++ b))

include hd hblock

theorem header : d.header m = some h := header_view hd.alloc hd.buf hblock rfl

theorem dataType (e : Endian) : d.dataType e m = some (h.dataTypeOf e) := by
  rw [Dson.dataType, if_neg hd.state, hd.header hblock]
  rfl

theorem dataSize (e : Endian) (children : ObjMap) :
    DsonObj.dataSize e m (.dson d children) = some (h.dataSizeOf e) := by
  rw [dataSize_header hd.kind, hd.header hblock]
  rfl

/-- The accessible bytes at the data pointer. -/
theorem tail : d.buf.tail m headerSize = some b := by
  have hlen : (front ++ h.bytes).length = front.length + headerSize := by
    rw [List.length_append, Header.bytes_length, headerSize]
  have htail := BufPtr.tail_view m .owner hlen b
  have hm : m.setBlock .owner (front ++ h.bytes ++ b) = m := by
    have hall : front ++ h.bytes ++ b = m.block .owner := by rw [Mem.block, hblock, List.append_assoc]
    rw [hall, Mem.setBlock_block]
  rwa [hm, ← hd.buf] at htail

/-- A view converts its record where it lies. -/
theorem toHost (e : Endian) : d.toHost e m = (convertRecord e false h b).map fun p =>
    (d, { m with owner := front ++ (p.1.bytes ++ p.2) }) := by
  have hrec := (isRecord_view hd.alloc hd.state hd.buf m rfl).toOrder e h b false
  have hm : m.setBlock .owner (front ++ (h.bytes ++ b)) = m := by
    rw [← hblock]
    exact m.setBlock_block .owner
  rw [hm, toOrder, if_neg (by simp)] at hrec
  exact hrec

end

end Dson.IsView

/-! ### Extractors -/

/-- What the numeric extractors find behind a header. -/
def numberIn (e : Endian) (h : Header) (b : Bytes) : Option (Option Number) :=
  if IsNumeric (h.dataTypeOf e) then (readNumber e (h.dataTypeOf e) b).map some else some none

/-- What `to_string_view` finds behind a header. -/
def stringIn (e : Endian) (h : Header) (b : Bytes) : Option Bytes :=
  if h.dataTypeOf e ≠ TypesMap.string then some []
  else if b.length < (h.dataSizeOf e % 2 ^ 32).toNat then none else some (b.take (h.dataSizeOf e % 2 ^ 32).toNat)

/-- An extractor on a view: the record is converted, and the answer read from it. -/
def readingHost {α : Type} (e : Endian) (read : Header → Bytes → Option α) (h : Header) (b : Bytes) :
    Option (α × Bytes) :=
  (convertRecord e false h b).bind fun p => (read p.1 p.2).map fun a => (a, p.1.bytes ++ p.2)

namespace Dson.IsView

variable {d : Dson} {m : Mem} {front b : Bytes} {h : Header} (hd : d.IsView front.length)
  (hblock : m.owner = front ++ (h.bytes ++ b)) (e : Endian) (children : ObjMap)

include hd hblock

theorem toNumber : DsonObj.toNumber e (.dson d children) m = (readingHost e (numberIn e) h b).map fun p =>
    (p.1, .dson d children, { m with owner := front ++ p.2 }) := by
  rw [DsonObj.toNumber, hd.toHost hblock, readingHost]
  cases convertRecord e false h b with
  | none => rfl
  | some p =>
      obtain ⟨h', b'⟩ := p
      have hblock' : ({ m with owner := front ++ (h'.bytes ++ b') } : Mem).owner = front ++ (h'.bytes ++ b') := rfl
      simp only [Option.map_some, Option.bind_eq_bind, Option.bind_some, hd.dataType hblock', hd.data,
        hd.tail hblock', numberIn]
      by_cases hnum : IsNumeric (h'.dataTypeOf e)
      · rw [if_neg (by simpa using hnum), if_pos hnum]
        cases readNumber e (h'.dataTypeOf e) b' <;> rfl
      · rw [if_pos hnum, if_neg hnum]
        rfl

theorem extract {α : Type} (cases : Number → Option α) (dflt : α) :
    DsonObj.extract e cases dflt (.dson d children) m =
      (readingHost e (fun h b => (numberIn e h b).map fun n => (n.bind cases).getD dflt) h b).map fun p =>
        (p.1, .dson d children, { m with owner := front ++ p.2 }) := by
  rw [DsonObj.extract, hd.toNumber hblock, readingHost, readingHost]
  cases convertRecord e false h b with
  | none => rfl
  | some p =>
      simp only [Option.bind_some]
      cases numberIn e p.1 p.2 <;> rfl

theorem toAddress : DsonObj.toAddress e (.dson d children) m =
    (readingHost e (fun _ b => (Address.read b).map some) h b).map fun p =>
      (p.1, .dson d children, { m with owner := front ++ p.2 }) := by
  rw [DsonObj.toAddress, hd.toHost hblock, readingHost]
  cases convertRecord e false h b with
  | none => rfl
  | some p =>
      obtain ⟨h', b'⟩ := p
      have hblock' : ({ m with owner := front ++ (h'.bytes ++ b') } : Mem).owner = front ++ (h'.bytes ++ b') := rfl
      simp only [Option.map_some, Option.bind_eq_bind, Option.bind_some, hd.data, hd.tail hblock']
      cases Address.read b' <;> rfl

theorem toStringView : DsonObj.toStringView e (.dson d children) m = stringIn e h b := by
  rw [DsonObj.toStringView, hd.dataType hblock, stringIn]
  simp only [Option.bind_eq_bind, Option.bind_some, hd.data, hd.tail hblock, hd.dataSize hblock]
  rfl

end Dson.IsView

end LeanDson
