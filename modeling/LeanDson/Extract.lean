import LeanDson.Copy

/-! The typed extractors of `from_dson_converters.h` and `to_address`. Each converts the object to
host order first and then reads as many bytes as the type says, whatever the size of the payload. -/

namespace LeanDson

/-! ### Stored numbers -/

/-- A number at the data pointer, with the type it is stored as. -/
inductive Number where
  | int32 (v : Int)
  | uint32 (v : Nat)
  | int64 (v : Int)
  | uint64 (v : Nat)
  | double (x : Binary64)
  deriving DecidableEq

/-- The unsigned number a host reads from the first `w` bytes at the data pointer. -/
def readNat (e : Endian) (w : Nat) (data : Bytes) : Option Nat :=
  if data.length < w then none else some (natOf e (data.take w))

/-- The dereference behind each `case` of the extractors. -/
def readNumber (e : Endian) (type : Int) (data : Bytes) : Option Number :=
  if type = TypesMap.int32 then (readNat e 4 data).map fun n => .int32 (toInt32 n)
  else if type = TypesMap.uint32 then (readNat e 4 data).map .uint32
  else if type = TypesMap.int64 then (readNat e 8 data).map fun n => .int64 (toInt64 n)
  else if type = TypesMap.uint64 then (readNat e 8 data).map .uint64
  else (readDouble e data).map .double

/-- The types the numeric extractors have a case for. -/
def IsNumeric (type : Int) : Prop :=
  type = TypesMap.int32 ∨ type = TypesMap.uint32 ∨ type = TypesMap.int64 ∨ type = TypesMap.uint64 ∨
    type = TypesMap.double

instance (type : Int) : Decidable (IsNumeric type) := inferInstanceAs (Decidable (_ ∨ _))

namespace Number

/-- The cases of `to_uint32`; none where the default is returned. -/
def toUInt32 : Number → Option Nat
  | .uint32 v => some v
  | .int32 v => if 0 ≤ v then some v.toNat else none
  | .uint64 v => if v ≤ 2 ^ 32 - 1 then some v else none
  | .int64 v => if 0 ≤ v ∧ v ≤ 2 ^ 32 - 1 then some v.toNat else none
  | .double x => if x.between 0 (2 ^ 32 - 1) then some x.trunc.toNat else none

/-- The cases of `to_int32`. -/
def toInt32 : Number → Option Int
  | .int32 v => some v
  | .uint32 v => if v ≤ 2 ^ 31 - 1 then some v else none
  | .uint64 v => if v ≤ 2 ^ 31 - 1 then some v else none
  | .int64 v => if -2 ^ 31 ≤ v ∧ v ≤ 2 ^ 31 - 1 then some v else none
  | .double x => if x.between (-2 ^ 31) (2 ^ 31 - 1) then some x.trunc else none

/-- The cases of `to_uint64`. The largest `std::uint64_t` is `2 ^ 64` as a double; the cast of that double is
undefined, and what is left here is no `std::uint64_t`. -/
def toUInt64 : Number → Option Nat
  | .uint32 v => some v
  | .int32 v => if 0 ≤ v then some v.toNat else none
  | .uint64 v => some v
  | .int64 v => if 0 ≤ v then some v.toNat else none
  | .double x => if x.between 0 (2 ^ 64) then some x.trunc.toNat else none

/-- The cases of `to_int64`. A double is compared with the largest `std::int32_t`. -/
def toInt64 : Number → Option Int
  | .int32 v => some v
  | .uint32 v => some v
  | .uint64 v => if v ≤ 2 ^ 63 - 1 then some v else none
  | .int64 v => some v
  | .double x => if x.between (-2 ^ 63) (2 ^ 31 - 1) then some x.trunc else none

/-- The cases of `to_double`. -/
def toDouble : Number → Option Binary64
  | .int32 v => some (Binary64.ofInt v)
  | .uint32 v => some (Binary64.ofInt v)
  | .uint64 v => some (Binary64.ofInt v)
  | .int64 v => some (Binary64.ofInt v)
  | .double x => some x

end Number

/-! ### Extractors -/

/-- The four words at a pointer to an address. -/
def Address.read (data : Bytes) : Option Address := do
  let (fromServId, data) ← Cell.read data
  let (fromCliId, data) ← Cell.read data
  let (toServId, data) ← Cell.read data
  let (toCliId, _) ← Cell.read data
  return ⟨fromServId, fromCliId, toServId, toCliId⟩

namespace DsonObj

variable (e : Endian)

/-- The part the numeric extractors share: convert to host order, then read the number; none where
the type has no case. -/
def toNumber : DsonObj → Mem → Option (Option Number × DsonObj × Mem)
  | .dson d children, m => do
      let (d, m) ← d.toHost e m
      let type ← d.dataType e m
      if ¬IsNumeric type then return (none, .dson d children, m)
      let off ← d.data
      let t ← d.buf.tail m off
      let n ← readNumber e type t
      return (some n, .dson d children, m)
  | o, m => some (none, o, m)

/-- An extractor with the cases `cases` and the default `dflt`. -/
def extract {α : Type} (cases : Number → Option α) (dflt : α) (o : DsonObj) (m : Mem) :
    Option (α × DsonObj × Mem) := do
  let (n, o, m) ← o.toNumber e m
  return ((n.bind cases).getD dflt, o, m)

def toUInt32 (dflt : Nat) : DsonObj → Mem → Option (Nat × DsonObj × Mem) :=
  extract e Number.toUInt32 dflt

def toInt32 (dflt : Int) : DsonObj → Mem → Option (Int × DsonObj × Mem) :=
  extract e Number.toInt32 dflt

def toUInt64 (dflt : Nat) : DsonObj → Mem → Option (Nat × DsonObj × Mem) :=
  extract e Number.toUInt64 dflt

def toInt64 (dflt : Int) : DsonObj → Mem → Option (Int × DsonObj × Mem) :=
  extract e Number.toInt64 dflt

def toDouble (dflt : Binary64) : DsonObj → Mem → Option (Binary64 × DsonObj × Mem) :=
  extract e Number.toDouble dflt

/-- `to_string_view`, as the bytes of the view. A view of nothing may have a null pointer. -/
def toStringView : DsonObj → Mem → Option Bytes
  | .dson d children, m => do
      let type ← d.dataType e m
      if type ≠ TypesMap.string then return []
      let size ← DsonObj.dataSize e m (.dson d children)
      let n := (size % 2 ^ 32).toNat
      match d.data with
      | none => if n = 0 then return [] else none
      | some off => do
          let t ← d.buf.tail m off
          if t.length < n then none else return t.take n
  | .string s, _ => some s.object
  | .route _, _ => some []

/-- `to_address`, as the four words behind the pointer; none for a null pointer. -/
def toAddress : DsonObj → Mem → Option (Option Address × DsonObj × Mem)
  | .dson d children, m => do
      let (d, m) ← d.toHost e m
      match d.data with
      | none => return (none, .dson d children, m)
      | some off => do
          let t ← d.buf.tail m off
          let a ← Address.read t
          return (some a, .dson d children, m)
  | .route r, m => some (some (r.toOrder e false).address, .route (r.toOrder e false), m)
  | .string s, m => some (none, .string s, m)

end DsonObj

end LeanDson
