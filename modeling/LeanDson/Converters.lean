import LeanDson.Header
import LeanDson.Binary64

/-! The table of byte-order converters. A converter works in place on the bytes from the data
pointer on: it is modelled as a map of the accessible bytes, undefined when it reads or writes past
them. Strings and containers have no entry. -/

namespace LeanDson

/-- Overwrite the first bytes of a block. -/
def poke (data new : Bytes) : Option Bytes :=
  if data.length < new.length then none else some (new ++ data.drop new.length)

/-! ### Doubles -/

/-- The tag in front of an encoded double. -/
inductive FloatPointType where
  | normalNegative
  | normalPositive
  | naN
  | infNegative
  | infPositive
  deriving DecidableEq, Repr

def FloatPointType.byte : FloatPointType → UInt8
  | .normalNegative => 0
  | .normalPositive => 1
  | .naN => 2
  | .infNegative => 3
  | .infPositive => 4

/-- `buf_size_for_double`: tag, mantissa and exponent. -/
def bufSizeForDouble : Nat := 13

def doubleMantissaBits : Int := 53

/-- The double a host reads at the data pointer. -/
def readDouble (e : Endian) (data : Bytes) : Option Binary64 :=
  if data.length < 8 then none else some (Binary64.ofNat (natOf e (data.take 8)))

/-- The double an encoding stands for. Any tag but the three special ones is followed by a mantissa
and an exponent. -/
def networkDouble : Bytes → Option Binary64
  | [] => none
  | tag :: rest =>
      if tag = FloatPointType.naN.byte then some .quietNaN
      else if tag = FloatPointType.infNegative.byte then some (.infinity true)
      else if tag = FloatPointType.infPositive.byte then some (.infinity false)
      else if rest.length < 12 then none
      else
        let mantissa := natOf .big (rest.take 8)
        let exp := toInt32 (natOf .big ((rest.drop 8).take 4))
        let res := (Binary64.ofUInt64 mantissa).ldexp exp
        some (if tag = FloatPointType.normalNegative.byte then res.neg else res)

/-- `double_in_buf_to_host_order`. -/
def doubleInBufToHostOrder (e : Endian) (data : Bytes) : Option Bytes := do
  let res ← networkDouble data
  poke data (bytesOf e 8 res.toNat)

/-- `double_in_buf_to_network_order`. A NaN or an infinity leaves only its tag. -/
def doubleInBufToNetworkOrder (e : Endian) (data : Bytes) : Option Bytes := do
  let source ← readDouble e data
  if source.isNaN then poke data [FloatPointType.naN.byte]
  else if source.isInf then
    poke data [if source.isNegative then FloatPointType.infNegative.byte
      else FloatPointType.infPositive.byte]
  else
    let tag := if source.isNegative then FloatPointType.normalNegative.byte
      else FloatPointType.normalPositive.byte
    let (frac, exp) := source.fabs.frexp
    let mantissa := (frac.ldexp doubleMantissaBits).toUInt64
    poke data (tag :: (bytesOf .big 8 mantissa ++
      bytesOf .big 4 (ofInt32 (exp - doubleMantissaBits))))

/-! ### The table -/

/-- A `Converter`: the header and the bytes from the data pointer on. -/
abbrev Converter := Header → Bytes → Option Bytes

/-- `*var = ntohl(*var)` on a 32-bit word. -/
def word32Converter (e : Endian) : Converter := fun _ data => do
  let (c, rest) ← Cell.read data
  return (c.ntohl e).bytes ++ rest

/-- `*var = ntohll(*var)` on a 64-bit word. -/
def word64Converter (e : Endian) : Converter := fun _ data =>
  if data.length < 8 then none
  else match e with
    | .little => some ((data.take 8).reverse ++ data.drop 8)
    | .big => some data

/-- The number of words in an array payload: `header.data_size_ / sizeof(std::uint32_t)`, the size
widened to 64 bits and the quotient narrowed to 32. -/
def arraySize (e : Endian) (h : Header) : Nat :=
  (h.dataSize.int32 e % 2 ^ 64).toNat / 4 % 2 ^ 32

/-- `array[i] = ntohl(array[i])` over `n` words. -/
def swapArray (e : Endian) : Nat → Bytes → Option Bytes
  | 0, data => some data
  | n + 1, data => do
      let (c, rest) ← Cell.read data
      let rest' ← swapArray e n rest
      return (c.ntohl e).bytes ++ rest'

def arrayConverter (e : Endian) : Converter := fun h data => swapArray e (arraySize e h) data

/-- `to_host_order_.find`. -/
def toHostOrder (e : Endian) (type : Int) : Option Converter :=
  if type = TypesMap.int32 ∨ type = TypesMap.uint32 then some (word32Converter e)
  else if type = TypesMap.int64 ∨ type = TypesMap.uint64 then some (word64Converter e)
  else if type = TypesMap.double then some fun _ data => doubleInBufToHostOrder e data
  else if type = TypesMap.vectorUint32 then some (arrayConverter e)
  else none

/-- `to_network_order_.find`. -/
def toNetworkOrder (e : Endian) (type : Int) : Option Converter :=
  if type = TypesMap.int32 ∨ type = TypesMap.uint32 then some (word32Converter e)
  else if type = TypesMap.int64 ∨ type = TypesMap.uint64 then some (word64Converter e)
  else if type = TypesMap.double then some fun _ data => doubleInBufToNetworkOrder e data
  else if type = TypesMap.vectorUint32 then some (arrayConverter e)
  else none

/-- The converter for one of the two directions. -/
def converterTo (e : Endian) (network : Bool) (type : Int) : Option Converter :=
  if network then toNetworkOrder e type else toHostOrder e type

/-- The entries of the table. -/
theorem converterTo_cases {e : Endian} {network : Bool} {type : Int} {c : Converter}
    (h : converterTo e network type = some c) :
    ((type = TypesMap.int32 ∨ type = TypesMap.uint32) ∧ c = word32Converter e) ∨
      ((type = TypesMap.int64 ∨ type = TypesMap.uint64) ∧ c = word64Converter e) ∨
      (type = TypesMap.double ∧ c = fun _ data =>
        if network then doubleInBufToNetworkOrder e data else doubleInBufToHostOrder e data) ∨
      (type = TypesMap.vectorUint32 ∧ c = arrayConverter e) := by
  unfold converterTo toNetworkOrder toHostOrder at h
  cases network <;> simp only [Bool.false_eq_true, if_false, if_true] at h ⊢ <;> split_ifs at h <;>
    cases h <;> simp [*]

end LeanDson
