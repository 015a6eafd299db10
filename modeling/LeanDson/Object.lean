import LeanDson.Converters
import LeanDson.Channels
import LeanDson.KeyMap

/-! The objects of the library and their accessors. Operations are partial: an access outside the
block it is made in, or through a null pointer, has no outcome. Assertions are compiled out.

Ownership is a tree, so a block that a `Dson` has allocated is kept in the object itself, and the
views made while parsing point into the block of the nearest enclosing object that owns one. -/

namespace LeanDson

/-! ### Data -/

/-- `DsonObj::State`. -/
inductive State where
  | ready
  | loadingHeader
  | loadingData
  | copyingHeader
  | copyingData
  | error
  deriving DecidableEq, Repr

/-- What lies inside a `Dson`. -/
inductive DsonKind where
  | dsonContainer
  | dataBufNeedParse
  | oneObjectInDataBuf
  deriving DecidableEq, Repr

/-- `copy_iter_`: default-initialised, at the node of a key, or at the end. -/
inductive CopyIter where
  | unset
  | node (key : Int)
  | finished
  deriving DecidableEq, Repr

/-- Where memory that an object does not own lies: in the block of the enclosing owner, or outside
the library's objects. -/
inductive Region where
  | owner
  | external
  deriving DecidableEq, Repr

/-- The memory around an object. -/
structure Mem where
  owner : Bytes
  external : Bytes
  deriving DecidableEq, Repr

def Mem.block (m : Mem) : Region → Bytes
  | .owner => m.owner
  | .external => m.external

def Mem.setBlock (m : Mem) : Region → Bytes → Mem
  | .owner, bs => { m with owner := bs }
  | .external, bs => { m with external := bs }

/-- `buf_`: null, a block this object has allocated, or a pointer into memory owned elsewhere. -/
inductive BufPtr where
  | null
  | own (block : Bytes)
  | view (region : Region) (off : Nat)
  deriving DecidableEq, Repr

namespace BufPtr

def isNull : BufPtr → Bool
  | .null => true
  | _ => false

/-- The accessible bytes from `buf_ + off` on. -/
def tail (p : BufPtr) (m : Mem) (off : Nat) : Option Bytes :=
  match p with
  | .null => none
  | .own block => if off ≤ block.length then some (block.drop off) else none
  | .view region base =>
      if base + off ≤ (m.block region).length then some ((m.block region).drop (base + off)) else none

/-- Replace the bytes from `buf_ + off` on. -/
def setTail (p : BufPtr) (m : Mem) (off : Nat) (bs : Bytes) : BufPtr × Mem :=
  match p with
  | .null => (.null, m)
  | .own block => (.own (block.take off ++ bs), m)
  | .view region base =>
      (p, m.setBlock region ((m.block region).take (base + off) ++ bs))

/-- The pointer `buf_ + off`, as the children of the object see it. -/
def child (p : BufPtr) (off : Nat) : BufPtr :=
  match p with
  | .null => .null
  | .own _ => .view .owner off
  | .view region base => .view region (base + off)

end BufPtr

/-- The fields of a `Dson`, its map of children apart. -/
structure Dson where
  state : State
  offset : Nat
  /-- `header_`. -/
  headerBuf : Header
  buf : BufPtr
  bufSize : Int
  wasBufAllocation : Bool
  dsonKind : DsonKind
  copyIter : CopyIter
  deriving DecidableEq, Repr

structure DsonStringObj where
  state : State
  offset : Nat
  header : Header
  object : Bytes
  deriving DecidableEq, Repr

structure Address where
  fromServId : Cell
  fromCliId : Cell
  toServId : Cell
  toCliId : Cell
  deriving DecidableEq, Repr

structure DsonRouteObj where
  state : State
  offset : Nat
  header : Header
  address : Address
  deriving DecidableEq, Repr

/-- An object: a `Dson` with its `key_to_val_map_`, or one of the two custom objects. -/
inductive DsonObj where
  | dson (d : Dson) (keyToValMap : List (Int × DsonObj))
  | string (s : DsonStringObj)
  | route (r : DsonRouteObj)

abbrev ObjMap := List (Int × DsonObj)

/-! ### The memory of a `Dson` -/

namespace Dson

/-- The memory the children of an object live in. -/
def inner (d : Dson) (m : Mem) : Mem :=
  match d.buf with
  | .own block => { m with owner := block }
  | _ => m

/-- The object and its surroundings after its children have changed their memory. -/
def outer (d : Dson) (m inside : Mem) : Dson × Mem :=
  match d.buf with
  | .own _ => ({ d with buf := .own inside.owner }, { m with external := inside.external })
  | _ => (d, inside)

/-- The header is the local array, not the start of `buf_`. -/
def headerIsLocal (d : Dson) : Bool := d.wasBufAllocation || d.buf.isNull

/-- `header()`, `header_as_array()` and `header_as_char_buf()`, read. -/
def header (d : Dson) (m : Mem) : Option Header :=
  if d.headerIsLocal then some d.headerBuf
  else do
    let t ← d.buf.tail m 0
    let (h, _) ← Header.read t
    return h

/-- `header()` written. -/
def setHeader (d : Dson) (m : Mem) (h : Header) : Option (Dson × Mem) :=
  if d.headerIsLocal then some ({ d with headerBuf := h }, m)
  else do
    let t ← d.buf.tail m 0
    let (_, rest) ← Header.read t
    let (p, m') := d.buf.setTail m 0 (h.bytes ++ rest)
    return ({ d with buf := p }, m')

/-- `data()`, as an offset from `buf_`; none for a null pointer. -/
def data (d : Dson) : Option Nat :=
  if d.state = .error ∨ d.buf.isNull then none
  else if d.wasBufAllocation then some 0
  else some headerSize

variable (e : Endian)

def isHostOrder (d : Dson) (m : Mem) : Option Bool := (d.header m).map (·.isHostOrder e)

def isNetworkOrder (d : Dson) (m : Mem) : Option Bool := (d.header m).map (·.isNetworkOrder e)

def key (d : Dson) (m : Mem) : Option Int := (d.header m).map (·.keyOf e)

def setKey (d : Dson) (m : Mem) (key : Int) : Option (Dson × Mem) := do
  let h ← d.header m
  d.setHeader m (h.setKey e key)

def dataType (d : Dson) (m : Mem) : Option Int :=
  if d.state = .error then some TypesMap.empty else (d.header m).map (·.dataTypeOf e)

def setDataTypeInternal (d : Dson) (m : Mem) (type : Int) : Option (Dson × Mem) := do
  let h ← d.header m
  d.setHeader m (h.setDataType e type)

def setDataSizeInternal (d : Dson) (m : Mem) (size : Int) : Option (Dson × Mem) := do
  let h ← d.header m
  d.setHeader m (h.setDataSize e size)

/-- `header_to_host` or `header_to_network`. -/
def headerToOrder (network : Bool) (d : Dson) (m : Mem) : Option (Dson × Mem) := do
  let h ← d.header m
  d.setHeader m (h.toOrder e network)

/-- Apply a converter at the data pointer, if there is one. -/
def convertData (converter : Converter) (d : Dson) (m : Mem) : Option (Dson × Mem) :=
  match d.data with
  | none => some (d, m)
  | some off => do
      let h ← d.header m
      let t ← d.buf.tail m off
      let t' ← converter h t
      let (p, m') := d.buf.setTail m off t'
      return ({ d with buf := p }, m')

/-- The header must be in host order while the converter runs. -/
def toHostInternal (converter : Converter) (d : Dson) (m : Mem) : Option (Dson × Mem) := do
  let (d, m) ← d.headerToOrder e false m
  d.convertData converter m

/-- Without a data pointer the header stays as it is, too. -/
def toNetworkInternal (converter : Converter) (d : Dson) (m : Mem) : Option (Dson × Mem) :=
  match d.data with
  | none => some (d, m)
  | some _ => do
      let (d, m) ← d.convertData converter m
      d.headerToOrder e true m

/-- `Converters::to_host`. -/
def toHost (d : Dson) (m : Mem) : Option (Dson × Mem) := do
  let host ← d.isHostOrder e m
  if host then return (d, m)
  else
    let type ← d.dataType e m
    match toHostOrder e type with
    | none => return (d, m)
    | some converter => d.toHostInternal e converter m

/-- `Converters::to_network`. -/
def toNetwork (d : Dson) (m : Mem) : Option (Dson × Mem) := do
  let network ← d.isNetworkOrder e m
  if network then return (d, m)
  else
    let type ← d.dataType e m
    match toNetworkOrder e type with
    | none => return (d, m)
    | some converter => d.toNetworkInternal e converter m

/-- `Converters::to_network` or `Converters::to_host`. -/
def toOrder (network : Bool) (d : Dson) (m : Mem) : Option (Dson × Mem) :=
  if network then d.toNetwork e m else d.toHost e m

end Dson

/-! ### Sizes

A container adds up its children in 32-bit signed arithmetic; every other object reads its
header. -/

def DsonStringObj.dataSize (e : Endian) (s : DsonStringObj) : Int := s.header.dataSizeOf e

def addressSize : Nat := 16

mutual

/-- `data_size`. -/
def DsonObj.dataSize (e : Endian) (m : Mem) : DsonObj → Option Int
  | .dson d children =>
      match d.dsonKind with
      | .dsonContainer => DsonObj.dataSizes e (d.inner m) children
      | _ => (d.header m).map (·.dataSizeOf e)
  | .string s => some (s.dataSize e)
  | .route _ => some addressSize

/-- The sum over the children of a container. -/
def DsonObj.dataSizes (e : Endian) (m : Mem) : ObjMap → Option Int
  | [] => some 0
  | (_, o) :: rest => do
      let size ← DsonObj.dataSize e m o
      let sum ← DsonObj.dataSizes e m rest
      return wrap32 (wrap32 (size + headerSize) + sum)

end

namespace DsonObj

def key (e : Endian) (m : Mem) : DsonObj → Option Int
  | .dson d _ => d.key e m
  | .string s => some (s.header.keyOf e)
  | .route r => some (r.header.keyOf e)

def setKey (e : Endian) (m : Mem) (key : Int) : DsonObj → Option (DsonObj × Mem)
  | .dson d children => do
      let (d, m) ← d.setKey e m key
      return (.dson d children, m)
  | .string s => some (.string { s with header := s.header.setKey e key }, m)
  | .route r => some (.route { r with header := r.header.setKey e key }, m)

def dataType (e : Endian) (m : Mem) : DsonObj → Option Int
  | .dson d _ => d.dataType e m
  | .string s => some (s.header.dataTypeOf e)
  | .route _ => some TypesMap.vectorUint32

def state : DsonObj → State
  | .dson d _ => d.state
  | .string s => s.state
  | .route r => r.state

end DsonObj

/-! ### Construction -/

namespace Dson

/-- The header of a default-constructed `Dson`: `clear_header`. -/
def clearHeader (e : Endian) : Header :=
  ⟨markHostOrder e, Cell.ofInt e 0, Cell.ofInt e 0, Cell.ofInt e TypesMap.empty⟩

/-- The members before any constructor body has run, over an array `header_` that holds `h`. -/
def uninit (h : Header) : Dson where
  state := .ready
  offset := 0
  headerBuf := h
  buf := .null
  bufSize := 0
  wasBufAllocation := false
  dsonKind := .dsonContainer
  copyIter := .unset

/-- `clear`, the map of children apart: it becomes empty. -/
def clear (d : Dson) : Dson where
  state := .ready
  offset := d.offset
  headerBuf := d.headerBuf
  buf := if d.wasBufAllocation then .null else d.buf
  bufSize := 0
  wasBufAllocation := false
  dsonKind := .dsonContainer
  copyIter := .unset

/-- `allocate`: `malloc` gives a block whose bytes are `junk`; none when no block is allocated. -/
def allocate (junk : Nat → UInt8) (d : Dson) (size : Int) : Option Dson :=
  if size ≤ 0 then none
  else some { d with
    buf := .own ((List.range size.toNat).map junk)
    bufSize := size
    wasBufAllocation := true }

/-- `init(data_type, data_size)`. The key word of the header keeps what it held. Without a block the
object stays as `clear` left it. -/
def init (e : Endian) (junk : Nat → UInt8) (d : Dson) (type size : Int) : Dson :=
  match d.clear.allocate junk size with
  | none => d.clear
  | some d => { d with
      headerBuf := { d.headerBuf with
        markByteOrder := markHostOrder e
        dataSize := Cell.ofInt e size
        dataType := Cell.ofInt e type }
      dsonKind := .oneObjectInDataBuf }

/-- Store a value at the start of the block. -/
def store (d : Dson) (value : Bytes) : Option Dson := do
  let t ← d.buf.tail ⟨[], []⟩ 0
  let t' ← poke t value
  return { d with buf := .own t' }

end Dson

namespace DsonObj

/-- `Dson()`. -/
def empty (e : Endian) : DsonObj := .dson (Dson.uninit (Dson.clearHeader e)) []

section Constructors

/- The value constructors run over uninitialised memory: the array `header_` and the allocated
block. -/
variable (e : Endian) (h : Header) (junk : Nat → UInt8)

/-- `Dson(T)` for a value stored as `value` at the start of a block of `size` bytes. -/
def ofValue (type : Int) (size : Nat) (value : Bytes) : Option DsonObj := do
  let d ← ((Dson.uninit h).init e junk type (wrap32 size)).store value
  return .dson d []

/-- `Dson(std::uint32_t)`. -/
def ofUInt32 (v : Nat) : Option DsonObj := ofValue e h junk TypesMap.uint32 4 (bytesOf e 4 v)

/-- `Dson(std::int32_t)`. -/
def ofInt32 (v : Int) : Option DsonObj := ofValue e h junk TypesMap.int32 4 (Cell.ofInt e v).bytes

/-- `Dson(double)`: eight of the thirteen bytes are written. -/
def ofDouble (x : Binary64) : Option DsonObj :=
  ofValue e h junk TypesMap.double bufSizeForDouble (bytesOf e 8 x.toNat)

/-- `Dson(std::string)` and `Dson(std::string_view)`. With nothing allocated, nothing is copied from
an empty string. -/
def ofString (s : Bytes) : Option DsonObj :=
  if s = [] then some (.dson ((Dson.uninit h).init e junk TypesMap.string 0) [])
  else ofValue e h junk TypesMap.string s.length s

/-- `DsonStringObj(key, object)`. -/
def ofStringObj (key : Int) (object : Bytes) : DsonObj :=
  .string ⟨.ready, 0, ⟨markHostOrder e, Cell.ofInt e (wrap32 object.length), Cell.ofInt e key,
    Cell.ofInt e TypesMap.string⟩, object⟩

/-- `DsonRouteObj(key)`, its address then written through `address()`. -/
def ofRouteObj (key : Int) (a : Address) : DsonObj :=
  .route ⟨.ready, 0, ⟨markHostOrder e, Cell.ofInt e addressSize, Cell.ofInt e key,
    Cell.ofInt e TypesMap.vectorUint32⟩, a⟩

end Constructors

end DsonObj

end LeanDson
