import LeanDson.Object

/-! Views over buffers, parsing, lookup and insertion: the operations that turn an unparsed buffer, a
single object and a container into one another. -/

namespace LeanDson

namespace Dson

variable (e : Endian)

/-- The members of a view before its constructor body. Its array `header_` is never read while
`buf_` is set. -/
def overBuf (p : BufPtr) : Dson :=
  { uninit ⟨⟨0, 0, 0, 0⟩, ⟨0, 0, 0, 0⟩, ⟨0, 0, 0, 0⟩, ⟨0, 0, 0, 0⟩⟩ with
    buf := p
    dsonKind := .dataBufNeedParse }

/-- `pre_parse_buf`. -/
def preParseBuf (d : Dson) (m : Mem) : Option Dson := do
  let size ← DsonObj.dataSize e m (.dson d [])
  if size < 0 ∨ size > maxDsonRamSize then return { d with state := .error }
  let type ← d.dataType e m
  if type = TypesMap.dsonContainer then return { d with dsonKind := .dataBufNeedParse }
  return { d with dsonKind := .oneObjectInDataBuf }

/-- `Dson(char * buf)`. -/
def ofBuf (p : BufPtr) (m : Mem) : Option Dson := (overBuf p).preParseBuf e m

/-- `reset_state`. -/
def resetState (d : Dson) (children : ObjMap) : Dson × ObjMap :=
  if d.state = .error then (d.clear, []) else ({ d with state := .ready }, children)

/-- The loop of `parse_buf` over the bytes at `p`, with `notUsed` bytes left and the cursor at `ptr`.
Every round uses up sixteen bytes or more, or leaves the counter negative, so a fuel of the size of
the buffer is never used up. -/
def parseLoop (p : BufPtr) (m : Mem) : Nat → Int → Int → ObjMap → Option (Int × ObjMap)
  | 0, notUsed, _, map => if notUsed < headerSize then some (notUsed, map) else none
  | fuel + 1, notUsed, ptr, map =>
      if notUsed < headerSize then some (notUsed, map)
      else if ptr < 0 then none
      else do
        let obj ← ofBuf e (p.child ptr.toNat) m
        let key ← obj.key e m
        if key < 0 then return (notUsed, map)
        let size ← DsonObj.dataSize e m (.dson obj [])
        if size < 0 then return (notUsed, map)
        let bufSize := wrap32 (size + headerSize)
        parseLoop p m fuel (wrap32 (notUsed - bufSize)) (ptr + bufSize)
          (KeyMap.insertOrAssign key (.dson obj []) map)

/-- `parse_buf`. -/
def parseBuf (d : Dson) (children : ObjMap) (m : Mem) : Option (Dson × ObjMap) := do
  let type ← d.dataType e m
  if type ≠ TypesMap.dsonContainer then
    return ({ d with dsonKind := .oneObjectInDataBuf }, children)
  let (notUsed, map) ← parseLoop e (d.buf.child 0) (d.inner m) d.bufSize.toNat d.bufSize
    (d.data.getD 0) children
  if notUsed ≠ 0 then return ({ d with state := .error }, map)
  return ({ d with dsonKind := .dsonContainer }, map)

/-- `Dson(char * header, char * buf)`. -/
def ofHeaderAndBuf (h : Header) (p : BufPtr) : Dson :=
  { uninit h with
    buf := p
    dsonKind := .oneObjectInDataBuf }

/-- `one_object_buf_to_container`. -/
def oneObjectBufToContainer (d : Dson) (children : ObjMap) (m : Mem) :
    Option (Dson × ObjMap × Mem) :=
  match d.data with
  | none => some ({ d with state := .error }, children, m)
  | some off => do
      let h ← d.header m
      let obj := ofHeaderAndBuf h (d.buf.child off)
      let key ← obj.key e (d.inner m)
      if key < 0 then return ({ d with state := .error }, children, m)
      let (d, m) ← { d with dsonKind := .dsonContainer }.setDataTypeInternal e m
        TypesMap.dsonContainer
      return (d, KeyMap.insertOrAssign key (.dson obj []) children, m)

/-- The switch on the kind that `map` and `insert_internal` begin with. -/
def openAsContainer (d : Dson) (children : ObjMap) (m : Mem) : Option (Dson × ObjMap × Mem) :=
  match d.dsonKind with
  | .dataBufNeedParse => do
      let (d, children) ← d.parseBuf e children m
      return (d, children, m)
  | .oneObjectInDataBuf => d.oneObjectBufToContainer e children m
  | .dsonContainer => some (d, children, m)

/-- `insert_internal`. -/
def insertInternal (key : Int) (obj : DsonObj) (d : Dson) (children : ObjMap) (m : Mem) :
    Option (Dson × ObjMap × Mem) := do
  let (d, children) := if d.state ≠ .ready then d.resetState children else (d, children)
  let (d, children, m) ← d.openAsContainer e children m
  if d.state ≠ .ready then return (d, children, m)
  let (d, m) ← d.setDataTypeInternal e m TypesMap.dsonContainer
  return (d, KeyMap.insertOrAssign key obj children, m)

end Dson

/-! ### Lookup -/

/-- What a lookup points at. -/
inductive Found where
  | null
  | self
  | child (key : Int)
  deriving DecidableEq, Repr

namespace DsonObj

variable (e : Endian)

/-- Apply an operation to the child under a key. -/
def onChild {α : Type} (key : Int) (f : DsonObj → Mem → Option (α × DsonObj × Mem)) :
    DsonObj → Mem → Option (α × DsonObj × Mem)
  | .dson d children, m => do
      let o ← KeyMap.find key children
      let (a, o, inside) ← f o (d.inner m)
      let (d, m) := d.outer m inside
      return (a, .dson d (KeyMap.insertOrAssign key o children), m)
  | _, _ => none

/-- Apply an operation to the object that a path of keys leads to. -/
def onPath {α : Type} (f : DsonObj → Mem → Option (α × DsonObj × Mem)) :
    List Int → DsonObj → Mem → Option (α × DsonObj × Mem)
  | [] => f
  | key :: path => onChild key (onPath f path)

/-- `Converters::to_host` on a `Dson`; custom objects are left alone. -/
def toHost : DsonObj → Mem → Option (DsonObj × Mem)
  | .dson d children, m => do
      let (d, m) ← d.toHost e m
      return (.dson d children, m)
  | o, m => some (o, m)

/-- `get_internal`. -/
def getInternal (key : Int) (d : Dson) (children : ObjMap) (m : Mem) :
    Option (Found × DsonObj × Mem) :=
  match KeyMap.find key children with
  | none => some (.null, .dson d children, m)
  | some _ => onChild key (fun o m => do
      let (o, m) ← o.toHost e m
      return (Found.child key, o, m)) (.dson d children) m

/-- What `get_internal` does with the child that it finds. -/
def fetch (key : Int) (o : DsonObj) (m : Mem) : Option (Found × DsonObj × Mem) := do
  let (o, m) ← o.toHost e m
  return (Found.child key, o, m)

/-- `get`, on a `Dson`. -/
def get (key : Int) : DsonObj → Mem → Option (Found × DsonObj × Mem)
  | .dson d children, m => do
      let (d, children) ← if d.dsonKind = .dataBufNeedParse then d.parseBuf e children m
        else some (d, children)
      if d.state ≠ .ready then return (.null, .dson d children, m)
      match d.dsonKind with
      | .oneObjectInDataBuf =>
          let own ← d.key e m
          if own = key then
            let (d, m) ← d.toHost e m
            return (.self, .dson d children, m)
          else return (.null, .dson d children, m)
      | .dsonContainer => getInternal e key d children m
      | .dataBufNeedParse => return (.null, .dson d children, m)
  | _, _ => none

/-- The loop of `map`: every child that is a `Dson` is converted to host order. -/
def childrenToHost : ObjMap → Mem → Option (ObjMap × Mem)
  | [], m => some ([], m)
  | (key, o) :: rest, m => do
      let (o, m) ← o.toHost e m
      let (rest, m) ← childrenToHost rest m
      return ((key, o) :: rest, m)

/-- `map`, on a `Dson`. -/
def map : DsonObj → Mem → Option (DsonObj × Mem)
  | .dson d children, m => do
      if d.state ≠ .ready then return (.dson d children, m)
      let (d, children, m) ← d.openAsContainer e children m
      let (children, inside) ← childrenToHost e children (d.inner m)
      let (d, m) := d.outer m inside
      return (.dson d children, m)
  | _, _ => none

/-- `emplace(std::unique_ptr<DsonObj>)`, on a `Dson`. -/
def emplacePtr (obj : DsonObj) : DsonObj → Mem → Option (DsonObj × Mem)
  | .dson d children, m => do
      let key ← obj.key e m
      let (d, children, m) ← d.insertInternal e key obj children m
      return (.dson d children, m)
  | _, _ => none

/-- `emplace(key, obj)`, on a `Dson`: the object is given its key and moved in. -/
def emplace (key : Int) (obj : DsonObj) : DsonObj → Mem → Option (DsonObj × Mem)
  | .dson d children, m => do
      let (obj, m) ← obj.setKey e m key
      let (d, children, m) ← d.insertInternal e key obj children m
      return (.dson d children, m)
  | _, _ => none

end DsonObj

end LeanDson
