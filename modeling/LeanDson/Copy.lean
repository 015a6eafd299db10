import LeanDson.Parse

/-! The emitters. `copy_to_fd_internal` and `copy_to_buf_internal` are one function over the sink it
writes to; only a file descriptor can fail. An object that is parsed on the way out gets children
that it did not have before, so the recursion runs on a fuel; the entry points give it enough for the
depth of the object and of what a parse can add. -/

namespace LeanDson

open ByteSink

/-! ### Custom objects -/

section Custom

variable (e : Endian) {σ : Type} [ByteSink σ]

/-- `DsonStringObj`: the `CopyingData` branch. -/
def DsonStringObj.copyData (o : DsonStringObj) (s : σ) : Result × DsonStringObj × σ :=
  let size := wrap32 o.object.length
  if (o.offset : Int) ≥ size then (.error, o, s)
  else match write s ((o.object.take size.toNat).drop o.offset) with
    | (none, s) => (.error, o, s)
    | (some n, s) =>
        let o := { o with offset := o.offset + n }
        if (o.offset : Int) < size then (.inProcess, o, s)
        else (.ready, { o with state := .ready }, s)

/-- `DsonStringObj::copy_to_fd_local` and `copy_to_buf_local`. -/
def DsonStringObj.copyLocal (o : DsonStringObj) (s : σ) : Result × DsonStringObj × σ :=
  match o.state with
  | .copyingHeader =>
      if o.offset ≥ headerSize then (.error, o, s)
      else match write s (o.header.bytes.drop o.offset) with
        | (none, s) => (.error, o, s)
        | (some n, s) =>
            let o := { o with offset := o.offset + n }
            if o.offset < headerSize then (.inProcess, o, s)
            else { o with state := .copyingData, offset := 0 }.copyData s
  | .copyingData => o.copyData s
  | _ => (.error, o, s)

/-- `prepare_header_host_order` or `prepare_header_network_order`. -/
def DsonStringObj.prepareHeader (network : Bool) (o : DsonStringObj) : DsonStringObj :=
  { o with header := o.header.toOrder e network }

/-- `copy_to_fd_*` and `copy_to_buf_*` of a string object. -/
def DsonStringObj.copyTo (network : Bool) (o : DsonStringObj) (s : σ) : Result × DsonStringObj × σ :=
  if o.state = .ready then
    { o.prepareHeader e network with state := .copyingHeader, offset := 0 }.copyLocal s
  else o.copyLocal s

/-- The four words of an address, as they lie in memory. -/
def Address.bytes (a : Address) : Bytes :=
  a.fromServId.bytes ++ a.fromCliId.bytes ++ a.toServId.bytes ++ a.toCliId.bytes

def Address.swapWords (a : Address) : Address :=
  ⟨a.fromServId.ntohl e, a.fromCliId.ntohl e, a.toServId.ntohl e, a.toCliId.ntohl e⟩

/-- `to_host_order` or `to_network_order`: the whole buffer is swapped at once. -/
def DsonRouteObj.toOrder (network : Bool) (o : DsonRouteObj) : DsonRouteObj :=
  if (if network then o.header.isNetworkOrder e else o.header.isHostOrder e) then o
  else { o with header := o.header.swapWords e, address := o.address.swapWords e }

/-- `buf_` of a route object. -/
def DsonRouteObj.bytes (o : DsonRouteObj) : Bytes := o.header.bytes ++ o.address.bytes

/-- `DsonRouteObj::copy_to_fd_local` and `copy_to_buf_local`. -/
def DsonRouteObj.copyLocal (o : DsonRouteObj) (s : σ) : Result × DsonRouteObj × σ :=
  match o.state with
  | .copyingHeader =>
      if o.offset ≥ headerSize + addressSize then (.error, o, s)
      else match write s (o.bytes.drop o.offset) with
        | (none, s) => (.error, o, s)
        | (some n, s) =>
            let o := { o with offset := o.offset + n }
            if o.offset < headerSize + addressSize then (.inProcess, o, s)
            else (.ready, { o with state := .ready }, s)
  | _ => (.error, o, s)

/-- `copy_to_fd_*` and `copy_to_buf_*` of a route object. -/
def DsonRouteObj.copyTo (network : Bool) (o : DsonRouteObj) (s : σ) : Result × DsonRouteObj × σ :=
  if o.state = .ready then
    { o.toOrder e network with state := .copyingHeader, offset := 0 }.copyLocal s
  else o.copyLocal s

end Custom

/-! ### Fuel -/

mutual

/-- One more than the levels of containers, those a parse can add included. -/
def DsonObj.depth : DsonObj → Nat
  | .dson _ children => max 1 (DsonObj.depths children) + 1
  | .string _ => 1
  | .route _ => 1

def DsonObj.depths : ObjMap → Nat
  | [] => 0
  | (_, o) :: rest => max o.depth (DsonObj.depths rest)

end

/-! ### The incremental emitter -/

namespace Dson

variable (e : Endian)

/-- `buf_size_without_header`. -/
def bufSizeWithoutHeader (d : Dson) : Int :=
  if d.wasBufAllocation then d.bufSize else d.bufSize - headerSize

/-- The `Ready` branch, up to the first byte: parse when the order has to change, set the size of a
container, convert, rewind. -/
def prepareCopy (network : Bool) (d : Dson) (children : ObjMap) (m : Mem) :
    Option (Dson × ObjMap × Mem) := do
  let host ← d.isHostOrder e m
  let net ← d.isNetworkOrder e m
  let (d, children) ←
    if d.dsonKind = .dataBufNeedParse ∧ (host ∧ network ∨ net ∧ ¬network) then
      d.parseBuf e children m
    else some (d, children)
  let (d, m) ←
    if d.dsonKind = .dsonContainer then do
      let size ← DsonObj.dataSize e m (.dson d children)
      d.setDataSizeInternal e m size
    else some (d, m)
  let (d, m) ←
    if d.dsonKind = .oneObjectInDataBuf then d.toOrder e network m
    else d.headerToOrder e network m
  return ({ d with offset := 0, state := .copyingHeader }, children, m)

/-- `key_to_val_map_.begin()`. -/
def mapBegin : ObjMap → CopyIter
  | [] => .finished
  | (key, _) :: _ => .node key

section Incremental

variable {σ : Type} [ByteSink σ]

/-- `copy_to_fd_internal_buf` and `copy_to_buf_internal_buf`. -/
def copyBuf (d : Dson) (m : Mem) (s : σ) : Option (Result × Dson × σ) :=
  let size := d.bufSizeWithoutHeader
  if (d.offset : Int) ≥ size then some (.error, d, s)
  else do
    let off ← d.data
    let t ← d.buf.tail m off
    if (t.length : Int) < size then none
    else match write s ((t.take size.toNat).drop d.offset) with
      | (none, s) => return (.error, { d with state := .ready }, s)
      | (some n, s) =>
          let d := { d with offset := d.offset + n }
          if (d.offset : Int) = size then return (.ready, { d with state := .ready }, s)
          return (.inProcess, d, s)

/-- The loop over the children, from the node of `copy_iter_` on: stop at the first one that is not
`ready`. `copy` emits one child. -/
def copyMap (copy : DsonObj → Mem → σ → Option (Result × DsonObj × Mem × σ)) :
    CopyIter → ObjMap → Mem → σ → Option (Result × CopyIter × ObjMap × Mem × σ)
  | .unset, _, _, _ => none
  | .finished, children, m, s => some (.ready, .finished, children, m, s)
  | .node _, [], m, s => some (.ready, .finished, [], m, s)
  | .node key, (k, o) :: rest, m, s =>
      if k < key then do
        let (r, it, rest, m, s) ← copyMap copy (.node key) rest m s
        return (r, it, (k, o) :: rest, m, s)
      else do
        let (r, o, m, s) ← copy o m s
        if r ≠ .ready then return (r, .node k, (k, o) :: rest, m, s)
        let (r, it, rest, m, s) ← copyMap copy (mapBegin rest) rest m s
        return (r, it, (k, o) :: rest, m, s)

/-- The `CopyingData` branch. -/
def copyData (copy : DsonObj → Mem → σ → Option (Result × DsonObj × Mem × σ)) (d : Dson) (children : ObjMap)
    (m : Mem) (s : σ) : Option (Result × DsonObj × Mem × σ) :=
  if d.dsonKind = .dsonContainer then do
    let (r, it, children, inside, s) ← copyMap copy d.copyIter children (d.inner m) s
    let (d, m) := d.outer m inside
    let d := { d with copyIter := it }
    if r ≠ .ready then return (r, .dson d children, m, s)
    return (.ready, .dson { d with state := .ready } children, m, s)
  else do
    let (r, d, s) ← d.copyBuf m s
    return (r, .dson d children, m, s)

/-- The `CopyingHeader` branch. -/
def copyHeader (copy : DsonObj → Mem → σ → Option (Result × DsonObj × Mem × σ)) (d : Dson) (children : ObjMap)
    (m : Mem) (s : σ) : Option (Result × DsonObj × Mem × σ) :=
  if d.offset ≥ headerSize then some (.error, .dson d children, m, s)
  else do
    let h ← d.header m
    match write s (h.bytes.drop d.offset) with
    | (none, s) => return (.error, .dson { d with state := .ready } children, m, s)
    | (some n, s) =>
        let d := { d with offset := d.offset + n }
        if d.offset < headerSize then return (.inProcess, .dson d children, m, s)
        let d := if d.dsonKind = .dsonContainer then { d with copyIter := mapBegin children }
          else { d with offset := 0 }
        { d with state := .copyingData }.copyData copy children m s

/-- `copy_to_fd_internal` and `copy_to_buf_internal`, with `copy` for the children. -/
def copyInternal (copy : DsonObj → Mem → σ → Option (Result × DsonObj × Mem × σ)) (network : Bool) (d : Dson)
    (children : ObjMap) (m : Mem) (s : σ) : Option (Result × DsonObj × Mem × σ) :=
  match d.state with
  | .ready => do
      let (d, children, m) ← d.prepareCopy e network children m
      d.copyHeader copy children m s
  | .copyingHeader => d.copyHeader copy children m s
  | .copyingData => d.copyData copy children m s
  | _ => some (.error, .dson d children, m, s)

end Incremental

end Dson

namespace DsonObj

variable (e : Endian)

section Incremental

variable {σ : Type} [ByteSink σ]

/-- The virtual `copy_to_fd_*` and `copy_to_buf_*`, on a fuel. -/
def copyFuel (network : Bool) : Nat → DsonObj → Mem → σ → Option (Result × DsonObj × Mem × σ)
  | 0, _, _, _ => none
  | _ + 1, .string o, m, s =>
      let (r, o, s) := o.copyTo e network s
      some (r, .string o, m, s)
  | _ + 1, .route o, m, s =>
      let (r, o, s) := o.copyTo e network s
      some (r, .route o, m, s)
  | fuel + 1, .dson d children, m, s =>
      d.copyInternal e (copyFuel network fuel) network children m s

def copyTo (network : Bool) (o : DsonObj) (m : Mem) (s : σ) : Option (Result × DsonObj × Mem × σ) :=
  o.copyFuel e network o.depth m s

end Incremental

/-- One call of an emitter, on an object with its memory. -/
def copyCall {σ : Type} [ByteSink σ] (network : Bool) (p : DsonObj × Mem) (s : σ) :
    Option (Result × (DsonObj × Mem) × σ) := do
  let (r, o, m, s) ← p.1.copyTo e network p.2 s
  return (r, (o, m), s)

/-- Repeated calls of an emitter, one for each sink, until one is not `inProcess`. -/
def copyRun {σ : Type} [ByteSink σ] (network : Bool) (o : DsonObj) (m : Mem) (ss : List σ) :
    Option (Result × (DsonObj × Mem) × Bytes) :=
  emitRun (copyCall e network) (o, m) ss

/-- `copy_to_fd_host_order`. -/
def copyToFdHostOrder (o : DsonObj) (m : Mem) (fd : FdOut) : Option (Result × DsonObj × Mem × FdOut) :=
  o.copyTo e false m fd

/-- `copy_to_fd_network_order`. -/
def copyToFdNetworkOrder (o : DsonObj) (m : Mem) (fd : FdOut) : Option (Result × DsonObj × Mem × FdOut) :=
  o.copyTo e true m fd

/-- `copy_to_buf_host_order`. -/
def copyToBufHostOrder (o : DsonObj) (m : Mem) (buf : BufOut) : Option (Result × DsonObj × Mem × BufOut) :=
  o.copyTo e false m buf

/-- `copy_to_buf_network_order`. -/
def copyToBufNetworkOrder (o : DsonObj) (m : Mem) (buf : BufOut) : Option (Result × DsonObj × Mem × BufOut) :=
  o.copyTo e true m buf

/-- `to_buf_host_order`: the vector and the object; no vector when its constructor throws. Only an assertion
looks at the result of the copy. -/
def toBufHostOrder (o : DsonObj) (m : Mem) : Option (Option Bytes × DsonObj × Mem) := do
  let size ← o.dataSize e m
  let bufSize := wrap32 (size + headerSize)
  if bufSize < 0 then return (none, o, m)
  let (_, o, m, buf) ← o.copyToBufHostOrder e m (BufOut.fresh bufSize.toNat)
  return (some (buf.out ++ List.replicate buf.room 0), o, m)

end DsonObj

/-! ### The stream emitter

The whole object is appended to the stream in one call, and no state changes. -/

namespace Dson

variable (e : Endian)

/-- `copy_to_stream_header_internal` and `copy_to_stream_data_internal`: the bytes they append. -/
def streamHeader (d : Dson) (m : Mem) (size : Int) : Option (Dson × Mem × Bytes) := do
  let (d, m) ← if d.dsonKind = .dsonContainer then d.setDataSizeInternal e m size else some (d, m)
  let h ← d.header m
  return (d, m, h.bytes)

def streamData (d : Dson) (m : Mem) (size : Int) : Option Bytes :=
  if size = 0 then some []
  else if size < 0 then none
  else do
    let off ← d.data
    let t ← d.buf.tail m off
    if (t.length : Int) < size then none else some (t.take size.toNat)

/-- A header and a payload as they lie in memory. -/
def streamRaw (d : Dson) (children : ObjMap) (m : Mem) (size : Int) :
    Option (DsonObj × Mem × Bytes) := do
  let (d, m, head) ← d.streamHeader e m size
  let payload ← d.streamData m size
  return (.dson d children, m, head ++ payload)

/-- The loop over the children. -/
def streamMap (copy : DsonObj → Mem → Option (DsonObj × Mem × Bytes)) :
    ObjMap → Mem → Option (ObjMap × Mem × Bytes)
  | [], m => some ([], m, [])
  | (key, o) :: rest, m => do
      let (o, m, bs) ← copy o m
      let (rest, m, more) ← streamMap copy rest m
      return ((key, o) :: rest, m, bs ++ more)

/-- The switch on the kind: host order reads the size after the conversion, network order before
it. -/
def streamKind (copy : DsonObj → Mem → Option (DsonObj × Mem × Bytes)) (network : Bool) (d : Dson)
    (children : ObjMap) (m : Mem) : Option (DsonObj × Mem × Bytes) :=
  match d.dsonKind with
  | .oneObjectInDataBuf => do
      let before ← DsonObj.dataSize e m (.dson d children)
      let (d, m) ← d.toOrder e network m
      let after ← DsonObj.dataSize e m (.dson d children)
      d.streamRaw e children m (if network then before else after)
  | .dsonContainer => do
      let size ← DsonObj.dataSize e m (.dson d children)
      let (d, m) ← d.headerToOrder e network m
      let (d, m, head) ← d.streamHeader e m size
      let (children, inside, bs) ← streamMap copy children (d.inner m)
      let (d, m) := d.outer m inside
      return (.dson d children, m, head ++ bs)
  | .dataBufNeedParse => some (.dson d children, m, [])

/-- `copy_to_stream_host_order` and `copy_to_stream_network_order`: a message that has just arrived
in the right order is sent on as it is. -/
def streamInternal (copy : DsonObj → Mem → Option (DsonObj × Mem × Bytes)) (network : Bool) (d : Dson)
    (children : ObjMap) (m : Mem) : Option (DsonObj × Mem × Bytes) :=
  if d.state ≠ .ready then some (.dson d children, m, [])
  else if d.dsonKind = .dataBufNeedParse then do
    let fits ← if network then d.isNetworkOrder e m else d.isHostOrder e m
    if fits then
      let size ← DsonObj.dataSize e m (.dson d children)
      d.streamRaw e children m size
    else
      let (d, children) ← d.parseBuf e children m
      d.streamKind e copy network children m
  else d.streamKind e copy network children m

end Dson

namespace DsonObj

variable (e : Endian)

def streamFuel (network : Bool) : Nat → DsonObj → Mem → Option (DsonObj × Mem × Bytes)
  | 0, _, _ => none
  | _ + 1, .string o, m =>
      let o := o.prepareHeader e network
      some (.string o, m, o.header.bytes ++ o.object)
  | _ + 1, .route o, m =>
      let o := o.toOrder e network
      some (.route o, m, o.bytes)
  | fuel + 1, .dson d children, m => d.streamInternal e (streamFuel network fuel) network children m

/-- `copy_to_stream_host_order` or `copy_to_stream_network_order`: the bytes appended. -/
def copyToStream (network : Bool) (o : DsonObj) (m : Mem) : Option (DsonObj × Mem × Bytes) :=
  o.streamFuel e network o.depth m

end DsonObj

end LeanDson
