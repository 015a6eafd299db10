import LeanDson.Parse

/-! The three loaders. The incremental ones keep one offset for the header and the payload and go on
where the previous call stopped. `malloc` succeeds, with arbitrary bytes in the block it gives. -/

namespace LeanDson

/-- The header after `chunk` has been copied to `header_ + off`. -/
def Header.patch (h : Header) (off : Nat) (chunk : Bytes) : Header :=
  match Header.read (h.bytes.take off ++ chunk ++ h.bytes.drop (off + chunk.length)) with
  | some (h', _) => h'
  | none => h

namespace Dson

/-- `clear`, `offset_ = 0` and the two assignments that start a load. -/
def beginLoad (d : Dson) : Dson :=
  { d.clear with
    offset := 0
    state := .loadingHeader
    dsonKind := .dataBufNeedParse }

/-- Copy `chunk` to `buf_ + off`. -/
def patchBuf (d : Dson) (m : Mem) (off : Nat) (chunk : Bytes) : Option (Dson × Mem) := do
  let t ← d.buf.tail m off
  let t' ← poke t chunk
  let (p, m) := d.buf.setTail m off t'
  return ({ d with buf := p }, m)

section Loaders

variable (e : Endian) (junk : Nat → UInt8)

/-- What the loaders do once the header is complete: a result ends the call, none goes on to the
payload. -/
def headerLoaded (d : Dson) (children : ObjMap) (m : Mem) : Option (Option Result × Dson) := do
  let size ← DsonObj.dataSize e m (.dson d children)
  if size < 0 ∨ size > maxDsonRamSize then return (some .error, { d with state := .error })
  if size = 0 then return (some .ready, { d with state := .ready, dsonKind := .dsonContainer })
  match d.allocate junk size with
  | none => return (some .error, { d with state := .error })
  | some d => return (none, d)

/-- `offset_ = 0` and the state that the payload is loaded in. -/
def beginData (d : Dson) : Dson := { d with offset := 0, state := .loadingData }

/-- The `LoadingData` branch of `load_from_fd`. -/
def loadDataFromFd (d : Dson) (m : Mem) (fd : FdIn) : Option (Result × Dson × Mem × FdIn) :=
  if (d.offset : Int) ≥ d.bufSize then some (.error, d, m, fd)
  else match readFromFd fd (d.bufSize - d.offset).toNat with
    | (none, fd) => some (.error, { d with state := .error }, m, fd)
    | (some chunk, fd) => do
        let (d, m) ← d.patchBuf m d.offset chunk
        let d := { d with offset := d.offset + chunk.length }
        if (d.offset : Int) = d.bufSize then return (.ready, { d with state := .ready }, m, fd)
        return (.inProcess, d, m, fd)

/-- The `LoadingHeader` branch of `load_from_fd`. -/
def loadHeaderFromFd (d : Dson) (children : ObjMap) (m : Mem) (fd : FdIn) :
    Option (Result × Dson × Mem × FdIn) :=
  if d.offset ≥ headerSize then some (.error, { d with state := .error }, m, fd)
  else match readFromFd fd (headerSize - d.offset) with
    | (none, fd) => some (.error, { d with state := .error }, m, fd)
    | (some chunk, fd) => do
        let d := { d with
          headerBuf := d.headerBuf.patch d.offset chunk
          offset := d.offset + chunk.length }
        if d.offset < headerSize then return (.inProcess, d, m, fd)
        match ← d.headerLoaded e junk children m with
        | (some r, d) => return (r, d, m, fd)
        | (none, d) => d.beginData.loadDataFromFd m fd

/-- The `LoadingData` branch of `load_from_buf`. -/
def loadDataFromBuf (d : Dson) (m : Mem) (window : Bytes) : Option (Result × Dson × Mem) :=
  if (d.offset : Int) ≥ d.bufSize then some (.error, d, m)
  else do
    let chunk := window.take (d.bufSize - d.offset).toNat
    let (d, m) ← d.patchBuf m d.offset chunk
    let d := { d with offset := d.offset + chunk.length }
    if (d.offset : Int) = d.bufSize then return (.ready, { d with state := .ready }, m)
    return (.inProcess, d, m)

/-- The `LoadingHeader` branch of `load_from_buf`: a window that ends with the header ends the
call. -/
def loadHeaderFromBuf (d : Dson) (children : ObjMap) (m : Mem) (window : Bytes) :
    Option (Result × Dson × Mem) :=
  if d.offset ≥ headerSize then some (.error, { d with state := .error }, m)
  else do
    let chunk := window.take (headerSize - d.offset)
    let d := { d with
      headerBuf := d.headerBuf.patch d.offset chunk
      offset := d.offset + chunk.length }
    if d.offset < headerSize then return (.inProcess, d, m)
    match ← d.headerLoaded e junk children m with
    | (some r, d) => return (r, d, m)
    | (none, d) =>
        if chunk.length = window.length then return (.inProcess, d.beginData, m)
        d.beginData.loadDataFromBuf m (window.drop chunk.length)

end Loaders

end Dson

namespace DsonObj

variable (e : Endian) (junk : Nat → UInt8)

/-- `load_from_stream`: the bytes of the stream that are left come back. -/
def loadFromStream (input : Bytes) : DsonObj → Mem → Option (DsonObj × Mem × Bytes)
  | .dson d _, m => do
      let chunk := input.take headerSize
      let d := { d.clear with headerBuf := d.headerBuf.patch 0 chunk }
      if chunk.length < headerSize then return (.dson { d with state := .error } [], m, [])
      let d := { d with dsonKind := .dataBufNeedParse }
      let rest := input.drop headerSize
      match ← d.headerLoaded e junk [] m with
      | (some _, d) => return (.dson d [], m, rest)
      | (none, d) =>
          let chunk := rest.take d.bufSize.toNat
          let (d, m) ← d.patchBuf m 0 chunk
          if (chunk.length : Int) < d.bufSize then
            return (.dson { d with state := .error } [], m, [])
          return (.dson { d with state := .ready } [], m, rest.drop d.bufSize.toNat)
  | _, _ => none

/-- `load_from_fd`. -/
def loadFromFd (fd : FdIn) : DsonObj → Mem → Option (Result × DsonObj × Mem × FdIn)
  | .dson d children, m =>
      match d.state with
      | .error | .copyingHeader | .copyingData | .ready => do
          let (r, d, m, fd) ← d.beginLoad.loadHeaderFromFd e junk [] m fd
          return (r, .dson d [], m, fd)
      | .loadingHeader => do
          let (r, d, m, fd) ← d.loadHeaderFromFd e junk children m fd
          return (r, .dson d children, m, fd)
      | .loadingData => do
          let (r, d, m, fd) ← d.loadDataFromFd m fd
          return (r, .dson d children, m, fd)
  | _, _ => none

/-- `load_from_buf`. -/
def loadFromBuf (window : Bytes) : DsonObj → Mem → Option (Result × DsonObj × Mem)
  | .dson d children, m =>
      match d.state with
      | .error | .copyingHeader | .copyingData | .ready => do
          let (r, d, m) ← d.beginLoad.loadHeaderFromBuf e junk [] m window
          return (r, .dson d [], m)
      | .loadingHeader => do
          let (r, d, m) ← d.loadHeaderFromBuf e junk children m window
          return (r, .dson d children, m)
      | .loadingData => do
          let (r, d, m) ← d.loadDataFromBuf m window
          return (r, .dson d children, m)
  | _, _ => none

end DsonObj

end LeanDson
