import LeanDson.Marks
import LeanDson.Arrival
import LeanDson.Agreement

/-! What a receiver does with a message: lookups, conversions in either direction, conversions of headers alone and
copies, at the message or at an object in it. -/

namespace LeanDson

/-! ### Objects in a message -/

namespace DsonObj

/-- The object that a path of keys leads to, and the memory it lives in. A container in error hands out no
children. -/
def visit : List Int → DsonObj → Mem → Option (DsonObj × Mem)
  | [], o, m => some (o, m)
  | key :: path, .dson d children, m =>
      if d.state = .error then none
      else do
        let o ← KeyMap.find key children
        visit path o (d.inner m)
  | _ :: _, _, _ => none

/-- What the object at the end of a path answers for its key, its type and its size. -/
def tells (e : Endian) (path : List Int) (o : DsonObj) (m : Mem) : Option Summary := do
  let (o, m) ← o.visit path m
  o.summary e m

/-- Everything that the objects of a message answered is answered as before. -/
def Retains (e : Endian) (o : DsonObj) (m : Mem) (o' : DsonObj) (m' : Mem) : Prop :=
  ∀ path s, o.tells e path m = some s → o'.tells e path m' = some s

/-- `data_type` at the end of a path. -/
def typeAt (e : Endian) (path : List Int) (o : DsonObj) (m : Mem) : Option Int := do
  let (o, m) ← o.visit path m
  o.dataType e m

/-- `is_host_order` at the end of a path. -/
def hostOrderAt (e : Endian) (path : List Int) (o : DsonObj) (m : Mem) : Option Bool := do
  match ← o.visit path m with
  | (.dson d _, m) => d.isHostOrder e m
  | _ => none

end DsonObj

/-! ### Operations -/

/-- A member function that a receiver calls. -/
inductive Handle where
  | get (key : Int)
  | map
  | toOrder (network : Bool)
  | headerToOrder (network : Bool)
  | copyToFd (network : Bool) (fd : FdOut)
  | copyToBuf (network : Bool) (buf : BufOut)
  | copyToStream (network : Bool)

namespace Handle

variable (e : Endian)

/-- One call on a `Dson`. -/
def call : Handle → DsonObj → Mem → Option (DsonObj × Mem)
  | .get key, o, m => (o.get e key m).map Prod.snd
  | .map, o, m => o.map e m
  | .toOrder network, .dson d children, m => (d.toOrder e network m).map fun p => (.dson p.1 children, p.2)
  | .headerToOrder network, .dson d children, m =>
      (d.headerToOrder e network m).map fun p => (.dson p.1 children, p.2)
  | .copyToFd network fd, o, m => (o.copyTo e network m fd).map fun q => (q.2.1, q.2.2.1)
  | .copyToBuf network buf, o, m => (o.copyTo e network m buf).map fun q => (q.2.1, q.2.2.1)
  | .copyToStream network, o, m => (o.copyToStream e network m).map fun q => (q.1, q.2.1)
  | _, _, _ => none

/-- One call on the object at the end of a path. -/
def callAt (f : Handle) (path : List Int) (o : DsonObj) (m : Mem) : Option (DsonObj × Mem) := do
  let _ ← o.visit path m
  let (_, o, m) ← DsonObj.onPath (fun o m => (f.call e o m).map fun p => ((), p)) path o m
  return (o, m)

/-- The call is a conversion, of the object or of its header, or a copy. -/
def IsConversion : Handle → Prop
  | .get _ | .map => False
  | _ => True

end Handle

namespace Dson

variable (e : Endian) (d : Dson) (children : ObjMap) (m : Mem)

/-- The bytes that a parse goes over: the first `buf_size_` bytes of the payload. -/
def unparsed : Bytes := ((d.data.bind (d.buf.tail m)).getD []).take d.bufSize.toNat

/-- A parse goes over as many bytes as the header announces. -/
def Measured : Prop :=
  ∀ h, d.header m = some h → h.dataTypeOf e = TypesMap.dsonContainer → h.dataSizeOf e = (d.unparsed m).length

/-- The header of the object and as much behind it as the header announces. -/
def asRecord : Option Record :=
  (d.header m).map fun h => ⟨h, ((d.data.bind (d.buf.tail m)).getD []).take (h.dataSizeOf e).toNat⟩

/-- The child under a key is, as a lookup finds it, the record. -/
inductive Part (key : Int) : Record → Prop
  | child {c : Dson} {cs : ObjMap} {r : Record} (hkind : d.dsonKind = .dsonContainer)
      (hfind : KeyMap.find key children = some (.dson c cs)) (hread : c.asRecord e (d.inner m) = some r) : Part key r
  | record {h : Header} {recs before after : List Record} {r : Record} (hkind : d.dsonKind = .dataBufNeedParse)
      (hread : d.header m = some h) (htype : h.dataTypeOf e = TypesMap.dsonContainer)
      (hfits : ∀ r ∈ recs, Record.Fits e r) (hbytes : recordsBytes recs = d.unparsed m)
      (hlast : IsLast e key recs before r after) : Part key r

/-- A conversion of the object settles, inside the payload if there is one. Without a data pointer nothing is
converted to network order. -/
def Convertible (network : Bool) : Prop :=
  ∀ r, d.asRecord e m = some r →
    (network = true ∧ d.data = none) ∨ (r.header.Settles e network ∧ (d.data ≠ none → r.Roomy e network))

/-- A copy under way knows which child it is at: the container was one when the copy began. -/
def Proceeds : Prop := d.dsonKind = .dsonContainer → d.state = .copyingData → d.copyIter ≠ .unset

end Dson

namespace Header

variable (e : Endian) (stream network : Bool) (h : Header)

/-- An emitter parses a buffer under this header before it sends it on. The incremental emitters ask whether it
is in the other order, the stream emitter whether it is not in this one. -/
def Parses : Prop := if stream then ¬h.inOrder e network else h.inOrder e (!network)

instance : Decidable (h.Parses e stream network) := by
  unfold Parses
  infer_instance

end Header

namespace Record

variable (e : Endian) (stream network : Bool) (r : Record)

/-- A conversion of the child with this record settles, inside its payload. -/
def Safe : Prop := r.header.Settles e network ∧ r.Roomy e network

/-- A copy of the child with this record keeps what it says: a nested container that is parsed is empty. -/
def Copies : Prop :=
  if r.header.dataTypeOf e = TypesMap.dsonContainer then
    r.header.Turns e network ∧ (r.header.Parses e stream network → r.header.dataSizeOf e = 0)
  else r.Safe e network

end Record

/-- An iteration has the child under a key still before it. -/
def CopyIter.Ahead (key : Int) : CopyIter → Prop
  | .node k => k ≤ key
  | _ => False

namespace Dson

variable (e : Endian) (d : Dson) (children : ObjMap) (m : Mem)

/-- A parse of the container finds records under different keys. -/
def Parseable : Prop :=
  d.Measured e m ∧ ∃ recs, (∀ r ∈ recs, Record.Fits e r) ∧ recordsBytes recs = d.unparsed m ∧
    (recs.map (Record.key e)).Nodup

/-- A copy of an object that has not been parsed keeps what its header says. -/
def RawCopyable (stream network : Bool) : Prop :=
  ∀ h, d.header m = some h →
    if h.Parses e stream network then
      if h.dataTypeOf e = TypesMap.dsonContainer then
        h.Turns e network ∧ d.Parseable e m ∧ ∀ key r, d.Part e children m key r → r.Copies e stream network
      else d.Convertible e m network
    else h.Turns e network

/-- A copy of the container has the child under a key still before it. Only the incremental emitters go on with
a copy that is under way. -/
def Ahead (stream : Bool) (key : Int) : Prop :=
  match d.state with
  | .ready => True
  | .copyingHeader => stream = false
  | .copyingData => stream = false ∧ d.copyIter.Ahead key
  | _ => False

/-- A copy of a child with the record can go on, and keeps what it says when it starts. -/
def Forwardable (r : Record) (stream network : Bool) : Prop :=
  (stream = false → d.Proceeds) ∧ (d.state = .ready → r.Copies e stream network)

/-- A copy of the object can go on, and keeps what its header and those of its children say. -/
def Copyable (stream network : Bool) : Prop :=
  match d.dsonKind with
  | .oneObjectInDataBuf => d.state = .ready → d.Convertible e m network
  | .dsonContainer => (stream = false → d.Proceeds) ∧
      (d.state = .ready → ∀ h, d.header m = some h → h.Turns e network) ∧
      ∀ key c cs r, KeyMap.find key children = some (.dson c cs) → c.asRecord e (d.inner m) = some r →
        d.Ahead stream key → c.Forwardable e r stream network
  | .dataBufNeedParse => d.state = .ready → d.RawCopyable e children m stream network

end Dson

/-- The call meets headers that survive it, and a copy that can go on. -/
def Handle.Allowed (e : Endian) (f : Handle) (d : Dson) (children : ObjMap) (m : Mem) : Prop :=
  match f with
  | .get key => (d.dsonKind = .dataBufNeedParse → d.state ≠ .error → d.Measured e m) ∧
      (d.state = .ready → (∀ r, d.Part e children m key r → r.Safe e false) ∧
        (d.dsonKind ≠ .dsonContainer → ∀ h, d.header m = some h → h.dataTypeOf e ≠ TypesMap.dsonContainer →
          h.keyOf e = key → d.Convertible e m false))
  | .map => d.state = .ready → d.dsonKind ≠ .oneObjectInDataBuf ∧ (d.dsonKind = .dataBufNeedParse → d.Measured e m) ∧
      ∀ key r, d.Part e children m key r → r.Safe e false
  | .toOrder network => d.Convertible e m network
  | .headerToOrder network => ∀ h, d.header m = some h → h.Turns e network
  | .copyToFd network _ | .copyToBuf network _ => d.Copyable e children m false network
  | .copyToStream network => d.Copyable e children m true network

/-- The same at the end of a path. -/
def Handle.AllowedAt (e : Endian) (f : Handle) (path : List Int) (o : DsonObj) (m : Mem) : Prop :=
  ∀ d children mem, o.visit path m = some (.dson d children, mem) → f.Allowed e d children mem

/-- The objects that an accepted message turns into while calls are made that meet headers that survive them. -/
inductive Handled (e : Endian) (o : DsonObj) (m : Mem) : DsonObj → Mem → Prop
  | arrived : Handled e o m o m
  | call {o₁ o₂ : DsonObj} {m₁ m₂ : Mem} {f : Handle} {path : List Int} (h : Handled e o m o₁ m₁)
      (hallowed : f.AllowedAt e path o₁ m₁) (hcall : f.callAt e path o₁ m₁ = some (o₂, m₂)) : Handled e o m o₂ m₂

/-- A conversion or a copy has an outcome and leaves every answer as it was; a conversion to host order does
nothing when it is repeated, and has brought an object whose type has a converter into host order. -/
structure Endures (e : Endian) (f : Handle) (path : List Int) (o : DsonObj) (m : Mem) : Prop where
  defined : (f.callAt e path o m).isSome
  retains : ∀ o' m', f.callAt e path o m = some (o', m') → DsonObj.Retains e o m o' m'
  settles : f = .toOrder false → ∀ o' m', f.callAt e path o m = some (o', m') →
    f.callAt e path o' m' = some (o', m') ∧
      ∀ type, o.typeAt e path m = some type → (toHostOrder e type).isSome → o'.hostOrderAt e path m' = some true

end LeanDson
