import LeanDson.Doubles
import LeanDson.Reuse
import LeanDson.Strings

/-! Programs over uninitialised memory. A value constructor leaves the key word of the header unwritten, and that of
a double the last five bytes of its block. What a program has been given and where gaps are left is kept beside it;
a program is careful when no emission gets to a gap that it does not fill. -/

namespace LeanDson

open ByteSink

/-! ### Programs -/

/-- The memory an object is built over: its array `header_` and the block that `malloc` returns. -/
structure Fresh where
  header : Header
  block : Nat → UInt8

/-- What an object is built from. -/
inductive Given where
  | container
  | int32 (v : Int)
  | uint32 (v : Nat)
  | double (x : Binary64)
  | string (s : Bytes)
  | stringObj (key : Int) (object : Bytes)
  | routeObj (key : Int) (a : Address)
  deriving DecidableEq

/-- An operation on one object; the emissions are single calls. -/
inductive Act where
  | setKey (key : Int)
  | key
  | dataType
  | get (key : Int)
  | toStream (network : Bool)
  | toFd (network : Bool) (answers : List (Option Nat))
  | toBuf (network : Bool) (room : Nat)

/-- What a program sees of an operation; of an emplacement, the key and the state it leaves. -/
inductive Output where
  | nothing
  | key (k : Int)
  | dataType (type : Int)
  | found (f : Found)
  | emplaced (key : Int) (state : State)
  | bytes (r : Result) (bs : Bytes)
  deriving DecidableEq

/-- A statement: build an object, or operate on the object that a path of keys leads to from a variable, or
emplace the object of a variable there, under a new key or under its own. -/
inductive Statement where
  | make (i : Nat) (g : Given)
  | act (i : Nat) (path : List Int) (a : Act)
  | emplace (i : Nat) (path : List Int) (key : Option Int) (j : Nat)

/-- The variables; an object that has been emplaced is gone from its own. -/
abbrev Pool := Nat → Option DsonObj

section

variable (e : Endian)

def Given.build (f : Fresh) : Given → Option DsonObj
  | .container => some (.empty e)
  | .int32 v => DsonObj.ofInt32 e f.header f.block v
  | .uint32 v => DsonObj.ofUInt32 e f.header f.block v
  | .double x => DsonObj.ofDouble e f.header f.block x
  | .string s => DsonObj.ofString e f.header f.block s
  | .stringObj key object => some (.ofStringObj e key object)
  | .routeObj key a => some (.ofRouteObj e key a)

/-- One call of an incremental emitter. -/
def DsonObj.copyOut {σ : Type} [ByteSink σ] (network : Bool) (s : σ) (o : DsonObj) (m : Mem) :
    Option (Output × DsonObj × Mem) := do
  let (r, o, m, s) ← o.copyTo e network m s
  return (.bytes r (written s), o, m)

def Act.run : Act → DsonObj → Mem → Option (Output × DsonObj × Mem)
  | .setKey k, o, m => (o.setKey e m k).map fun p => (.nothing, p)
  | .key, o, m => (o.key e m).map fun k => (.key k, o, m)
  | .dataType, o, m => (o.dataType e m).map fun type => (.dataType type, o, m)
  | .get k, o, m => (DsonObj.get e k o m).map fun p => (.found p.1, p.2)
  | .toStream network, o, m => (o.copyToStream e network m).map fun p => (.bytes .ready p.2.2, p.1, p.2.1)
  | .toFd network answers, o, m => o.copyOut e network (FdOut.fresh answers) m
  | .toBuf network room, o, m => o.copyOut e network (BufOut.fresh room) m

/-- `emplace(key, obj)`, or `emplace(obj)` without a key: the key, and the state of the object afterwards. -/
def DsonObj.emplaceAs (key : Option Int) (obj o : DsonObj) (m : Mem) : Option ((Int × State) × DsonObj × Mem) :=
  match key with
  | some key => do
      let (o, m) ← DsonObj.emplace e key obj o m
      return ((key, o.state), o, m)
  | none => do
      let key ← obj.key e m
      let (o, m) ← DsonObj.emplacePtr e obj o m
      return ((key, o.state), o, m)

/-- One statement, with the memory a new object is built over. -/
def Statement.step (f : Fresh) : Statement → Pool → Option (Output × Pool)
  | .make i g, pool => do
      let o ← g.build e f
      return (.nothing, Function.update pool i (some o))
  | .act i path a, pool => do
      let o ← pool i
      let (out, o, _) ← DsonObj.onPath (a.run e) path o ⟨[], []⟩
      return (out, Function.update pool i (some o))
  | .emplace i path key j, pool => do
      let obj ← pool j
      let pool := Function.update pool j none
      let o ← pool i
      let ((key, state), o, _) ← DsonObj.onPath (DsonObj.emplaceAs e key obj) path o ⟨[], []⟩
      return (.emplaced key state, Function.update pool i (some o))

/-- What a program sees, up to the first undefined step. The memory that an object is built over depends on how
many statements are left. -/
def runProgram (junk : Nat → Fresh) : List Statement → Pool → List Output
  | [], _ => []
  | s :: rest, pool =>
      match s.step e (junk rest.length) pool with
      | none => []
      | some (out, pool) => out :: runProgram junk rest pool

end

/-! ### Gaps -/

/-- Where an object may still have bytes that nothing has written: behind the value of a double, or inside
children. -/
inductive Gaps where
  | nowhere
  | behind (x : Binary64)
  | inside (children : List (Int × Gaps))

/-- The child of an object under a key. -/
def DsonObj.under (key : Int) : DsonObj → Option DsonObj
  | .dson _ children => KeyMap.find key children
  | _ => none

/-- A `Dson` whose header is in host order where it lies. -/
def DsonObj.restsInHostOrder (e : Endian) : DsonObj → Bool
  | .dson d _ => d.headerBuf.isHostOrder e
  | _ => false

namespace Gaps

def child (key : Int) : Gaps → Gaps
  | .inside children => (KeyMap.find key children).getD .nowhere
  | _ => .nowhere

/-- The gaps after the child under a key has got new ones. -/
def insert (g : Gaps) (key : Int) (g' : Gaps) : Gaps :=
  match g with
  | .inside children => .inside (KeyMap.insertOrAssign key g' children)
  | _ => .inside [(key, g')]

/-- The gaps that a path of keys leads to. -/
def atPath : List Int → Gaps → Gaps
  | [], g => g
  | key :: path, g => (g.child key).atPath path

/-- The gaps after an object with gaps of its own has been emplaced at the end of a path. -/
def insertAt (key : Int) (g' : Gaps) : List Int → Gaps → Gaps
  | [], g => g.insert key g'
  | k :: path, g => g.insert k (insertAt key g' path (g.child k))

/-- An emission that gets to the object fills the gap: it converts the double to network order, which is not the order
of the host, and the encoding of a finite double fills its block. -/
def filled (e : Endian) (network : Bool) : Gaps → Bool
  | .behind x => network && e == .little && x.isFinite
  | _ => true

mutual

/-- The gaps that are left in an object: a double that has been converted has none. -/
def left (e : Endian) (o : DsonObj) : Gaps → Gaps
  | .nowhere => .nowhere
  | .behind x => if o.restsInHostOrder e then .behind x else .nowhere
  | .inside children => .inside (leftAll e o children)

def leftAll (e : Endian) (o : DsonObj) : List (Int × Gaps) → List (Int × Gaps)
  | [] => []
  | (key, g) :: rest =>
      match o.under key with
      | none => leftAll e o rest
      | some c => (key, g.left e c) :: leftAll e o rest

end

end Gaps

/-! ### Emissions that close gaps

The emitters are followed as far as they go: `closes` says of a child that is emitted that its gaps are closed. -/

namespace Dson

variable (e : Endian)

section

variable {σ : Type} (copy : DsonObj → Mem → σ → Option (Result × DsonObj × Mem × σ))
  (closes : Int → DsonObj → Mem → σ → Bool)

def closesMap : CopyIter → ObjMap → Mem → σ → Bool
  | .node key, (k, o) :: rest, m, s =>
      if k < key then closesMap (.node key) rest m s
      else closes k o m s &&
        (copy o m s).all fun q => q.1 ≠ .ready || closesMap (mapBegin rest) rest q.2.2.1 q.2.2.2
  | _, _, _, _ => true

def closesData (d : Dson) (children : ObjMap) (m : Mem) (s : σ) : Bool :=
  d.dsonKind ≠ .dsonContainer || closesMap copy closes d.copyIter children (d.inner m) s

variable [ByteSink σ]

def closesHeader (d : Dson) (children : ObjMap) (m : Mem) (s : σ) : Bool :=
  d.offset ≥ headerSize || (d.header m).all fun h =>
    match write s (h.bytes.drop d.offset) with
    | (none, _) => true
    | (some n, s) => d.offset + n < headerSize || (d.headerCopied children n).closesData copy closes children m s

def closesInternal (network : Bool) (d : Dson) (children : ObjMap) (m : Mem) (s : σ) : Bool :=
  match d.state with
  | .ready => (d.prepareCopy e network children m).all fun p => p.1.closesHeader copy closes p.2.1 p.2.2 s
  | .copyingHeader => d.closesHeader copy closes children m s
  | .copyingData => d.closesData copy closes children m s
  | _ => true

end

section

variable (copy : DsonObj → Mem → Option (DsonObj × Mem × Bytes)) (closes : Int → DsonObj → Mem → Bool)

def closesStreamMap : ObjMap → Mem → Bool
  | [], _ => true
  | (k, o) :: rest, m => closes k o m && (copy o m).all fun q => closesStreamMap rest q.2.1

def closesStreamKind (network : Bool) (d : Dson) (children : ObjMap) (m : Mem) : Bool :=
  d.dsonKind ≠ .dsonContainer || (DsonObj.dataSize e m (.dson d children)).all fun size =>
    (d.headerToOrder e network m).all fun p => (p.1.streamHeader e p.2 size).all fun q =>
      closesStreamMap copy closes children (q.1.inner q.2.1)

def closesStream (network : Bool) (d : Dson) (children : ObjMap) (m : Mem) : Bool :=
  d.state ≠ .ready ||
    if d.dsonKind = .dataBufNeedParse then
      (if network then d.isNetworkOrder e m else d.isHostOrder e m).all fun fits =>
        fits || (d.parseBuf e children m).all fun p => p.1.closesStreamKind e copy closes network p.2 m
    else d.closesStreamKind e copy closes network children m

end

end Dson

namespace Gaps

variable (e : Endian)

/-- A call of an incremental emitter closes the gaps that it gets to. -/
def closesCopy {σ : Type} [ByteSink σ] (network : Bool) : Nat → Gaps → DsonObj → Mem → σ → Bool
  | fuel + 1, g, .dson d children, m, s => g.filled e network && d.closesInternal e (DsonObj.copyFuel e network fuel)
      (fun key o m s => closesCopy network fuel (g.child key) o m s) network children m s
  | _, _, _, _, _ => true

/-- A call of the stream emitter closes the gaps that it gets to. -/
def closesStream (network : Bool) : Nat → Gaps → DsonObj → Mem → Bool
  | fuel + 1, g, .dson d children, m => g.filled e network && d.closesStream e (DsonObj.streamFuel e network fuel)
      (fun key o m => closesStream network fuel (g.child key) o m) network children m
  | _, _, _, _ => true

end Gaps

/-- An emission closes the gaps that it gets to. -/
def Act.closes (e : Endian) (g : Gaps) (o : DsonObj) (m : Mem) : Act → Bool
  | .toStream network => g.closesStream e network o.depth o m
  | .toFd network answers => g.closesCopy e network o.depth o m (FdOut.fresh answers)
  | .toBuf network room => g.closesCopy e network o.depth o m (BufOut.fresh room)
  | _ => true

/-- The same for the object at the end of a path. -/
def Act.closesAt (e : Endian) (a : Act) : List Int → Gaps → DsonObj → Mem → Bool
  | [], g, o, m => a.closes e g o m
  | k :: path, g, .dson d children, m =>
      (KeyMap.find k children).all fun c => closesAt e a path (g.child k) c (d.inner m)
  | _ :: _, _, _, _ => true

/-! ### Careful programs -/

/-- What is known of a variable: whether its object has been given a key, and its gaps. -/
structure Known where
  keyed : Bool
  gaps : Gaps

/-- A value constructor leaves the key to be set, and that of a double a gap. -/
def Given.known : Given → Known
  | .double x => ⟨false, .behind x⟩
  | .int32 _ | .uint32 _ | .string _ => ⟨false, .nowhere⟩
  | .container | .stringObj _ _ | .routeObj _ _ => ⟨true, .nowhere⟩

/-- An operation that reads the key of the object. -/
def Act.readsKey : Act → Bool
  | .setKey _ | .dataType => false
  | _ => true

/-- The object has its key, or the key does not matter to the operation, and an emission closes the gaps that it gets
to. -/
def Act.Allowed (e : Endian) (k : Known) (o : Option DsonObj) (path : List Int) (a : Act) : Prop :=
  (k.keyed = true ∨ path = [] ∧ a.readsKey = false) ∧ (o.all fun o => a.closesAt e path k.gaps o ⟨[], []⟩) = true

/-- Nothing is built from an empty string, and only an object that is given its key on the way is emplaced
without one. -/
def Statement.Allowed (e : Endian) (pool : Pool) (known : Nat → Known) : Statement → Prop
  | .make _ g => g ≠ .string []
  | .act i path a => a.Allowed e (known i) (pool i) path
  | .emplace i _ key j => (known i).keyed = true ∧ ((known j).keyed = true ∨ key ≠ none)

section

variable (e : Endian)

/-- What a statement does to what is known. An emplacement leaves the object ready if and only if it takes
place. -/
def Statement.note (known : Nat → Known) : Statement → Output → Nat → Known
  | .make i g, _ => Function.update known i g.known
  | .act i path (.setKey _), _ =>
      if path = [] then Function.update known i { known i with keyed := true } else known
  | .emplace i path _ j, .emplaced key .ready =>
      Function.update known i { known i with gaps := Gaps.insertAt key (known j).gaps path (known i).gaps }
  | _, _ => known

/-- What is known when conversions are taken into account. -/
def refresh (pool : Pool) (known : Nat → Known) (i : Nat) : Known :=
  match pool i, (known i).keyed with
  | some o, true => ⟨true, (known i).gaps.left e o⟩
  | _, _ => known i

/-- Every statement that is reached is allowed by what is known before it. -/
def Careful (junk : Nat → Fresh) : List Statement → Pool → (Nat → Known) → Prop
  | [], _, _ => True
  | s :: rest, pool, known => s.Allowed e pool known ∧ ∀ out pool', s.step e (junk rest.length) pool = some (out, pool') →
      Careful junk rest pool' (refresh e pool' (s.note known out))

end

end LeanDson
