import LeanDson.Ipc
import LeanDson.Move
import Mathlib.Data.Nat.Digits.Defs

/-! Star routing. A router hands a message to the callback under the id it is addressed to. The services under the ids 1
to 99 answer through the router, to the address they were called from; a client is called through the queue of what is
still to be written to its connection. -/

namespace LeanDson

namespace StarRouting

/-! ### Keys and texts -/

/-- `Key`. -/
inductive Key where
  | routeAddress
  | wantAuth
  | authed
  | simpleData
  | password
  | chunkId
  | stringData
  deriving DecidableEq, Repr

def Key.key : Key → Int
  | .routeAddress => 0
  | .wantAuth => 1
  | .authed => 2
  | .simpleData => 3
  | .password => 4
  | .chunkId => 5
  | .stringData => 6

/-- The bytes of a text in ASCII. -/
def text (s : String) : Bytes := s.toList.map fun c => UInt8.ofNat c.toNat

/-- `std::to_string` of an unsigned number. -/
def decimal (n : Nat) : Bytes := (Nat.toDigits 10 n).map fun c => UInt8.ofNat c.toNat

def password : Bytes := text "password"

/-- What a service tells the sender of some data. -/
def received (toCliId fromCliId : Nat) (data : Bytes) : Bytes :=
  decimal toCliId ++ text " received from " ++ decimal fromCliId ++ text " string:" ++ data

/-! ### Lookups -/

variable (e : Endian)

/-- `to_address` of what `get` finds, behind the pointer; nothing is defined for a null pointer. -/
def addressAt (key : Int) (o : DsonObj) (m : Mem) : Option (Address × DsonObj × Mem) := do
  let (f, o, m) ← o.get e key m
  let (a, o, m) ← match f with
    | .null => none
    | .self => o.toAddress e m
    | .child key => o.onChild key (DsonObj.toAddress e) m
  return (← a, o, m)

/-- `to_string_view` of what `get` finds, an empty view for a null pointer. -/
def stringAt (key : Int) (o : DsonObj) (m : Mem) : Option (Bytes × DsonObj × Mem) := do
  let (f, o, m) ← o.get e key m
  match f with
  | .null => return ([], o, m)
  | .self => (o.toStringView e m).map fun s => (s, o, m)
  | .child key => o.onChild key (fun o m => (o.toStringView e m).map fun s => (s, o, m)) m

/-! ### Services -/

/-- The route back to where a message came from: `DsonRouteObj(key, from)`. -/
def routeBack (a : Address) : DsonObj :=
  DsonObj.ofRouteObj e Key.routeAddress.key ⟨a.toServId, a.toCliId, a.fromServId, a.fromCliId⟩

variable (h : Header) (junk : Nat → UInt8)

/-- `echo_service`, after `++chunk_id`: the message as it was left, and what is to be routed in answer. -/
def echoService (chunkId : Nat) (dson : DsonObj) : Option (DsonObj × Option DsonObj) := do
  let (address, dson, _) ← addressAt e Key.routeAddress.key dson .empty
  let (answer, _) ← DsonObj.emplacePtr e (routeBack e address) (.empty e) .empty
  let key ← dson.key e .empty
  if key = Key.wantAuth.key then
    let (s, dson, _) ← stringAt e Key.password.key dson .empty
    if s ≠ password then return (dson, none)
    let (answer, _) ← answer.setKey e .empty Key.authed.key
    return (dson, some answer)
  else if key = Key.simpleData.key then
    let (answer, _) ← answer.setKey e .empty Key.simpleData.key
    let (answer, _) ← DsonObj.emplace e Key.chunkId.key (← DsonObj.ofUInt32 e h junk chunkId) answer .empty
    let (s, dson, _) ← stringAt e Key.stringData.key dson .empty
    let data ← DsonObj.ofString e h junk (received (address.toCliId.toNat e) (address.fromCliId.toNat e) s)
    let (answer, _) ← DsonObj.emplace e Key.stringData.key data answer .empty
    return (dson, some answer)
  else return (dson, none)

/-! ### The router -/

/-- What is called for an id: a service with the number it has counted to, or `send_dson` of a connection. -/
inductive Callback where
  | echoService (chunkId : Nat)
  | sendDson
  deriving DecidableEq, Repr

abbrev RouteTable := List (Nat × Callback)

/-- `route_table_` with the services. -/
def services : RouteTable := (List.range 99).map fun i => (i + 1, .echoService 0)

/-! ### The server -/

/-- `server_loop` with its connection. -/
structure Server where
  routeTable : RouteTable
  needSetRoute : Bool
  dson : DsonObj
  writeDeque : List DsonObj
  keepRun : Bool
  /-- A load has failed, and the loop has returned. -/
  returned : Bool
  /-- The bytes of the connection that have not been read. -/
  input : Bytes
  /-- The bytes that have been written to the connection and not been read at its other end. -/
  output : Bytes
  /-- For each copy to come, how many bytes its `write` calls take at most. -/
  writes : List (List Nat)

/-- The loop of `send_dson_from_deque`: what is left of the queue, whether a copy has failed, the bytes that were
written, and what the copies after these will find. -/
def sendQueue : List DsonObj → List (List Nat) → Option (List DsonObj × Bool × Bytes × List (List Nat))
  | [], writes => some ([], false, [], writes)
  | o :: rest, writes => do
      let (r, o, _, fd) ← o.copyTo e true .empty (FdOut.fresh ((writes.headD []).map some))
      match r with
      | .ready => do
          let (queue, failed, out, writes) ← sendQueue rest writes.tail
          return (queue, failed, fd.out ++ out, writes)
      | .inProcess => return (o :: rest, false, fd.out, writes.tail)
      | .error => return (o :: rest, true, fd.out, writes.tail)

namespace Server

/-- `send_dson_from_deque`. -/
def sendDsonFromDeque (s : Server) : Option Server := do
  let (queue, failed, out, writes) ← sendQueue e s.writeDeque s.writes
  return { s with
    writeDeque := queue
    keepRun := s.keepRun && !failed
    output := s.output ++ out
    writes := writes }

/-- `send_dson`: the queue takes over the object. -/
def sendDson (dson : DsonObj) (s : Server) : Option (DsonObj × Server) := do
  let (queued, dson, _) ← DsonObj.moveFromOther e junk (.dson (Dson.uninit h) []) dson .empty
  let s ← sendDsonFromDeque e { s with writeDeque := s.writeDeque ++ [queued] }
  return (dson, s)

/-- `Router::route`, in calls nested at most so deep: the object as it was left, and the server. -/
def route : Nat → DsonObj → Server → Option (DsonObj × Server)
  | 0, _, _ => none
  | depth + 1, dson, s => do
      let (address, dson, _) ← addressAt e Key.routeAddress.key dson .empty
      match KeyMap.find (address.toCliId.toNat e) s.routeTable with
      | none => return (dson, s)
      | some .sendDson => s.sendDson e h junk dson
      | some (.echoService chunkId) => do
          let chunkId := (chunkId + 1) % 2 ^ 32
          let s := { s with
            routeTable := KeyMap.insertOrAssign (address.toCliId.toNat e) (.echoService chunkId) s.routeTable }
          let (dson, answer) ← echoService e h junk chunkId dson
          match answer with
          | none => return (dson, s)
          | some answer => do
              let (_, s) ← route depth answer s
              return (dson, s)

/-- The first message tells under which id the client is to be found. -/
def setRoute (s : Server) : Option Server :=
  if s.needSetRoute then do
    let (address, dson, _) ← addressAt e Key.routeAddress.key s.dson .empty
    return { s with
      dson := dson
      routeTable := KeyMap.insertOrAssign (address.fromCliId.toNat e) .sendDson s.routeTable
      needSetRoute := false }
  else some s

/-- What follows a load that is ready. -/
def receive (depth : Nat) (s : Server) : Option Server := do
  let s ← s.setRoute e
  let (dson, s) ← route e h junk depth s.dson s
  return { s with dson := Ipc.clear dson }

/-- A round of the loop in `server_loop`, with what its `read` calls give at most. -/
def round (depth : Nat) (counts : List Nat) (s : Server) : Option Server :=
  if s.keepRun = false ∨ s.returned then some s
  else do
    let (r, o, _, fd) ← s.dson.loadFromFd e junk ⟨counts.map some, s.input⟩ .empty
    let s := { s with dson := o, input := fd.input }
    match r with
    | .error => return { s with returned := true }
    | .ready => do
        let s ← s.receive e h junk depth
        s.sendDsonFromDeque e
    | .inProcess => s.sendDsonFromDeque e

end Server

end StarRouting

/-! ### Lookups in a message -/

namespace StarRouting

/-- The string under a key; no bytes when there is none. -/
def stringOf (ts : Forest) (key : Int) : Bytes :=
  match KeyMap.find key ts with
  | some (.leaf (.string s)) => s
  | _ => []

/-- The string that a lookup for a string comes to. -/
def answerString : Answer → Bytes
  | .value (some (.string s)) => s
  | _ => []

end StarRouting

section

open StarRouting

variable {e : Endian}

/-- An operation on a child that answers like another one does so in its container. -/
theorem onChild_of {α β : Type} {key : Int} {f : DsonObj → Mem → Option (α × DsonObj × Mem)}
    {g : DsonObj → Mem → Option (β × DsonObj × Mem)} {a : α} {o o' : DsonObj} {m m' : Mem} {P : β → Prop}
    (hrun : DsonObj.onChild key f o m = some (a, o', m'))
    (hfg : ∀ d children c c' m₁ m₂, o = .dson d children → KeyMap.find key children = some c →
      f c m₁ = some (a, c', m₂) → ∃ b, P b ∧ g c m₁ = some (b, c', m₂)) :
    ∃ b, P b ∧ DsonObj.onChild key g o m = some (b, o', m') := by
  cases o with
  | string s => cases hrun
  | route r => cases hrun
  | dson d children =>
      rw [DsonObj.onChild] at hrun
      simp only [Option.bind_eq_bind, Option.bind_eq_some_iff, Option.pure_def] at hrun
      obtain ⟨c, hc, ⟨a', c', m''⟩, hf, heq⟩ := hrun
      cases heq
      obtain ⟨b, hb, hg⟩ := hfg d children c c' _ _ rfl hc hf
      refine ⟨b, hb, ?_⟩
      rw [DsonObj.onChild, hc]
      simp only [Option.bind_eq_bind, Option.bind_some, hg, Option.pure_def]

theorem toAddress_of_readTyped {o o' : DsonObj} {m m' : Mem} {ws : List Nat}
    (hread : readTyped e .address o m = some (.value (some (.words ws)), o', m')) :
    ∃ a, (∃ b, a = some b ∧ Address.words e b = ws) ∧ o.toAddress e m = some (a, o', m') := by
  rw [readTyped] at hread
  simp only [Option.bind_eq_bind, Option.bind_eq_some_iff] at hread
  obtain ⟨type, -, hread⟩ := hread
  split_ifs at hread with htype
  · rw [Reading.run, Option.map_map, Option.map_eq_some_iff] at hread
    obtain ⟨⟨a, o₁, m₁⟩, hrun, heq⟩ := hread
    cases a with
    | none => simp at heq
    | some a =>
        simp only [Function.comp_apply, Option.map_some, Prod.mk.injEq, Answer.value.injEq, Option.some.injEq,
          Value.words.injEq] at heq
        obtain ⟨hws, rfl, rfl⟩ := heq
        exact ⟨some a, ⟨a, rfl, hws⟩, hrun⟩
  · simp at hread

/-- A lookup that answers with the words of an address leads to the address. -/
theorem addressAt_of_look {key : Int} {o o' : DsonObj} {m m' : Mem} {ws : List Nat}
    (hlook : look e key .address o m = some (.value (some (.words ws)), o', m')) :
    ∃ a, Address.words e a = ws ∧ addressAt e key o m = some (a, o', m') := by
  rw [look] at hlook
  simp only [Option.bind_eq_bind, Option.bind_eq_some_iff] at hlook
  obtain ⟨⟨f, o₁, m₁⟩, hget, hread⟩ := hlook
  cases f with
  | null => simp at hread
  | self =>
      obtain ⟨-, ⟨a, rfl, ha⟩, hrun⟩ := toAddress_of_readTyped hread
      refine ⟨a, ha, ?_⟩
      rw [addressAt, hget]
      simp only [Option.bind_eq_bind, Option.bind_some, hrun, Option.pure_def]
  | child key =>
      obtain ⟨-, ⟨a, rfl, ha⟩, hrun⟩ := onChild_of hread fun _ _ _ _ _ _ _ _ hf => toAddress_of_readTyped hf
      refine ⟨a, ha, ?_⟩
      rw [addressAt, hget]
      simp only [Option.bind_eq_bind, Option.bind_some, hrun, Option.pure_def]

/-- A message with a route leads to its address. -/
theorem Shows.addressAt {o : DsonObj} {k key : Int} {ts : Forest} {ws : List Nat} (ho : Shows e o k ts)
    (hws : KeyMap.find key ts = some (.leaf (.words ws))) (m : Mem) :
    ∃ a o', Address.words e a = ws ∧ addressAt e key o m = some (a, o', m) ∧ Shows e o' k ts := by
  obtain ⟨o', hlook, ho'⟩ := ho.look key .address m
  have hanswer : ts.answer key .address = .value (some (.words ws)) := by
    rw [Forest.answer, hws]
    rfl
  rw [hanswer] at hlook
  obtain ⟨a, ha, hrun⟩ := addressAt_of_look hlook
  exact ⟨a, o', ha, hrun, ho'⟩

theorem stringView_of_readTyped {d : Dson} {children : ObjMap} {m m' : Mem} {a : Answer} {o' : DsonObj}
    (hread : readTyped e .string (.dson d children) m = some (a, o', m')) :
    ((DsonObj.dson d children).toStringView e m).map (fun s => (s, DsonObj.dson d children, m)) =
      some (answerString a, o', m') := by
  rw [readTyped] at hread
  simp only [Option.bind_eq_bind, Option.bind_eq_some_iff] at hread
  obtain ⟨type, htype, hread⟩ := hread
  split_ifs at hread with hstring
  · rw [Reading.run, Option.map_map, Option.map_eq_some_iff] at hread
    obtain ⟨s, hs, heq⟩ := hread
    cases heq
    rw [hs]
    rfl
  · cases hread
    rw [DsonObj.dataType] at htype
    rw [DsonObj.toStringView, htype]
    simp only [Option.bind_eq_bind, Option.bind_some]
    rw [if_pos (by simpa [Reading.type] using hstring)]
    rfl

/-- The children of a container that has been received are views. -/
theorem Shows.child {d : Dson} {children : ObjMap} {k key : Int} {ts : Forest} {c : DsonObj}
    (ho : Shows e (.dson d children) k ts) (hc : KeyMap.find key children = some c) :
    ∃ v cs, c = .dson v cs := by
  cases ho with
  | nothing => cases hc
  | block => cases hc
  | parsed =>
      rename_i recs _ _ _
      rcases find_views e key 0 recs [] with ⟨_, r, _, -, hfind⟩ | ⟨-, hfind⟩
      · rw [hfind] at hc
        cases hc
        exact ⟨_, _, rfl⟩
      · rw [hfind] at hc
        cases hc

/-- A message leads to its strings. -/
theorem Shows.stringAt {o : DsonObj} {k : Int} {ts : Forest} (ho : Shows e o k ts) (key : Int) (m : Mem) :
    ∃ o', stringAt e key o m = some (stringOf ts key, o', m) ∧ Shows e o' k ts := by
  obtain ⟨o', hlook, ho'⟩ := ho.look key .string m
  refine ⟨o', ?_, ho'⟩
  have hanswer : stringOf ts key = answerString (ts.answer key .string) := by
    rw [stringOf, Forest.answer]
    cases KeyMap.find key ts with
    | none => rfl
    | some t =>
        cases t with
        | node ts => rfl
        | leaf v =>
            cases v with
            | raw type bytes =>
                dsimp only
                split_ifs <;> rfl
            | _ => rfl
  rw [hanswer]
  obtain ⟨f, o₁, hget, ho₁, -⟩ := ho.get key m
  rw [LeanDson.look, hget] at hlook
  rw [StarRouting.stringAt, hget]
  simp only [Option.bind_eq_bind, Option.bind_some] at hlook ⊢
  obtain ⟨d₁, children₁, rfl, -⟩ := ho₁.idle
  cases f with
  | null =>
      simp only [Option.pure_def, Option.some.injEq, Prod.mk.injEq] at hlook
      obtain ⟨hnull, rfl, -⟩ := hlook
      rw [← hnull]
      rfl
  | self => exact stringView_of_readTyped hlook
  | child key =>
      obtain ⟨_, rfl, hrun⟩ := onChild_of (P := fun s => s = answerString (ts.answer _ .string))
        (g := fun o m => (o.toStringView e m).map fun s => (s, o, m)) hlook fun d cs c c' m₁ m₂ heq hc hf => by
          cases heq
          obtain ⟨v, cs', rfl⟩ := Shows.child ho₁ hc
          exact ⟨_, rfl, stringView_of_readTyped hf⟩
      exact hrun

/-! ### Containers on their way -/

/-- A container that has been given a route, and is on its way there. -/
structure StarRouting.Underway (e : Endian) (o : DsonObj) (k : Int) (ts : Forest) (a : Address) : Prop where
  built : Built e o k (.node ts)
  route : ∃ d children, o = .dson d children ∧
    KeyMap.find Key.routeAddress.key children = some (DsonObj.ofRouteObj e Key.routeAddress.key a)

theorem StarRouting.underway_new (a : Address) : ∃ o,
    DsonObj.emplacePtr e (DsonObj.ofRouteObj e Key.routeAddress.key a) (.empty e) .empty = some (o, .empty) ∧
      Underway e o 0 [(Key.routeAddress.key, .leaf (.words (a.words e)))] a := by
  have hobj : Built e (DsonObj.ofRouteObj e Key.routeAddress.key a) Key.routeAddress.key (.leaf (.words (a.words e))) :=
    .routeObj (by decide)
  have hholds := (holds_empty (e := e))
  rw [DsonObj.empty, Holds] at hholds
  have hrun : DsonObj.emplacePtr e (DsonObj.ofRouteObj e Key.routeAddress.key a) (.empty e) .empty = some (.dson
      { Dson.uninit (Dson.clearHeader e) with
        headerBuf := (Dson.clearHeader e).setDataType e TypesMap.dsonContainer }
      [(Key.routeAddress.key, DsonObj.ofRouteObj e Key.routeAddress.key a)], .empty) := by
    rw [DsonObj.empty, DsonObj.emplacePtr, hobj.holds.key]
    simp only [Option.bind_eq_bind, Option.bind_some, hholds.2.1.insertInternal hholds.1]
    rfl
  have hbuilt : Built e _ 0 (.node [(Key.routeAddress.key, .leaf (.words (a.words e)))]) :=
    .emplacePtr .container hobj (rfl : (Tree.node []).modify _ [] = some _)
      (by rw [DsonObj.onPath, emplacePtrAt, hrun]; rfl)
  exact ⟨_, hrun, hbuilt, _, _, rfl, rfl⟩

theorem StarRouting.Underway.setKey {o : DsonObj} {k k' : Int} {ts : Forest} {a : Address} (ho : Underway e o k ts a)
    (hk : IsInt32 k') : ∃ o', o.setKey e .empty k' = some (o', .empty) ∧ Underway e o' k' ts a := by
  obtain ⟨o', hrun, ho'⟩ := ho.built.holds.setKey hk .empty
  refine ⟨o', hrun, .setKey ho.built hk hrun, ?_⟩
  obtain ⟨d, children, rfl, hfind⟩ := ho.route
  rw [DsonObj.setKey] at hrun
  simp only [Option.bind_eq_bind, Option.bind_eq_some_iff, Option.pure_def] at hrun
  obtain ⟨⟨d', m'⟩, -, heq⟩ := hrun
  cases heq
  exact ⟨_, _, rfl, hfind⟩

theorem StarRouting.Underway.emplace {o obj : DsonObj} {k k₀ key : Int} {ts : Forest} {a : Address} {t : Tree}
    (ho : Underway e o k ts a) (hobj : Built e obj k₀ t) (hkey : IsInt32 key) (hne : Key.routeAddress.key ≠ key) :
    ∃ o', DsonObj.emplace e key obj o .empty = some (o', .empty) ∧
      Underway e o' k (KeyMap.insertOrAssign key t ts) a := by
  obtain ⟨d, children, rfl, hfind⟩ := ho.route
  have hholds := ho.built.holds
  rw [Holds] at hholds
  obtain ⟨obj', hset, hobj'⟩ := hobj.holds.setKey hkey .empty
  have hrun : DsonObj.emplace e key obj (.dson d children) .empty = some (.dson
      { d with headerBuf := d.headerBuf.setDataType e TypesMap.dsonContainer }
      (KeyMap.insertOrAssign key obj' children), .empty) := by
    rw [DsonObj.emplace, hset]
    simp only [Option.bind_eq_bind, Option.bind_some, hholds.2.1.insertInternal hholds.1]
    rfl
  refine ⟨_, hrun, .emplace ho.built hobj hkey (rfl : (Tree.node ts).modify _ [] = some _)
    (by rw [DsonObj.onPath, emplaceAt, hrun]; rfl), _, _, rfl, ?_⟩
  rw [KeyMap.find_insertOrAssign_ne hne, hfind]

/-- An operation that leaves the child of a container as it is leaves the container as it is. -/
theorem DsonObj.onChild_same {α : Type} {key : Int} {f : DsonObj → Mem → Option (α × DsonObj × Mem)} {d : Dson}
    {children : ObjMap} {c : DsonObj} {x : α} (hbuf : d.buf = .null) (hsorted : KeyMap.Sorted children)
    (hfind : KeyMap.find key children = some c) {m : Mem} (hrun : f c m = some (x, c, m)) :
    DsonObj.onChild key f (.dson d children) m = some (x, .dson d children, m) := by
  rw [DsonObj.onChild, hfind]
  simp only [Dson.inner, Dson.outer, hbuf, Option.bind_eq_bind, Option.bind_some, hrun,
    KeyMap.insertOrAssign_find hfind hsorted]
  rfl

/-- A look at the route changes nothing. -/
theorem StarRouting.Underway.addressAt {o : DsonObj} {k : Int} {ts : Forest} {a : Address} (ho : Underway e o k ts a) :
    StarRouting.addressAt e Key.routeAddress.key o .empty = some (a, o, .empty) := by
  obtain ⟨d, children, rfl, hfind⟩ := ho.route
  have hholds := ho.built.holds
  rw [Holds] at hholds
  obtain ⟨hstate, hnode, hsorted, -⟩ := hholds
  have hget : DsonObj.get e Key.routeAddress.key (.dson d children) .empty =
      some (.child Key.routeAddress.key, .dson d children, .empty) := by
    rw [ho.built.holds.get_eq, DsonObj.getInternal, hfind]
    exact DsonObj.onChild_same hnode.buf hsorted hfind rfl
  have hroute : DsonObj.toAddress e (DsonObj.ofRouteObj e Key.routeAddress.key a) .empty =
      some (some a, DsonObj.ofRouteObj e Key.routeAddress.key a, .empty) := by
    simp [DsonObj.ofRouteObj, DsonObj.toAddress, DsonRouteObj.toOrder, Header.isHostOrder]
  rw [StarRouting.addressAt, hget]
  simp only [Option.bind_eq_bind, Option.bind_some, DsonObj.onChild_same hnode.buf hsorted hfind hroute]
  rfl

end

/-! ### Requests and answers -/

namespace StarRouting

/-- A message with a route. -/
structure Request (e : Endian) extends Message e where
  fromServId : Nat
  fromCliId : Nat
  toServId : Nat
  toCliId : Nat
  route : KeyMap.find Key.routeAddress.key children =
    some (.leaf (.words [fromServId, fromCliId, toServId, toCliId]))

namespace Request

variable {e : Endian} (r : Request e)

/-- The route of an answer. -/
def back : Int × Tree := (Key.routeAddress.key, .leaf (.words [r.toServId, r.toCliId, r.fromServId, r.fromCliId]))

/-- What a service that counts the request as number `chunkId` has to say to it: a key and children. -/
def echo (chunkId : Nat) : Option (Int × Forest) :=
  if r.key = Key.wantAuth.key then
    if stringOf r.children Key.password.key = password then some (Key.authed.key, [r.back]) else none
  else if r.key = Key.simpleData.key then
    some (Key.simpleData.key, [r.back, (Key.chunkId.key, .leaf (.uint32 chunkId)), (Key.stringData.key,
      .leaf (.string (received r.toCliId r.fromCliId (stringOf r.children Key.stringData.key))))])
  else none

end Request

theorem decimal_length {n : Nat} (hn : n < 2 ^ 32) : (decimal n).length ≤ 10 := by
  rw [decimal, List.length_map]
  exact (Nat.length_toDigits_le_iff (by decide) (by decide)).mpr (by omega)

theorem received_length {toCliId fromCliId : Nat} (hto : toCliId < 2 ^ 32) (hfrom : fromCliId < 2 ^ 32) (data : Bytes) :
    (received toCliId fromCliId data).length ≤ 43 + data.length := by
  have htexts : (text " received from ").length + (text " string:").length = 23 := by decide
  have hle := decimal_length hto
  have hle' := decimal_length hfrom
  simp only [received, List.length_append]
  omega

theorem received_ne_nil (toCliId fromCliId : Nat) (data : Bytes) : received toCliId fromCliId data ≠ [] := by
  have htext : text " received from " ≠ [] := by decide
  simp [received, htext]

theorem find_size {ts : Forest} {key : Int} {t : Tree} (hfind : KeyMap.find key ts = some t) :
    t.size ≤ Forest.size ts := by
  induction ts with
  | nil => cases hfind
  | cons p ts ih =>
      obtain ⟨k, t'⟩ := p
      rw [KeyMap.find] at hfind
      rw [Forest.size]
      split_ifs at hfind
      · cases hfind
        omega
      · have := ih hfind
        omega

theorem stringOf_length (ts : Forest) (key : Int) : (stringOf ts key).length ≤ Forest.size ts := by
  rw [stringOf]
  split
  · rename_i s hfind
    have hsize := find_size hfind
    simp only [Tree.size, Value.size] at hsize
    omega
  · simp

end StarRouting

section

open StarRouting

variable {e : Endian} {h : Header} {j : Nat → UInt8}

/-- A route tells its address. -/
theorem StarRouting.Request.addressAt {r : Request e} {o : DsonObj} (ho : Shows e o r.key r.children) :
    ∃ a o', Shows e o' r.key r.children ∧
      StarRouting.addressAt e Key.routeAddress.key o .empty = some (a, o', .empty) ∧
      a.fromServId.toNat e = r.fromServId ∧ a.fromCliId.toNat e = r.fromCliId ∧ a.toServId.toNat e = r.toServId ∧
      a.toCliId.toNat e = r.toCliId := by
  obtain ⟨a, o', hwords, hrun, ho'⟩ := ho.addressAt r.route .empty
  rw [Address.words] at hwords
  simp only [List.cons.injEq, and_true] at hwords
  exact ⟨a, o', ho', hrun, hwords⟩

/-- A service that gets data puts together an answer but for the text. -/
theorem StarRouting.echoService_eq {o o₁ o₂ : DsonObj} {a : Address} {chunkId : Nat} {data : Bytes}
    (haddress : StarRouting.addressAt e Key.routeAddress.key o .empty = some (a, o₁, .empty))
    (hkey : o₁.key e .empty = some Key.simpleData.key)
    (hstring : StarRouting.stringAt e Key.stringData.key o₁ .empty = some (data, o₂, .empty))
    (hchunk : chunkId < 2 ^ 32) :
    ∃ x, Underway e x Key.simpleData.key [(Key.routeAddress.key,
          .leaf (.words (Address.words e ⟨a.toServId, a.toCliId, a.fromServId, a.fromCliId⟩))),
        (Key.chunkId.key, .leaf (.uint32 chunkId))] ⟨a.toServId, a.toCliId, a.fromServId, a.fromCliId⟩ ∧
      StarRouting.echoService e h j chunkId o =
        (DsonObj.ofString e h j (received (a.toCliId.toNat e) (a.fromCliId.toNat e) data)).bind fun d =>
          (DsonObj.emplace e Key.stringData.key d x .empty).bind fun p => some (o₂, some p.1) := by
  obtain ⟨x, hnew, hx⟩ := underway_new (e := e) ⟨a.toServId, a.toCliId, a.fromServId, a.fromCliId⟩
  obtain ⟨x₁, hset, hx₁⟩ := hx.setKey (by decide : IsInt32 Key.simpleData.key)
  obtain ⟨c, hc, -⟩ := holds_ofUInt32 (e := e) h j hchunk
  obtain ⟨x₂, hput, hx₂⟩ := hx₁.emplace (.uint32 hchunk hc) (by decide : IsInt32 Key.chunkId.key) (by decide)
  refine ⟨x₂, hx₂, ?_⟩
  rw [StarRouting.echoService, haddress]
  simp only [Option.bind_eq_bind, Option.bind_some, routeBack, hnew, hkey]
  rw [if_neg (by decide), if_pos trivial]
  simp only [hset, hc, hput, hstring, Option.bind_some]
  rfl

/-- When there is room for the text it answers. -/
theorem StarRouting.echoService_data {o o₁ o₂ : DsonObj} {a : Address} {chunkId : Nat} {data : Bytes}
    (haddress : StarRouting.addressAt e Key.routeAddress.key o .empty = some (a, o₁, .empty))
    (hkey : o₁.key e .empty = some Key.simpleData.key)
    (hstring : StarRouting.stringAt e Key.stringData.key o₁ .empty = some (data, o₂, .empty))
    (hchunk : chunkId < 2 ^ 32)
    (hlt : (received (a.toCliId.toNat e) (a.fromCliId.toNat e) data).length < 2 ^ 31) :
    ∃ x, StarRouting.echoService e h j chunkId o = some (o₂, some x) ∧
      Underway e x Key.simpleData.key [(Key.routeAddress.key,
          .leaf (.words (Address.words e ⟨a.toServId, a.toCliId, a.fromServId, a.fromCliId⟩))),
        (Key.chunkId.key, .leaf (.uint32 chunkId)), (Key.stringData.key,
          .leaf (.string (received (a.toCliId.toNat e) (a.fromCliId.toNat e) data)))]
        ⟨a.toServId, a.toCliId, a.fromServId, a.fromCliId⟩ := by
  obtain ⟨x, hx, hrun⟩ := echoService_eq (h := h) (j := j) haddress hkey hstring hchunk
  obtain ⟨d, hd, -⟩ := holds_ofString (e := e) h j (received_ne_nil _ _ _) hlt
  obtain ⟨x', hput, hx'⟩ := hx.emplace (.string (received_ne_nil _ _ _) hlt hd)
    (by decide : IsInt32 Key.stringData.key) (by decide)
  refine ⟨x', ?_, hx'⟩
  rw [hrun, hd, Option.bind_some, hput]
  rfl

/-- A service answers a request. -/
theorem StarRouting.Request.echoService {r : Request e} {o : DsonObj} (ho : Shows e o r.key r.children) {chunkId : Nat}
    (hchunk : chunkId < 2 ^ 32) : ∃ o' answer, Shows e o' r.key r.children ∧
      StarRouting.echoService e h j chunkId o = some (o', answer) ∧
      (r.echo chunkId = none ∧ answer = none ∨ ∃ k ts a x, r.echo chunkId = some (k, ts) ∧ answer = some x ∧
        Underway e x k ts a ∧ a.words e = [r.toServId, r.toCliId, r.fromServId, r.fromCliId]) := by
  obtain ⟨a, o₁, ho₁, haddress, hfs, hfc, hts, htc⟩ := Request.addressAt ho
  have hwords : Address.words e ⟨a.toServId, a.toCliId, a.fromServId, a.fromCliId⟩ =
      [r.toServId, r.toCliId, r.fromServId, r.fromCliId] := by
    rw [Address.words, hfs, hfc, hts, htc]
  have hkey := ho₁.key .empty
  by_cases hdata : r.key = Key.simpleData.key
  · obtain ⟨o₂, hstring, ho₂⟩ := ho₁.stringAt Key.stringData.key .empty
    have hlt : (received (a.toCliId.toNat e) (a.fromCliId.toNat e)
        (stringOf r.children Key.stringData.key)).length < 2 ^ 31 := by
      have hlen := received_length (a.toCliId.toNat_lt e) (a.fromCliId.toNat_lt e)
        (stringOf r.children Key.stringData.key)
      have hle := stringOf_length r.children Key.stringData.key
      have hlimit := r.limit
      omega
    rw [hdata] at hkey
    obtain ⟨x, hrun, hx⟩ := echoService_data (h := h) (j := j) haddress hkey hstring hchunk hlt
    rw [hwords, htc, hfc] at hx
    refine ⟨o₂, some x, ho₂, hrun, Or.inr ⟨_, _, _, x, ?_, rfl, hx, hwords⟩⟩
    rw [Request.echo, if_neg (by rw [hdata]; decide), if_pos hdata]
    rfl
  · obtain ⟨x, hnew, hx⟩ := underway_new (e := e) ⟨a.toServId, a.toCliId, a.fromServId, a.fromCliId⟩
    rw [hwords] at hx
    rw [StarRouting.echoService, haddress]
    simp only [Option.bind_eq_bind, Option.bind_some, routeBack, hnew, hkey]
    rw [Request.echo]
    split_ifs with hwant hpassword
    · obtain ⟨o₂, hstring, ho₂⟩ := ho₁.stringAt Key.password.key .empty
      obtain ⟨x', hset, hx'⟩ := hx.setKey (by decide : IsInt32 Key.authed.key)
      refine ⟨o₂, some x', ho₂, ?_, Or.inr ⟨_, _, _, x', rfl, rfl, hx', hwords⟩⟩
      simp only [hstring, Option.bind_some, hpassword, hset]
      rfl
    · obtain ⟨o₂, hstring, ho₂⟩ := ho₁.stringAt Key.password.key .empty
      refine ⟨o₂, none, ho₂, ?_, Or.inl ⟨rfl, rfl⟩⟩
      simp only [hstring, Option.bind_some]
      rw [if_pos hpassword]
      rfl
    · exact ⟨o₁, none, ho₁, rfl, Or.inl ⟨rfl, rfl⟩⟩

end

end LeanDson
