import LeanDson.StarRouting
import Mathlib.Logic.Function.Basic

/-! Rounds of the server loop. Whatever the reads and the writes of a connection move at a time, a client is sent the
answers to its requests, each once and in the order of the requests, by services that count the requests they get. -/

namespace LeanDson

namespace StarRouting

/-! ### What is to be answered -/

/-- The id is that of a service, and the client has not taken it. -/
abbrev IsService (c id : Nat) : Prop := 1 ≤ id ∧ id < 100 ∧ id ≠ c

/-- The counts of the services after one has been called. -/
def counted (chunk : Nat → Nat) (id : Nat) : Nat → Nat := Function.update chunk id ((chunk id + 1) % 2 ^ 32)

variable {e : Endian}

/-- What a request of the client `c` comes to: the counts after it, and what is sent to the client. An answer goes to
the id that the request names as its own, and may be a call of a service there. -/
def Request.serve (c : Nat) (chunk : Nat → Nat) (r : Request e) : (Nat → Nat) × List (Int × Forest) :=
  if IsService c r.toCliId then
    match r.echo (counted chunk r.toCliId r.toCliId) with
    | none => (counted chunk r.toCliId, [])
    | some answer =>
        if r.fromCliId = c then (counted chunk r.toCliId, [answer])
        else if IsService c r.fromCliId then (counted (counted chunk r.toCliId) r.fromCliId, [])
        else (counted chunk r.toCliId, [])
  else (chunk, [])

/-- All that is sent to the client for requests in a row. -/
def serve (c : Nat) : (Nat → Nat) → List (Request e) → List (Int × Forest)
  | _, [] => []
  | chunk, r :: rest => (r.serve c chunk).2 ++ serve c (r.serve c chunk).1 rest

/-- A request that the server can get done: it is not addressed to the client itself, data is not sent in the name of
one service to another, and there is room for what an answer has more than the request. -/
structure Request.Civil (c : Nat) (r : Request e) : Prop where
  away : r.toCliId ≠ c
  settles : r.key = Key.simpleData.key → IsService c r.toCliId → ¬IsService c r.fromCliId
  room : Forest.size r.children + 128 ≤ 2 ^ 30

/-- An answer of a service is a message. -/
theorem Request.echo_message {r : Request e} {chunkId : Nat} {k : Int} {ts : Forest} {x : DsonObj} {a : Address}
    (hroom : Forest.size r.children + 128 ≤ 2 ^ 30) (hecho : r.echo chunkId = some (k, ts)) (hx : Underway e x k ts a)
    (ha : a.words e = [r.toServId, r.toCliId, r.fromServId, r.fromCliId]) :
    ∃ msg : Message e, msg.obj = x ∧ msg.network = true ∧ (msg.key, msg.children) = (k, ts) := by
  rw [Request.echo] at hecho
  split_ifs at hecho
  · cases hecho
    refine ⟨⟨x, true, _, _, hx.built, ?_, ?_, ?_⟩, rfl, rfl, rfl⟩
    · simp [Request.back, Key.key]
    · simp [Request.back, Value.Plain]
    · simp [Request.back, Forest.size, Tree.size, Value.size, headerSize]
  · cases hecho
    refine ⟨⟨x, true, _, _, hx.built, ?_, ?_, ?_⟩, rfl, rfl, rfl⟩
    · simp [Request.back, Key.key]
    · simp [Request.back, Value.Plain]
    · simp only [Address.words, List.cons.injEq, and_true] at ha
      obtain ⟨-, hto, -, hfrom⟩ := ha
      have hlen := received_length (a.fromCliId.toNat_lt e) (a.toCliId.toNat_lt e)
        (stringOf r.children Key.stringData.key)
      rw [hto, hfrom] at hlen
      have hle := stringOf_length r.children Key.stringData.key
      simp only [Request.back, Forest.size, Tree.size, Value.size, headerSize, List.length_cons, List.length_nil]
      omega

/-! ### Tables of routes -/

/-- The services are found under their ids with their counts, apart from one whose id the client has taken. -/
def Routes (table : RouteTable) (client : Option Nat) (chunk : Nat → Nat) : Prop :=
  ∀ id, KeyMap.find id table = if client = some id then some .sendDson
    else if 1 ≤ id ∧ id < 100 then some (.echoService (chunk id)) else none

theorem routes_services : Routes services none fun _ => 0 := by
  have hkeys : KeyMap.keys services = (List.range 99).map fun i => i + 1 := by
    rw [services, KeyMap.keys, List.map_map]
    rfl
  have hsorted : KeyMap.Sorted services := by
    rw [KeyMap.Sorted, hkeys, List.pairwise_map]
    exact List.pairwise_lt_range.imp fun h => by omega
  intro id
  rw [if_neg (by simp)]
  split_ifs with hid
  · refine KeyMap.find_of_mem hsorted (List.mem_map.mpr ⟨id - 1, List.mem_range.mpr (by omega), ?_⟩)
    rw [Nat.sub_add_cancel hid.1]
  · rw [KeyMap.find_eq_none, hkeys, List.mem_map]
    rintro ⟨i, hi, rfl⟩
    rw [List.mem_range] at hi
    omega

section

variable {table : RouteTable} {chunk : Nat → Nat}

theorem Routes.add (h : Routes table none chunk) (c : Nat) :
    Routes (KeyMap.insertOrAssign c .sendDson table) (some c) chunk := by
  intro id
  by_cases hid : id = c
  · rw [hid, KeyMap.find_insertOrAssign_self, if_pos rfl]
  · have hne : some c ≠ some id := by simpa using Ne.symm hid
    rw [KeyMap.find_insertOrAssign_ne hid, h id, if_neg (Option.some_ne_none id).symm, if_neg hne]

theorem Routes.client {c : Nat} (h : Routes table (some c) chunk) : KeyMap.find c table = some .sendDson := by
  rw [h c, if_pos rfl]

theorem Routes.service {c id : Nat} (h : Routes table (some c) chunk) (hid : IsService c id) :
    KeyMap.find id table = some (.echoService (chunk id)) := by
  rw [h id, if_neg (by simpa using hid.2.2.symm), if_pos ⟨hid.1, hid.2.1⟩]

theorem Routes.nobody {c id : Nat} (h : Routes table (some c) chunk) (hne : id ≠ c) (hid : ¬IsService c id) :
    KeyMap.find id table = none := by
  rw [h id, if_neg (by simpa using hne.symm), if_neg]
  rintro ⟨hle, hlt⟩
  exact hid ⟨hle, hlt, hne⟩

/-- A service counts. -/
theorem Routes.count {c id : Nat} (h : Routes table (some c) chunk) (hid : IsService c id) :
    Routes (KeyMap.insertOrAssign id (.echoService ((chunk id + 1) % 2 ^ 32)) table) (some c) (counted chunk id) := by
  intro id'
  by_cases hne : id' = id
  · rw [hne, KeyMap.find_insertOrAssign_self, if_neg (by simpa using hid.2.2.symm), if_pos ⟨hid.1, hid.2.1⟩, counted,
      Function.update_self]
  · rw [KeyMap.find_insertOrAssign_ne hne, h id', counted, Function.update_of_ne hne]

end

end StarRouting

/-! ### The queue of a connection -/

section

open StarRouting

variable {e : Endian} {msgs done todo : List (Message e)} {got out channel : Bytes} {outbox : List (DsonObj × Bool)}
  {inbox : DsonObj} {ready : List DsonObj} {n : Nat}

/-- One message more to be sent. -/
theorem Link.Carrying.append {s : Link}
    (h : Carrying msgs done todo got out s) (msg : Message e) :
    Carrying (msgs ++ [msg]) done (todo ++ [msg]) got (out ++ msg.wire)
      { s with outbox := s.outbox ++ [(msg.obj, msg.network)] } := by
  have hmsg : ∃ k t, Holds e msg.obj k t ∧ t.size < 2 ^ 31 := by
    have hlimit := msg.limit
    refine ⟨_, _, msg.built.holds, ?_⟩
    rw [Tree.size, headerSize]
    omega
  refine ⟨?_, h.shown, h.receiving, ?_, ?_, h.consumed, h.failed⟩
  · rw [h.split, List.append_assoc]
  · have hsending := h.sending
    cases hout : s.outbox with
    | nil =>
        rw [hout] at hsending
        have hnil : out = [] := hsending
        have hsingle : Sending e [(msg.obj, msg.network)] _ := Sending.of_holds (by simpa using hmsg)
        rw [hnil]
        simpa [Message.wire] using hsingle
    | cons p rest =>
        rw [hout] at hsending
        obtain ⟨hfirst, hrest, rfl⟩ := hsending
        refine ⟨hfirst, fun q hq => ?_, ?_⟩
        · rcases List.mem_append.mp hq with hq | hq
          · exact hrest q hq
          · obtain rfl := List.mem_singleton.mp hq
            exact hmsg
        · simp [Message.wire, List.append_assoc]
  · rw [List.flatMap_append, ← h.bytes]
    simp [List.append_assoc]

/-- A copy of the first object that is to be sent. -/
theorem Link.Carrying.copy {o : DsonObj} {network : Bool}
    (h : Carrying msgs done todo got out ⟨(o, network) :: outbox, channel, inbox, ready, n, false⟩)
    (counts : List Nat) : ∃ r o' m fd out',
      o.copyTo e network .empty (FdOut.fresh (counts.map some)) = some (r, o', m, fd) ∧ r ≠ .error ∧
      Carrying msgs done todo got out'
        ⟨if r = .ready then outbox else (o', network) :: outbox, channel ++ fd.out, inbox, ready, n, false⟩ := by
  obtain ⟨s, out', hsend, h'⟩ := h.send counts
  rw [Link.send] at hsend
  simp only [Option.bind_eq_bind, Option.bind_eq_some_iff, Option.pure_def] at hsend
  obtain ⟨⟨r, o', m, fd⟩, hcopy, heq⟩ := hsend
  cases heq
  have hr : r ≠ .error := fun hr => by simpa [hr] using h'.failed
  refine ⟨r, o', m, fd, out', hcopy, hr, ?_⟩
  have hfailed : (false || r == .error) = false := h'.failed
  rw [hfailed] at h'
  exact h'

theorem Shows.not_awaits {d : Dson} {children : ObjMap} {k : Int} {ts : Forest} (ho : Shows e (.dson d children) k ts) :
    ¬d.Awaits e got := by
  obtain ⟨d', children', heq, -, hstate⟩ := ho.idle
  cases heq
  rintro (hheader | ⟨body, -, hdata⟩)
  · simp [hheader.state] at hstate
  · simp [hdata.state] at hstate

/-- A load takes some of the message that is next, or the rest of it and nothing more. -/
theorem Link.Carrying.load (h : Carrying msgs done todo got out ⟨outbox, channel, inbox, ready, n, false⟩)
    (counts : List Nat) (junk : Nat → UInt8) : ∃ r o m fd n',
      inbox.loadFromFd e junk ⟨counts.map some, channel⟩ .empty = some (r, o, m, fd) ∧
      ((r = .inProcess ∧ ∃ got', Carrying msgs done todo got' out ⟨outbox, fd.input, o, ready, n', false⟩) ∨
        (r = .ready ∧ ∃ msg rest, todo = msg :: rest ∧ Shows e o msg.key msg.children ∧
          Carrying msgs (done ++ [msg]) rest [] out ⟨outbox, fd.input, o, ready ++ [o], n', false⟩)) := by
  obtain ⟨s, done', todo', got', hreceive, h'⟩ := h.receive counts junk
  rw [Link.receive] at hreceive
  simp only [Option.bind_eq_bind, Option.bind_eq_some_iff, Option.pure_def] at hreceive
  obtain ⟨⟨r, o, m, fd⟩, hload, heq⟩ := hreceive
  cases heq
  refine ⟨r, o, m, fd, n + (channel.length - fd.input.length), hload, ?_⟩
  have hlength := h.shown.length_eq
  have hlength' := h'.shown.length_eq
  have hsplit := h.split.symm.trans h'.split
  cases r with
  | error => cases h'.failed
  | inProcess =>
      obtain ⟨rfl, rfl⟩ := List.append_inj hsplit (hlength.trans hlength'.symm)
      exact Or.inl ⟨rfl, got', h'⟩
  | ready =>
      rw [if_pos rfl, List.length_append, List.length_singleton, ← hlength] at hlength'
      obtain ⟨added, rfl, htodo⟩ | ⟨lost, rfl, -⟩ := List.append_eq_append_iff.mp hsplit
      · obtain ⟨msg, rfl⟩ : ∃ msg, added = [msg] :=
          List.length_eq_one_iff.mp (by rw [List.length_append] at hlength'; omega)
        have hshown : Shows e o msg.key msg.children := by
          have hlast := List.forall₂_drop_append _ _ _ h'.shown
          rw [← hlength, List.drop_left] at hlast
          exact (List.forall₂_cons.mp hlast).1
        obtain rfl : got' = [] := by
          obtain ⟨hnil, -⟩ | ⟨d, rfl, hawaits⟩ := h'.receiving
          · exact hnil
          · exact absurd hawaits hshown.not_awaits
        exact Or.inr ⟨rfl, msg, todo', htodo, hshown, h'⟩
      · rw [List.length_append] at hlength'
        omega

/-- A load that may take a byte takes one. -/
theorem Link.Carrying.load_lt (h : Carrying msgs done todo got out ⟨outbox, channel, inbox, ready, n, false⟩)
    {counts : List Nat} {junk : Nat → UInt8} {r : Result} {o : DsonObj} {m : Mem} {fd : FdIn}
    (hload : inbox.loadFromFd e junk ⟨counts.map some, channel⟩ .empty = some (r, o, m, fd)) :
    counts = [1] → channel ≠ [] → fd.input.length < channel.length := by
  obtain ⟨d, children, rfl, hloads⟩ := h.receiving.loads
  obtain ⟨r', d', j, k, hrun, -, hk, -, hgives⟩ := hloads.loadFromFd junk ⟨counts.map some, channel⟩ (by simp) .empty
  have heq := hrun.symm.trans hload
  cases heq
  rw [FdIn.after]
  dsimp only at hk ⊢
  rintro rfl hne
  have hpos := hgives ⟨hne, 0, [], rfl⟩
  rw [List.length_drop]
  omega

/-- When the sender and the channel are empty every message has been received. -/
theorem Link.Carrying.drained {s : Link} (h : Carrying msgs done todo got out s) (houtbox : s.outbox = [])
    (hchannel : s.channel = []) : todo = [] := by
  have hsending := h.sending
  rw [houtbox] at hsending
  have hnil : out = [] := hsending
  cases todo with
  | nil => rfl
  | cons msg todo =>
      have hgot := h.got_lt
      have hbytes := congrArg List.length h.bytes
      rw [hchannel, hnil, List.append_nil, List.append_nil, List.flatMap_cons, List.length_append,
        msg.wire_length] at hbytes
      omega

/-- A received container that has been cleared is empty. -/
theorem Shows.clear {o : DsonObj} {k : Int} {ts : Forest} (ho : Shows e o k ts) :
    ∃ k', Shows e (Ipc.clear o) k' [] := by
  cases ho with
  | nothing hstate hkind hbuf =>
      exact ⟨_, .nothing rfl rfl (by rw [Dson.clear]; simp [hbuf])⟩
  | block hd => exact ⟨_, .nothing rfl rfl (by rw [Dson.clear]; simp [hd.alloc])⟩
  | parsed hd => exact ⟨_, .nothing rfl rfl (by rw [Dson.clear]; simp [hd.alloc])⟩

/-- The inbox may be replaced by one that is cleared. -/
theorem Link.Carrying.clear {s : Link} (h : Carrying msgs done todo [] out s) {o : DsonObj} {k : Int} {ts : Forest}
    (ho : Shows e o k ts) : Carrying msgs done todo [] out { s with inbox := Ipc.clear o } := by
  obtain ⟨k', hclear⟩ := ho.clear
  exact ⟨h.split, h.shown, Or.inl ⟨rfl, k', [], hclear⟩, h.sending, h.bytes, h.consumed, h.failed⟩

/-- The loop of `send_dson_from_deque` moves a first part of what is to come into the connection. -/
theorem Link.Carrying.sendQueue {queue : List DsonObj}
    (h : Carrying msgs done todo got out ⟨queue.map fun o => (o, true), channel, inbox, ready, n, false⟩)
    (writes : List (List Nat)) : ∃ queue' bs writes' out',
      StarRouting.sendQueue e queue writes = some (queue', false, bs, writes') ∧
      Carrying msgs done todo got out' ⟨queue'.map fun o => (o, true), channel ++ bs, inbox, ready, n, false⟩ := by
  induction queue generalizing out channel writes with
  | nil => exact ⟨[], [], writes, out, rfl, by simpa using h⟩
  | cons o rest ih =>
      obtain ⟨r, o', m, fd, out', hcopy, hr, h'⟩ := h.copy (writes.headD [])
      rw [StarRouting.sendQueue]
      simp only [hcopy, Option.bind_eq_bind, Option.bind_some]
      cases r with
      | error => exact absurd rfl hr
      | inProcess => exact ⟨o' :: rest, fd.out, writes.tail, out', rfl, h'⟩
      | ready =>
          obtain ⟨queue', bs, writes', out'', hrest, h''⟩ := ih h' writes.tail
          refine ⟨queue', fd.out ++ bs, writes', out'', ?_, ?_⟩
          · simp only [hrest, Option.bind_some]
            rfl
          · rw [List.append_assoc] at h''
            exact h''

end

/-! ### The router -/

namespace StarRouting

section

variable {e : Endian} {h : Header} {j : Nat → UInt8} {msgs done todo : List (Message e)} {got out : Bytes}
  {inbox : DsonObj} {answers : List DsonObj} {n : Nat} {c : Nat} {chunk : Nat → Nat}

namespace Server

/-- What is changed by neither the queue nor the router. -/
structure Keeps (s s' : Server) : Prop where
  dson : s'.dson = s.dson
  needSetRoute : s'.needSetRoute = s.needSetRoute
  keepRun : s'.keepRun = s.keepRun
  returned : s'.returned = s.returned
  input : s'.input = s.input

theorem Keeps.refl (s : Server) : Keeps s s := ⟨rfl, rfl, rfl, rfl, rfl⟩

/-- The connection to the client as a link, with what the client has taken from it. -/
def replies (s : Server) (inbox : DsonObj) (answers : List DsonObj) (n : Nat) : Link where
  outbox := s.writeDeque.map fun o => (o, true)
  channel := s.output
  inbox := inbox
  ready := answers
  consumed := n
  failed := false

theorem sendDsonFromDeque_carrying {s : Server}
    (hs : Link.Carrying msgs done todo got out (s.replies inbox answers n)) :
    ∃ s' out', s.sendDsonFromDeque e = some s' ∧ Keeps s s' ∧ s'.routeTable = s.routeTable ∧
      Link.Carrying msgs done todo got out' (s'.replies inbox answers n) := by
  obtain ⟨queue, bs, writes, out', hrun, hs'⟩ := hs.sendQueue s.writes
  refine ⟨{ s with
    writeDeque := queue
    keepRun := s.keepRun && !false
    output := s.output ++ bs
    writes := writes }, out', ?_, ⟨rfl, rfl, by simp, rfl, rfl⟩, rfl, hs'⟩
  rw [sendDsonFromDeque, hrun]
  rfl

/-- `send_dson` appends a message to what is to be sent. -/
theorem sendDson_carrying {s : Server} (hs : Link.Carrying msgs done todo got out (s.replies inbox answers n))
    (msg : Message e) (hmsg : msg.network = true) :
    ∃ left s' out', s.sendDson e h j msg.obj = some (left, s') ∧ Keeps s s' ∧ s'.routeTable = s.routeTable ∧
      Link.Carrying (msgs ++ [msg]) done (todo ++ [msg]) got out' (s'.replies inbox answers n) := by
  have hholds := msg.built.holds
  have hs₁ := hs.append msg
  cases hobj : msg.obj with
  | string x => rw [hobj] at hholds; exact hholds.elim
  | route x => rw [hobj] at hholds; exact hholds.elim
  | dson d children =>
      have hqueue : Link.Carrying (msgs ++ [msg]) done (todo ++ [msg]) got (out ++ msg.wire)
          (({ s with writeDeque := s.writeDeque ++ [.dson d children] } : Server).replies inbox answers n) := by
        rw [hobj, hmsg] at hs₁
        simpa only [replies, List.map_append, List.map_cons, List.map_nil] using hs₁
      obtain ⟨s', out', hrun, hkeeps, htable, hs'⟩ := sendDsonFromDeque_carrying hqueue
      refine ⟨.dson { d with
        state := .error
        buf := .null
        copyIter := .unset } [], s', out', ?_, ⟨hkeeps.1, hkeeps.2, hkeeps.3, hkeeps.4, hkeeps.5⟩, htable, hs'⟩
      rw [sendDson, DsonObj.moveFromOther, if_neg (by simp [Dson.uninit, BufPtr.isNull])]
      simp only [Option.bind_eq_bind, Option.bind_some, hrun]
      rfl

/-- A service that is called with an answer that is no call has nothing to say to it. -/
theorem echoService_authed {x : DsonObj} {ts : Forest} {a : Address} (hx : Underway e x Key.authed.key ts a)
    (chunkId : Nat) : echoService e h j chunkId x = some (x, none) := by
  obtain ⟨y, hnew, -⟩ := underway_new (e := e) ⟨a.toServId, a.toCliId, a.fromServId, a.fromCliId⟩
  rw [echoService, hx.addressAt]
  simp only [Option.bind_eq_bind, Option.bind_some, routeBack, hnew, hx.built.holds.key]
  rw [if_neg (by decide), if_neg (by decide)]
  rfl

/-- The router reads the address that an answer goes to. -/
theorem route_underway {x : DsonObj} {k : Int} {ts : Forest} {a : Address} (hx : Underway e x k ts a) (depth : Nat)
    (s : Server) : route e h j (depth + 1) x s = match KeyMap.find (a.toCliId.toNat e) s.routeTable with
      | none => some (x, s)
      | some .sendDson => s.sendDson e h j x
      | some (.echoService chunkId) => do
          let s := { s with
            routeTable :=
              KeyMap.insertOrAssign (a.toCliId.toNat e) (.echoService ((chunkId + 1) % 2 ^ 32)) s.routeTable }
          let (dson, answer) ← echoService e h j ((chunkId + 1) % 2 ^ 32) x
          match answer with
          | none => return (dson, s)
          | some answer => do
              let (_, s) ← route e h j depth answer s
              return (dson, s) := by
  rw [route, hx.addressAt]
  rfl

/-- An answer is routed: it is queued for the client, or it is no call, or it is dropped. -/
theorem route_answer {s : Server} {r : Request e} {chunkId : Nat} {k : Int} {ts : Forest} {a : Address} {x : DsonObj}
    (hroutes : Routes s.routeTable (some c) chunk) (hr : r.Civil c) (hservice : IsService c r.toCliId)
    (hecho : r.echo chunkId = some (k, ts)) (hx : Underway e x k ts a)
    (ha : a.words e = [r.toServId, r.toCliId, r.fromServId, r.fromCliId])
    (hs : Link.Carrying msgs done todo got out (s.replies inbox answers n)) (depth : Nat) :
    ∃ left s' out' sent, route e h j (depth + 1) x s = some (left, s') ∧ Keeps s s' ∧
      Routes s'.routeTable (some c) (if r.fromCliId = c then chunk else
        if IsService c r.fromCliId then counted chunk r.fromCliId else chunk) ∧
      sent.map (fun msg => (msg.key, msg.children)) = (if r.fromCliId = c then [(k, ts)] else []) ∧
      Link.Carrying (msgs ++ sent) done (todo ++ sent) got out' (s'.replies inbox answers n) := by
  have hto : a.toCliId.toNat e = r.fromCliId := by
    rw [Address.words] at ha
    simp only [List.cons.injEq] at ha
    exact ha.2.2.2.1
  rw [route_underway hx, hto]
  split_ifs with hclient hcalled
  · obtain ⟨msg, rfl, hnetwork, hmsg⟩ := Request.echo_message hr.room hecho hx ha
    obtain ⟨left, s', out', hsend, hkeeps, htable, hs'⟩ := sendDson_carrying (h := h) (e := e) hs msg hnetwork
    refine ⟨left, s', out', [msg], ?_, hkeeps, htable ▸ hroutes, by simp [hmsg], hs'⟩
    rw [hclient, hroutes.client]
    exact hsend
  · have hkey : k = Key.authed.key := by
      rw [Request.echo] at hecho
      split_ifs at hecho with hwant hpassword hdata
      · cases hecho
        rfl
      · exact absurd hcalled (hr.settles hdata hservice)
    subst hkey
    rw [hroutes.service hcalled]
    refine ⟨x, { s with
      routeTable := KeyMap.insertOrAssign r.fromCliId (.echoService ((chunk r.fromCliId + 1) % 2 ^ 32)) s.routeTable },
      out, [], ?_, ⟨rfl, rfl, rfl, rfl, rfl⟩, hroutes.count hcalled, rfl, ?_⟩
    · simp only [echoService_authed hx]
      rfl
    · rw [List.append_nil, List.append_nil]
      exact hs
  · rw [hroutes.nobody hclient hcalled]
    exact ⟨x, s, out, [], rfl, Keeps.refl s, hroutes, rfl, by simpa using hs⟩

/-- The router serves a request. -/
theorem route_serves {s : Server} {r : Request e} {o : DsonObj} (hroutes : Routes s.routeTable (some c) chunk)
    (ho : Shows e o r.key r.children) (hr : r.Civil c)
    (hs : Link.Carrying msgs done todo got out (s.replies inbox answers n)) (depth : Nat) :
    ∃ o' s' out' sent, route e h j (depth + 2) o s = some (o', s') ∧ Shows e o' r.key r.children ∧ Keeps s s' ∧
      Routes s'.routeTable (some c) (r.serve c chunk).1 ∧
      sent.map (fun msg => (msg.key, msg.children)) = (r.serve c chunk).2 ∧
      Link.Carrying (msgs ++ sent) done (todo ++ sent) got out' (s'.replies inbox answers n) := by
  obtain ⟨a, o₁, ho₁, haddress, -, -, -, hto⟩ := Request.addressAt ho
  rw [route, haddress]
  simp only [Option.bind_eq_bind, Option.bind_some, hto]
  rw [Request.serve]
  by_cases hservice : IsService c r.toCliId
  · rw [if_pos hservice, hroutes.service hservice]
    have hlt : (chunk r.toCliId + 1) % 2 ^ 32 < 2 ^ 32 := Nat.mod_lt _ (by decide)
    have hcounted : counted chunk r.toCliId r.toCliId = (chunk r.toCliId + 1) % 2 ^ 32 := by
      rw [counted, Function.update_self]
    obtain ⟨o₂, answer, ho₂, hecho, hcases⟩ := Request.echoService (h := h) (j := j) ho₁ hlt
    have hs₁ : Link.Carrying msgs done todo got out (({ s with
      routeTable := KeyMap.insertOrAssign r.toCliId (.echoService ((chunk r.toCliId + 1) % 2 ^ 32))
        s.routeTable } : Server).replies inbox answers n) := hs
    rw [hcounted]
    simp only [hecho, Option.bind_some]
    rcases hcases with ⟨hnone, rfl⟩ | ⟨k, ts, b, x, hsome, rfl, hx, hb⟩
    · rw [hnone]
      exact ⟨o₂, _, out, [], rfl, ho₂, ⟨rfl, rfl, rfl, rfl, rfl⟩, hroutes.count hservice, rfl, by simpa using hs₁⟩
    · obtain ⟨left, s', out', sent, hrun, hkeeps, hroutes', hsent, hs'⟩ :=
        route_answer (h := h) (j := j) (hroutes.count hservice) hr hservice hsome hx hb hs₁ depth
      refine ⟨o₂, s', out', sent, ?_, ho₂, ⟨hkeeps.1, hkeeps.2, hkeeps.3, hkeeps.4, hkeeps.5⟩, ?_, ?_, hs'⟩
      · simp only [hrun, Option.bind_some]
        rfl
      · rw [hsome]
        split_ifs at hroutes' ⊢ <;> exact hroutes'
      · rw [hsome, hsent]
        split_ifs <;> rfl
  · rw [if_neg hservice, hroutes.nobody hr.away hservice]
    exact ⟨o₁, s, out, [], rfl, ho₁, Keeps.refl s, hroutes, rfl, by simpa using hs⟩

end Server

end

/-! ### A client and the server -/

/-- A client at the other end of the connection. -/
structure World where
  /-- The objects still to be sent with their orders; the first may be being copied. -/
  outbox : List (DsonObj × Bool)
  server : Server
  answerDson : DsonObj
  /-- `answer_dson` as it was each time a load was ready. -/
  answers : List DsonObj

/-- A call of the client's emitter or loader, or a round of the server, with what their `write` and `read` calls move at
most and what the memory holds that they take; or a call of `stop`. -/
inductive Step where
  | send (counts : List Nat)
  | round (counts : List Nat) (writes : List (List Nat)) (h : Header) (junk : Nat → UInt8)
  | receive (counts : List Nat) (junk : Nat → UInt8)
  | stop

namespace World

variable (e : Endian) (depth : Nat)

def send (counts : List Nat) (w : World) : Option World :=
  match w.outbox with
  | [] => some w
  | (o, network) :: rest => do
      let (r, o, _, fd) ← o.copyTo e network .empty (FdOut.fresh (counts.map some))
      return { w with
        outbox := if r = .ready then rest else (o, network) :: rest
        server := { w.server with input := w.server.input ++ fd.out } }

def receive (counts : List Nat) (junk : Nat → UInt8) (w : World) : Option World := do
  let (r, o, _, fd) ← w.answerDson.loadFromFd e junk ⟨counts.map some, w.server.output⟩ .empty
  let server := { w.server with output := fd.input }
  if r = .ready then return { w with
    server := server
    answerDson := Ipc.clear o
    answers := w.answers ++ [o] }
  return { w with
    server := server
    answerDson := o }

def step : Step → World → Option World
  | .send counts, w => w.send e counts
  | .round counts writes h junk, w =>
      (Server.round e h junk depth counts { w.server with writes := writes }).map fun server =>
        { w with server := server }
  | .receive counts junk, w => w.receive e counts junk
  | .stop, w => some { w with server := { w.server with keepRun := false } }

def run : List Step → World → Option World
  | [], w => some w
  | a :: rest, w => (w.step e depth a).bind (run rest)

/-- The server has accepted the connection, and the client has everything still to send. -/
def start {e : Endian} (requests : List (Request e)) : World where
  outbox := requests.map fun r => (r.obj, r.network)
  server := ⟨services, true, .empty e, [], true, false, [], [], []⟩
  answerDson := .empty e
  answers := []

/-- Nothing is on its way. -/
def Quiet (w : World) : Prop :=
  w.outbox = [] ∧ w.server.input = [] ∧ w.server.writeDeque = [] ∧ w.server.output = []

end World

section

variable {e : Endian} {c : Nat} {requests : List (Request e)} {h : Header} {j : Nat → UInt8}

/-- The key and the children of a message. -/
def contents (msg : Message e) : Int × Forest := (msg.key, msg.children)

/-- The requests that have been served, and what has been sent for them, are in order with what is on its way. -/
structure World.Serves (c : Nat) (requests read todo : List (Request e)) (chunk : Nat → Nat)
    (msgs done rest : List (Message e)) (w : World) : Prop where
  split : requests = read ++ todo
  asked : ∃ got out ready n, Link.Carrying (requests.map Request.toMessage) (read.map Request.toMessage)
    (todo.map Request.toMessage) got out ⟨w.outbox, w.server.input, w.server.dson, ready, n, false⟩
  answered : ∃ got out n, Link.Carrying msgs done rest got out (w.server.replies w.answerDson w.answers n)
  table : w.server.needSetRoute = true ∧ read = [] ∧ Routes w.server.routeTable none chunk ∨
    w.server.needSetRoute = false ∧ Routes w.server.routeTable (some c) chunk
  returned : w.server.returned = false
  sent : ∀ more, msgs.map contents ++ serve c chunk (todo ++ more) = serve c (fun _ => 0) (requests ++ more)

/-- A copy to a full connection, or to one that takes something. -/
theorem World.Serves.send {read todo : List (Request e)} {chunk : Nat → Nat} {msgs done rest : List (Message e)}
    {w : World} (hw : w.Serves c requests read todo chunk msgs done rest) (counts : List Nat) :
    ∃ w', w.send e counts = some w' ∧ w'.server.keepRun = w.server.keepRun ∧
      w'.Serves c requests read todo chunk msgs done rest := by
  rw [World.send]
  cases hout : w.outbox with
  | nil => exact ⟨w, rfl, rfl, hw⟩
  | cons p outbox =>
      obtain ⟨o, network⟩ := p
      obtain ⟨got, out, ready, n, hasked⟩ := hw.asked
      rw [hout] at hasked
      obtain ⟨r, o', m, fd, out', hcopy, -, hasked'⟩ := hasked.copy counts
      refine ⟨{ w with
        outbox := if r = .ready then outbox else (o', network) :: outbox
        server := { w.server with input := w.server.input ++ fd.out } }, ?_, rfl, ?_⟩
      · simp only [hcopy, Option.bind_eq_bind, Option.bind_some]
        rfl
      · exact ⟨hw.split, ⟨got, out', ready, n, hasked'⟩, hw.answered, hw.table, hw.returned, hw.sent⟩

theorem World.Serves.receive {read todo : List (Request e)} {chunk : Nat → Nat} {msgs done rest : List (Message e)}
    {w : World} (hw : w.Serves c requests read todo chunk msgs done rest) (counts : List Nat) (junk : Nat → UInt8) :
    ∃ w' done' rest', w.receive e counts junk = some w' ∧ w'.server.keepRun = w.server.keepRun ∧
      w'.Serves c requests read todo chunk msgs done' rest' := by
  obtain ⟨got, out, n, hanswered⟩ := hw.answered
  obtain ⟨r, o, m, fd, n', hload, hcases⟩ := hanswered.load counts junk
  have hload' : w.answerDson.loadFromFd e junk ⟨counts.map some, w.server.output⟩ .empty = _ := hload
  rcases hcases with ⟨rfl, got', h'⟩ | ⟨rfl, msg, rest', rfl, hshows, h'⟩
  · refine ⟨{ w with
      server := { w.server with output := fd.input }
      answerDson := o }, done, rest, ?_, rfl, ⟨hw.split, hw.asked, ⟨got', out, n', h'⟩, hw.table, hw.returned, hw.sent⟩⟩
    rw [World.receive, hload']
    simp only [Option.bind_eq_bind, Option.bind_some]
    rfl
  · refine ⟨{ w with
      server := { w.server with output := fd.input }
      answerDson := Ipc.clear o
      answers := w.answers ++ [o] }, done ++ [msg], rest', ?_, rfl,
      ⟨hw.split, hw.asked, ⟨[], out, n', h'.clear hshows⟩, hw.table, hw.returned, hw.sent⟩⟩
    rw [World.receive, hload']
    simp only [Option.bind_eq_bind, Option.bind_some]
    rfl

namespace Server

variable {msgs done rest : List (Message e)} {inbox : DsonObj} {answers : List DsonObj} {n : Nat} {got out : Bytes}
  {chunk : Nat → Nat}

/-- The first message adds the route of its sender. -/
theorem setRoute_serves {s : Server} {r : Request e} (hdson : Shows e s.dson r.key r.children)
    (htable : s.needSetRoute = true ∧ r.fromCliId = c ∧ Routes s.routeTable none chunk ∨
      s.needSetRoute = false ∧ Routes s.routeTable (some c) chunk) :
    ∃ o table, s.setRoute e = some { s with
      dson := o
      routeTable := table
      needSetRoute := false } ∧ Shows e o r.key r.children ∧ Routes table (some c) chunk := by
  rw [setRoute]
  rcases htable with ⟨hneed, hfrom, hroutes⟩ | ⟨hneed, hroutes⟩
  · obtain ⟨a, o, ho, haddress, -, hfrom', -⟩ := Request.addressAt hdson
    refine ⟨o, _, ?_, ho, hroutes.add c⟩
    rw [if_pos hneed]
    simp only [haddress, Option.bind_eq_bind, Option.bind_some, hfrom', hfrom]
    rfl
  · refine ⟨s.dson, s.routeTable, ?_, hdson, hroutes⟩
    rw [if_neg (by simp [hneed]), ← hneed]

/-- A request that has been read is served, and the object it was read into cleared. -/
theorem receive_serves {s : Server} {r : Request e} (hdson : Shows e s.dson r.key r.children)
    (htable : s.needSetRoute = true ∧ r.fromCliId = c ∧ Routes s.routeTable none chunk ∨
      s.needSetRoute = false ∧ Routes s.routeTable (some c) chunk) (hr : r.Civil c)
    (hs : Link.Carrying msgs done rest got out (s.replies inbox answers n)) (depth : Nat) :
    ∃ s' o out' sent, s.receive e h j (depth + 2) = some s' ∧ Shows e o r.key r.children ∧ s'.dson = Ipc.clear o ∧
      s'.needSetRoute = false ∧ s'.keepRun = s.keepRun ∧ s'.returned = s.returned ∧ s'.input = s.input ∧
      Routes s'.routeTable (some c) (r.serve c chunk).1 ∧ sent.map contents = (r.serve c chunk).2 ∧
      Link.Carrying (msgs ++ sent) done (rest ++ sent) got out' (s'.replies inbox answers n) := by
  obtain ⟨o, table, hset, ho, hroutes⟩ := setRoute_serves hdson htable
  obtain ⟨o', s', out', sent, hroute, ho', hkeeps, hroutes', hsent, hs'⟩ := route_serves (h := h) (j := j)
    (s := { s with
      dson := o
      routeTable := table
      needSetRoute := false }) hroutes ho hr hs depth
  refine ⟨{ s' with dson := Ipc.clear o' }, o', out', sent, ?_, ho', rfl, hkeeps.2, hkeeps.3, hkeeps.4, hkeeps.5,
    hroutes', hsent, hs'⟩
  rw [receive, hset]
  simp only [Option.bind_eq_bind, Option.bind_some, hroute]
  rfl

end Server

/-- A round of the server. -/
theorem World.Serves.round {read todo : List (Request e)} {chunk : Nat → Nat} {msgs done rest : List (Message e)}
    {w : World} (hw : w.Serves c requests read todo chunk msgs done rest)
    (hfirst : ∀ r ∈ requests.head?, r.fromCliId = c) (hcivil : ∀ r ∈ requests, r.Civil c) (depth : Nat)
    (counts : List Nat) (writes : List (List Nat)) :
    ∃ server read' todo' chunk' msgs' rest',
      Server.round e h j (depth + 2) counts { w.server with writes := writes } = some server ∧
      server.keepRun = w.server.keepRun ∧
      (counts = [1] → w.server.keepRun = true → w.server.input ≠ [] → server.input.length < w.server.input.length) ∧
      World.Serves c requests read' todo' chunk' msgs' done rest' { w with server := server } := by
  obtain ⟨gotL, outL, ready, n, hasked⟩ := hw.asked
  obtain ⟨gotR, outR, n', hanswered⟩ := hw.answered
  have hasked' : Link.Carrying _ _ _ gotL outL ⟨w.outbox, w.server.input, w.server.dson, ready, n, false⟩ := hasked
  rw [Server.round]
  by_cases hstop : w.server.keepRun = false
  · rw [if_pos (Or.inl hstop)]
    refine ⟨_, read, todo, chunk, msgs, rest, rfl, rfl, fun _ hrun => ?_, hw.split, hw.asked, hw.answered, hw.table,
      hw.returned, hw.sent⟩
    rw [hstop] at hrun
    cases hrun
  · rw [if_neg (by simp [hstop, hw.returned])]
    obtain ⟨r, o, m, fd, k, hload, ⟨rfl, got', h'⟩ | ⟨rfl, msg, todo', htodo, hshows, h'⟩⟩ := hasked.load counts j
    · obtain ⟨s', out', hrun, hkeeps, htable, hs'⟩ := Server.sendDsonFromDeque_carrying (s := { w.server with
        writes := writes
        dson := o
        input := fd.input }) hanswered
      refine ⟨s', read, todo, chunk, msgs, rest, ?_, hkeeps.keepRun, ?_, ⟨hw.split, ⟨got', outL, ready, k, ?_⟩,
        ⟨gotR, out', n', hs'⟩, ?_, hkeeps.returned.trans hw.returned, hw.sent⟩⟩
      · simp only [hload, Option.bind_eq_bind, Option.bind_some]
        exact hrun
      · rw [hkeeps.input]
        exact fun hcounts _ => hasked.load_lt hload hcounts
      · rw [hkeeps.input, hkeeps.dson]
        exact h'
      · rw [hkeeps.needSetRoute, htable]
        exact hw.table
    · obtain ⟨r, todo, rfl, rfl, rfl⟩ := List.map_eq_cons_iff.mp htodo
      have hmem : r ∈ requests := by simp [hw.split]
      have hstarts : w.server.needSetRoute = true ∧ r.fromCliId = c ∧ Routes w.server.routeTable none chunk ∨
          w.server.needSetRoute = false ∧ Routes w.server.routeTable (some c) chunk := by
        rcases hw.table with ⟨hneed, rfl, hroutes⟩ | hroutes
        · exact Or.inl ⟨hneed, hfirst r (by simp [hw.split]), hroutes⟩
        · exact Or.inr hroutes
      obtain ⟨s₁, o', out₁, sent, hreceive, ho', hdson, hneed, hkeep, hreturned, hinput, hroutes, hsent, hs₁⟩ :=
        Server.receive_serves (h := h) (j := j) (s := { w.server with
          writes := writes
          dson := o
          input := fd.input }) hshows hstarts (hcivil r hmem) hanswered depth
      obtain ⟨s', out', hrun, hkeeps, htable, hs'⟩ := Server.sendDsonFromDeque_carrying hs₁
      refine ⟨s', read ++ [r], todo, _, msgs ++ sent, rest ++ sent, ?_, hkeeps.keepRun.trans hkeep, ?_, ⟨?_,
        ⟨[], outL, ready ++ [o], k, ?_⟩, ⟨gotR, out', n', hs'⟩, 
        Or.inr ⟨hkeeps.needSetRoute.trans hneed, htable ▸ hroutes⟩,
        hkeeps.returned.trans (hreturned.trans hw.returned), ?_⟩⟩
      · simp only [hload, hreceive, Option.bind_eq_bind, Option.bind_some]
        exact hrun
      · rw [hkeeps.input, hinput]
        exact fun hcounts _ => hasked.load_lt hload hcounts
      · rw [hw.split, List.append_assoc]
        rfl
      · rw [hkeeps.input, hkeeps.dson, hdson, hinput, List.map_append]
        exact h'.clear ho'
      · intro more
        rw [List.map_append, hsent, List.append_assoc, ← hw.sent]
        rfl

/-- What every step keeps. -/
def World.Serving (c : Nat) (requests : List (Request e)) (w : World) : Prop :=
  ∃ read todo chunk msgs done rest, w.Serves c requests read todo chunk msgs done rest

theorem World.Serving.step {w : World} (hw : w.Serving c requests) (hfirst : ∀ r ∈ requests.head?, r.fromCliId = c)
    (hcivil : ∀ r ∈ requests, r.Civil c) (depth : Nat) (a : Step) :
    ∃ w', w.step e (depth + 2) a = some w' ∧ w'.Serving c requests ∧
      (a ≠ .stop → w'.server.keepRun = w.server.keepRun) := by
  obtain ⟨read, todo, chunk, msgs, done, rest, hw⟩ := hw
  cases a with
  | send counts =>
      obtain ⟨w', hrun, hkeep, hw'⟩ := hw.send counts
      exact ⟨w', hrun, ⟨_, _, _, _, _, _, hw'⟩, fun _ => hkeep⟩
  | round counts writes h junk =>
      obtain ⟨server, read', todo', chunk', msgs', rest', hrun, hkeep, -, hw'⟩ :=
        hw.round (h := h) (j := junk) hfirst hcivil depth counts writes
      refine ⟨_, ?_, ⟨_, _, _, _, _, _, hw'⟩, fun _ => hkeep⟩
      rw [World.step, hrun]
      rfl
  | receive counts junk =>
      obtain ⟨w', done', rest', hrun, hkeep, hw'⟩ := hw.receive counts junk
      exact ⟨w', hrun, ⟨_, _, _, _, _, _, hw'⟩, fun _ => hkeep⟩
  | stop =>
      exact ⟨_, rfl, ⟨_, _, _, _, _, _, hw.split, hw.asked, hw.answered, hw.table, hw.returned, hw.sent⟩,
        fun hne => absurd rfl hne⟩

theorem World.Serving.run {w : World} (hw : w.Serving c requests) (hfirst : ∀ r ∈ requests.head?, r.fromCliId = c)
    (hcivil : ∀ r ∈ requests, r.Civil c) (depth : Nat) (steps : List Step) :
    ∃ w', w.run e (depth + 2) steps = some w' ∧ w'.Serving c requests ∧
      (Step.stop ∉ steps → w'.server.keepRun = w.server.keepRun) := by
  induction steps generalizing w with
  | nil => exact ⟨w, rfl, hw, fun _ => rfl⟩
  | cons a steps ih =>
      obtain ⟨w', hstep, hw', hkeep⟩ := hw.step hfirst hcivil depth a
      obtain ⟨w'', hrun, hw'', hkeep'⟩ := ih hw'
      refine ⟨w'', ?_, hw'', fun hnot => ?_⟩
      · rw [World.run, hstep]
        exact hrun
      · rw [List.mem_cons, not_or] at hnot
        exact (hkeep' hnot.2).trans (hkeep (Ne.symm hnot.1))

theorem World.start_serving (requests : List (Request e)) : (World.start requests).Serving c requests := by
  refine ⟨[], requests, fun _ => 0, [], [], [], rfl,
    ⟨[], (requests.map Request.toMessage).flatMap Message.wire, [], 0, ?_⟩, ⟨[], [], 0, ?_⟩, ?_, rfl, fun _ => rfl⟩
  · have hstart := Link.start_carrying (requests.map Request.toMessage)
    rw [Link.start, List.map_map] at hstart
    exact hstart
  · exact Link.start_carrying []
  · exact Or.inl ⟨rfl, rfl, routes_services⟩

/-- The answers that the client has. -/
theorem World.Serves.answers {read todo : List (Request e)} {chunk : Nat → Nat} {msgs done rest : List (Message e)}
    {w : World} (hw : w.Serves c requests read todo chunk msgs done rest) : w.server.returned = false ∧
      List.Forall₂ (Delivered e) done w.answers ∧ done.map contents <+: serve c (fun _ => 0) requests ∧
      (w.Quiet → done.map contents = serve c (fun _ => 0) requests) := by
  obtain ⟨gotL, outL, ready, n, hasked⟩ := hw.asked
  obtain ⟨gotR, outR, n', hanswered⟩ := hw.answered
  have hmsgs := hanswered.split
  have hsent := hw.sent []
  rw [List.append_nil, List.append_nil, hmsgs, List.map_append, List.append_assoc] at hsent
  refine ⟨hw.returned, ?_, ⟨_, hsent⟩, ?_⟩
  · exact hanswered.shown.imp fun msg o hshows => hshows.delivered
  · rintro ⟨houtbox, hinput, hdeque, houtput⟩
    have htodo := hasked.drained houtbox hinput
    have hrest := hanswered.drained (by rw [Server.replies, hdeque]; rfl) houtput
    rw [List.map_eq_nil_iff] at htodo
    rw [htodo, hrest] at hsent
    simpa [serve] using hsent

theorem World.Serving.answers {w : World} (hw : w.Serving c requests) : ∃ replies : List (Message e),
    w.server.returned = false ∧ List.Forall₂ (Delivered e) replies w.answers ∧
      replies.map contents <+: serve c (fun _ => 0) requests ∧
      (w.Quiet → replies.map contents = serve c (fun _ => 0) requests) := by
  obtain ⟨read, todo, chunk, msgs, done, rest, hw⟩ := hw
  exact ⟨done, hw.answers⟩

end

/-- The star answers. Whatever is read and written at a time, and in whatever order the client and the server take
their turns, no load of the server fails, the server runs until it is stopped, and the client has been given the answers
to its requests, in order, from the first on: each once, and none that is not due. When nothing is on its way it has
been given all of them. -/
theorem star_answers {e : Endian} {c : Nat} (requests : List (Request e))
    (hfirst : ∀ r ∈ requests.head?, r.fromCliId = c) (hcivil : ∀ r ∈ requests, r.Civil c) (depth : Nat)
    (steps : List Step) : ∃ (w : World) (replies : List (Message e)),
      (World.start requests).run e (depth + 2) steps = some w ∧
      w.server.returned = false ∧ (Step.stop ∉ steps → w.server.keepRun = true) ∧
      List.Forall₂ (Delivered e) replies w.answers ∧ replies.map contents <+: serve c (fun _ => 0) requests ∧
      (w.Quiet → replies.map contents = serve c (fun _ => 0) requests) := by
  obtain ⟨w, hrun, hw, hkeep⟩ := (World.start_serving requests).run hfirst hcivil depth steps
  obtain ⟨replies, hreturned, hanswers⟩ := hw.answers
  exact ⟨w, replies, hrun, hreturned, hkeep, hanswers⟩

/-- A client that logs in with a service, and what it is answered. -/
theorem login_served : ∃ r : Request .little, r.fromCliId = 12345 ∧ r.Civil 12345 ∧
    serve 12345 (fun _ => 0) [r] = [(Key.authed.key, [(Key.routeAddress.key, .leaf (.words [0, 7, 0, 12345]))])] := by
  have hne : password ≠ [] := by decide
  obtain ⟨x, -, hx⟩ := underway_new (e := .little)
    ⟨Cell.ofInt .little 0, Cell.ofInt .little 12345, Cell.ofInt .little 0, Cell.ofInt .little 7⟩
  obtain ⟨x₁, -, hx₁⟩ := hx.setKey (by decide : IsInt32 Key.wantAuth.key)
  obtain ⟨s, hs, -⟩ := holds_ofString (e := .little) (Dson.clearHeader .little) (fun _ => 0) hne (by decide)
  obtain ⟨x₂, -, hx₂⟩ := hx₁.emplace (.string hne (by decide) hs)
    (by decide : IsInt32 Key.password.key) (by decide)
  refine ⟨⟨⟨x₂, true, Key.wantAuth.key, [(Key.routeAddress.key, .leaf (.words [0, 12345, 0, 7])),
    (Key.password.key, .leaf (.string password))], hx₂.built, by simp [Key.key], by simp [Value.Plain],
    by simp [Forest.size, Tree.size, Value.size, headerSize, password, text]⟩, 0, 12345, 0, 7, rfl⟩, rfl,
    ⟨by simp, by simp [Key.key], by simp [Forest.size, Tree.size, Value.size, headerSize, password, text]⟩, ?_⟩
  have hservice : IsService 12345 7 := by decide
  rw [serve, serve, List.append_nil, Request.serve, if_pos hservice, Request.echo, if_pos rfl]
  simp [stringOf, KeyMap.find, Key.key, Request.back]

/-- One service lets the client in. -/
theorem star_answers_sample : ∃ r : Request .little,
    serve 12345 (fun _ => 0) [r] = [(Key.authed.key, [(Key.routeAddress.key, .leaf (.words [0, 7, 0, 12345]))])] ∧
    ∀ steps, ∃ w, (World.start [r]).run .little 2 steps = some w ∧ w.server.returned = false ∧
      (w.Quiet → w.answers.length = 1) := by
  obtain ⟨r, hfrom, hcivil, hserve⟩ := login_served
  refine ⟨r, hserve, fun steps => ?_⟩
  obtain ⟨w, replies, hrun, hreturned, -, hdelivered, -, hquiet⟩ :=
    star_answers (c := 12345) [r] (by simp [hfrom]) (by simpa using hcivil) 0 steps
  refine ⟨w, hrun, hreturned, fun hw => ?_⟩
  have hlength := congrArg List.length (hquiet hw)
  rw [hserve, List.length_map] at hlength
  rw [← hdelivered.length_eq, hlength]
  rfl

end StarRouting

end LeanDson
