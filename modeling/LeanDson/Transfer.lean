import Mathlib.Data.List.Forall2
import LeanDson.Contents
import LeanDson.History

/-! Transfer over a descriptor. A sender writes messages into a first-in first-out channel, each by
repeated calls in an order of its own; a receiver loads them into one object, and looks at it when it
is ready. Steps come in any order, and every `write` and `read` moves as many bytes as it likes. -/

namespace LeanDson

/-! ### Messages on the wire -/

section

variable {e : Endian}

/-- The encoding of an object with a value is a record of that value. -/
theorem Holds.wire_leaf {o : DsonObj} {k : Int} {v : Value} (ho : Holds e o k (.leaf v)) (network : Bool) :
    ∃ r : Record, o.wire e network = r.bytes ∧ LeafRecord e k v r.header r.payload := by
  cases o with
  | dson d children =>
      rw [Holds] at ho
      obtain ⟨-, -, block, hown, hl⟩ := ho
      obtain ⟨h', b', hconv, hl', -⟩ := hl.convert network
      exact ⟨⟨h', b'⟩, hown.wire hconv children, hl'⟩
  | string s =>
      rw [Holds] at ho
      obtain ⟨-, -, hl, ht⟩ := ho
      exact ⟨⟨s.header.toOrder e network, s.object⟩, by rw [DsonObj.wire]; rfl, hl.toOrder_string ht network⟩
  | route r =>
      rw [Holds] at ho
      obtain ⟨-, hl, ht⟩ := ho
      exact ⟨⟨(r.toOrder e network).header, (r.toOrder e network).address.bytes⟩, by rw [DsonObj.wire]; rfl,
        hl.route_toOrder ht network⟩

/-- The children of a flat container are emitted as records of their values. -/
theorem HoldsAll.carries (network : Bool) : ∀ {children : ObjMap} {ts : Forest}, HoldsAll e children ts →
    (∀ p ∈ ts, ∃ v : Value, p.2 = .leaf v ∧ v.Plain) →
      ∃ recs, DsonObj.wires e network children = recordsBytes recs ∧ Carries e recs ts
  | [], [], _, _ => ⟨[], rfl, List.Forall₂.nil⟩
  | (k, o) :: rest, (k', t) :: ts, h, hplain => by
      rw [HoldsAll] at h
      obtain ⟨rfl, ho, hrest⟩ := h
      obtain ⟨v, hv, hp⟩ := hplain _ List.mem_cons_self
      dsimp only at hv
      subst hv
      obtain ⟨r, hwire, hl⟩ := ho.wire_leaf network
      obtain ⟨recs, hwires, hc⟩ := hrest.carries network fun p hp => hplain p (List.mem_cons_of_mem _ hp)
      refine ⟨r :: recs, ?_, List.Forall₂.cons ⟨v, rfl, hp, hl⟩ hc⟩
      rw [DsonObj.wires, hwire, hwires, recordsBytes_cons]
  | [], _ :: _, h, _ => h.elim
  | _ :: _, [], h, _ => h.elim

/-- The encoding of a flat container: a header, and the records of its children. -/
theorem Holds.wire_message {o : DsonObj} {k : Int} {ts : Forest} (ho : Holds e o k (.node ts))
    (hplain : ∀ p ∈ ts, ∃ v : Value, p.2 = .leaf v ∧ v.Plain) (hlimit : Forest.size ts ≤ 2 ^ 30) (network : Bool) :
    ∃ h recs, o.wire e network = h.bytes ++ recordsBytes recs ∧ Carries e recs ts ∧
      IsMessage e h (recordsBytes recs) ∧ h.keyOf e = k ∧
      h.dataTypeOf e = if ts.isEmpty then TypesMap.empty else TypesMap.dsonContainer := by
  cases o with
  | string s => exact ho.elim
  | route r => exact ho.elim
  | dson d children =>
      rw [Holds] at ho
      obtain ⟨-, hnode, -, hall⟩ := ho
      obtain ⟨recs, hwires, hc⟩ := hall.carries network hplain
      have hlen := hall.wires_length network
      rw [hwires] at hlen
      obtain ⟨hsize, hkey, htype⟩ := hnode.header (recordsBytes recs).length
        (by simp only [IsInt32]; omega) network
      refine ⟨_, recs, ?_, hc, ⟨hsize, by omega⟩, hkey, htype⟩
      simp only [DsonObj.wire, hnode.kind, hwires]

/-- A container that has been taken shows the children that were sent. -/
theorem Dson.Took.shows {d : Dson} {h : Header} {recs : List Record} {ts : Forest}
    (ht : d.Took e h (recordsBytes recs)) (hc : Carries e recs ts) (hs : KeyMap.Sorted ts)
    (hkeys : ∀ key ∈ KeyMap.keys ts, 0 ≤ key)
    (htype : h.dataTypeOf e = if ts.isEmpty then TypesMap.empty else TypesMap.dsonContainer) :
    Shows e (.dson d []) (h.keyOf e) ts := by
  obtain ⟨rfl, -, hlen, ⟨hne, hloaded⟩ | ⟨hnil, hstate, hkind, hbuf, -⟩⟩ := ht
  · have hts : ts.isEmpty = false := by
      cases hc with
      | nil => exact absurd rfl hne
      | cons _ _ => rfl
    rw [hts] at htype
    exact Shows.block hloaded htype hlen hs hkeys hc
  · have hts : ts = [] := by
      cases hc with
      | nil => rfl
      | @cons r _ recs _ _ _ =>
          have hlen := congrArg List.length hnil
          simp [headerSize] at hlen
    subst hts
    exact Shows.nothing hstate hkind hbuf

end

/-- A message to be sent: a container some history has built, with plain children under keys that are
not negative, and the byte order it is sent in. -/
structure Message (e : Endian) where
  obj : DsonObj
  network : Bool
  key : Int
  children : Forest
  built : Built e obj key (.node children)
  keys : ∀ p ∈ children, 0 ≤ p.1
  plain : ∀ p ∈ children, ∃ v : Value, p.2 = .leaf v ∧ v.Plain
  limit : Forest.size children ≤ 2 ^ 30

namespace Message

variable {e : Endian}

def wire (msg : Message e) : Bytes := msg.obj.wire e msg.network

/-- The length of the encoding. -/
def size (msg : Message e) : Nat := headerSize + Forest.size msg.children

theorem wire_length (msg : Message e) : msg.wire.length = msg.size := msg.built.holds.wire_length msg.network

/-- Whoever takes the encoding of a message has an object that shows the message. -/
theorem wire_shows (msg : Message e) : ∃ h body, msg.wire = h.bytes ++ body ∧ IsMessage e h body ∧
    ∀ {d : Dson}, d.Took e h body → Shows e (.dson d []) msg.key msg.children := by
  obtain ⟨h, recs, hwire, hc, hm, hkey, htype⟩ :=
    msg.built.holds.wire_message msg.plain msg.limit msg.network
  have hordered := msg.built.holds.ordered
  rw [Tree.Ordered] at hordered
  refine ⟨h, _, hwire, hm, fun ht => ?_⟩
  rw [← hkey]
  refine ht.shows hc hordered.1 (fun key hk => ?_) htype
  obtain ⟨p, hp, rfl⟩ := List.mem_map.mp hk
  exact msg.keys p hp

end Message

/-! ### The link -/

def Mem.empty : Mem := ⟨[], []⟩

/-- The two processes and the channel between them. -/
structure Link where
  /-- The objects still to be sent with their orders; the first may be being copied. -/
  outbox : List (DsonObj × Bool)
  channel : Bytes
  inbox : DsonObj
  /-- The inbox as it was each time a load was complete. -/
  ready : List DsonObj
  /-- How many bytes the receiver has taken from the channel. -/
  consumed : Nat
  /-- Some call has answered with an error. -/
  failed : Bool

/-- A step: a call of the emitter or of the loader, with what its `write` and `read` calls move at
most, or a look at the inbox. -/
inductive Move where
  | send (counts : List Nat)
  | receive (counts : List Nat) (junk : Nat → UInt8)
  | look (key : Int) (x : Reading)

namespace Link

variable (e : Endian)

def send (counts : List Nat) (s : Link) : Option Link :=
  match s.outbox with
  | [] => some s
  | (o, network) :: rest => do
      let (r, o, _, fd) ← o.copyTo e network .empty (FdOut.fresh (counts.map some))
      return { s with
        outbox := if r = .ready then rest else (o, network) :: rest
        channel := s.channel ++ fd.out
        failed := s.failed || r == .error }

def receive (counts : List Nat) (junk : Nat → UInt8) (s : Link) : Option Link := do
  let (r, o, _, fd) ← s.inbox.loadFromFd e junk ⟨counts.map some, s.channel⟩ .empty
  return { s with
    channel := fd.input
    inbox := o
    ready := if r = .ready then s.ready ++ [o] else s.ready
    consumed := s.consumed + (s.channel.length - fd.input.length)
    failed := s.failed || r == .error }

/-- The receiver looks at what it has while no load is going on. -/
def look (key : Int) (x : Reading) (s : Link) : Option Link :=
  if s.inbox.state = .ready then do
    let (_, o, _) ← LeanDson.look e key x s.inbox .empty
    return { s with inbox := o }
  else some s

def move : Move → Link → Option Link
  | .send counts => send e counts
  | .receive counts junk => receive e counts junk
  | .look key x => look e key x

def run : List Move → Link → Option Link
  | [], s => some s
  | a :: rest, s => do
      let s ← s.move e a
      run rest s

/-- Everything is still to be sent, and the inbox is a `Dson()`. -/
def start {e : Endian} (msgs : List (Message e)) : Link where
  outbox := msgs.map fun msg => (msg.obj, msg.network)
  channel := []
  inbox := .empty e
  ready := []
  consumed := 0
  failed := false

end Link

/-! ### What every step keeps -/

section

variable {e : Endian}

/-- The sender's objects, and all the bytes that are still to come from them. -/
def Sending (e : Endian) : List (DsonObj × Bool) → Bytes → Prop
  | [], out => out = []
  | (o, network) :: rest, out =>
      (∃ k t, Emittable e o k t ∧ t.size < 2 ^ 31) ∧ (∀ p ∈ rest, ∃ k t, Holds e p.1 k t ∧ t.size < 2 ^ 31) ∧
        out = o.pending e network ++ rest.flatMap fun p => p.1.wire e p.2

/-- The receiver's object: it has taken `got` of a message, or nothing and shows something. -/
def Receiving (e : Endian) (o : DsonObj) (got : Bytes) : Prop :=
  (got = [] ∧ ∃ k ts, Shows e o k ts) ∨ ∃ d, o = .dson d [] ∧ d.Awaits e got

/-- The messages that are complete are shown; the bytes of the others are, in order, with the receiver,
in the channel and with the sender. -/
structure Link.Carrying (msgs done todo : List (Message e)) (got out : Bytes) (s : Link) : Prop where
  split : msgs = done ++ todo
  shown : List.Forall₂ (fun (msg : Message e) o => Shows e o msg.key msg.children) done s.ready
  receiving : Receiving e s.inbox got
  sending : Sending e s.outbox out
  bytes : got ++ (s.channel ++ out) = todo.flatMap Message.wire
  consumed : s.consumed = (done.flatMap Message.wire).length + got.length
  failed : s.failed = false

theorem Sending.of_holds {outbox : List (DsonObj × Bool)}
    (h : ∀ p ∈ outbox, ∃ k t, Holds e p.1 k t ∧ t.size < 2 ^ 31) :
    Sending e outbox (outbox.flatMap fun p => p.1.wire e p.2) := by
  cases outbox with
  | nil => exact rfl
  | cons p rest =>
      obtain ⟨k, t, ho, hlt⟩ := h p List.mem_cons_self
      refine ⟨⟨k, t, ho.emittable, hlt⟩, fun q hq => h q (List.mem_cons_of_mem _ hq), ?_⟩
      rw [List.flatMap_cons, ho.pending]

/-- A call of the emitter moves a first part of what is to come into the channel. -/
theorem Link.Carrying.send {msgs done todo : List (Message e)} {got out : Bytes} {s : Link}
    (h : Carrying msgs done todo got out s) (counts : List Nat) :
    ∃ s' out', s.send e counts = some s' ∧ Carrying msgs done todo got out' s' := by
  have hsending := h.sending
  rw [Link.send]
  cases hout : s.outbox with
  | nil => exact ⟨s, out, rfl, h⟩
  | cons p rest =>
      obtain ⟨o, network⟩ := p
      rw [hout] at hsending
      obtain ⟨⟨k, t, ho, hlt⟩, hrest, rfl⟩ := hsending
      obtain ⟨r, o', fd, hrun, -, bs, -, hwritten, hcases⟩ :=
        ho.copyTo hlt network .empty (FdOut.fresh (counts.map some))
      have hfd : fd.out = bs := hwritten
      simp only [hrun, Option.bind_eq_bind, Option.bind_some]
      rcases hcases with ⟨rfl, -, hpend⟩ | ⟨rfl, ⟨ho', -⟩, -, -, hpend⟩ | ⟨-, hunwilling, -⟩
      · refine ⟨_, rest.flatMap fun p => p.1.wire e p.2, rfl, ⟨h.split, h.shown, h.receiving, ?_, ?_, h.consumed, ?_⟩⟩
        · exact Sending.of_holds hrest
        · rw [← h.bytes, hpend]
          simp only [hfd, List.append_assoc]
        · simp [h.failed]
      · refine ⟨_, o'.pending e network ++ rest.flatMap fun p => p.1.wire e p.2, rfl,
          ⟨h.split, h.shown, h.receiving, ?_, ?_, h.consumed, ?_⟩⟩
        · exact ⟨⟨k, t, ho', hlt⟩, hrest, rfl⟩
        · rw [← h.bytes, hpend]
          simp only [hfd, List.append_assoc]
        · simp [h.failed]
      · exact absurd (by simp [ByteSink.Willing, FdOut.fresh]) hunwilling

theorem Receiving.loads {o : DsonObj} {got : Bytes} (h : Receiving e o got) :
    ∃ d children, o = .dson d children ∧ d.Loads e children got := by
  rcases h with ⟨rfl, k, ts, hshows⟩ | ⟨d, rfl, hawaits⟩
  · obtain ⟨d, children, rfl, hidle, -⟩ := hshows.idle
    exact ⟨d, children, rfl, Or.inl ⟨rfl, hidle⟩⟩
  · exact ⟨d, [], rfl, Or.inr ⟨rfl, hawaits⟩⟩

/-- A call of the loader takes some of the message that is next, or the rest of it and nothing more. -/
theorem Link.Carrying.receive {msgs done todo : List (Message e)} {got out : Bytes} {s : Link}
    (h : Carrying msgs done todo got out s) (counts : List Nat) (junk : Nat → UInt8) :
    ∃ s' done' todo' got', s.receive e counts junk = some s' ∧ Carrying msgs done' todo' got' out s' := by
  obtain ⟨d, children, hinbox, hloads⟩ := h.receiving.loads
  obtain ⟨r, d', j, k, hrun, -, hk, hstands, -⟩ :=
    hloads.loadFromFd junk ⟨counts.map some, s.channel⟩ (by simp) .empty
  rw [FdIn.after] at hrun
  dsimp only at hk hstands hrun
  have hsplit : got ++ s.channel.take k ++ (s.channel.drop k ++ out) = todo.flatMap Message.wire := by
    rw [← h.bytes, List.append_assoc, ← List.append_assoc (s.channel.take k), List.take_append_drop]
  have hcount : s.channel.length - (s.channel.drop k).length = k := by
    rw [List.length_drop]
    omega
  have hlen : (got ++ s.channel.take k).length = got.length + k := by
    rw [List.length_append, List.length_take, min_eq_left hk]
  rw [Link.receive, hinbox, hrun]
  simp only [Option.bind_eq_bind, Option.bind_some]
  cases todo with
  | nil =>
      -- Nothing is left anywhere, so the call takes nothing.
      have hnil : got ++ s.channel.take k = [] := (List.append_eq_nil_iff.mp hsplit).1
      rw [hnil] at hstands hlen hsplit
      rw [List.length_nil] at hlen
      rcases hstands with ⟨rfl, hawaits⟩ | ⟨-, h', body, hbytes, -⟩ | ⟨-, h', hbytes, -⟩
      · refine ⟨_, done, [], [], rfl, ⟨h.split, h.shown, Or.inr ⟨d', rfl, hawaits⟩, h.sending, hsplit, ?_, ?_⟩⟩
        · simp only [hcount, h.consumed, List.length_nil]
          omega
        · simp [h.failed]
      · have hzero := congrArg List.length hbytes
        rw [List.length_nil, List.length_append, Header.bytes_length] at hzero
        omega
      · have hzero := congrArg List.length hbytes
        rw [List.length_nil, Header.bytes_length] at hzero
        omega
  | cons msg todo =>
      obtain ⟨h', body, hwire, hm, hshows⟩ := msg.wire_shows
      have hsplit' : got ++ s.channel.take k ++ (s.channel.drop k ++ out) =
          h'.bytes ++ (body ++ todo.flatMap Message.wire) := by
        rw [hsplit, List.flatMap_cons, hwire, List.append_assoc]
      rcases hstands.of_prefix hm hsplit' with ⟨rfl, hawaits, -⟩ | ⟨rfl, hgot, hlater, htook⟩
      · refine ⟨_, done, msg :: todo, _, rfl, ⟨h.split, h.shown, Or.inr ⟨d', rfl, hawaits⟩, h.sending, hsplit, ?_, ?_⟩⟩
        · simp only [hcount, h.consumed, hlen]
          omega
        · simp [h.failed]
      · refine ⟨_, done ++ [msg], todo, [], rfl, ⟨?_, ?_, Or.inl ⟨rfl, _, _, hshows htook⟩, h.sending, hlater, ?_, ?_⟩⟩
        · rw [h.split, List.append_assoc]
          rfl
        · exact List.rel_append h.shown (List.Forall₂.cons (hshows htook) List.Forall₂.nil)
        · rw [hgot, ← hwire] at hlen
          simp only [hcount, h.consumed, List.flatMap_append, List.flatMap_cons, List.flatMap_nil, List.append_nil,
            List.length_append, List.length_nil, hlen]
          omega
        · simp [h.failed]

/-- A look changes nothing that is shown, and no load. -/
theorem Link.Carrying.look {msgs done todo : List (Message e)} {got out : Bytes} {s : Link}
    (h : Carrying msgs done todo got out s) (key : Int) (x : Reading) :
    ∃ s', s.look e key x = some s' ∧ Carrying msgs done todo got out s' := by
  rw [Link.look]
  rcases h.receiving with ⟨hgot, k, ts, hshows⟩ | ⟨d, hinbox, hawaits⟩
  · obtain ⟨o', hlook, hshows'⟩ := hshows.look key x .empty
    obtain ⟨d, children, hinbox, -, hstate⟩ := hshows.idle
    rw [if_pos (by rw [hinbox]; exact hstate), hlook]
    exact ⟨_, rfl, h.split, h.shown, Or.inl ⟨hgot, k, ts, hshows'⟩, h.sending, h.bytes, h.consumed, h.failed⟩
  · rw [if_neg]
    · exact ⟨s, rfl, h⟩
    · rw [hinbox, DsonObj.state]
      rcases hawaits with hheader | ⟨body, -, hdata⟩
      · simp [hheader.state]
      · simp [hdata.state]

theorem Link.Carrying.move {msgs done todo : List (Message e)} {got out : Bytes} {s : Link}
    (h : Carrying msgs done todo got out s) (a : Move) :
    ∃ s' done' todo' got' out', s.move e a = some s' ∧ Carrying msgs done' todo' got' out' s' := by
  cases a with
  | send counts =>
      obtain ⟨s', out', hrun, h'⟩ := h.send counts
      exact ⟨s', done, todo, got, out', hrun, h'⟩
  | receive counts junk =>
      obtain ⟨s', done', todo', got', hrun, h'⟩ := h.receive counts junk
      exact ⟨s', done', todo', got', out, hrun, h'⟩
  | look key x =>
      obtain ⟨s', hrun, h'⟩ := h.look key x
      exact ⟨s', done, todo, got, out, hrun, h'⟩

theorem Link.Carrying.run {msgs done todo : List (Message e)} {got out : Bytes} {s : Link}
    (h : Carrying msgs done todo got out s) (moves : List Move) :
    ∃ s' done' todo' got' out', s.run e moves = some s' ∧ Carrying msgs done' todo' got' out' s' := by
  induction moves generalizing s done todo got out with
  | nil => exact ⟨s, done, todo, got, out, rfl, h⟩
  | cons a rest ih =>
      obtain ⟨s', done', todo', got', out', hrun, h'⟩ := h.move a
      obtain ⟨s'', done'', todo'', got'', out'', hrun', h''⟩ := ih h'
      refine ⟨s'', done'', todo'', got'', out'', ?_, h''⟩
      rw [Link.run, hrun]
      exact hrun'

theorem Link.start_carrying (msgs : List (Message e)) :
    Carrying msgs [] msgs [] (msgs.flatMap Message.wire) (start msgs) where
  split := rfl
  shown := List.Forall₂.nil
  receiving := Or.inl ⟨rfl, _, _, Shows.nothing rfl rfl rfl⟩
  sending := by
    have h : Sending e (msgs.map fun msg => (msg.obj, msg.network)) _ := Sending.of_holds ?_
    · rw [List.flatMap_map] at h
      exact h
    · intro p hp
      obtain ⟨msg, -, rfl⟩ := List.mem_map.mp hp
      refine ⟨_, _, msg.built.holds, ?_⟩
      have hlimit := msg.limit
      rw [Tree.size, headerSize]
      omega
  bytes := rfl
  consumed := rfl
  failed := rfl

/-- Of the message that is next a receiver has taken less than the whole. -/
theorem Link.Carrying.got_lt {msgs done todo : List (Message e)} {got out : Bytes} {s : Link} {msg : Message e}
    (h : Carrying msgs done (msg :: todo) got out s) : got.length < msg.size := by
  rcases h.receiving with ⟨rfl, -⟩ | ⟨d, -, hawaits⟩
  · rw [Message.size, headerSize, List.length_nil]
    omega
  · obtain ⟨h', body, hwire, hm, -⟩ := msg.wire_shows
    have hsplit : got ++ (s.channel ++ out) = h'.bytes ++ (body ++ todo.flatMap Message.wire) := by
      rw [h.bytes, List.flatMap_cons, hwire, List.append_assoc]
    have hlen := msg.wire_length
    rw [hwire, List.length_append, Header.bytes_length] at hlen
    rcases Dson.Stands.of_prefix (Or.inl ⟨rfl, hawaits⟩) hm hsplit with ⟨-, -, hlt⟩ | ⟨hr, -⟩
    · rw [headerSize] at hlt
      omega
    · cases hr

end

/-! ### Transfer -/

/-- The total length of the encodings. -/
def Message.total {e : Endian} (msgs : List (Message e)) : Nat := (msgs.map Message.size).sum

theorem Message.wires_length {e : Endian} (msgs : List (Message e)) :
    (msgs.flatMap Message.wire).length = total msgs := by
  induction msgs with
  | nil => rfl
  | cons msg rest ih =>
      rw [List.flatMap_cons, List.length_append, ih, msg.wire_length, total, total, List.map_cons, List.sum_cons]

/-- An object answers with the contents of a message: its key, children under its keys and no others, and
to any sequence of lookups and extractors the values of the children. -/
structure Delivered (e : Endian) (msg : Message e) (o : DsonObj) : Prop where
  key : ∀ m, o.key e m = some msg.key
  get : ∀ key m, ∃ f o', o.get e key m = some (f, o', m) ∧ (f ≠ .null ↔ key ∈ KeyMap.keys msg.children)
  answers : ∀ looks m, ∃ o', lookAll e looks o m = some (looks.map fun p => Forest.answer msg.children p.1 p.2, o', m)

theorem Shows.delivered {e : Endian} {msg : Message e} {o : DsonObj} (ho : Shows e o msg.key msg.children) :
    Delivered e msg o where
  key := ho.key
  get key m := by
    obtain ⟨f, o', hget, -, hf⟩ := ho.get key m
    exact ⟨f, o', hget, hf⟩
  answers looks m := by
    obtain ⟨o', hlooks, -⟩ := ho.lookAll looks m
    exact ⟨o', hlooks⟩

/-- Transfer loses, duplicates and reorders nothing. After any steps in any order no call has failed, the
loads that were complete are those of the first messages, each in its place, the receiver has taken
their bytes and less than all of the next one's, and when the sender and the channel are empty every
message has been received. -/
theorem link_transfers {e : Endian} (msgs : List (Message e)) (moves : List Move) :
    ∃ s, (Link.start msgs).run e moves = some s ∧ s.failed = false ∧ s.ready.length ≤ msgs.length ∧
      List.Forall₂ (Delivered e) (msgs.take s.ready.length) s.ready ∧
      Message.total (msgs.take s.ready.length) ≤ s.consumed ∧
      (s.ready.length < msgs.length → s.consumed < Message.total (msgs.take (s.ready.length + 1))) ∧
      (s.outbox = [] → s.channel = [] → s.ready.length = msgs.length) := by
  obtain ⟨s, done, todo, got, out, hrun, h⟩ := (Link.start_carrying msgs).run moves
  have hlen : done.length = s.ready.length := h.shown.length_eq
  have hdone : msgs.take s.ready.length = done := by rw [h.split, ← hlen, List.take_left]
  have hconsumed := h.consumed
  rw [Message.wires_length] at hconsumed
  refine ⟨s, hrun, h.failed, ?_, ?_, by rw [hdone]; omega, fun hlt => ?_, fun hout hchannel => ?_⟩
  · rw [h.split, List.length_append]
    omega
  · rw [hdone]
    refine h.shown.imp fun msg o hshows => ⟨hshows.key, fun key m => ?_, fun looks m => ?_⟩
    · obtain ⟨f, o', hget, -, hf⟩ := hshows.get key m
      exact ⟨f, o', hget, hf⟩
    · obtain ⟨o', hlooks, -⟩ := hshows.lookAll looks m
      exact ⟨o', hlooks⟩
  · cases todo with
    | nil =>
        rw [h.split, List.append_nil] at hlt
        omega
    | cons msg todo =>
        have hgot := h.got_lt
        have htake : msgs.take (s.ready.length + 1) = done ++ [msg] := by
          rw [h.split, ← hlen, List.take_length_add_append]
          rfl
        rw [htake, Message.total, List.map_append, List.sum_append, ← Message.total]
        simp only [List.map_cons, List.map_nil, List.sum_cons, List.sum_nil]
        omega
  · have hsending := h.sending
    rw [hout] at hsending
    cases todo with
    | nil => rw [h.split, List.append_nil, hlen]
    | cons msg todo =>
        have hgot := h.got_lt
        have hbytes := congrArg List.length h.bytes
        rw [hchannel, show out = [] from hsending, List.nil_append, List.append_nil, List.flatMap_cons,
          List.length_append, msg.wire_length] at hbytes
        omega

end LeanDson
