import LeanDson.Dialogue
import LeanDson.Transfer

/-! Empty messages between two threads. Each thread has an object that it loads messages into and one that it sends
messages from, and there is a pipe in each direction. A message is nothing but a key; the switch of the server goes
on from one case into the next where there is no `break`. -/

namespace LeanDson

namespace Ipc

/-! ### The two programs -/

/-- `Message`. -/
inductive Message where
  | iAmClient
  | iAmServer
  | alarmEnemyDetected
  | attackEnemy
  | enemyDestroyed
  | goShutdown
  | workFinished
  deriving DecidableEq, Repr

/-- The key of a message. -/
def Message.key : Message → Int
  | .iAmClient => 0
  | .iAmServer => 1
  | .alarmEnemyDetected => 2
  | .attackEnemy => 3
  | .enemyDestroyed => 4
  | .goShutdown => 5
  | .workFinished => 6

/-- The message that a label of a switch over `typed_key` stands for, if there is one. -/
def Message.ofKey (key : Int) : Option Message :=
  [iAmClient, iAmServer, alarmEnemyDetected, attackEnemy, enemyDestroyed, goShutdown, workFinished].find? fun msg =>
    msg.key == key

/-- `State` of the server. -/
inductive ServerState where
  | waitClientAuth
  | waitEnemyDetection
  | waitEnemyDestroyed
  | waitClientShutdowned
  deriving DecidableEq, Repr

/-- `State` of the client. -/
inductive ClientState where
  | waitServerAuth
  | waitServerAtackOrder
  | waitServerShutdownOrder
  deriving DecidableEq, Repr

/-- What a thread does between two calls that may have to wait. -/
abbrev Program (σ : Type) := Process σ Message String

namespace Server

def broken : Program ServerState := .print "Server:ERROR:state sequence is broken." .stop

/-- `case Message::IAmClient`. -/
def iAmClient (state : ServerState) : Program ServerState :=
  if state ≠ .waitClientAuth then broken
  else .print "Server:received: Message::IAmClient" (.send .iAmServer (.await .waitEnemyDetection))

/-- `case Message::WorkFinished`. -/
def workFinished (state : ServerState) : Program ServerState :=
  if state ≠ .waitClientShutdowned then broken
  else .print "Server:received: Message::WorkFinished" .stop

/-- `case Message::EnemyDestroyed`, which goes on into the next case. -/
def enemyDestroyed (state : ServerState) : Program ServerState :=
  if state ≠ .waitEnemyDestroyed then broken
  else .print "Server:received: Message::EnemyDestroyed" (.send .goShutdown (workFinished .waitClientShutdowned))

/-- `case Message::AlarmEnemyDetected`, which goes on into the next case. -/
def alarmEnemyDetected (state : ServerState) : Program ServerState :=
  if state ≠ .waitEnemyDetection then broken
  else .print "Server:received: Message::AlarmEnemyDetected" (.send .attackEnemy (enemyDestroyed .waitEnemyDestroyed))

end Server

/-- The switch in the loop of `server`. -/
def server (state : ServerState) (key : Int) : Program ServerState :=
  match Message.ofKey key with
  | some .iAmClient => Server.iAmClient state
  | some .alarmEnemyDetected => Server.alarmEnemyDetected state
  | some .enemyDestroyed => Server.enemyDestroyed state
  | some .workFinished => Server.workFinished state
  | _ => .print ("Server:UNKNOWN message:" ++ toString key) (.await state)

/-- The switch in the loop of `client`. -/
def client (state : ClientState) (key : Int) : Program ClientState :=
  match Message.ofKey key with
  | some .iAmServer =>
      if state ≠ .waitServerAuth then .print "Client:ERROR:state sequence is broken." .stop
      else .print "Client:received: Message::IAmServer" (.send .alarmEnemyDetected (.await .waitServerAtackOrder))
  | some .attackEnemy =>
      if state ≠ .waitServerAtackOrder then .print "Client:ERROR:state sequence is broken." .stop
      else .print "Client:received: Message::AttackEnemy" (.send .enemyDestroyed (.await .waitServerShutdownOrder))
  | some .goShutdown =>
      if state ≠ .waitServerShutdownOrder then .print "Client:ERROR:state sequence is broken." .stop
      else .print "Client:received: Message::GoShutdown" (.send .workFinished .stop)
  | _ => .print ("Client:UNKNOWN message:" ++ toString key) (.await state)

/-! ### Threads -/

/-- Where a thread is: in the loop of `load_dson`, in the loop of `send_dson`, or behind its `return`. -/
inductive Point (σ : Type) where
  | loading (state : σ)
  | sending (next : Program σ)
  | returned

/-- A thread with its two objects, what it has printed, and how many bytes its calls have moved. -/
structure Party (σ : Type) where
  point : Point σ
  readDson : DsonObj
  writeDson : DsonObj
  printed : List String
  moved : Nat

/-- `clear`. -/
def clear : DsonObj → DsonObj
  | .dson d _ => .dson d.clear []
  | o => o

namespace Party

variable {σ : Type} (e : Endian)

/-- What a thread does up to the next call that may have to wait. -/
def proceed : Program σ → Party σ → Option (Party σ)
  | .print line next, p => proceed next { p with printed := p.printed ++ [line] }
  | .send msg next, p => do
      let (o, _) ← (clear p.writeDson).setKey e .empty msg.key
      return { p with writeDson := o, point := .sending next }
  | .await state, p => some { p with readDson := clear p.readDson, point := .loading state }
  | .stop, p => some { p with point := .returned }

/-- One round of the loop that a thread is in: a call on an object, with what its `read` or `write` calls move at most,
and what follows when the call was the last one. The pipe it reads from and the pipe it writes to. -/
def step (body : σ → Int → Program σ) (failed : String) (counts : List Nat) (junk : Nat → UInt8) (p : Party σ)
    (input output : Bytes) : Option (Party σ × Bytes × Bytes) :=
  match p.point with
  | .loading state => do
      let (r, o, _, fd) ← p.readDson.loadFromFd e junk ⟨counts.map some, input⟩ .empty
      let p := { p with readDson := o, moved := p.moved + (input.length - fd.input.length) }
      match r with
      | .inProcess => return (p, fd.input, output)
      | .error => return (← p.proceed e (.print failed (.await state)), fd.input, output)
      | .ready => return (← p.proceed e (body state (← o.key e .empty)), fd.input, output)
  | .sending next => do
      let (r, o, _, fd) ← p.writeDson.copyTo e false .empty (FdOut.fresh (counts.map some))
      let p := { p with writeDson := o, moved := p.moved + fd.out.length }
      if r = .inProcess then return (p, input, output ++ fd.out)
      return (← p.proceed e next, input, output ++ fd.out)
  | .returned => some (p, input, output)

/-- A thread that begins, with two objects `Dson()`. -/
def start (process : Program σ) : Option (Party σ) := proceed e process ⟨.returned, .empty e, .empty e, [], 0⟩

end Party

/-! ### Both threads -/

/-- Two threads and the pipes between them. -/
structure World (σ τ : Type) where
  left : Party σ
  right : Party τ
  toLeft : Bytes
  toRight : Bytes

/-- A turn of one thread. -/
structure Turn where
  agent : Agent
  counts : List Nat
  junk : Nat → UInt8
  errno : Int

/-- What a thread prints when a load has failed. -/
def failLine (name : String) (errno : Int) : String := name ++ ":FAIL: read_dson.load_from_fd, errno=" ++ toString errno

namespace World

variable {σ τ : Type} (e : Endian) (f : σ → Int → Program σ) (g : τ → Int → Program τ)

def step (turn : Turn) (w : World σ τ) : Option (World σ τ) :=
  match turn.agent with
  | .left => (w.left.step e f (failLine "Server" turn.errno) turn.counts turn.junk w.toLeft w.toRight).map fun q =>
      ⟨q.1, w.right, q.2.1, q.2.2⟩
  | .right => (w.right.step e g (failLine "Client" turn.errno) turn.counts turn.junk w.toRight w.toLeft).map fun q =>
      ⟨w.left, q.1, q.2.2, q.2.1⟩

def run : List Turn → World σ τ → Option (World σ τ)
  | [], w => some w
  | turn :: rest, w => (w.step e f g turn).bind (run rest)

def start (left : Program σ) (right : Program τ) : Option (World σ τ) := do
  return ⟨← Party.start e left, ← Party.start e right, [], []⟩

/-- How many bytes the calls of both threads have moved. -/
def moved (w : World σ τ) : Nat := w.left.moved + w.right.moved

end World

/-- `empty_messages`: the server waits for a message, and the client has its first one to send. The pipe to the server
is `pipe_client_send_to_server`. -/
def emptyMessages (e : Endian) : Option (World ServerState ClientState) :=
  World.start e (.await .waitClientAuth) (.send .iAmClient (.await .waitServerAuth))

/-! ### Empty messages on the wire -/

/-- The header of an empty message in host order. -/
def Message.header (e : Endian) (msg : Message) : Header :=
  ⟨markHostOrder e, Cell.ofInt e 0, Cell.ofInt e msg.key, Cell.ofInt e TypesMap.empty⟩

def wires (e : Endian) (msgs : List Message) : Bytes := msgs.flatMap fun msg => (msg.header e).bytes

theorem Message.key_isInt32 (msg : Message) : IsInt32 msg.key := by cases msg <;> decide

section

variable {e : Endian}

/-- A header in host order is told by what it answers. -/
theorem header_eq {h : Header} (hmark : h.markByteOrder = markHostOrder e) : h =
    ⟨markHostOrder e, Cell.ofInt e (h.dataSizeOf e), Cell.ofInt e (h.keyOf e), Cell.ofInt e (h.dataTypeOf e)⟩ := by
  have hhost : h.isHostOrder e = true := by simp [Header.isHostOrder, hmark]
  obtain ⟨mark, size, key, type⟩ := h
  simp only [Header.dataSizeOf, Header.keyOf, Header.dataTypeOf, Header.field, hhost, if_true, Cell.ofInt_int32] at hmark ⊢
  rw [hmark]

theorem Message.field_header (msg : Message) (c : Cell) : (msg.header e).field e c = c.int32 e := by
  have hhost : (msg.header e).isHostOrder e = true := by simp [Header.isHostOrder, header]
  rw [Header.field, hhost, if_pos rfl]

theorem Message.keyOf_header (msg : Message) : (msg.header e).keyOf e = msg.key := by
  rw [Header.keyOf, msg.field_header]
  exact Cell.int32_ofInt e msg.key_isInt32

theorem Message.isMessage (msg : Message) : IsMessage e (msg.header e) [] where
  size := by
    rw [Header.dataSizeOf, msg.field_header]
    exact Cell.int32_ofInt e (by decide)
  limit := by decide

/-- What is sent of an empty container. -/
theorem wire_of_holds {o : DsonObj} {msg : Message} (ho : Holds e o msg.key (.node [])) :
    o.wire e false = (msg.header e).bytes := by
  cases o with
  | string s => exact ho.elim
  | route r => exact ho.elim
  | dson d children =>
      rw [Holds] at ho
      obtain ⟨-, hnode, -, hall⟩ := ho
      obtain ⟨rfl, -⟩ | ⟨k, o, rest, t, ts, -, hts, -⟩ := hall.cases
      · have hmark : (d.headerBuf.setDataSize e 0).ValidMark e := (Header.validMark_congr rfl).mp hnode.mark
        obtain ⟨hsize, hkey, htype⟩ := hnode.header 0 (by decide) false
        have heq := header_eq (Header.toOrder_mark hmark false)
        rw [hsize, hkey, htype] at heq
        simp only [DsonObj.wire, hnode.kind, DsonObj.wires, List.length_nil, List.append_nil]
        exact congrArg Header.bytes heq
      · cases hts

/-- A thread that is sending has something left to send. -/
theorem pending_ne_nil {o : DsonObj} {k : Int} (ho : Emittable e o k (.node [])) : o.pending e false ≠ [] := by
  cases o with
  | string s => exact ho.elim
  | route r => exact ho.elim
  | dson d children =>
      rw [Emittable] at ho
      obtain ⟨hnode, -, ⟨hstate, -⟩ | ⟨hstate, hoff, -⟩ | ⟨hstate, key, -, -, hfrom⟩⟩ := ho
      · simp only [DsonObj.pending, hnode.kind, hstate]
        intro hnil
        have hlen := congrArg List.length hnil
        rw [List.length_append, Header.bytes_length, List.length_nil] at hlen
        omega
      · simp only [DsonObj.pending, hnode.kind, hstate]
        intro hnil
        have hlen := congrArg List.length hnil
        rw [headerSize] at hoff
        rw [List.length_append, List.length_drop, Header.bytes_length, List.length_nil] at hlen
        omega
      · cases children with
        | nil => exact hfrom.elim
        | cons p rest => exact hfrom.elim

/-- `clear` and `set_key` on the object that a thread sends from. -/
theorem setKey_clear {o : DsonObj} {k : Int} (ho : Holds e o k (.node [])) (msg : Message) :
    ∃ o', (clear o).setKey e .empty msg.key = some (o', .empty) ∧ Holds e o' msg.key (.node []) := by
  have hclear : Holds e (clear o) k (.node []) := by
    cases o with
    | string s => exact ho.elim
    | route r => exact ho.elim
    | dson d children =>
        rw [Holds] at ho
        obtain ⟨-, hnode, -, -⟩ := ho
        refine ⟨rfl, ⟨rfl, ?_, ?_, hnode.mark, hnode.key, hnode.type⟩, KeyMap.sorted_nil, trivial⟩
        · simp [Dson.clear, hnode.alloc]
        · simp [Dson.clear, hnode.alloc, hnode.buf]
  exact hclear.setKey msg.key_isInt32 .empty

end

/-! ### Threads and processes -/

/-- A thread that does not have to wait: it has something to write, or there is something to read. -/
def Party.Runs {σ : Type} (p : Party σ) (input : Bytes) : Prop :=
  (∃ next, p.point = .sending next) ∨ ((∃ state, p.point = .loading state) ∧ input ≠ [])

section

variable {e : Endian}

theorem idle_clear {d : Dson} (h : d.Idle) : d.clear.Idle := by
  refine ⟨by simp [Dson.clear], by simp [Dson.clear], Or.inr ?_⟩
  rcases h.buf with halloc | hbuf
  · simp [Dson.clear, halloc]
  · simp [Dson.clear, hbuf]

variable {σ τ : Type} {f : σ → Int → Program σ} {g : τ → Int → Program τ}

/-- The same switch over messages. -/
def onMessage (body : σ → Int → Program σ) (state : σ) (msg : Message) : Program σ := body state msg.key

/-- How a thread stands to a process that handles messages as a whole: it has read `got` of a message that the process
has not received, and has still to write `pending` of one that the process has sent. -/
structure Party.Tracks (e : Endian) (p : Party σ) (side : Side σ Message String) (got pending : Bytes) : Prop where
  reading : ∃ d children, p.readDson = .dson d children ∧ d.Loads e children got ∧
    ((∀ state, p.point ≠ .loading state) → d.Idle)
  printed : p.printed = side.printed
  moved : p.moved + pending.length = 16 * side.moved + got.length
  place : (∃ state, p.point = .loading state ∧ side.process = .await state ∧ pending = [] ∧
      ∃ k, Holds e p.writeDson k (.node [])) ∨
    (p.point = .sending side.process ∧ got = [] ∧ p.writeDson.pending e false = pending ∧
      ∃ k, Emittable e p.writeDson k (.node [])) ∨
    (p.point = .returned ∧ side.process = .stop ∧ got = [] ∧ pending = [])

/-- Between two loops a thread catches up with the process, up to the next message it is to receive. -/
theorem Party.proceed_tracks (process : Program σ) {p : Party σ} {side : Side σ Message String}
    (hreading : ∃ d children, p.readDson = .dson d children ∧ d.Idle) (hwriting : ∃ k, Holds e p.writeDson k (.node []))
    (hprinted : p.printed = side.printed) (hmoved : p.moved = 16 * side.moved) (hprocess : side.process = process)
    (inbox : List Message) :
    ∃ p' side' sent, p.proceed e process = some p' ∧ Side.Steps (onMessage f) side inbox side' inbox sent ∧
      p'.Tracks e side' [] (wires e sent) ∧ p'.moved = p.moved := by
  induction process generalizing p side with
  | print line next ih =>
      have hstep : side.step (onMessage f) inbox =
          some ({ side with process := next, printed := side.printed ++ [line] }, inbox, []) := by
        rw [Side.step, hprocess]
      obtain ⟨p', side', sent, hrun, hsteps, htracks, hp'⟩ := @ih { p with printed := p.printed ++ [line] }
        { side with process := next, printed := side.printed ++ [line] } hreading hwriting
        (congrArg (· ++ [line]) hprinted) hmoved rfl
      exact ⟨p', side', sent, hrun, .cons hstep hsteps, htracks, hp'⟩
  | send msg next ih =>
      have hstep : side.step (onMessage f) inbox =
          some ({ side with process := next, moved := side.moved + 1 }, inbox, [msg]) := by
        rw [Side.step, hprocess]
      obtain ⟨k, hwriting⟩ := hwriting
      obtain ⟨o', hset, ho'⟩ := setKey_clear hwriting msg
      obtain ⟨d, children, hread, hidle⟩ := hreading
      have hwires : wires e [msg] = (msg.header e).bytes := List.flatMap_singleton _ _
      refine ⟨{ p with writeDson := o', point := .sending next }, _, [msg], ?_, .cons hstep (.nil _ _), ?_, rfl⟩
      · rw [proceed, hset]
        rfl
      · refine ⟨⟨d, children, hread, Or.inl ⟨rfl, hidle⟩, fun _ => hidle⟩, hprinted, ?_,
          Or.inr (Or.inl ⟨rfl, rfl, ?_, _, ho'.emittable⟩)⟩
        · rw [hwires, Header.bytes_length, List.length_nil]
          dsimp only
          omega
        · rw [hwires, ← wire_of_holds ho']
          exact ho'.pending false
  | await state =>
      obtain ⟨d, children, hread, hidle⟩ := hreading
      have hclear := idle_clear hidle
      refine ⟨_, side, [], rfl, .nil _ _, ⟨⟨d.clear, [], ?_, Or.inl ⟨rfl, hclear⟩, fun _ => hclear⟩, hprinted, ?_, ?_⟩, rfl⟩
      · rw [hread, clear]
      · simpa [wires] using hmoved
      · exact Or.inl ⟨state, rfl, hprocess, rfl, hwriting⟩
  | stop =>
      obtain ⟨d, children, hread, hidle⟩ := hreading
      refine ⟨_, side, [], rfl, .nil _ _, ⟨⟨d, children, hread, Or.inl ⟨rfl, hidle⟩, fun _ => hidle⟩, hprinted, ?_, ?_⟩, rfl⟩
      · simpa [wires] using hmoved
      · exact Or.inr (Or.inr ⟨rfl, hprocess, rfl, rfl⟩)

theorem Party.step_loading {p : Party σ} {state : σ} (hpoint : p.point = .loading state) (failed : String)
    (counts : List Nat) (junk : Nat → UInt8) (input output : Bytes) : p.step e f failed counts junk input output = do
      let (r, o, _, fd) ← p.readDson.loadFromFd e junk ⟨counts.map some, input⟩ .empty
      let p := { p with readDson := o, moved := p.moved + (input.length - fd.input.length) }
      match r with
      | .inProcess => return (p, fd.input, output)
      | .error => return (← p.proceed e (.print failed (.await state)), fd.input, output)
      | .ready => return (← p.proceed e (f state (← o.key e .empty)), fd.input, output) := by
  rw [step, hpoint]

theorem Party.step_sending {p : Party σ} {next : Program σ} (hpoint : p.point = .sending next) (failed : String)
    (counts : List Nat) (junk : Nat → UInt8) (input output : Bytes) : p.step e f failed counts junk input output = do
      let (r, o, _, fd) ← p.writeDson.copyTo e false .empty (FdOut.fresh (counts.map some))
      let p := { p with writeDson := o, moved := p.moved + fd.out.length }
      if r = .inProcess then return (p, input, output ++ fd.out)
      return (← p.proceed e next, input, output ++ fd.out) := by
  rw [step, hpoint]

/-- A read takes some more of a message, or the rest of it, and then the thread switches over its key. -/
theorem Party.Tracks.load {p : Party σ} {side : Side σ Message String} {got pending input output rest : Bytes}
    {inbox : List Message} {state : σ} (h : p.Tracks e side got pending) (hpoint : p.point = .loading state)
    (hin : got ++ (input ++ rest) = wires e inbox) (failed : String) (counts : List Nat) (junk : Nat → UInt8) :
    ∃ p' input' side' got' pending' inbox' sent,
      p.step e f failed counts junk input output = some (p', input', output) ∧
      Side.Steps (onMessage f) side inbox side' inbox' sent ∧ p'.Tracks e side' got' pending' ∧
      got' ++ (input' ++ rest) = wires e inbox' ∧ pending' = pending ++ wires e sent ∧
      (counts = [1] → p.Runs input → p.moved < p'.moved) := by
  obtain ⟨⟨d, children, hread, hloads, -⟩, hprinted, hmoved, ⟨state', hpoint', hprocess, rfl, hwriting⟩ |
    ⟨hpoint', -⟩ | ⟨hpoint', -⟩⟩ := h <;> rw [hpoint] at hpoint' <;> cases hpoint'
  obtain ⟨r, d', j, n, hrun, -, hn, hstands, hgives⟩ :=
    hloads.loadFromFd junk ⟨counts.map some, input⟩ (by simp) .empty
  rw [FdIn.after] at hrun
  dsimp only at hn hstands hrun
  have hcount : input.length - (input.drop n).length = n := by
    rw [List.length_drop]
    omega
  have hlen : (got ++ input.take n).length = got.length + n := by
    rw [List.length_append, List.length_take, min_eq_left hn]
  have hsplit : got ++ input.take n ++ (input.drop n ++ rest) = wires e inbox := by
    rw [← hin, List.append_assoc, ← List.append_assoc (input.take n), List.take_append_drop]
  have hgo : counts = [1] → p.Runs input → 0 < n := by
    rintro rfl (⟨next, hnext⟩ | ⟨-, hne⟩)
    · rw [hpoint] at hnext
      cases hnext
    · exact hgives ⟨hne, 0, [], rfl⟩
  rw [List.length_nil, Nat.add_zero] at hmoved
  rw [Party.step_loading hpoint, hread, hrun]
  simp only [Option.bind_eq_bind, Option.bind_some, hcount]
  -- the process has not moved, and waits for a message that is not complete
  have hwaits : d'.Awaits e (got ++ input.take n) →
      Tracks e { p with readDson := .dson d' [], moved := p.moved + n } side (got ++ input.take n) [] := fun hawaits =>
    ⟨⟨d', [], rfl, Or.inr ⟨rfl, hawaits⟩, fun hnot => absurd hpoint (hnot state)⟩, hprinted,
      by rw [hlen, List.length_nil]; dsimp only; omega, Or.inl ⟨state, hpoint, hprocess, rfl, hwriting⟩⟩
  cases inbox with
  | nil =>
      have hnil : got ++ input.take n = [] := (List.append_eq_nil_iff.mp hsplit).1
      rw [hnil] at hstands
      rcases hstands with ⟨rfl, hawaits⟩ | ⟨-, h', body, hbytes, -⟩ | ⟨-, h', hbytes, -⟩
      · refine ⟨_, _, side, _, [], [], [], rfl, .nil _ _, hwaits (by rwa [hnil]), hsplit, rfl, fun hc hp => ?_⟩
        exact Nat.lt_add_of_pos_right (hgo hc hp)
      · have hzero := congrArg List.length hbytes
        rw [List.length_nil, List.length_append, Header.bytes_length] at hzero
        omega
      · have hzero := congrArg List.length hbytes
        rw [List.length_nil, Header.bytes_length] at hzero
        omega
  | cons msg msgs =>
      have hsplit' : got ++ input.take n ++ (input.drop n ++ rest) = (msg.header e).bytes ++ ([] ++ wires e msgs) := by
        rw [hsplit, wires, List.flatMap_cons]
        rfl
      rcases hstands.of_prefix msg.isMessage hsplit' with ⟨rfl, hawaits, -⟩ | ⟨rfl, hgot, hlater, htook⟩
      · refine ⟨_, _, side, _, [], msg :: msgs, [], rfl, .nil _ _, hwaits hawaits, hsplit, rfl, fun hc hp => ?_⟩
        exact Nat.lt_add_of_pos_right (hgo hc hp)
      · have hstep : side.step (onMessage f) (msg :: msgs) =
            some ({ side with process := f state msg.key, moved := side.moved + 1 }, msgs, []) := by
          rw [Side.step, hprocess]
          rfl
        have hkey : (DsonObj.dson d' []).key e .empty = some msg.key := by
          obtain ⟨hheader, -, -, ⟨hne, -⟩ | ⟨-, -, -, hbuf, halloc⟩⟩ := htook
          · exact absurd rfl hne
          · simp [DsonObj.key, Dson.key, Dson.header, Dson.headerIsLocal, halloc, hbuf, BufPtr.isNull, hheader, msg.keyOf_header]
        rw [hgot, List.length_append, Header.bytes_length, List.length_nil] at hlen
        obtain ⟨p', side', sent, hproceed, hsteps, htracks, hp'⟩ := @Party.proceed_tracks e σ f (f state msg.key)
          { p with readDson := .dson d' [], moved := p.moved + n }
          { side with process := f state msg.key, moved := side.moved + 1 } ⟨d', [], rfl, htook.idle⟩ hwriting hprinted
          (by dsimp only; omega) rfl msgs
        refine ⟨p', _, side', [], _, msgs, sent, ?_, .cons hstep hsteps, htracks, hlater, rfl, fun hc hp => ?_⟩
        · simp only [hkey, Option.bind_some, hproceed]
          rfl
        · rw [hp']
          exact Nat.lt_add_of_pos_right (hgo hc hp)

/-- A write takes a first part of what is pending, or all of it, and then the thread goes on. -/
theorem Party.Tracks.send {p : Party σ} {side : Side σ Message String} {got pending input output : Bytes}
    (h : p.Tracks e side got pending) (hpoint : p.point = .sending side.process) (inbox : List Message) (failed : String)
    (counts : List Nat) (junk : Nat → UInt8) :
    ∃ p' output' side' pending' sent,
      p.step e f failed counts junk input output = some (p', input, output') ∧
      Side.Steps (onMessage f) side inbox side' inbox sent ∧ p'.Tracks e side' got pending' ∧
      output' ++ pending' = output ++ (pending ++ wires e sent) ∧ (counts = [1] → p.moved < p'.moved) := by
  obtain ⟨⟨d, children, hread, hloads, hidle⟩, hprinted, hmoved, ⟨state', hpoint', -⟩ |
    ⟨-, rfl, rfl, k, hwriting⟩ | ⟨hpoint', -⟩⟩ := h
  · rw [hpoint] at hpoint'
    cases hpoint'
  · obtain ⟨r, o', fd, hrun, -, bs, -, hwritten, hcases⟩ :=
      hwriting.copyTo (by decide) false .empty (FdOut.fresh (counts.map some))
    have hfd : fd.out = bs := hwritten
    have hne := pending_ne_nil hwriting
    have hpos := List.length_pos_of_ne_nil hne
    have hidle' : d.Idle := hidle fun state hstate => by
      rw [hpoint] at hstate
      cases hstate
    have hcopy : p.writeDson.copyTo e false .empty (FdOut.fresh (counts.map some)) = some (r, o', .empty, fd) := hrun
    rw [Party.step_sending hpoint]
    simp only [hcopy, Option.bind_eq_bind, Option.bind_some, hfd]
    rcases hcases with ⟨rfl, ho', hpend⟩ | ⟨rfl, ⟨ho', -⟩, -, heager, hpend⟩ | ⟨-, hunwilling, -⟩
    · rw [hpend] at hmoved hpos
      obtain ⟨p', side', sent, hproceed, hsteps, htracks, hp'⟩ := @Party.proceed_tracks e σ f side.process
        { p with writeDson := o', moved := p.moved + bs.length } side ⟨d, children, hread, hidle'⟩ ⟨k, ho'⟩ hprinted
        hmoved rfl inbox
      refine ⟨p', output ++ bs, side', wires e sent, sent, ?_, hsteps, htracks, ?_, fun _ => ?_⟩
      · rw [if_neg (by simp), hproceed]
        rfl
      · rw [hpend, List.append_assoc]
      · rw [hp']
        dsimp only
        omega
    · refine ⟨{ p with writeDson := o', moved := p.moved + bs.length }, output ++ bs, side, o'.pending e false, [],
        by rw [if_pos rfl]; rfl, .nil _ _, ⟨⟨d, children, hread, hloads, hidle⟩, hprinted, ?_,
        Or.inr (Or.inl ⟨hpoint, rfl, rfl, k, ho'⟩)⟩, ?_, ?_⟩
      · rw [hpend, List.length_append] at hmoved
        dsimp only
        omega
      · rw [hpend, wires, List.flatMap_nil, List.append_nil, List.append_assoc]
      · rintro rfl
        have hbs : bs ≠ [] := by
          refine heager fun bs hbs s' hw => ?_
          have hlen := List.length_pos_of_ne_nil hbs
          have hzero : min 1 bs.length = 0 := Option.some_inj.mp (congrArg Prod.fst hw)
          omega
        exact Nat.lt_add_of_pos_right (List.length_pos_of_ne_nil hbs)
    · exact absurd (by simp [ByteSink.Willing, FdOut.fresh]) hunwilling
  · rw [hpoint] at hpoint'
    cases hpoint'

/-- A turn of a thread is some steps of the process. With `rest` of what has been sent to it still to be written, the
bytes that the thread has not received are the messages that the process has not. -/
theorem Party.Tracks.step {p : Party σ} {side : Side σ Message String} {got pending input output rest : Bytes}
    {inbox : List Message} (h : p.Tracks e side got pending) (hin : got ++ (input ++ rest) = wires e inbox)
    (failed : String) (counts : List Nat) (junk : Nat → UInt8) :
    ∃ p' input' output' side' got' pending' inbox' sent,
      p.step e f failed counts junk input output = some (p', input', output') ∧
      Side.Steps (onMessage f) side inbox side' inbox' sent ∧ p'.Tracks e side' got' pending' ∧
      got' ++ (input' ++ rest) = wires e inbox' ∧ output' ++ pending' = output ++ (pending ++ wires e sent) ∧
      (counts = [1] → p.Runs input → p.moved < p'.moved) := by
  rcases h.place with ⟨state, hpoint, -⟩ | ⟨hpoint, -⟩ | ⟨hpoint, -, hgot, hpend⟩
  · obtain ⟨p', input', side', got', pending', inbox', sent, hrun, hsteps, htracks, hin', hout, hgo⟩ :=
      @Party.Tracks.load e σ f p side got pending input output rest inbox state h hpoint hin failed counts junk
    exact ⟨p', input', output, side', got', pending', inbox', sent, hrun, hsteps, htracks, hin', by rw [hout], hgo⟩
  · obtain ⟨p', output', side', pending', sent, hrun, hsteps, htracks, hout, hgo⟩ :=
      @Party.Tracks.send e σ f p side got pending input output h hpoint inbox failed counts junk
    exact ⟨p', input, output', side', got, pending', inbox, sent, hrun, hsteps, htracks, hin, hout, fun hc _ => hgo hc⟩
  · refine ⟨p, input, output, side, got, pending, inbox, [], by rw [Party.step, hpoint], .nil _ _, h, hin, ?_, ?_⟩
    · rw [wires, List.flatMap_nil, List.append_nil]
    · rintro - (⟨next, hnext⟩ | ⟨⟨state, hstate⟩, -⟩)
      · rw [hpoint] at hnext
        cases hnext
      · rw [hpoint] at hstate
        cases hstate

/-! ### Both threads and both processes -/

/-- The processes handle messages as a whole, with queues in the place of the pipes. -/
abbrev talk (f : σ → Int → Program σ) (g : τ → Int → Program τ) :
    Agent → Dialogue σ τ Message String → Option (Dialogue σ τ Message String) :=
  Dialogue.step (onMessage f) (onMessage g)

/-- The bytes on their way are those of the messages on their way. -/
def World.Refines (e : Endian) (w : World σ τ) (x : Dialogue σ τ Message String) : Prop :=
  ∃ gotL pendL gotR pendR, w.left.Tracks e x.left gotL pendL ∧ w.right.Tracks e x.right gotR pendR ∧
    gotL ++ (w.toLeft ++ pendR) = wires e x.toLeft ∧ gotR ++ (w.toRight ++ pendL) = wires e x.toRight

theorem wires_append (msgs msgs' : List Message) : wires e (msgs ++ msgs') = wires e msgs ++ wires e msgs' :=
  List.flatMap_append

/-- A turn is some steps of the process whose turn it is. -/
theorem World.Refines.step {w : World σ τ} {x : Dialogue σ τ Message String} (h : w.Refines e x) (turn : Turn) :
    ∃ w' x' n, w.step e f g turn = some w' ∧ Agents.Run (talk f g) n x x' ∧ w'.Refines e x' ∧
      (turn.counts = [1] → (turn.agent = .left ∧ w.left.Runs w.toLeft ∨ turn.agent = .right ∧ w.right.Runs w.toRight) →
        w.moved < w'.moved) := by
  obtain ⟨gotL, pendL, gotR, pendR, hleft, hright, htoLeft, htoRight⟩ := h
  cases hagent : turn.agent with
  | left =>
      obtain ⟨p', input', output', side', got', pending', inbox', sent, hrun, hsteps, htracks, hin, hout, hgo⟩ :=
        @Party.Tracks.step e σ f _ _ _ _ _ w.toRight _ _ hleft htoLeft (failLine "Server" turn.errno) turn.counts turn.junk
      obtain ⟨n, hn⟩ := @Dialogue.run_left σ τ Message String (onMessage f) (onMessage g) _ _ _ _ _ hsteps x.right x.toRight
      refine ⟨_, _, n, by rw [World.step, hagent]; simp only [hrun]; rfl, hn, ?_, fun hc hr => ?_⟩
      · refine ⟨got', pending', gotR, pendR, htracks, hright, hin, ?_⟩
        rw [wires_append, ← htoRight, hout]
        simp only [List.append_assoc]
      · rcases hr with ⟨-, hr⟩ | ⟨hr, -⟩
        · exact Nat.add_lt_add_right (hgo hc hr) _
        · cases hr
  | right =>
      obtain ⟨p', input', output', side', got', pending', inbox', sent, hrun, hsteps, htracks, hin, hout, hgo⟩ :=
        @Party.Tracks.step e τ g _ _ _ _ _ w.toLeft _ _ hright htoRight (failLine "Client" turn.errno) turn.counts turn.junk
      obtain ⟨n, hn⟩ := @Dialogue.run_right σ τ Message String (onMessage f) (onMessage g) _ _ _ _ _ hsteps x.left x.toLeft
      refine ⟨_, _, n, by rw [World.step, hagent]; simp only [hrun]; rfl, hn, ?_, fun hc hr => ?_⟩
      · refine ⟨gotL, pendL, got', pending', hleft, htracks, ?_, hin⟩
        rw [wires_append, ← htoLeft, hout]
        simp only [List.append_assoc]
      · rcases hr with ⟨hr, -⟩ | ⟨-, hr⟩
        · cases hr
        · exact Nat.add_lt_add_left (hgo hc hr) _

theorem World.Refines.run {w : World σ τ} {x : Dialogue σ τ Message String} (h : w.Refines e x) (turns : List Turn) :
    ∃ w' x' n, w.run e f g turns = some w' ∧ Agents.Run (talk f g) n x x' ∧ w'.Refines e x' := by
  induction turns generalizing w x with
  | nil => exact ⟨w, x, 0, rfl, .nil x, h⟩
  | cons turn rest ih =>
      obtain ⟨w', x', n, hstep, hn, h', -⟩ := h.step (f := f) (g := g) turn
      obtain ⟨w'', x'', k, hrest, hk, h''⟩ := ih h'
      refine ⟨w'', x'', n + k, ?_, hn.trans hk, h''⟩
      rw [World.run, hstep]
      exact hrest

theorem Party.start_tracks (process : Program σ) (inbox : List Message) : ∃ p side sent, Party.start e process = some p ∧
    Side.Steps (onMessage f) ⟨process, [], 0⟩ inbox side inbox sent ∧ p.Tracks e side [] (wires e sent) := by
  have hidle : (Dson.uninit (Dson.clearHeader e)).Idle := ⟨by simp [Dson.uninit], by simp [Dson.uninit], Or.inr rfl⟩
  obtain ⟨p, side, sent, hrun, hsteps, htracks, -⟩ := @Party.proceed_tracks e σ f process
    ⟨.returned, .empty e, .empty e, [], 0⟩ ⟨process, [], 0⟩ ⟨_, [], rfl, hidle⟩ ⟨0, holds_empty⟩ rfl rfl rfl inbox
  exact ⟨p, side, sent, hrun, hsteps, htracks⟩

theorem World.start_refines (left : Program σ) (right : Program τ) : ∃ w x n, World.start e left right = some w ∧
    Agents.Run (talk f g) n ⟨⟨left, [], 0⟩, ⟨right, [], 0⟩, [], []⟩ x ∧ w.Refines e x := by
  obtain ⟨p, side, sent, hp, hsteps, htracks⟩ := @Party.start_tracks e σ f left []
  obtain ⟨q, side', sent', hq, hsteps', htracks'⟩ := @Party.start_tracks e τ g right sent
  obtain ⟨n, hn⟩ := @Dialogue.run_left σ τ Message String (onMessage f) (onMessage g) _ _ _ _ _ hsteps ⟨right, [], 0⟩ []
  obtain ⟨k, hk⟩ := @Dialogue.run_right σ τ Message String (onMessage f) (onMessage g) _ _ _ _ _ hsteps' side []
  refine ⟨⟨p, q, [], []⟩, _, n + k, ?_, hn.trans hk, [], wires e sent, [], wires e sent', htracks, htracks', rfl, rfl⟩
  rw [World.start, hp, hq]
  rfl

/-- A thread has returned where the process has stopped, and is reading where the process waits. -/
theorem Party.Tracks.returned {p : Party σ} {side : Side σ Message String} {got pending : Bytes}
    (h : p.Tracks e side got pending) (hpoint : p.point = .returned) : side.process = .stop ∧ got = [] ∧ pending = [] := by
  rcases h.place with ⟨state, hp, -⟩ | ⟨hp, -⟩ | ⟨-, hrest⟩
  · rw [hpoint] at hp
    cases hp
  · rw [hpoint] at hp
    cases hp
  · exact hrest

theorem Party.Tracks.writes {p : Party σ} {side : Side σ Message String} {got pending input : Bytes}
    (h : p.Tracks e side got pending) (hne : pending ≠ []) : p.Runs input := by
  rcases h.place with ⟨state, -, -, hp, -⟩ | ⟨hp, -⟩ | ⟨-, -, -, hp⟩
  · exact absurd hp hne
  · exact Or.inl ⟨_, hp⟩
  · exact absurd hp hne

/-- A thread in the middle of a message has less than the whole of it, and its process waits for the message. -/
theorem Party.Tracks.got_lt {p : Party σ} {side : Side σ Message String} {got pending more : Bytes} {inbox : List Message}
    (h : p.Tracks e side got pending) (hin : got ++ more = wires e inbox) (hgot : got ≠ []) :
    ∃ state msg msgs, side.process = .await state ∧ inbox = msg :: msgs ∧ got.length < 16 := by
  obtain ⟨⟨d, children, -, hloads, -⟩, -, -, ⟨state, -, hprocess, -⟩ | ⟨-, hnil, -⟩ | ⟨-, -, hnil, -⟩⟩ := h
  · cases inbox with
    | nil => exact absurd (List.append_eq_nil_iff.mp hin).1 hgot
    | cons msg msgs =>
        refine ⟨state, msg, msgs, hprocess, rfl, ?_⟩
        have hsplit : got ++ more = (msg.header e).bytes ++ ([] ++ wires e msgs) := by
          rw [hin, wires, List.flatMap_cons]
          rfl
        rcases hloads with ⟨hnil, -⟩ | ⟨-, hawaits⟩
        · exact absurd hnil hgot
        · rcases Dson.Stands.of_prefix (Or.inl ⟨rfl, hawaits⟩) msg.isMessage hsplit with ⟨-, -, hlt⟩ | ⟨hr, -⟩
          · exact hlt
          · cases hr
  · exact absurd hnil hgot
  · exact absurd hnil hgot

/-- Where a process has a step, its thread has something to write or to read, or the other thread has something to
write. -/
theorem Party.Tracks.runs {p : Party σ} {side side' : Side σ Message String} {got pending input rest : Bytes}
    {inbox inbox' sent : List Message} (h : p.Tracks e side got pending) (hin : got ++ (input ++ rest) = wires e inbox)
    (hstep : side.step (onMessage f) inbox = some (side', inbox', sent)) : p.Runs input ∨ rest ≠ [] := by
  rcases h.place with ⟨state, hpoint, hprocess, -⟩ | ⟨hpoint, -⟩ | ⟨-, hstop, -⟩
  · rw [Side.step, hprocess] at hstep
    cases inbox with
    | nil => cases hstep
    | cons msg msgs =>
        by_cases hinput : input = []
        · right
          rintro rfl
          subst hinput
          -- all of the message would be with the thread
          have hlen := congrArg List.length hin
          rw [List.append_nil, List.append_nil, wires, List.flatMap_cons, List.length_append, Header.bytes_length] at hlen
          obtain ⟨-, -, -, -, -, hlt⟩ := h.got_lt hin (List.ne_nil_of_length_pos (by omega))
          omega
        · exact Or.inl (Or.inr ⟨⟨state, hpoint⟩, hinput⟩)
  · exact Or.inl (Or.inl ⟨_, hpoint⟩)
  · rw [Side.step, hstop] at hstep
    cases hstep

/-- While the processes have steps, or a thread has still to write, some thread does not have to wait. -/
theorem World.Refines.runs {w : World σ τ} {x : Dialogue σ τ Message String} (h : w.Refines e x)
    (hgo : (∃ i x', talk f g i x = some x') ∨ (∃ next, w.left.point = .sending next) ∨ ∃ next, w.right.point = .sending next) :
    w.left.Runs w.toLeft ∨ w.right.Runs w.toRight := by
  obtain ⟨gotL, pendL, gotR, pendR, hleft, hright, htoLeft, htoRight⟩ := h
  rcases hgo with ⟨i, x', hstep⟩ | hnext | hnext
  · cases i with
    | left =>
        obtain ⟨⟨side', inbox', sent⟩, hstep, -⟩ := Option.map_eq_some_iff.mp hstep
        rcases hleft.runs htoLeft hstep with hruns | hne
        · exact Or.inl hruns
        · exact Or.inr (hright.writes hne)
    | right =>
        obtain ⟨⟨side', inbox', sent⟩, hstep, -⟩ := Option.map_eq_some_iff.mp hstep
        rcases hright.runs htoRight hstep with hruns | hne
        · exact Or.inr hruns
        · exact Or.inl (hleft.writes hne)
  · exact Or.inl (Or.inl hnext)
  · exact Or.inr (Or.inl hnext)

/-- A thread has not moved more than its process moves in all. -/
theorem Party.Tracks.moved_le {p : Party σ} {side : Side σ Message String} {got pending more : Bytes} {inbox : List Message}
    {total : Nat} (h : p.Tracks e side got pending) (hin : got ++ more = wires e inbox) (hle : side.moved ≤ total)
    (hlt : ∀ state msg msgs, side.process = .await state → inbox = msg :: msgs → side.moved < total) :
    p.moved ≤ 16 * total := by
  have hmoved := h.moved
  by_cases hgot : got = []
  · rw [hgot, List.length_nil] at hmoved
    omega
  · obtain ⟨state, msg, msgs, hprocess, hqueue, hshort⟩ := h.got_lt hin hgot
    have hless := hlt state msg msgs hprocess hqueue
    omega

/-- How two threads stand whose processes come to their ends in some order of turns. -/
theorem World.Refines.settles {w : World σ τ} {x z : Dialogue σ τ Message String} {n k : Nat} (h : w.Refines e x)
    {x₀ : Dialogue σ τ Message String} (hrun : Agents.Run (talk f g) n x₀ z) (hleft : z.left.process = .stop)
    (hright : z.right.process = .stop) (hx : Agents.Run (talk f g) k x₀ x) :
    w.left.printed <+: z.left.printed ∧ w.right.printed <+: z.right.printed ∧
      w.moved ≤ 16 * (z.left.moved + z.right.moved) ∧
      (w.left.point = .returned → w.right.point = .returned → w.left.printed = z.left.printed ∧
        w.right.printed = z.right.printed ∧ w.toLeft = wires e z.toLeft ∧ w.toRight = wires e z.toRight ∧
        w.moved = 16 * (z.left.moved + z.right.moved)) ∧
      (¬(w.left.point = .returned ∧ w.right.point = .returned) →
        ∃ turn w', w.step e f g turn = some w' ∧ w.moved < w'.moved) := by
  obtain ⟨l, -, hrest, hgrows⟩ := Dialogue.settles hrun hleft hright hx
  have hrefines := h
  obtain ⟨gotL, pendL, gotR, pendR, hL, hR, htoLeft, htoRight⟩ := h
  refine ⟨?_, ?_, ?_, fun hl hr => ?_, fun hnot => ?_⟩
  · rw [hL.printed]
    exact hgrows.printedLeft
  · rw [hR.printed]
    exact hgrows.printedRight
  · have hmovedL := hL.moved_le htoLeft hgrows.movedLeft fun state msg msgs hp hq =>
      Dialogue.moved_left_lt hrest hleft hright hp hq
    have hmovedR := hR.moved_le htoRight hgrows.movedRight fun state msg msgs hp hq =>
      Dialogue.moved_right_lt hrest hleft hright hp hq
    rw [World.moved]
    omega
  · obtain ⟨hstopL, rfl, rfl⟩ := hL.returned hl
    obtain ⟨hstopR, rfl, rfl⟩ := hR.returned hr
    obtain ⟨-, rfl⟩ := (Dialogue.atRest_of_stop (f := onMessage f) (g := onMessage g) hstopL hstopR).run_eq hrest
    have hmovedL := hL.moved
    have hmovedR := hR.moved
    rw [List.append_nil, List.nil_append] at htoLeft htoRight
    refine ⟨hL.printed, hR.printed, htoLeft, htoRight, ?_⟩
    rw [List.length_nil] at hmovedL hmovedR
    rw [World.moved]
    omega
  · have hruns : w.left.Runs w.toLeft ∨ w.right.Runs w.toRight := by
      refine hrefines.runs (f := f) (g := g) ?_
      cases hrest with
      | cons hstep hrest => exact Or.inl ⟨_, _, hstep⟩
      | nil =>
          -- the processes have stopped, so a thread that has not returned is writing
          right
          rcases hL.place with ⟨state, -, hprocess, -⟩ | ⟨hpoint, -⟩ | ⟨hpoint, -⟩
          · rw [hleft] at hprocess
            cases hprocess
          · exact Or.inl ⟨_, hpoint⟩
          · rcases hR.place with ⟨state, -, hprocess, -⟩ | ⟨hpoint', -⟩ | ⟨hpoint', -⟩
            · rw [hright] at hprocess
              cases hprocess
            · exact Or.inr ⟨_, hpoint'⟩
            · exact absurd ⟨hpoint, hpoint'⟩ hnot
    have hturn : ∃ turn : Turn, turn.counts = [1] ∧
        (turn.agent = .left ∧ w.left.Runs w.toLeft ∨ turn.agent = .right ∧ w.right.Runs w.toRight) := by
      rcases hruns with hr | hr
      · exact ⟨⟨.left, [1], fun _ => 0, 0⟩, rfl, Or.inl ⟨rfl, hr⟩⟩
      · exact ⟨⟨.right, [1], fun _ => 0, 0⟩, rfl, Or.inr ⟨rfl, hr⟩⟩
    obtain ⟨turn, hcounts, hturn⟩ := hturn
    obtain ⟨w', x', n', hstep, -, -, hgo⟩ := hrefines.step (f := f) (g := g) turn
    exact ⟨turn, w', hstep, hgo hcounts hturn⟩

/-- The loops around `load_from_fd` and `copy_to_fd_host_order` make messages of bytes. For any two programs, however
their turns come and whatever part of a message each call moves, the threads print what the processes print in some
run, and return only where these stop; between the threads no message is lost, doubled, changed or overtaken. -/
theorem pipes_refine (left : Program σ) (right : Program τ) (turns : List Turn) :
    ∃ w₀ w x n, World.start e left right = some w₀ ∧ w₀.run e f g turns = some w ∧
      Agents.Run (talk f g) n ⟨⟨left, [], 0⟩, ⟨right, [], 0⟩, [], []⟩ x ∧
      w.left.printed = x.left.printed ∧ w.right.printed = x.right.printed ∧
      (w.left.point = .returned → x.left.process = .stop) ∧ (w.right.point = .returned → x.right.process = .stop) ∧
      (w.left.point = .returned → w.right.point = .returned →
        w.toLeft = wires e x.toLeft ∧ w.toRight = wires e x.toRight) := by
  obtain ⟨w₀, x₀, n, hstart, hn, h₀⟩ := @World.start_refines e σ τ f g left right
  obtain ⟨w, x, k, hrun, hk, gotL, pendL, gotR, pendR, hL, hR, htoLeft, htoRight⟩ := h₀.run (f := f) (g := g) turns
  refine ⟨w₀, w, x, n + k, hstart, hrun, hn.trans hk, hL.printed, hR.printed, fun hl => (hL.returned hl).1,
    fun hr => (hR.returned hr).1, fun hl hr => ?_⟩
  obtain ⟨-, rfl, rfl⟩ := hL.returned hl
  obtain ⟨-, rfl, rfl⟩ := hR.returned hr
  rw [List.append_nil, List.nil_append] at htoLeft htoRight
  exact ⟨htoLeft, htoRight⟩

end

/-! ### The example -/

/-- What the server prints from beginning to end. -/
def serverLines : List String := ["Server:received: Message::IAmClient", "Server:received: Message::AlarmEnemyDetected",
  "Server:received: Message::EnemyDestroyed", "Server:received: Message::WorkFinished"]

/-- What the client prints from beginning to end. -/
def clientLines : List String := ["Client:received: Message::IAmServer", "Client:received: Message::AttackEnemy",
  "Client:received: Message::GoShutdown"]

/-- The ends of both processes. The server stops after two messages, with two left that it has not received. -/
def finished : Dialogue ServerState ClientState Message String :=
  ⟨⟨.stop, serverLines, 5⟩, ⟨.stop, clientLines, 7⟩, [.enemyDestroyed, .workFinished], []⟩

/-- An order of turns that brings both to their ends. -/
def turnsToFinish : List Agent :=
  [.right] ++ List.replicate 3 .left ++ List.replicate 3 .right ++ List.replicate 6 .left ++ List.replicate 6 .right

theorem runs_to_finish : Agents.Run (talk server client) turnsToFinish.length
    ⟨⟨.await .waitClientAuth, [], 0⟩, ⟨.send .iAmClient (.await .waitServerAuth), [], 0⟩, [], []⟩ finished :=
  .of_play rfl

/-- No interleaving breaks the sequence. Whatever the calls of the two threads move, and in whatever order they come,
no step is undefined, and each thread has printed a first part of its lines and nothing else: neither has received an
unknown message or one that it was not to receive, and no load has failed. -/
theorem emptyMessages_in_sequence (e : Endian) (turns : List Turn) :
    ∃ w₀ w, emptyMessages e = some w₀ ∧ w₀.run e server client turns = some w ∧
      w.left.printed <+: serverLines ∧ w.right.printed <+: clientLines := by
  obtain ⟨w₀, x₀, n, hstart, hn, h₀⟩ := @World.start_refines e _ _ server client (.await .waitClientAuth)
    (.send .iAmClient (.await .waitServerAuth))
  obtain ⟨w, x, k, hrun, hk, h⟩ := h₀.run (f := server) (g := client) turns
  obtain ⟨hleft, hright, -⟩ := h.settles runs_to_finish rfl rfl (hn.trans hk)
  exact ⟨w₀, w, hstart, hrun, hleft, hright⟩

/-- The example comes to its end. Calls move at most 192 bytes in all; as long as a thread has not returned, some
turn moves a byte; and when both have returned they have printed all their lines, 192 bytes have been moved, and the
two last messages of the client are in the pipe to the server, which has answered them without reading them. -/
theorem emptyMessages_finishes (e : Endian) (turns : List Turn) :
    ∃ w₀ w, emptyMessages e = some w₀ ∧ w₀.run e server client turns = some w ∧ w.moved ≤ 192 ∧
      (¬(w.left.point = .returned ∧ w.right.point = .returned) →
        ∃ turn w', w.step e server client turn = some w' ∧ w.moved < w'.moved) ∧
      (w.left.point = .returned → w.right.point = .returned → w.left.printed = serverLines ∧
        w.right.printed = clientLines ∧ w.toLeft = wires e [.enemyDestroyed, .workFinished] ∧ w.toRight = [] ∧
        w.moved = 192) := by
  obtain ⟨w₀, x₀, n, hstart, hn, h₀⟩ := @World.start_refines e _ _ server client (.await .waitClientAuth)
    (.send .iAmClient (.await .waitServerAuth))
  obtain ⟨w, x, k, hrun, hk, h⟩ := h₀.run (f := server) (g := client) turns
  obtain ⟨-, -, hmoved, hends, hgo⟩ := h.settles runs_to_finish rfl rfl (hn.trans hk)
  exact ⟨w₀, w, hstart, hrun, hmoved, hgo, hends⟩

end Ipc

end LeanDson
