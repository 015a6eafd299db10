import LeanDson.Reactions

/-! Conversations. A client makes its requests one by one, loads what has come, and reacts to it before it goes on. In
every order of turns the answers it gets are those to the requests that it has come to make, and its reactions are those
to the answers. -/

namespace LeanDson

namespace StarRouting

/-! ### What is said in answer -/

/-- The id that a message names as its sender. -/
def callerOf (ts : Forest) : Nat :=
  match KeyMap.find Key.routeAddress.key ts with
  | some (.leaf (.words [_, fromCliId, _, _])) => fromCliId
  | _ => 0

def numberOf (ts : Forest) (key : Int) : Nat :=
  match KeyMap.find key ts with
  | some (.leaf (.uint32 n)) => n
  | _ => 0

/-- What the client prints for an answer. -/
def printed : Int × Forest → Option Bytes
  | (k, ts) =>
      if k = Key.authed.key then some (authedLine (callerOf ts))
      else if k = Key.simpleData.key then
        some (simpleDataLine (callerOf ts) (numberOf ts Key.chunkId.key) (stringOf ts Key.stringData.key))
      else none

/-- What the client sends for an answer. -/
def reaction : Int × Forest → Option (Int × Forest)
  | (k, ts) =>
      match KeyMap.find Key.routeAddress.key ts with
      | some (.leaf (.words [fromServId, fromCliId, toServId, toCliId])) =>
          if k = Key.authed.key then
            some (Key.simpleData.key,
              [(Key.routeAddress.key, .leaf (.words [toServId, toCliId, fromServId, fromCliId])),
                (Key.stringData.key, .leaf (.string (echoMessage fromCliId)))])
          else none
      | _ => none

/-- The client does what an answer calls for, and what it sends is a request that can be got done. -/
theorem clientCallback_reacts {e : Endian} {c chunkId : Nat} {r : Request e} (hfrom : r.fromCliId = c)
    (haway : r.toCliId ≠ c) {msg : Message e} (hecho : r.echo chunkId = some (contents msg)) {o : DsonObj}
    (ho : Shows e o msg.key msg.children) (h : Header) (j : Nat → UInt8) :
    ∃ (o' : DsonObj) (react : Option (Request e)),
      clientCallback e h j o = some (o', printed (contents msg), react.map fun r' => r'.obj) ∧
      Shows e o' msg.key msg.children ∧
      reaction (contents msg) = react.map (fun r' => contents r'.toMessage) ∧
      ∀ r' ∈ react, r'.network = true ∧ r'.fromCliId = c ∧ r'.Civil c := by
  have hcontents : contents msg = (msg.key, msg.children) := rfl
  rw [hcontents] at hecho ⊢
  rw [Request.echo] at hecho
  split_ifs at hecho
  · simp only [Option.some.injEq, Prod.mk.injEq] at hecho
    rw [← hecho.1, ← hecho.2] at ho ⊢
    obtain ⟨o', r', hrun, hnetwork, hkey, hfrom', -, hchildren, hr', ho'⟩ :=
      clientCallback_authed (h := h) (j := j) ho hfrom haway
    refine ⟨o', some r', hrun, ho', ?_, fun r'' hr'' => ?_⟩
    · rw [Option.map_some, contents, hkey, hchildren]
      rfl
    · cases hr''
      exact ⟨hnetwork, hfrom', hr'⟩
  · simp only [Option.some.injEq, Prod.mk.injEq] at hecho
    rw [← hecho.1, ← hecho.2] at ho ⊢
    obtain ⟨o', hrun, ho'⟩ := clientCallback_simpleData (h := h) (j := j) ho
    exact ⟨o', none, hrun, ho', rfl, fun r' hr' => by cases hr'⟩

/-! ### Reactions run out -/

section

variable {e : Endian} {c : Nat}

/-- The requests that can be answered by letting the client in. -/
def logins (requests : List (Request e)) : Nat := requests.countP fun r => r.key = Key.wantAuth.key

/-- The answers that call for a reaction. -/
def authed (answers : List (Int × Forest)) : Nat := answers.countP fun p => p.1 = Key.authed.key

theorem authed_serve_le (chunk : Nat → Nat) (requests : List (Request e)) :
    authed (serve c chunk requests) ≤ logins requests := by
  induction requests generalizing chunk with
  | nil => exact Nat.le_refl 0
  | cons r rest ih =>
      have hrest := ih (r.serve c chunk).1
      have hone : authed (r.serve c chunk).2 ≤ logins [r] := by
        rw [Request.serve]
        by_cases hservice : IsService c r.toCliId
        · rw [if_pos hservice]
          cases hecho : r.echo (counted chunk r.toCliId r.toCliId) with
          | none => exact Nat.zero_le _
          | some answer =>
              have hanswer : authed [answer] ≤ logins [r] := by
                rw [Request.echo] at hecho
                split_ifs at hecho with hwant
                · simp only [authed, logins, List.countP_singleton, hwant, decide_true, if_true]
                  split_ifs <;> omega
                · cases hecho
                  simp [authed, Key.key]
              dsimp only
              split_ifs
              · exact hanswer
              · exact Nat.zero_le _
              · exact Nat.zero_le _
        · rw [if_neg hservice]
          exact Nat.zero_le _
      have happend : logins (r :: rest) = logins [r] + logins rest := by
        rw [logins, ← List.singleton_append, List.countP_append]
        rfl
      rw [serve, happend, authed, List.countP_append]
      exact Nat.add_le_add hone hrest

/-- What a reaction is counted down from. -/
def awaited (requests : List (Request e)) (replies : List (Message e)) : Nat :=
  logins requests - authed (replies.map contents)

theorem reaction_eq_some {p q : Int × Forest} (h : reaction p = some q) :
    p.1 = Key.authed.key ∧ q.1 = Key.simpleData.key := by
  obtain ⟨k, ts⟩ := p
  rw [reaction] at h
  split at h
  · split_ifs at h with hauthed
    cases h
    exact ⟨hauthed, rfl⟩
  · cases h

/-- An answer that is got is not awaited any more. -/
theorem awaited_append_le (requests : List (Request e)) (replies : List (Message e)) (msg : Message e) :
    awaited requests (replies ++ [msg]) ≤ awaited requests replies := by
  rw [awaited, awaited, List.map_append, authed, authed, List.countP_append]
  omega

/-- A reaction is not one to a reaction. -/
theorem awaited_append_lt {requests : List (Request e)} {replies : List (Message e)} {msg : Message e} {r : Request e}
    (hreaction : reaction (contents msg) = some (contents r.toMessage))
    (hdue : (replies ++ [msg]).map contents <+: serve c (fun _ => 0) requests) :
    awaited (requests ++ [r]) (replies ++ [msg]) < awaited requests replies := by
  obtain ⟨hauthed, hdata⟩ := reaction_eq_some hreaction
  have hkey : r.key = Key.simpleData.key := hdata
  have hle := (List.IsPrefix.sublist hdue).countP_le (p := fun p => decide (p.1 = Key.authed.key))
  have hserve := authed_serve_le (c := c) (fun _ => 0) requests
  have hone : ([msg].map contents).countP (fun p => decide (p.1 = Key.authed.key)) = 1 := by simp [hauthed]
  have hnone : [r].countP (fun r => decide (r.key = Key.wantAuth.key)) = 0 := by simp [hkey, Key.key]
  rw [authed] at hserve
  rw [List.map_append, List.countP_append, hone] at hle
  rw [awaited, awaited, logins, logins, List.map_append, authed, authed, List.countP_append, List.countP_append, hone,
    hnone]
  rw [logins] at hserve
  omega

end

/-! ### The client's turns -/

/-- The client with the requests that it has not made yet, what it has printed, and the star. -/
structure Client where
  plan : List (DsonObj × Bool)
  lines : List Bytes
  world : World

/-- The client makes its next request, or it loads, or one of the other steps is taken. -/
inductive Turn where
  | ask
  | send (counts : List Nat)
  | round (counts : List Nat) (writes : List (List Nat)) (h : Header) (junk : Nat → UInt8)
  | receive (counts : List Nat) (junk : Nat → UInt8) (h : Header) (j : Nat → UInt8)
  | stop

namespace Client

variable (e : Endian) (depth : Nat)

/-- A load, and `client_callback` when it is ready. -/
def receive (counts : List Nat) (junk : Nat → UInt8) (h : Header) (j : Nat → UInt8) (t : Client) : Option Client := do
  let (r, o, _, fd) ← t.world.answerDson.loadFromFd e junk ⟨counts.map some, t.world.server.output⟩ .empty
  let server := { t.world.server with output := fd.input }
  if r = .ready then
    let (dson, line, answer) ← clientCallback e h j o
    return { t with
      lines := t.lines ++ line.toList
      world := ⟨t.world.outbox ++ answer.toList.map fun x => (x, true), server, Ipc.clear dson,
        t.world.answers ++ [o]⟩ }
  return { t with world := ⟨t.world.outbox, server, o, t.world.answers⟩ }

def turn : Turn → Client → Option Client
  | .ask, t => match t.plan with
      | [] => some t
      | p :: plan => some { t with
          plan := plan
          world := { t.world with outbox := t.world.outbox ++ [p] } }
  | .send counts, t => (t.world.step e depth (.send counts)).map fun w => { t with world := w }
  | .round counts writes h junk, t =>
      (t.world.step e depth (.round counts writes h junk)).map fun w => { t with world := w }
  | .receive counts junk h j, t => t.receive e counts junk h j
  | .stop, t => (t.world.step e depth .stop).map fun w => { t with world := w }

def run : List Turn → Client → Option Client
  | [], t => some t
  | a :: rest, t => (t.turn e depth a).bind (run rest)

/-- Nothing has been sent yet. -/
def start {e : Endian} (plan : List (Request e)) : Client where
  plan := plan.map fun r => (r.obj, r.network)
  lines := []
  world := World.start ([] : List (Request e))

end Client

section

variable {e : Endian} {c : Nat} {plan : List (Request e)}

/-- Another request is made. -/
theorem World.Serves.ask {requests read todo : List (Request e)} {chunk : Nat → Nat} {msgs done rest : List (Message e)}
    {w : World} (hw : w.Serves c requests read todo chunk msgs done rest) (r : Request e) :
    World.Serves c (requests ++ [r]) read (todo ++ [r]) chunk msgs done rest
      { w with outbox := w.outbox ++ [(r.obj, r.network)] } := by
  obtain ⟨got, out, ready, n, hasked⟩ := hw.asked
  refine ⟨by rw [hw.split, List.append_assoc], ⟨got, out ++ r.wire, ready, n, ?_⟩, hw.answered, hw.table,
    hw.returned, fun more => ?_⟩
  · rw [List.map_append, List.map_append]
    exact hasked.append r.toMessage
  · rw [List.append_assoc, List.append_assoc]
    exact hw.sent ([r] ++ more)

/-- Where a conversation has come to: the requests that have been asked of those planned, those made with the reactions
among them, and the answers that the client has. -/
structure Client.Talks (c : Nat) (plan asked left requests : List (Request e)) (replies : List (Message e))
    (t : Client) : Prop where
  serves : ∃ read todo chunk msgs rest, t.world.Serves c requests read todo chunk msgs replies rest
  split : plan = asked ++ left
  planned : t.plan = left.map fun r => (r.obj, r.network)
  first : ∀ r ∈ requests.head?, r.fromCliId = c
  civil : ∀ r ∈ requests, r.Civil c
  order : asked.Sublist requests
  made : (requests.map fun r => contents r.toMessage).Perm
    ((asked.map fun r => contents r.toMessage) ++ (replies.map contents).filterMap reaction)
  lines : t.lines = (replies.map contents).filterMap printed

theorem Client.Talks.asked_eq_nil {asked left : List (Request e)} {replies : List (Message e)} {t : Client}
    (ht : t.Talks c plan asked left [] replies) : asked = [] := List.sublist_nil.mp ht.order

namespace Client

variable {asked left requests : List (Request e)} {replies : List (Message e)} {t : Client}

/-- What is made at last counts as asked or as a reaction. -/
theorem perm_append_singleton {α : Type} {xs ys zs : List α} (h : xs.Perm (ys ++ zs)) (x : α) :
    (xs ++ [x]).Perm (ys ++ [x] ++ zs) := by
  calc (xs ++ [x]).Perm (ys ++ zs ++ [x]) := h.append_right [x]
    _ = ys ++ (zs ++ [x]) := List.append_assoc ys zs [x]
    List.Perm _ (ys ++ ([x] ++ zs)) := List.perm_append_comm.append_left ys
    _ = ys ++ [x] ++ zs := (List.append_assoc ys [x] zs).symm

theorem Talks.ask (ht : t.Talks c plan asked left requests replies) (hfirst : ∀ r ∈ plan.head?, r.fromCliId = c)
    (hcivil : ∀ r ∈ plan, r.Civil c) (depth : Nat) : ∃ t' asked' left' requests', t.turn e depth .ask = some t' ∧
      t'.Talks c plan asked' left' requests' replies ∧ t'.world.server = t.world.server ∧
      (t.plan ≠ [] → t'.plan.length + 1 = t.plan.length ∧ logins requests' ≤ logins requests + 1) := by
  rw [turn]
  cases left with
  | nil =>
      have hplan : t.plan = [] := ht.planned
      refine ⟨t, asked, [], requests, ?_, ht, rfl, fun hne => absurd hplan hne⟩
      rw [hplan]
  | cons r left =>
      obtain ⟨read, todo, chunk, msgs, rest, hserves⟩ := ht.serves
      refine ⟨{ t with
        plan := left.map fun r => (r.obj, r.network)
        world := { t.world with outbox := t.world.outbox ++ [(r.obj, r.network)] } }, asked ++ [r], left,
        requests ++ [r], by rw [ht.planned]; rfl, ⟨⟨_, _, _, _, _, hserves.ask r⟩, ?_, rfl, ?_, ?_,
        ht.order.append (List.Sublist.refl [r]), ?_, ht.lines⟩, rfl, fun _ => ⟨?_, ?_⟩⟩
      · rw [ht.split, List.append_assoc]
        rfl
      · cases requests with
        | nil =>
            obtain rfl := ht.asked_eq_nil
            rintro r' hr'
            exact hfirst r' (by rw [ht.split]; exact hr')
        | cons r₀ requests => exact ht.first
      · intro r' hr'
        rcases List.mem_append.mp hr' with hr' | hr'
        · exact ht.civil r' hr'
        · exact hcivil r' (by rw [ht.split, List.mem_singleton.mp hr']; simp)
      · rw [List.map_append, List.map_append]
        exact perm_append_singleton ht.made _
      · rw [ht.planned]
        rfl
      · rw [logins, logins, List.countP_append]
        have hone := List.countP_le_length (p := fun r => decide (r.key = Key.wantAuth.key)) (l := [r])
        rw [List.length_singleton] at hone
        omega

theorem Talks.receive (ht : t.Talks c plan asked left requests replies) (counts : List Nat) (junk : Nat → UInt8)
    (h : Header) (j : Nat → UInt8) : ∃ t' requests' replies' output, t.receive e counts junk h j = some t' ∧
      t'.Talks c plan asked left requests' replies' ∧ t'.plan = t.plan ∧
      t'.world.server = { t.world.server with output := output } ∧
      (counts = [1] → t.world.server.output ≠ [] → output.length < t.world.server.output.length) ∧
      (t'.world.outbox = t.world.outbox ∧ awaited requests' replies' ≤ awaited requests replies ∨
        awaited requests' replies' < awaited requests replies) := by
  obtain ⟨read, todo, chunk, msgs, rest, hserves⟩ := ht.serves
  obtain ⟨got, out, n, hanswered⟩ := hserves.answered
  obtain ⟨res, o, m, fd, n', hload, hcases⟩ := hanswered.load counts junk
  have hload' : t.world.answerDson.loadFromFd e junk ⟨counts.map some, t.world.server.output⟩ .empty = _ := hload
  rcases hcases with ⟨rfl, got', h'⟩ | ⟨rfl, msg, rest', rfl, hshows, h'⟩
  · have hserves' : World.Serves c requests read todo chunk msgs replies rest ⟨t.world.outbox,
        { t.world.server with output := fd.input }, o, t.world.answers⟩ :=
      ⟨hserves.split, hserves.asked, ⟨got', out, n', h'⟩, hserves.table, hserves.returned, hserves.sent⟩
    refine ⟨{ t with world := ⟨t.world.outbox, { t.world.server with output := fd.input }, o, t.world.answers⟩ },
      requests, replies, fd.input, ?_, ⟨⟨read, todo, chunk, msgs, rest, hserves'⟩, ht.split, ht.planned, ht.first,
        ht.civil, ht.order, ht.made, ht.lines⟩, rfl, rfl, fun hcounts => hanswered.load_lt hload hcounts,
        Or.inl ⟨rfl, Nat.le_refl _⟩⟩
    rw [Client.receive, hload']
    rfl
  · obtain ⟨r, -, hfrom, hservice, chunkId, hecho⟩ := hserves.due (by simp [hanswered.split] : msg ∈ msgs)
    obtain ⟨o', react, hcallback, ho', hreaction, hreact⟩ :=
      clientCallback_reacts hfrom hservice.2.2 hecho hshows h j
    have hrun : t.receive e counts junk h j = some { t with
        lines := t.lines ++ (printed (contents msg)).toList
        world := ⟨t.world.outbox ++ (react.map fun r' => r'.obj).toList.map fun x => (x, true),
          { t.world.server with output := fd.input }, Ipc.clear o', t.world.answers ++ [o]⟩ } := by
      rw [Client.receive, hload']
      simp only [Option.bind_eq_bind, Option.bind_some, hcallback]
      rfl
    have hserves' : World.Serves c requests read todo chunk msgs (replies ++ [msg]) rest' ⟨t.world.outbox,
        { t.world.server with output := fd.input }, Ipc.clear o', t.world.answers ++ [o]⟩ :=
      ⟨hserves.split, hserves.asked, ⟨[], out, n', h'.clear ho'⟩, hserves.table, hserves.returned, hserves.sent⟩
    have hlines : t.lines ++ (printed (contents msg)).toList =
        ((replies ++ [msg]).map contents).filterMap printed := by
      rw [ht.lines, List.map_append, List.filterMap_append]
      rfl
    cases react with
    | none =>
        refine ⟨_, requests, replies ++ [msg], fd.input, hrun, ⟨⟨read, todo, chunk, msgs, rest', ?_⟩, ht.split,
          ht.planned, ht.first, ht.civil, ht.order, ?_, hlines⟩, rfl, rfl,
          fun hcounts => hanswered.load_lt hload hcounts,
          Or.inl ⟨List.append_nil _, awaited_append_le requests replies msg⟩⟩
        · simpa using hserves'
        · have hnone : reaction (contents msg) = none := hreaction
          rw [List.map_append, List.filterMap_append]
          simpa [hnone] using ht.made
    | some r' =>
        obtain ⟨hnetwork, hfrom', hr'⟩ := hreact r' rfl
        have hsome : reaction (contents msg) = some (contents r'.toMessage) := hreaction
        refine ⟨_, requests ++ [r'], replies ++ [msg], fd.input, hrun, ⟨⟨read, todo ++ [r'], chunk, msgs, rest', ?_⟩,
          ht.split, ht.planned, ?_, ?_, ht.order.trans (List.sublist_append_left requests [r']), ?_, hlines⟩, rfl, rfl,
          fun hcounts => hanswered.load_lt hload hcounts,
          Or.inr (awaited_append_lt hsome hserves'.answers.2.2.1)⟩
        · have hasked := hserves'.ask r'
          rw [hnetwork] at hasked
          exact hasked
        · cases requests with
          | nil =>
              intro r'' hr''
              cases hr''
              exact hfrom'
          | cons r₀ requests => exact ht.first
        · intro r'' hr''
          rcases List.mem_append.mp hr'' with hr'' | hr''
          · exact ht.civil r'' hr''
          · rw [List.mem_singleton.mp hr'']
            exact hr'
        · rw [List.map_append, List.map_append, List.filterMap_append]
          have hlast : ([msg].map contents).filterMap reaction = [contents r'.toMessage] := by simp [hsome]
          rw [hlast, ← List.append_assoc]
          exact ht.made.append_right _

theorem Talks.turn (ht : t.Talks c plan asked left requests replies) (hfirst : ∀ r ∈ plan.head?, r.fromCliId = c)
    (hcivil : ∀ r ∈ plan, r.Civil c) (depth : Nat) (a : Turn) : ∃ t' asked' left' requests' replies',
      t.turn e (depth + 2) a = some t' ∧ t'.Talks c plan asked' left' requests' replies' ∧
      (a ≠ .stop → t'.world.server.keepRun = t.world.server.keepRun) := by
  obtain ⟨read, todo, chunk, msgs, rest, hserves⟩ := ht.serves
  cases a with
  | ask =>
      obtain ⟨t', asked', left', requests', hrun, ht', hserver, -⟩ := ht.ask hfirst hcivil (depth + 2)
      exact ⟨t', asked', left', requests', replies, hrun, ht', fun _ => by rw [hserver]⟩
  | send counts =>
      obtain ⟨w, hrun, hkeep, hw⟩ := hserves.send counts
      refine ⟨{ t with world := w }, asked, left, requests, replies, ?_, ⟨⟨_, _, _, _, _, hw⟩, ht.split, ht.planned,
        ht.first, ht.civil, ht.order, ht.made, ht.lines⟩, fun _ => hkeep⟩
      rw [Client.turn, World.step, hrun]
      rfl
  | round counts writes h junk =>
      obtain ⟨server, read', todo', chunk', msgs', rest', hrun, hkeep, -, hw⟩ :=
        hserves.round (h := h) (j := junk) ht.first ht.civil depth counts writes
      refine ⟨{ t with world := { t.world with server := server } }, asked, left, requests, replies, ?_,
        ⟨⟨_, _, _, _, _, hw⟩, ht.split, ht.planned, ht.first, ht.civil, ht.order, ht.made, ht.lines⟩, fun _ => hkeep⟩
      rw [Client.turn, World.step, hrun]
      rfl
  | receive counts junk h j =>
      obtain ⟨t', requests', replies', output, hrun, ht', -, hserver, -⟩ := ht.receive counts junk h j
      exact ⟨t', asked, left, requests', replies', hrun, ht', fun _ => by rw [hserver]⟩
  | stop =>
      exact ⟨_, asked, left, requests, replies, rfl, ⟨⟨read, todo, chunk, msgs, rest, hserves.split, hserves.asked,
        hserves.answered, hserves.table, hserves.returned, hserves.sent⟩, ht.split, ht.planned, ht.first, ht.civil,
        ht.order, ht.made, ht.lines⟩, fun hne => absurd rfl hne⟩

theorem Talks.run (ht : t.Talks c plan asked left requests replies) (hfirst : ∀ r ∈ plan.head?, r.fromCliId = c)
    (hcivil : ∀ r ∈ plan, r.Civil c) (depth : Nat) (turns : List Turn) : ∃ t' asked' left' requests' replies',
      t.run e (depth + 2) turns = some t' ∧ t'.Talks c plan asked' left' requests' replies' ∧
      (Turn.stop ∉ turns → t'.world.server.keepRun = t.world.server.keepRun) := by
  induction turns generalizing t asked left requests replies with
  | nil => exact ⟨t, asked, left, requests, replies, rfl, ht, fun _ => rfl⟩
  | cons a turns ih =>
      obtain ⟨t', asked', left', requests', replies', hturn, ht', hkeep⟩ := ht.turn hfirst hcivil depth a
      obtain ⟨t'', asked'', left'', requests'', replies'', hrun, ht'', hkeep'⟩ := ih ht'
      refine ⟨t'', asked'', left'', requests'', replies'', ?_, ht'', fun hnot => ?_⟩
      · rw [Client.run, hturn]
        exact hrun
      · rw [List.mem_cons, not_or] at hnot
        exact (hkeep' hnot.2).trans (hkeep (Ne.symm hnot.1))

theorem start_talks (c : Nat) (plan : List (Request e)) : (start plan).Talks c plan [] plan [] [] := by
  obtain ⟨read, todo, chunk, msgs, done, rest, hserves⟩ := World.start_serving (c := c) ([] : List (Request e))
  obtain ⟨got, out, n, hanswered⟩ := hserves.answered
  obtain rfl := List.forall₂_nil_right_iff.mp hanswered.shown
  exact ⟨⟨read, todo, chunk, msgs, rest, hserves⟩, rfl, rfl, by simp, by simp, List.Sublist.refl [],
    List.Perm.refl [], rfl⟩

end Client

end

/-- A conversation. In whatever order a client that makes its requests one by one takes its turns with the star, and
whatever is read and written at a time: besides those it has asked for itself, the client has made the requests that are
its reactions to the answers, each once and no other; the answers are those to the requests in the order they were made,
from the first on; and it has printed what the answers say. When nothing is on its way, and nothing more is planned, it
has all the answers, those to its reactions among them. -/
theorem star_converses {e : Endian} {c : Nat} (plan : List (Request e)) (hfirst : ∀ r ∈ plan.head?, r.fromCliId = c)
    (hcivil : ∀ r ∈ plan, r.Civil c) (depth : Nat) (turns : List Turn) :
    ∃ (t : Client) (asked requests : List (Request e)) (replies : List (Message e)),
      (Client.start plan).run e (depth + 2) turns = some t ∧ t.world.server.returned = false ∧ asked <+: plan ∧
      asked.Sublist requests ∧
      (requests.map fun r => contents r.toMessage).Perm
        ((asked.map fun r => contents r.toMessage) ++ (replies.map contents).filterMap reaction) ∧
      List.Forall₂ (Delivered e) replies t.world.answers ∧ replies.map contents <+: serve c (fun _ => 0) requests ∧
      t.lines = (replies.map contents).filterMap printed ∧
      (t.world.Quiet → t.plan = [] → asked = plan ∧ replies.map contents = serve c (fun _ => 0) requests) := by
  obtain ⟨t, asked, left, requests, replies, hrun, ht, -⟩ :=
    (Client.start_talks c plan).run hfirst hcivil depth turns
  obtain ⟨read, todo, chunk, msgs, rest, hserves⟩ := ht.serves
  obtain ⟨hreturned, hdelivered, hdue, hall⟩ := hserves.answers
  refine ⟨t, asked, requests, replies, hrun, hreturned, ⟨left, ht.split.symm⟩, ht.order, ht.made, hdelivered, hdue,
    ht.lines, fun hquiet hplan => ⟨?_, hall hquiet⟩⟩
  obtain rfl := List.map_eq_nil_iff.mp (ht.planned.symm.trans hplan)
  rw [ht.split, List.append_nil]

/-- One request that is answered leads to an answer. -/
theorem answers_ne_nil {e : Endian} {c : Nat} {r : Request e} {requests : List (Request e)} {replies : List (Message e)}
    {answers : List DsonObj} (hserve : serve c (fun _ => 0) [r] ≠ []) (hsub : [r].Sublist requests)
    (hmade : (requests.map fun r => contents r.toMessage).Perm
      (([r].map fun r => contents r.toMessage) ++ (replies.map contents).filterMap reaction))
    (hdelivered : List.Forall₂ (Delivered e) replies answers)
    (hdue : replies.map contents = serve c (fun _ => 0) requests) : answers ≠ [] := by
  rintro rfl
  obtain rfl := List.forall₂_nil_right_iff.mp hdelivered
  -- without an answer there is no reaction, and the request is the only one
  have hlength : requests.length = 1 := by simpa using hmade.length_eq
  obtain rfl := hsub.eq_of_length hlength.symm
  exact hserve hdue.symm

/-- A client that logs in is served whatever the turns are, and at the end it has been told of everything. -/
theorem star_converses_sample : ∃ r : Request .little, ∀ turns, ∃ t : Client,
    (Client.start [r]).run .little 2 turns = some t ∧ t.world.server.returned = false ∧
      (t.world.Quiet → t.plan = [] → t.world.answers ≠ []) := by
  obtain ⟨r, hfrom, hcivil, hserve⟩ := login_served
  refine ⟨r, fun turns => ?_⟩
  obtain ⟨t, asked, requests, replies, hrun, hreturned, -, hsub, hmade, hdelivered, -, -, hall⟩ :=
    star_converses (c := 12345) [r] (by simp [hfrom]) (by simpa using hcivil) 0 turns
  refine ⟨t, hrun, hreturned, fun hquiet hplan => ?_⟩
  obtain ⟨rfl, hdue⟩ := hall hquiet hplan
  exact answers_ne_nil (by simp [hserve]) hsub hmade hdelivered hdue

end StarRouting

end LeanDson
