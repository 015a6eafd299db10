import LeanDson.Completion

/-! What a client does with an answer. To the answer that lets it in it reacts with data for the service that has let it
in, and the answer to data it prints. So every reaction is a request that the star gets done. -/

namespace LeanDson

namespace StarRouting

/-- What a client sends to a service that has let it in. -/
def echoMessage (fromCliId : Nat) : Bytes := text "echo message for " ++ decimal fromCliId

def authedLine (fromCliId : Nat) : Bytes := text "Message::Authed from " ++ decimal fromCliId

def simpleDataLine (fromCliId chunkId : Nat) (s : Bytes) : Bytes :=
  text "Message::SimpleData from " ++ decimal fromCliId ++ text " chunk\x7b" ++ decimal chunkId ++
    text "\x7d, string\x7b" ++ s

variable (e : Endian)

/-- `to_uint32` of what `get` finds, 0 for a null pointer. -/
def uint32At (key : Int) (o : DsonObj) (m : Mem) : Option (Nat × DsonObj × Mem) := do
  let (f, o, m) ← o.get e key m
  match f with
  | .null => return (0, o, m)
  | .self => o.toUInt32 e 0 m
  | .child key => o.onChild key (DsonObj.toUInt32 e 0) m

/-- `client_callback`: the message as it was left, the line that is printed, and what is to be sent. -/
def clientCallback (h : Header) (junk : Nat → UInt8) (dson : DsonObj) :
    Option (DsonObj × Option Bytes × Option DsonObj) := do
  let (address, dson, _) ← addressAt e Key.routeAddress.key dson .empty
  let (answer, _) ← DsonObj.emplacePtr e (routeBack e address) (.empty e) .empty
  let fromCliId := address.fromCliId.toNat e
  let key ← dson.key e .empty
  if key = Key.authed.key then
    let (answer, _) ← answer.setKey e .empty Key.simpleData.key
    let data ← DsonObj.ofString e h junk (echoMessage fromCliId)
    let (answer, _) ← DsonObj.emplace e Key.stringData.key data answer .empty
    return (dson, some (authedLine fromCliId), some answer)
  else if key = Key.simpleData.key then
    let (chunkId, dson, _) ← uint32At e Key.chunkId.key dson .empty
    let (s, dson, _) ← stringAt e Key.stringData.key dson .empty
    return (dson, some (simpleDataLine fromCliId chunkId s), none)
  else return (dson, none, none)

section

variable {e : Endian}

theorem toUInt32_of_readTyped {o o' : DsonObj} {m m' : Mem} {n : Nat}
    (hread : readTyped e (.uint32 0) o m = some (.value (some (.uint32 n)), o', m')) :
    o.toUInt32 e 0 m = some (n, o', m') := by
  rw [readTyped] at hread
  simp only [Option.bind_eq_bind, Option.bind_eq_some_iff] at hread
  obtain ⟨type, -, hread⟩ := hread
  split_ifs at hread
  · rw [Reading.run, Option.map_map, Option.map_eq_some_iff] at hread
    obtain ⟨⟨n', o₁, m₁⟩, hrun, heq⟩ := hread
    cases heq
    exact hrun
  · simp at hread

/-- A message leads to its numbers. -/
theorem uint32At_of_shows {o : DsonObj} {k key : Int} {ts : Forest} {n : Nat} (ho : Shows e o k ts)
    (hfind : KeyMap.find key ts = some (.leaf (.uint32 n))) (m : Mem) :
    ∃ o', uint32At e key o m = some (n, o', m) ∧ Shows e o' k ts := by
  obtain ⟨o', hlook, ho'⟩ := ho.look key (.uint32 0) m
  have hanswer : ts.answer key (.uint32 0) = .value (some (.uint32 n)) := by
    rw [Forest.answer, hfind]
    rfl
  rw [hanswer, look] at hlook
  simp only [Option.bind_eq_bind, Option.bind_eq_some_iff] at hlook
  obtain ⟨⟨f, o₁, m₁⟩, hget, hread⟩ := hlook
  refine ⟨o', ?_, ho'⟩
  rw [uint32At, hget]
  cases f with
  | null => simp at hread
  | self => exact toUInt32_of_readTyped hread
  | child key =>
      obtain ⟨_, rfl, hrun⟩ := onChild_of (P := fun x => x = n) (g := DsonObj.toUInt32 e 0) hread
        fun _ _ _ _ _ _ _ _ hf => ⟨n, rfl, toUInt32_of_readTyped hf⟩
      exact hrun

theorem exists_of_forall₂ {α β : Type} {R : α → β → Prop} {xs : List α} {ys : List β} (h : List.Forall₂ R xs ys) {y : β}
    (hy : y ∈ ys) : ∃ x ∈ xs, R x y := by
  induction h with
  | nil => cases hy
  | cons hr _ ih =>
      rcases List.mem_cons.mp hy with rfl | hy
      · exact ⟨_, List.mem_cons_self, hr⟩
      · obtain ⟨x, hx, hr'⟩ := ih hy
        exact ⟨x, List.mem_cons_of_mem _ hx, hr'⟩

theorem echoMessage_ne_nil (fromCliId : Nat) : echoMessage fromCliId ≠ [] := by
  have htext : text "echo message for " ≠ [] := by decide
  simp [echoMessage, htext]

theorem echoMessage_length {fromCliId : Nat} (hfrom : fromCliId < 2 ^ 32) : (echoMessage fromCliId).length ≤ 27 := by
  have htext : (text "echo message for ").length = 17 := by decide
  have hle := decimal_length hfrom
  simp only [echoMessage, List.length_append]
  omega

variable {c : Nat} {h : Header} {j : Nat → UInt8}

/-- What is sent to a client comes from a service it has called. -/
theorem mem_serve {chunk : Nat → Nat} {requests : List (Request e)} {p : Int × Forest}
    (hp : p ∈ serve c chunk requests) :
    ∃ r ∈ requests, r.fromCliId = c ∧ IsService c r.toCliId ∧ ∃ chunkId, r.echo chunkId = some p := by
  induction requests generalizing chunk with
  | nil => cases hp
  | cons r rest ih =>
      rw [serve, List.mem_append] at hp
      rcases hp with hp | hp
      · rw [Request.serve] at hp
        by_cases hservice : IsService c r.toCliId
        · rw [if_pos hservice] at hp
          cases hecho : r.echo (counted chunk r.toCliId r.toCliId) with
          | none =>
              rw [hecho] at hp
              exact absurd hp List.not_mem_nil
          | some answer =>
              rw [hecho] at hp
              dsimp only at hp
              split_ifs at hp with hfrom
              · obtain rfl := List.mem_singleton.mp hp
                exact ⟨r, List.mem_cons_self, hfrom, hservice, _, hecho⟩
              · exact absurd hp List.not_mem_nil
              · exact absurd hp List.not_mem_nil
        · rw [if_neg hservice] at hp
          exact absurd hp List.not_mem_nil
      · obtain ⟨r', hr', hfound⟩ := ih hp
        exact ⟨r', List.mem_cons_of_mem _ hr', hfound⟩

/-- What the server has sent is due to a request. -/
theorem World.Serves.due {requests read todo : List (Request e)} {chunk : Nat → Nat} {msgs done rest : List (Message e)}
    {w : World} (hw : w.Serves c requests read todo chunk msgs done rest) {msg : Message e} (hmsg : msg ∈ msgs) :
    ∃ r ∈ requests, r.fromCliId = c ∧ IsService c r.toCliId ∧ ∃ chunkId, r.echo chunkId = some (contents msg) := by
  have hsent := hw.sent []
  rw [List.append_nil, List.append_nil] at hsent
  exact mem_serve (hsent ▸ List.mem_append_left _ (List.mem_map_of_mem hmsg))

/-- An answer tells the address of the service. -/
theorem addressAt_back {r : Request e} {o : DsonObj} {k : Int} {ts : Forest} (ho : Shows e o k (r.back :: ts)) :
    ∃ a o', addressAt e Key.routeAddress.key o .empty = some (a, o', .empty) ∧ Shows e o' k (r.back :: ts) ∧
      a.fromCliId.toNat e = r.toCliId ∧ Address.words e ⟨a.toServId, a.toCliId, a.fromServId, a.fromCliId⟩ =
        [r.fromServId, r.fromCliId, r.toServId, r.toCliId] := by
  have hroute : KeyMap.find Key.routeAddress.key (r.back :: ts) =
      some (.leaf (.words [r.toServId, r.toCliId, r.fromServId, r.fromCliId])) := if_pos rfl
  obtain ⟨a, o', hwords, haddress, ho'⟩ := ho.addressAt hroute .empty
  rw [Address.words] at hwords
  simp only [List.cons.injEq, and_true] at hwords
  obtain ⟨hfs, hfc, hts, htc⟩ := hwords
  exact ⟨a, o', haddress, ho', hfc, by rw [Address.words, hfs, hfc, hts, htc]⟩

/-- A client that is let in reacts with a request. -/
theorem clientCallback_authed {r : Request e} {o : DsonObj} (ho : Shows e o Key.authed.key [r.back])
    (hfrom : r.fromCliId = c) (haway : r.toCliId ≠ c) :
    ∃ (o' : DsonObj) (r' : Request e),
      clientCallback e h j o = some (o', some (authedLine r.toCliId), some r'.obj) ∧ r'.network = true ∧
      r'.key = Key.simpleData.key ∧ r'.fromCliId = c ∧ r'.toCliId = r.toCliId ∧
      r'.children = [(Key.routeAddress.key, .leaf (.words [r.fromServId, r.fromCliId, r.toServId, r.toCliId])),
        (Key.stringData.key, .leaf (.string (echoMessage r.toCliId)))] ∧
      r'.Civil c ∧ Shows e o' Key.authed.key [r.back] := by
  obtain ⟨a, o₁, haddress, ho₁, hfc, hback⟩ := addressAt_back ho
  obtain ⟨x, hnew, hx⟩ := underway_new (e := e) ⟨a.toServId, a.toCliId, a.fromServId, a.fromCliId⟩
  rw [hback] at hx
  have hlen := echoMessage_length (hfc ▸ a.fromCliId.toNat_lt e)
  obtain ⟨x₁, hset, hx₁⟩ := hx.setKey (by decide : IsInt32 Key.simpleData.key)
  obtain ⟨d, hd, -⟩ := holds_ofString (e := e) h j (echoMessage_ne_nil r.toCliId) (by omega)
  obtain ⟨x₂, hput, hx₂⟩ := hx₁.emplace (.string (echoMessage_ne_nil r.toCliId) (by omega) hd)
    (by decide : IsInt32 Key.stringData.key) (by decide)
  have hsize : Forest.size [(Key.routeAddress.key, .leaf (.words [r.fromServId, r.fromCliId, r.toServId, r.toCliId])),
      (Key.stringData.key, .leaf (.string (echoMessage r.toCliId)))] + 128 ≤ 2 ^ 30 := by
    simp only [Forest.size, Tree.size, Value.size, headerSize, List.length_cons, List.length_nil]
    omega
  refine ⟨o₁, ⟨⟨x₂, true, Key.simpleData.key,
    [(Key.routeAddress.key, .leaf (.words [r.fromServId, r.fromCliId, r.toServId, r.toCliId])),
      (Key.stringData.key, .leaf (.string (echoMessage r.toCliId)))], hx₂.built, by simp [Key.key],
    by simp [Value.Plain], by omega⟩, r.fromServId, r.fromCliId, r.toServId, r.toCliId, rfl⟩, ?_, rfl, rfl, hfrom, rfl,
    rfl, ⟨haway, fun _ _ hservice => hservice.2.2 hfrom, hsize⟩, ho₁⟩
  rw [clientCallback, haddress]
  simp only [Option.bind_eq_bind, Option.bind_some, routeBack, hnew, ho₁.key, hfc]
  rw [if_pos trivial]
  simp only [hset, hd, hput, Option.bind_some]
  rfl

/-- Data the client prints. -/
theorem clientCallback_simpleData {r : Request e} {o : DsonObj} {chunkId : Nat} {s : Bytes}
    (ho : Shows e o Key.simpleData.key
      [r.back, (Key.chunkId.key, .leaf (.uint32 chunkId)), (Key.stringData.key, .leaf (.string s))]) :
    ∃ o', clientCallback e h j o = some (o', some (simpleDataLine r.toCliId chunkId s), none) ∧
      Shows e o' Key.simpleData.key
        [r.back, (Key.chunkId.key, .leaf (.uint32 chunkId)), (Key.stringData.key, .leaf (.string s))] := by
  obtain ⟨a, o₁, haddress, ho₁, hfc, -⟩ := addressAt_back ho
  obtain ⟨x, hnew, -⟩ := underway_new (e := e) ⟨a.toServId, a.toCliId, a.fromServId, a.fromCliId⟩
  have hfind : KeyMap.find Key.chunkId.key [r.back, (Key.chunkId.key, .leaf (.uint32 chunkId)),
      (Key.stringData.key, .leaf (.string s))] = some (.leaf (.uint32 chunkId)) := rfl
  obtain ⟨o₂, hchunk, ho₂⟩ := uint32At_of_shows ho₁ hfind .empty
  obtain ⟨o₃, hstring, ho₃⟩ := ho₂.stringAt Key.stringData.key .empty
  refine ⟨o₃, ?_, ho₃⟩
  rw [clientCallback, haddress]
  simp only [Option.bind_eq_bind, Option.bind_some, routeBack, hnew, ho₁.key, hfc]
  rw [if_neg (by decide), if_pos trivial]
  simp only [hchunk, hstring, Option.bind_some]
  rfl

end

/-- The client reacts. In every run, every answer that it has loaded is one to a request it has made to a service.
Having been let in, it sends that service a message of its own, which is again a request that the star gets done; data
it prints, with the text of its request in it. -/
theorem star_reacts {e : Endian} {c : Nat} (requests : List (Request e))
    (hfirst : ∀ r ∈ requests.head?, r.fromCliId = c) (hcivil : ∀ r ∈ requests, r.Civil c) {depth : Nat}
    {steps : List Step} {w : World} (hw : (World.start requests).run e (depth + 2) steps = some w) (h : Header)
    (j : Nat → UInt8) : ∀ o ∈ w.answers, ∃ r ∈ requests, r.fromCliId = c ∧ IsService c r.toCliId ∧ ∃ o' : DsonObj,
      (r.key = Key.wantAuth.key ∧ ∃ r' : Request e,
        clientCallback e h j o = some (o', some (authedLine r.toCliId), some r'.obj) ∧ r'.network = true ∧
        r'.key = Key.simpleData.key ∧ r'.fromCliId = c ∧ r'.toCliId = r.toCliId ∧
        stringOf r'.children Key.stringData.key = echoMessage r.toCliId ∧ r'.Civil c) ∨
      (r.key = Key.simpleData.key ∧ ∃ chunkId, clientCallback e h j o = some (o', some (simpleDataLine r.toCliId chunkId
        (received r.toCliId c (stringOf r.children Key.stringData.key))), none)) := by
  intro o ho
  obtain ⟨w', hrun, hserving, -⟩ := (World.start_serving requests).run hfirst hcivil depth steps
  rw [hw] at hrun
  cases hrun
  obtain ⟨read, todo, chunk, msgs, done, rest, hserves⟩ := hserving
  obtain ⟨got, out, n, hanswered⟩ := hserves.answered
  obtain ⟨msg, hmsg, hshows⟩ := exists_of_forall₂ hanswered.shown ho
  obtain ⟨r, hr, hfrom, hservice, chunkId, hecho⟩ := hserves.due (by simp [hanswered.split, hmsg] : msg ∈ msgs)
  refine ⟨r, hr, hfrom, hservice, ?_⟩
  rw [Request.echo] at hecho
  split_ifs at hecho with hwant hpassword hdata
  · simp only [contents, Option.some.injEq, Prod.mk.injEq] at hecho
    rw [← hecho.1, ← hecho.2] at hshows
    obtain ⟨o', r', hrun, hnetwork, hkey, hfrom', hto, hchildren, hr', -⟩ :=
      clientCallback_authed (h := h) (j := j) hshows hfrom hservice.2.2
    exact ⟨o', Or.inl ⟨hwant, r', hrun, hnetwork, hkey, hfrom', hto, by rw [hchildren]; rfl, hr'⟩⟩
  · simp only [contents, Option.some.injEq, Prod.mk.injEq] at hecho
    rw [← hecho.1, ← hecho.2, hfrom] at hshows
    obtain ⟨o', hrun, -⟩ := clientCallback_simpleData (h := h) (j := j) hshows
    exact ⟨o', Or.inr ⟨hdata, chunkId, hrun⟩⟩

/-- The client prints something when it has logged in. -/
theorem star_reacts_sample : ∃ (w : World) (o o' : DsonObj) (line : Bytes) (react : Option DsonObj), o ∈ w.answers ∧
    clientCallback .little (Dson.clearHeader .little) (fun _ => 0) o = some (o', some line, react) := by
  obtain ⟨r, hfrom, hcivil, hserve⟩ := login_served
  have hfirst : ∀ r' ∈ [r].head?, r'.fromCliId = 12345 := by simp [hfrom]
  have hall : ∀ r' ∈ [r], r'.Civil 12345 := by simpa using hcivil
  have hstart : (World.start [r]).Running 12345 [r] := ⟨World.start_serving [r], rfl⟩
  obtain ⟨steps, w, -, hrun, hw, hquiet⟩ := hstart.completes hfirst hall 0
  obtain ⟨replies, -, hdelivered, -, hanswers⟩ := hw.1.answers
  have hlength := congrArg List.length (hanswers hquiet)
  rw [hserve, List.length_map, hdelivered.length_eq] at hlength
  obtain ⟨o, ho⟩ := List.length_eq_one_iff.mp hlength
  have hmem : o ∈ w.answers := by simp [ho]
  obtain ⟨r₁, -, -, -, o', ⟨-, r', hreact, -⟩ | ⟨-, chunkId, hreact⟩⟩ :=
    star_reacts [r] hfirst hall hrun (Dson.clearHeader .little) (fun _ => 0) o hmem
  · exact ⟨w, o, o', _, _, hmem, hreact⟩
  · exact ⟨w, o, o', _, _, hmem, hreact⟩

end StarRouting

end LeanDson
