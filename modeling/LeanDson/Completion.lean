import LeanDson.Rounds

/-! Completion. A client and the star can always go on until nothing is on its way: the client sends what it has to
send, the server reads it, the server writes what is in its queue, and the client reads that. In each of the four phases
every step moves at least a byte. -/

namespace LeanDson

open StarRouting

/-! ### Copies that move something -/

section

variable {e : Endian} {msgs done todo : List (Message e)} {got out channel : Bytes} {outbox : List (DsonObj × Bool)}
  {inbox : DsonObj} {ready : List DsonObj} {n : Nat}

/-- How much is still to come from objects that are to be sent. -/
def leftToSend (e : Endian) (outbox : List (DsonObj × Bool)) : Nat :=
  (outbox.flatMap fun p => p.1.pending e p.2).length

theorem Sending.length_eq (h : Sending e outbox out) : out.length = leftToSend e outbox := by
  cases outbox with
  | nil =>
      have hnil : out = [] := h
      rw [hnil]
      rfl
  | cons p rest =>
      obtain ⟨o, network⟩ := p
      obtain ⟨-, hrest, rfl⟩ := h
      have hpend : rest.flatMap (fun p => p.1.wire e p.2) = rest.flatMap fun p => p.1.pending e p.2 := by
        apply List.flatMap_congr
        intro p hp
        obtain ⟨k, t, ho, -⟩ := hrest p hp
        exact (ho.pending p.2).symm
      rw [hpend]
      rfl

/-- A copy that may write a byte writes one. -/
theorem Link.Carrying.copy_ne_nil {o o' : DsonObj} {network : Bool} {r : Result} {m : Mem} {fd : FdOut}
    (h : Carrying msgs done todo got out ⟨(o, network) :: outbox, channel, inbox, ready, n, false⟩)
    (hcopy : o.copyTo e network .empty (FdOut.fresh [some 1]) = some (r, o', m, fd)) : fd.out ≠ [] := by
  obtain ⟨⟨k, t, ho, hlt⟩, -, -⟩ := h.sending
  obtain ⟨r', o'', fd', hrun, -, bs, -, hwritten, hcases⟩ := ho.copyTo hlt network .empty (FdOut.fresh [some 1])
  have heq := hrun.symm.trans hcopy
  cases heq
  have hfd : fd.out = bs := hwritten
  rw [hfd]
  rcases hcases with ⟨-, -, hpend⟩ | ⟨-, -, -, heager, -⟩ | ⟨-, hunwilling, -⟩
  · rw [← hpend]
    exact ho.pending_ne_nil network
  · apply heager
    intro bs hbs s hw
    have hlen := List.length_pos_of_ne_nil hbs
    have hzero : min 1 bs.length = 0 := Option.some_inj.mp (congrArg Prod.fst hw)
    omega
  · exact absurd (by simp [ByteSink.Willing, FdOut.fresh]) hunwilling

/-- What has come into the channel is not to come any more. -/
theorem Link.Carrying.left_lt {s : Link} {outbox' : List (DsonObj × Bool)} {bs out' : Bytes}
    (h : Carrying msgs done todo got out s)
    (h' : Carrying msgs done todo got out' { s with
      outbox := outbox'
      channel := s.channel ++ bs }) (hbs : bs ≠ []) : leftToSend e outbox' < leftToSend e s.outbox := by
  have hbytes := congrArg List.length (h.bytes.trans h'.bytes.symm)
  have hlen := List.length_pos_of_ne_nil hbs
  have hout := h.sending.length_eq
  have hout' := h'.sending.length_eq
  simp only [List.length_append] at hbytes hout'
  rw [← hout, ← hout']
  omega

/-- The loop over a queue writes something when its first copy may. -/
theorem Link.Carrying.sendQueue_ne_nil {queue queue' : List DsonObj} {failed : Bool} {bs : Bytes}
    {writes : List (List Nat)}
    (h : Carrying msgs done todo got out ⟨queue.map fun o => (o, true), channel, inbox, ready, n, false⟩)
    (hne : queue ≠ []) (hrun : StarRouting.sendQueue e queue [[1]] = some (queue', failed, bs, writes)) : bs ≠ [] := by
  cases queue with
  | nil => exact absurd rfl hne
  | cons o rest =>
      obtain ⟨r, o', m, fd, out', hcopy, hr, -⟩ := h.copy [1]
      have hfd := h.copy_ne_nil hcopy
      rw [StarRouting.sendQueue] at hrun
      simp only [List.headD_cons, hcopy, Option.bind_eq_bind, Option.bind_some] at hrun
      cases r with
      | error => exact absurd rfl hr
      | inProcess =>
          cases hrun
          exact hfd
      | ready =>
          obtain ⟨⟨queue₁, failed₁, bs₁, writes₁⟩, -, heq⟩ := Option.bind_eq_some_iff.mp hrun
          cases heq
          exact fun hnil => hfd (List.append_eq_nil_iff.mp hnil).1

end

namespace StarRouting

/-! ### Steps that move something -/

section

variable {e : Endian} {c : Nat} {requests read todo : List (Request e)} {chunk : Nat → Nat}
  {msgs done rest : List (Message e)} {w w' : World}

theorem World.Serves.send_lt (hw : w.Serves c requests read todo chunk msgs done rest) (hne : w.outbox ≠ [])
    (hrun : w.send e [1] = some w') : leftToSend e w'.outbox < leftToSend e w.outbox := by
  rw [World.send] at hrun
  cases hout : w.outbox with
  | nil => exact absurd hout hne
  | cons p outbox =>
      obtain ⟨o, network⟩ := p
      obtain ⟨got, out, ready, n, hasked⟩ := hw.asked
      rw [hout] at hasked hrun
      obtain ⟨r, o', m, fd, out', hcopy, -, hasked'⟩ := hasked.copy [1]
      have hcopy' : o.copyTo e network .empty (FdOut.fresh [some 1]) = _ := hcopy
      simp only [List.map_cons, List.map_nil, hcopy', Option.bind_eq_bind, Option.bind_some, Option.pure_def,
        Option.some.injEq] at hrun
      rw [← hrun]
      exact hasked.left_lt hasked' (hasked.copy_ne_nil hcopy)

theorem World.Serves.receive_lt (hw : w.Serves c requests read todo chunk msgs done rest) (hne : w.server.output ≠ [])
    {junk : Nat → UInt8} (hrun : w.receive e [1] junk = some w') :
    w'.outbox = w.outbox ∧ w'.server.input = w.server.input ∧ w'.server.writeDeque = w.server.writeDeque ∧
      w'.server.output.length < w.server.output.length := by
  obtain ⟨got, out, n, hanswered⟩ := hw.answered
  rw [World.receive] at hrun
  simp only [Option.bind_eq_bind, Option.bind_eq_some_iff, Option.pure_def] at hrun
  obtain ⟨⟨r, o, m, fd⟩, hload, hrun⟩ := hrun
  have hlt := hanswered.load_lt hload rfl hne
  dsimp only at hrun
  split_ifs at hrun
  · cases hrun
    exact ⟨rfl, rfl, rfl, hlt⟩
  · cases hrun
    exact ⟨rfl, rfl, rfl, hlt⟩

/-- When everything has been read a round of the server writes some of what is in its queue. -/
theorem World.Serves.flush (hw : w.Serves c requests read [] chunk msgs done rest) (hkeep : w.server.keepRun = true)
    (hne : w.server.writeDeque ≠ []) (h : Header) (junk : Nat → UInt8) (depth : Nat) :
    ∃ server, Server.round e h junk depth [] { w.server with writes := [[1]] } = some server ∧
      server.keepRun = true ∧ server.input = [] ∧
      World.Serves c requests read [] chunk msgs done rest { w with server := server } ∧
      leftToSend e (server.writeDeque.map fun o => (o, true)) <
        leftToSend e (w.server.writeDeque.map fun o => (o, true)) := by
  obtain ⟨gotL, outL, ready, n, hasked⟩ := hw.asked
  obtain ⟨gotR, outR, n', hanswered⟩ := hw.answered
  obtain ⟨r, o, m, fd, k, hload, ⟨rfl, got', h'⟩ | ⟨-, msg, todo', htodo, -⟩⟩ := hasked.load [] junk
  · obtain ⟨queue, bs, writes, out', hqueue, hs'⟩ := hanswered.sendQueue [[1]]
    have hbs : bs ≠ [] := hanswered.sendQueue_ne_nil hne hqueue
    have hinput : fd.input = [] := (List.append_eq_nil_iff.mp (List.append_eq_nil_iff.mp h'.bytes).2).1
    refine ⟨{ w.server with
      dson := o
      input := fd.input
      writeDeque := queue
      keepRun := w.server.keepRun && !false
      output := w.server.output ++ bs
      writes := writes }, ?_, by simp [hkeep], hinput, ⟨hw.split, ⟨got', outL, ready, k, h'⟩, ⟨gotR, out', n', hs'⟩,
        hw.table, hw.returned, hw.sent⟩, hanswered.left_lt hs' hbs⟩
    rw [Server.round, if_neg (by simp [hkeep, hw.returned])]
    simp only [hload, Option.bind_eq_bind, Option.bind_some]
    rw [Server.sendDsonFromDeque, hqueue]
    rfl
  · cases htodo

end

/-! ### Phases -/

theorem World.run_append {e : Endian} {depth : Nat} (steps more : List Step) (w : World) :
    w.run e depth (steps ++ more) = (w.run e depth steps).bind (World.run e depth more) := by
  induction steps generalizing w with
  | nil => rfl
  | cons a steps ih =>
      rw [List.cons_append, World.run, World.run, Option.bind_assoc]
      congr 1
      funext w'
      exact ih w'

/-- A phase: as long as its end has not been reached some step makes a number smaller. -/
theorem World.exists_run (e : Endian) (depth : Nat) {P Q : World → Prop} (μ : World → Nat)
    (hstep : ∀ w, P w → ¬Q w → ∃ a w', a ≠ Step.stop ∧ w.step e depth a = some w' ∧ P w' ∧ μ w' < μ w) {w : World}
    (hw : P w) : ∃ more w', Step.stop ∉ more ∧ w.run e depth more = some w' ∧ P w' ∧ Q w' := by
  induction hn : μ w using Nat.strong_induction_on generalizing w with
  | _ n ih =>
      by_cases hq : Q w
      · exact ⟨[], w, List.not_mem_nil, rfl, hw, hq⟩
      · obtain ⟨a, w', ha, hrun, hw', hlt⟩ := hstep w hw hq
        obtain ⟨more, w'', hmore, hrun', hw'', hq'⟩ := ih (μ w') (hn ▸ hlt) hw' rfl
        refine ⟨a :: more, w'', ?_, ?_, hw'', hq'⟩
        · rw [List.mem_cons, not_or]
          exact ⟨ha.symm, hmore⟩
        · rw [World.run, hrun]
          exact hrun'

section

variable {e : Endian} {c : Nat} {requests : List (Request e)}

/-- What the steps of a server that has not been stopped keep. -/
def World.Running (c : Nat) (requests : List (Request e)) (w : World) : Prop :=
  w.Serving c requests ∧ w.server.keepRun = true

section

variable (hfirst : ∀ r ∈ requests.head?, r.fromCliId = c) (hcivil : ∀ r ∈ requests, r.Civil c) (depth : Nat) {w : World}
include hfirst hcivil

theorem World.Running.step (hw : w.Running c requests) {a : Step} {w' : World} (ha : a ≠ .stop)
    (hrun : w.step e (depth + 2) a = some w') : w'.Running c requests := by
  obtain ⟨w'', hrun', hserving, hkeep⟩ := hw.1.step hfirst hcivil depth a
  rw [hrun] at hrun'
  cases hrun'
  exact ⟨hserving, (hkeep ha).trans hw.2⟩

/-- The client sends all that it has to send. -/
theorem World.Running.sends (hw : w.Running c requests) : ∃ more w', Step.stop ∉ more ∧
    w.run e (depth + 2) more = some w' ∧ w'.Running c requests ∧ w'.outbox = [] := by
  apply World.exists_run e (depth + 2) (P := World.Running c requests) (fun w => leftToSend e w.outbox) ?_ hw
  intro w hw hne
  obtain ⟨read, todo, chunk, msgs, done, rest, hserves⟩ := hw.1
  obtain ⟨w', hrun, -, -⟩ := hserves.send [1]
  exact ⟨.send [1], w', by simp, hrun, hw.step hfirst hcivil depth (a := .send [1]) (by simp) hrun,
    hserves.send_lt hne hrun⟩

/-- The server reads it. -/
theorem World.Running.reads (hw : w.Running c requests) (houtbox : w.outbox = []) : ∃ more w', Step.stop ∉ more ∧
    w.run e (depth + 2) more = some w' ∧ (w'.Running c requests ∧ w'.outbox = []) ∧ w'.server.input = [] := by
  apply World.exists_run e (depth + 2) (P := fun w => w.Running c requests ∧ w.outbox = [])
    (fun w => w.server.input.length) ?_ ⟨hw, houtbox⟩
  rintro w ⟨hw, houtbox⟩ hne
  obtain ⟨read, todo, chunk, msgs, done, rest, hserves⟩ := hw.1
  obtain ⟨server, read', todo', chunk', msgs', rest', hround, -, hlt, -⟩ :=
    hserves.round (h := Dson.clearHeader e) (j := fun _ => 0) hfirst hcivil depth [1] []
  have hrun : w.step e (depth + 2) (.round [1] [] (Dson.clearHeader e) fun _ => 0) =
      some { w with server := server } := by
    rw [World.step, hround]
    rfl
  exact ⟨_, _, by simp, hrun, ⟨hw.step hfirst hcivil depth (by simp) hrun, houtbox⟩, hlt rfl hw.2 hne⟩

/-- The server writes what is in its queue. -/
theorem World.Running.writes (hw : w.Running c requests) (houtbox : w.outbox = []) (hinput : w.server.input = []) :
    ∃ more w', Step.stop ∉ more ∧ w.run e (depth + 2) more = some w' ∧
      (w'.Running c requests ∧ w'.outbox = [] ∧ w'.server.input = []) ∧ w'.server.writeDeque = [] := by
  apply World.exists_run e (depth + 2)
    (P := fun w => w.Running c requests ∧ w.outbox = [] ∧ w.server.input = [])
    (fun w => leftToSend e (w.server.writeDeque.map fun o => (o, true))) ?_ ⟨hw, houtbox, hinput⟩
  rintro w ⟨hw, houtbox, hinput⟩ hne
  obtain ⟨read, todo, chunk, msgs, done, rest, hserves⟩ := hw.1
  obtain ⟨got, out, ready, n, hasked⟩ := hserves.asked
  obtain rfl := List.map_eq_nil_iff.mp (hasked.drained houtbox hinput)
  obtain ⟨server, hround, -, hinput', -, hlt⟩ := hserves.flush hw.2 hne (Dson.clearHeader e) (fun _ => 0) (depth + 2)
  have hrun : w.step e (depth + 2) (.round [] [[1]] (Dson.clearHeader e) fun _ => 0) =
      some { w with server := server } := by
    rw [World.step, hround]
    rfl
  exact ⟨_, _, by simp, hrun, ⟨hw.step hfirst hcivil depth (by simp) hrun, houtbox, hinput'⟩, hlt⟩

/-- The client reads what has been written. -/
theorem World.Running.receives (hw : w.Running c requests) (houtbox : w.outbox = []) (hinput : w.server.input = [])
    (hqueue : w.server.writeDeque = []) : ∃ more w', Step.stop ∉ more ∧ w.run e (depth + 2) more = some w' ∧
      (w'.Running c requests ∧ w'.outbox = [] ∧ w'.server.input = [] ∧ w'.server.writeDeque = []) ∧
      w'.server.output = [] := by
  apply World.exists_run e (depth + 2) (P := fun w =>
    w.Running c requests ∧ w.outbox = [] ∧ w.server.input = [] ∧ w.server.writeDeque = [])
    (fun w => w.server.output.length) ?_ ⟨hw, houtbox, hinput, hqueue⟩
  rintro w ⟨hw, houtbox, hinput, hqueue⟩ hne
  obtain ⟨read, todo, chunk, msgs, done, rest, hserves⟩ := hw.1
  obtain ⟨w', done', rest', hrun, -, -⟩ := hserves.receive [1] (fun _ => 0)
  obtain ⟨houtbox', hinput', hqueue', hlt⟩ := hserves.receive_lt hne hrun
  have hw' := hw.step hfirst hcivil depth (a := .receive [1] fun _ => 0) (by simp) hrun
  exact ⟨.receive [1] fun _ => 0, w', by simp, hrun, ⟨hw', houtbox'.trans houtbox, hinput'.trans hinput,
    hqueue'.trans hqueue⟩, hlt⟩

/-- The four phases lead to a world where nothing is on its way. -/
theorem World.Running.completes (hw : w.Running c requests) :
    ∃ more w', Step.stop ∉ more ∧ w.run e (depth + 2) more = some w' ∧ w'.Running c requests ∧ w'.Quiet := by
  obtain ⟨steps₁, w₁, hstop₁, hrun₁, hw₁, houtbox₁⟩ := hw.sends hfirst hcivil depth
  obtain ⟨steps₂, w₂, hstop₂, hrun₂, ⟨hw₂, houtbox₂⟩, hinput₂⟩ := hw₁.reads hfirst hcivil depth houtbox₁
  obtain ⟨steps₃, w₃, hstop₃, hrun₃, ⟨hw₃, houtbox₃, hinput₃⟩, hqueue₃⟩ :=
    hw₂.writes hfirst hcivil depth houtbox₂ hinput₂
  obtain ⟨steps₄, w₄, hstop₄, hrun₄, ⟨hw₄, houtbox₄, hinput₄, hqueue₄⟩, houtput₄⟩ :=
    hw₃.receives hfirst hcivil depth houtbox₃ hinput₃ hqueue₃
  refine ⟨steps₁ ++ (steps₂ ++ (steps₃ ++ steps₄)), w₄, ?_, ?_, hw₄, houtbox₄, hinput₄, hqueue₄, houtput₄⟩
  · simp only [List.mem_append, not_or]
    exact ⟨hstop₁, hstop₂, hstop₃, hstop₄⟩
  · rw [World.run_append, hrun₁, Option.bind_some, World.run_append, hrun₂, Option.bind_some, World.run_append, hrun₃,
      Option.bind_some, hrun₄]

end

end

/-- The star never gets stuck. Whatever has been read and written so far, and in whatever order, as long as the server
has not been stopped the run can be continued until nothing is on its way and the client has all its answers. -/
theorem star_completes {e : Endian} {c : Nat} (requests : List (Request e))
    (hfirst : ∀ r ∈ requests.head?, r.fromCliId = c) (hcivil : ∀ r ∈ requests, r.Civil c) (depth : Nat)
    (steps : List Step) (hstop : Step.stop ∉ steps) : ∃ (more : List Step) (w : World) (replies : List (Message e)),
      Step.stop ∉ more ∧ (World.start requests).run e (depth + 2) (steps ++ more) = some w ∧ w.Quiet ∧
      List.Forall₂ (Delivered e) replies w.answers ∧ replies.map contents = serve c (fun _ => 0) requests := by
  obtain ⟨w, hrun, hserving, hkeep⟩ := (World.start_serving requests).run hfirst hcivil depth steps
  have hw : w.Running c requests := ⟨hserving, hkeep hstop⟩
  obtain ⟨more, w', hmore, hrun', hw', hquiet⟩ := hw.completes hfirst hcivil depth
  obtain ⟨replies, -, hanswers, -, hall⟩ := hw'.1.answers
  refine ⟨more, w', replies, hmore, ?_, hquiet, hanswers, hall hquiet⟩
  rw [World.run_append, hrun]
  exact hrun'

/-- A client that logs in can be let in whatever has happened. -/
theorem star_completes_sample : ∃ r : Request .little, ∀ steps, Step.stop ∉ steps → ∃ more w,
    (World.start [r]).run .little 2 (steps ++ more) = some w ∧ w.Quiet ∧ w.answers.length = 1 := by
  obtain ⟨r, hfrom, hcivil, hserve⟩ := login_served
  refine ⟨r, fun steps hstop => ?_⟩
  obtain ⟨more, w, replies, -, hrun, hquiet, hdelivered, hall⟩ :=
    star_completes (c := 12345) [r] (by simp [hfrom]) (by simpa using hcivil) 0 steps hstop
  refine ⟨more, w, hrun, hquiet, ?_⟩
  have hlength := congrArg List.length hall
  rw [hserve, List.length_map] at hlength
  rw [← hdelivered.length_eq, hlength]
  rfl

end StarRouting

end LeanDson
