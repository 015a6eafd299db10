import LeanDson.Conversation
import Mathlib.Data.Prod.Lex

/-! The end of a conversation. As long as something is on its way or planned there is a turn that makes progress: the
client sends, the server reads or writes, the client loads, or it asks. -/

namespace LeanDson

namespace StarRouting

section

variable {e : Endian} {c : Nat} {plan asked left requests : List (Request e)} {replies : List (Message e)} {t : Client}

theorem Client.run_append (e : Endian) (depth : Nat) (turns more : List Turn) (t : Client) :
    t.run e depth (turns ++ more) = (t.run e depth turns).bind (Client.run e depth more) := by
  induction turns generalizing t with
  | nil => rfl
  | cons a turns ih =>
      rw [List.cons_append, Client.run, Client.run, Option.bind_assoc]
      congr 1
      funext t'
      exact ih t'

/-- How much is still to come. A request that is planned may be answered by letting the client in, and so counts
twice. -/
def Client.ahead (t : Client) (requests : List (Request e)) (replies : List (Message e)) : ℕ ×ₗ ℕ ×ₗ ℕ ×ₗ ℕ ×ₗ ℕ :=
  toLex (2 * t.plan.length + awaited requests replies, toLex (leftToSend e t.world.outbox,
    toLex (t.world.server.input.length, toLex (leftToSend e (t.world.server.writeDeque.map fun o => (o, true)),
      t.world.server.output.length))))

/-- A turn that leads on, in a conversation that is not stopped. -/
def Client.Proceeds (c : Nat) (plan requests : List (Request e)) (replies : List (Message e)) (depth : Nat)
    (t : Client) : Prop :=
  ∃ a t' asked' left' requests' replies', a ≠ Turn.stop ∧ t.turn e depth a = some t' ∧
    t'.Talks c plan asked' left' requests' replies' ∧ t'.world.server.keepRun = true ∧
    t'.ahead requests' replies' < t.ahead requests replies

namespace Client

theorem Talks.sends (ht : t.Talks c plan asked left requests replies) (hkeep : t.world.server.keepRun = true)
    (depth : Nat) (hne : t.world.outbox ≠ []) : t.Proceeds c plan requests replies depth := by
  obtain ⟨read, todo, chunk, msgs, rest, hserves⟩ := ht.serves
  obtain ⟨w, hrun, hkeep', hw⟩ := hserves.send [1]
  refine ⟨.send [1], { t with world := w }, asked, left, requests, replies, by simp, ?_, ⟨⟨_, _, _, _, _, hw⟩, ht.split,
    ht.planned, ht.first, ht.civil, ht.order, ht.made, ht.lines⟩, hkeep'.trans hkeep, ?_⟩
  · rw [Client.turn, World.step, hrun]
    rfl
  · have hlt := hserves.send_lt hne hrun
    exact Prod.Lex.toLex_lt_toLex.mpr (Or.inr ⟨rfl, Prod.Lex.toLex_lt_toLex.mpr (Or.inl hlt)⟩)

theorem Talks.reads (ht : t.Talks c plan asked left requests replies) (hkeep : t.world.server.keepRun = true)
    (depth : Nat) (hne : t.world.server.input ≠ []) : t.Proceeds c plan requests replies (depth + 2) := by
  obtain ⟨read, todo, chunk, msgs, rest, hserves⟩ := ht.serves
  obtain ⟨server, read', todo', chunk', msgs', rest', hrun, hkeep', hlt, hw⟩ :=
    hserves.round (h := Dson.clearHeader e) (j := fun _ => 0) ht.first ht.civil depth [1] []
  refine ⟨.round [1] [] (Dson.clearHeader e) fun _ => 0, { t with world := { t.world with server := server } }, asked,
    left, requests, replies, by simp, ?_, ⟨⟨_, _, _, _, _, hw⟩, ht.split, ht.planned, ht.first, ht.civil, ht.order,
    ht.made, ht.lines⟩, hkeep'.trans hkeep, ?_⟩
  · rw [Client.turn, World.step, hrun]
    rfl
  · have hinput := hlt rfl hkeep hne
    exact Prod.Lex.toLex_lt_toLex.mpr (Or.inr ⟨rfl, Prod.Lex.toLex_lt_toLex.mpr (Or.inr ⟨rfl,
      Prod.Lex.toLex_lt_toLex.mpr (Or.inl hinput)⟩)⟩)

/-- When the server has read everything. -/
theorem Talks.writes (ht : t.Talks c plan asked left requests replies) (hkeep : t.world.server.keepRun = true)
    (depth : Nat) (houtbox : t.world.outbox = []) (hinput : t.world.server.input = [])
    (hne : t.world.server.writeDeque ≠ []) : t.Proceeds c plan requests replies depth := by
  obtain ⟨read, todo, chunk, msgs, rest, hserves⟩ := ht.serves
  obtain ⟨got, out, ready, n, hasked⟩ := hserves.asked
  obtain rfl := List.map_eq_nil_iff.mp (hasked.drained houtbox hinput)
  obtain ⟨server, hrun, hkeep', hinput', hw, hlt⟩ :=
    hserves.flush hkeep hne (Dson.clearHeader e) (fun _ => 0) depth
  refine ⟨.round [] [[1]] (Dson.clearHeader e) fun _ => 0, { t with world := { t.world with server := server } }, asked,
    left, requests, replies, by simp, ?_, ⟨⟨_, _, _, _, _, hw⟩, ht.split, ht.planned, ht.first, ht.civil, ht.order,
    ht.made, ht.lines⟩, hkeep', ?_⟩
  · rw [Client.turn, World.step, hrun]
    rfl
  · have hsame : server.input.length = t.world.server.input.length := by rw [hinput, hinput']
    exact Prod.Lex.toLex_lt_toLex.mpr (Or.inr ⟨rfl, Prod.Lex.toLex_lt_toLex.mpr (Or.inr ⟨rfl,
      Prod.Lex.toLex_lt_toLex.mpr (Or.inr ⟨hsame, Prod.Lex.toLex_lt_toLex.mpr (Or.inl hlt)⟩)⟩)⟩)

theorem Talks.receives (ht : t.Talks c plan asked left requests replies) (hkeep : t.world.server.keepRun = true)
    (depth : Nat) (hne : t.world.server.output ≠ []) : t.Proceeds c plan requests replies depth := by
  obtain ⟨t', requests', replies', output, hrun, ht', hplan, hserver, hlt, hcases⟩ :=
    ht.receive [1] (fun _ => 0) (Dson.clearHeader e) (fun _ => 0)
  refine ⟨.receive [1] (fun _ => 0) (Dson.clearHeader e) fun _ => 0, t', asked, left, requests', replies', by simp,
    hrun, ht', by rw [hserver]; exact hkeep, ?_⟩
  have houtput := hlt rfl hne
  rw [ahead, ahead, hplan, hserver]
  rcases hcases with ⟨houtbox, hle⟩ | hlt
  · rcases Nat.lt_or_eq_of_le hle with hlt | heq
    · exact Prod.Lex.toLex_lt_toLex.mpr (Or.inl (Nat.add_lt_add_left hlt _))
    · rw [houtbox, heq]
      exact Prod.Lex.toLex_lt_toLex.mpr (Or.inr ⟨rfl, Prod.Lex.toLex_lt_toLex.mpr (Or.inr ⟨rfl,
        Prod.Lex.toLex_lt_toLex.mpr (Or.inr ⟨rfl, Prod.Lex.toLex_lt_toLex.mpr (Or.inr ⟨rfl, houtput⟩)⟩)⟩)⟩)
  · exact Prod.Lex.toLex_lt_toLex.mpr (Or.inl (Nat.add_lt_add_left hlt _))

theorem Talks.asks (ht : t.Talks c plan asked left requests replies) (hfirst : ∀ r ∈ plan.head?, r.fromCliId = c)
    (hcivil : ∀ r ∈ plan, r.Civil c) (hkeep : t.world.server.keepRun = true) (depth : Nat) (hne : t.plan ≠ []) :
    t.Proceeds c plan requests replies depth := by
  obtain ⟨t', asked', left', requests', hrun, ht', hserver, hcount⟩ := ht.ask hfirst hcivil depth
  refine ⟨.ask, t', asked', left', requests', replies, by simp, hrun, ht', by rw [hserver]; exact hkeep, ?_⟩
  obtain ⟨hlength, hle⟩ := hcount hne
  have hlt : 2 * t'.plan.length + awaited requests' replies < 2 * t.plan.length + awaited requests replies := by
    rw [awaited, awaited]
    omega
  exact Prod.Lex.toLex_lt_toLex.mpr (Or.inl hlt)

/-- There is always a turn that leads on. -/
theorem Talks.proceeds (ht : t.Talks c plan asked left requests replies) (hfirst : ∀ r ∈ plan.head?, r.fromCliId = c)
    (hcivil : ∀ r ∈ plan, r.Civil c) (hkeep : t.world.server.keepRun = true) (depth : Nat)
    (hgoing : ¬(t.world.Quiet ∧ t.plan = [])) : t.Proceeds c plan requests replies (depth + 2) := by
  by_cases houtbox : t.world.outbox = []
  swap
  · exact ht.sends hkeep _ houtbox
  by_cases hinput : t.world.server.input = []
  swap
  · exact ht.reads hkeep depth hinput
  by_cases hdeque : t.world.server.writeDeque = []
  swap
  · exact ht.writes hkeep _ houtbox hinput hdeque
  by_cases houtput : t.world.server.output = []
  swap
  · exact ht.receives hkeep _ houtput
  exact ht.asks hfirst hcivil hkeep _ fun hplan => hgoing ⟨⟨houtbox, hinput, hdeque, houtput⟩, hplan⟩

/-- So the conversation can be led to its end. -/
theorem Talks.ends (hfirst : ∀ r ∈ plan.head?, r.fromCliId = c) (hcivil : ∀ r ∈ plan, r.Civil c) (depth : Nat)
    (ht : t.Talks c plan asked left requests replies) (hkeep : t.world.server.keepRun = true) :
    ∃ more t' asked' left' requests' replies', Turn.stop ∉ more ∧ t.run e (depth + 2) more = some t' ∧
      t'.Talks c plan asked' left' requests' replies' ∧ t'.world.Quiet ∧ t'.plan = [] := by
  induction hn : t.ahead requests replies using WellFoundedLT.induction generalizing t asked left requests replies with
  | ind n ih =>
      by_cases hdone : t.world.Quiet ∧ t.plan = []
      · exact ⟨[], t, asked, left, requests, replies, List.not_mem_nil, rfl, ht, hdone⟩
      · obtain ⟨a, t', asked', left', requests', replies', ha, hturn, ht', hkeep', hlt⟩ :=
          ht.proceeds hfirst hcivil hkeep depth hdone
        obtain ⟨more, t'', asked'', left'', requests'', replies'', hmore, hrun, hend⟩ :=
          ih _ (hn ▸ hlt) ht' hkeep' rfl
        refine ⟨a :: more, t'', asked'', left'', requests'', replies'', ?_, ?_, hend⟩
        · rw [List.mem_cons, not_or]
          exact ⟨ha.symm, hmore⟩
        · rw [Client.run, hturn]
          exact hrun

end Client

end

/-- A conversation comes to its end. Whatever turns have been taken, as long as the server has not been stopped there
are further ones after which all planned requests have been made, and the reactions to the answers with them, the client
has the answers to all of these, and nothing is on its way. -/
theorem star_concludes {e : Endian} {c : Nat} (plan : List (Request e)) (hfirst : ∀ r ∈ plan.head?, r.fromCliId = c)
    (hcivil : ∀ r ∈ plan, r.Civil c) (depth : Nat) (turns : List Turn) (hstop : Turn.stop ∉ turns) :
    ∃ (more : List Turn) (t : Client) (requests : List (Request e)) (replies : List (Message e)),
      Turn.stop ∉ more ∧ (Client.start plan).run e (depth + 2) (turns ++ more) = some t ∧ t.world.Quiet ∧ t.plan = [] ∧
      plan.Sublist requests ∧
      (requests.map fun r => contents r.toMessage).Perm
        ((plan.map fun r => contents r.toMessage) ++ (replies.map contents).filterMap reaction) ∧
      List.Forall₂ (Delivered e) replies t.world.answers ∧ replies.map contents = serve c (fun _ => 0) requests := by
  obtain ⟨t, asked, left, requests, replies, hrun, ht, hkeep⟩ :=
    (Client.start_talks c plan).run hfirst hcivil depth turns
  obtain ⟨more, t', asked', left', requests', replies', hmore, hrun', ht', hquiet, hplan⟩ :=
    ht.ends hfirst hcivil depth (hkeep hstop)
  obtain ⟨read, todo, chunk, msgs, rest, hserves⟩ := ht'.serves
  obtain ⟨-, hdelivered, -, hall⟩ := hserves.answers
  obtain rfl := List.map_eq_nil_iff.mp (ht'.planned.symm.trans hplan)
  have hasked : plan = asked' := by rw [ht'.split, List.append_nil]
  refine ⟨more, t', requests', replies', hmore, ?_, hquiet, hplan, hasked ▸ ht'.order, hasked ▸ ht'.made, hdelivered,
    hall hquiet⟩
  rw [Client.run_append, hrun]
  exact hrun'

/-- A client that logs in comes to be answered. -/
theorem star_concludes_sample : ∃ r : Request .little, ∀ turns, Turn.stop ∉ turns → ∃ more t,
    (Client.start [r]).run .little 2 (turns ++ more) = some t ∧ t.world.Quiet ∧ t.world.answers ≠ [] := by
  obtain ⟨r, hfrom, hcivil, hserve⟩ := login_served
  refine ⟨r, fun turns hstop => ?_⟩
  obtain ⟨more, t, requests, replies, -, hrun, hquiet, -, hsub, hmade, hdelivered, hdue⟩ :=
    star_concludes (c := 12345) [r] (by simp [hfrom]) (by simpa using hcivil) 0 turns hstop
  exact ⟨more, t, hrun, hquiet, answers_ne_nil (by simp [hserve]) hsub hmade hdelivered hdue⟩

end StarRouting

end LeanDson
