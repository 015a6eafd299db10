import Mathlib.Data.List.Basic

/-! Agents that take turns, and two processes with a queue in each direction. Steps of different agents that come
to the same state in either order leave no choice in the end: once some run comes to rest, every run goes on to the
same rest, in as many steps. Two processes that only wait for what is in front of their queues are such agents. -/

namespace LeanDson

/-! ### Agents -/

namespace Agents

variable {ι S : Type} (step : ι → S → Option S)

/-- Steps of different agents come to the same state in either order. -/
def Commute : Prop := ∀ {i j : ι} {s s₁ s₂ : S}, i ≠ j → step i s = some s₁ → step j s = some s₂ →
  ∃ t, step j s₁ = some t ∧ step i s₂ = some t

/-- So many steps, of any agents. -/
inductive Run : Nat → S → S → Prop
  | nil (s : S) : Run 0 s s
  | cons {n : Nat} {i : ι} {s s' s'' : S} (hstep : step i s = some s') (hrun : Run n s' s'') : Run (n + 1) s s''

/-- No agent has a step. -/
def AtRest (s : S) : Prop := ∀ i, step i s = none

/-- The state after the turns of these agents. -/
def play : List ι → S → Option S
  | [], s => some s
  | i :: rest, s => (step i s).bind (play rest)

variable {step}

theorem Run.trans {n k : Nat} {s s' s'' : S} (h : Run step n s s') (h' : Run step k s' s'') : Run step (n + k) s s'' := by
  induction h with
  | nil s => rwa [Nat.zero_add]
  | cons hstep hrun ih =>
      rw [Nat.add_right_comm]
      exact .cons hstep (ih h')

theorem Run.of_play {turns : List ι} {s z : S} (h : play step turns s = some z) : Run step turns.length s z := by
  induction turns generalizing s with
  | nil =>
      cases h
      exact .nil _
  | cons i rest ih =>
      obtain ⟨s', hstep, hrest⟩ := Option.bind_eq_some_iff.mp h
      exact .cons hstep (ih hrest)

/-- What no step makes smaller. -/
theorem Run.le {α : Type} {r : α → α → Prop} (hrefl : ∀ a, r a a) (htrans : ∀ {a b c}, r a b → r b c → r a c) {f : S → α}
    (hstep : ∀ {i s s'}, step i s = some s' → r (f s) (f s')) {n : Nat} {s s' : S} (h : Run step n s s') : r (f s) (f s') := by
  induction h with
  | nil s => exact hrefl _
  | cons hfirst hrun ih => exact htrans (hstep hfirst) ih

theorem AtRest.run_eq {n : Nat} {s s' : S} (h : AtRest step s) (hrun : Run step n s s') : n = 0 ∧ s' = s := by
  cases hrun with
  | nil => exact ⟨rfl, rfl⟩
  | cons hstep hrest =>
      rw [h] at hstep
      cases hstep

/-- One step brings a state one step nearer to the rest it can come to. -/
theorem Commute.step_descends (hc : Commute step) {n : Nat} {s z : S} (hrun : Run step n s z) (hz : AtRest step z)
    {i : ι} {s' : S} (hstep : step i s = some s') : ∃ k, n = k + 1 ∧ Run step k s' z := by
  induction hrun generalizing i s' with
  | nil z =>
      rw [hz] at hstep
      cases hstep
  | @cons n j s s₁ z hfirst hrest ih =>
      by_cases hij : j = i
      · subst hij
        rw [hfirst] at hstep
        cases hstep
        exact ⟨n, rfl, hrest⟩
      · obtain ⟨t, hi, hj⟩ := hc hij hfirst hstep
        obtain ⟨k, rfl, hk⟩ := ih hz hi
        exact ⟨k + 1, rfl, .cons hj hk⟩

/-- Every run goes on to the rest that some run comes to, and the two are of the same length. -/
theorem Commute.descends (hc : Commute step) {n k : Nat} {s s' z : S} (hrun : Run step n s z) (hz : AtRest step z)
    (hrun' : Run step k s s') : ∃ l, n = k + l ∧ Run step l s' z := by
  induction hrun' generalizing n with
  | nil s => exact ⟨n, (Nat.zero_add n).symm, hrun⟩
  | cons hstep hrest ih =>
      obtain ⟨n', rfl, hrun'⟩ := hc.step_descends hrun hz hstep
      obtain ⟨l, rfl, hl⟩ := ih hrun'
      exact ⟨l, by omega, hl⟩

end Agents

/-! ### Processes -/

/-- What a process does next: it says something, sends a message, goes back to the head of its loop, where it waits
for a message, or stops. -/
inductive Process (σ M L : Type) where
  | print (line : L) (next : Process σ M L)
  | send (msg : M) (next : Process σ M L)
  | await (s : σ)
  | stop

/-- A process, what it has said, and how many messages it has sent or received. -/
structure Side (σ M L : Type) where
  process : Process σ M L
  printed : List L
  moved : Nat

namespace Side

variable {σ M L : Type} (body : σ → M → Process σ M L)

/-- One step of a process with a queue of messages for it: what is left of these, and the messages it sends. -/
def step (side : Side σ M L) (inbox : List M) : Option (Side σ M L × List M × List M) :=
  match side.process with
  | .print line next => some ({ side with process := next, printed := side.printed ++ [line] }, inbox, [])
  | .send msg next => some ({ side with process := next, moved := side.moved + 1 }, inbox, [msg])
  | .await s => match inbox with
      | [] => none
      | msg :: rest => some ({ side with process := body s msg, moved := side.moved + 1 }, rest, [])
  | .stop => none

/-- Some steps of one process, while nobody sends to it. -/
inductive Steps : Side σ M L → List M → Side σ M L → List M → List M → Prop
  | nil (side : Side σ M L) (inbox : List M) : Steps side inbox side inbox []
  | cons {side side' side'' : Side σ M L} {inbox inbox' inbox'' sent sent' : List M}
      (hstep : side.step body inbox = some (side', inbox', sent)) (hrest : Steps side' inbox' side'' inbox'' sent') :
      Steps side inbox side'' inbox'' (sent ++ sent')

variable {body}

/-- Messages behind those that are there change nothing. -/
theorem step_append {side side' : Side σ M L} {inbox inbox' sent : List M}
    (h : side.step body inbox = some (side', inbox', sent)) (more : List M) :
    side.step body (inbox ++ more) = some (side', inbox' ++ more, sent) := by
  unfold step at h ⊢
  split at h
  · cases h
    rfl
  · cases h
    rfl
  · cases inbox with
    | nil => cases h
    | cons msg rest =>
        cases h
        rfl
  · cases h

/-- What a process has said stays said. -/
theorem printed_step {side side' : Side σ M L} {inbox inbox' sent : List M}
    (h : side.step body inbox = some (side', inbox', sent)) : side.printed <+: side'.printed := by
  unfold step at h
  split at h
  · cases h
    exact List.prefix_append _ _
  · cases h
    exact List.prefix_rfl
  · cases inbox with
    | nil => cases h
    | cons msg rest =>
        cases h
        exact List.prefix_rfl
  · cases h

theorem moved_step {side side' : Side σ M L} {inbox inbox' sent : List M}
    (h : side.step body inbox = some (side', inbox', sent)) : side.moved ≤ side'.moved := by
  unfold step at h
  split at h
  · cases h
    exact Nat.le_refl _
  · cases h
    exact Nat.le_succ _
  · cases inbox with
    | nil => cases h
    | cons msg rest =>
        cases h
        exact Nat.le_succ _
  · cases h

end Side

/-! ### Two processes -/

/-- Whose turn it is. -/
inductive Agent where
  | left
  | right
  deriving DecidableEq, Repr

/-- Two processes and the messages on their way to each. -/
structure Dialogue (σ τ M L : Type) where
  left : Side σ M L
  right : Side τ M L
  toLeft : List M
  toRight : List M

namespace Dialogue

variable {σ τ M L : Type} (f : σ → M → Process σ M L) (g : τ → M → Process τ M L)

/-- A step of one of them. -/
def step : Agent → Dialogue σ τ M L → Option (Dialogue σ τ M L)
  | .left, x => (x.left.step f x.toLeft).map fun q =>
      { x with left := q.1, toLeft := q.2.1, toRight := x.toRight ++ q.2.2 }
  | .right, x => (x.right.step g x.toRight).map fun q =>
      { x with right := q.1, toRight := q.2.1, toLeft := x.toLeft ++ q.2.2 }

variable {f g}

theorem step_comm {x x₁ x₂ : Dialogue σ τ M L} (h₁ : step f g .left x = some x₁) (h₂ : step f g .right x = some x₂) :
    ∃ t, step f g .right x₁ = some t ∧ step f g .left x₂ = some t := by
  obtain ⟨⟨left, inbox, sent⟩, hleft, rfl⟩ := Option.map_eq_some_iff.mp h₁
  obtain ⟨⟨right, inbox', sent'⟩, hright, rfl⟩ := Option.map_eq_some_iff.mp h₂
  refine ⟨⟨left, right, inbox ++ sent', inbox' ++ sent⟩, ?_, ?_⟩
  · rw [step, Side.step_append hright]
    rfl
  · rw [step, Side.step_append hleft]
    rfl

theorem commute (f : σ → M → Process σ M L) (g : τ → M → Process τ M L) : Agents.Commute (step f g) := by
  intro i j x x₁ x₂ hij h₁ h₂
  cases i with
  | left =>
      cases j with
      | left => exact absurd rfl hij
      | right => exact step_comm h₁ h₂
  | right =>
      cases j with
      | left =>
          obtain ⟨t, ht₂, ht₁⟩ := step_comm h₂ h₁
          exact ⟨t, ht₁, ht₂⟩
      | right => exact absurd rfl hij

/-- Steps of the left process are steps of the dialogue. -/
theorem run_left {side side' : Side σ M L} {inbox inbox' sent : List M} (h : Side.Steps f side inbox side' inbox' sent)
    (right : Side τ M L) (toRight : List M) :
    ∃ n, Agents.Run (step f g) n ⟨side, right, inbox, toRight⟩ ⟨side', right, inbox', toRight ++ sent⟩ := by
  induction h generalizing toRight with
  | nil side inbox =>
      rw [List.append_nil]
      exact ⟨0, .nil _⟩
  | @cons side side₁ side₂ inbox inbox₁ inbox₂ sent sent₁ hstep hrest ih =>
      obtain ⟨n, hn⟩ := ih (toRight ++ sent)
      rw [List.append_assoc] at hn
      refine ⟨n + 1, @Agents.Run.cons _ _ _ n .left _ _ _ ?_ hn⟩
      rw [step, hstep]
      rfl

theorem run_right {side side' : Side τ M L} {inbox inbox' sent : List M} (h : Side.Steps g side inbox side' inbox' sent)
    (left : Side σ M L) (toLeft : List M) :
    ∃ n, Agents.Run (step f g) n ⟨left, side, toLeft, inbox⟩ ⟨left, side', toLeft ++ sent, inbox'⟩ := by
  induction h generalizing toLeft with
  | nil side inbox =>
      rw [List.append_nil]
      exact ⟨0, .nil _⟩
  | @cons side side₁ side₂ inbox inbox₁ inbox₂ sent sent₁ hstep hrest ih =>
      obtain ⟨n, hn⟩ := ih (toLeft ++ sent)
      rw [List.append_assoc] at hn
      refine ⟨n + 1, @Agents.Run.cons _ _ _ n .right _ _ _ ?_ hn⟩
      rw [step, hstep]
      rfl

/-! ### What runs add up to -/

/-- What has been said and moved stays so. -/
structure Grows (x x' : Dialogue σ τ M L) : Prop where
  printedLeft : x.left.printed <+: x'.left.printed
  printedRight : x.right.printed <+: x'.right.printed
  movedLeft : x.left.moved ≤ x'.left.moved
  movedRight : x.right.moved ≤ x'.right.moved

theorem Grows.refl (x : Dialogue σ τ M L) : Grows x x :=
  ⟨List.prefix_rfl, List.prefix_rfl, Nat.le_refl _, Nat.le_refl _⟩

theorem Grows.trans {x x' x'' : Dialogue σ τ M L} (h : Grows x x') (h' : Grows x' x'') : Grows x x'' where
  printedLeft := h.printedLeft.trans h'.printedLeft
  printedRight := h.printedRight.trans h'.printedRight
  movedLeft := Nat.le_trans h.movedLeft h'.movedLeft
  movedRight := Nat.le_trans h.movedRight h'.movedRight

theorem step_grows {i : Agent} {x x' : Dialogue σ τ M L} (h : step f g i x = some x') : Grows x x' := by
  cases i with
  | left =>
      obtain ⟨⟨side, inbox, sent⟩, hside, rfl⟩ := Option.map_eq_some_iff.mp h
      exact ⟨Side.printed_step hside, List.prefix_rfl, Side.moved_step hside, Nat.le_refl _⟩
  | right =>
      obtain ⟨⟨side, inbox, sent⟩, hside, rfl⟩ := Option.map_eq_some_iff.mp h
      exact ⟨List.prefix_rfl, Side.printed_step hside, Nat.le_refl _, Side.moved_step hside⟩

theorem run_grows {n : Nat} {x x' : Dialogue σ τ M L} (h : Agents.Run (step f g) n x x') : Grows x x' :=
  h.le Grows.refl Grows.trans (fun h => step_grows h) (f := id)

/-- Two processes that have stopped are at rest, whatever is left in their queues. -/
theorem atRest_of_stop {x : Dialogue σ τ M L} (hleft : x.left.process = .stop) (hright : x.right.process = .stop) :
    Agents.AtRest (step f g) x := by
  intro i
  cases i with
  | left => simp [step, Side.step, hleft]
  | right => simp [step, Side.step, hright]

/-- When one order of turns brings both processes to their ends, every order does: what has been said on the way is a
first part of what is said in the end, and no run is longer. -/
theorem settles {n k : Nat} {x y z : Dialogue σ τ M L} (hrun : Agents.Run (step f g) n x z)
    (hleft : z.left.process = .stop) (hright : z.right.process = .stop) (hrun' : Agents.Run (step f g) k x y) :
    ∃ l, n = k + l ∧ Agents.Run (step f g) l y z ∧ Grows y z := by
  obtain ⟨l, hl, hrest⟩ := Agents.Commute.descends (commute f g) hrun (atRest_of_stop hleft hright) hrun'
  exact ⟨l, hl, hrest, run_grows hrest⟩

/-- A message that waits in front of a process that waits for it is received before the end. -/
theorem moved_left_lt {n : Nat} {x z : Dialogue σ τ M L} (hrun : Agents.Run (step f g) n x z)
    (hleft : z.left.process = .stop) (hright : z.right.process = .stop) {s : σ} {msg : M} {rest : List M}
    (hprocess : x.left.process = .await s) (hqueue : x.toLeft = msg :: rest) : x.left.moved < z.left.moved := by
  have hside : x.left.step f x.toLeft = some ({ x.left with process := f s msg, moved := x.left.moved + 1 }, rest, []) := by
    rw [Side.step, hprocess, hqueue]
  have hstep : step f g .left x = some ⟨{ x.left with process := f s msg, moved := x.left.moved + 1 }, x.right, rest,
      x.toRight ++ []⟩ := by
    rw [step, hside]
    rfl
  obtain ⟨k, -, hrest⟩ := Agents.Commute.step_descends (commute f g) hrun (atRest_of_stop hleft hright) hstep
  exact (run_grows hrest).movedLeft

theorem moved_right_lt {n : Nat} {x z : Dialogue σ τ M L} (hrun : Agents.Run (step f g) n x z)
    (hleft : z.left.process = .stop) (hright : z.right.process = .stop) {s : τ} {msg : M} {rest : List M}
    (hprocess : x.right.process = .await s) (hqueue : x.toRight = msg :: rest) : x.right.moved < z.right.moved := by
  have hside : x.right.step g x.toRight =
      some ({ x.right with process := g s msg, moved := x.right.moved + 1 }, rest, []) := by
    rw [Side.step, hprocess, hqueue]
  have hstep : step f g .right x = some ⟨x.left, { x.right with process := g s msg, moved := x.right.moved + 1 },
      x.toLeft ++ [], rest⟩ := by
    rw [step, hside]
    rfl
  obtain ⟨k, -, hrest⟩ := Agents.Commute.step_descends (commute f g) hrun (atRest_of_stop hleft hright) hstep
  exact (run_grows hrest).movedRight

end Dialogue

end LeanDson
