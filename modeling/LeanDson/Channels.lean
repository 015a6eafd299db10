import LeanDson.Cells

/-! Byte sinks, byte sources and resumable emission. A sink takes as much of an offered byte string
as it likes, or fails; a caller that keeps a position offers the rest again. `Resumable` is the rule
for such callers: when every call hands over a piece of what is pending and keeps the rest pending,
a run of calls hands over exactly what was pending at its start. -/

namespace LeanDson

/-- The outcome of a resumable operation. -/
inductive Result where
  | error
  | ready
  | inProcess
  deriving DecidableEq, Repr

/-! ### Sinks -/

/-- A destination of bytes. `write` takes the first `n` bytes it is offered, or fails; `written` is
what it has taken so far. -/
class ByteSink (σ : Type) where
  write : σ → Bytes → Option Nat × σ
  written : σ → Bytes
  /-- The sink does not fail. -/
  Willing : σ → Prop
  /-- What a sink is when it has just taken less than it was offered. -/
  Full : σ → Prop
  /-- What writes leave of a sink. -/
  Kept : σ → σ → Prop
  write_some : ∀ {s s' : σ} {bs : Bytes} {n : Nat}, write s bs = (some n, s') →
    n ≤ bs.length ∧ written s' = written s ++ bs.take n
  write_none : ∀ {s s' : σ} {bs : Bytes}, write s bs = (none, s') → written s' = written s
  write_willing : ∀ {s : σ} (bs : Bytes), Willing s → (write s bs).1 ≠ none
  write_short : ∀ {s s' : σ} {bs : Bytes} {n : Nat}, write s bs = (some n, s') → n < bs.length → Full s'
  write_kept : ∀ (s : σ) (bs : Bytes), Kept s (write s bs).2
  kept_refl : ∀ s : σ, Kept s s
  kept_trans : ∀ {s s' s'' : σ}, Kept s s' → Kept s' s'' → Kept s s''
  kept_willing : ∀ {s s' : σ}, Kept s s' → Willing s → Willing s'

/-- A file descriptor open for writing: what the kernel answers to the coming `write` calls (how
many bytes it takes at most, or an error) and the bytes taken so far. Once the answers are used up
the descriptor takes nothing more. -/
structure FdOut where
  answers : List (Option Nat)
  out : Bytes

/-- A window of shared memory being filled: the free bytes left and the bytes copied so far. -/
structure BufOut where
  room : Nat
  out : Bytes

def FdOut.fresh (answers : List (Option Nat)) : FdOut := ⟨answers, []⟩

def BufOut.fresh (room : Nat) : BufOut := ⟨room, []⟩

/-- `write_to_fd`: a short count, zero when the descriptor would block, or a failure. -/
def writeToFd (s : FdOut) (bs : Bytes) : Option Nat × FdOut :=
  match s.answers with
  | [] => (some 0, s)
  | none :: rest => (none, { s with answers := rest })
  | some n :: rest => (some (min n bs.length), ⟨rest, s.out ++ bs.take n⟩)

/-- `memcpy` into a window, cut to the free bytes. -/
def writeToBuf (s : BufOut) (bs : Bytes) : Option Nat × BufOut :=
  (some (min s.room bs.length), ⟨s.room - min s.room bs.length, s.out ++ bs.take s.room⟩)

theorem take_min_length {α : Type} (n : Nat) (l : List α) : l.take (min n l.length) = l.take n := by
  rcases le_total n l.length with h | h
  · rw [min_eq_left h]
  · rw [min_eq_right h, List.take_length, List.take_of_length_le h]

instance : ByteSink FdOut where
  write := writeToFd
  written s := s.out
  Willing s := none ∉ s.answers
  Full _ := True
  Kept s s' := none ∈ s'.answers → none ∈ s.answers
  write_some := by
    intro s s' bs n h
    unfold writeToFd at h
    split at h
    · cases h
      simp
    · cases h
    · cases h
      exact ⟨min_le_right _ _, by rw [take_min_length]⟩
  write_none := by
    intro s s' bs h
    unfold writeToFd at h
    split at h <;> cases h
    rfl
  write_willing := by
    intro s bs h
    unfold writeToFd
    split
    · simp
    · next heq => simp [heq] at h
    · simp
  write_short := fun _ _ => trivial
  write_kept := by
    intro s bs hmem
    unfold writeToFd at hmem
    split at hmem
    · exact hmem
    · next heq => simp [heq]
    · next heq =>
        rw [heq]
        exact List.mem_cons_of_mem _ hmem
  kept_refl := fun _ hmem => hmem
  kept_trans := fun h h' hmem => h (h' hmem)
  kept_willing := fun h hs hmem => hs (h hmem)

instance : ByteSink BufOut where
  write := writeToBuf
  written s := s.out
  Willing _ := True
  Full s := s.room = 0
  Kept s s' := s'.room + s'.out.length = s.room + s.out.length
  write_some := by
    intro s s' bs n h
    cases h
    exact ⟨min_le_right _ _, by rw [take_min_length]⟩
  write_none := by
    intro s s' bs h
    cases h
  write_willing := by
    intro s bs _
    simp [writeToBuf]
  write_short := by
    intro s s' bs n h hlt
    cases h
    dsimp only
    omega
  write_kept := by
    intro s bs
    simp only [writeToBuf, List.length_append, List.length_take]
    omega
  kept_refl := fun _ => rfl
  kept_trans := fun h h' => h'.trans h
  kept_willing := fun _ _ => trivial

/-! ### Sources -/

/-- A file descriptor open for reading: what the kernel answers to the coming `read` calls and the
bytes there are to read. -/
structure FdIn where
  answers : List (Option Nat)
  input : Bytes

/-- `read_from_fd`: at most `size` bytes, none when the descriptor would block, or a failure. -/
def readFromFd (s : FdIn) (size : Nat) : Option Bytes × FdIn :=
  match s.answers with
  | [] => (some [], s)
  | none :: rest => (none, { s with answers := rest })
  | some n :: rest => (some (s.input.take (min n size)), ⟨rest, s.input.drop (min n size)⟩)

/-! ### Resumable emission -/

section Resumable

variable {ω σ : Type} [ByteSink σ]

open ByteSink

/-- Call an emitter on one sink after the other until it no longer answers `inProcess`; the bytes
are what the sinks took, in order. A call without an outcome (undefined behaviour) ends the run
without one. -/
def emitRun (call : ω → σ → Option (Result × ω × σ)) : ω → List σ → Option (Result × ω × Bytes)
  | o, [] => some (.inProcess, o, [])
  | o, s :: rest => do
      let (r, o', s') ← call o s
      if r = .inProcess then
        let (r', o'', bs) ← emitRun call o' rest
        return (r', o'', written s' ++ bs)
      else
        return (r, o', written s')

/-- The sink takes something of whatever it is offered next. -/
def Eager (s : σ) : Prop := ∀ bs, bs ≠ [] → ∀ s' : σ, write s bs ≠ (some 0, s')

/-- What one call of an emitter does to a sink: with `before` still to come it hands over all of that and
is ready, or a first part and is in process with `after` still to come, or a first part until the sink
fails. It is in process only when the sink has taken less than it was offered. -/
def HandsOver (s s' : σ) (before : Bytes) (r : Result) (done live : Prop) (after : Bytes)
    (failed : Bytes → Prop) : Prop :=
  ∃ bs, Kept s s' ∧ written s' = written s ++ bs ∧
    ((r = .ready ∧ done ∧ before = bs) ∨
      (r = .inProcess ∧ live ∧ Full s' ∧ (Eager s → bs ≠ []) ∧ before = bs ++ after) ∨
      (r = .error ∧ ¬Willing s ∧ ∃ rest, rest ≠ [] ∧ before = bs ++ rest ∧ failed rest))

/-- The answer of a sink to the bytes from a position on. -/
theorem write_drop (s : σ) (bs : Bytes) {off : Nat} (hoff : off < bs.length) :
    (∃ s', write s (bs.drop off) = (none, s') ∧
      ∀ {more : Bytes} {done live : Prop} {after : Bytes} {failed : Bytes → Prop}, failed (bs.drop off ++ more) →
        HandsOver s s' (bs.drop off ++ more) .error done live after failed) ∨
    ∃ n s', write s (bs.drop off) = (some n, s') ∧ off + n ≤ bs.length ∧
      ∀ more : Bytes,
        (∀ {done live : Prop} {failed : Bytes → Prop}, off + n < bs.length → live →
          HandsOver s s' (bs.drop off ++ more) .inProcess done live (bs.drop (off + n) ++ more) failed) ∧
        (∀ {s'' : σ} {r : Result} {done live : Prop} {after : Bytes} {failed : Bytes → Prop}, off + n = bs.length →
          HandsOver s' s'' more r done live after failed →
            HandsOver s s'' (bs.drop off ++ more) r done live after failed) := by
  have hkept : Kept s (write s (bs.drop off)).2 := write_kept s (bs.drop off)
  have hne : bs.drop off ≠ [] := by
    rw [ne_eq, List.drop_eq_nil_iff]
    omega
  cases hn : (write s (bs.drop off)).1 with
  | none =>
      have hw : write s (bs.drop off) = (none, (write s (bs.drop off)).2) := Prod.ext hn rfl
      refine Or.inl ⟨_, hw, fun {more} _ _ _ _ hfailed => ?_⟩
      refine ⟨[], hkept, by rw [List.append_nil, write_none hw], Or.inr (Or.inr ⟨rfl, ?_, _, ?_, rfl, hfailed⟩)⟩
      · exact fun hs => write_willing (bs.drop off) hs hn
      · exact fun hnil => hne (List.append_eq_nil_iff.mp hnil).1
  | some n =>
      have hw : write s (bs.drop off) = (some n, (write s (bs.drop off)).2) := Prod.ext hn rfl
      obtain ⟨hle, hwritten⟩ := write_some hw
      have hshort := write_short hw
      rw [List.length_drop] at hle hshort
      have hsplit : bs.drop off = (bs.drop off).take n ++ bs.drop (off + n) := by
        rw [← List.drop_drop, List.take_append_drop]
      have hpart : Eager s → (bs.drop off).take n ≠ [] := by
        intro heager hnil
        rcases List.take_eq_nil_iff.mp hnil with h | h
        · exact heager _ hne _ (h ▸ hw)
        · exact hne h
      refine Or.inr ⟨n, _, hw, by omega, fun more => ⟨fun hlt hlive => ?_, ?_⟩⟩
      · refine ⟨_, hkept, hwritten, Or.inr (Or.inl ⟨rfl, hlive, hshort (by omega), hpart, ?_⟩)⟩
        rw [← List.append_assoc, ← hsplit]
      · rintro s'' r done live after failed hall ⟨bs', hkept', hwritten', hrest⟩
        have hfull : (bs.drop off).take n = bs.drop off :=
          List.take_of_length_le (by rw [List.length_drop]; omega)
        rw [hfull] at hwritten
        refine ⟨bs.drop off ++ bs', kept_trans hkept hkept', by rw [hwritten', hwritten, List.append_assoc], ?_⟩
        rcases hrest with ⟨hr, hdone, hmore⟩ | ⟨hr, hlive, hs, -, hmore⟩ | ⟨hr, hs, rest, hleft, hmore, hfailed⟩
        · exact Or.inl ⟨hr, hdone, by rw [hmore]⟩
        · exact Or.inr (Or.inl ⟨hr, hlive, hs, fun _ => by simp [hne], by rw [hmore, List.append_assoc]⟩)
        · exact Or.inr (Or.inr ⟨hr, fun h => hs (kept_willing hkept h), rest, hleft, by rw [hmore, List.append_assoc], hfailed⟩)

/-- Nothing is left to hand over. -/
theorem HandsOver.nothing (s : σ) {done : Prop} (hdone : done) (live : Prop) (after : Bytes)
    (failed : Bytes → Prop) : HandsOver s s [] .ready done live after failed :=
  ⟨[], kept_refl s, (List.append_nil _).symm, Or.inl ⟨rfl, hdone, rfl⟩⟩

/-- A ready call followed by a second one. -/
theorem HandsOver.append {s s' s'' : σ} {a b : Bytes} {r : Result} {done done' live live' : Prop}
    {after after' : Bytes} {failed failed' : Bytes → Prop} (h : HandsOver s s' a .ready done live after failed)
    (ha : a ≠ []) (h' : HandsOver s' s'' b r done' live' after' failed') :
    HandsOver s s'' (a ++ b) r done' live' after' failed' := by
  obtain ⟨bs, hkept, hwritten, hfirst⟩ := h
  obtain ⟨bs', hkept', hwritten', hsecond⟩ := h'
  rcases hfirst with ⟨-, -, rfl⟩ | ⟨hr, -⟩ | ⟨hr, -⟩
  · refine ⟨a ++ bs', kept_trans hkept hkept', by rw [hwritten', hwritten, List.append_assoc], ?_⟩
    rcases hsecond with ⟨hr, hdone, hb⟩ | ⟨hr, hlive, hs, -, hb⟩ | ⟨hr, hs, rest, hleft, hb, hfailed⟩
    · exact Or.inl ⟨hr, hdone, by rw [hb]⟩
    · exact Or.inr (Or.inl ⟨hr, hlive, hs, fun _ => by simp [ha], by rw [hb, List.append_assoc]⟩)
    · exact Or.inr (Or.inr ⟨hr, fun h => hs (kept_willing hkept h), rest, hleft, by rw [hb, List.append_assoc], hfailed⟩)
  · cases hr
  · cases hr

/-- A call that is not ready, with more to come behind it. -/
theorem HandsOver.stop {s s' : σ} {a : Bytes} {r : Result} {done live : Prop} {after : Bytes}
    {failed failed' : Bytes → Prop} (h : HandsOver s s' a r done live after failed) (hr : r ≠ .ready) (b : Bytes)
    (hfailed : ∀ rest, failed rest → failed' (rest ++ b)) :
    HandsOver s s' (a ++ b) r done live (after ++ b) failed' := by
  obtain ⟨bs, hkept, hwritten, h | ⟨hr', hl, hs, hpart, hb⟩ | ⟨hr', hs, rest, hleft, hb, hf⟩⟩ := h
  · exact absurd h.1 hr
  · exact ⟨bs, hkept, hwritten, Or.inr (Or.inl ⟨hr', hl, hs, hpart, by rw [hb, List.append_assoc]⟩)⟩
  · exact ⟨bs, hkept, hwritten, Or.inr (Or.inr ⟨hr', hs, rest ++ b, by simp [hleft],
      by rw [hb, List.append_assoc], hfailed rest hf⟩)⟩

theorem HandsOver.imp {s s' : σ} {before : Bytes} {r : Result} {done done' live live' : Prop}
    {after after' : Bytes} {failed failed' : Bytes → Prop} (h : HandsOver s s' before r done live after failed)
    (hdone : r = .ready → done → done') (hlive : r = .inProcess → live → live' ∧ after = after')
    (hfailed : r = .error → ∀ rest, rest ≠ [] → rest <:+ before → failed rest → failed' rest) :
    HandsOver s s' before r done' live' after' failed' := by
  obtain ⟨bs, hkept, hwritten, ⟨hr, hd, hb⟩ | ⟨hr, hl, hs, hpart, hb⟩ | ⟨hr, hs, rest, hleft, hb, hf⟩⟩ := h
  · exact ⟨bs, hkept, hwritten, Or.inl ⟨hr, hdone hr hd, hb⟩⟩
  · obtain ⟨hl', rfl⟩ := hlive hr hl
    exact ⟨bs, hkept, hwritten, Or.inr (Or.inl ⟨hr, hl', hs, hpart, hb⟩)⟩
  · exact ⟨bs, hkept, hwritten, Or.inr (Or.inr ⟨hr, hs, rest, hleft, hb, hfailed hr rest hleft ⟨bs, hb.symm⟩ hf⟩)⟩

theorem HandsOver.cases {s s' : σ} {before : Bytes} {r : Result} {done live : Prop} {after : Bytes}
    {failed : Bytes → Prop} (h : HandsOver s s' before r done live after failed) :
    (r = .ready ∧ done) ∨ (r = .inProcess ∧ live) ∨ (r = .error ∧ ∃ rest, failed rest) := by
  obtain ⟨bs, -, -, ⟨hr, hd, -⟩ | ⟨hr, hl, -⟩ | ⟨hr, -, rest, -, -, hf⟩⟩ := h
  · exact Or.inl ⟨hr, hd⟩
  · exact Or.inr (Or.inl ⟨hr, hl⟩)
  · exact Or.inr (Or.inr ⟨hr, rest, hf⟩)

theorem HandsOver.done {s s' : σ} {before : Bytes} {done live : Prop} {after : Bytes} {failed : Bytes → Prop}
    (h : HandsOver s s' before .ready done live after failed) : done := by
  rcases h.cases with ⟨-, hdone⟩ | ⟨hr, -⟩ | ⟨hr, -⟩
  · exact hdone
  · cases hr
  · cases hr

/-- An emitter that hands over what is pending. `Live` holds of the objects that may be called,
`Done` of those that have handed over everything, `Failed` of what a failed call leaves. -/
structure Resumable (call : ω → σ → Option (Result × ω × σ)) (Live Done : ω → Prop)
    (pending : ω → Bytes) (Failed : ω → ω → Bytes → Prop) : Prop where
  step : ∀ {o : ω} (s : σ), Live o → ∃ r o' s', call o s = some (r, o', s') ∧
    HandsOver s s' (pending o) r (Done o') (Live o') (pending o') (Failed o o')

section

variable {call : ω → σ → Option (Result × ω × σ)} {Live Done : ω → Prop} {pending : ω → Bytes}
  {Failed : ω → ω → Bytes → Prop}

/-- A run hands over everything and is ready, or a first part and is in process, or a first part until a
sink fails. -/
theorem Resumable.run_cases (h : Resumable call Live Done pending Failed) {o : ω} (hlive : Live o) {ss : List σ}
    (hss : ∀ s ∈ ss, written s = []) :
    ∃ r o' bs, emitRun call o ss = some (r, o', bs) ∧
      ((r = .ready ∧ Done o' ∧ pending o = bs) ∨
        (r = .inProcess ∧ Live o' ∧ pending o = bs ++ pending o') ∨
        (r = .error ∧ (∃ s ∈ ss, ¬Willing s) ∧ ∃ before o₀ rest, Live o₀ ∧ pending o = before ++ pending o₀ ∧
          rest ≠ [] ∧ pending o = bs ++ rest ∧ Failed o₀ o' rest)) := by
  induction ss generalizing o with
  | nil => exact ⟨.inProcess, o, [], rfl, Or.inr (Or.inl ⟨rfl, hlive, rfl⟩)⟩
  | cons s rest ih =>
      have hempty := hss s List.mem_cons_self
      obtain ⟨r, o', s', hcall, bs, -, hwritten, hstep⟩ := h.step s hlive
      rw [hempty, List.nil_append] at hwritten
      rw [emitRun, hcall]
      rcases hstep with ⟨hr, hdone, hpend⟩ | ⟨hr, hlive', -, -, hpend⟩ | ⟨hr, hs, left, hleft, hpend, hfailed⟩
      · refine ⟨.ready, o', bs, ?_, Or.inl ⟨rfl, hdone, hpend⟩⟩
        simp [hr, hwritten]
      · obtain ⟨r', o'', bs', hrun, hrest⟩ := ih hlive' (fun s hs => hss s (List.mem_cons_of_mem _ hs))
        refine ⟨r', o'', bs ++ bs', ?_, ?_⟩
        · simp [hr, hrun, hwritten]
        · rcases hrest with ⟨hr', hdone, hp⟩ | ⟨hr', hlive'', hp⟩ |
            ⟨hr', ⟨t, ht, hunwilling⟩, before, o₀, left, hlive₀, hp₀, hleft, hp, hfailed⟩
          · exact Or.inl ⟨hr', hdone, by rw [hpend, hp]⟩
          · exact Or.inr (Or.inl ⟨hr', hlive'', by rw [hpend, hp, List.append_assoc]⟩)
          · exact Or.inr (Or.inr ⟨hr', ⟨t, List.mem_cons_of_mem _ ht, hunwilling⟩, bs ++ before, o₀, left, hlive₀,
              by rw [hpend, hp₀, List.append_assoc], hleft, by rw [hpend, hp, List.append_assoc], hfailed⟩)
      · refine ⟨.error, o', bs, ?_, Or.inr (Or.inr ⟨rfl, ⟨s, List.mem_cons_self, hs⟩, [], o, left, hlive, rfl,
          hleft, hpend, hfailed⟩)⟩
        simp [hr, hwritten]

/-- A run over willing sinks never fails. -/
theorem Resumable.run (h : Resumable call Live Done pending Failed) {o : ω} (hlive : Live o) {ss : List σ}
    (hss : ∀ s ∈ ss, Willing s ∧ written s = []) :
    ∃ r o' bs, emitRun call o ss = some (r, o', bs) ∧
      ((r = .ready ∧ Done o' ∧ pending o = bs) ∨
        (r = .inProcess ∧ Live o' ∧ pending o = bs ++ pending o')) := by
  obtain ⟨r, o', bs, hrun, hcases⟩ := h.run_cases hlive fun s hs => (hss s hs).2
  refine ⟨r, o', bs, hrun, ?_⟩
  rcases hcases with hready | hlive' | ⟨-, ⟨s, hs, hunwilling⟩, -⟩
  · exact Or.inl hready
  · exact Or.inr hlive'
  · exact absurd (hss s hs).1 hunwilling

/-- Over sinks that always take something, a run ends after at most as many calls as there are
bytes. -/
theorem Resumable.completes (h : Resumable call Live Done pending Failed) {o : ω} (hlive : Live o)
    (hne : ∀ {o : ω}, Live o → pending o ≠ []) {ss : List σ}
    (hss : ∀ s ∈ ss, Willing s ∧ written s = [] ∧ Eager s) (hlen : (pending o).length ≤ ss.length) :
    ∃ o', emitRun call o ss = some (.ready, o', pending o) ∧ Done o' := by
  induction ss generalizing o with
  | nil => exact absurd (List.eq_nil_of_length_eq_zero (Nat.le_zero.mp hlen)) (hne hlive)
  | cons s rest ih =>
      obtain ⟨hwill, hempty, heager⟩ := hss s List.mem_cons_self
      obtain ⟨r, o', s', hcall, bs, -, hwritten, hstep⟩ := h.step s hlive
      rw [hempty, List.nil_append] at hwritten
      rw [emitRun, hcall]
      rcases hstep with ⟨hr, hdone, hpend⟩ | ⟨hr, hlive', -, hpart, hpend⟩ | ⟨-, hs, -⟩
      · exact ⟨o', by simp [hr, hwritten, hpend], hdone⟩
      · have hbs := List.length_pos_of_ne_nil (hpart heager)
        rw [hpend, List.length_append, List.length_cons] at hlen
        obtain ⟨o'', hrun, hdone⟩ := ih hlive' (fun s hs => hss s (List.mem_cons_of_mem _ hs)) (by omega)
        exact ⟨o'', by simp [hr, hrun, hwritten, hpend], hdone⟩
      · exact absurd hwill hs

end

end Resumable

theorem FdOut.eager {n : Nat} (hn : n ≠ 0) (rest : List (Option Nat)) :
    Eager (FdOut.fresh (some n :: rest)) := by
  intro bs hbs s' hw
  simp only [ByteSink.write, writeToFd, FdOut.fresh, Prod.mk.injEq, Option.some.injEq] at hw
  have hlen := List.length_pos_of_ne_nil hbs
  omega

theorem BufOut.eager {n : Nat} (hn : n ≠ 0) : Eager (BufOut.fresh n) := by
  intro bs hbs s' hw
  simp only [ByteSink.write, writeToBuf, BufOut.fresh, Prod.mk.injEq, Option.some.injEq] at hw
  have hlen := List.length_pos_of_ne_nil hbs
  omega

/-- What a call that has not failed leaves of a window. -/
theorem HandsOver.window {room : Nat} {s' : BufOut} {before : Bytes} {r : Result} {done live : Prop}
    {after : Bytes} {failed : Bytes → Prop} (h : HandsOver (BufOut.fresh room) s' before r done live after failed) :
    (r = .ready ∧ done ∧ s'.out = before ∧ s'.room + before.length = room) ∨
      (r = .inProcess ∧ live ∧ s'.room = 0 ∧ s'.out.length = room ∧ before = s'.out ++ after) := by
  obtain ⟨bs, hkept, hwritten, hcases⟩ := h
  have hout : s'.out = bs := hwritten.trans (List.nil_append bs)
  have hroom : s'.room + s'.out.length = room := hkept
  rcases hcases with ⟨hr, hdone, rfl⟩ | ⟨hr, hlive, hfull, -, rfl⟩ | ⟨-, hs, -⟩
  · exact Or.inl ⟨hr, hdone, hout, hout ▸ hroom⟩
  · have hzero : s'.room = 0 := hfull
    exact Or.inr ⟨hr, hlive, hzero, by omega, by rw [hout]⟩
  · exact absurd trivial hs

end LeanDson
