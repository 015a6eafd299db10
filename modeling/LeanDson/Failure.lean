import LeanDson.History

/-! Failed writes. A write that fails in the middle of a copy leaves the message whole, or its rest
exactly, unless it fails inside a `Dson` that is a child of a container and has written something: such a
child starts over, while the container stays at it. -/

namespace LeanDson

open ByteSink

/-- A schedule of `write` calls, one list of answers for each call of an emitter. -/
def fdWrites (calls : List (List (Option Nat))) : List FdOut := calls.map .fresh

mutual

/-- A nested object goes on where it is when a write fails at a position of its encoding: the position is
in a string or route object, or in front of everything. -/
def DsonObj.Mends (e : Endian) (network : Bool) : DsonObj → Nat → Prop
  | .dson d children, p =>
      p = 0 ∨ d.dsonKind = .dsonContainer ∧ headerSize ≤ p ∧ DsonObj.MendsAll e network children (p - headerSize)
  | .string _, _ => True
  | .route _, _ => True

def DsonObj.MendsAll (e : Endian) (network : Bool) : ObjMap → Nat → Prop
  | [], p => p = 0
  | (_, o) :: rest, p =>
      if p < (o.wire e network).length then o.Mends e network p
      else DsonObj.MendsAll e network rest (p - (o.wire e network).length)

end

/-- A copy can be taken up again when a write has failed at a position of the message: the position is in
the object itself and not in a child of it, or in a child that goes on where it is. -/
def DsonObj.Recovers (e : Endian) (network : Bool) (o : DsonObj) (p : Nat) : Prop :=
  match o with
  | .dson d children =>
      d.dsonKind = .dsonContainer → p < headerSize ∨ DsonObj.MendsAll e network children (p - headerSize)
  | _ => True

/-- What a copy emits into sinks that do not fail, whatever they take: it is still in process or has emitted
exactly these bytes, and it ends when every sink takes something. -/
structure Resends (e : Endian) (network : Bool) (o : DsonObj) (m : Mem) (bs : Bytes) : Prop where
  run : ∀ {σ : Type} [ByteSink σ] {ss : List σ}, (∀ s ∈ ss, Willing s ∧ written s = []) →
    ∃ r o' bs', o.copyRun e network m ss = some (r, (o', m), bs') ∧ (r = .inProcess ∨ (r = .ready ∧ bs' = bs))
  completes : ∀ {σ : Type} [ByteSink σ] {ss : List σ}, (∀ s ∈ ss, Willing s ∧ written s = [] ∧ Eager s) →
    bs.length ≤ ss.length → ∃ o', o.copyRun e network m ss = some (.ready, (o', m), bs)

section

variable {e : Endian} {network : Bool}

/-! ### Positions -/

mutual

theorem DsonObj.mends_iff (e : Endian) (network : Bool) : ∀ (o : DsonObj) (p : Nat), o.Mends e network p ↔ o.resumeAt e network p = p
  | .dson d children, p => by
      rw [DsonObj.Mends, DsonObj.resumeAt]
      cases hkind : d.dsonKind with
      | dsonContainer =>
          have hrest := DsonObj.mendsAll_iff e network children (p - headerSize)
          have hle := DsonObj.resumesAt_le e network children (p - headerSize)
          simp only [true_and]
          split_ifs with hp
          · constructor
            · rintro (rfl | ⟨hge, -⟩)
              · rfl
              · omega
            · exact fun h => Or.inl h.symm
          · rw [hrest]
            rw [headerSize] at *
            omega
      | dataBufNeedParse => simp [eq_comm]
      | oneObjectInDataBuf => simp [eq_comm]
  | .string _, _ => by simp [DsonObj.Mends, DsonObj.resumeAt]
  | .route _, _ => by simp [DsonObj.Mends, DsonObj.resumeAt]

theorem DsonObj.mendsAll_iff (e : Endian) (network : Bool) : ∀ (children : ObjMap) (p : Nat),
    DsonObj.MendsAll e network children p ↔ DsonObj.resumesAt e network children p = p
  | [], p => by
      rw [DsonObj.MendsAll, DsonObj.resumesAt]
      exact eq_comm
  | (_, o) :: rest, p => by
      rw [DsonObj.MendsAll, DsonObj.resumesAt]
      split_ifs with hp
      · exact DsonObj.mends_iff e network o p
      · rw [DsonObj.mendsAll_iff e network rest]
        omega

end

/-- The whole encoding, or its rest, is sent from exactly the positions from which a copy recovers. -/
theorem DsonObj.recovers_iff {o : DsonObj} {p : Nat} (hp : p < (o.wire e network).length) :
    ((o.wire e network).drop (o.resumeAt e network p) = o.wire e network ∨
        (o.wire e network).take p ++ (o.wire e network).drop (o.resumeAt e network p) = o.wire e network) ↔
      o.Recovers e network p := by
  have hle := DsonObj.resumeAt_le e network o p
  have hwhole : (o.wire e network).drop (o.resumeAt e network p) = o.wire e network ↔
      o.resumeAt e network p = 0 := by
    constructor
    · intro h
      have hlen := congrArg List.length h
      rw [List.length_drop] at hlen
      omega
    · intro h
      rw [h, List.drop_zero]
  have hsuffix : (o.wire e network).take p ++ (o.wire e network).drop (o.resumeAt e network p) =
      o.wire e network ↔ o.resumeAt e network p = p := by
    constructor
    · intro h
      have hlen := congrArg List.length h
      rw [List.length_append, List.length_take, List.length_drop] at hlen
      omega
    · intro h
      rw [h, List.take_append_drop]
  rw [hwhole, hsuffix]
  cases o with
  | string s => simp [DsonObj.resumeAt, DsonObj.Recovers]
  | route r => simp [DsonObj.resumeAt, DsonObj.Recovers]
  | dson d children =>
      rw [DsonObj.Recovers, DsonObj.resumeAt]
      cases hkind : d.dsonKind with
      | dataBufNeedParse => simp
      | oneObjectInDataBuf => simp
      | dsonContainer =>
          have hrest := DsonObj.mendsAll_iff e network children (p - headerSize)
          have hchild := DsonObj.resumesAt_le e network children (p - headerSize)
          simp only [true_implies]
          split_ifs with hhead
          · exact ⟨fun _ => Or.inl hhead, fun _ => Or.inl rfl⟩
          · rw [hrest]
            rw [headerSize] at *
            omega

theorem fdWrites_written (calls : List (List (Option Nat))) :
    ∀ s ∈ fdWrites calls, ByteSink.written s = [] := by
  intro s hs
  obtain ⟨answers, -, rfl⟩ := List.mem_map.mp hs
  rfl

/-- An object in the middle of a copy sends what is pending of it. -/
theorem Emittable.resends {o : DsonObj} {k : Int} {t : Tree} (h : Emittable e o k t) (hlt : t.size < 2 ^ 31)
    (network : Bool) (m : Mem) : Resends e network o m (o.pending e network) where
  run hss := by
    obtain ⟨r, o', bs, hrun, ⟨rfl, -, hbs⟩ | ⟨rfl, -, -⟩⟩ := h.copyRun hlt network m hss
    · exact ⟨_, o', bs, hrun, Or.inr ⟨rfl, hbs.symm⟩⟩
    · exact ⟨_, o', bs, hrun, Or.inl rfl⟩
  completes hss hlen := by
    obtain ⟨o', hrun, -⟩ := h.copyRun_completes hlt network m hss hlen
    exact ⟨o', hrun⟩

/-- After a write that has failed, the copy sends the whole message or exactly the rest of it if and only
if the write has not failed inside a nested `Dson` that had written something. -/
theorem failed_write_iff {o o' : DsonObj} {k : Int} {t : Tree} {m m' : Mem} {calls : List (List (Option Nat))}
    {bs : Bytes} (h : Holds e o k t) (hlt : t.size < 2 ^ 31)
    (hrun : o.copyRun e network m (fdWrites calls) = some (.error, (o', m'), bs)) :
    ∃ whole bs', (o.copyToStream e network m).map (fun p => p.2.2) = some whole ∧ Resends e network o' m' bs' ∧
      ((bs' = whole ∨ bs ++ bs' = whole) ↔ o.Recovers e network bs.length) := by
  obtain ⟨s, hstream, -⟩ := h.copyToStream network m
  obtain ⟨r, o₁, bs₁, hrun₁, ho₁, hfails⟩ :=
    h.emittable.copyRun_fails (h.straight network) hlt m (fdWrites_written calls)
  cases hrun.symm.trans hrun₁
  obtain ⟨rest, hne, hpending, hpending'⟩ := hfails rfl
  rw [h.pending] at hpending
  have hrest : 0 < rest.length := List.length_pos_iff.mpr hne
  have hlen : (o.wire e network).length - rest.length = bs.length := by
    rw [hpending, List.length_append, Nat.add_sub_cancel]
  have htake : bs = (o.wire e network).take bs.length := by
    rw [hpending, List.take_left']
    rfl
  rw [hlen] at hpending'
  refine ⟨o.wire e network, o'.pending e network, by rw [hstream]; rfl, ho₁.resends hlt network m, ?_⟩
  rw [hpending', ← DsonObj.recovers_iff (by rw [hpending, List.length_append]; omega), ← htake]

end

/-- A container with the number 7 under the key 5. -/
def numberBox : Option DsonObj := do
  let number ← DsonObj.ofInt32 .little (Dson.clearHeader .little) (fun _ => 205) 7
  let (o, _) ← DsonObj.emplace .little 5 number (DsonObj.empty .little) ⟨[], []⟩
  return o

theorem numberBox_holds : ∃ o, numberBox = some o ∧ Holds .little o 0 (.node [(5, .leaf (.int32 7))]) := by
  obtain ⟨number, hnumber, hchild⟩ := holds_ofInt32 (e := .little) (Dson.clearHeader .little) (fun _ => 205)
    (v := 7) (by decide)
  obtain ⟨o, hemplace, ho⟩ := holds_empty.emplace hchild (by decide : IsInt32 5) ⟨[], []⟩
  refine ⟨o, ?_, ho⟩
  simp only [numberBox, hnumber, hemplace, Option.pure_def, Option.bind_eq_bind, Option.bind_some]

/-- The result of a copy over writes, what it has sent, and what a second copy sends when it is complete. -/
def DsonObj.sendTwice (e : Endian) (network : Bool) (o : DsonObj) (calls : List (List (Option Nat)))
    (calls' : List (List Nat)) : Option (Result × Bytes × Result × Bytes) := do
  let (r, (o, m), bs) ← o.copyRun e network ⟨[], []⟩ (fdWrites calls)
  let (r', _, bs') ← o.copyRun e network m (shortWrites calls')
  return (r, bs, r', bs')

/-- The second call of the copy is refused in front of everything. -/
theorem failed_write_iff_sample : ∃ o o' m' bs whole bs', numberBox = some o ∧
    o.copyRun .little true ⟨[], []⟩ (fdWrites [[some 10], [none]]) = some (.error, (o', m'), bs) ∧
    (o.copyToStream .little true ⟨[], []⟩).map (fun p => p.2.2) = some whole ∧ Resends .little true o' m' bs' ∧
    ((bs' = whole ∨ bs ++ bs' = whole) ↔ o.Recovers .little true bs.length) := by
  obtain ⟨o, hbox, ho⟩ := numberBox_holds
  have hresult : (numberBox.bind fun o =>
      (o.copyRun .little true ⟨[], []⟩ (fdWrites [[some 10], [none]])).map Prod.fst) = some .error := by
    decide +kernel
  rw [hbox, Option.bind_some, Option.map_eq_some_iff] at hresult
  obtain ⟨⟨r, ⟨o', m'⟩, bs⟩, hrun, rfl⟩ := hresult
  obtain ⟨whole, bs', hwhole, hresends, hiff⟩ := failed_write_iff ho (by decide) hrun
  exact ⟨o, o', m', bs, whole, bs', hbox, hrun, hwhole, hresends, hiff⟩

/-- A nested number whose header has been written sends its header once more. -/
theorem nested_number_repeats : ∃ bs bs' whole,
    (numberBox.bind fun o => o.sendTwice .little true [[some 16, some 16, none]] [[16, 4]]) =
      some (.error, bs, .ready, bs') ∧
    (numberBox.bind fun o => (o.copyToStream .little true ⟨[], []⟩).map fun p => p.2.2) = some whole ∧
    bs' ≠ whole ∧ bs ++ bs' ≠ whole := by
  have htwice : ((numberBox.bind fun o => o.sendTwice .little true [[some 16, some 16, none]] [[16, 4]]).map
      fun p => (p.1, p.2.1.length, p.2.2.1, p.2.2.2.length)) = some (.error, 32, .ready, 20) := by
    decide +kernel
  have hwhole : ((numberBox.bind fun o => (o.copyToStream .little true ⟨[], []⟩).map fun p => p.2.2).map
      List.length) = some 36 := by
    decide +kernel
  rw [Option.map_eq_some_iff] at htwice hwhole
  obtain ⟨⟨r, bs, r', bs'⟩, htwice, hlen⟩ := htwice
  obtain ⟨whole, hwhole, hlen'⟩ := hwhole
  simp only [Prod.mk.injEq] at hlen
  obtain ⟨rfl, hbs, rfl, hbs'⟩ := hlen
  refine ⟨bs, bs', whole, htwice, hwhole, fun h => ?_, fun h => ?_⟩
  · rw [h, hlen'] at hbs'
    omega
  · rw [← h, List.length_append, hbs, hbs'] at hlen'
    omega

end LeanDson
