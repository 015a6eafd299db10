import LeanDson.Answers
import LeanDson.Outcomes

/-! Messages that are handled. A message has not been opened, or its children are views of its records, or there is
nothing in it; a call that meets headers that survive it keeps it so, and every answer as it was. -/

namespace LeanDson

variable {e : Endian}

/-! ### Calls -/

section

variable {d : Dson} {children : ObjMap} {f : Handle} {m m' : Mem} {o' : DsonObj}

theorem Dson.Unopened.call {body : Bytes} (h : d.Unopened e body children) (hallowed : f.Allowed e d children m)
    (hrun : f.call e (.dson d children) m = some (o', m')) :
    (∃ d' children', o' = .dson d' children' ∧ d'.Tidy e children') ∧
      (f.IsConversion → DsonObj.Retains e (.dson d children) m o' m') := by
  cases f with
  | get key =>
      obtain ⟨⟨found, o₁, m₁⟩, hget, heq⟩ := Option.map_eq_some_iff.mp hrun
      cases heq
      exact ⟨h.get hallowed hget, False.elim⟩
  | map => exact ⟨h.map hallowed hrun, False.elim⟩
  | toOrder network =>
      obtain ⟨body', h', hto, hre, -⟩ := h.toOrder hallowed
      rw [Handle.call, hto] at hrun
      cases hrun
      exact ⟨⟨_, children, rfl, .unopened hre.unopened⟩, fun _ => hre.retains h m m⟩
  | headerToOrder network =>
      have hre := h.headerToOrder (hallowed _ (header_local h.headerIsLocal m))
      rw [Handle.call, headerToOrder_local h.headerIsLocal] at hrun
      cases hrun
      exact ⟨⟨_, children, rfl, .unopened hre.unopened⟩, fun _ => hre.retains h m m⟩
  | copyToFd network fd =>
      obtain ⟨⟨res, o₁, m₁, fd'⟩, hcopy, heq⟩ := Option.map_eq_some_iff.mp hrun
      cases heq
      exact ((h.copyInternal hallowed hcopy).keeps h).imp_right fun hr _ => hr
  | copyToBuf network buf =>
      obtain ⟨⟨res, o₁, m₁, buf'⟩, hcopy, heq⟩ := Option.map_eq_some_iff.mp hrun
      cases heq
      exact ((h.copyInternal hallowed hcopy).keeps h).imp_right fun hr _ => hr
  | copyToStream network =>
      obtain ⟨⟨o₁, m₁, bs⟩, hcopy, heq⟩ := Option.map_eq_some_iff.mp hrun
      cases heq
      exact ((h.streamInternal hallowed hcopy).keeps h).imp_right fun hr _ => hr

theorem Dson.Opened.call {recs : List Record} {idx : Int → Nat} (h : d.Opened e recs idx children)
    (hallowed : f.Allowed e d children m) (hrun : f.call e (.dson d children) m = some (o', m')) :
    Dson.Reopened e recs idx d children m o' m' := by
  cases f with
  | get key =>
      obtain ⟨⟨found, o₁, m₁⟩, hget, heq⟩ := Option.map_eq_some_iff.mp hrun
      cases heq
      exact h.get hallowed hget
  | map => exact h.map hallowed hrun
  | toOrder network =>
      rw [Handle.call, h.toOrder] at hrun
      cases hrun
      exact h.reopened_self _
  | headerToOrder network =>
      have hturns := hallowed _ (header_local h.headerIsLocal m)
      rw [Handle.call, headerToOrder_local h.headerIsLocal] at hrun
      cases hrun
      exact .of_header hturns.key ((h.setHeader (hturns.dataType.trans h.type)).reopened_self _)
  | copyToFd network fd =>
      obtain ⟨⟨res, o₁, m₁, fd'⟩, hcopy, heq⟩ := Option.map_eq_some_iff.mp hrun
      cases heq
      exact h.copyInternal hallowed hcopy
  | copyToBuf network buf =>
      obtain ⟨⟨res, o₁, m₁, buf'⟩, hcopy, heq⟩ := Option.map_eq_some_iff.mp hrun
      cases heq
      exact h.copyInternal hallowed hcopy
  | copyToStream network =>
      obtain ⟨⟨o₁, m₁, bs⟩, hcopy, heq⟩ := Option.map_eq_some_iff.mp hrun
      cases heq
      exact h.streamInternal hallowed hcopy

theorem Dson.Hollow.call (h : d.Hollow children) (hallowed : f.Allowed e d children m)
    (hrun : f.call e (.dson d children) m = some (o', m')) :
    (∃ d' children', o' = .dson d' children' ∧ d'.Tidy e children') ∧
      (f.IsConversion → DsonObj.Retains e (.dson d children) m o' m') := by
  have hcopied : (m' = m ∧ ∃ d', o' = .dson d' children ∧ d'.Hollow children ∧
      d'.headerBuf.keyOf e = d.headerBuf.keyOf e ∧ d'.headerBuf.dataTypeOf e = d.headerBuf.dataTypeOf e) →
      (∃ d' children', o' = .dson d' children' ∧ d'.Tidy e children') ∧
        (f.IsConversion → DsonObj.Retains e (.dson d children) m o' m') := by
    rintro ⟨rfl, d', rfl, h', hkey, htype⟩
    exact ⟨⟨d', children, rfl, .hollow h'⟩, fun _ => h.retains h' hkey htype m' m'⟩
  cases f with
  | get key =>
      obtain ⟨⟨found, o₁, m₁⟩, hget, heq⟩ := Option.map_eq_some_iff.mp hrun
      cases heq
      rw [h.get hget]
      exact ⟨⟨d, children, rfl, .hollow h⟩, False.elim⟩
  | map =>
      rw [h.map hrun]
      exact ⟨⟨d, children, rfl, .hollow h⟩, False.elim⟩
  | toOrder network =>
      obtain ⟨h', hto, hkey, htype, -⟩ := h.toOrder hallowed
      rw [Handle.call, hto] at hrun
      cases hrun
      exact hcopied ⟨rfl, _, rfl, h.setHeader h', hkey, htype⟩
  | headerToOrder network =>
      have hturns := hallowed _ (header_local h.headerIsLocal m)
      rw [Handle.call, headerToOrder_local h.headerIsLocal] at hrun
      cases hrun
      exact hcopied ⟨rfl, _, rfl, h.setHeader _, hturns.key, hturns.dataType⟩
  | copyToFd network fd =>
      obtain ⟨⟨res, o₁, m₁, fd'⟩, hcopy, heq⟩ := Option.map_eq_some_iff.mp hrun
      cases heq
      exact hcopied (h.copyInternal hallowed hcopy)
  | copyToBuf network buf =>
      obtain ⟨⟨res, o₁, m₁, buf'⟩, hcopy, heq⟩ := Option.map_eq_some_iff.mp hrun
      cases heq
      exact hcopied (h.copyInternal hallowed hcopy)
  | copyToStream network =>
      obtain ⟨⟨o₁, m₁, bs⟩, hcopy, heq⟩ := Option.map_eq_some_iff.mp hrun
      cases heq
      exact hcopied (h.streamInternal hallowed hcopy)

end

/-! ### Calls at the end of a path -/

theorem Handle.callAt_nil (f : Handle) (o : DsonObj) (m : Mem) : f.callAt e [] o m = f.call e o m := by
  rw [callAt, DsonObj.onPath]
  simp only [DsonObj.visit, Option.bind_eq_bind, Option.bind_some]
  cases f.call e o m <;> rfl

/-- Only a parsed container hands out objects, and these have none. -/
theorem Dson.Tidy.visit {d : Dson} {children : ObjMap} (h : d.Tidy e children) {path : List Int} {m : Mem}
    (hv : (DsonObj.dson d children).visit path m ≠ none) :
    path = [] ∨ ∃ key recs idx c r, path = [key] ∧ d.Opened e recs idx children ∧
      KeyMap.find key children = some (.dson c []) ∧ r.key e = key ∧ Dson.SitsAt e recs (idx key) r c ∧ r.Fits e ∧
      (DsonObj.dson d children).visit [key] m = some (.dson c [], m.hold recs) := by
  cases path with
  | nil => exact Or.inl rfl
  | cons key path =>
      have hstate : d.state ≠ .error := fun hs => hv (by rw [DsonObj.visit, if_pos hs])
      rw [DsonObj.visit, if_neg hstate] at hv
      cases h with
      | unopened h =>
          rw [h.nil hstate] at hv
          exact absurd rfl hv
      | hollow h =>
          rw [h.nil] at hv
          exact absurd rfl hv
      | @opened recs idx h =>
          cases hfind : KeyMap.find key children with
          | none =>
              rw [hfind] at hv
              exact absurd rfl hv
          | some o =>
              obtain ⟨c, r, rfl, hkey, hsits, hfits⟩ := h.find hfind
              cases path with
              | cons key' path =>
                  rw [hfind] at hv
                  refine absurd ?_ hv
                  simp only [Option.bind_eq_bind, Option.bind_some, DsonObj.visit, KeyMap.find]
                  split_ifs <;> rfl
              | nil =>
                  refine Or.inr ⟨key, recs, idx, c, r, rfl, h, hfind, hkey, hsits, hfits, ?_⟩
                  rw [DsonObj.visit, if_neg hstate, hfind, h.inner]
                  rfl

/-- A call on a child is a call on its view. -/
theorem Dson.Opened.callAt_child {recs : List Record} {idx : Int → Nat} {d : Dson} {children : ObjMap}
    (h : d.Opened e recs idx children) {key : Int} {c : Dson} (hfind : KeyMap.find key children = some (.dson c []))
    (f : Handle) (m : Mem) : f.callAt e [key] (.dson d children) m =
      (f.call e (.dson c []) (m.hold recs)).map fun p =>
        (.dson (d.outer m p.2).1 (KeyMap.insertOrAssign key p.1 children), (d.outer m p.2).2) := by
  rw [Handle.callAt, DsonObj.visit, if_neg h.state, hfind, DsonObj.onPath, DsonObj.onChild, hfind]
  simp only [Option.bind_eq_bind, Option.bind_some, DsonObj.visit, DsonObj.onPath, h.inner m]
  cases f.call e (.dson c []) (m.hold recs) <;> rfl

/-- A call on a child keeps every answer. -/
theorem Dson.Opened.call_child {recs : List Record} {idx : Int → Nat} {d : Dson} {children : ObjMap}
    (h : d.Opened e recs idx children) {f : Handle} {key : Int} {c : Dson} {m m' : Mem} {o' : DsonObj}
    (hfind : KeyMap.find key children = some (.dson c [])) (hallowed : f.Allowed e c [] (m.hold recs))
    (hrun : f.callAt e [key] (.dson d children) m = some (o', m')) : Dson.Reopened e recs idx d children m o' m' := by
  rw [Handle.callAt, DsonObj.visit, if_neg h.state, hfind] at hrun
  simp only [Option.bind_eq_bind, Option.bind_some, DsonObj.visit, Option.bind_eq_some_iff, Option.pure_def] at hrun
  obtain ⟨⟨u, o₁, m₁⟩, hchild, heq⟩ := hrun
  cases heq
  refine h.onChild (fun c' r' a o₁ m₁ hc hsits hfits hcall => ?_) hchild
  have hsame : c' = c := by
    rw [hfind] at hc
    cases hc
    rfl
  subst hsame
  obtain ⟨⟨o₂, m₂⟩, hone, heq⟩ := Option.map_eq_some_iff.mp hcall
  cases heq
  exact hsits.call rfl hfits hallowed hone

/-- A call keeps a message tidy, and a conversion every answer. -/
theorem Dson.Tidy.call {d : Dson} {children : ObjMap} (h : d.Tidy e children) {f : Handle} {path : List Int} {m m' : Mem}
    {o' : DsonObj} (hallowed : f.AllowedAt e path (.dson d children) m)
    (hrun : f.callAt e path (.dson d children) m = some (o', m')) :
    (∃ d' children', o' = .dson d' children' ∧ d'.Tidy e children') ∧
      (f.IsConversion → DsonObj.Retains e (.dson d children) m o' m') := by
  have hv : (DsonObj.dson d children).visit path m ≠ none := by
    intro hnone
    rw [Handle.callAt, hnone] at hrun
    cases hrun
  rcases h.visit hv with rfl | ⟨key, recs, idx, c, r, rfl, hopen, hfind, -, -, -, hvisit⟩
  · rw [Handle.callAt_nil] at hrun
    have hself : f.Allowed e d children m := hallowed d children m rfl
    cases h with
    | unopened h => exact h.call hself hrun
    | opened h =>
        have hre := h.call hself hrun
        exact ⟨hre.tidy, fun _ => hre.retains h⟩
    | hollow h => exact h.call hself hrun
  · have hre := hopen.call_child hfind (hallowed c [] (m.hold recs) hvisit) hrun
    exact ⟨hre.tidy, fun _ => hre.retains hopen⟩

/-- A conversion to host order of a view: it settles, and does nothing when it is repeated. -/
theorem Dson.Opened.convert_child {recs : List Record} {idx : Int → Nat} {d : Dson} {children : ObjMap}
    (h : d.Opened e recs idx children) {key : Int} {c : Dson} {r : Record}
    (hfind : KeyMap.find key children = some (.dson c [])) (hsits : Dson.SitsAt e recs (idx key) r c)
    (hfits : r.Fits e) {network : Bool} (hsafe : r.Safe e network) (m : Mem) :
    ∃ r', (Handle.toOrder network).callAt e [key] (.dson d children) m =
        some (.dson { d with buf := .own (recordsBytes (recs.set (idx key) r')) } children, m) ∧
      (Handle.toOrder network).callAt e [key]
          (.dson { d with buf := .own (recordsBytes (recs.set (idx key) r')) } children) m =
        some (.dson { d with buf := .own (recordsBytes (recs.set (idx key) r')) } children, m) ∧
      ((converterTo e network (r.header.dataTypeOf e)).isSome → r'.header.inOrder e network) ∧
      Dson.Opened e (recs.set (idx key) r') idx { d with buf := .own (recordsBytes (recs.set (idx key) r')) } children ∧
      Dson.SitsAt e (recs.set (idx key) r') (idx key) r' c := by
  obtain ⟨r', hto, halike, hin, hagain⟩ := hsits.kept_toOrder (m := m.hold recs) rfl hfits hsafe
  rw [Mem.hold_hold] at hto hagain
  have hswept : Swept e idx recs (recs.set (idx key) r') children children := by
    have ha := AlikeAll.set halike hsits.record
    exact ⟨ha, rfl, fun q hq => (h.seated q hq).alike ha⟩
  have h' := h.swept hswept (.refl d)
  have hsame := KeyMap.insertOrAssign_find hfind h.sorted
  refine ⟨r', ?_, ?_, hin, h', hsits.set halike⟩
  · rw [h.callAt_child hfind, Handle.call, hto]
    simp only [Option.map_some, h.outer_hold, hsame]
  · rw [h'.callAt_child hfind, Handle.call, hagain]
    simp only [Option.map_some, h'.outer_hold, hsame]

/-- A call that meets headers that survive it. -/
theorem Dson.Tidy.endures {d : Dson} {children : ObjMap} (h : d.Tidy e children) {f : Handle} {path : List Int} {m : Mem}
    (hallowed : f.AllowedAt e path (.dson d children) m) (hconv : f.IsConversion)
    (hv : (DsonObj.dson d children).visit path m ≠ none) : Endures e f path (.dson d children) m := by
  refine ⟨?_, fun o' m' hrun => (h.call hallowed hrun).2 hconv, ?_⟩
  · rcases h.visit hv with rfl | ⟨key, recs, idx, c, r, rfl, hopen, hfind, -, hsits, hfits, hvisit⟩
    · have hself : f.Allowed e d children m := hallowed d children m rfl
      rw [Handle.callAt_nil]
      cases h with
      | unopened h => exact h.call_isSome hself hconv
      | opened h => exact h.call_isSome hself hconv
      | hollow h => exact h.call_isSome hself hconv
    · rw [hopen.callAt_child hfind, Option.isSome_map]
      exact hsits.call_isSome (m := m.hold recs) rfl hfits (hallowed c [] (m.hold recs) hvisit) hconv
  · rintro rfl o' m' hrun
    rcases h.visit hv with rfl | ⟨key, recs, idx, c, r, rfl, hopen, hfind, -, hsits, hfits, hvisit⟩
    · have hself : d.Convertible e m false := hallowed d children m rfl
      rw [Handle.callAt_nil, Handle.call] at hrun
      rw [Handle.callAt_nil]
      cases h with
      | unopened h =>
          obtain ⟨body', h', hto, hre, hin, hagain⟩ := h.toOrder hself
          rw [hto] at hrun
          cases hrun
          refine ⟨by rw [Handle.call, hagain]; rfl, fun type htype hsome => ?_⟩
          have hhost := hin type htype hsome
          change Dson.isHostOrder e _ m = some true
          rw [Dson.isHostOrder, header_local hre.unopened.headerIsLocal, Option.map_some]
          exact congrArg some hhost
      | opened h =>
          rw [h.toOrder] at hrun
          cases hrun
          refine ⟨by rw [Handle.call, h.toOrder]; rfl, fun type htype hsome => ?_⟩
          have hcontainer : d.dataType e m = some type := htype
          rw [Dson.dataType, if_neg h.state, header_local h.headerIsLocal, Option.map_some, h.type] at hcontainer
          cases hcontainer
          cases hsome
      | hollow h =>
          obtain ⟨h', hto, -, -, hin, hagain⟩ := h.toOrder hself
          rw [hto] at hrun
          cases hrun
          refine ⟨by rw [Handle.call, hagain]; rfl, fun type htype hsome => ?_⟩
          have hown : d.dataType e m = some type := htype
          rw [Dson.dataType, if_neg h.state, header_local h.headerIsLocal, Option.map_some] at hown
          cases hown
          have hhost := hin rfl hsome
          change Dson.isHostOrder e _ m = some true
          rw [Dson.isHostOrder, header_local (h.setHeader h').headerIsLocal, Option.map_some]
          exact congrArg some hhost
    · have hsafe : r.Safe e false := hsits.safe (m := m.hold recs) rfl hfits (hallowed c [] (m.hold recs) hvisit)
      obtain ⟨r', hto, hagain, hin, h', hsits'⟩ := hopen.convert_child hfind hsits hfits hsafe m
      rw [hto] at hrun
      cases hrun
      refine ⟨hagain, fun type htype hsome => ?_⟩
      rw [DsonObj.typeAt, hvisit] at htype
      have htype' : c.dataType e (m.hold recs) = some type := htype
      rw [Dson.dataType, if_neg hsits.state, hsits.header rfl, Option.map_some] at htype'
      cases htype'
      have hhost := hin hsome
      rw [DsonObj.hostOrderAt, DsonObj.visit, if_neg h'.state, hfind, h'.inner]
      change Dson.isHostOrder e c _ = some true
      rw [Dson.isHostOrder, hsits'.header rfl, Option.map_some]
      exact congrArg some hhost

/-- A message with a payload has not been opened when it arrives. -/
theorem Dson.Took.unopened {d : Dson} {h : Header} {body : Bytes} (ht : d.Took e h body) (hne : body ≠ []) :
    d.Unopened e body [] ∧ d.state = .ready := by
  obtain ⟨rfl, hsize, hlimit, ⟨-, hloaded⟩ | ⟨hnil, -⟩⟩ := ht
  · exact ⟨⟨by simp [hloaded.kind], hloaded.alloc, hloaded.buf, hloaded.size, hlimit, hsize, fun _ => rfl⟩, hloaded.state⟩
  · exact absurd hnil hne

/-- A message that has arrived is tidy. -/
theorem Dson.Took.tidy {d : Dson} {h : Header} {body : Bytes} (ht : d.Took e h body) : d.Tidy e [] := by
  by_cases hne : body = []
  · obtain ⟨-, -, -, ⟨hbody, -⟩ | ⟨-, hstate, hkind, hbuf, halloc⟩⟩ := ht
    · exact absurd hne hbody
    · exact .hollow ⟨hkind, by simp [hstate], halloc, hbuf, rfl⟩
  · exact .unopened (ht.unopened hne).1

/-- However a message is handled, it stays tidy. -/
theorem Handled.tidy {o o' : DsonObj} {m m' : Mem} (hh : Handled e o m o' m')
    (ho : ∃ d children, o = .dson d children ∧ d.Tidy e children) :
    ∃ d children, o' = .dson d children ∧ d.Tidy e children := by
  induction hh with
  | arrived => exact ho
  | call _ hallowed hcall ih =>
      obtain ⟨d, children, rfl, htidy⟩ := ih
      exact (htidy.call hallowed hcall).1

/-- Conversions and copies of an accepted message and of the objects in it, whatever has been called before, keep
what every object answers, and conversions to host order settle, as long as the calls meet headers that survive
them. -/
theorem conversions_endure {h : Header} {body : Bytes} {o o' : DsonObj} {m m' : Mem} {f : Handle} {path : List Int}
    (hm : IsMessage e h body) (ho : Arrives e o (h.bytes ++ body)) (hh : Handled e o m o' m')
    (hallowed : f.AllowedAt e path o' m') (hconv : f.IsConversion) (hv : o'.visit path m' ≠ none) :
    Endures e f path o' m' := by
  obtain ⟨d, rfl, htook⟩ := ho.took hm
  obtain ⟨d', children', rfl, htidy⟩ := hh.tidy ⟨d, [], rfl, htook.tidy⟩
  exact htidy.endures hallowed hconv hv

/-- A number that has arrived in network order, converted to host order. -/
theorem conversions_endure_int32 :
    let h : Header := ⟨markNetworkOrder .little, ⟨0, 0, 0, 4⟩, ⟨0, 0, 0, 5⟩, ⟨0, 0, 0, 3⟩⟩
    ∃ o, Arrives .little o (h.bytes ++ [0, 0, 0, 7]) ∧ Endures .little (.toOrder false) [] o ⟨[], []⟩ := by
  intro h
  have hm : IsMessage .little h [0, 0, 0, 7] := by decide
  obtain ⟨o, ho⟩ := hm.arrives
  refine ⟨o, ho, conversions_endure (m := ⟨[], []⟩) hm ho .arrived ?_ trivial (by simp [DsonObj.visit])⟩
  obtain ⟨d, rfl, htook⟩ := ho.took hm
  intro d' children mem hvisit r hread
  cases hvisit
  obtain ⟨hun, hstate⟩ := htook.unopened (by simp)
  rw [hun.asRecord (by simp [hstate]), htook.1] at hread
  cases hread
  exact Or.inr ⟨by decide, fun _ => by decide⟩

/-- A number under a mark that is neither of the two is accepted; a conversion of its header to host order swaps
the words, which are still read in network order: the key 5 becomes 83886080. -/
theorem mark_toggles :
    let h : Header := ⟨⟨2, 0, 0, 0⟩, ⟨0, 0, 0, 4⟩, ⟨0, 0, 0, 5⟩, ⟨0, 0, 0, 3⟩⟩
    IsMessage .little h [0, 0, 0, 7] ∧ ∃ o, Arrives .little o (h.bytes ++ [0, 0, 0, 7]) ∧
      (∃ o' m', (Handle.headerToOrder false).callAt .little [] o ⟨[], []⟩ = some (o', m') ∧
        o.key .little ⟨[], []⟩ = some 5 ∧ o'.key .little m' = some 83886080) ∧
      ¬Endures .little (.headerToOrder false) [] o ⟨[], []⟩ := by
  intro h
  have hm : IsMessage .little h [0, 0, 0, 7] := by decide
  obtain ⟨o, ho⟩ := hm.arrives
  refine ⟨hm, o, ho, ?_⟩
  obtain ⟨d, rfl, htook⟩ := ho.took hm
  have hun := (htook.unopened (by simp)).1
  have hcall : (Handle.headerToOrder false).callAt .little [] (.dson d []) ⟨[], []⟩ =
      some (.dson { d with headerBuf := h.toOrder .little false } [], ⟨[], []⟩) := by
    rw [Handle.callAt_nil, Handle.call, Dson.headerToOrder_local hun.headerIsLocal, htook.1]
    rfl
  have hkey : (DsonObj.dson d []).key .little ⟨[], []⟩ = some 5 := by
    rw [DsonObj.key, Dson.key, Dson.header_local hun.headerIsLocal, htook.1]
    decide
  have hkey' : (DsonObj.dson { d with headerBuf := h.toOrder .little false } []).key .little ⟨[], []⟩ =
      some 83886080 := by
    rw [DsonObj.key, Dson.key, Dson.header_local (d := { d with headerBuf := h.toOrder .little false }) hun.headerIsLocal]
    exact congrArg some (by decide : (h.toOrder .little false).keyOf .little = 83886080)
  refine ⟨⟨_, _, hcall, hkey, hkey'⟩, fun hend => ?_⟩
  have hs := hend.retains _ _ hcall [] _ (hun.summary _)
  rw [DsonObj.tells_nil, DsonObj.summary, hkey', htook.1] at hs
  simp only [Option.bind_eq_bind, Option.bind_some] at hs
  obtain ⟨type, -, hs⟩ := Option.bind_eq_some_iff.mp hs
  obtain ⟨size, -, heq⟩ := Option.bind_eq_some_iff.mp hs
  have hsame : (83886080 : Int) = h.keyOf .little := congrArg Prod.fst (Option.some.inj heq)
  exact absurd hsame (by decide)

end LeanDson
