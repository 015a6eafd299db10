import LeanDson.Letters

/-! Relays that look. A container that has been received is read before it is sent on. The stream emitter sends it on
with the same contents, in either order, looked at or not. The incremental emitters never come to the end of a container
that has been parsed: its children are views that have no size of their own. -/

namespace LeanDson

open ByteSink

variable {e : Endian}

/-! ### The incremental emitters -/

/-- A single object in foreign memory, without the size that only a loader or a constructor stores. -/
structure Dson.Sizeless (v : Dson) : Prop where
  kind : v.dsonKind = .oneObjectInDataBuf
  alloc : v.wasBufAllocation = false
  size : v.bufSize = 0

section

variable {σ : Type} [ByteSink σ] {copy : DsonObj → Mem → σ → Option (Result × DsonObj × Mem × σ)} {network : Bool}
  {v : Dson} {children : ObjMap} {m m' : Mem} {s s' : σ} {r : Result} {o' : DsonObj}

/-- Behind the header of such an object the emitters give up. -/
theorem Dson.Sizeless.copyData (hv : v.Sizeless) (hrun : v.copyData copy children m s = some (r, o', m', s')) :
    r = .error ∧ o' = .dson v children := by
  have hsize : (v.offset : Int) ≥ v.bufSizeWithoutHeader := by
    rw [Dson.bufSizeWithoutHeader, hv.alloc, hv.size, headerSize]
    simp only [Bool.false_eq_true, if_false]
    omega
  rw [Dson.copyData, if_neg (by simp [hv.kind]), Dson.copyBuf, if_pos hsize] at hrun
  cases hrun
  exact ⟨rfl, rfl⟩

theorem Dson.Sizeless.copyHeader (hv : v.Sizeless) (hrun : v.copyHeader copy children m s = some (r, o', m', s')) :
    r ≠ .ready ∧ ∃ v', o' = .dson v' children ∧ v'.Sizeless := by
  rw [Dson.copyHeader] at hrun
  split_ifs at hrun
  · cases hrun
    exact ⟨by simp, v, rfl, hv⟩
  obtain ⟨h, -, hrun⟩ := Option.bind_eq_some_iff.mp hrun
  rcases hw : write s (h.bytes.drop v.offset) with ⟨_ | n, t⟩
  · rw [hw] at hrun
    cases hrun
    exact ⟨by simp, _, rfl, hv.kind, hv.alloc, hv.size⟩
  · rw [hw] at hrun
    dsimp only at hrun
    split_ifs at hrun with hpart hkind
    · cases hrun
      exact ⟨by simp, _, rfl, hv.kind, hv.alloc, hv.size⟩
    · rw [hv.kind] at hkind
      cases hkind
    · have hv' : Dson.Sizeless { v with offset := 0, state := .copyingData } := ⟨hv.kind, hv.alloc, hv.size⟩
      obtain ⟨rfl, rfl⟩ := hv'.copyData hrun
      exact ⟨by simp, _, rfl, hv'⟩

theorem Dson.Sizeless.copyInternal (hv : v.Sizeless)
    (hrun : v.copyInternal e copy network children m s = some (r, o', m', s')) :
    r ≠ .ready ∧ ∃ v' children', o' = .dson v' children' ∧ v'.Sizeless := by
  rw [Dson.copyInternal] at hrun
  split at hrun
  · obtain ⟨⟨v₁, children₁, m₁⟩, hprepare, hrun⟩ := Option.bind_eq_some_iff.mp hrun
    obtain ⟨h, v₂, v₃, -, ⟨hkind, -⟩ | ⟨-, rfl, rfl⟩, hrewrites, rfl⟩ := Dson.prepareCopy_cases hprepare
    · rw [hv.kind] at hkind
      cases hkind
    · have hv₃ : Dson.Sizeless { v₃ with offset := 0, state := .copyingHeader } :=
        ⟨hrewrites.dsonKind.trans hv.kind, hrewrites.wasBufAllocation.trans hv.alloc, hrewrites.bufSize.trans hv.size⟩
      obtain ⟨hr, v', hv', hsizeless⟩ := hv₃.copyHeader hrun
      exact ⟨hr, v', _, hv', hsizeless⟩
  · obtain ⟨hr, v', hv', hsizeless⟩ := hv.copyHeader hrun
    exact ⟨hr, v', _, hv', hsizeless⟩
  · obtain ⟨rfl, rfl⟩ := hv.copyData hrun
    exact ⟨by simp, _, _, rfl, hv⟩
  · cases hrun
    exact ⟨by simp, _, _, rfl, hv⟩

/-- No calls hand such an object over. -/
theorem HandedOver.not_sizeless {o : DsonObj} {bs : Bytes} (h : HandedOver σ e network o m bs) :
    ¬∃ v children, o = .dson v children ∧ Dson.Sizeless v := by
  induction h with
  | @last fuel o o' m m' s s' bs hcopy _ =>
      rintro ⟨v, children, rfl, hv⟩
      cases fuel with
      | zero => cases hcopy
      | succ fuel => exact (hv.copyInternal hcopy).1 rfl
  | @more fuel o o' m m' s s' bs bs' hcopy _ _ ih =>
      rintro ⟨v, children, rfl, hv⟩
      cases fuel with
      | zero => cases hcopy
      | succ fuel =>
          obtain ⟨-, v', children', rfl, hv'⟩ := hv.copyInternal hcopy
          exact ih ⟨v', children', rfl, hv'⟩

/-- No run over sinks of one kind comes to the end of a container with such a child, neither of one that has it
already nor of one that a parse gives it. -/
theorem copyRun_not_ready {d d₁ : Dson} {children₀ children cs : ObjMap} {key : Int} {q : DsonObj × Mem} {bs : Bytes}
    {ss : List σ} (hstate : d.state = .ready) (hprepared : (d₁ = d ∧ children = children₀) ∨
      children₀ = [] ∧ ∃ h, d.header m = some h ∧ d.dsonKind = .dataBufNeedParse ∧
        (h.isHostOrder e ∧ network ∨ h.isNetworkOrder e ∧ ¬network) ∧ d.parseBuf e children₀ m = some (d₁, children))
    (hkind : d₁.dsonKind = .dsonContainer) (hsorted : KeyMap.Sorted children)
    (hfind : KeyMap.find key children = some (.dson v cs)) (hv : v.Sizeless) (hss : ∀ s ∈ ss, written s = []) :
    (DsonObj.dson d children₀).copyRun e network m ss ≠ some (.ready, q, bs) := by
  intro hrun
  rcases hprepared with ⟨rfl, rfl⟩ | ⟨rfl, h, hread, hneeds, hturn, hparse⟩
  · obtain ⟨pre, mid, post, mv, -, hover⟩ := copyRun_includes hstate hkind hsorted hfind hss hrun
    exact hover.not_sizeless ⟨v, cs, rfl, hv⟩
  cases ss with
  | nil => cases hrun
  | cons s ss =>
      obtain ⟨r, o', m', s', hcopy, -⟩ := DsonObj.emitRun_cons hrun
      have hcall : DsonObj.copyCall e network (.dson d [], m) s = some (r, (o', m'), s') := by
        rw [DsonObj.copyCall, hcopy]
        rfl
      rw [DsonObj.copyTo, DsonObj.depth, DsonObj.copyFuel, Dson.copyInternal, hstate] at hcopy
      obtain ⟨⟨d₂, children₂, m₂⟩, hprepare, hcopy⟩ := Option.bind_eq_some_iff.mp hcopy
      obtain ⟨h', d₃, d₄, hread', hcases, hrewrites, rfl⟩ := Dson.prepareCopy_cases hprepare
      obtain rfl : h' = h := Option.some.inj (hread'.symm.trans hread)
      rcases hcases with ⟨-, -, hparse'⟩ | ⟨hnot, -⟩
      · have heq := hparse.symm.trans hparse'
        cases heq
        -- the call is one on the container in the middle of its header, with more fuel than the block had
        have hcall' : Dson.copyInternal e (DsonObj.copyFuel e network 1) network
            { d₄ with offset := 0, state := .copyingHeader } children m₂ s = some (r, o', m', s') := hcopy
        have hfuel : (DsonObj.dson { d₄ with offset := 0, state := .copyingHeader } children).copyTo e network m₂ s =
            some (r, o', m', s') :=
          copyInternal_extends (copyFuel_extends (le_max_left 1 (DsonObj.depths children))) hcall'
        have hsame : DsonObj.copyCall e network (.dson { d₄ with offset := 0, state := .copyingHeader } children, m₂) s =
            some (r, (o', m'), s') := by
          rw [DsonObj.copyCall, hfuel]
          rfl
        have hdue : Dson.Due { d₄ with offset := 0, state := .copyingHeader } children key (.dson v cs) :=
          ⟨hrewrites.dsonKind.trans hkind, hsorted, hfind, Or.inl rfl⟩
        have hrun' : emitRun (DsonObj.copyCall e network)
            (.dson { d₄ with offset := 0, state := .copyingHeader } children, m₂) (s :: ss) = some (.ready, q, bs) := by
          rw [emitRun, hsame, ← hcall]
          exact hrun
        obtain ⟨pre, mid, post, mv, -, hover⟩ := hdue.run hss hrun'
        exact hover.not_sizeless ⟨v, cs, rfl, hv⟩
      · exact hnot ⟨hneeds, hturn⟩

end

/-! ### What a relay sends -/

/-- The header of an encoding is in the order of the emission. -/
theorem Holds.wire_header {o : DsonObj} {k : Int} {ts : Forest} (ho : Holds e o k (.node ts)) (network : Bool) :
    ∃ (h : Header) (body : Bytes), o.wire e network = h.bytes ++ body ∧ h.ValidMark e ∧ h.inOrder e network := by
  cases o with
  | string s => exact ho.elim
  | route r => exact ho.elim
  | dson d children =>
      rw [Holds] at ho
      obtain ⟨-, hnode, -, -⟩ := ho
      have hmark : (d.headerBuf.setDataSize e (DsonObj.wires e network children).length).ValidMark e :=
        (Header.validMark_congr (d.headerBuf.setDataSize_markByteOrder _)).mpr hnode.mark
      refine ⟨_, DsonObj.wires e network children, ?_, Header.toOrder_valid hmark network,
        Header.inOrder_toOrder hmark network⟩
      simp only [DsonObj.wire, hnode.kind]

/-- The bytes of a letter. -/
def IsLetter (e : Endian) (k : Int) (ts : Forest) (bs : Bytes) : Prop :=
  ∃ h recs, bs = h.bytes ++ recordsBytes recs ∧ Letter e k ts h recs

theorem Message.wire_letter (msg : Message e) : ∃ h recs, msg.wire = h.bytes ++ recordsBytes recs ∧
    Letter e msg.key msg.children h recs ∧ h.inOrder e msg.network := by
  obtain ⟨h, recs, hwire, hc, hm, hkey, htype⟩ := msg.built.holds.wire_message msg.plain msg.limit msg.network
  obtain ⟨h', body, hwire', hmark, hin⟩ := msg.built.holds.wire_header msg.network
  obtain ⟨rfl, -⟩ := Header.eq_of_append (hwire'.symm.trans hwire)
  have hordered := msg.built.holds.ordered
  rw [Tree.Ordered] at hordered
  refine ⟨h', recs, hwire, ⟨hmark, by rw [hm.size, hc.length], msg.limit, hkey, htype, hc, hordered.1, ?_⟩, hin⟩
  intro key hk
  obtain ⟨p, hp, rfl⟩ := List.mem_map.mp hk
  exact msg.keys p hp

/-- A header that no emitter turns is that of a little-endian host, in the order that is asked for. -/
theorem Header.inOrder_of_not_turned {h : Header} (hv : h.ValidMark e) {network : Bool}
    (hnot : ¬(h.isHostOrder e ∧ network ∨ h.isNetworkOrder e ∧ ¬network)) : e = .little ∧ h.inOrder e network := by
  cases e with
  | big =>
      have hboth : h.isNetworkOrder .big = h.isHostOrder .big := rfl
      rw [Header.ValidMark, hboth, or_self] at hv
      refine absurd ?_ hnot
      rw [hboth]
      cases network
      · exact Or.inr ⟨hv, by simp⟩
      · exact Or.inl ⟨hv, rfl⟩
  | little =>
      refine ⟨rfl, ?_⟩
      cases network
      · exact hv.resolve_right fun hnet => hnot (Or.inr ⟨hnet, by simp⟩)
      · exact hv.resolve_left fun hhost => hnot (Or.inl ⟨hhost, rfl⟩)

section

variable {k : Int} {ts : Forest} {o : DsonObj} {network : Bool} {m : Mem}

/-- The first of the views of a parsed container has no size. -/
theorem Letter.first_view {h : Header} {recs : List Record} (hl : Letter e k ts h recs) (hne : recs ≠ []) :
    ∃ key v, KeyMap.find key (viewsFrom e 0 recs) = some (.dson v []) ∧ v.Sizeless := by
  have hc := hl.carries
  cases hc with
  | nil => exact absurd rfl hne
  | @cons r p recs ts hr _ =>
      obtain ⟨v, -, -, hleaf⟩ := hr
      exact ⟨r.key e, r.view e 0, by simp [viewsFrom, KeyMap.find], hleaf.view_kind 0, rfl, rfl⟩

/-- The incremental emitters come to the end of a letter only if it is empty, or is sent on as it came, on a
little-endian host and in the order it came in. -/
theorem Held.ready (ho : Held e k ts o) {σ : Type} [ByteSink σ] {ss : List σ} (hss : ∀ s ∈ ss, written s = [])
    {q : DsonObj × Mem} {bs : Bytes} (hrun : o.copyRun e network m ss = some (.ready, q, bs)) :
    ts = [] ∨ (e = .little ∧ ¬o.Opened ∧ ∃ d h recs, o = .dson d [] ∧ Letter e k ts h recs ∧
      d.Took e h (recordsBytes recs) ∧ h.inOrder e network) := by
  by_cases hts : ts = []
  · exact Or.inl hts
  refine Or.inr ?_
  cases ho with
  | @looked d recs hl hd hne =>
      obtain ⟨key, v, hfind, hv⟩ := hl.first_view hne
      rw [hl.carries.views_eq hl.sorted] at hrun
      have hsorted := sorted_views e 0 recs KeyMap.sorted_nil
      rw [hl.carries.views_eq hl.sorted] at hsorted
      exact absurd hrun (copyRun_not_ready hd.state (Or.inl ⟨rfl, rfl⟩) hd.kind hsorted hfind hv hss)
  | @came d h recs hl ht =>
      have hne : recs ≠ [] := fun hnil => hts (hl.carries.nil_iff.mp hnil)
      obtain ⟨hkind, hparse, hd⟩ := hl.parseBuf ht hne m
      obtain ⟨key, v, hfind, hv⟩ := hl.first_view hne
      have hsorted := sorted_views e 0 recs KeyMap.sorted_nil
      rw [hl.carries.views_eq hl.sorted] at hsorted
      by_cases hturn : h.isHostOrder e ∧ network ∨ h.isNetworkOrder e ∧ ¬network
      · exact absurd hrun (copyRun_not_ready ht.ready (Or.inr ⟨rfl, h, ht.bears.read m, hkind, hturn, hparse⟩) hd.kind
          hsorted hfind hv hss)
      · obtain ⟨rfl, hin⟩ := Header.inOrder_of_not_turned hl.mark hturn
        refine ⟨rfl, fun hopened => ?_, d, h, recs, rfl, hl, ht, hin⟩
        rw [DsonObj.Opened, hkind] at hopened
        cases hopened

/-- An empty letter is an empty container. -/
theorem Letter.holds_nil {d : Dson} {h : Header} (hl : Letter e k [] h []) (ht : d.Took e h []) :
    Holds e (.dson d []) k (.node []) := by
  obtain ⟨rfl, -, -, ⟨hne, -⟩ | ⟨-, hstate, hkind, hbuf, halloc⟩⟩ := ht
  · exact absurd rfl hne
  · exact ⟨hstate, ⟨hkind, halloc, hbuf, hl.mark, hl.key, hl.type⟩, KeyMap.sorted_nil, trivial⟩

theorem Held.holds_nil (ho : Held e k [] o) : Holds e o k (.node []) := by
  cases ho with
  | came hl ht =>
      obtain rfl := hl.carries.nil_iff.mpr rfl
      exact hl.holds_nil ht
  | looked hl _ hne => exact absurd (hl.carries.nil_iff.mpr rfl) hne

/-- What a run over sinks of one kind has sent when it is complete. -/
theorem Held.ready_letter (ho : Held e k ts o) {σ : Type} [ByteSink σ] {ss : List σ} (hss : ∀ s ∈ ss, written s = [])
    {q : DsonObj × Mem} {bs : Bytes} (hrun : o.copyRun e network m ss = some (.ready, q, bs)) : IsLetter e k ts bs := by
  rcases ho.ready hss hrun with rfl | ⟨rfl, -, d, h, recs, rfl, hl, ht, hin⟩
  · have hholds := ho.holds_nil
    obtain ⟨r, ⟨o', m'⟩, bs', hrun', hcases⟩ := (copyCall_resumable (by decide) m o False).run_cases
      (⟨rfl, hholds.emittable, ⟨rfl, rfl⟩, False.elim⟩ : (o, m).2 = m ∧ _) hss
    have heq := hrun.symm.trans hrun'
    cases heq
    obtain ⟨h, body, hwire, hmark, -⟩ := hholds.wire_header network
    obtain ⟨h', recs, hwire', hc, hm, hkey, htype⟩ := hholds.wire_message (by simp) (Nat.zero_le _) network
    obtain ⟨rfl, -⟩ := Header.eq_of_append (hwire.symm.trans hwire')
    rcases hcases with ⟨-, -, hbs⟩ | ⟨hr, -⟩ | ⟨hr, -⟩
    · refine ⟨h, recs, ?_, hmark, by rw [hm.size, hc.length], Nat.zero_le _, hkey, htype, hc, KeyMap.sorted_nil, by simp⟩
      rw [← hbs, ← hwire', ← hholds.pending network]
    · cases hr
    · cases hr
  · exact ⟨h, recs, (ht.handsOn hin m σ).eq hss hrun, hl⟩

/-- Whatever a relay sends of a letter, if it comes to the end of it, is a letter with the same contents. -/
theorem Held.sends (ho : Held e k ts o) {bs : Bytes} (hsends : o.Sends e network m bs) : IsLetter e k ts bs := by
  cases hsends with
  | stream hrun =>
    obtain ⟨o', h, recs, hrun', hl, -⟩ := ho.copyToStream network m
    rw [hrun'] at hrun
    cases hrun
    exact ⟨h, recs, rfl, hl⟩
  | fd hss hrun => exact ho.ready_letter hss hrun
  | buf hss hrun => exact ho.ready_letter hss hrun

theorem IsLetter.held {bs : Bytes} (hb : IsLetter e k ts bs) (ho : Arrives e o bs) : Held e k ts o := by
  obtain ⟨h, recs, rfl, hl⟩ := hb
  obtain ⟨d, rfl, ht⟩ := ho.took hl.isMessage
  exact .came hl ht

end

/-! ### Chains of relays that look -/

/-- A relay: some loader takes the message, it is looked at any number of times, and some emitter sends it on in an
order of the relay's own. -/
def Relayed (e : Endian) (bs bs' : Bytes) : Prop :=
  ∃ o looks answers o' m m' network, Arrives e o bs ∧ lookAll e looks o m = some (answers, o', m') ∧
    o'.Sends e network m' bs'

theorem IsLetter.relayed {k : Int} {ts : Forest} {bs bs' : Bytes} (hb : IsLetter e k ts bs) (hr : Relayed e bs bs') :
    IsLetter e k ts bs' := by
  obtain ⟨o, looks, answers, o', m, m', network, ho, hlooks, hsends⟩ := hr
  obtain ⟨o₁, hlooks', hheld, -⟩ := (hb.held ho).lookAll looks m
  have heq := hlooks.symm.trans hlooks'
  cases heq
  exact hheld.sends hsends

theorem IsLetter.delivered {msg : Message e} {bs : Bytes} (hb : IsLetter e msg.key msg.children bs) {o : DsonObj}
    (ho : Arrives e o bs) : Delivered e msg o := (hb.held ho).shows.delivered

theorem Message.isLetter (msg : Message e) : IsLetter e msg.key msg.children msg.wire := by
  obtain ⟨h, recs, hwire, hl, -⟩ := msg.wire_letter
  exact ⟨h, recs, hwire, hl⟩

/-- However many relays a message has passed, each with a loader, looks and an emitter of its own and in an order of
its own: what comes out at the end can be loaded, and delivers what was sent. -/
theorem relays_deliver (msg : Message e) {bs : Bytes} (hchain : Relation.ReflTransGen (Relayed e) msg.wire bs) :
    (∃ o, Arrives e o bs) ∧ ∀ o, Arrives e o bs → Delivered e msg o := by
  have hb : IsLetter e msg.key msg.children bs := by
    induction hchain with
    | refl => exact msg.isLetter
    | tail _ hr ih => exact ih.relayed hr
  refine ⟨?_, fun o ho => hb.delivered ho⟩
  obtain ⟨h, recs, rfl, hl⟩ := hb
  exact hl.isMessage.arrives

/-- A container with one string, sent in host order. -/
theorem Message.greeting : ∃ msg : Message .little, msg.children = [(9, .leaf (.string [104, 105]))] ∧
    msg.network = false := by
  have hstring : Built .little (DsonObj.ofStringObj .little 9 [104, 105]) 9 (.leaf (.string [104, 105])) :=
    .stringObj (by decide) (by decide) (by decide)
  obtain ⟨u, o, hrun⟩ := (Built.container.serves ⟨[], []⟩).emplacePtr hstring
    (rfl : (Tree.node []).modify _ [] = some _)
  refine ⟨⟨o, false, 0, [(9, .leaf (.string [104, 105]))], .emplacePtr .container hstring rfl hrun, ?_, ?_, by decide⟩,
    rfl, rfl⟩
  · simp
  · rintro p hp
    rw [List.mem_singleton] at hp
    exact ⟨.string [104, 105], by rw [hp], trivial⟩

/-- A relay has read the string of a message and sent the message on by stream in network order. -/
theorem relays_deliver_sample : ∃ (msg : Message .little) (bs : Bytes), msg.children ≠ [] ∧
    Relayed .little msg.wire bs ∧ ∀ o, Arrives .little o bs → Delivered .little msg o := by
  obtain ⟨msg, hchildren, -⟩ := Message.greeting
  obtain ⟨h, recs, hwire, hl, -⟩ := msg.wire_letter
  obtain ⟨o, ho⟩ := hl.isMessage.arrives
  rw [← hwire] at ho
  obtain ⟨o', hlooks, hheld, -⟩ := (msg.isLetter.held ho).lookAll [(9, .string)] ⟨[], []⟩
  obtain ⟨o'', h', recs', hrun, -⟩ := hheld.copyToStream true ⟨[], []⟩
  have hr : Relayed .little msg.wire (h'.bytes ++ recordsBytes recs') :=
    ⟨o, _, _, o', _, _, true, ho, hlooks, .stream hrun⟩
  exact ⟨msg, _, by simp [hchildren], hr, (relays_deliver msg (.single hr)).2⟩

/-- Some run over sinks of one kind comes to its end. -/
def Completes (σ : Type) [ByteSink σ] (e : Endian) (network : Bool) (o : DsonObj) (m : Mem) : Prop :=
  ∃ (ss : List σ) (q : DsonObj × Mem) (bs : Bytes), (∀ s ∈ ss, written s = []) ∧
    o.copyRun e network m ss = some (.ready, q, bs)

theorem FdOut.eagers (n : Nat) : ∃ ss : List FdOut, ss.length = n ∧ ∀ s ∈ ss, Willing s ∧ written s = [] ∧ Eager s := by
  refine ⟨shortWrites (List.replicate n [1]), by simp [shortWrites], fun s hs => ?_⟩
  obtain ⟨hwilling, hempty⟩ := shortWrites_willing _ s hs
  refine ⟨hwilling, hempty, ?_⟩
  simp only [shortWrites, List.map_replicate, List.mem_replicate] at hs
  rw [hs.2]
  exact FdOut.eager one_ne_zero []

theorem BufOut.eagers (n : Nat) : ∃ ss : List BufOut, ss.length = n ∧ ∀ s ∈ ss, Willing s ∧ written s = [] ∧ Eager s := by
  refine ⟨windows (List.replicate n 1), by simp [windows], fun s hs => ?_⟩
  obtain ⟨hwilling, hempty⟩ := windows_willing _ s hs
  refine ⟨hwilling, hempty, ?_⟩
  simp only [windows, List.map_replicate, List.mem_replicate] at hs
  rw [hs.2]
  exact BufOut.eager one_ne_zero

theorem Message.completes_iff (msg : Message e) {σ : Type} [ByteSink σ]
    (heagers : ∀ n, ∃ ss : List σ, ss.length = n ∧ ∀ s ∈ ss, Willing s ∧ written s = [] ∧ Eager s) {o : DsonObj}
    (ho : Arrives e o msg.wire) {looks : List (Int × Reading)} {answers : List Answer} {o' : DsonObj} {m m' : Mem}
    (hlooks : lookAll e looks o m = some (answers, o', m')) (network : Bool) :
    Completes σ e network o' m' ↔ msg.children = [] ∨ (e = .little ∧ looks = [] ∧ network = msg.network) := by
  obtain ⟨h, recs, hwire, hl, hin⟩ := msg.wire_letter
  rw [hwire] at ho
  obtain ⟨d, rfl, ht⟩ := ho.took hl.isMessage
  have hcame : Held e msg.key msg.children (.dson d []) := .came hl ht
  obtain ⟨o₁, hlooks', hheld, hopened, -⟩ := hcame.lookAll looks m
  have heq := hlooks.symm.trans hlooks'
  cases heq
  constructor
  · rintro ⟨ss, q, bs, hss, hrun⟩
    rcases hheld.ready hss hrun with hnil | ⟨rfl, hclosed, d', h', recs', rfl, hl', ht', hin'⟩
    · exact Or.inl hnil
    · have hnone : looks = [] := by
        by_contra hne
        exact hclosed (hopened hne)
      subst hnone
      cases hlooks
      obtain rfl : h' = h := ht'.1.symm.trans ht.1
      refine Or.inr ⟨rfl, rfl, ?_⟩
      by_contra hne
      refine Header.not_inOrder_both hin ?_
      rw [← Bool.eq_not_of_ne hne]
      exact hin'
  · rintro (hnil | ⟨rfl, rfl, rfl⟩)
    · rw [hnil] at hheld
      have hholds := hheld.holds_nil
      obtain ⟨ss, hlen, hss⟩ := heagers (o'.pending e network).length
      obtain ⟨o'', hrun, -⟩ := hholds.emittable.copyRun_completes (by decide) network m hss hlen.ge
      exact ⟨ss, _, _, fun s hs => (hss s hs).2.1, hrun⟩
    · cases hlooks
      obtain ⟨ss, hlen, hss⟩ := heagers (h.bytes ++ recordsBytes recs).length
      obtain ⟨r, o'', bs, hrun, -, -, -, hready, -⟩ := ht.handsOn hin m σ ss fun s hs => (hss s hs).2.1
      obtain rfl := hready (fun s hs => ⟨(hss s hs).1, (hss s hs).2.2⟩) hlen.ge
      exact ⟨ss, _, _, fun s hs => (hss s hs).2.1, hrun⟩

/-- A relay that has a message from its sender can send it on by stream, whatever it has looked at. By descriptor or
by buffer it comes to the end if and only if the message is empty, or nobody has looked at it, the host is
little-endian and the order is the one it came in. -/
theorem relay_completes_iff (msg : Message e) {o : DsonObj} (ho : Arrives e o msg.wire) {looks : List (Int × Reading)}
    {answers : List Answer} {o' : DsonObj} {m m' : Mem} (hlooks : lookAll e looks o m = some (answers, o', m'))
    (network : Bool) :
    (∃ o'' bs, o'.copyToStream e network m' = some (o'', m', bs)) ∧
      (Completes FdOut e network o' m' ↔
        msg.children = [] ∨ (e = .little ∧ looks = [] ∧ network = msg.network)) ∧
      (Completes BufOut e network o' m' ↔
        msg.children = [] ∨ (e = .little ∧ looks = [] ∧ network = msg.network)) := by
  refine ⟨?_, msg.completes_iff FdOut.eagers ho hlooks network, msg.completes_iff BufOut.eagers ho hlooks network⟩
  obtain ⟨o₁, hlooks', hheld, -⟩ := (msg.isLetter.held ho).lookAll looks m
  have heq := hlooks.symm.trans hlooks'
  cases heq
  obtain ⟨o'', h, recs, hrun, -⟩ := hheld.copyToStream network m
  exact ⟨o'', _, hrun⟩

/-- One look at its only child keeps a message from being sent on by descriptor. -/
theorem relay_completes_iff_sample : ∃ (msg : Message .little) (o o' : DsonObj) (answers : List Answer),
    Arrives .little o msg.wire ∧ Completes FdOut .little false o ⟨[], []⟩ ∧
      lookAll .little [(9, .string)] o ⟨[], []⟩ = some (answers, o', ⟨[], []⟩) ∧
      ¬Completes FdOut .little false o' ⟨[], []⟩ := by
  obtain ⟨msg, hchildren, hnetwork⟩ := Message.greeting
  obtain ⟨h, recs, hwire, hl, -⟩ := msg.wire_letter
  obtain ⟨o, ho⟩ := hl.isMessage.arrives
  rw [← hwire] at ho
  obtain ⟨o', hlooks, -⟩ := (msg.isLetter.held ho).lookAll [(9, .string)] ⟨[], []⟩
  refine ⟨msg, o, o', _, ho, ?_, hlooks, fun hcompletes => ?_⟩
  · have hnone : lookAll .little [] o ⟨[], []⟩ = some ([], o, ⟨[], []⟩) := rfl
    exact (relay_completes_iff msg ho hnone false).2.1.mpr (Or.inr ⟨rfl, rfl, hnetwork.symm⟩)
  · rcases (relay_completes_iff msg ho hlooks false).2.1.mp hcompletes with hnil | ⟨-, hnone, -⟩
    · simp [hchildren] at hnil
    · cases hnone

end LeanDson
