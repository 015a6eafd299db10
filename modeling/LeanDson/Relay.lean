import LeanDson.Arrival
import LeanDson.Streaming
import LeanDson.Inversion

/-! Relays. A message that has been loaded and not looked at is sent on as it came, in the order it came in: the
emitters hand over its header and its payload byte by byte, whatever the payload is. -/

namespace LeanDson

open ByteSink

namespace Dson

/-! ### Messages as they came -/

/-- The object has a message as it came; without a payload it is an empty container. -/
structure Bears (e : Endian) (d : Dson) (h : Header) (body : Bytes) : Prop where
  header : d.headerBuf = h
  size : h.dataSizeOf e = body.length
  limit : body.length ≤ 2 ^ 30
  content : (body ≠ [] ∧ d.dsonKind = .dataBufNeedParse ∧ d.wasBufAllocation = true ∧ d.buf = .own body ∧
      d.bufSize = body.length) ∨
    (body = [] ∧ d.dsonKind = .dsonContainer ∧ d.buf = .null ∧ d.wasBufAllocation = false)

/-- What is still to be handed over of a message that is sent on as it came. -/
def left (d : Dson) (h : Header) (body : Bytes) : Bytes :=
  match d.state with
  | .copyingHeader => h.bytes.drop d.offset ++ body
  | .copyingData => body.drop d.offset
  | _ => h.bytes ++ body

/-- The object is at rest, or in the middle of sending its message on. -/
structure Relays (e : Endian) (d : Dson) (h : Header) (body : Bytes) : Prop where
  bears : d.Bears e h body
  place : d.state = .ready ∨ (d.state = .copyingHeader ∧ d.offset < headerSize) ∨
    (d.state = .copyingData ∧ d.offset < body.length)

variable {e : Endian} {d : Dson} {h : Header} {body : Bytes}

theorem Took.bears (ht : d.Took e h body) : d.Bears e h body := by
  obtain ⟨hheader, hsize, hlimit, ⟨hne, hloaded⟩ | ⟨hnil, -, hkind, hbuf, halloc⟩⟩ := ht
  · exact ⟨hheader, hsize, hlimit, Or.inl ⟨hne, hloaded.kind, hloaded.alloc, hloaded.buf, hloaded.size⟩⟩
  · exact ⟨hheader, hsize, hlimit, Or.inr ⟨hnil, hkind, hbuf, halloc⟩⟩

theorem Took.ready (ht : d.Took e h body) : d.state = .ready := by
  obtain ⟨-, -, -, ⟨-, hloaded⟩ | ⟨-, hstate, -⟩⟩ := ht
  · exact hloaded.state
  · exact hstate

theorem Took.relays (ht : d.Took e h body) : d.Relays e h body := ⟨ht.bears, Or.inl ht.ready⟩

namespace Bears

variable (hb : d.Bears e h body)

include hb

theorem took (hstate : d.state = .ready) : d.Took e h body := by
  obtain ⟨hheader, hsize, hlimit, ⟨hne, hkind, halloc, hbuf, hbufSize⟩ | ⟨hnil, hkind, hbuf, halloc⟩⟩ := hb
  · exact ⟨hheader, hsize, hlimit, Or.inl ⟨hne, hstate, hkind, halloc, hbuf, hbufSize⟩⟩
  · exact ⟨hheader, hsize, hlimit, Or.inr ⟨hnil, hstate, hkind, hbuf, halloc⟩⟩

/-- The state, the position and the iterator are not part of the message. -/
theorem moved (state : State) (offset : Nat) (it : CopyIter) :
    Bears e { d with state := state, offset := offset, copyIter := it } h body :=
  ⟨hb.header, hb.size, hb.limit, hb.content⟩

theorem headerIsLocal : d.headerIsLocal = true := by
  obtain ⟨-, -, halloc, -⟩ | ⟨-, -, hbuf, -⟩ := hb.content
  · simp [Dson.headerIsLocal, halloc]
  · simp [Dson.headerIsLocal, hbuf, BufPtr.isNull]

theorem read (m : Mem) : d.header m = some h := by
  rw [Dson.header, if_pos hb.headerIsLocal, hb.header]

/-- A header in the order that is asked for stays as it is. -/
theorem headerToOrder {network : Bool} (hin : h.inOrder e network) (m : Mem) :
    d.headerToOrder e network m = some (d, m) := by
  rw [headerToOrder_local hb.headerIsLocal, hb.header, Header.toOrder_of_inOrder hin, ← hb.header]

end Bears

/-- The size of an empty container is what its header says. -/
theorem Bears.setDataSize_zero (hb : d.Bears e h []) (m : Mem) : d.setDataSizeInternal e m 0 = some (d, m) := by
  have hsame := Header.setDataSize_dataSizeOf (e := e) d.headerBuf
  rw [hb.header, hb.size] at hsame
  rw [setDataSizeInternal_local hb.headerIsLocal, hb.header, show (0 : Int) = (([] : Bytes).length : Int) from rfl, hsame,
    ← hb.header]

/-! ### The incremental emitters -/

section

variable {σ : Type} [ByteSink σ] (copy : DsonObj → Mem → σ → Option (Result × DsonObj × Mem × σ)) {network : Bool}

/-- What a call does with a message that is sent on as it came. -/
def Hands (e : Endian) (d : Dson) (h : Header) (body : Bytes) (m : Mem) (s : σ)
    (out : Option (Result × DsonObj × Mem × σ)) : Prop :=
  ∃ r d' s', out = some (r, .dson d' [], m, s') ∧
    HandsOver s s' (d.left h body) r (d'.Took e h body) (d'.Relays e h body) (d'.left h body) fun _ => d'.Took e h body

theorem Bears.copyData (hb : d.Bears e h body) (hstate : d.state = .copyingData) (hne : body ≠ [])
    (hoff : d.offset < body.length) (m : Mem) (s : σ) : Hands e d h body m s (d.copyData copy [] m s) := by
  obtain ⟨-, hkind, halloc, hbuf, hbufSize⟩ | ⟨hnil, -⟩ := hb.content
  · have hsize : d.bufSizeWithoutHeader = body.length := by rw [bufSizeWithoutHeader, if_pos halloc, hbufSize]
    have hdata : d.data = some 0 := by
      rw [Dson.data, if_neg (by simp [hstate, hbuf, BufPtr.isNull]), if_pos halloc]
    have htail : d.buf.tail m 0 = some body := by
      rw [hbuf, BufPtr.tail, if_pos (Nat.zero_le _), List.drop_zero]
    have hleft : d.left h body = body.drop d.offset ++ [] := by simp only [left, hstate, List.append_nil]
    rw [Dson.copyData, if_neg (by simp [hkind]), copyBuf, hsize, if_neg (by omega), Hands, hleft]
    simp only [hdata, htail, Option.bind_eq_bind, Option.bind_some, Int.toNat_natCast, List.take_length]
    rw [if_neg (by omega)]
    rcases write_drop s body hoff with ⟨s', hw, hfail⟩ | ⟨n, s', hw, hle, hstep⟩
    · simp only [hw]
      exact ⟨_, _, _, rfl, hfail ((hb.moved .ready d.offset d.copyIter).took rfl)⟩
    obtain ⟨hpart, hall⟩ := hstep []
    simp only [hw]
    by_cases hend : d.offset + n = body.length
    · rw [if_pos (by exact_mod_cast hend)]
      exact ⟨_, _, _, rfl, hall hend (HandsOver.nothing s' ((hb.moved .ready _ d.copyIter).took rfl) _ _ _)⟩
    · rw [if_neg (by exact_mod_cast hend)]
      refine ⟨_, _, _, rfl, ?_⟩
      have hleft' : ({ d with offset := d.offset + n } : Dson).left h body = body.drop (d.offset + n) ++ [] := by
        simp only [left, hstate, List.append_nil]
      rw [hleft']
      exact hpart (by omega) ⟨hb.moved d.state _ d.copyIter, Or.inr (Or.inr ⟨hstate, by dsimp only; omega⟩)⟩
  · exact absurd hnil hne

/-- Behind the header of a message without a payload there are no children. -/
theorem Bears.copyData_nil (hb : d.Bears e h []) (hiter : d.copyIter = .finished) (m : Mem) (s : σ) :
    ∃ d', d.copyData copy [] m s = some (.ready, .dson d' [], m, s) ∧ d'.Took e h [] := by
  obtain ⟨hne, -⟩ | ⟨-, hkind, hbuf, halloc⟩ := hb.content
  · exact absurd rfl hne
  · refine ⟨{ d with copyIter := .finished, state := .ready }, ?_, (hb.moved .ready d.offset .finished).took rfl⟩
    rw [Dson.copyData, if_pos hkind, hiter]
    simp [copyMap, Dson.inner, Dson.outer, hbuf]

theorem Bears.copyHeader (hb : d.Bears e h body) (hstate : d.state = .copyingHeader) (hoff : d.offset < headerSize)
    (m : Mem) (s : σ) : Hands e d h body m s (d.copyHeader copy [] m s) := by
  have hleft : d.left h body = h.bytes.drop d.offset ++ body := by simp only [left, hstate]
  have hoff' : d.offset < h.bytes.length := hoff
  rw [Dson.copyHeader, if_neg (by omega), hb.read, Hands, hleft]
  simp only [Option.bind_eq_bind, Option.bind_some]
  rcases write_drop s h.bytes hoff' with ⟨s', hw, hfail⟩ | ⟨n, s', hw, hle, hstep⟩
  · simp only [hw]
    exact ⟨_, _, _, rfl, hfail ((hb.moved .ready d.offset d.copyIter).took rfl)⟩
  obtain ⟨hpart, hall⟩ := hstep body
  simp only [hw]
  by_cases hend : d.offset + n < headerSize
  · rw [if_pos hend]
    refine ⟨_, _, _, rfl, ?_⟩
    have hleft' : ({ d with offset := d.offset + n } : Dson).left h body = h.bytes.drop (d.offset + n) ++ body := by
      simp only [left, hstate]
    rw [hleft']
    exact hpart hend ⟨hb.moved d.state _ d.copyIter, Or.inr (Or.inl ⟨hstate, hend⟩)⟩
  · have hfull : d.offset + n = h.bytes.length := le_antisymm hle (not_lt.mp hend)
    rw [if_neg hend]
    have hcontent := hb.content
    rcases hcontent with ⟨hne, hkind, -⟩ | ⟨rfl, hkind, -⟩
    · rw [if_neg (by simp [hkind])]
      obtain ⟨r, d', s'', hrun, hhand⟩ := (hb.moved .copyingData 0 d.copyIter).copyData copy rfl hne
        (List.length_pos_of_ne_nil hne) m s'
      exact ⟨r, d', s'', hrun, hall hfull hhand⟩
    · rw [if_pos hkind]
      obtain ⟨d', hrun, htook⟩ := (hb.moved .copyingData (d.offset + n) .finished).copyData_nil copy rfl m s'
      exact ⟨.ready, d', s', hrun, hall hfull (HandsOver.nothing s' htook _ _ _)⟩

theorem Bears.prepareHeader (hb : d.Bears e h body) (hin : h.inOrder e network) (m : Mem) :
    d.prepareHeader e network [] m = some (d, m) := by
  rw [Dson.prepareHeader]
  obtain ⟨hne, hkind, -⟩ | ⟨rfl, hkind, -⟩ := hb.content
  · rw [if_neg (by simp [hkind])]
    simp only [Option.bind_eq_bind, Option.bind_some]
    rw [if_neg (by simp [hkind]), hb.headerToOrder hin]
  · have hzero : DsonObj.dataSize e m (.dson d []) = some 0 := by
      simp only [DsonObj.dataSize, hkind, DsonObj.dataSizes]
    rw [if_pos hkind, hzero]
    simp only [Option.bind_eq_bind, Option.bind_some, hb.setDataSize_zero]
    rw [if_neg (by simp [hkind]), hb.headerToOrder hin]

/-- A message in the order that is asked for is not parsed. -/
theorem Bears.prepareCopy (hb : d.Bears e h body) (hin : h.inOrder e network) (hnot : ¬h.inOrder e (!network)) (m : Mem) :
    d.prepareCopy e network [] m = some ({ d with offset := 0, state := .copyingHeader }, [], m) := by
  have hraw : ¬(d.dsonKind = .dataBufNeedParse ∧ (h.isHostOrder e ∧ network ∨ h.isNetworkOrder e ∧ ¬network)) := by
    rintro ⟨-, ⟨hhost, hnetwork⟩ | ⟨hnet, hnetwork⟩⟩
    · rw [hnetwork] at hnot
      exact hnot hhost
    · rw [Bool.not_eq_true] at hnetwork
      rw [hnetwork] at hnot
      exact hnot hnet
  rw [prepareCopy_eq, hb.read, Option.bind_some, if_neg hraw, Option.bind_some, hb.prepareHeader hin]
  rfl

/-- One call of an incremental emitter on a message that is sent on as it came. -/
theorem Relays.copyTo (hr : d.Relays e h body) (hin : h.inOrder e network) (hnot : ¬h.inOrder e (!network)) (m : Mem)
    (s : σ) : Hands e d h body m s ((DsonObj.dson d []).copyTo e network m s) := by
  have hb := hr.bears
  rw [DsonObj.copyTo, DsonObj.depth, DsonObj.copyFuel]
  rcases hr.place with hstate | ⟨hstate, hoff⟩ | ⟨hstate, hoff⟩
  · have hhands := (hb.moved .copyingHeader 0 d.copyIter).copyHeader
      (DsonObj.copyFuel e network (max 1 (DsonObj.depths []))) rfl (Nat.zero_lt_succ _) m s
    have hleft : ({ d with state := .copyingHeader, offset := 0, copyIter := d.copyIter } : Dson).left h body =
        d.left h body := by simp only [left, hstate, List.drop_zero]
    rw [Hands, hleft] at hhands
    simp only [copyInternal, hstate, hb.prepareCopy hin hnot, Option.bind_eq_bind, Option.bind_some]
    exact hhands
  · simp only [copyInternal, hstate]
    exact hb.copyHeader _ hstate hoff m s
  · simp only [copyInternal, hstate]
    exact hb.copyData _ hstate (List.ne_nil_of_length_pos (by omega)) hoff m s

/-- What a message that is sent on has still to hand over. -/
def leftOf (h : Header) (body : Bytes) : DsonObj × Mem → Bytes
  | (.dson d _, _) => d.left h body
  | _ => []

variable (body) in
/-- The incremental emitters, as resumable calls on a message that is sent on as it came. -/
theorem relay_resumable (hin : h.inOrder e network) (hnot : ¬h.inOrder e (!network)) (m : Mem) :
    Resumable (σ := σ) (DsonObj.copyCall e network)
      (fun p => p.2 = m ∧ ∃ d : Dson, p.1 = .dson d [] ∧ d.Relays e h body)
      (fun p => p.2 = m ∧ ∃ d : Dson, p.1 = .dson d [] ∧ d.Took e h body) (leftOf h body)
      (fun _ p _ => p.2 = m ∧ ∃ d : Dson, p.1 = .dson d [] ∧ d.Took e h body) where
  step := by
    rintro ⟨o, m'⟩ s ⟨rfl, d, rfl, hr⟩
    obtain ⟨r, d', s', hrun, hhand⟩ := hr.copyTo hin hnot m' s
    refine ⟨r, (.dson d' [], m'), s', ?_, hhand.imp (fun _ htook => ⟨rfl, d', rfl, htook⟩) (fun _ hr' => ?_)
      fun _ rest _ _ htook => ⟨rfl, d', rfl, htook⟩⟩
    · rw [DsonObj.copyCall, hrun]
      rfl
    · exact ⟨⟨rfl, d', rfl, hr'⟩, rfl⟩

theorem Relays.left_ne_nil (hr : d.Relays e h body) : d.left h body ≠ [] := by
  intro hnil
  have hlen := congrArg List.length hnil
  unfold left at hlen
  rcases hr.place with hstate | ⟨hstate, hoff⟩ | ⟨hstate, hoff⟩
  · simp only [hstate, List.length_append, Header.bytes_length, List.length_nil] at hlen
    omega
  · rw [headerSize] at hoff
    simp only [hstate, List.length_append, List.length_drop, Header.bytes_length, List.length_nil] at hlen
    omega
  · simp only [hstate, List.length_drop, List.length_nil] at hlen
    omega

end

/-! ### The stream emitter -/

/-- The stream emitter sends a message on in one call, on a host of either endianness. -/
theorem Took.copyToStream (ht : d.Took e h body) {network : Bool} (hin : h.inOrder e network) (m : Mem) :
    (DsonObj.dson d []).copyToStream e network m = some (.dson d [], m, h.bytes ++ body) := by
  have hb := ht.bears
  rw [DsonObj.copyToStream, DsonObj.depth, DsonObj.streamFuel, streamInternal, if_neg (by simp [ht.ready])]
  obtain ⟨hne, hkind, halloc, hbuf, hbufSize⟩ | ⟨rfl, hkind, hbuf, halloc⟩ := hb.content
  · have hsize : DsonObj.dataSize e m (.dson d []) = some (body.length : Int) := by
      simp only [DsonObj.dataSize, hkind, hb.read, Option.map_some, hb.size]
    have hheader : d.streamHeader e m body.length = some (d, m, h.bytes) := by
      rw [streamHeader, if_neg (by simp [hkind])]
      simp only [Option.bind_eq_bind, Option.bind_some, hb.read]
      rfl
    have hdata : d.data = some 0 := by
      rw [Dson.data, if_neg (by simp [ht.ready, hbuf, BufPtr.isNull]), if_pos halloc]
    have hpos := List.length_pos_of_ne_nil hne
    have hpayload : d.streamData m body.length = some body := by
      rw [streamData, if_neg (by omega), if_neg (by omega), hdata, hbuf]
      simp [BufPtr.tail]
    have hraw : d.streamRaw e [] m body.length = some (.dson d [], m, h.bytes ++ body) := by
      simp only [streamRaw, hheader, hpayload, Option.bind_eq_bind, Option.bind_some]
      rfl
    rw [if_pos hkind]
    cases network with
    | false =>
      have hfits : d.isHostOrder e m = some true := by
        rw [Dson.isHostOrder, hb.read]
        exact congrArg some hin
      simp only [Bool.false_eq_true, if_false, hfits, Option.bind_eq_bind, Option.bind_some, if_true, hsize, hraw]
    | true =>
      have hfits : d.isNetworkOrder e m = some true := by
        rw [Dson.isNetworkOrder, hb.read]
        exact congrArg some hin
      simp only [if_true, hfits, Option.bind_eq_bind, Option.bind_some, hsize, hraw]
  · have hzero : DsonObj.dataSize e m (.dson d []) = some 0 := by
      simp only [DsonObj.dataSize, hkind, DsonObj.dataSizes]
    have hheader : d.streamHeader e m 0 = some (d, m, h.bytes) := by
      rw [streamHeader, if_pos hkind, hb.setDataSize_zero]
      simp only [Option.bind_eq_bind, Option.bind_some, hb.read]
      rfl
    have hinner : d.inner m = m := by rw [Dson.inner, hbuf]
    have houter : d.outer m m = (d, m) := by rw [Dson.outer, hbuf]
    rw [if_neg (by simp [hkind]), streamKind, hkind]
    simp only [hzero, hb.headerToOrder hin, hheader, streamMap, hinner, houter, Option.bind_eq_bind, Option.bind_some]
    rfl

end Dson

/-! ### Chains of relays -/

/-- The bytes of an emission that has come to its end: in one call, or in a run over sinks of one kind. -/
inductive DsonObj.Sends (e : Endian) (network : Bool) (o : DsonObj) (m : Mem) : Bytes → Prop
  | stream {o' : DsonObj} {m' : Mem} {bs : Bytes} (hrun : o.copyToStream e network m = some (o', m', bs)) :
      Sends e network o m bs
  | fd {ss : List FdOut} {q : DsonObj × Mem} {bs : Bytes} (hss : ∀ s ∈ ss, written s = [])
      (hrun : o.copyRun e network m ss = some (.ready, q, bs)) : Sends e network o m bs
  | buf {ss : List BufOut} {q : DsonObj × Mem} {bs : Bytes} (hss : ∀ s ∈ ss, written s = [])
      (hrun : o.copyRun e network m ss = some (.ready, q, bs)) : Sends e network o m bs

/-- A relay on a little-endian host: some loader takes the message, nobody looks at it, and some emitter sends it
on. -/
def Forwards (network : Bool) (bs bs' : Bytes) : Prop :=
  ∃ o m, Arrives .little o bs ∧ o.Sends .little network m bs'

section

variable {network : Bool} {h : Header} {body : Bytes}

/-- On a little-endian host no header is in both orders. -/
theorem Header.not_inOrder_both (hin : h.inOrder .little network) : ¬h.inOrder .little (!network) := by
  intro hin'
  simp only [Header.inOrder] at hin hin'
  cases network with
  | false => exact Header.marks_little ((Header.isNetworkOrder_iff.mp hin').symm.trans (Header.isHostOrder_iff.mp hin))
  | true => exact Header.marks_little ((Header.isNetworkOrder_iff.mp hin).symm.trans (Header.isHostOrder_iff.mp hin'))

/-- What a relay hands on over sinks of one kind: a first part of the message, and the whole exactly when the run
is ready. Only a sink that fails ends a run early, sinks that always take something see its end, and after either end
the relay has the message for another channel. -/
def HandsOn (σ : Type) [ByteSink σ] (network : Bool) (h : Header) (body : Bytes) (o : DsonObj) (m : Mem) : Prop :=
  ∀ ss : List σ, (∀ s ∈ ss, written s = []) → ∃ r o' bs, o.copyRun .little network m ss = some (r, (o', m), bs) ∧
    bs <+: h.bytes ++ body ∧ (r = .ready ↔ bs = h.bytes ++ body) ∧ (r = .error → ∃ s ∈ ss, ¬Willing s) ∧
    ((∀ s ∈ ss, Willing s ∧ Eager s) → (h.bytes ++ body).length ≤ ss.length → r = .ready) ∧
    (r ≠ .inProcess → ∃ d, o' = .dson d [] ∧ d.Took .little h body)

theorem Dson.Took.handsOn {d : Dson} (ht : d.Took .little h body) (hin : h.inOrder .little network) (m : Mem) (σ : Type)
    [ByteSink σ] : HandsOn σ network h body (.dson d []) m := by
  intro ss hss
  have hres := relay_resumable (σ := σ) body hin (Header.not_inOrder_both hin) m
  have hlive : (DsonObj.dson d [], m).2 = m ∧ ∃ d' : Dson, (DsonObj.dson d [], m).1 = .dson d' [] ∧
      d'.Relays .little h body := ⟨rfl, d, rfl, ht.relays⟩
  have hleft : leftOf h body (.dson d [], m) = h.bytes ++ body := by
    simp only [leftOf, left, ht.ready]
  have hends : ((∀ s ∈ ss, Willing s ∧ Eager s) → (h.bytes ++ body).length ≤ ss.length →
      ∃ q, (DsonObj.dson d []).copyRun .little network m ss = some (.ready, q, h.bytes ++ body)) := by
    intro heager hlen
    rw [← hleft] at hlen
    obtain ⟨q, hrun, -⟩ := hres.completes hlive
      (by rintro ⟨o, m'⟩ ⟨-, d', rfl, hr⟩; exact hr.left_ne_nil)
      (fun s hs => ⟨(heager s hs).1, hss s hs, (heager s hs).2⟩) hlen
    exact ⟨q, by rw [← hleft]; exact hrun⟩
  obtain ⟨r, ⟨o', m'⟩, bs, hrun, hcases⟩ := hres.run_cases hlive hss
  rw [hleft] at hcases
  have hall : (∀ s ∈ ss, Willing s ∧ Eager s) → (h.bytes ++ body).length ≤ ss.length → r = .ready := by
    intro heager hlen
    obtain ⟨q, hrun'⟩ := hends heager hlen
    have heq := hrun'.symm.trans hrun
    cases heq
    rfl
  rcases hcases with ⟨rfl, ⟨rfl, htook⟩, hbs⟩ | ⟨rfl, ⟨rfl, d', rfl, hr⟩, hbs⟩ |
    ⟨rfl, hfail, before, -, rest, -, -, hrest, hbs, rfl, htook⟩
  · exact ⟨.ready, o', bs, hrun, hbs ▸ List.prefix_rfl, iff_of_true rfl hbs.symm, nofun, hall, fun _ => htook⟩
  · refine ⟨.inProcess, _, bs, hrun, ⟨_, hbs.symm⟩, iff_of_false nofun fun heq => ?_, nofun, hall,
      fun hne => absurd rfl hne⟩
    rw [← heq] at hbs
    exact hr.left_ne_nil (List.self_eq_append_right.mp hbs)
  · refine ⟨.error, _, bs, hrun, ⟨rest, hbs.symm⟩, iff_of_false nofun fun heq => ?_, fun _ => hfail, hall,
      fun _ => htook⟩
    rw [← heq] at hbs
    exact hrest (List.self_eq_append_right.mp hbs)

/-- A run over sinks of one kind that is complete has handed over the message. -/
theorem HandsOn.eq {σ : Type} [ByteSink σ] {o : DsonObj} {m : Mem} (hh : HandsOn σ network h body o m) {ss : List σ}
    (hss : ∀ s ∈ ss, written s = []) {q : DsonObj × Mem} {bs : Bytes}
    (hrun : o.copyRun .little network m ss = some (.ready, q, bs)) : bs = h.bytes ++ body := by
  obtain ⟨r, o', bs', hrun', -, hiff, -⟩ := hh ss hss
  have heq := hrun.symm.trans hrun'
  cases heq
  exact hiff.mp rfl

theorem Forwards.eq (hm : IsMessage .little h body) (hin : h.inOrder .little network) {bs : Bytes}
    (hf : Forwards network (h.bytes ++ body) bs) : bs = h.bytes ++ body := by
  obtain ⟨o, m, ho, hsent⟩ := hf
  obtain ⟨d, rfl, ht⟩ := ho.took hm
  cases hsent with
  | stream hrun =>
    rw [ht.copyToStream hin] at hrun
    cases hrun
    rfl
  | fd hss hrun => exact (ht.handsOn hin m FdOut).eq hss hrun
  | buf hss hrun => exact (ht.handsOn hin m BufOut).eq hss hrun

/-- However many relays a message has passed, each by a loader and an emitter of its own, what arrives is the message
that was sent. The next relay takes it, and hands on over any channel nothing but it. -/
theorem relay_transparent (hm : IsMessage .little h body) (hin : h.inOrder .little network) {bs : Bytes}
    (hchain : Relation.ReflTransGen (Forwards network) (h.bytes ++ body) bs) :
    bs = h.bytes ++ body ∧ (∃ o, Arrives .little o bs) ∧ ∀ o, Arrives .little o bs → ∀ m,
      HandsOn FdOut network h body o m ∧ HandsOn BufOut network h body o m ∧
      o.copyToStream .little network m = some (o, m, bs) ∧ Forwards network bs bs := by
  have hbs : bs = h.bytes ++ body := by
    induction hchain with
    | refl => rfl
    | tail _ hf ih =>
      rw [ih] at hf
      exact hf.eq hm hin
  subst hbs
  refine ⟨rfl, hm.arrives, fun o ho m => ?_⟩
  obtain ⟨d, rfl, ht⟩ := ho.took hm
  exact ⟨ht.handsOn hin m FdOut, ht.handsOn hin m BufOut, ht.copyToStream hin m,
    _, m, ho, .stream (ht.copyToStream hin m)⟩

/-- Three bytes of text in network order have passed one relay. -/
theorem relay_transparent_sample : ∃ h : Header, IsMessage .little h [1, 2, 3] ∧ h.inOrder .little true ∧
    ∀ o, Arrives .little o (h.bytes ++ [1, 2, 3]) → HandsOn FdOut true h [1, 2, 3] o ⟨[], []⟩ := by
  have hm : IsMessage .little ⟨⟨0, 0, 0, 1⟩, ⟨0, 0, 0, 3⟩, ⟨0, 0, 0, 7⟩, ⟨0, 0, 0, 1⟩⟩ [1, 2, 3] := by decide
  exact ⟨_, hm, by decide, fun o ho => ((relay_transparent hm (by decide) .refl).2.2 o ho _).1⟩

end

end LeanDson
