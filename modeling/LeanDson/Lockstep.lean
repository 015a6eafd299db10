import LeanDson.Dispatch
import LeanDson.Shadows

/-! A transfer in lock step through one window. The sender fills the window, the receiver loads the whole
of it, with what is left of earlier contents behind the bytes of the sender. The receiver knows what is
valid from the announced size alone, the sender stops only at the end of a window. -/

namespace LeanDson

open ByteSink

/-! ### Calls over a window -/

section

variable {e : Endian} {network : Bool}

/-- One call of a sender over a window: it is ready when everything fits, and fills the window otherwise. -/
theorem Sends.step {n : Nat} {o : DsonObj} {m : Mem} {bs : Bytes} (h : Sends e network (n + 2) o m bs) (room : Nat) :
    ∃ r o' m' s', o.copyTo e network m (BufOut.fresh room) = some (r, o', m', s') ∧
      ((r = .ready ∧ s'.out = bs ∧ s'.room + bs.length = room) ∨
        (r = .inProcess ∧ s'.room = 0 ∧ s'.out.length = room ∧
          ∃ rest, bs = s'.out ++ rest ∧ rest ≠ [] ∧ Sends e network (n + 1) o' m' rest)) := by
  obtain ⟨r, o', m', s', after, hrun, hhand⟩ := h.2 (BufOut.fresh room)
  refine ⟨r, o', m', s', hrun, ?_⟩
  rcases hhand.window with ⟨hr, -, hbs, hroom⟩ | ⟨hr, hafter, hroom, hlen, hbs⟩
  · exact Or.inl ⟨hr, hbs, hroom⟩
  · exact Or.inr ⟨hr, hroom, hlen, after, hbs, hafter.1, hafter⟩

end

/-! ### Exchanges -/

/-- A sender and a receiver, each with the memory around it. -/
structure Exchange where
  sender : DsonObj
  senderMem : Mem
  receiver : DsonObj
  receiverMem : Mem

/-- One step as both sides see it: the two results, the free bytes the sender has left in the window and the
bytes it has moved on by. -/
structure Exchanged where
  sent : Result
  loaded : Result
  room : Nat
  filled : Nat
  deriving DecidableEq

namespace Exchange

variable (e : Endian) (junk : Nat → UInt8) (network : Bool)

/-- The sender fills a window over its contents so far, and the receiver loads the whole window. -/
def step (prior : Bytes) (x : Exchange) : Option (Exchanged × Exchange) := do
  let (r, o, m, s) ← x.sender.copyTo e network x.senderMem (BufOut.fresh prior.length)
  let (r', o', m') ← x.receiver.loadFromBuf e junk (s.out ++ prior.drop s.out.length) x.receiverMem
  return (⟨r, r', s.room, s.out.length⟩, ⟨o, m, o', m'⟩)

def run : List Bytes → Exchange → Option (List Exchanged × Exchange)
  | [], x => some ([], x)
  | prior :: rest, x => do
      let (seen, x) ← x.step e junk network prior
      let (more, x) ← run rest x
      return (seen :: more, x)

end Exchange

/-- A step in which both sides go on and the window is full. -/
def Exchanged.full (prior : Bytes) : Exchanged := ⟨.inProcess, .inProcess, 0, prior.length⟩

/-- The header and the payload of an object, as they would be sent. -/
def Dson.message (d : Dson) (m : Mem) : Option Bytes :=
  (d.header m).map fun h => h.bytes ++ match d.wasBufAllocation, d.buf with
    | true, .own block => block
    | _, _ => []

/-- Whatever the windows hold before they are filled, both sides are in process, over full windows, until
the windows amount to the message, and then both are ready and the receiver has the message. -/
def LockStep (e : Endian) (junk : Nat → UInt8) (network : Bool) (x : Exchange) (bs : Bytes) : Prop :=
  ∀ prior : Nat → Bytes, (∀ i, prior i ≠ []) → ∃ n room filled x' d,
    ((List.range n).map prior).flatten.length < bs.length ∧
      bs.length ≤ ((List.range (n + 1)).map prior).flatten.length ∧
      x.run e junk network ((List.range (n + 1)).map prior) =
        some (((List.range n).map fun i => .full (prior i)) ++ [⟨.ready, .ready, room, filled⟩], x') ∧
      x'.receiver = .dson d [] ∧ d.message x'.receiverMem = some bs

/-- The exchange is in step over the encoding that the stream emitter appends, which is as long as the sender is with
everything in it. -/
def InStep (e : Endian) (junk : Nat → UInt8) (network : Bool) (x : Exchange) : Prop :=
  ∃ bs, (x.sender.copyToStream e network x.senderMem).map (fun p => p.2.2) = some bs ∧
    bs.length = x.sender.extent e x.senderMem ∧ LockStep e junk network x bs

/-! ### Receivers -/

section

variable {e : Endian} {junk : Nat → UInt8}

/-- The receiver has taken a first part of what is sent. -/
def Receives (e : Endian) (m : Mem) (h : Header) (d : Dson) (children : ObjMap) (got : Bytes) : Prop :=
  ∃ d₀, (d = d₀ ∨ d.Shadows e m h d₀) ∧ d₀.Loads e children got

theorem Receives.loadFromBuf {d : Dson} {children : ObjMap} {m : Mem} {h : Header} {got : Bytes}
    (hr : Receives e m h d children got) (junk : Nat → UInt8) {window more body : Bytes} (hsplit : got ++ window ++ more = h.bytes ++ body) :
    ∃ r d₁ d₀ k, DsonObj.loadFromBuf e junk window (.dson d children) m = some (r, .dson d₁ [], m) ∧
      (d₁ = d₀ ∨ d₁.Shadows e m h d₀) ∧ Dson.Stands e d₀ r (got ++ window.take k) ∧
        (r = .inProcess → k = window.length) := by
  obtain ⟨d', hsame, hl⟩ := hr
  obtain ⟨r, d₀, k, hload, -, hstands, hall⟩ := hl.loadFromBuf junk window m
  rcases hsame with rfl | hs
  · exact ⟨r, d₀, d₀, k, hload, Or.inl rfl, hstands, hall⟩
  · obtain ⟨d₁, hload₁, hd₁⟩ := hs.loadFromBuf hl hsplit hload
    exact ⟨r, d₁, d₀, k, hload₁, hd₁, hstands, hall⟩

/-- A window that is not the last one. -/
theorem Receives.goesOn {d : Dson} {children : ObjMap} {m : Mem} {h : Header} {got window rest body : Bytes}
    (hr : Receives e m h d children got) (junk : Nat → UInt8) (hm : IsMessage e h body)
    (hsplit : got ++ window ++ rest = h.bytes ++ body) (hrest : rest ≠ []) :
    ∃ d', DsonObj.loadFromBuf e junk window (.dson d children) m = some (.inProcess, .dson d' [], m) ∧
      Receives e m h d' [] (got ++ window) := by
  obtain ⟨r, d₁, d₀, k, hload, hsame, hstands, hall⟩ := hr.loadFromBuf junk hsplit
  have hparts : got ++ window.take k ++ (window.drop k ++ rest) = h.bytes ++ (body ++ []) := by
    rw [List.append_nil, ← hsplit, List.append_assoc, List.append_assoc, ← List.append_assoc (window.take k),
      List.take_append_drop]
  rcases hstands.of_prefix hm hparts with ⟨rfl, ha, -⟩ | ⟨-, -, hmore, -⟩
  · rw [hall rfl, List.take_length] at ha
    exact ⟨d₁, hload, d₀, hsame, Or.inr ⟨rfl, ha⟩⟩
  · exact absurd (List.append_eq_nil_iff.mp hmore).2 hrest

/-- An object that has taken a message has it. -/
theorem Dson.Took.message {d : Dson} {h : Header} {body : Bytes} (ht : d.Took e h body) (m : Mem) :
    d.message m = some (h.bytes ++ body) := by
  obtain ⟨rfl, -, -, ⟨hne, hl⟩ | ⟨rfl, -, -, hbuf, halloc⟩⟩ := ht
  · rw [Dson.message, Dson.header_local (by simp [Dson.headerIsLocal, hl.alloc]), Option.map_some, hl.alloc, hl.buf]
  · rw [Dson.message, Dson.header_local (by simp [Dson.headerIsLocal, hbuf, BufPtr.isNull]), Option.map_some, halloc]

/-- The last window, with old contents behind the message. -/
theorem Receives.ends {d : Dson} {children : ObjMap} {m : Mem} {h : Header} {got window old body : Bytes}
    (hr : Receives e m h d children got) (junk : Nat → UInt8) (hm : IsMessage e h body)
    (hsplit : got ++ window = h.bytes ++ (body ++ old)) :
    ∃ d', DsonObj.loadFromBuf e junk window (.dson d children) m = some (.ready, .dson d' [], m) ∧
      d'.message m = some (h.bytes ++ body) := by
  obtain ⟨r, d₁, d₀, k, hload, hsame, hstands, hall⟩ := hr.loadFromBuf junk
    (show got ++ window ++ [] = h.bytes ++ (body ++ old) by rw [List.append_nil, hsplit])
  have hparts : got ++ window.take k ++ window.drop k = h.bytes ++ (body ++ old) := by
    rw [List.append_assoc, List.take_append_drop, hsplit]
  rcases hstands.of_prefix hm hparts with ⟨rfl, -, hlt⟩ | ⟨rfl, -, -, ht⟩
  · rw [hall rfl, List.take_length, hsplit] at hlt
    simp only [List.length_append, Header.bytes_length, headerSize] at hlt
    omega
  · refine ⟨d₁, hload, ?_⟩
    rcases hsame with rfl | ⟨hbuf, halloc, hs, hforeign, h₀, hread, hsize, hzero⟩
    · exact ht.message m
    · obtain ⟨-, -, -, ⟨hne, hl⟩ | ⟨rfl, -⟩⟩ := ht
      · rw [hl.alloc] at halloc
        cases halloc
      · have halloc' : d₁.wasBufAllocation = false := by
          rw [hs]
          exact halloc
        rw [Dson.message, hread, hzero hm.size, Option.map_some, halloc']

/-! ### Runs -/

section

variable {network : Bool}

/-- What holds between the steps of an exchange, `n` steps before its end at the latest: the receiver has taken what
the sender has handed over. -/
structure Linked (e : Endian) (network : Bool) (n : Nat) (m : Mem) (h : Header) (body : Bytes) (x : Exchange)
    (got rest : Bytes) : Prop where
  message : IsMessage e h body
  sender : Sends e network (n + 2) x.sender x.senderMem rest
  mem : x.receiverMem = m
  receiver : ∃ d children, x.receiver = .dson d children ∧ Receives e m h d children got
  split : got ++ rest = h.bytes ++ body

variable {n : Nat} {m : Mem} {h : Header} {body got rest : Bytes} {x : Exchange}

/-- A step over a window that is too small for what is left. -/
theorem Linked.goesOn (hx : Linked e network (n + 1) m h body x got rest) (junk : Nat → UInt8) {prior : Bytes}
    (hlt : prior.length < rest.length) :
    ∃ x' got' rest', x.step e junk network prior = some (.full prior, x') ∧
      Linked e network n m h body x' got' rest' ∧ rest'.length + prior.length = rest.length := by
  obtain ⟨hm, hsender, rfl, ⟨d, children, hd, hr⟩, hsplit⟩ := hx
  obtain ⟨r, o', m', s', hcopy, ⟨-, -, hroom⟩ | ⟨rfl, hroom, hlen, rest', rfl, hne, hsender'⟩⟩ :=
    hsender.step prior.length
  · omega
  · rw [← List.append_assoc] at hsplit
    have hold : s'.out ++ prior.drop s'.out.length = s'.out := by
      rw [hlen, List.drop_length, List.append_nil]
    obtain ⟨d', hload, hr'⟩ := hr.goesOn junk hm hsplit hne
    refine ⟨⟨o', m', .dson d' [], x.receiverMem⟩, got ++ s'.out, rest', ?_,
      ⟨hm, hsender', rfl, ⟨d', [], rfl, hr'⟩, hsplit⟩, ?_⟩
    · simp only [Exchange.step, hcopy, Option.bind_eq_bind, Option.bind_some, hold, hd, hload]
      rw [Exchanged.full, hroom, hlen]
      rfl
    · rw [List.length_append]
      omega

/-- A step over a window that takes everything that is left. -/
theorem Linked.ends (hx : Linked e network n m h body x got rest) (junk : Nat → UInt8) {prior : Bytes}
    (hle : rest.length ≤ prior.length) :
    ∃ room filled x' d, x.step e junk network prior = some (⟨.ready, .ready, room, filled⟩, x') ∧
      x'.receiver = .dson d [] ∧ d.message x'.receiverMem = some (h.bytes ++ body) := by
  obtain ⟨hm, hsender, rfl, ⟨d, children, hd, hr⟩, hsplit⟩ := hx
  obtain ⟨r, o', m', s', hcopy, ⟨rfl, hout, -⟩ | ⟨-, -, hlen, rest', rfl, hne, -⟩⟩ := hsender.step prior.length
  · have hparts : got ++ (s'.out ++ prior.drop s'.out.length) = h.bytes ++ (body ++ prior.drop s'.out.length) := by
      rw [hout, ← List.append_assoc, hsplit, List.append_assoc]
    obtain ⟨d', hload, hmessage⟩ := hr.ends junk hm hparts
    refine ⟨s'.room, s'.out.length, ⟨o', m', .dson d' [], x.receiverMem⟩, d', ?_, rfl, hmessage⟩
    simp only [Exchange.step, hcopy, Option.bind_eq_bind, Option.bind_some, hd, hload]
    rfl
  · have hpos := List.length_pos_iff.mpr hne
    rw [List.length_append] at hle
    omega

theorem Exchange.run_append (e : Endian) (junk : Nat → UInt8) (network : Bool) (windows windows' : List Bytes) :
    ∀ x : Exchange, x.run e junk network (windows ++ windows') = (x.run e junk network windows).bind fun p =>
      (p.2.run e junk network windows').map fun q => (p.1 ++ q.1, q.2) := by
  induction windows with
  | nil =>
      intro x
      rw [List.nil_append, Exchange.run, Option.bind_some]
      cases x.run e junk network windows' <;> rfl
  | cons prior windows ih =>
      intro x
      rw [List.cons_append, Exchange.run, Exchange.run]
      cases hstep : x.step e junk network prior with
      | none => rfl
      | some p =>
          simp only [Option.bind_eq_bind, Option.bind_some, ih]
          cases p.2.run e junk network windows with
          | none => rfl
          | some q =>
              simp only [Option.bind_some, Option.pure_def]
              cases q.2.run e junk network windows' <;> rfl

/-- Windows that are too small for what is left. -/
theorem Linked.run (junk : Nat → UInt8) {windows : List Bytes} : ∀ {x : Exchange} {got rest : Bytes},
    Linked e network (n + windows.length) m h body x got rest → windows.flatten.length < rest.length → ∃ x' got' rest',
      x.run e junk network windows = some (windows.map Exchanged.full, x') ∧
        Linked e network n m h body x' got' rest' ∧ rest'.length + windows.flatten.length = rest.length := by
  induction windows with
  | nil => exact fun {x got rest} hx _ => ⟨x, got, rest, rfl, hx, rfl⟩
  | cons prior windows ih =>
      intro x got rest hx hlt
      rw [List.flatten_cons, List.length_append] at hlt
      obtain ⟨x₁, got₁, rest₁, hstep, hx₁, hlen₁⟩ := Linked.goesOn (n := n + windows.length) hx junk
        (show prior.length < rest.length by omega)
      obtain ⟨x', got', rest', hrun, hx', hlen⟩ := ih hx₁ (by omega)
      refine ⟨x', got', rest', ?_, hx', ?_⟩
      · simp only [Exchange.run, hstep, Option.bind_eq_bind, Option.bind_some, hrun]
        rfl
      · rw [List.flatten_cons, List.length_append]
        omega

theorem windows_succ (prior : Nat → Bytes) (n : Nat) : ((List.range (n + 1)).map prior).flatten.length =
    ((List.range n).map prior).flatten.length + (prior n).length := by
  rw [List.range_succ, List.map_append, List.flatten_append, List.length_append, List.map_singleton,
    List.flatten_singleton]

/-- Windows that hold something amount to any length. -/
theorem length_le_windows {prior : Nat → Bytes} (hne : ∀ i, prior i ≠ []) (n : Nat) :
    n ≤ ((List.range n).map prior).flatten.length := by
  induction n with
  | zero => exact Nat.zero_le _
  | succ n ih =>
      have hpos := List.length_pos_iff.mpr (hne n)
      rw [windows_succ]
      omega

theorem Linked.lockStep (hx : ∀ n, Linked e network n m h body x [] (h.bytes ++ body)) :
    LockStep e junk network x (h.bytes ++ body) := by
  intro prior hne
  have hexists : ∃ n, (h.bytes ++ body).length ≤ ((List.range n).map prior).flatten.length :=
    ⟨_, length_le_windows hne _⟩
  obtain ⟨n, hn, hleast⟩ : ∃ n, (h.bytes ++ body).length ≤ ((List.range (n + 1)).map prior).flatten.length ∧
      ((List.range n).map prior).flatten.length < (h.bytes ++ body).length := by
    have hfind := Nat.find_spec hexists
    cases hcase : Nat.find hexists with
    | zero =>
        rw [hcase] at hfind
        simp at hfind
    | succ n =>
        rw [hcase] at hfind
        exact ⟨n, hfind, not_le.mp (Nat.find_min hexists (by omega))⟩
  obtain ⟨x₁, got₁, rest₁, hrun, hx₁, hlen⟩ := Linked.run (n := 0) junk (hx _) hleast
  have hsucc : (List.range (n + 1)).map prior = (List.range n).map prior ++ [prior n] := by
    rw [List.range_succ, List.map_append]
    rfl
  have htotal := windows_succ prior n
  obtain ⟨room, filled, x', d, hstep, hreceiver, hmessage⟩ := hx₁.ends junk (show rest₁.length ≤ (prior n).length by omega)
  refine ⟨n, room, filled, x', d, hleast, hn, ?_, hreceiver, hmessage⟩
  rw [hsucc, Exchange.run_append, hrun]
  simp only [Option.bind_some, Exchange.run, hstep, Option.bind_eq_bind, Option.pure_def, Option.map_some]
  rw [List.map_map]
  rfl

/-! ### Former views -/

/-- An object that can take the message loads it from the start. -/
theorem Dson.Takes.receives {d : Dson} (ht : d.Takes e m h) (hheader : d.state ≠ .loadingHeader)
    (hdata : d.state ≠ .loadingData) (children : ObjMap) : Receives e m h d children [] := by
  by_cases hown : d.wasBufAllocation = true ∨ d.buf = .null
  · exact ⟨d, Or.inl rfl, Or.inl ⟨rfl, hheader, hdata, hown⟩⟩
  · rw [not_or] at hown
    exact ⟨_, Or.inr (ht.shadows hown.1 hown.2), Or.inl ⟨rfl, hheader, hdata, Or.inr rfl⟩⟩

/-- A payload that is loaded in one call fills the block. -/
theorem Dson.loadDataFromBuf_ready {d d' : Dson} {block window : Bytes} {m m' : Mem} (hoff : d.offset = 0)
    (hbuf : d.buf = .own block) (hsize : d.bufSize = block.length)
    (hrun : d.loadDataFromBuf m window = some (.ready, d', m')) :
    d'.headerBuf = d.headerBuf ∧ d'.wasBufAllocation = d.wasBufAllocation ∧ d'.buf = .own (window.take block.length) ∧
      block.length ≤ window.length := by
  rw [Dson.loadDataFromBuf] at hrun
  by_cases hpos : (d.offset : Int) ≥ d.bufSize
  · rw [if_pos hpos] at hrun
    cases hrun
  have hcount : (d.bufSize - d.offset).toNat = block.length := by omega
  have hchunk : (window.take block.length).length ≤ block.length := by
    rw [List.length_take]
    exact min_le_left _ _
  have hpatch := Dson.patchBuf_own (d := d) [] m hbuf hchunk
  rw [List.length_nil] at hpatch
  rw [if_neg hpos, hcount, hoff] at hrun
  simp only [hpatch, Option.bind_eq_bind, Option.bind_some, hoff, Nat.zero_add, List.nil_append] at hrun
  split_ifs at hrun with hfull
  · cases hrun
    rw [List.length_take] at hfull
    refine ⟨rfl, rfl, ?_, by omega⟩
    rw [List.drop_of_length_le (by rw [List.length_take]; omega), List.append_nil]
  · cases hrun

/-- A message that is loaded whole from one window over a foreign buffer. -/
theorem Dson.takes_of_loaded {d d' : Dson} {children : ObjMap} {m' : Mem} (hheader : d.state ≠ .loadingHeader)
    (hdata : d.state ≠ .loadingData) (hforeign : d.buf.isNull = false) (halloc : d.wasBufAllocation = false)
    (hm : IsMessage e h body)
    (hload : DsonObj.loadFromBuf e junk (h.bytes ++ body) (.dson d children) m = some (.ready, .dson d' [], m'))
    (hmessage : d'.message m' = some (h.bytes ++ body)) : d.Takes e m h := by
  have hstart : ((d.beginLoad.loadHeaderFromBuf e junk [] m (h.bytes ++ body)).map
      fun p => (p.1, DsonObj.dson p.2.1 [], p.2.2)) = some (.ready, .dson d' [], m') := by
    rw [← hload, DsonObj.loadFromBuf_start hheader hdata]
  obtain ⟨⟨r, d₁, m₁⟩, hrun, heq⟩ := Option.map_eq_some_iff.mp hstart
  simp only [Prod.mk.injEq, DsonObj.dson.injEq, and_true] at heq
  obtain ⟨hr, hd, hm'⟩ := heq
  subst hr hd hm'
  have hkept : d.beginLoad.buf = d.buf := by simp [Dson.beginLoad, Dson.clear, halloc]
  have htake : (h.bytes ++ body).take (headerSize - d.beginLoad.offset) = h.bytes := List.take_left' rfl
  have htaken : (d.beginLoad.headerTaken h.bytes).headerBuf = h := by
    refine Header.bytes_inj ?_
    rw [Dson.headerTaken, Header.patch_bytes _ (le_of_eq (Nat.zero_add headerSize))]
    simp [Dson.beginLoad]
  have hread : (d.beginLoad.headerTaken h.bytes).header m = d.header m :=
    Dson.header_foreign d (d.beginLoad.headerTaken h.bytes) hforeign hkept halloc rfl m
  have hsize : DsonObj.dataSize e m (.dson (d.beginLoad.headerTaken h.bytes) []) =
      (d.header m).map (·.dataSizeOf e) := by
    rw [dataSize_header (by simp [Dson.headerTaken, Dson.beginLoad]), hread]
  rw [Dson.loadHeaderFromBuf_eq (Nat.zero_lt_succ _), htake, if_neg (by simp [Dson.beginLoad, headerSize])] at hrun
  cases hold : d.header m with
  | none =>
      rw [hold] at hsize
      rw [Dson.headerLoaded, hsize] at hrun
      cases hrun
  | some h₀ =>
      rw [hold] at hsize
      rw [Dson.headerLoaded_of_size hsize] at hrun
      refine Or.inr (Or.inr ⟨h₀, hold, ?_⟩)
      by_cases hrefused : h₀.dataSizeOf e < 0 ∨ h₀.dataSizeOf e > maxDsonRamSize
      · rw [if_pos hrefused] at hrun
        cases hrun
      rw [if_neg hrefused] at hrun
      by_cases hzero : h₀.dataSizeOf e = 0
      · rw [if_pos hzero] at hrun
        cases hrun
        have hread' : Dson.header { d.beginLoad.headerTaken h.bytes with
            state := .ready, dsonKind := .dsonContainer } m = some h₀ := by
          rw [← hold, ← hread]
          rfl
        rw [Dson.message, hread', Option.map_some, Option.some.injEq] at hmessage
        obtain ⟨rfl, -⟩ := Header.eq_of_append hmessage
        exact ⟨rfl, fun _ => rfl⟩
      · rw [if_neg hzero, Option.bind_some] at hrun
        dsimp only at hrun
        by_cases hend : h.bytes.length = (h.bytes ++ body).length
        · rw [if_pos hend] at hrun
          cases hrun
        · have hlen : ((List.range (h₀.dataSizeOf e).toNat).map junk).length = (h₀.dataSizeOf e).toNat := by
            rw [List.length_map, List.length_range]
          rw [if_neg hend, List.drop_left] at hrun
          obtain ⟨hheaderBuf, halloc', hbuf', hle⟩ := Dson.loadDataFromBuf_ready rfl rfl
            (show h₀.dataSizeOf e = _ by rw [hlen]; omega) hrun
          have halloc'' : d₁.wasBufAllocation = true := halloc'
          have hheader' : d₁.headerBuf = h := hheaderBuf.trans htaken
          rw [Dson.message, Dson.header_local (by simp [Dson.headerIsLocal, halloc'']), Option.map_some, halloc'',
            hbuf', hheader', Option.some.injEq] at hmessage
          have hbody := congrArg List.length (Header.eq_of_append hmessage).2
          rw [List.length_take, hlen] at hbody
          rw [hlen] at hle
          have hmsize := hm.size
          exact ⟨by omega, fun h0 => absurd h0 (by omega)⟩

/-- An exchange in lock step shows that the receiver could take the message. -/
theorem LockStep.takes {o : DsonObj} {mr : Mem} {d : Dson} {children : ObjMap}
    (hlock : LockStep e junk network ⟨o, m, .dson d children, mr⟩ (h.bytes ++ body)) (hm : IsMessage e h body)
    (hsends : Sends e network 2 o m (h.bytes ++ body)) (hheader : d.state ≠ .loadingHeader)
    (hdata : d.state ≠ .loadingData) : d.Takes e mr h := by
  by_cases halloc : d.wasBufAllocation = true
  · exact Or.inl halloc
  by_cases hbuf : d.buf = .null
  · exact Or.inr (Or.inl hbuf)
  have hforeign := Dson.isNull_of_ne hbuf
  -- one window of the length of the message
  have hlen : 0 < (h.bytes ++ body).length := by
    rw [List.length_append, Header.bytes_length]
    omega
  obtain ⟨n, room, filled, x', d', hlt, -, hrun, hreceiver, hmessage⟩ :=
    hlock (fun _ => List.replicate (h.bytes ++ body).length 0) (fun _ => by
      rw [ne_eq, List.replicate_eq_nil_iff]
      omega)
  cases n with
  | succ n =>
      rw [windows_succ, List.length_replicate] at hlt
      omega
  | zero =>
      obtain ⟨r, o', m', s', hcopy, hcases⟩ := Sends.step (n := 0) hsends (h.bytes ++ body).length
      have hwindow : s'.out = h.bytes ++ body := by
        rcases hcases with ⟨-, hout, -⟩ | ⟨-, -, hfull, rest, hsplit, hne, -⟩
        · exact hout
        · have hpos := List.length_pos_iff.mpr hne
          have htotal := congrArg List.length hsplit
          simp only [List.length_append] at htotal hfull
          omega
      have hold : s'.out ++ (List.replicate (h.bytes ++ body).length 0).drop s'.out.length = h.bytes ++ body := by
        rw [hwindow, List.drop_of_length_le (by rw [List.length_replicate]), List.append_nil]
      have hstep : Exchange.step e junk network (List.replicate (h.bytes ++ body).length 0)
          ⟨o, m, .dson d children, mr⟩ = (DsonObj.loadFromBuf e junk (h.bytes ++ body) (.dson d children) mr).map
            fun p => (⟨r, p.1, s'.room, s'.out.length⟩, ⟨o', m', p.2.1, p.2.2⟩) := by
        simp only [Exchange.step, List.length_replicate, hcopy, Option.bind_eq_bind, Option.bind_some, hold]
        cases DsonObj.loadFromBuf e junk (h.bytes ++ body) (.dson d children) mr <;> rfl
      simp only [zero_add, List.range_one, List.map_cons, List.map_nil, List.range_zero, Exchange.run, hstep] at hrun
      cases hload : DsonObj.loadFromBuf e junk (h.bytes ++ body) (.dson d children) mr with
      | none =>
          rw [hload] at hrun
          cases hrun
      | some p =>
          rw [hload] at hrun
          simp only [Option.map_some, Option.bind_eq_bind, Option.bind_some, Option.pure_def, Option.some.injEq,
            Prod.mk.injEq, List.nil_append, List.cons.injEq, Exchanged.mk.injEq] at hrun
          obtain ⟨⟨⟨-, hready, -⟩, -⟩, rfl⟩ := hrun
          refine Dson.takes_of_loaded hheader hdata hforeign (Bool.eq_false_iff.mpr halloc) hm (hload.trans ?_) hmessage
          rw [← hready, ← hreceiver]

/-- The first call of the sender. -/
theorem LockStep.first {x : Exchange} {bs : Bytes} (hlock : LockStep e junk network x bs) (prior : Nat → Bytes)
    (hne : ∀ i, prior i ≠ []) : ∃ r o' m' s',
      x.sender.copyTo e network x.senderMem (BufOut.fresh (prior 0).length) = some (r, o', m', s') ∧
        (bs.length ≤ (prior 0).length → r = .ready) ∧ ((prior 0).length < bs.length → r = .inProcess) := by
  obtain ⟨n, room, filled, x', d', hlt, hle, hrun, -⟩ := hlock prior hne
  rw [List.range_succ_eq_map, List.map_cons] at hle hrun
  rw [Exchange.run] at hrun
  obtain ⟨⟨seen, x₁⟩, hstep, hrun⟩ := Option.bind_eq_some_iff.mp hrun
  obtain ⟨⟨more, x₂⟩, -, heq⟩ := Option.bind_eq_some_iff.mp hrun
  obtain ⟨⟨r, o', m', s'⟩, hcopy, hstep⟩ := Option.bind_eq_some_iff.mp hstep
  obtain ⟨⟨r', o'', m''⟩, -, hseen⟩ := Option.bind_eq_some_iff.mp hstep
  cases hseen
  refine ⟨r, o', m', s', hcopy, ?_⟩
  simp only [Option.pure_def, Option.some.injEq, Prod.mk.injEq] at heq
  cases n with
  | zero =>
      simp only [List.range_zero, List.map_nil, List.nil_append, List.cons.injEq, Exchanged.mk.injEq] at heq
      simp only [List.range_zero, List.map_nil, List.flatten_cons, List.flatten_nil, List.append_nil] at hle
      exact ⟨fun _ => heq.1.1.1, fun h => absurd hle (by omega)⟩
  | succ n =>
      rw [List.range_succ_eq_map, List.map_cons] at hlt heq
      simp only [List.cons_append, List.cons.injEq, Exchanged.full, Exchanged.mk.injEq] at heq
      rw [List.flatten_cons, List.length_append] at hlt
      exact ⟨fun h => absurd hlt (by omega), fun _ => heq.1.1.1⟩

section

variable {o : DsonObj} {mr : Mem} {d : Dson} {children : ObjMap}

/-- An exchange in step has a sender that delivers. -/
theorem InStep.deliverable (hstep : InStep e junk network ⟨o, m, .dson d children, mr⟩) (ho : IsSender e o m)
    (hle : o.extent e m ≤ headerSize + 2 ^ 30) : o.Deliverable e network m := by
  obtain ⟨bs, -, hlen, hlock⟩ := hstep
  have hpos : headerSize ≤ o.extent e m := o.headerSize_le_extent m
  dsimp only at hlen
  rw [headerSize] at hpos
  by_contra hnot
  rcases ho.falls_short hnot hle with hnever | hshort
  · -- one window for everything
    obtain ⟨r, o', m', s', hcopy, hready, -⟩ := hlock.first (fun _ => List.replicate bs.length 0) fun _ => by
      rw [ne_eq, List.replicate_eq_nil_iff]
      omega
    exact hnever hcopy (hready (by rw [List.length_replicate]))
  · -- one byte less
    obtain ⟨r, o', m', s', hcopy, -, hmore⟩ := hlock.first (fun _ => List.replicate (bs.length - 1) 0) fun _ => by
      rw [ne_eq, List.replicate_eq_nil_iff]
      omega
    rw [List.length_replicate] at hcopy hmore
    refine hshort hcopy ?_ (hmore (by omega))
    change bs.length - 1 + 1 = o.extent e m
    omega

/-- It has a receiver that can take the message. -/
theorem InStep.takes (hstep : InStep e junk network ⟨o, m, .dson d children, mr⟩) (ho : IsSender e o m)
    (hle : o.extent e m ≤ headerSize + 2 ^ 30) (hheader : d.state ≠ .loadingHeader) (hdata : d.state ≠ .loadingData) :
    ∃ h body, (o.copyToStream e network m).map (fun p => p.2.2) = some (h.bytes ++ body) ∧ d.Takes e mr h := by
  obtain ⟨h, body, hstream, hm, -, hsends⟩ := ho.sends (hstep.deliverable ho hle) hle
  obtain ⟨bs, hbs, -, hlock⟩ := hstep
  obtain rfl : h.bytes ++ body = bs := Option.some.inj (hstream.symm.trans hbs)
  exact ⟨h, body, hstream, hlock.takes hm (hsends 2) hheader hdata⟩

end

end

end

/-- A number of four bytes in foreign memory. -/
def foreignNumber : Mem :=
  ⟨[], [1, 0, 0, 0, 4, 0, 0, 0, 5, 0, 0, 0, 3, 0, 0, 0, 7, 0, 0, 0]⟩

end LeanDson
