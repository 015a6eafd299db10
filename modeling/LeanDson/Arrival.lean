import LeanDson.Loading

/-! Messages that have arrived. Whatever loader took a message, and however its bytes were split over
the calls, the object holds the header and the payload, not looked at yet, and no byte behind them has
been taken. -/

namespace LeanDson

/-- A header and as many bytes as it announces, within the limit of the loaders. -/
structure IsMessage (e : Endian) (h : Header) (body : Bytes) : Prop where
  size : h.dataSizeOf e = body.length
  limit : body.length ≤ 2 ^ 30

instance (e : Endian) (h : Header) (body : Bytes) : Decidable (IsMessage e h body) :=
  decidable_of_iff (h.dataSizeOf e = body.length ∧ body.length ≤ 2 ^ 30)
    ⟨fun ⟨hs, hl⟩ => ⟨hs, hl⟩, fun hm => ⟨hm.size, hm.limit⟩⟩

/-- What comes down a channel for one load: as many bytes behind the header as it announces, and none
behind a header that no loader goes on with. -/
def IsSent (e : Endian) (h : Header) (body : Bytes) : Prop :=
  IsMessage e h body ∨ (Dson.Refused e h ∧ body = [])

theorem IsMessage.not_refused {e : Endian} {h : Header} {body : Bytes} (hm : IsMessage e h body) :
    ¬Dson.Refused e h := by
  intro hrefused
  have hlimit := hm.limit
  rw [Dson.Refused, hm.size, maxDsonRamSize] at hrefused
  omega

/-- Two byte strings that start with a header and have a common extension start with the same one. -/
theorem Header.eq_of_append {h h' : Header} {as bs : Bytes} (heq : h.bytes ++ as = h'.bytes ++ bs) :
    h = h' ∧ as = bs := by
  obtain ⟨hh, hrest⟩ := List.append_inj heq (by simp)
  exact ⟨Header.bytes_inj hh, hrest⟩

namespace Dson

variable {e : Endian} {d : Dson} {h : Header} {body : Bytes}

/-- How a load ends: the header is refused, or the object has the message. -/
def Ended (e : Endian) (d : Dson) (r : Result) (h : Header) (body : Bytes) : Prop :=
  (r = .error ∧ Refused e h ∧ d.Rejected h) ∨ (r = .ready ∧ ¬Refused e h ∧ d.Took e h body)

theorem Ended.ne_inProcess {r : Result} (he : d.Ended e r h body) : r ≠ .inProcess := by
  rcases he with ⟨rfl, -⟩ | ⟨rfl, -⟩ <;> simp

theorem Ended.took {r : Result} (he : d.Ended e r h body) (hm : IsMessage e h body) :
    r = .ready ∧ d.Took e h body := by
  rcases he with ⟨-, hrefused, -⟩ | ⟨rfl, -, htook⟩
  · exact absurd hrefused hm.not_refused
  · exact ⟨rfl, htook⟩

/-- A load that has taken a first part of what was sent: it waits for more of that, or has exactly
that. -/
theorem Stands.of_sent {r : Result} {got more later : Bytes} (hs : d.Stands e r got) (hsent : IsSent e h body)
    (hsplit : got ++ more = h.bytes ++ (body ++ later)) :
    (r = .inProcess ∧ d.Awaits e got ∧ got.length < headerSize + body.length) ∨
      (got = h.bytes ++ body ∧ more = later ∧ d.Ended e r h body) := by
  rcases hs with ⟨rfl, hawaits⟩ | ⟨rfl, h', body', rfl, htook⟩ | ⟨rfl, h', rfl, hrefused, hrejected⟩
  · refine Or.inl ⟨rfl, hawaits, ?_⟩
    rcases hawaits with hheader | ⟨body', rfl, hdata⟩
    · exact lt_of_lt_of_le hheader.short (Nat.le_add_right _ _)
    · rw [List.append_assoc] at hsplit
      have hshort := hdata.short
      have hlimit := hdata.limit
      rw [← hdata.size, (Header.eq_of_append hsplit).1] at hshort hlimit
      rw [List.length_append, Header.bytes_length, headerSize]
      rcases hsent with hm | ⟨hrefused, -⟩
      · rw [hm.size] at hshort
        omega
      · rw [Refused] at hrefused
        omega
  · rw [List.append_assoc] at hsplit
    obtain ⟨rfl, hrest⟩ := Header.eq_of_append hsplit
    have hsize := htook.2.1
    have hlimit := htook.2.2.1
    have hm : IsMessage e h' body := by
      rcases hsent with hm | ⟨hrefused, -⟩
      · exact hm
      · rw [Refused, hsize, maxDsonRamSize] at hrefused
        omega
    have hlen : body'.length = body.length := by
      have := hm.size
      omega
    obtain ⟨rfl, rfl⟩ := List.append_inj hrest hlen
    exact Or.inr ⟨rfl, rfl, Or.inr ⟨rfl, hm.not_refused, htook⟩⟩
  · obtain ⟨rfl, hrest⟩ := Header.eq_of_append hsplit
    rcases hsent with hm | ⟨-, rfl⟩
    · exact absurd hrefused hm.not_refused
    · exact Or.inr ⟨(List.append_nil _).symm, hrest, Or.inl ⟨rfl, hrefused, hrejected⟩⟩

/-- A load that has taken a first part of a message followed by anything. -/
theorem Stands.of_prefix {r : Result} {got more later : Bytes} (hs : d.Stands e r got) (hm : IsMessage e h body)
    (hsplit : got ++ more = h.bytes ++ (body ++ later)) :
    (r = .inProcess ∧ d.Awaits e got ∧ got.length < headerSize + body.length) ∨
      (r = .ready ∧ got = h.bytes ++ body ∧ more = later ∧ d.Took e h body) := by
  rcases hs.of_sent (Or.inl hm) hsplit with hmore | ⟨hgot, hrest, hended⟩
  · exact Or.inl hmore
  · obtain ⟨hr, htook⟩ := hended.took hm
    exact Or.inr ⟨hr, hgot, hrest, htook⟩

/-- The stream loader takes what was sent in one call. -/
theorem Idle.loadFromStream_ends (hd : d.Idle) (hsent : IsSent e h body) (junk : Nat → UInt8) (rest : Bytes)
    (children : ObjMap) (m : Mem) :
    ∃ r d', DsonObj.loadFromStream e junk (h.bytes ++ (body ++ rest)) (.dson d children) m =
      some (.dson d' [], m, rest) ∧ d'.Ended e r h body := by
  have hbuf : d.clear.buf = .null := by
    rcases hd.buf with halloc | hbuf
    · simp [clear, halloc]
    · simp [clear, hbuf]
  rw [DsonObj.loadFromStream_eq]
  rcases headerLoaded_cases (d := { d.clear with headerBuf := h, dsonKind := .dataBufNeedParse }) e junk rfl hbuf
    [] m with ⟨hrefused, hrun⟩ | ⟨hzero, hrun⟩ | ⟨hpos, hmax, block, hblock, hrun⟩
  · have hnil : body = [] := by
      rcases hsent with hm | ⟨-, hnil⟩
      · exact absurd hrefused hm.not_refused
      · exact hnil
    subst hnil
    dsimp only at hrun
    rw [hrun]
    exact ⟨_, _, rfl, Or.inl ⟨rfl, hrefused, rfl, rfl, rfl, hbuf, rfl⟩⟩
  · dsimp only at hzero hrun
    have hm : IsMessage e h body := by
      rcases hsent with hm | ⟨hrefused, -⟩
      · exact hm
      · rw [Refused, hzero, maxDsonRamSize] at hrefused
        omega
    have hsize := hm.size
    have hnil : body = [] := List.eq_nil_of_length_eq_zero (by omega)
    subst hnil
    rw [hrun]
    exact ⟨_, _, rfl, Or.inr ⟨rfl, hm.not_refused, rfl, hsize, by simp, Or.inr ⟨rfl, rfl, rfl, hbuf, rfl⟩⟩⟩
  · dsimp only at hpos hmax hblock hrun
    have hm : IsMessage e h body := by
      rcases hsent with hm | ⟨hrefused, -⟩
      · exact hm
      · rw [Refused] at hrefused
        omega
    have hsize := hm.size
    rw [hsize] at hpos hblock hrun
    have hblock' : block.length = body.length := by exact_mod_cast hblock
    have hstored := patchBuf_own (d := { d.clear with
      headerBuf := h, dsonKind := .dataBufNeedParse, buf := .own block, bufSize := body.length,
      wasBufAllocation := true }) [] m (show _ = BufPtr.own ([] ++ block) from rfl) hblock'.ge
    have htake : (body ++ rest).take body.length = body := List.take_left
    rw [hrun]
    simp only [Option.bind_some, Int.toNat_natCast, htake]
    rw [List.length_nil] at hstored
    rw [hstored, List.drop_of_length_le (by omega)]
    simp only [Option.bind_some]
    rw [if_neg (by omega), Int.toNat_natCast, List.drop_left]
    refine ⟨_, _, rfl, Or.inr ⟨rfl, hm.not_refused, rfl, hsize, hm.limit,
      Or.inl ⟨List.ne_nil_of_length_pos (by omega), rfl, rfl, rfl, ?_, rfl⟩⟩⟩
    simp

/-- The stream loader takes a message in one call. -/
theorem Idle.loadFromStream (hd : d.Idle) (hm : IsMessage e h body) (junk : Nat → UInt8) (rest : Bytes)
    (children : ObjMap) (m : Mem) :
    ∃ d', DsonObj.loadFromStream e junk (h.bytes ++ (body ++ rest)) (.dson d children) m =
      some (.dson d' [], m, rest) ∧ d'.Took e h body := by
  obtain ⟨r, d', hrun, hended⟩ := hd.loadFromStream_ends (Or.inl hm) junk rest children m
  exact ⟨d', hrun, (hended.took hm).2⟩

end Dson

/-! ### Runs of a loader -/

namespace DsonObj

variable (e : Endian) (junk : Nat → UInt8)

/-- Repeated calls of `load_from_fd`, at most so many, until one is not `inProcess`. -/
def loadFdRun : Nat → DsonObj → Mem → FdIn → Option (Result × DsonObj × Mem × FdIn)
  | 0, o, m, fd => some (.inProcess, o, m, fd)
  | n + 1, o, m, fd => do
      let (r, o, m, fd) ← o.loadFromFd e junk fd m
      if r = .inProcess then loadFdRun n o m fd else return (r, o, m, fd)

/-- Repeated calls of `load_from_buf`, one for each window, until one is not `inProcess`. -/
def loadBufRun : List Bytes → DsonObj → Mem → Option (Result × DsonObj × Mem)
  | [], o, m => some (.inProcess, o, m)
  | window :: rest, o, m => do
      let (r, o, m) ← o.loadFromBuf e junk window m
      if r = .inProcess then loadBufRun rest o m else return (r, o, m)

end DsonObj

/-- Some loader has taken the message `bs` into an object that was free for it, and has left `o`. -/
def Arrives (e : Endian) (o : DsonObj) (bs : Bytes) : Prop :=
  ∃ junk d children m, Dson.Idle d ∧
    ((∃ rest, DsonObj.loadFromStream e junk (bs ++ rest) (.dson d children) m = some (o, m, rest)) ∨
      (∃ n answers answers' rest, none ∉ answers ∧
        DsonObj.loadFdRun e junk n (.dson d children) m ⟨answers, bs ++ rest⟩ =
          some (.ready, o, m, ⟨answers', rest⟩)) ∨
      (∃ windows, DsonObj.loadBufRun e junk windows (.dson d children) m = some (.ready, o, m) ∧
        windows.flatten = bs))

section

variable {e : Endian} {d : Dson} {h : Header} {body : Bytes} {children : ObjMap} {got : Bytes}

/-- A run over a descriptor takes what was sent whole or waits for more of it. -/
theorem Dson.Loads.fdRun_ends (hd : d.Loads e children got) (hsent : IsSent e h body)
    (hshort : got.length < headerSize + body.length) (junk : Nat → UInt8)
    (n : Nat) {fd : FdIn} (hfd : none ∉ fd.answers) {later : Bytes}
    (hsplit : got ++ fd.input = h.bytes ++ (body ++ later)) (m : Mem) :
    ∃ r d' children' fd', DsonObj.loadFdRun e junk n (.dson d children) m fd = some (r, .dson d' children', m, fd') ∧
      ((r = .inProcess ∧ ∃ got', d'.Loads e children' got' ∧ got'.length < headerSize + body.length ∧
          got' ++ fd'.input = h.bytes ++ (body ++ later)) ∨
        (children' = [] ∧ fd'.input = later ∧ d'.Ended e r h body)) := by
  induction n generalizing d children got fd with
  | zero => exact ⟨_, d, children, fd, rfl, Or.inl ⟨rfl, got, hd, hshort, hsplit⟩⟩
  | succ n ih =>
      obtain ⟨r, d', j, k, hrun, -, -, hstands, -⟩ := hd.loadFromFd junk fd hfd m
      have hsplit' : got ++ fd.input.take k ++ fd.input.drop k = h.bytes ++ (body ++ later) := by
        rw [List.append_assoc, List.take_append_drop, hsplit]
      rw [DsonObj.loadFdRun, hrun]
      simp only [Option.bind_eq_bind, Option.bind_some]
      rcases hstands.of_sent hsent hsplit' with ⟨rfl, hawaits, hshort'⟩ | ⟨-, hrest, hended⟩
      · rw [if_pos rfl]
        exact ih (Or.inr ⟨rfl, hawaits⟩) hshort' (FdIn.none_notMem_after hfd j k) hsplit'
      · rw [if_neg hended.ne_inProcess]
        exact ⟨_, d', [], _, rfl, Or.inr ⟨rfl, hrest, hended⟩⟩

/-- A run over windows that are followed by more: it is in process as long as something of what was sent
is missing. -/
theorem Dson.Loads.bufRun_ends (hd : d.Loads e children got) (hsent : IsSent e h body)
    (hshort : got.length < headerSize + body.length) (junk : Nat → UInt8)
    {windows : List Bytes} {more later : Bytes}
    (hsplit : got ++ (windows.flatten ++ more) = h.bytes ++ (body ++ later)) (m : Mem) :
    ∃ r d' children', DsonObj.loadBufRun e junk windows (.dson d children) m = some (r, .dson d' children', m) ∧
      ((r = .inProcess ∧ (got ++ windows.flatten).length < headerSize + body.length ∧
          d'.Loads e children' (got ++ windows.flatten)) ∨
        (children' = [] ∧ headerSize + body.length ≤ (got ++ windows.flatten).length ∧ d'.Ended e r h body)) := by
  induction windows generalizing d children got with
  | nil =>
      rw [List.flatten_nil, List.append_nil]
      exact ⟨_, d, children, rfl, Or.inl ⟨rfl, hshort, hd⟩⟩
  | cons window rest ih =>
      obtain ⟨r, d', k, hrun, hk, hstands, hall⟩ := hd.loadFromBuf junk window m
      rw [List.flatten_cons, List.append_assoc] at hsplit
      have hsplit' : got ++ window.take k ++ (window.drop k ++ (rest.flatten ++ more)) =
          h.bytes ++ (body ++ later) := by
        rw [← hsplit, List.append_assoc, ← List.append_assoc (window.take k), List.take_append_drop]
      rw [DsonObj.loadBufRun, hrun, List.flatten_cons, ← List.append_assoc]
      simp only [Option.bind_eq_bind, Option.bind_some]
      rcases hstands.of_sent hsent hsplit' with ⟨rfl, hawaits, hshort'⟩ | ⟨hgot, -, hended⟩
      · rw [if_pos rfl]
        obtain rfl := hall rfl
        rw [List.drop_length, List.nil_append] at hsplit'
        rw [List.take_length] at hsplit' hawaits hshort'
        exact ih (Or.inr ⟨rfl, hawaits⟩) hshort' hsplit'
      · rw [if_neg hended.ne_inProcess]
        refine ⟨_, d', [], rfl, Or.inr ⟨rfl, ?_, hended⟩⟩
        have hlen := congrArg List.length hgot
        simp only [List.length_append, List.length_take, Header.bytes_length] at hlen ⊢
        rw [headerSize]
        omega

/-- What a load has taken is less than a message when it began with nothing. -/
theorem length_lt_of_nil (body : Bytes) : ([] : Bytes).length < headerSize + body.length :=
  Nat.lt_of_lt_of_le (Nat.zero_lt_succ _) (Nat.le_add_right headerSize body.length)

/-- A run over a descriptor never fails on a message. -/
theorem Dson.Loads.loadFdRun (hd : d.Loads e children []) (hm : IsMessage e h body) (junk : Nat → UInt8)
    (n : Nat) {fd : FdIn} (hfd : none ∉ fd.answers) {later : Bytes}
    (hsplit : fd.input = h.bytes ++ (body ++ later)) (m : Mem) :
    ∃ r d' children' fd', DsonObj.loadFdRun e junk n (.dson d children) m fd = some (r, .dson d' children', m, fd') ∧
      ((r = .inProcess ∧ ∃ got', d'.Loads e children' got' ∧ got' ++ fd'.input = h.bytes ++ (body ++ later)) ∨
        (r = .ready ∧ children' = [] ∧ fd'.input = later ∧ d'.Took e h body)) := by
  obtain ⟨r, d', children', fd', hrun, ⟨hr, got', hloads, -, hrest⟩ | ⟨hnil, hrest, hended⟩⟩ :=
    hd.fdRun_ends (Or.inl hm) (length_lt_of_nil body) junk n hfd hsplit m
  · exact ⟨r, d', children', fd', hrun, Or.inl ⟨hr, got', hloads, hrest⟩⟩
  · obtain ⟨hr, htook⟩ := hended.took hm
    exact ⟨r, d', children', fd', hrun, Or.inr ⟨hr, hnil, hrest, htook⟩⟩

/-- A run over windows never fails on a message. -/
theorem Dson.Loads.loadBufRun (hd : d.Loads e children []) (hm : IsMessage e h body) (junk : Nat → UInt8)
    {windows : List Bytes} {later : Bytes} (hsplit : windows.flatten = h.bytes ++ (body ++ later)) (m : Mem) :
    ∃ r d' children', DsonObj.loadBufRun e junk windows (.dson d children) m = some (r, .dson d' children', m) ∧
      ((r = .inProcess ∧ d'.Loads e children' (h.bytes ++ (body ++ later))) ∨
        (r = .ready ∧ children' = [] ∧ d'.Took e h body)) := by
  have hsplit' : [] ++ (windows.flatten ++ []) = h.bytes ++ (body ++ later) := by
    rw [List.nil_append, List.append_nil, hsplit]
  obtain ⟨r, d', children', hrun, ⟨hr, -, hloads⟩ | ⟨hnil, -, hended⟩⟩ :=
    hd.bufRun_ends (Or.inl hm) (length_lt_of_nil body) junk hsplit' m
  · rw [List.nil_append, hsplit] at hloads
    exact ⟨r, d', children', hrun, Or.inl ⟨hr, hloads⟩⟩
  · obtain ⟨hr, htook⟩ := hended.took hm
    exact ⟨r, d', children', hrun, Or.inr ⟨hr, hnil, htook⟩⟩

/-- The message in front of what has arrived is held as it came, whichever loader took it. -/
theorem Arrives.took_front {o : DsonObj} {more : Bytes} (ho : Arrives e o (h.bytes ++ (body ++ more)))
    (hm : IsMessage e h body) : ∃ d, o = .dson d [] ∧ d.Took e h body := by
  obtain ⟨junk, d, children, m, hd, ⟨rest, hrun⟩ | ⟨n, answers, answers', rest, hanswers, hrun⟩ |
    ⟨windows, hrun, hflat⟩⟩ := ho
  · obtain ⟨d', hrun', htook⟩ := hd.loadFromStream hm junk (more ++ rest) children m
    rw [List.append_assoc, List.append_assoc, hrun'] at hrun
    injection hrun with hrun
    exact ⟨d', (congrArg Prod.fst hrun).symm, htook⟩
  · have hsplit : (⟨answers, h.bytes ++ (body ++ more) ++ rest⟩ : FdIn).input = h.bytes ++ (body ++ (more ++ rest)) := by
      rw [List.append_assoc, List.append_assoc]
    obtain ⟨r, d', children', fd', hrun', hcases⟩ := Dson.Loads.loadFdRun (Or.inl ⟨rfl, hd⟩) hm junk n
      hanswers hsplit m
    rw [hrun'] at hrun
    cases hrun
    rcases hcases with ⟨hr, -⟩ | ⟨-, rfl, -, htook⟩
    · cases hr
    · exact ⟨d', rfl, htook⟩
  · obtain ⟨r, d', children', hrun', hcases⟩ := Dson.Loads.loadBufRun (Or.inl ⟨rfl, hd⟩) hm junk hflat m
    rw [hrun'] at hrun
    cases hrun
    rcases hcases with ⟨hr, -⟩ | ⟨-, rfl, htook⟩
    · cases hr
    · exact ⟨d', rfl, htook⟩

/-- What has arrived is held as it came. -/
theorem Arrives.took {o : DsonObj} (ho : Arrives e o (h.bytes ++ body)) (hm : IsMessage e h body) :
    ∃ d, o = .dson d [] ∧ d.Took e h body := by
  rw [← List.append_nil body] at ho
  exact ho.took_front hm

/-- Nothing arrives under a header that is refused, if there is something behind it. -/
theorem Arrives.not_refused {o : DsonObj} (ho : Arrives e o (h.bytes ++ body)) (hne : body ≠ []) :
    ¬Dson.Refused e h := by
  intro hrefused
  have hsent : IsSent e h [] := Or.inr ⟨hrefused, rfl⟩
  obtain ⟨junk, d, children, m, hd, ⟨rest, hrun⟩ | ⟨n, answers, answers', rest, hanswers, hrun⟩ |
    ⟨windows, hrun, hflat⟩⟩ := ho
  · obtain ⟨r, d', hrun', -⟩ := hd.loadFromStream_ends hsent junk (body ++ rest) children m
    rw [List.append_assoc, ← List.nil_append (body ++ rest), hrun'] at hrun
    injection hrun with hrun
    have hlen := congrArg List.length (congrArg (fun p => p.2.2) hrun)
    dsimp only at hlen
    rw [List.length_append] at hlen
    exact hne (List.eq_nil_of_length_eq_zero (by omega))
  · have hsplit : [] ++ (⟨answers, h.bytes ++ body ++ rest⟩ : FdIn).input = h.bytes ++ ([] ++ (body ++ rest)) := by
      rw [List.append_assoc, List.nil_append, List.nil_append]
    obtain ⟨r, d', children', fd', hrun', ⟨hr, -⟩ | ⟨-, -, ⟨hr, -⟩ | ⟨-, hnot, -⟩⟩⟩ :=
      Dson.Loads.fdRun_ends (Or.inl ⟨rfl, hd⟩) hsent (length_lt_of_nil []) junk n hanswers hsplit m
    · rw [hrun', hr] at hrun
      cases hrun
    · rw [hrun', hr] at hrun
      cases hrun
    · exact hnot hrefused
  · have hsplit : [] ++ (windows.flatten ++ []) = h.bytes ++ ([] ++ body) := by
      rw [List.nil_append, List.append_nil, hflat, List.nil_append]
    obtain ⟨r, d', children', hrun', ⟨hr, -⟩ | ⟨-, -, ⟨hr, -⟩ | ⟨-, hnot, -⟩⟩⟩ :=
      Dson.Loads.bufRun_ends (Or.inl ⟨rfl, hd⟩) hsent (length_lt_of_nil []) junk hsplit m
    · rw [hrun', hr] at hrun
      cases hrun
    · rw [hrun', hr] at hrun
      cases hrun
    · exact hnot hrefused

/-- Every message arrives. -/
theorem IsMessage.arrives (hm : IsMessage e h body) : ∃ o, Arrives e o (h.bytes ++ body) := by
  have hidle : (Dson.uninit (Dson.clearHeader e)).Idle := ⟨by simp [Dson.uninit], by simp [Dson.uninit], Or.inr rfl⟩
  obtain ⟨d', hrun, -⟩ := hidle.loadFromStream hm (fun _ => 0) [] [] ⟨[], []⟩
  refine ⟨.dson d' [], fun _ => 0, _, [], ⟨[], []⟩, hidle, Or.inl ⟨[], ?_⟩⟩
  rw [List.append_assoc]
  exact hrun

end

end LeanDson
