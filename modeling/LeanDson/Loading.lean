import LeanDson.Load
import LeanDson.Parsing

/-! What the incremental loaders have taken. `Awaits d got` says that an object has taken the bytes
`got` of a message and the message is not complete; a call takes some more, and ends when the header
and as many bytes as it announces are there. -/

namespace LeanDson

/-! ### Reads -/

/-- The next read takes something. -/
def FdIn.Gives (fd : FdIn) : Prop := fd.input ≠ [] ∧ ∃ n rest, fd.answers = some (n + 1) :: rest

/-- A descriptor after `j` reads that have taken `k` bytes. -/
def FdIn.after (fd : FdIn) (j k : Nat) : FdIn := ⟨fd.answers.drop j, fd.input.drop k⟩

theorem FdIn.none_notMem_after {fd : FdIn} (hfd : none ∉ fd.answers) (j k : Nat) :
    none ∉ (fd.after j k).answers := fun hmem => hfd (List.mem_of_mem_drop hmem)

theorem FdIn.after_after (fd : FdIn) (j j' k k' : Nat) :
    (fd.after j k).after j' k' = fd.after (j + j') (k + k') := by
  simp only [FdIn.after, List.drop_drop]

/-- The answer of a descriptor that does not fail: the first bytes there are, as many as it likes. -/
theorem readFromFd_some {fd : FdIn} (hfd : none ∉ fd.answers) (size : Nat) :
    ∃ j k, readFromFd fd size = (some (fd.input.take k), fd.after j k) ∧
      j ≤ 1 ∧ k ≤ size ∧ k ≤ fd.input.length ∧ (0 < size → fd.Gives → 0 < k) := by
  obtain ⟨answers, input⟩ := fd
  match answers with
  | [] =>
      refine ⟨0, 0, rfl, Nat.zero_le _, Nat.zero_le _, Nat.zero_le _, ?_⟩
      rintro - ⟨-, n, rest, hnil⟩
      cases hnil
  | none :: rest => exact absurd List.mem_cons_self hfd
  | some n :: rest =>
      refine ⟨1, min (min n size) input.length, ?_, le_rfl, by omega, min_le_right _ _, ?_⟩
      · simp only [readFromFd, FdIn.after, List.drop_one, List.tail_cons]
        rw [take_min_length]
        congr 2
        rcases le_total (min n size) input.length with h | h
        · rw [min_eq_left h]
        · rw [min_eq_right h, List.drop_of_length_le h, List.drop_length]
      · rintro hsize ⟨hne, n', rest', hcons⟩
        cases hcons
        have hpos : 0 < input.length := List.length_pos_of_ne_nil hne
        omega

/-! ### Partial headers and payloads -/

theorem Header.patch_bytes (h : Header) {off : Nat} {chunk : Bytes} (hle : off + chunk.length ≤ headerSize) :
    (h.patch off chunk).bytes = h.bytes.take off ++ chunk ++ h.bytes.drop (off + chunk.length) := by
  rw [headerSize] at hle
  have hlen : (h.bytes.take off ++ chunk ++ h.bytes.drop (off + chunk.length)).length = 16 := by
    simp only [List.length_append, List.length_take, List.length_drop, Header.bytes_length]
    omega
  obtain ⟨h', rest, hread⟩ := Header.read_isSome (b := h.bytes.take off ++ chunk ++
    h.bytes.drop (off + chunk.length)) (by omega)
  have heq := Header.eq_of_read hread
  have hrest : rest = [] := by
    have hl := congrArg List.length heq
    rw [hlen, List.length_append, Header.bytes_length] at hl
    exact List.eq_nil_of_length_eq_zero (by omega)
  rw [Header.patch, hread, heq, hrest, List.append_nil]

namespace Dson

/-- The object has taken `got`, less than a header, since its load began. -/
structure AwaitsHeader (d : Dson) (got : Bytes) : Prop where
  short : got.length < headerSize
  state : d.state = .loadingHeader
  offset : d.offset = got.length
  header : d.headerBuf.bytes.take got.length = got
  kind : d.dsonKind = .dataBufNeedParse
  buf : d.buf = .null
  alloc : d.wasBufAllocation = false

/-- The object has taken a header and `body`, less than the header announces. -/
structure AwaitsData (e : Endian) (d : Dson) (body : Bytes) : Prop where
  short : (body.length : Int) < d.bufSize
  state : d.state = .loadingData
  offset : d.offset = body.length
  size : d.headerBuf.dataSizeOf e = d.bufSize
  limit : d.bufSize ≤ maxDsonRamSize
  kind : d.dsonKind = .dataBufNeedParse
  alloc : d.wasBufAllocation = true
  buf : ∃ rest, d.buf = .own (body ++ rest) ∧ ((body ++ rest).length : Int) = d.bufSize

/-- The object has taken the bytes `got` of a message that is not complete. -/
def Awaits (e : Endian) (d : Dson) (got : Bytes) : Prop :=
  d.AwaitsHeader got ∨ ∃ body, got = d.headerBuf.bytes ++ body ∧ d.AwaitsData e body

/-- The object has taken a whole message. -/
def Took (e : Endian) (d : Dson) (h : Header) (body : Bytes) : Prop :=
  d.headerBuf = h ∧ h.dataSizeOf e = body.length ∧ body.length ≤ 2 ^ 30 ∧
    ((body ≠ [] ∧ d.Loaded body) ∨
      (body = [] ∧ d.state = .ready ∧ d.dsonKind = .dsonContainer ∧ d.buf = .null ∧ d.wasBufAllocation = false))

/-- A header that no loader goes on with. -/
def Refused (e : Endian) (h : Header) : Prop := h.dataSizeOf e < 0 ∨ h.dataSizeOf e > maxDsonRamSize

instance (e : Endian) (h : Header) : Decidable (Refused e h) := inferInstanceAs (Decidable (_ ∨ _))

/-- The object has been given a header that it does not go on with. -/
structure Rejected (d : Dson) (h : Header) : Prop where
  header : d.headerBuf = h
  state : d.state = .error
  kind : d.dsonKind = .dataBufNeedParse
  buf : d.buf = .null
  alloc : d.wasBufAllocation = false

variable {e : Endian} {d : Dson}

/-- How the load stands once it has taken `got`. -/
def Stands (e : Endian) (d : Dson) (r : Result) (got : Bytes) : Prop :=
  (r = .inProcess ∧ d.Awaits e got) ∨
    (r = .ready ∧ ∃ h body, got = h.bytes ++ body ∧ d.Took e h body) ∨
    (r = .error ∧ ∃ h, got = h.bytes ∧ Refused e h ∧ d.Rejected h)

/-! ### Payloads -/

theorem patchBuf_own (body : Bytes) {rest chunk : Bytes} (m : Mem) (hbuf : d.buf = .own (body ++ rest))
    (hle : chunk.length ≤ rest.length) :
    d.patchBuf m body.length chunk =
      some ({ d with buf := .own (body ++ chunk ++ rest.drop chunk.length) }, m) := by
  rw [patchBuf, hbuf, BufPtr.tail, if_pos (by simp), List.drop_left]
  simp only [Option.bind_eq_bind, Option.bind_some, poke_isSome hle, BufPtr.setTail, List.take_left,
    ← List.append_assoc]
  rfl

/-- A piece of the payload is stored behind what is there. -/
theorem AwaitsData.store {body : Bytes} (h : d.AwaitsData e body) (chunk : Bytes)
    (hle : (body.length + chunk.length : Int) ≤ d.bufSize) (m : Mem) :
    ∃ d', d.patchBuf m d.offset chunk = some (d', m) ∧ d'.bufSize = d.bufSize ∧ d'.offset = d.offset ∧
      d'.headerBuf = d.headerBuf ∧
      (((body ++ chunk).length : Int) < d.bufSize →
        AwaitsData e { d' with offset := d'.offset + chunk.length } (body ++ chunk)) ∧
      (((body ++ chunk).length : Int) = d.bufSize →
        Took e { d' with offset := d'.offset + chunk.length, state := .ready } d.headerBuf (body ++ chunk)) := by
  obtain ⟨rest, hbuf, hlen⟩ := h.buf
  rw [List.length_append] at hlen
  have hpatch : d.patchBuf m d.offset chunk =
      some ({ d with buf := .own (body ++ chunk ++ rest.drop chunk.length) }, m) := by
    have hfit : chunk.length ≤ rest.length := by omega
    have hstored := patchBuf_own body m hbuf hfit
    rwa [← h.offset] at hstored
  refine ⟨_, hpatch, rfl, rfl, rfl, fun hshort => ?_, fun hfull => ?_⟩
  · refine ⟨hshort, h.state, ?_, h.size, h.limit, h.kind, h.alloc, rest.drop chunk.length, rfl, ?_⟩
    · simp only [List.length_append, h.offset]
    · simp only [List.length_append, List.length_drop]
      omega
  · have hlimit := h.limit
    have hrest : rest.drop chunk.length = [] := by
      rw [List.drop_eq_nil_iff]
      rw [List.length_append] at hfull
      omega
    have hshort := h.short
    refine ⟨rfl, by rw [h.size, hfull], ?_, Or.inl ⟨?_, rfl, h.kind, h.alloc, ?_, hfull.symm⟩⟩
    · rw [maxDsonRamSize] at hlimit
      omega
    · apply List.ne_nil_of_length_pos
      omega
    · rw [hrest, List.append_nil]

theorem AwaitsData.loadDataFromFd_stands {body : Bytes} (h : d.AwaitsData e body) (fd : FdIn)
    (hfd : none ∉ fd.answers) (m : Mem) :
    ∃ r d' j k, d.loadDataFromFd m fd = some (r, d', m, fd.after j k) ∧ j ≤ 1 ∧ k ≤ fd.input.length ∧
      Stands e d' r (d.headerBuf.bytes ++ (body ++ fd.input.take k)) ∧ (fd.Gives → 0 < k) := by
  obtain ⟨j, k, hread, hj, hk, hkin, hgives⟩ := readFromFd_some hfd (d.bufSize - d.offset).toNat
  have hshort := h.short
  have hoff := h.offset
  have hlen : (fd.input.take k).length = k := by rw [List.length_take, min_eq_left hkin]
  obtain ⟨d', hpatch, hsize, hoff', hheader, hawaits, htook⟩ := h.store (fd.input.take k)
    (by rw [hlen]; omega) m
  simp only [loadDataFromFd, hread]
  rw [if_neg (by omega)]
  simp only [hpatch, Option.bind_eq_bind, Option.bind_some, hlen]
  rw [hlen] at hawaits htook
  have hlen' : (body ++ fd.input.take k).length = body.length + k := by rw [List.length_append, hlen]
  by_cases hfull : ((d'.offset + k : Nat) : Int) = d'.bufSize
  · rw [if_pos hfull]
    refine ⟨_, _, j, k, rfl, hj, hkin, Or.inr (Or.inl ⟨rfl, _, _, rfl, htook ?_⟩), hgives (by omega)⟩
    rw [hlen']
    omega
  · rw [if_neg hfull]
    refine ⟨_, _, j, k, rfl, hj, hkin, Or.inl ⟨rfl, Or.inr ⟨_, ?_, hawaits ?_⟩⟩, hgives (by omega)⟩
    · rw [hheader]
    · rw [hlen']
      omega

/-! ### Headers -/

/-- What the loaders do with a complete header, given the size they read from it. -/
theorem headerLoaded_of_size {children : ObjMap} {m : Mem} {size : Int}
    (hsize : DsonObj.dataSize e m (.dson d children) = some size) (junk : Nat → UInt8) :
    d.headerLoaded e junk children m =
      if size < 0 ∨ size > maxDsonRamSize then some (some .error, { d with state := .error })
      else if size = 0 then some (some .ready, { d with state := .ready, dsonKind := .dsonContainer })
      else some (none, { d with
        buf := .own ((List.range size.toNat).map junk), bufSize := size, wasBufAllocation := true }) := by
  rw [headerLoaded, hsize]
  simp only [Option.bind_eq_bind, Option.bind_some]
  split_ifs with hrefused hzero
  · rfl
  · rfl
  · rw [allocate, if_neg (by omega)]
    rfl

/-- The cases of a complete header. -/
theorem headerLoaded_cases (e : Endian) (junk : Nat → UInt8) (hkind : d.dsonKind = .dataBufNeedParse) (hbuf : d.buf = .null) (children : ObjMap)
    (m : Mem) :
    (Refused e d.headerBuf ∧ d.headerLoaded e junk children m = some (some .error, { d with state := .error })) ∨
      (d.headerBuf.dataSizeOf e = 0 ∧ d.headerLoaded e junk children m =
        some (some .ready, { d with state := .ready, dsonKind := .dsonContainer })) ∨
      (0 < d.headerBuf.dataSizeOf e ∧ d.headerBuf.dataSizeOf e ≤ maxDsonRamSize ∧
        ∃ block : Bytes, (block.length : Int) = d.headerBuf.dataSizeOf e ∧ d.headerLoaded e junk children m =
          some (none, { d with
            buf := .own block
            bufSize := d.headerBuf.dataSizeOf e
            wasBufAllocation := true })) := by
  have hsize : DsonObj.dataSize e m (.dson d children) = some (d.headerBuf.dataSizeOf e) := by
    rw [dataSize_header (by simp [hkind]), header_local (by simp [headerIsLocal, hbuf, BufPtr.isNull])]
    rfl
  rw [headerLoaded_of_size hsize]
  by_cases hrefused : d.headerBuf.dataSizeOf e < 0 ∨ d.headerBuf.dataSizeOf e > maxDsonRamSize
  · rw [if_pos hrefused]
    exact Or.inl ⟨hrefused, rfl⟩
  rw [if_neg hrefused]
  by_cases hzero : d.headerBuf.dataSizeOf e = 0
  · rw [if_pos hzero]
    exact Or.inr (Or.inl ⟨hzero, rfl⟩)
  · rw [if_neg hzero]
    refine Or.inr (Or.inr ⟨by omega, by omega, _, ?_, rfl⟩)
    rw [List.length_map, List.length_range]
    omega

/-- The header after one more piece of it. -/
def headerTaken (d : Dson) (chunk : Bytes) : Dson :=
  { d with
    headerBuf := d.headerBuf.patch d.offset chunk
    offset := d.offset + chunk.length }

section

variable {got chunk : Bytes} (h : d.AwaitsHeader got) (hle : got.length + chunk.length ≤ headerSize)

include h hle

theorem AwaitsHeader.bytes_taken :
    (d.headerTaken chunk).headerBuf.bytes.take (got ++ chunk).length = got ++ chunk := by
  rw [headerTaken, h.offset]
  dsimp only
  rw [Header.patch_bytes _ hle, h.header]
  exact List.take_left

theorem AwaitsHeader.more (hshort : (got ++ chunk).length < headerSize) :
    (d.headerTaken chunk).AwaitsHeader (got ++ chunk) where
  short := hshort
  state := h.state
  offset := by rw [headerTaken, h.offset, List.length_append]
  header := h.bytes_taken hle
  kind := h.kind
  buf := h.buf
  alloc := h.alloc

/-- The header is complete: the load is over, or goes on with the payload. -/
theorem AwaitsHeader.complete (e : Endian) (junk : Nat → UInt8) (hfull : (got ++ chunk).length = headerSize) (children : ObjMap) (m : Mem) :
    ∃ r d', (d.headerTaken chunk).headerLoaded e junk children m = some (r, d') ∧
      match r with
      | some r => d'.Stands e r (got ++ chunk) ∧ r ≠ .inProcess
      | none => d'.beginData.AwaitsData e [] ∧ d'.beginData.headerBuf.bytes = got ++ chunk := by
  have hbytes : (d.headerTaken chunk).headerBuf.bytes = got ++ chunk := by
    have htaken := h.bytes_taken hle
    rwa [hfull, List.take_of_length_le (by rw [Header.bytes_length, headerSize])] at htaken
  rcases headerLoaded_cases (d := d.headerTaken chunk) e junk h.kind h.buf children m with
    ⟨hrefused, hrun⟩ | ⟨hzero, hrun⟩ | ⟨hpos, hlimit, block, hblock, hrun⟩
  · exact ⟨_, _, hrun, Or.inr (Or.inr ⟨rfl, _, hbytes.symm, hrefused, rfl, rfl, h.kind, h.buf, h.alloc⟩), by simp⟩
  · refine ⟨_, _, hrun, Or.inr (Or.inl ⟨rfl, _, [], by rw [List.append_nil, hbytes], rfl, hzero, by simp,
      Or.inr ⟨rfl, rfl, rfl, h.buf, h.alloc⟩⟩), by simp⟩
  · exact ⟨_, _, hrun, ⟨hpos, rfl, rfl, rfl, hlimit, h.kind, rfl, block, rfl, hblock⟩, hbytes⟩

end

/-! ### The branches of a call -/

theorem loadHeaderFromFd_eq (hoff : d.offset < headerSize) (junk : Nat → UInt8) (children : ObjMap) (m : Mem)
    (fd : FdIn) : d.loadHeaderFromFd e junk children m fd =
      match readFromFd fd (headerSize - d.offset) with
      | (none, fd) => some (.error, { d with state := .error }, m, fd)
      | (some chunk, fd) =>
          if d.offset + chunk.length < headerSize then some (.inProcess, d.headerTaken chunk, m, fd)
          else ((d.headerTaken chunk).headerLoaded e junk children m).bind fun p =>
            match p with
            | (some r, d) => some (r, d, m, fd)
            | (none, d') => d'.beginData.loadDataFromFd m fd := by
  rw [loadHeaderFromFd, if_neg (by omega)]
  rfl

theorem loadHeaderFromBuf_eq (hoff : d.offset < headerSize) (junk : Nat → UInt8) (children : ObjMap) (m : Mem)
    (window : Bytes) : d.loadHeaderFromBuf e junk children m window =
      if d.offset + (window.take (headerSize - d.offset)).length < headerSize then
        some (.inProcess, d.headerTaken (window.take (headerSize - d.offset)), m)
      else ((d.headerTaken (window.take (headerSize - d.offset))).headerLoaded e junk children m).bind fun p =>
        match p with
        | (some r, d) => some (r, d, m)
        | (none, d') =>
            if (window.take (headerSize - d.offset)).length = window.length then some (.inProcess, d'.beginData, m)
            else d'.beginData.loadDataFromBuf m (window.drop (window.take (headerSize - d.offset)).length) := by
  rw [loadHeaderFromBuf, if_neg (by omega)]
  rfl

/-! ### Calls over a descriptor -/

theorem AwaitsHeader.loadHeaderFromFd_stands {got : Bytes} (h : d.AwaitsHeader got) (junk : Nat → UInt8)
    (fd : FdIn) (hfd : none ∉ fd.answers) (children : ObjMap) (m : Mem) :
    ∃ r d' j k, d.loadHeaderFromFd e junk children m fd = some (r, d', m, fd.after j k) ∧ j ≤ 2 ∧
      k ≤ fd.input.length ∧ Stands e d' r (got ++ fd.input.take k) ∧ (fd.Gives → 0 < k) := by
  obtain ⟨j, k, hread, hj, hk, hkin, hgives⟩ := readFromFd_some hfd (headerSize - d.offset)
  have hshort := h.short
  have hoff := h.offset
  have hlen : (fd.input.take k).length = k := by rw [List.length_take, min_eq_left hkin]
  have hle : got.length + (fd.input.take k).length ≤ headerSize := by omega
  have hlen' : (got ++ fd.input.take k).length = got.length + k := by rw [List.length_append, hlen]
  have hafter : (d.headerTaken (fd.input.take k)).offset = (got ++ fd.input.take k).length := by
    rw [headerTaken, hlen', hlen, hoff]
  simp only [loadHeaderFromFd, hread]
  rw [if_neg (by omega)]
  change ∃ r d' j' k', (if (d.headerTaken (fd.input.take k)).offset < headerSize then _ else _) = _ ∧ _
  by_cases hmore : (got ++ fd.input.take k).length < headerSize
  · rw [if_pos (by rw [hafter]; exact hmore)]
    exact ⟨_, _, j, k, rfl, by omega, hkin, Or.inl ⟨rfl, Or.inl (h.more hle hmore)⟩, hgives (by omega)⟩
  rw [if_neg (by rw [hafter]; exact hmore)]
  obtain ⟨r, d', hrun, hnext⟩ := h.complete hle e junk (by omega) children m
  rw [headerTaken] at hrun
  rw [hrun]
  cases r with
  | some r => exact ⟨r, d', j, k, rfl, by omega, hkin, hnext.1, hgives (by omega)⟩
  | none =>
      obtain ⟨hawaits, hheader⟩ := hnext
      obtain ⟨r, d'', j', k', hrun', hj', hkin', hstands, -⟩ :=
        hawaits.loadDataFromFd_stands (fd.after j k) (FdIn.none_notMem_after hfd j k) m
      rw [FdIn.after, List.length_drop] at hkin'
      refine ⟨r, d'', j + j', k + k', ?_, by omega, by omega, ?_, fun hg => ?_⟩
      · simp only [Option.bind_eq_bind, Option.bind_some, hrun', FdIn.after_after]
      · rwa [hheader, List.nil_append, FdIn.after, List.append_assoc, ← List.take_add] at hstands
      · have := hgives (by omega) hg
        omega

/-! ### Calls over windows -/

theorem AwaitsData.loadDataFromBuf_stands {body : Bytes} (h : d.AwaitsData e body) (window : Bytes) (m : Mem) :
    ∃ r d' k, d.loadDataFromBuf m window = some (r, d', m) ∧ k ≤ window.length ∧
      Stands e d' r (d.headerBuf.bytes ++ (body ++ window.take k)) ∧ (r = .inProcess → k = window.length) := by
  have hshort := h.short
  have hoff := h.offset
  have hlen := List.length_take (i := (d.bufSize - d.offset).toNat) (l := window)
  obtain ⟨d', hpatch, hsize, hoff', hheader, hawaits, htook⟩ :=
    h.store (window.take (d.bufSize - d.offset).toNat) (by rw [hlen]; omega) m
  have hlen' : (body ++ window.take (d.bufSize - d.offset).toNat).length =
      body.length + min (d.bufSize - d.offset).toNat window.length := by rw [List.length_append, hlen]
  have htake := take_min_length (d.bufSize - d.offset).toNat window
  rw [loadDataFromBuf, if_neg (by omega)]
  simp only [hpatch, Option.bind_eq_bind, Option.bind_some]
  by_cases hfull : ((d'.offset + (window.take (d.bufSize - d.offset).toNat).length : Nat) : Int) = d'.bufSize
  · rw [if_pos hfull]
    refine ⟨_, _, min (d.bufSize - d.offset).toNat window.length, rfl, min_le_right _ _, ?_, by simp⟩
    rw [htake]
    exact Or.inr (Or.inl ⟨rfl, _, _, rfl, htook (by rw [hlen']; omega)⟩)
  · rw [if_neg hfull]
    refine ⟨_, _, min (d.bufSize - d.offset).toNat window.length, rfl, min_le_right _ _, ?_, fun _ => by omega⟩
    rw [htake]
    exact Or.inl ⟨rfl, Or.inr ⟨_, by rw [hheader], hawaits (by rw [hlen']; omega)⟩⟩

theorem AwaitsHeader.loadHeaderFromBuf_stands {got : Bytes} (h : d.AwaitsHeader got) (e : Endian)
    (junk : Nat → UInt8) (window : Bytes) (children : ObjMap) (m : Mem) :
    ∃ r d' k, d.loadHeaderFromBuf e junk children m window = some (r, d', m) ∧ k ≤ window.length ∧
      Stands e d' r (got ++ window.take k) ∧ (r = .inProcess → k = window.length) := by
  have hshort := h.short
  have hoff := h.offset
  have hlen := List.length_take (i := headerSize - d.offset) (l := window)
  have hle : got.length + (window.take (headerSize - d.offset)).length ≤ headerSize := by omega
  have hlen' : (got ++ window.take (headerSize - d.offset)).length =
      got.length + min (headerSize - d.offset) window.length := by rw [List.length_append, hlen]
  have htake := take_min_length (headerSize - d.offset) window
  have hafter : (d.headerTaken (window.take (headerSize - d.offset))).offset =
      (got ++ window.take (headerSize - d.offset)).length := by rw [headerTaken, hlen', hlen, hoff]
  rw [loadHeaderFromBuf, if_neg (by omega)]
  change ∃ r d' k', (if (d.headerTaken (window.take (headerSize - d.offset))).offset < headerSize then _ else _) =
    _ ∧ _
  by_cases hmore : (got ++ window.take (headerSize - d.offset)).length < headerSize
  · rw [if_pos (by rw [hafter]; exact hmore)]
    refine ⟨_, _, min (headerSize - d.offset) window.length, rfl, min_le_right _ _, ?_, fun _ => by omega⟩
    rw [htake]
    exact Or.inl ⟨rfl, Or.inl (h.more hle hmore)⟩
  rw [if_neg (by rw [hafter]; exact hmore)]
  obtain ⟨r, d', hrun, hnext⟩ := h.complete hle e junk (by omega) children m
  rw [headerTaken] at hrun
  rw [hrun]
  cases r with
  | some r =>
      refine ⟨r, d', min (headerSize - d.offset) window.length, rfl, min_le_right _ _, ?_,
        fun hr => absurd hr hnext.2⟩
      rw [htake]
      exact hnext.1
  | none =>
      obtain ⟨hawaits, hheader⟩ := hnext
      simp only [Option.bind_eq_bind, Option.bind_some]
      by_cases hend : (window.take (headerSize - d.offset)).length = window.length
      · rw [if_pos hend]
        refine ⟨_, _, window.length, rfl, le_rfl, Or.inl ⟨rfl, Or.inr ⟨[], ?_, hawaits⟩⟩, fun _ => rfl⟩
        rw [hheader, List.append_nil, ← hend, hlen, htake]
      · rw [if_neg hend]
        obtain ⟨r, d'', k, hrun', hk, hstands, hall⟩ := hawaits.loadDataFromBuf_stands
          (window.drop (window.take (headerSize - d.offset)).length) m
        rw [List.length_drop] at hk hall
        refine ⟨r, d'', min (headerSize - d.offset) window.length + k, hrun', by omega, ?_,
          fun hr => by have := hall hr; omega⟩
        rw [hlen] at hstands
        rwa [hheader, List.nil_append, List.append_assoc, ← htake, ← List.take_add] at hstands

end Dson

/-- A complete header replaces whatever was there. -/
theorem Header.patch_full (h h' : Header) : h'.patch 0 h.bytes = h := by
  apply Header.bytes_inj
  rw [Header.patch_bytes _ (by simp [headerSize])]
  simp

section

variable {e : Endian} {junk : Nat → UInt8} {d : Dson} {children : ObjMap} {m : Mem} {fd : FdIn} {window : Bytes}

/-- The stream loader over a complete header. -/
theorem DsonObj.loadFromStream_eq (e : Endian) (junk : Nat → UInt8) (d : Dson) (children : ObjMap) (m : Mem) (h : Header) (rest : Bytes) :
    DsonObj.loadFromStream e junk (h.bytes ++ rest) (.dson d children) m =
      (Dson.headerLoaded e junk { d.clear with headerBuf := h, dsonKind := .dataBufNeedParse } [] m).bind fun p =>
        match p with
        | (some _, d) => some (.dson d [], m, rest)
        | (none, d) => (d.patchBuf m 0 (rest.take d.bufSize.toNat)).bind fun q =>
            if ((rest.take d.bufSize.toNat).length : Int) < q.1.bufSize then
              some (.dson { q.1 with state := .error } [], q.2, [])
            else some (.dson { q.1 with state := .ready } [], q.2, rest.drop q.1.bufSize.toNat) := by
  have hchunk : (h.bytes ++ rest).take headerSize = h.bytes := List.take_left' rfl
  have hrest : (h.bytes ++ rest).drop headerSize = rest := List.drop_left' rfl
  rw [DsonObj.loadFromStream]
  simp only [hchunk, hrest, Header.patch_full]
  rw [if_neg (by simp [headerSize])]
  cases Dson.headerLoaded e junk { d.clear with headerBuf := h, dsonKind := .dataBufNeedParse } [] m with
  | none => rfl
  | some p =>
      obtain ⟨r, d'⟩ := p
      cases r <;> rfl

theorem DsonObj.loadFromFd_start (hheader : d.state ≠ .loadingHeader) (hdata : d.state ≠ .loadingData) :
    DsonObj.loadFromFd e junk fd (.dson d children) m =
      (d.beginLoad.loadHeaderFromFd e junk [] m fd).map fun p => (p.1, .dson p.2.1 [], p.2.2) := by
  cases hcase : d.state <;> first | exact absurd hcase hheader | exact absurd hcase hdata | skip
  all_goals
    simp only [DsonObj.loadFromFd, hcase, Option.bind_eq_bind]
    cases d.beginLoad.loadHeaderFromFd e junk [] m fd <;> rfl

theorem DsonObj.loadFromFd_header (hstate : d.state = .loadingHeader) :
    DsonObj.loadFromFd e junk fd (.dson d children) m =
      (d.loadHeaderFromFd e junk children m fd).map fun p => (p.1, .dson p.2.1 children, p.2.2) := by
  simp only [DsonObj.loadFromFd, hstate, Option.bind_eq_bind]
  cases d.loadHeaderFromFd e junk children m fd <;> rfl

theorem DsonObj.loadFromFd_data (hstate : d.state = .loadingData) :
    DsonObj.loadFromFd e junk fd (.dson d children) m =
      (d.loadDataFromFd m fd).map fun p => (p.1, .dson p.2.1 children, p.2.2) := by
  simp only [DsonObj.loadFromFd, hstate, Option.bind_eq_bind]
  cases d.loadDataFromFd m fd <;> rfl

theorem DsonObj.loadFromBuf_start (hheader : d.state ≠ .loadingHeader) (hdata : d.state ≠ .loadingData) :
    DsonObj.loadFromBuf e junk window (.dson d children) m =
      (d.beginLoad.loadHeaderFromBuf e junk [] m window).map fun p => (p.1, .dson p.2.1 [], p.2.2) := by
  cases hcase : d.state <;> first | exact absurd hcase hheader | exact absurd hcase hdata | skip
  all_goals
    simp only [DsonObj.loadFromBuf, hcase, Option.bind_eq_bind]
    cases d.beginLoad.loadHeaderFromBuf e junk [] m window <;> rfl

theorem DsonObj.loadFromBuf_header (hstate : d.state = .loadingHeader) :
    DsonObj.loadFromBuf e junk window (.dson d children) m =
      (d.loadHeaderFromBuf e junk children m window).map fun p => (p.1, .dson p.2.1 children, p.2.2) := by
  simp only [DsonObj.loadFromBuf, hstate, Option.bind_eq_bind]
  cases d.loadHeaderFromBuf e junk children m window <;> rfl

theorem DsonObj.loadFromBuf_data (hstate : d.state = .loadingData) :
    DsonObj.loadFromBuf e junk window (.dson d children) m =
      (d.loadDataFromBuf m window).map fun p => (p.1, .dson p.2.1 children, p.2.2) := by
  simp only [DsonObj.loadFromBuf, hstate, Option.bind_eq_bind]
  cases d.loadDataFromBuf m window <;> rfl

end

namespace Dson

variable {e : Endian} {d : Dson}

/-! ### Objects -/

/-- An object that a load starts over with. -/
structure Idle (d : Dson) : Prop where
  header : d.state ≠ .loadingHeader
  data : d.state ≠ .loadingData
  buf : d.wasBufAllocation = true ∨ d.buf = .null

/-- The object has taken `got` of a message that is not complete; an idle one has taken nothing. -/
def Loads (e : Endian) (d : Dson) (children : ObjMap) (got : Bytes) : Prop :=
  (got = [] ∧ d.Idle) ∨ (children = [] ∧ d.Awaits e got)

theorem Idle.beginLoad (h : d.Idle) : d.beginLoad.AwaitsHeader [] := by
  refine ⟨Nat.zero_lt_succ _, rfl, rfl, rfl, rfl, ?_, rfl⟩
  rcases h.buf with halloc | hbuf
  · simp [Dson.beginLoad, clear, halloc]
  · simp [Dson.beginLoad, clear, hbuf]

/-- A complete message leaves an object that can be loaded again. -/
theorem Took.idle {h : Header} {body : Bytes} (ht : d.Took e h body) : d.Idle := by
  obtain ⟨-, -, -, ⟨-, hloaded⟩ | ⟨-, hstate, -, hbuf, -⟩⟩ := ht
  · exact ⟨by simp [hloaded.state], by simp [hloaded.state], Or.inl hloaded.alloc⟩
  · exact ⟨by simp [hstate], by simp [hstate], Or.inr hbuf⟩

/-- One call over a descriptor. -/
theorem Loads.loadFromFd {children : ObjMap} {got : Bytes} (h : d.Loads e children got) (junk : Nat → UInt8)
    (fd : FdIn) (hfd : none ∉ fd.answers) (m : Mem) :
    ∃ r d' j k, DsonObj.loadFromFd e junk fd (.dson d children) m = some (r, .dson d' [], m, fd.after j k) ∧
      j ≤ 2 ∧ k ≤ fd.input.length ∧ Stands e d' r (got ++ fd.input.take k) ∧ (fd.Gives → 0 < k) := by
  rcases h with ⟨rfl, hidle⟩ | ⟨rfl, hheader | ⟨body, rfl, hdata⟩⟩
  · obtain ⟨r, d', j, k, hrun, hrest⟩ := hidle.beginLoad.loadHeaderFromFd_stands (e := e) junk fd hfd [] m
    refine ⟨r, d', j, k, ?_, hrest⟩
    rw [DsonObj.loadFromFd_start hidle.header hidle.data, hrun, Option.map_some]
  · obtain ⟨r, d', j, k, hrun, hrest⟩ := hheader.loadHeaderFromFd_stands (e := e) junk fd hfd [] m
    refine ⟨r, d', j, k, ?_, hrest⟩
    rw [DsonObj.loadFromFd_header hheader.state, hrun, Option.map_some]
  · obtain ⟨r, d', j, k, hrun, hj, hk, hstands, hgives⟩ := hdata.loadDataFromFd_stands fd hfd m
    rw [← List.append_assoc] at hstands
    refine ⟨r, d', j, k, ?_, by omega, hk, hstands, hgives⟩
    rw [DsonObj.loadFromFd_data hdata.state, hrun, Option.map_some]

/-- One call over a window: what is in process has taken the whole window. -/
theorem Loads.loadFromBuf {children : ObjMap} {got : Bytes} (h : d.Loads e children got) (junk : Nat → UInt8)
    (window : Bytes) (m : Mem) :
    ∃ r d' k, DsonObj.loadFromBuf e junk window (.dson d children) m = some (r, .dson d' [], m) ∧
      k ≤ window.length ∧ Stands e d' r (got ++ window.take k) ∧ (r = .inProcess → k = window.length) := by
  rcases h with ⟨rfl, hidle⟩ | ⟨rfl, hheader | ⟨body, rfl, hdata⟩⟩
  · obtain ⟨r, d', k, hrun, hrest⟩ := hidle.beginLoad.loadHeaderFromBuf_stands e junk window [] m
    refine ⟨r, d', k, ?_, hrest⟩
    rw [DsonObj.loadFromBuf_start hidle.header hidle.data, hrun, Option.map_some]
  · obtain ⟨r, d', k, hrun, hrest⟩ := hheader.loadHeaderFromBuf_stands e junk window [] m
    refine ⟨r, d', k, ?_, hrest⟩
    rw [DsonObj.loadFromBuf_header hheader.state, hrun, Option.map_some]
  · obtain ⟨r, d', k, hrun, hk, hstands, hall⟩ := hdata.loadDataFromBuf_stands window m
    rw [← List.append_assoc] at hstands
    refine ⟨r, d', k, ?_, hk, hstands, hall⟩
    rw [DsonObj.loadFromBuf_data hdata.state, hrun, Option.map_some]

end Dson

end LeanDson
