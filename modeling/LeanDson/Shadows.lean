import LeanDson.Arrival

/-! Objects that still point into foreign memory when they are loaded. `clear` keeps a buffer that is not the object's
own, and as long as the object has no block the size of a message is read from the header there. If that header
announces the size of the message that comes, the object loads what one without a buffer loads. -/

namespace LeanDson

/-- A message can be loaded: the object has no foreign buffer, or the header at the start of that buffer
announces the same size, and is the same header when the size is zero. -/
def Dson.Takes (e : Endian) (d : Dson) (m : Mem) (h : Header) : Prop :=
  d.wasBufAllocation = true ∨ d.buf = .null ∨
    ∃ h₀, d.header m = some h₀ ∧ h₀.dataSizeOf e = h.dataSizeOf e ∧ (h.dataSizeOf e = 0 → h₀ = h)

/-- The object is one without a buffer, but that it still points into a foreign one. -/
structure Dson.Shadows (e : Endian) (m : Mem) (h : Header) (d d₀ : Dson) : Prop where
  buf : d₀.buf = .null
  alloc : d₀.wasBufAllocation = false
  same : d = { d₀ with buf := d.buf }
  foreign : d.buf.isNull = false
  takes : ∃ h₀, d.header m = some h₀ ∧ h₀.dataSizeOf e = h.dataSizeOf e ∧ (h.dataSizeOf e = 0 → h₀ = h)

section

variable {e : Endian} {junk : Nat → UInt8}

theorem Dson.header_foreign (d d' : Dson) (hforeign : d.buf.isNull = false) (hbuf : d'.buf = d.buf)
    (halloc : d.wasBufAllocation = false) (halloc' : d'.wasBufAllocation = false) (m : Mem) :
    d'.header m = d.header m := by
  have hlocal : ∀ {d'' : Dson}, d''.buf = d.buf → d''.wasBufAllocation = false → d''.headerIsLocal = false := by
    intro d'' hbuf'' halloc''
    rw [Dson.headerIsLocal, hbuf'', halloc'', hforeign]
    rfl
  rw [Dson.header, Dson.header, hlocal hbuf halloc', hlocal rfl halloc, hbuf]
  rfl

theorem Dson.isNull_of_ne {d : Dson} (hbuf : d.buf ≠ .null) : d.buf.isNull = false := by
  cases hcase : d.buf with
  | null => exact absurd hcase hbuf
  | own block => rfl
  | view region off => rfl

namespace Dson.Shadows

variable {d d₀ d₁ : Dson} {m m₁ : Mem} {h : Header} {got body : Bytes} {r : Result} {children : ObjMap}

theorem not_alloc (hs : d.Shadows e m h d₀) : d.wasBufAllocation = false := by
  rw [hs.same]
  exact hs.alloc

/-- Whatever happens to the other fields, the foreign header stays as it is. -/
theorem keeps (hs : d.Shadows e m h d₀) (d' : Dson) (hbuf : d'.buf = .null) (halloc : d'.wasBufAllocation = false) :
    Dson.Shadows e m h { d' with buf := d.buf } d' := by
  obtain ⟨h₀, hread, hsame⟩ := hs.takes
  have hheader : Dson.header { d' with buf := d.buf } m = d.header m :=
    Dson.header_foreign d { d' with buf := d.buf } hs.foreign rfl hs.not_alloc halloc m
  exact ⟨hbuf, halloc, rfl, hs.foreign, h₀, hheader.trans hread, hsame⟩

theorem headerTaken (hs : d.Shadows e m h d₀) (chunk : Bytes) :
    d.headerTaken chunk = { d₀.headerTaken chunk with buf := d.buf } := by
  rw [hs.same]
  rfl

/-- The header is complete, so it is the one that has been sent: the load is over, or the block takes the place of the
foreign buffer. -/
theorem complete (hs : d.Shadows e m h d₀) (ha : d₀.AwaitsHeader got) {chunk rest : Bytes}
    (hfull : (got ++ chunk).length = headerSize) (hsplit : got ++ chunk ++ rest = h.bytes ++ body)
    {next : Option Result} (hload : (d₀.headerTaken chunk).headerLoaded e junk children m = some (next, d₁)) :
    ∃ d₂, (d.headerTaken chunk).headerLoaded e junk children m = some (next, d₂) ∧
      (next = none ∧ d₂ = d₁ ∨ next ≠ none ∧ d₂.Shadows e m h d₁) := by
  have hheader : (d₀.headerTaken chunk).headerBuf = h := by
    have htake := ha.bytes_taken (show got.length + chunk.length ≤ headerSize by rw [← List.length_append, hfull])
    rw [hfull, List.take_of_length_le (by rw [Header.bytes_length, headerSize])] at htake
    rw [← htake] at hsplit
    exact (Header.eq_of_append hsplit).1
  have hkind : (d₀.headerTaken chunk).dsonKind ≠ .dsonContainer := by
    rw [Dson.headerTaken, ha.kind]
    decide
  have hsize₀ : DsonObj.dataSize e m (.dson (d₀.headerTaken chunk) children) = some (h.dataSizeOf e) := by
    rw [dataSize_header hkind,
      Dson.header_local (by simp [Dson.headerIsLocal, Dson.headerTaken, hs.buf, BufPtr.isNull]), hheader]
    rfl
  have hsize₁ : DsonObj.dataSize e m (.dson { d₀.headerTaken chunk with buf := d.buf } children) =
      some (h.dataSizeOf e) := by
    obtain ⟨h₁, hread₁, hsize₁, -⟩ := (hs.keeps (d₀.headerTaken chunk) hs.buf hs.alloc).takes
    rw [dataSize_header (by exact hkind), hread₁, Option.map_some, hsize₁]
  rw [Dson.headerLoaded_of_size hsize₀] at hload
  rw [hs.headerTaken, Dson.headerLoaded_of_size hsize₁]
  split_ifs at hload ⊢ with hrefused hnone
  · cases hload
    exact ⟨_, rfl, Or.inr ⟨by simp, hs.keeps { d₀.headerTaken chunk with state := .error } hs.buf hs.alloc⟩⟩
  · cases hload
    exact ⟨_, rfl, Or.inr ⟨by simp, hs.keeps { d₀.headerTaken chunk with
      state := .ready, dsonKind := .dsonContainer } hs.buf hs.alloc⟩⟩
  · cases hload
    exact ⟨_, rfl, Or.inl ⟨rfl, rfl⟩⟩

/-- A header comes over a descriptor. -/
theorem loadHeaderFromFd (hs : d.Shadows e m h d₀) (ha : d₀.AwaitsHeader got) {fd fd' : FdIn}
    (hfd : none ∉ fd.answers) (hsplit : got ++ fd.input = h.bytes ++ body)
    (hload : d₀.loadHeaderFromFd e junk children m fd = some (r, d₁, m₁, fd')) :
    ∃ d₂, d.loadHeaderFromFd e junk children m fd = some (r, d₂, m₁, fd') ∧ (d₂ = d₁ ∨ d₂.Shadows e m h d₁) := by
  have hshort := ha.short
  have hoff := ha.offset
  have hoffset : d.offset = d₀.offset := by rw [hs.same]
  obtain ⟨j, k, hread, -, hk, hinput, -⟩ := readFromFd_some hfd (headerSize - d₀.offset)
  have hlen : (fd.input.take k).length = k := by rw [List.length_take, min_eq_left hinput]
  rw [Dson.loadHeaderFromFd_eq (by omega)] at hload ⊢
  rw [hread] at hload
  rw [hoffset, hread]
  dsimp only at hload ⊢
  split_ifs at hload ⊢ with hmore
  · cases hload
    rw [hs.headerTaken]
    exact ⟨_, rfl, Or.inr (hs.keeps _ hs.buf hs.alloc)⟩
  · obtain ⟨⟨next, d'⟩, hloaded, hload⟩ := Option.bind_eq_some_iff.mp hload
    obtain ⟨d₂, hloaded₂, hcases⟩ := hs.complete ha (by rw [List.length_append]; omega)
      (show got ++ fd.input.take k ++ fd.input.drop k = _ by rw [List.append_assoc, List.take_append_drop, hsplit]) hloaded
    rw [hloaded₂, Option.bind_some]
    rcases hcases with ⟨rfl, rfl⟩ | ⟨hne, hshadow⟩
    · exact ⟨_, hload, Or.inl rfl⟩
    · cases next with
      | none => exact absurd rfl hne
      | some r' =>
          cases hload
          exact ⟨_, rfl, Or.inr hshadow⟩

/-- A header comes in a window. -/
theorem loadHeaderFromBuf (hs : d.Shadows e m h d₀) (ha : d₀.AwaitsHeader got) {window more : Bytes}
    (hsplit : got ++ window ++ more = h.bytes ++ body)
    (hload : d₀.loadHeaderFromBuf e junk children m window = some (r, d₁, m₁)) :
    ∃ d₂, d.loadHeaderFromBuf e junk children m window = some (r, d₂, m₁) ∧ (d₂ = d₁ ∨ d₂.Shadows e m h d₁) := by
  have hshort := ha.short
  have hoff := ha.offset
  have hoffset : d.offset = d₀.offset := by rw [hs.same]
  rw [Dson.loadHeaderFromBuf_eq (by omega)] at hload ⊢
  rw [hoffset]
  have hlen := List.length_take (i := headerSize - d₀.offset) (l := window)
  obtain ⟨tail, htail⟩ : window.take (headerSize - d₀.offset) <+: window := List.take_prefix _ _
  generalize window.take (headerSize - d₀.offset) = chunk at hload hlen htail ⊢
  by_cases hmore : d₀.offset + chunk.length < headerSize
  · rw [if_pos hmore] at hload ⊢
    cases hload
    rw [hs.headerTaken]
    exact ⟨_, rfl, Or.inr (hs.keeps _ hs.buf hs.alloc)⟩
  · rw [if_neg hmore] at hload ⊢
    obtain ⟨⟨next, d'⟩, hloaded, hload⟩ := Option.bind_eq_some_iff.mp hload
    obtain ⟨d₂, hloaded₂, hcases⟩ := hs.complete ha (by rw [List.length_append]; omega)
      (show got ++ chunk ++ (tail ++ more) = _ by rw [← hsplit, ← htail]; simp only [List.append_assoc]) hloaded
    rw [hloaded₂, Option.bind_some]
    rcases hcases with ⟨rfl, rfl⟩ | ⟨hne, hshadow⟩
    · exact ⟨_, hload, Or.inl rfl⟩
    · cases next with
      | none => exact absurd rfl hne
      | some r' =>
          cases hload
          exact ⟨_, rfl, Or.inr hshadow⟩

theorem beginLoad (hs : d.Shadows e m h d₀) : d.beginLoad.Shadows e m h d₀.beginLoad := by
  have hkept : d.beginLoad = { d₀.beginLoad with buf := d.buf } := by
    rw [hs.same]
    simp [Dson.beginLoad, Dson.clear, hs.alloc]
  rw [hkept]
  exact hs.keeps _ (by simp [Dson.beginLoad, Dson.clear, hs.alloc, hs.buf]) rfl

/-- Between the calls the object that has no buffer is idle or waits for the rest of a header. -/
theorem loads_cases (hs : d.Shadows e m h d₀) (hl : d₀.Loads e children got) :
    (got = [] ∧ d₀.Idle) ∨ (children = [] ∧ d₀.AwaitsHeader got) := by
  rcases hl with hidle | ⟨hnil, ha | ⟨taken, -, hdata⟩⟩
  · exact Or.inl hidle
  · exact Or.inr ⟨hnil, ha⟩
  · have halloc := hs.alloc
    rw [hdata.alloc] at halloc
    cases halloc

/-- One call over a descriptor. -/
theorem loadFromFd (hs : d.Shadows e m h d₀) (hl : d₀.Loads e children got) {fd fd' : FdIn} (hfd : none ∉ fd.answers)
    (hsplit : got ++ fd.input = h.bytes ++ body)
    (hload : DsonObj.loadFromFd e junk fd (.dson d₀ children) m = some (r, .dson d₁ [], m₁, fd')) :
    ∃ d₂, DsonObj.loadFromFd e junk fd (.dson d children) m = some (r, .dson d₂ [], m₁, fd') ∧
      (d₂ = d₁ ∨ d₂.Shadows e m h d₁) := by
  have hstate : d.state = d₀.state := by rw [hs.same]
  rcases hs.loads_cases hl with ⟨rfl, hidle⟩ | ⟨rfl, ha⟩
  · rw [DsonObj.loadFromFd_start hidle.header hidle.data] at hload
    obtain ⟨⟨r', d', m', fd''⟩, hcall, heq⟩ := Option.map_eq_some_iff.mp hload
    cases heq
    obtain ⟨d₂, hrun, hd₂⟩ := hs.beginLoad.loadHeaderFromFd hidle.beginLoad hfd hsplit hcall
    refine ⟨d₂, ?_, hd₂⟩
    rw [DsonObj.loadFromFd_start (by rw [hstate]; exact hidle.header) (by rw [hstate]; exact hidle.data), hrun]
    rfl
  · rw [DsonObj.loadFromFd_header ha.state] at hload
    obtain ⟨⟨r', d', m', fd''⟩, hcall, heq⟩ := Option.map_eq_some_iff.mp hload
    cases heq
    obtain ⟨d₂, hrun, hd₂⟩ := hs.loadHeaderFromFd ha hfd hsplit hcall
    refine ⟨d₂, ?_, hd₂⟩
    rw [DsonObj.loadFromFd_header (hstate.trans ha.state), hrun]
    rfl

/-- One call over a window. -/
theorem loadFromBuf (hs : d.Shadows e m h d₀) (hl : d₀.Loads e children got) {window more : Bytes}
    (hsplit : got ++ window ++ more = h.bytes ++ body)
    (hload : DsonObj.loadFromBuf e junk window (.dson d₀ children) m = some (r, .dson d₁ [], m₁)) :
    ∃ d₂, DsonObj.loadFromBuf e junk window (.dson d children) m = some (r, .dson d₂ [], m₁) ∧
      (d₂ = d₁ ∨ d₂.Shadows e m h d₁) := by
  have hstate : d.state = d₀.state := by rw [hs.same]
  rcases hs.loads_cases hl with ⟨rfl, hidle⟩ | ⟨rfl, ha⟩
  · rw [DsonObj.loadFromBuf_start hidle.header hidle.data] at hload
    obtain ⟨⟨r', d', m'⟩, hcall, heq⟩ := Option.map_eq_some_iff.mp hload
    cases heq
    obtain ⟨d₂, hrun, hd₂⟩ := hs.beginLoad.loadHeaderFromBuf hidle.beginLoad hsplit hcall
    refine ⟨d₂, ?_, hd₂⟩
    rw [DsonObj.loadFromBuf_start (by rw [hstate]; exact hidle.header) (by rw [hstate]; exact hidle.data), hrun]
    rfl
  · rw [DsonObj.loadFromBuf_header ha.state] at hload
    obtain ⟨⟨r', d', m'⟩, hcall, heq⟩ := Option.map_eq_some_iff.mp hload
    cases heq
    obtain ⟨d₂, hrun, hd₂⟩ := hs.loadHeaderFromBuf ha hsplit hcall
    refine ⟨d₂, ?_, hd₂⟩
    rw [DsonObj.loadFromBuf_header (hstate.trans ha.state), hrun]
    rfl

end Dson.Shadows

/-- An object that is free for a load and has a foreign buffer. -/
theorem Dson.Takes.shadows {d : Dson} {m : Mem} {h : Header} (ht : d.Takes e m h) (halloc : d.wasBufAllocation ≠ true)
    (hbuf : d.buf ≠ .null) : d.Shadows e m h { d with buf := .null } :=
  ⟨rfl, Bool.eq_false_iff.mpr halloc, rfl, Dson.isNull_of_ne hbuf, (ht.resolve_left halloc).resolve_left hbuf⟩

/-! ### Runs -/

/-- A message with data is in a block of the object's own. -/
theorem Dson.Took.alloc {d : Dson} {h : Header} {body : Bytes} (ht : d.Took e h body) (hne : body ≠ []) :
    d.wasBufAllocation = true := by
  obtain ⟨-, -, -, ⟨-, hloaded⟩ | ⟨hnil, -⟩⟩ := ht
  · exact hloaded.alloc
  · exact absurd hnil hne

section

variable {d d₀ : Dson} {m : Mem} {h : Header} {got body later : Bytes} {children : ObjMap}

/-- An object that shadows one with a message is that object. -/
theorem Dson.Shadows.eq_of_took (hs : d = d₀ ∨ d.Shadows e m h d₀) (ht : d₀.Took e h body) (hne : body ≠ []) : d = d₀ := by
  rcases hs with heq | hs
  · exact heq
  · have halloc := hs.alloc
    rw [ht.alloc hne] at halloc
    cases halloc

/-- Over a descriptor the two objects are the same as soon as a call is not in process. -/
theorem Dson.Shadows.fdRun (hs : d = d₀ ∨ d.Shadows e m h d₀) (hl : d₀.Loads e children got) (hm : IsMessage e h body)
    (hne : body ≠ []) (junk : Nat → UInt8) (n : Nat) {fd : FdIn} (hfd : none ∉ fd.answers)
    (hsplit : got ++ fd.input = h.bytes ++ (body ++ later)) : ∃ r o₁ o₂ fd',
      DsonObj.loadFdRun e junk n (.dson d children) m fd = some (r, o₁, m, fd') ∧
        DsonObj.loadFdRun e junk n (.dson d₀ children) m fd = some (r, o₂, m, fd') ∧ (r ≠ .inProcess → o₁ = o₂) := by
  induction n generalizing d d₀ got children fd with
  | zero => exact ⟨_, _, _, _, rfl, rfl, fun hr => absurd rfl hr⟩
  | succ n ih =>
      obtain ⟨r, d₁, j, k, hrun, -, -, hstands, -⟩ := hl.loadFromFd junk fd hfd m
      obtain ⟨d₂, hrun₂, hs₁⟩ : ∃ d₂, DsonObj.loadFromFd e junk fd (.dson d children) m =
          some (r, .dson d₂ [], m, fd.after j k) ∧ (d₂ = d₁ ∨ d₂.Shadows e m h d₁) := by
        rcases hs with rfl | hs
        · exact ⟨d₁, hrun, Or.inl rfl⟩
        · exact hs.loadFromFd hl hfd hsplit hrun
      have hsplit' : got ++ fd.input.take k ++ fd.input.drop k = h.bytes ++ (body ++ later) := by
        rw [List.append_assoc, List.take_append_drop, hsplit]
      rw [DsonObj.loadFdRun, DsonObj.loadFdRun, hrun, hrun₂]
      simp only [Option.bind_eq_bind, Option.bind_some]
      rcases hstands.of_prefix hm hsplit' with ⟨rfl, hawaits, -⟩ | ⟨rfl, -, -, ht⟩
      · rw [if_pos rfl, if_pos rfl]
        exact ih hs₁ (Or.inr ⟨rfl, hawaits⟩) (FdIn.none_notMem_after hfd j k) hsplit'
      · obtain rfl := Dson.Shadows.eq_of_took hs₁ ht hne
        exact ⟨_, _, _, _, rfl, rfl, fun _ => rfl⟩

/-- Over windows, too. -/
theorem Dson.Shadows.bufRun (hs : d = d₀ ∨ d.Shadows e m h d₀) (hl : d₀.Loads e children got) (hm : IsMessage e h body)
    (hne : body ≠ []) (junk : Nat → UInt8) {windows : List Bytes} {more : Bytes}
    (hsplit : got ++ (windows.flatten ++ more) = h.bytes ++ (body ++ later)) : ∃ r o₁ o₂,
      DsonObj.loadBufRun e junk windows (.dson d children) m = some (r, o₁, m) ∧
        DsonObj.loadBufRun e junk windows (.dson d₀ children) m = some (r, o₂, m) ∧ (r ≠ .inProcess → o₁ = o₂) := by
  induction windows generalizing d d₀ got children with
  | nil => exact ⟨_, _, _, rfl, rfl, fun hr => absurd rfl hr⟩
  | cons window rest ih =>
      obtain ⟨r, d₁, k, hrun, -, hstands, hall⟩ := hl.loadFromBuf junk window m
      rw [List.flatten_cons, List.append_assoc] at hsplit
      obtain ⟨d₂, hrun₂, hs₁⟩ : ∃ d₂, DsonObj.loadFromBuf e junk window (.dson d children) m =
          some (r, .dson d₂ [], m) ∧ (d₂ = d₁ ∨ d₂.Shadows e m h d₁) := by
        rcases hs with rfl | hs
        · exact ⟨d₁, hrun, Or.inl rfl⟩
        · exact hs.loadFromBuf hl ((List.append_assoc _ _ _).trans hsplit) hrun
      have hsplit' : got ++ window.take k ++ (window.drop k ++ (rest.flatten ++ more)) =
          h.bytes ++ (body ++ later) := by
        rw [← hsplit, List.append_assoc, ← List.append_assoc (window.take k), List.take_append_drop]
      rw [DsonObj.loadBufRun, DsonObj.loadBufRun, hrun, hrun₂]
      simp only [Option.bind_eq_bind, Option.bind_some]
      rcases hstands.of_prefix hm hsplit' with ⟨rfl, hawaits, -⟩ | ⟨rfl, -, -, ht⟩
      · rw [if_pos rfl, if_pos rfl]
        obtain rfl := hall rfl
        rw [List.drop_length, List.nil_append] at hsplit'
        exact ih hs₁ (Or.inr ⟨rfl, hawaits⟩) hsplit'
      · obtain rfl := Dson.Shadows.eq_of_took hs₁ ht hne
        exact ⟨_, _, _, rfl, rfl, fun _ => rfl⟩

/-- From a stream there is nothing in between. -/
theorem Dson.Shadows.loadFromStream (hs : d.clear.Shadows e m h d₀.clear) (hm : IsMessage e h body) (hne : body ≠ [])
    (junk : Nat → UInt8) (rest : Bytes) (children children₀ : ObjMap) :
    DsonObj.loadFromStream e junk (h.bytes ++ rest) (.dson d children) m =
      DsonObj.loadFromStream e junk (h.bytes ++ rest) (.dson d₀ children₀) m := by
  have hpos : 0 < body.length := List.length_pos_iff.mpr hne
  have hmsize := hm.size
  have hsize₀ : DsonObj.dataSize e m (.dson { d₀.clear with headerBuf := h, dsonKind := .dataBufNeedParse } []) =
      some (h.dataSizeOf e) := by
    rw [dataSize_header (by simp), Dson.header_local (by simp [Dson.headerIsLocal, hs.buf, BufPtr.isNull])]
    rfl
  have hshadow := hs.keeps { d₀.clear with headerBuf := h, dsonKind := .dataBufNeedParse } hs.buf hs.alloc
  have hsame : ({ d.clear with headerBuf := h, dsonKind := .dataBufNeedParse } : Dson) =
      { d₀.clear with headerBuf := h, dsonKind := .dataBufNeedParse, buf := d.clear.buf } := by
    rw [hs.same]
  have hsize : DsonObj.dataSize e m (.dson { d.clear with headerBuf := h, dsonKind := .dataBufNeedParse } []) =
      some (h.dataSizeOf e) := by
    obtain ⟨h₁, hread₁, hsize₁, -⟩ := hshadow.takes
    rw [hsame, dataSize_header (by simp), hread₁, Option.map_some, hsize₁]
  have hloaded : Dson.headerLoaded e junk { d.clear with headerBuf := h, dsonKind := .dataBufNeedParse } [] m =
      Dson.headerLoaded e junk { d₀.clear with headerBuf := h, dsonKind := .dataBufNeedParse } [] m := by
    have hrefused := hm.not_refused
    rw [Dson.Refused] at hrefused
    rw [Dson.headerLoaded_of_size hsize, Dson.headerLoaded_of_size hsize₀, if_neg hrefused, if_neg hrefused,
      if_neg (by omega), if_neg (by omega), hsame]
  rw [DsonObj.loadFromStream_eq, DsonObj.loadFromStream_eq, hloaded]

end

end

end LeanDson
