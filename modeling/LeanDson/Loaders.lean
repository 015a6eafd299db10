import LeanDson.Arrival

/-! The three loaders agree. Over the same bytes they end in the same state, wherever the calls cut the
bytes, whatever the object was used for before, and without a byte behind the message. -/

namespace LeanDson

section

variable {e : Endian} {d : Dson} {h : Header} {body : Bytes} {children : ObjMap} {got : Bytes}

/-- When every read takes something, a run over a descriptor ends. -/
theorem Dson.Loads.fdRun_completes (hd : d.Loads e children got) (hsent : IsSent e h body)
    (hshort : got.length < headerSize + body.length) (junk : Nat → UInt8) {n : Nat} {fd : FdIn}
    (hpos : ∀ a ∈ fd.answers, ∃ k, a = some (k + 1)) (hcalls : headerSize + body.length ≤ got.length + n)
    (hreads : 2 * (headerSize + body.length) ≤ 2 * got.length + fd.answers.length) {later : Bytes}
    (hsplit : got ++ fd.input = h.bytes ++ (body ++ later)) (m : Mem) :
    ∃ r d' fd', DsonObj.loadFdRun e junk n (.dson d children) m fd = some (r, .dson d' [], m, fd') ∧
      fd'.input = later ∧ d'.Ended e r h body := by
  induction n generalizing d children got fd with
  | zero => omega
  | succ n ih =>
      have hfd : none ∉ fd.answers := by
        intro hmem
        obtain ⟨k, hk⟩ := hpos none hmem
        cases hk
      obtain ⟨r, d', j, k, hrun, hj, hk, hstands, hgives⟩ := hd.loadFromFd junk fd hfd m
      have htaken : (fd.input.take k).length = k := by rw [List.length_take, min_eq_left hk]
      have hsplit' : got ++ fd.input.take k ++ fd.input.drop k = h.bytes ++ (body ++ later) := by
        rw [List.append_assoc, List.take_append_drop, hsplit]
      rw [DsonObj.loadFdRun, hrun]
      simp only [Option.bind_eq_bind, Option.bind_some]
      rcases hstands.of_sent hsent hsplit' with ⟨rfl, hawaits, hshort'⟩ | ⟨-, hrest, hended⟩
      · have hinput : fd.input ≠ [] := by
          intro hnil
          have hlen := congrArg List.length hsplit
          rw [hnil] at hlen
          simp only [List.length_append, List.length_nil, Header.bytes_length] at hlen
          rw [headerSize] at hshort
          omega
        have hfirst : ∃ n rest, fd.answers = some (n + 1) :: rest := by
          cases hanswers : fd.answers with
          | nil =>
              rw [hanswers, List.length_nil] at hreads
              omega
          | cons a rest =>
              obtain ⟨n, rfl⟩ := hpos a (by rw [hanswers]; exact List.mem_cons_self)
              exact ⟨n, rest, rfl⟩
        have hmore : 0 < k := hgives ⟨hinput, hfirst⟩
        have hleft : (fd.after j k).answers.length = fd.answers.length - j := List.length_drop
        rw [if_pos rfl]
        refine ih (Or.inr ⟨rfl, hawaits⟩) hshort' (fun a ha => hpos a (List.mem_of_mem_drop ha)) ?_ ?_ hsplit'
        · rw [List.length_append, htaken]
          omega
        · rw [List.length_append, htaken, hleft]
          omega
      · rw [if_neg hended.ne_inProcess]
        exact ⟨r, d', _, rfl, hrest, hended⟩

end

/-- How the loaders take what was sent into one object, with other bytes behind it. A run stops at the
first call that is not in process. -/
structure LoadersAgree (e : Endian) (junk : Nat → UInt8) (o : DsonObj) (m : Mem) (h : Header) (body : Bytes) :
    Prop where
  stream : ∀ later, ∃ r d, o.loadFromStream e junk (h.bytes ++ (body ++ later)) m = some (.dson d [], m, later) ∧
    d.Ended e r h body
  fd : ∀ n answers later, none ∉ answers → ∃ r o' fd,
    o.loadFdRun e junk n m ⟨answers, h.bytes ++ (body ++ later)⟩ = some (r, o', m, fd) ∧
      ((r = .inProcess ∧ later.length < fd.input.length) ∨
        ∃ d, o' = .dson d [] ∧ fd.input = later ∧ d.Ended e r h body)
  fd_completes : ∀ n answers later, (∀ a ∈ answers, ∃ k, a = some (k + 1)) →
    headerSize + body.length ≤ n → 2 * (headerSize + body.length) ≤ answers.length → ∃ r d fd,
      o.loadFdRun e junk n m ⟨answers, h.bytes ++ (body ++ later)⟩ = some (r, .dson d [], m, fd) ∧
        fd.input = later ∧ d.Ended e r h body
  buf : ∀ windows later, windows.flatten = h.bytes ++ (body ++ later) → ∃ r d,
    o.loadBufRun e junk windows m = some (r, .dson d [], m) ∧ d.Ended e r h body
  buf_inProcess : ∀ windows rest, windows.flatten ++ rest = h.bytes ++ body → rest ≠ [] → ∃ o',
    o.loadBufRun e junk windows m = some (.inProcess, o', m)

/-- The loaders agree, and are independent of how the bytes are cut, from every object that is not a
view and not in the middle of a load. -/
theorem loaders_agree {e : Endian} {h : Header} {body : Bytes} (hsent : IsSent e h body) {d : Dson}
    (hd : d.Idle) (junk : Nat → UInt8) (children : ObjMap) (m : Mem) :
    LoadersAgree e junk (.dson d children) m h body where
  stream later := hd.loadFromStream_ends hsent junk later children m
  fd := by
    intro n answers later hanswers
    have hsplit : [] ++ (⟨answers, h.bytes ++ (body ++ later)⟩ : FdIn).input = h.bytes ++ (body ++ later) := rfl
    obtain ⟨r, d', children', fd', hrun, ⟨hr, got, -, hshort, hrest⟩ | ⟨rfl, hrest, hended⟩⟩ :=
      Dson.Loads.fdRun_ends (Or.inl ⟨rfl, hd⟩) hsent (length_lt_of_nil body) junk n hanswers hsplit m
    · refine ⟨r, _, fd', hrun, Or.inl ⟨hr, ?_⟩⟩
      have hlen := congrArg List.length hrest
      simp only [List.length_append, Header.bytes_length] at hlen
      rw [headerSize] at hshort
      omega
    · exact ⟨r, _, fd', hrun, Or.inr ⟨d', rfl, hrest, hended⟩⟩
  fd_completes := by
    intro n answers later hpos hcalls hreads
    have hsplit : [] ++ (⟨answers, h.bytes ++ (body ++ later)⟩ : FdIn).input = h.bytes ++ (body ++ later) := rfl
    refine Dson.Loads.fdRun_completes (Or.inl ⟨rfl, hd⟩) hsent (length_lt_of_nil body) junk hpos ?_ ?_ hsplit m
    · rw [List.length_nil, Nat.zero_add]
      exact hcalls
    · rw [List.length_nil, Nat.mul_zero, Nat.zero_add]
      exact hreads
  buf := by
    intro windows later hflat
    have hsplit : [] ++ (windows.flatten ++ []) = h.bytes ++ (body ++ later) := by
      rw [List.nil_append, List.append_nil, hflat]
    obtain ⟨r, d', children', hrun, ⟨-, hshort, -⟩ | ⟨rfl, -, hended⟩⟩ :=
      Dson.Loads.bufRun_ends (Or.inl ⟨rfl, hd⟩) hsent (length_lt_of_nil body) junk hsplit m
    · rw [List.nil_append, hflat] at hshort
      simp only [List.length_append, Header.bytes_length, headerSize] at hshort
      omega
    · exact ⟨r, d', hrun, hended⟩
  buf_inProcess := by
    intro windows rest hflat hrest
    have hlen := congrArg List.length hflat
    have hpos : 0 < rest.length := List.length_pos_of_ne_nil hrest
    simp only [List.length_append, Header.bytes_length] at hlen
    have hsplit : [] ++ (windows.flatten ++ rest) = h.bytes ++ (body ++ []) := by
      rw [List.nil_append, hflat, List.append_nil]
    obtain ⟨r, d', children', hrun, ⟨rfl, -⟩ | ⟨-, hall, -⟩⟩ :=
      Dson.Loads.bufRun_ends (Or.inl ⟨rfl, hd⟩) hsent (length_lt_of_nil body) junk hsplit m
    · exact ⟨_, hrun⟩
    · rw [List.nil_append, headerSize] at hall
      omega

/-- A number that arrives at a fresh object. -/
theorem loaders_agree_sample : LoadersAgree .little (fun _ => 205) (DsonObj.empty .little) ⟨[], []⟩
    ⟨⟨1, 0, 0, 0⟩, ⟨4, 0, 0, 0⟩, ⟨5, 0, 0, 0⟩, ⟨3, 0, 0, 0⟩⟩ [7, 0, 0, 0] :=
  loaders_agree (Or.inl (by decide)) ⟨by decide, by decide, Or.inr rfl⟩ _ [] _

end LeanDson
