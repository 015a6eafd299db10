import LeanDson.Loaders

/-! Streams that end in the middle of a message. A read at the end of a file takes nothing, which the
descriptor loader does not tell from a read that would block: it waits for ever, where the stream loader
answers an error. -/

namespace LeanDson

section

variable {e : Endian} {d : Dson} {h : Header} {body missing : Bytes} {children : ObjMap} {got : Bytes}

/-- A run over less than what was sent is in process; when every read takes something it uses up what
there is. -/
theorem Dson.Loads.fdRun_truncated (hd : d.Loads e children got) (hsent : IsSent e h body) (junk : Nat → UInt8)
    (n : Nat) (fd : FdIn) (hfd : none ∉ fd.answers) (hmissing : missing ≠ [])
    (hsplit : got ++ (fd.input ++ missing) = h.bytes ++ body) (m : Mem) :
    ∃ d' children' fd' got', DsonObj.loadFdRun e junk n (.dson d children) m fd =
        some (.inProcess, .dson d' children', m, fd') ∧ d'.Loads e children' got' ∧ got' ++ fd'.input = got ++ fd.input ∧
      ((∀ a ∈ fd.answers, ∃ k, a = some (k + 1)) → 2 * fd.input.length ≤ fd.answers.length →
        fd.input.length ≤ n → fd'.input = []) := by
  induction n generalizing d children got fd with
  | zero => exact ⟨d, children, fd, got, rfl, hd, rfl, fun _ _ hn => List.eq_nil_of_length_eq_zero (by omega)⟩
  | succ n ih =>
      obtain ⟨r, d', j, k, hrun, hj, hk, hstands, hgives⟩ := hd.loadFromFd junk fd hfd m
      have hsplit' : got ++ fd.input.take k ++ (fd.input.drop k ++ missing) = h.bytes ++ (body ++ []) := by
        rw [List.append_assoc, ← List.append_assoc (fd.input.take k), List.take_append_drop, hsplit, List.append_nil]
      rw [DsonObj.loadFdRun, hrun]
      simp only [Option.bind_eq_bind, Option.bind_some]
      rcases hstands.of_sent hsent hsplit' with ⟨rfl, hawaits, -⟩ | ⟨-, hrest, -⟩
      · rw [if_pos rfl]
        obtain ⟨d'', children', fd', got', hmore, hloads, hsame, hall⟩ :=
          ih (Or.inr ⟨rfl, hawaits⟩) (fd.after j k) (FdIn.none_notMem_after hfd j k)
            (hsplit'.trans (by rw [List.append_nil]))
        refine ⟨d'', children', fd', got', hmore, hloads, ?_, fun hpos hreads hn => ?_⟩
        · rw [hsame, FdIn.after, List.append_assoc, List.take_append_drop]
        · by_cases hnil : fd.input = []
          · simp only [FdIn.after, hnil, List.drop_nil] at hall
            exact hall (fun a ha => hpos a (List.mem_of_mem_drop ha)) (by simp) (by simp)
          have hlen := List.length_pos_of_ne_nil hnil
          have hfirst : ∃ n rest, fd.answers = some (n + 1) :: rest := by
            cases hanswers : fd.answers with
            | nil =>
                rw [hanswers, List.length_nil] at hreads
                omega
            | cons a rest =>
                obtain ⟨n, rfl⟩ := hpos a (by rw [hanswers]; exact List.mem_cons_self)
                exact ⟨n, rest, rfl⟩
          have hmore : 0 < k := hgives ⟨hnil, hfirst⟩
          have hinput : (fd.after j k).input.length = fd.input.length - k := List.length_drop
          have hleft : (fd.after j k).answers.length = fd.answers.length - j := List.length_drop
          refine hall (fun a ha => hpos a (List.mem_of_mem_drop ha)) ?_ ?_
          · rw [hinput, hleft]
            omega
          · rw [hinput]
            omega
      · exact absurd (List.append_eq_nil_iff.mp hrest).2 hmissing

/-- A first part of a message that is as long as its header begins with that. -/
theorem header_of_prefix {p : Bytes} (hsplit : p ++ missing = h.bytes ++ body) (hlen : headerSize ≤ p.length) :
    ∃ rest, p = h.bytes ++ rest := by
  have htake := congrArg (List.take headerSize) hsplit
  rw [List.take_append_of_le_length hlen, List.take_left' (show h.bytes.length = headerSize from h.bytes_length)] at htake
  exact ⟨p.drop headerSize, by rw [← htake, List.take_append_drop]⟩

theorem refused_of_size (hsize : h.dataSizeOf e = body.length) (hlong : 2 ^ 30 < body.length) :
    Dson.Refused e h := by
  refine Or.inr ?_
  rw [hsize, maxDsonRamSize]
  omega

/-- The stream loader answers an error on every proper prefix of a message. -/
theorem Dson.Idle.loadFromStream_truncated (hd : d.Idle) (hsize : h.dataSizeOf e = body.length) {p : Bytes}
    (hmissing : missing ≠ []) (hsplit : p ++ missing = h.bytes ++ body) (junk : Nat → UInt8) (m : Mem) :
    ∃ d' rest, DsonObj.loadFromStream e junk p (.dson d children) m = some (.dson d' [], m, rest) ∧
      d'.state = .error := by
  have hbuf : d.clear.buf = .null := by
    rcases hd.buf with halloc | hbuf
    · simp [clear, halloc]
    · simp [clear, hbuf]
  by_cases hshort : p.length < headerSize
  · have htake : p.take headerSize = p := List.take_of_length_le hshort.le
    rw [DsonObj.loadFromStream, htake, if_pos hshort]
    exact ⟨_, _, rfl, rfl⟩
  · obtain ⟨rest, rfl⟩ := header_of_prefix hsplit (not_lt.mp hshort)
    rw [List.append_assoc, List.append_cancel_left_eq] at hsplit
    have hlen := congrArg List.length hsplit
    rw [List.length_append] at hlen
    have hpos := List.length_pos_of_ne_nil hmissing
    rw [DsonObj.loadFromStream_eq]
    rcases headerLoaded_cases (d := { d.clear with headerBuf := h, dsonKind := .dataBufNeedParse }) e junk rfl hbuf
      [] m with ⟨-, hrun⟩ | ⟨hzero, -⟩ | ⟨-, -, block, hblock, hrun⟩
    · dsimp only at hrun
      rw [hrun]
      exact ⟨_, _, rfl, rfl⟩
    · dsimp only at hzero
      omega
    · dsimp only at hblock hrun
      rw [hsize] at hblock hrun
      have hblock' : block.length = body.length := by exact_mod_cast hblock
      have hstored := patchBuf_own (d := { d.clear with
        headerBuf := h, dsonKind := .dataBufNeedParse, buf := .own block, bufSize := body.length,
        wasBufAllocation := true }) [] m (show _ = BufPtr.own ([] ++ block) from rfl)
        (show rest.length ≤ block.length by omega)
      have htake : rest.take body.length = rest := List.take_of_length_le (by omega)
      rw [hrun]
      simp only [Option.bind_some, Int.toNat_natCast, htake]
      rw [List.length_nil] at hstored
      rw [hstored]
      simp only [Option.bind_some]
      rw [if_pos (by omega)]
      exact ⟨_, _, rfl, rfl⟩

end

/-! ### The end of the file -/

/-- The load of what is left of a message when the file ends behind `p`: whatever the reads of `p` took,
it ends in an error after so many more calls. -/
def EndsInError (e : Endian) (junk : Nat → UInt8) (o : DsonObj) (m : Mem) (p : Bytes) : Prop :=
  ∀ answers n, none ∉ answers → ∃ r o' m' fd, o.loadFdRun e junk n m ⟨answers, p⟩ = some (r, o', m', fd) ∧
    (r = .error ∨ (r = .inProcess ∧ (fd.input = [] → ∃ bound, ∀ later, none ∉ later →
      ∃ o'' m'' fd', o'.loadFdRun e junk bound m' ⟨later, []⟩ = some (.error, o'', m'', fd'))))

/-- A load that is still not complete at the end of the file is in process for ever. -/
theorem Dson.Idle.not_endsInError {e : Endian} {d : Dson} {h : Header} {body p missing : Bytes} (hd : d.Idle)
    (hsent : IsSent e h body) (hmissing : missing ≠ []) (hsplit : p ++ missing = h.bytes ++ body)
    (junk : Nat → UInt8) (children : ObjMap) (m : Mem) : ¬EndsInError e junk (.dson d children) m p := by
  intro hends
  have hfree : d.Loads e children [] := Or.inl ⟨rfl, hd⟩
  have hones : none ∉ List.replicate (2 * p.length) (some 1 : Option Nat) := by
    simp [List.mem_replicate]
  have hnone : none ∉ ([] : List (Option Nat)) := List.not_mem_nil
  obtain ⟨d', children', fd', got', hrun, hloads, hsame, hall⟩ :=
    hfree.fdRun_truncated hsent junk p.length ⟨List.replicate (2 * p.length) (some 1), p⟩ hones hmissing hsplit m
  have hinput := hall (fun a ha => ⟨0, List.eq_of_mem_replicate ha⟩) (by simp) le_rfl
  obtain ⟨r, o', m', fd, hrun', hr⟩ := hends _ p.length hones
  rw [hrun] at hrun'
  cases hrun'
  obtain hr | ⟨-, hr⟩ := hr
  · cases hr
  obtain ⟨bound, hbound⟩ := hr hinput
  obtain ⟨o'', m'', fd'', hlast⟩ := hbound [] hnone
  rw [hinput, List.append_nil, List.nil_append] at hsame
  dsimp only at hsame
  obtain ⟨d₂, children₂, fd₂, got₂, hmore, -⟩ :=
    hloads.fdRun_truncated hsent junk bound ⟨[], []⟩ hnone hmissing (by rw [hsame]; exact hsplit) m
  rw [hmore] at hlast
  cases hlast

/-- On a proper prefix of a message the stream loader answers an error. The descriptor loader does so only
behind the header of a message that is too long for it; otherwise it is in process for ever. -/
theorem truncated_iff {e : Endian} {d : Dson} {h : Header} {body p missing : Bytes} (hd : d.Idle)
    (hsize : h.dataSizeOf e = body.length) (hmissing : missing ≠ []) (hsplit : p ++ missing = h.bytes ++ body)
    (junk : Nat → UInt8) (children : ObjMap) (m : Mem) :
    (∃ d' rest, DsonObj.loadFromStream e junk p (.dson d children) m = some (.dson d' [], m, rest) ∧
        d'.state = .error) ∧
      (EndsInError e junk (.dson d children) m p ↔ 2 ^ 30 < body.length ∧ headerSize ≤ p.length) := by
  refine ⟨hd.loadFromStream_truncated hsize hmissing hsplit junk m, fun hends => ?_, fun ⟨hlong, hfull⟩ => ?_⟩
  · by_contra hnot
    -- What was sent, as far as the loader looks at it, is still not complete.
    obtain ⟨body', missing', hsent, hmissing', hsplit'⟩ : ∃ body' missing', IsSent e h body' ∧ missing' ≠ [] ∧
        p ++ missing' = h.bytes ++ body' := by
      by_cases hlong : 2 ^ 30 < body.length
      · have hshort : p.length < headerSize := not_le.mp fun hfull => hnot ⟨hlong, hfull⟩
        have hp : p = h.bytes.take p.length := by
          have htake := congrArg (List.take p.length) hsplit
          rwa [List.take_left, List.take_append_of_le_length (by rw [Header.bytes_length]; exact hshort.le)] at htake
        refine ⟨[], h.bytes.drop p.length, Or.inr ⟨refused_of_size hsize hlong, rfl⟩, fun hnil => ?_, ?_⟩
        · rw [List.drop_eq_nil_iff, Header.bytes_length] at hnil
          rw [headerSize] at hshort
          omega
        · conv_lhs => rw [hp]
          rw [List.length_take, Header.bytes_length, Nat.min_eq_left (by rw [headerSize] at hshort; omega),
            List.take_append_drop, List.append_nil]
      · exact ⟨body, missing, Or.inl ⟨hsize, not_lt.mp hlong⟩, hmissing, hsplit⟩
    exact hd.not_endsInError hsent hmissing' hsplit' junk children m hends
  · obtain ⟨rest, rfl⟩ := header_of_prefix hsplit hfull
    intro answers n hanswers
    have hrefused := refused_of_size hsize hlong
    have hfree : d.Loads e children [] := Or.inl ⟨rfl, hd⟩
    have hanswers' : none ∉ (FdIn.mk answers (h.bytes ++ rest)).answers := hanswers
    have hstart : [] ++ (FdIn.mk answers (h.bytes ++ rest)).input = h.bytes ++ ([] ++ rest) := rfl
    obtain ⟨r, d', children', fd', hrun, ⟨rfl, got', -, hshort, hsame⟩ | ⟨-, -, hended⟩⟩ :=
      hfree.fdRun_ends (Or.inr ⟨hrefused, rfl⟩) (length_lt_of_nil []) junk n hanswers' hstart m
    · refine ⟨_, _, _, _, hrun, Or.inr ⟨rfl, fun hnil => ?_⟩⟩
      have hlen := congrArg List.length hsame
      rw [hnil, List.append_nil, List.nil_append, List.length_append, Header.bytes_length] at hlen
      rw [List.length_nil, headerSize] at hshort
      omega
    · rcases hended with ⟨rfl, -⟩ | ⟨-, hnot, -⟩
      · exact ⟨_, _, _, _, hrun, Or.inl rfl⟩
      · exact absurd hrefused hnot

/-- The first five bytes of a message at a fresh object. -/
theorem truncated_sample :
    let h : Header := ⟨markNetworkOrder .little, Cell.ofInt .big 1, Cell.ofInt .big 5, Cell.ofInt .big 2⟩
    ¬EndsInError .little (fun _ => 205) (DsonObj.empty .little) ⟨[], []⟩ (h.bytes.take 5) := by
  intro h hends
  have hd : Dson.Idle (Dson.uninit (Dson.clearHeader .little)) := ⟨by decide, by decide, Or.inr rfl⟩
  have hsplit : h.bytes.take 5 ++ (h.bytes.drop 5 ++ [97]) = h.bytes ++ [97] := by
    rw [← List.append_assoc, List.take_append_drop]
  have hiff := (truncated_iff hd (show h.dataSizeOf .little = ([97] : Bytes).length by decide) (by simp) hsplit
    (fun _ => 205) [] ⟨[], []⟩).2
  exact absurd (hiff.mp hends).2 (by decide)

/-- A message that is cut behind its header: the descriptor loader does not answer an error. -/
theorem truncated_header_waits :
    let h : Header := ⟨markHostOrder .little, Cell.ofInt .little 4, Cell.ofInt .little 5, Cell.ofInt .little 3⟩
    ¬EndsInError .little (fun _ => 205) (DsonObj.empty .little) ⟨[], []⟩ h.bytes := by
  intro h
  have hd : Dson.Idle (Dson.uninit (Dson.clearHeader .little)) := ⟨by decide, by decide, Or.inr rfl⟩
  have hsent : IsSent .little h [7, 0, 0, 0] := Or.inl ⟨by decide, by decide⟩
  exact hd.not_endsInError hsent (show ([7, 0, 0, 0] : Bytes) ≠ [] by simp) rfl _ [] ⟨[], []⟩

end LeanDson
