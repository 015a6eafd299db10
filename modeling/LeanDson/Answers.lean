import LeanDson.Sending

/-! What a handled message answers. Children over records that say the same answer the same, and opening a message
of records under different keys keeps its size. -/

namespace LeanDson

variable {e : Endian}

/-! ### Sizes -/

/-- A new child adds its size and that of a header. -/
theorem dataSizes_insert {m : Mem} {k : Int} {o : DsonObj} {size : Int} (ho : DsonObj.dataSize e m o = some size) :
    ∀ {children : ObjMap} {sum : Int}, k ∉ KeyMap.keys children → DsonObj.dataSizes e m children = some sum →
      DsonObj.dataSizes e m (KeyMap.insertOrAssign k o children) = some (wrap32 (size + headerSize + sum))
  | [], sum, _, hsum => by
      cases hsum
      simp only [KeyMap.insertOrAssign, DsonObj.dataSizes, ho, Option.bind_eq_bind, Option.bind_some, Option.pure_def]
      rw [wrap32_add_left]
  | (k', o') :: rest, sum, hk, hsum => by
      rw [KeyMap.keys_cons, List.mem_cons, not_or] at hk
      rw [KeyMap.insertOrAssign]
      split_ifs with hlt heq
      · rw [DsonObj.dataSizes, ho, hsum]
        simp only [Option.bind_eq_bind, Option.bind_some, Option.pure_def]
        rw [wrap32_add_left]
      · exact absurd heq hk.1
      · simp only [DsonObj.dataSizes, Option.bind_eq_bind, Option.bind_eq_some_iff, Option.pure_def] at hsum ⊢
        obtain ⟨size', ho', sum', hrest, heq'⟩ := hsum
        cases heq'
        refine ⟨size', ho', _, dataSizes_insert ho hk.2 hrest, ?_⟩
        rw [wrap32_add_left, wrap32_add_right, wrap32_add_left, wrap32_add_right]
        congr 2
        omega

/-- The children of records under different keys add up to the bytes of the records. -/
theorem dataSizes_views {m : Mem} : ∀ {recs : List Record} {front : Bytes} {map : ObjMap} {sum : Int},
    m.owner = front ++ recordsBytes recs → (∀ r ∈ recs, Record.Fits e r) → (recs.map (Record.key e)).Nodup →
      (∀ r ∈ recs, r.key e ∉ KeyMap.keys map) → DsonObj.dataSizes e m map = some sum → IsInt32 sum →
        DsonObj.dataSizes e m (views e front.length recs map) = some (wrap32 (sum + (recordsBytes recs).length))
  | [], front, map, sum, _, _, _, _, hsum, hint => by
      rw [views, hsum, recordsBytes_nil]
      simp [wrap32_of_isInt32 hint]
  | r :: recs, front, map, sum, hm, hfits, hnodup, hkeys, hsum, hint => by
      rw [List.forall_mem_cons] at hfits hkeys
      rw [List.map_cons, List.nodup_cons] at hnodup
      have hblock : m.block .owner = front ++ (r.header.bytes ++ (r.payload ++ recordsBytes recs)) := by
        rw [Mem.block, hm, recordsBytes_cons, Record.bytes, List.append_assoc]
      have hkind : (r.view e front.length).dsonKind ≠ .dsonContainer := by
        rw [Record.view]
        split_ifs <;> simp
      have hsize : DsonObj.dataSize e m (.dson (r.view e front.length) []) = some (r.payload.length : Int) := by
        rw [Dson.dataSize_header hkind, Dson.header_view (d := r.view e front.length) rfl rfl hblock rfl, Option.map_some,
          hfits.1.2]
      have hnext := @dataSizes_views m recs (front ++ r.bytes)
        (KeyMap.insertOrAssign (r.key e) (.dson (r.view e front.length) []) map) _
        (by rw [hm, recordsBytes_cons, List.append_assoc]) hfits.2 hnodup.2 (fun r' hr' hmem => ?_)
        (dataSizes_insert hsize hkeys.1 hsum) (wrap32_isInt32 _)
      · rw [List.length_append] at hnext
        rw [views, hnext, wrap32_add_left, recordsBytes_cons, List.length_append, Record.bytes_length]
        congr 2
        push_cast
        omega
      · rcases KeyMap.mem_keys_insertOrAssign.mp hmem with heq | hmem
        · exact hnodup.1 (heq ▸ List.mem_map_of_mem hr')
        · exact hkeys.2 r' hr' hmem

/-- What a view answers. -/
theorem Dson.SitsAt.summary {recs : List Record} {i : Nat} {r : Record} {c : Dson} (h : c.SitsAt e recs i r) {m : Mem}
    (hm : m.owner = recordsBytes recs) (hfits : r.Fits e) :
    DsonObj.summary e (.dson c []) m = some (r.key e, r.header.dataTypeOf e, r.header.dataSizeOf e) := by
  rw [DsonObj.summary, DsonObj.key, Dson.key, DsonObj.dataType, Dson.dataType, if_neg h.state, h.header hm,
    h.dataSize hm hfits]
  rfl

/-- Children over records that say the same have the same size. -/
theorem dataSizes_alike {idx : Int → Nat} {recs recs' : List Record} (ha : AlikeAll e recs recs')
    (hfits : ∀ r ∈ recs, Record.Fits e r) {m m' : Mem} (hm : m.owner = recordsBytes recs)
    (hm' : m'.owner = recordsBytes recs') : ∀ {children children' : ObjMap},
      KeyMap.keys children' = KeyMap.keys children → (∀ q ∈ children, Seated e recs idx q) →
        (∀ q ∈ children', Seated e recs' idx q) → DsonObj.dataSizes e m' children' = DsonObj.dataSizes e m children
  | [], [], _, _, _ => rfl
  | [], _ :: _, hkeys, _, _ => by cases hkeys
  | _ :: _, [], hkeys, _, _ => by cases hkeys
  | (k, o) :: rest, (k', o') :: rest', hkeys, hseated, hseated' => by
      rw [KeyMap.keys_cons, KeyMap.keys_cons, List.cons.injEq] at hkeys
      obtain ⟨hk, hkeys⟩ := hkeys
      dsimp only at hk
      subst hk
      rw [List.forall_mem_cons] at hseated hseated'
      obtain ⟨⟨c, r, ho, -, hsits⟩, hrest⟩ := hseated
      obtain ⟨⟨c', r', ho', -, hsits'⟩, hrest'⟩ := hseated'
      dsimp only at ho ho'
      subst ho ho'
      obtain ⟨r'', hr'', halike⟩ := ha.getElem? hsits.record
      have hsame : r' = r'' := Option.some.inj (hsits'.record.symm.trans hr'')
      subst hsame
      rw [DsonObj.dataSizes, DsonObj.dataSizes, hsits.dataSize hm (hsits.fits hfits),
        hsits'.dataSize hm' (hsits'.fits (ha.fits hfits)), halike.size, dataSizes_alike ha hfits hm hm' hkeys hrest hrest']

/-! ### Answers -/

theorem DsonObj.tells_nil (o : DsonObj) (m : Mem) : o.tells e [] m = o.summary e m := rfl

theorem DsonObj.tells_child {d : Dson} (hstate : d.state ≠ .error) (key : Int) (path : List Int) (children : ObjMap) (m : Mem) :
    (DsonObj.dson d children).tells e (key :: path) m =
      (KeyMap.find key children).bind fun o => o.tells e path (d.inner m) := by
  rw [tells, visit, if_neg hstate]
  cases KeyMap.find key children <;> rfl

/-- An object without children answers for itself alone. -/
theorem DsonObj.tells_childless (d : Dson) (key : Int) (path : List Int) (m : Mem) :
    (DsonObj.dson d []).tells e (key :: path) m = none := by
  by_cases hstate : d.state = .error
  · rw [tells, visit, if_pos hstate]
    rfl
  · rw [tells_child hstate]
    rfl

theorem DsonObj.tells_error {d : Dson} (hstate : d.state = .error) (key : Int) (path : List Int) (children : ObjMap)
    (m : Mem) : (DsonObj.dson d children).tells e (key :: path) m = none := by
  rw [tells, visit, if_pos hstate]
  rfl

/-- What a parsed container answers for itself. -/
theorem Dson.Opened.summary {recs : List Record} {idx : Int → Nat} {d : Dson} {children : ObjMap}
    (h : d.Opened e recs idx children) (m : Mem) : DsonObj.summary e (.dson d children) m =
      (DsonObj.dataSizes e (m.hold recs) children).map fun s => (d.headerBuf.keyOf e, TypesMap.dsonContainer, s) := by
  rw [DsonObj.summary, DsonObj.key, Dson.key, DsonObj.dataType, Dson.dataType, if_neg h.state,
    header_local h.headerIsLocal, Option.map_some, Option.map_some, h.type, DsonObj.dataSize, h.kind, h.inner m]
  cases DsonObj.dataSizes e (m.hold recs) children <;> rfl

/-- What an unopened message answers for itself. -/
theorem Dson.Unopened.summary {body : Bytes} {d : Dson} {children : ObjMap} (h : d.Unopened e body children) (m : Mem) :
    DsonObj.summary e (.dson d children) m =
      some (d.headerBuf.keyOf e, if d.state = .error then TypesMap.empty else d.headerBuf.dataTypeOf e,
        (body.length : Int)) := by
  rw [DsonObj.summary, DsonObj.key, Dson.key, DsonObj.dataType, Dson.dataType, Dson.dataSize_header h.kind,
    header_local h.headerIsLocal, Option.map_some, Option.map_some, Option.map_some, h.size]
  split_ifs <;> rfl

theorem Dson.Hollow.summary {d : Dson} {children : ObjMap} (h : d.Hollow children) (e : Endian) (m : Mem) :
    DsonObj.summary e (.dson d children) m = some (d.headerBuf.keyOf e, d.headerBuf.dataTypeOf e, 0) := by
  have hnil := h.nil
  subst hnil
  rw [DsonObj.summary, DsonObj.key, Dson.key, DsonObj.dataType, Dson.dataType, if_neg h.state,
    header_local h.headerIsLocal, Option.map_some, Option.map_some, DsonObj.dataSize, h.kind]
  rfl

/-- A call on a parsed container keeps every answer. -/
theorem Dson.Reopened.retains {recs : List Record} {idx : Int → Nat} {d : Dson} {children : ObjMap}
    (h : d.Opened e recs idx children) {m m' : Mem} {o' : DsonObj} (hre : Dson.Reopened e recs idx d children m o' m') :
    DsonObj.Retains e (.dson d children) m o' m' := by
  obtain ⟨recs', d', children', rfl, rfl, h', halike, hkeys, hkey⟩ := hre
  intro path s hs
  cases path with
  | nil =>
      rw [DsonObj.tells_nil, h.summary] at hs
      rw [DsonObj.tells_nil, h'.summary, hkey, dataSizes_alike halike h.fits (m := Mem.hold _ recs) rfl rfl hkeys h.seated h'.seated]
      exact hs
  | cons key path =>
      rw [DsonObj.tells_child h.state, h.inner] at hs
      obtain ⟨o, hfind, hs⟩ := Option.bind_eq_some_iff.mp hs
      obtain ⟨c, r, rfl, -, hsits, hfits⟩ := h.find hfind
      cases path with
      | cons key' path =>
          rw [DsonObj.tells_childless] at hs
          cases hs
      | nil =>
          have hmem : key ∈ KeyMap.keys children' := hkeys ▸ KeyMap.mem_keys_of_find hfind
          obtain ⟨o', hfind'⟩ : ∃ o', KeyMap.find key children' = some o' := by
            rw [← Option.ne_none_iff_exists']
            exact fun hnone => KeyMap.find_eq_none.mp hnone hmem
          obtain ⟨c', r', rfl, -, hsits', hfits'⟩ := h'.find hfind'
          obtain ⟨r'', hr'', hsame⟩ := halike.getElem? hsits.record
          have heq : r' = r'' := Option.some.inj (hsits'.record.symm.trans hr'')
          subst heq
          rw [DsonObj.tells_nil, hsits.summary rfl hfits] at hs
          rw [DsonObj.tells_child h'.state, h'.inner, hfind', Option.bind_some, DsonObj.tells_nil,
            hsits'.summary rfl hfits', hsame.key, hsame.type, hsame.size]
          exact hs

/-- A call on a message that stays unopened keeps every answer. -/
theorem Dson.Restated.retains {body body' : Bytes} {d d' : Dson} {children : ObjMap} (h : d.Unopened e body children)
    (hre : Dson.Restated e body d children body' d') (m m' : Mem) :
    DsonObj.Retains e (.dson d children) m (.dson d' children) m' := by
  intro path s hs
  cases path with
  | nil =>
      rw [DsonObj.tells_nil, h.summary] at hs
      rw [DsonObj.tells_nil, hre.unopened.summary, hre.key, hre.type, hre.length]
      simp only [hre.state]
      exact hs
  | cons key path =>
      by_cases hstate : d.state = .error
      · rw [DsonObj.tells_error hstate] at hs
        cases hs
      · rw [h.nil hstate, DsonObj.tells_childless] at hs
        cases hs

/-- Opening a message of records under different keys keeps every answer. -/
theorem Dson.Unopened.retains_opened {body : Bytes} {d : Dson} {children : ObjMap} (h : d.Unopened e body children)
    {recs : List Record} {idx : Int → Nat} (hbytes : recordsBytes recs = body) (hfits : ∀ r ∈ recs, Record.Fits e r)
    (hnodup : (recs.map (Record.key e)).Nodup) (htype : d.headerBuf.dataTypeOf e = TypesMap.dsonContainer)
    (hopen : Dson.Opened e recs idx { d with dsonKind := .dsonContainer } (views e 0 recs [])) (m : Mem) :
    DsonObj.Retains e (.dson d children) m (.dson { d with dsonKind := .dsonContainer } (views e 0 recs [])) m := by
  have hstate : d.state ≠ .error := hopen.state
  intro path s hs
  cases path with
  | nil =>
      have hsizes : DsonObj.dataSizes e (m.hold recs) (views e 0 recs []) = some (body.length : Int) := by
        have := @dataSizes_views e (m.hold recs) recs [] [] 0 rfl hfits
          hnodup (by simp) rfl (by decide)
        rw [List.length_nil] at this
        rw [this, hbytes, Int.zero_add, wrap32_of_isInt32]
        have hlimit := h.limit
        rw [IsInt32]
        omega
      rw [DsonObj.tells_nil, h.summary, if_neg hstate, htype] at hs
      rw [DsonObj.tells_nil, hopen.summary, hsizes]
      exact hs
  | cons key path =>
      rw [h.nil hstate, DsonObj.tells_childless] at hs
      cases hs

theorem DsonObj.Retains.trans {o o' o'' : DsonObj} {m m' m'' : Mem} (h : DsonObj.Retains e o m o' m')
    (h' : DsonObj.Retains e o' m' o'' m'') : DsonObj.Retains e o m o'' m'' := fun path s hs => h' path s (h path s hs)

/-- A copy of a message keeps it tidy, and every answer. -/
theorem Dson.Sent.keeps {body : Bytes} {d : Dson} {children : ObjMap} (h : d.Unopened e body children) {m m' : Mem}
    {o' : DsonObj} (hs : Dson.Sent e body d children m o' m') :
    (∃ d' children', o' = .dson d' children' ∧ d'.Tidy e children') ∧ DsonObj.Retains e (.dson d children) m o' m' := by
  rcases hs with ⟨rfl, body', d', rfl, hre⟩ | ⟨-, recs, idx, hbytes, hfits, hnodup, htype, hopen, hre⟩
  · exact ⟨⟨d', children, rfl, .unopened hre.unopened⟩, hre.retains h m' m'⟩
  · exact ⟨hre.tidy, (h.retains_opened hbytes hfits hnodup htype hopen m).trans (hre.retains hopen)⟩

/-- The same header words over nothing. -/
theorem Dson.Hollow.retains {d d' : Dson} {children : ObjMap} (h : d.Hollow children) (h' : d'.Hollow children)
    (hkey : d'.headerBuf.keyOf e = d.headerBuf.keyOf e) (htype : d'.headerBuf.dataTypeOf e = d.headerBuf.dataTypeOf e)
    (m m' : Mem) : DsonObj.Retains e (.dson d children) m (.dson d' children) m' := by
  intro path s hs
  cases path with
  | nil =>
      rw [DsonObj.tells_nil, h.summary] at hs
      rw [DsonObj.tells_nil, h'.summary, hkey, htype]
      exact hs
  | cons key path =>
      rw [h.nil, DsonObj.tells_childless] at hs
      cases hs

end LeanDson
