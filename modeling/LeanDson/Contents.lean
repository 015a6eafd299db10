import LeanDson.Inversion
import LeanDson.Building
import LeanDson.Arrival
import LeanDson.Numbers
import LeanDson.Reading

/-! What a received container shows. `Shows e o k ts` says that the object, parsed or not, has the key
`k` and the children `ts`; lookups and extractors answer from `ts`, in any order and any number of
times, and leave it so. -/

namespace LeanDson

/-! ### Records read as values -/

section

variable {e : Endian} {h : Header} {b : Bytes} {k : Int} {v : Value}

/-- A record whose type has a converter is in host order after the conversion. -/
theorem LeafRecord.toHost (hl : LeafRecord e k v h b) (hconv : toHostOrder e v.type ≠ none) :
    ∃ h' b', convertRecord e false h b = some (h', b') ∧ LeafRecord e k v h' b' ∧ h'.isHostOrder e ∧
      b'.length = b.length := by
  obtain ⟨h', b', hrun, hl', hlen⟩ := hl.convert false
  exact ⟨h', b', hrun, hl', convertRecord_isHostOrder hl.mark (by rwa [hl.type]) hrun, hlen⟩

/-- The four words of an address payload in host order. -/
theorem Address.read_value {ws : List Nat} (hh : h.isHostOrder e) (ht : h.dataTypeOf e = TypesMap.vectorUint32)
    (hval : payloadValue e h b = some (.words ws, [])) (hws : ws.length = 4) (tail : Bytes) :
    ∃ a, Address.read (b ++ tail) = some a ∧ a.words e = ws := by
  have hsize := payloadValue_size hval
  rw [Value.size, hws] at hsize
  obtain ⟨c₀, b₁, h₀⟩ := Cell.read_isSome (b := b) (by omega)
  have l₀ := Cell.eq_of_read h₀
  have n₀ := congrArg List.length l₀
  rw [List.length_append, Cell.bytes_length] at n₀
  obtain ⟨c₁, b₂, h₁⟩ := Cell.read_isSome (b := b₁) (by omega)
  have l₁ := Cell.eq_of_read h₁
  have n₁ := congrArg List.length l₁
  rw [List.length_append, Cell.bytes_length] at n₁
  obtain ⟨c₂, b₃, h₂⟩ := Cell.read_isSome (b := b₂) (by omega)
  have l₂ := Cell.eq_of_read h₂
  have n₂ := congrArg List.length l₂
  rw [List.length_append, Cell.bytes_length] at n₂
  obtain ⟨c₃, b₄, h₃⟩ := Cell.read_isSome (b := b₃) (by omega)
  have l₃ := Cell.eq_of_read h₃
  have n₃ := congrArg List.length l₃
  rw [List.length_append, Cell.bytes_length] at n₃
  have hnil : b₄ = [] := List.eq_nil_of_length_eq_zero (by omega)
  have hb : b = (⟨c₀, c₁, c₂, c₃⟩ : Address).bytes := by
    rw [l₀, l₁, l₂, l₃, hnil]
    rfl
  have horder : h.order e = e := if_pos hh
  rw [payloadValue_words ht, horder, ← hsize] at hval
  have hwords := Value.words.inj (Prod.mk.inj (Option.some.inj hval)).1
  refine ⟨⟨c₀, c₁, c₂, c₃⟩, ?_, ?_⟩
  · rw [hb]
    rfl
  · rw [← Address.wordsOf_bytes, ← hb]
    exact hwords

end

/-! ### Records of a forest -/

/-- The values that the objects of the library hold: of the arrays, those of four words. -/
def Value.Plain : Value → Prop
  | .int32 _ => True
  | .uint32 _ => True
  | .double _ => True
  | .string _ => True
  | .words ws => ws.length = 4
  | _ => False

/-- Records that hold the children of a forest, in order, every one of them a plain value. -/
def Carries (e : Endian) (recs : List Record) (ts : Forest) : Prop :=
  List.Forall₂ (fun r p => ∃ v : Value, p.2 = .leaf v ∧ v.Plain ∧ LeafRecord e p.1 v r.header r.payload) recs ts

section

variable {e : Endian} {recs : List Record} {ts : Forest}

/-- Records and children that belong together have the same keys. -/
theorem forall₂_mem_keys {R : Record → Int × Tree → Prop} (hR : ∀ r p, R r p → r.key e = p.1)
    (h : List.Forall₂ R recs ts) (key : Int) : key ∈ KeyMap.keys ts ↔ ∃ r ∈ recs, r.key e = key := by
  induction h with
  | nil => simp
  | cons hr _ ih =>
      rw [KeyMap.keys_cons, List.mem_cons, ih]
      simp only [List.mem_cons, exists_eq_or_imp, hR _ _ hr]
      rw [eq_comm]

/-- The record under a key is the only one, and may be replaced by another one for the same child. -/
theorem forall₂_last {R : Record → Int × Tree → Prop} (hR : ∀ r p, R r p → r.key e = p.1)
    (h : List.Forall₂ R recs ts) (hs : KeyMap.Sorted ts) {key : Int} {t : Tree} (hfind : KeyMap.find key ts = some t) :
    ∃ before r after, IsLast e key recs before r after ∧ R r (key, t) ∧
      ∀ r', R r' (key, t) → List.Forall₂ R (before ++ r' :: after) ts := by
  induction h with
  | nil => cases hfind
  | @cons r p recs ts hr hrest ih =>
      obtain ⟨hlt, htail⟩ := KeyMap.sorted_cons.mp hs
      rw [KeyMap.find] at hfind
      split_ifs at hfind with hkey
      · cases hfind
        subst hkey
        refine ⟨[], r, recs, ⟨rfl, hR _ _ hr, fun r' hr' heq => ?_⟩, hr, fun r' hr' => List.Forall₂.cons hr' hrest⟩
        have hmem := (forall₂_mem_keys hR hrest p.1).mpr ⟨r', hr', heq⟩
        exact lt_irrefl _ (hlt _ hmem)
      · obtain ⟨before, r', after, ⟨hsplit, hkey', hafter⟩, hr', hreplace⟩ := ih htail hfind
        exact ⟨r :: before, r', after, ⟨by rw [hsplit, List.cons_append], hkey', hafter⟩, hr',
          fun r'' hr'' => List.Forall₂.cons hr (hreplace r'' hr'')⟩

theorem Carries.mem_keys (h : Carries e recs ts) (key : Int) :
    key ∈ KeyMap.keys ts ↔ ∃ r ∈ recs, r.key e = key :=
  forall₂_mem_keys (fun _ _ ⟨_, _, _, hl⟩ => hl.key) h key

/-- The record under a key is the only one, and may be replaced by another one of the same value. -/
theorem Carries.last (h : Carries e recs ts) (hs : KeyMap.Sorted ts) {key : Int} {t : Tree}
    (hfind : KeyMap.find key ts = some t) :
    ∃ v before r after, t = .leaf v ∧ v.Plain ∧ IsLast e key recs before r after ∧
      LeafRecord e key v r.header r.payload ∧
      ∀ r' : Record, LeafRecord e key v r'.header r'.payload → Carries e (before ++ r' :: after) ts := by
  obtain ⟨before, r, after, hlast, ⟨v, hv, hplain, hl⟩, hreplace⟩ :=
    forall₂_last (fun _ _ ⟨_, _, _, hl⟩ => hl.key) h hs hfind
  exact ⟨v, before, r, after, hv, hplain, hlast, hl, fun r' hl' => hreplace r' ⟨v, hv, hplain, hl'⟩⟩

theorem Carries.fits (h : Carries e recs ts) (hkeys : ∀ key ∈ KeyMap.keys ts, 0 ≤ key) :
    ∀ r ∈ recs, Record.Fits e r := by
  induction h with
  | nil => simp
  | cons hr _ ih =>
      obtain ⟨v, -, -, hl⟩ := hr
      rw [List.forall_mem_cons]
      refine ⟨⟨?_, hl.size⟩, ih fun key hk => hkeys key (List.mem_cons_of_mem _ hk)⟩
      rw [Record.key, hl.key]
      exact hkeys _ List.mem_cons_self

end

/-! ### Shown contents -/

/-- A container that has been received, with its key and its children: without any, not looked at yet, or
parsed. -/
inductive Shows (e : Endian) : DsonObj → Int → Forest → Prop
  | nothing {d : Dson} (hstate : d.state = .ready) (hkind : d.dsonKind = .dsonContainer) (hbuf : d.buf = .null) :
      Shows e (.dson d []) (d.headerBuf.keyOf e) []
  | block {d : Dson} {recs : List Record} {ts : Forest} (hd : d.Loaded (recordsBytes recs))
      (htype : d.headerBuf.dataTypeOf e = TypesMap.dsonContainer) (hlen : (recordsBytes recs).length ≤ 2 ^ 30)
      (hs : KeyMap.Sorted ts) (hkeys : ∀ key ∈ KeyMap.keys ts, 0 ≤ key) (hc : Carries e recs ts) :
      Shows e (.dson d []) (d.headerBuf.keyOf e) ts
  | parsed {d : Dson} {recs : List Record} {ts : Forest} (hd : d.Parsed recs) (hs : KeyMap.Sorted ts)
      (hc : Carries e recs ts) : Shows e (.dson d (views e 0 recs [])) (d.headerBuf.keyOf e) ts

/-- What a caller reads from a child. -/
inductive Reading where
  | int32 (dflt : Int)
  | uint32 (dflt : Nat)
  | double (dflt : Binary64)
  | string
  | address
  deriving DecidableEq

namespace Reading

/-- The type of the children that the extractor is for. -/
def type : Reading → Int
  | .int32 _ => TypesMap.int32
  | .uint32 _ => TypesMap.uint32
  | .double _ => TypesMap.double
  | .string => TypesMap.string
  | .address => TypesMap.vectorUint32

/-- The extractor, its answer as a value; none for a null pointer. -/
def run (e : Endian) : Reading → DsonObj → Mem → Option (Option Value × DsonObj × Mem)
  | .int32 dflt, o, m => (o.toInt32 e dflt m).map fun p => (some (.int32 p.1), p.2)
  | .uint32 dflt, o, m => (o.toUInt32 e dflt m).map fun p => (some (.uint32 p.1), p.2)
  | .double dflt, o, m => (o.toDouble e dflt m).map fun p => (some (.double p.1.canon), p.2)
  | .string, o, m => (o.toStringView e m).map fun s => (some (.string s), o, m)
  | .address, o, m => (o.toAddress e m).map fun p => (p.1.map fun a => .words (a.words e), p.2)

end Reading

/-- What a lookup that goes on to read the child comes to. -/
inductive Answer where
  | null
  | other
  | value (v : Option Value)
  deriving DecidableEq

/-- Read from an object of the right type; leave any other alone. -/
def readTyped (e : Endian) (x : Reading) (o : DsonObj) (m : Mem) : Option (Answer × DsonObj × Mem) := do
  let type ← o.dataType e m
  if type = x.type then (x.run e o m).map fun p => (.value p.1, p.2) else some (.other, o, m)

/-- `get`, and an extractor on what it finds. -/
def look (e : Endian) (key : Int) (x : Reading) (o : DsonObj) (m : Mem) : Option (Answer × DsonObj × Mem) := do
  let (f, o, m) ← o.get e key m
  match f with
  | .null => return (.null, o, m)
  | .self => readTyped e x o m
  | .child key => o.onChild key (readTyped e x) m

/-- One lookup after the other. -/
def lookAll (e : Endian) : List (Int × Reading) → DsonObj → Mem → Option (List Answer × DsonObj × Mem)
  | [], o, m => some ([], o, m)
  | (key, x) :: rest, o, m => do
      let (a, o, m) ← look e key x o m
      let (more, o, m) ← lookAll e rest o m
      return (a :: more, o, m)

/-- The answer that a forest has for a lookup. -/
def Forest.answer (ts : Forest) (key : Int) (x : Reading) : Answer :=
  match KeyMap.find key ts with
  | none => .null
  | some (.leaf v) => if v.type = x.type then .value (some v) else .other
  | some (.node _) => .other

/-! ### Extractors answer -/

section

variable {e : Endian}

/-- An extractor for the type of a value answers it, and leaves a record of the same value. -/
theorem Reading.run_view {d : Dson} {m : Mem} {front b tail : Bytes} {h : Header} {k : Int} {v : Value}
    (hd : d.IsView front.length) (hblock : m.owner = front ++ (h.bytes ++ (b ++ tail))) (children : ObjMap)
    (hl : LeafRecord e k v h b) (hplain : v.Plain) {x : Reading} (hx : v.type = x.type) :
    ∃ h' b', LeafRecord e k v h' b' ∧ b'.length = b.length ∧ x.run e (.dson d children) m =
      some (some v, .dson d children, { m with owner := front ++ (h'.bytes ++ (b' ++ tail)) }) := by
  have hnumeric : IsNumeric v.type → ∃ h' b' n, LeafRecord e k v h' b' ∧ b'.length = b.length ∧ n.value = v ∧
      ∀ {α : Type} (cases : Number → Option α) (dflt : α), DsonObj.extract e cases dflt (.dson d children) m =
        some ((cases n).getD dflt, .dson d children, { m with owner := front ++ (h'.bytes ++ (b' ++ tail)) }) := by
    intro hnum
    have hconv : toHostOrder e v.type ≠ none := by
      rcases hnum with ht | ht | ht | ht | ht <;> rw [ht] <;> simp [toHostOrder]
    obtain ⟨h', b', hrun, hl', hhost, hlen⟩ := hl.toHost hconv
    rw [← hl'.type] at hnum
    obtain ⟨n, hn, hvalue⟩ := readNumber_value hhost hnum hl'.value
    refine ⟨h', b', n, hl', hlen, hvalue, fun cases dflt => ?_⟩
    rw [hd.extract hblock, readingHost, (convertRecord_local hrun).2 tail]
    simp only [Option.bind_some, numberIn, if_pos hnum, hn, Option.map_some]
  cases x with
  | int32 dflt =>
      obtain ⟨h', b', n, hl', hlen, hvalue, hrun⟩ := hnumeric (by rw [hx, IsNumeric, type]; simp)
      refine ⟨h', b', hl', hlen, ?_⟩
      rw [run, DsonObj.toInt32, hrun]
      cases n <;> subst hvalue <;> simp [Number.value, Value.type, type] at hx
      rfl
  | uint32 dflt =>
      obtain ⟨h', b', n, hl', hlen, hvalue, hrun⟩ := hnumeric (by rw [hx, IsNumeric, type]; simp)
      refine ⟨h', b', hl', hlen, ?_⟩
      rw [run, DsonObj.toUInt32, hrun]
      cases n <;> subst hvalue <;> simp [Number.value, Value.type, type] at hx
      rfl
  | double dflt =>
      obtain ⟨h', b', n, hl', hlen, hvalue, hrun⟩ := hnumeric (by rw [hx, IsNumeric, type]; simp)
      refine ⟨h', b', hl', hlen, ?_⟩
      rw [run, DsonObj.toDouble, hrun]
      cases n <;> subst hvalue <;> simp [Number.value, Value.type, type] at hx
      rfl
  | string =>
      have hstring : ∃ s, v = .string s := by cases v <;> simp [Value.type, type, Value.Plain] at hx hplain ⊢
      obtain ⟨s, rfl⟩ := hstring
      have ht : h.dataTypeOf e = TypesMap.string := hl.type
      have hval := hl.value
      rw [payloadValue_string ht] at hval
      have hs : b = s := Value.string.inj (Prod.mk.inj (Option.some.inj hval)).1
      refine ⟨h, b, hl, rfl, ?_⟩
      have hm : ({ m with owner := front ++ (h.bytes ++ (b ++ tail)) } : Mem) = m := by rw [← hblock]
      have hint := Header.field_isInt32 (e := e) h h.dataSize
      rw [← Header.dataSizeOf, hl.size, IsInt32] at hint
      have hsize : (h.dataSizeOf e % 2 ^ 32).toNat = b.length := by rw [hl.size]; omega
      rw [run, hd.toStringView hblock, stringIn, if_neg (by simp [ht]), hsize, if_neg (by simp), List.take_left, hm, hs]
      rfl
  | address =>
      have hwords : ∃ ws, v = .words ws := by cases v <;> simp [Value.type, type, Value.Plain] at hx hplain ⊢
      obtain ⟨ws, rfl⟩ := hwords
      obtain ⟨h', b', hrun, hl', hhost, hlen⟩ := hl.toHost (by simp [Value.type, toHostOrder])
      obtain ⟨a, hread, ha⟩ := Address.read_value hhost hl'.type hl'.value hplain tail
      refine ⟨h', b', hl', hlen, ?_⟩
      rw [run, hd.toAddress hblock, readingHost, (convertRecord_local hrun).2 tail]
      simp only [Option.bind_some, hread, Option.map_some, ha]

theorem readTyped_view {d : Dson} {m : Mem} {front b tail : Bytes} {h : Header} {k : Int} {v : Value}
    (hd : d.IsView front.length) (hblock : m.owner = front ++ (h.bytes ++ (b ++ tail))) (children : ObjMap)
    (hl : LeafRecord e k v h b) (hplain : v.Plain) (x : Reading) :
    ∃ h' b', LeafRecord e k v h' b' ∧ b'.length = b.length ∧ readTyped e x (.dson d children) m =
      some (if v.type = x.type then .value (some v) else .other, .dson d children,
        { m with owner := front ++ (h'.bytes ++ (b' ++ tail)) }) := by
  have htype : DsonObj.dataType e m (.dson d children) = some v.type := by
    rw [DsonObj.dataType, hd.dataType hblock, hl.type]
  rw [readTyped, htype]
  simp only [Option.bind_eq_bind, Option.bind_some]
  by_cases hx : v.type = x.type
  · obtain ⟨h', b', hl', hlen, hrun⟩ := Reading.run_view hd hblock children hl hplain hx
    exact ⟨h', b', hl', hlen, by rw [if_pos hx, if_pos hx, hrun]; rfl⟩
  · refine ⟨h, b, hl, rfl, ?_⟩
    rw [if_neg hx, if_neg hx, ← hblock]

/-! ### Lookups answer -/

/-- Another record of the same value in the place of one. -/
theorem Shows.replace {d : Dson} {recs before after : List Record} {ts : Forest} {r : Record} {h' : Header}
    {b' : Bytes} {key : Int} {v : Value} (hd : d.Parsed recs) (hs : KeyMap.Sorted ts)
    (hlast : IsLast e key recs before r after) (hl : LeafRecord e key v r.header r.payload)
    (hl' : LeafRecord e key v h' b') (hlen : b'.length = r.payload.length)
    (hc : Carries e (before ++ ⟨h', b'⟩ :: after) ts) :
    Shows e (.dson { d with buf := .own (recordsBytes before ++ (h'.bytes ++ (b' ++ recordsBytes after))) }
      (views e 0 recs [])) (d.headerBuf.keyOf e) ts ∧
    Dson.Parsed { d with buf := .own (recordsBytes before ++ (h'.bytes ++ (b' ++ recordsBytes after))) }
      (before ++ ⟨h', b'⟩ :: after) ∧
    views e 0 recs [] = views e 0 (before ++ ⟨h', b'⟩ :: after) [] := by
  have hkey : (⟨h', b'⟩ : Record).key e = r.key e := by rw [Record.key, Record.key, hl'.key, hl.key]
  have htype : (⟨h', b'⟩ : Record).header.dataTypeOf e = r.header.dataTypeOf e := by rw [hl'.type, hl.type]
  obtain ⟨hparsed, hviews⟩ := hd.replace hlast hkey htype hlen
  rw [Record.bytes, List.append_assoc] at hparsed
  refine ⟨?_, hparsed, hviews⟩
  rw [hviews]
  exact Shows.parsed hparsed hs hc

/-- A lookup on a parsed container. -/
theorem look_parsed {d : Dson} {recs : List Record} {ts : Forest} (hd : d.Parsed recs) (hs : KeyMap.Sorted ts)
    (hc : Carries e recs ts) (key : Int) (x : Reading) (m : Mem) :
    ∃ o', look e key x (.dson d (views e 0 recs [])) m = some (ts.answer key x, o', m) ∧
      Shows e o' (d.headerBuf.keyOf e) ts := by
  cases hfind : KeyMap.find key ts with
  | none =>
      have hne : ∀ r ∈ recs, r.key e ≠ key := fun r hr heq =>
        KeyMap.find_eq_none.mp hfind ((hc.mem_keys key).mpr ⟨r, hr, heq⟩)
      refine ⟨_, ?_, Shows.parsed hd hs hc⟩
      rw [look, hd.get_none hne, Forest.answer, hfind]
      rfl
  | some t =>
      obtain ⟨v, before, r, after, rfl, hplain, hlast, hl, hreplace⟩ := hc.last hs hfind
      obtain ⟨h', b', hconv, hl', hlen⟩ := hl.convert false
      obtain ⟨hshows, hparsed, hviews⟩ := Shows.replace hd hs hlast hl hl' hlen (hreplace ⟨h', b'⟩ hl')
      have hlast' : IsLast e key (before ++ ⟨h', b'⟩ :: after) before ⟨h', b'⟩ after :=
        ⟨rfl, hl'.key, hlast.2.2⟩
      have hblock : ({ m with owner := recordsBytes (before ++ ⟨h', b'⟩ :: after) } : Mem).owner =
          recordsBytes before ++ (h'.bytes ++ (b' ++ recordsBytes after)) := by
        rw [hlast'.bytes, Record.bytes, List.append_assoc]
      obtain ⟨h'', b'', hl'', hlen', hread⟩ := readTyped_view
        ((⟨h', b'⟩ : Record).view_isView e (recordsBytes before).length) hblock [] hl' hplain x
      have hchild := onChild_view (m := m) hparsed.buf hlast' (x := some (if v.type = x.type then
        Answer.value (some v) else Answer.other, recordsBytes before ++ (h''.bytes ++ (b'' ++ recordsBytes after)))) hread
      obtain ⟨hshows', -, -⟩ := Shows.replace hparsed hs hlast' hl' hl'' hlen' (hreplace ⟨h'', b''⟩ hl'')
      refine ⟨_, ?_, hshows'⟩
      rw [look, hd.get_last hlast, (convertRecord_local hconv).2, hviews, Forest.answer, hfind]
      simp only [Option.map_some, Option.bind_eq_bind, Option.bind_some, hchild]

/-- The first lookup on a block parses it. -/
theorem get_block {d : Dson} {recs : List Record} (hd : d.Loaded (recordsBytes recs))
    (htype : d.headerBuf.dataTypeOf e = TypesMap.dsonContainer) (hlen : (recordsBytes recs).length ≤ 2 ^ 30)
    (hfits : ∀ r ∈ recs, Record.Fits e r) :
    Dson.Parsed { d with dsonKind := .dsonContainer } recs ∧ ∀ key m, DsonObj.get e key (.dson d []) m =
      DsonObj.get e key (.dson { d with dsonKind := .dsonContainer } (views e 0 recs [])) m := by
  refine ⟨⟨hd.state, rfl, hd.alloc, hd.buf, hd.size⟩, fun key m => ?_⟩
  rcases Dson.parseBuf_spec (m := m) hd.buf hd.alloc hd.size (by simp [hd.state]) htype hlen [] with
    ⟨recs', hfits', hbytes', hparse⟩ | ⟨hnot, -⟩
  · obtain rfl := recordsBytes_inj hfits' hfits hbytes'
    rw [get_parse hd.kind hparse key, if_pos (by exact hd.state)]
  · exact absurd ⟨recs, hfits, rfl⟩ hnot

theorem get_parsed {d : Dson} {recs : List Record} {ts : Forest} (hd : d.Parsed recs) (hs : KeyMap.Sorted ts)
    (hc : Carries e recs ts) (key : Int) (m : Mem) :
    ∃ f o', DsonObj.get e key (.dson d (views e 0 recs [])) m = some (f, o', m) ∧
      Shows e o' (d.headerBuf.keyOf e) ts ∧ (f ≠ .null ↔ key ∈ KeyMap.keys ts) := by
  cases hfind : KeyMap.find key ts with
  | none =>
      have hkey := KeyMap.find_eq_none.mp hfind
      have hne : ∀ r ∈ recs, r.key e ≠ key := fun r hr heq => hkey ((hc.mem_keys key).mpr ⟨r, hr, heq⟩)
      exact ⟨.null, _, hd.get_none hne m, Shows.parsed hd hs hc, by simp [hkey]⟩
  | some t =>
      obtain ⟨v, before, r, after, rfl, -, hlast, hl, hreplace⟩ := hc.last hs hfind
      obtain ⟨h', b', hconv, hl', hlen⟩ := hl.convert false
      obtain ⟨hshows, -⟩ := Shows.replace hd hs hlast hl hl' hlen (hreplace ⟨h', b'⟩ hl')
      refine ⟨.child key, _, ?_, hshows, by simp [KeyMap.mem_keys_of_find hfind]⟩
      rw [hd.get_last hlast, (convertRecord_local hconv).2]
      rfl

/-- A lookup finds something exactly under the keys of the children. -/
theorem Shows.get {o : DsonObj} {k : Int} {ts : Forest} (h : Shows e o k ts) (key : Int) (m : Mem) :
    ∃ f o', o.get e key m = some (f, o', m) ∧ Shows e o' k ts ∧ (f ≠ .null ↔ key ∈ KeyMap.keys ts) := by
  cases h with
  | nothing hstate hkind hbuf =>
      exact ⟨.null, _, get_nothing hstate hkind key m, Shows.nothing hstate hkind hbuf, by simp⟩
  | block hd htype hlen hs hkeys hc =>
      obtain ⟨hparsed, hget⟩ := get_block hd htype hlen (hc.fits hkeys)
      rw [hget]
      exact get_parsed hparsed hs hc key m
  | parsed hd hs hc => exact get_parsed hd hs hc key m

/-- A lookup answers from the children, and leaves a container that shows the same. -/
theorem Shows.look {o : DsonObj} {k : Int} {ts : Forest} (h : Shows e o k ts) (key : Int) (x : Reading) (m : Mem) :
    ∃ o', look e key x o m = some (ts.answer key x, o', m) ∧ Shows e o' k ts := by
  cases h with
  | nothing hstate hkind hbuf =>
      refine ⟨_, ?_, Shows.nothing hstate hkind hbuf⟩
      rw [LeanDson.look, get_nothing hstate hkind]
      rfl
  | block hd htype hlen hs hkeys hc =>
      obtain ⟨hparsed, hget⟩ := get_block hd htype hlen (hc.fits hkeys)
      rw [LeanDson.look, hget]
      exact look_parsed hparsed hs hc key x m
  | parsed hd hs hc => exact look_parsed hd hs hc key x m

/-- Any sequence of lookups. -/
theorem Shows.lookAll {o : DsonObj} {k : Int} {ts : Forest} (h : Shows e o k ts) (looks : List (Int × Reading))
    (m : Mem) : ∃ o', lookAll e looks o m = some (looks.map fun p => ts.answer p.1 p.2, o', m) ∧ Shows e o' k ts := by
  induction looks generalizing o with
  | nil => exact ⟨o, rfl, h⟩
  | cons p rest ih =>
      obtain ⟨o', hlook, hshows⟩ := h.look p.1 p.2 m
      obtain ⟨o'', hrest, hshows'⟩ := ih hshows
      refine ⟨o'', ?_, hshows'⟩
      rw [LeanDson.lookAll, hlook]
      simp only [Option.bind_eq_bind, Option.bind_some, hrest, List.map_cons]
      rfl

theorem Shows.key {o : DsonObj} {k : Int} {ts : Forest} (h : Shows e o k ts) (m : Mem) : o.key e m = some k := by
  have hlocal : ∀ {d : Dson}, (d.wasBufAllocation = true ∨ d.buf = .null) → ∀ children,
      DsonObj.key e m (.dson d children) = some (d.headerBuf.keyOf e) := by
    intro d hd children
    have hheader : d.header m = some d.headerBuf := by
      apply Dson.header_local
      rcases hd with hd | hd <;> simp [Dson.headerIsLocal, hd, BufPtr.isNull]
    rw [DsonObj.key, Dson.key, hheader]
    rfl
  cases h with
  | nothing hstate hkind hbuf => exact hlocal (Or.inr hbuf) _
  | block hd => exact hlocal (Or.inl hd.alloc) _
  | parsed hd => exact hlocal (Or.inl hd.alloc) _

/-- A received container can be loaded again. -/
theorem Shows.idle {o : DsonObj} {k : Int} {ts : Forest} (h : Shows e o k ts) :
    ∃ d children, o = .dson d children ∧ d.Idle ∧ d.state = .ready := by
  cases h with
  | nothing hstate hkind hbuf => exact ⟨_, _, rfl, ⟨by simp [hstate], by simp [hstate], Or.inr hbuf⟩, hstate⟩
  | block hd => exact ⟨_, _, rfl, ⟨by simp [hd.state], by simp [hd.state], Or.inl hd.alloc⟩, hd.state⟩
  | parsed hd => exact ⟨_, _, rfl, ⟨by simp [hd.state], by simp [hd.state], Or.inl hd.alloc⟩, hd.state⟩

end

end LeanDson
