import LeanDson.Entries
import LeanDson.Malformed

/-! The keys of the encoder and of the decoder. The encoder stores an entry under any key; the decoder
takes the entries of a message if none of their keys is negative, and otherwise none of them. -/

namespace LeanDson

/-- A container after an entry has been put into it: by `emplace` under a key that is given, or by
`emplace` under the key that the object has. -/
inductive Added (e : Endian) (key : Int) (obj : DsonObj) (k₀ : Int) (o : DsonObj) (m : Mem) (o' : DsonObj) : Prop
  | keyed (hrun : DsonObj.emplace e key obj o m = some (o', m))
  | ptr (hkey : key = k₀) (hrun : DsonObj.emplacePtr e obj o m = some (o', m))

/-- A container has an object with a tree under a key. -/
def Stores (e : Endian) (key : Int) (t : Tree) : DsonObj → Prop
  | .dson _ children => ∃ obj, KeyMap.find key children = some obj ∧ Holds e obj key t
  | _ => False

/-- A message gives all entries back: a load takes it up and nothing behind it, and whoever has loaded it and looks
for an entry, of a child or in a child, gets the answer of the entry, whatever is asked and how often; under other
keys nothing is found. -/
structure Conveys (e : Endian) (ts : Forest) (bs : Bytes) : Prop where
  loads : ∀ junk (d : Dson) children m rest, d.Idle →
    ∃ o, DsonObj.loadFromStream e junk (bs ++ rest) (.dson d children) m = some (o, m, rest)
  asks : ∀ o, Arrives e o bs → ∀ asks : List (List Int × Reading),
    (∀ p ∈ asks, Forest.Entry ts p.1 ∨ ∃ key, p.1 = [key]) → ∀ m,
      ∃ o', askAll e asks o m = some (asks.map fun p => ts.answerAt p.2 p.1, o', m)

/-- An entry is kept out, and nothing changes, or every message that is emitted from then on gives all
entries back, the new one among them. -/
def KeysAgree (e : Endian) (key : Int) (t : Tree) (ts : Forest) (o o' : DsonObj) (m : Mem) : Prop :=
  (¬Stores e key t o' ∧ o' = o) ∨ Emissions e o' m (Conveys e (KeyMap.insertOrAssign key t ts))

/-- The entries of a message that a decoder takes and gives back: none under a negative key, none in a child. -/
def Forest.Loadable (ts : Forest) : Prop := (∀ p ∈ ts, 0 ≤ p.1 ∧ p.2.Flat) ∧ Forest.size ts ≤ 2 ^ 30

instance (ts : Forest) : Decidable ts.Loadable := inferInstanceAs (Decidable (_ ∧ _))

section

variable {e : Endian}

/-- The encoding of a container: a header that announces the payload as far as 32 bits reach, and the
children. -/
theorem Holds.wire_node {o : DsonObj} {k : Int} {ts : Forest} (ho : Holds e o k (.node ts)) (network : Bool) :
    ∃ (h : Header) (children : ObjMap), o.wire e network = h.bytes ++ DsonObj.wires e network children ∧
      HoldsAll e children ts ∧ h.dataSizeOf e = wrap32 (Forest.size ts) ∧
        h.dataTypeOf e = (Tree.node ts).type := by
  cases o with
  | string s => exact ho.elim
  | route r => exact ho.elim
  | dson d children =>
      rw [Holds] at ho
      obtain ⟨-, hnode, -, hall⟩ := ho
      obtain ⟨hsize, -, htype⟩ := hnode.header _ (wrap32_isInt32 (Forest.size ts)) network
      rw [Header.setDataSize_wrap32] at hsize htype
      refine ⟨_, children, ?_, hall, hsize, htype⟩
      simp only [DsonObj.wire, hnode.kind, hall.wires_length network]

theorem Forest.size_of_mem {ts : Forest} {p : Int × Tree} (hp : p ∈ ts) : p.2.size ≤ Forest.size ts := by
  induction ts with
  | nil => cases hp
  | cons q ts ih =>
      rw [Forest.size]
      rcases List.mem_cons.mp hp with rfl | hp
      · exact Nat.le_add_right _ _
      · exact (ih hp).trans (Nat.le_add_left _ _)

/-- The children of a container within the limit are emitted as records. -/
theorem HoldsAll.records {children : ObjMap} {ts : Forest} (h : HoldsAll e children ts)
    (hlimit : Forest.size ts ≤ 2 ^ 30) (network : Bool) :
    ∃ recs, DsonObj.wires e network children = recordsBytes recs ∧ RecordsOf e recs ts :=
  h.wires_records network fun p hp => by
    have hle := Forest.size_of_mem hp
    omega

theorem Forest.Loadable.keys {ts : Forest} (h : ts.Loadable) : ∀ key ∈ KeyMap.keys ts, 0 ≤ key := by
  intro key hkey
  obtain ⟨p, hp, rfl⟩ := List.mem_map.mp hkey
  exact (h.1 p hp).1

/-- A container whose entries the decoder takes gives them all back. -/
theorem Holds.conveys {o : DsonObj} {k : Int} {ts : Forest} (ho : Holds e o k (.node ts)) (hplain : Forest.Plain ts)
    (hts : ts.Loadable) (network : Bool) : Conveys e ts (o.wire e network) := by
  have hordered := ho.ordered
  rw [Tree.Ordered] at hordered
  obtain ⟨h, children, hwire, hall, hsize, htype⟩ := ho.wire_node network
  obtain ⟨recs, hwires, hrecs⟩ := hall.records hts.2 network
  have hlen := hall.wires_length network
  have hlimit := hts.2
  have hm : IsMessage e h (recordsBytes recs) := by
    rw [wrap32_of_isInt32 (by simp only [IsInt32]; omega)] at hsize
    rw [hwires] at hlen
    exact ⟨by rw [hsize, hlen], by omega⟩
  rw [hwire, hwires]
  constructor
  · intro junk d children' m rest hd
    obtain ⟨d', hrun, -⟩ := hd.loadFromStream hm junk rest children' m
    exact ⟨_, by rw [List.append_assoc, hrun]⟩
  · intro o' ho' asks hentries m
    obtain ⟨d, rfl, htook⟩ := ho'.took hm
    have hkeys : ∀ p ∈ asks, ∃ key, p.1 = [key] := fun p hp =>
      (hentries p hp).elim (fun hentry => hentry.eq_of_flat fun q hq => (hts.1 q hq).2) id
    obtain ⟨o'', hasks, -⟩ := (htook.presents hrecs hordered.1 hts.keys htype).askAll hplain hkeys m
    exact ⟨o'', hasks⟩

/-! ### Messages that give their entries back -/

/-- A loader takes a message up only if its header announces all of it. -/
theorem Conveys.isMessage {ts : Forest} {h : Header} {body : Bytes} (hc : Conveys e ts (h.bytes ++ body))
    (hne : body ≠ []) (hle : h.dataSizeOf e ≤ body.length) : IsMessage e h body := by
  have hidle : (Dson.uninit (Dson.clearHeader e)).Idle := ⟨by simp [Dson.uninit], by simp [Dson.uninit], Or.inr rfl⟩
  obtain ⟨o, hrun⟩ := hc.loads (fun _ => 0) _ [] ⟨[], []⟩ [] hidle
  have hnot : ¬Dson.Refused e h :=
    Arrives.not_refused (o := o) ⟨_, _, _, _, hidle, Or.inl ⟨[], hrun⟩⟩ hne
  rw [Dson.Refused, maxDsonRamSize] at hnot
  obtain ⟨n, hn⟩ := Int.eq_ofNat_of_zero_le (show 0 ≤ h.dataSizeOf e by omega)
  have htake : (body.take n).length = n := by
    rw [List.length_take]
    omega
  have hfirst : IsMessage e h (body.take n) := ⟨by rw [htake, hn], by omega⟩
  obtain ⟨d, hrun', -⟩ := hidle.loadFromStream hfirst (fun _ => 0) (body.drop n) [] ⟨[], []⟩
  rw [List.take_append_drop] at hrun'
  rw [List.append_nil, hrun'] at hrun
  have hdrop : body.drop n = [] := by
    injection hrun with hrun
    exact congrArg (fun p => p.2.2) hrun
  have hall : body.take n = body := by rw [← List.append_nil (body.take n), ← hdrop, List.take_append_drop]
  rwa [hall] at hfirst

/-- Records that announce their payloads are records of a message only if the parser takes each of them. -/
theorem fits_of_isRecords {recs : List Record} (hsize : ∀ r ∈ recs, r.header.dataSizeOf e = r.payload.length)
    (hrecs : IsRecords e (recordsBytes recs)) : ∀ r ∈ recs, Record.Fits e r := by
  induction recs with
  | nil => simp
  | cons r recs ih =>
      rw [List.forall_mem_cons] at hsize
      rw [recordsBytes_cons, Record.bytes, List.append_assoc, isRecords_header] at hrecs
      obtain ⟨hkey, -, -, hrest⟩ := hrecs
      rw [hsize.1, Int.toNat_natCast, List.drop_left] at hrest
      exact List.forall_mem_cons.mpr ⟨⟨hkey, hsize.1⟩, ih hsize.2 hrest⟩

/-- Nothing is found in a container whose records are refused. -/
theorem ask_malformed {d : Dson} {block : Bytes} (hd : d.Loaded block)
    (htype : d.headerBuf.dataTypeOf e = TypesMap.dsonContainer) (hlen : block.length ≤ 2 ^ 30)
    (hbad : ¬IsRecords e block) (key : Int) (x : Reading) (m : Mem) :
    ∃ o', lookAt e x [key] (.dson d []) m = some (.null, o', m) := by
  obtain ⟨children, hparse, -⟩ := hd.parseBuf_malformed htype hlen hbad m
  have hget : DsonObj.get e key (.dson d []) m = some (.null, .dson { d with state := .error } children, m) := by
    rw [get_parse hd.kind hparse key, if_neg (by simp)]
  exact ⟨_, by rw [lookAt, hget]; rfl⟩

theorem RecordsOf.sizes {recs : List Record} {ts : Forest} (h : RecordsOf e recs ts) :
    ∀ r ∈ recs, r.header.dataSizeOf e = r.payload.length := by
  induction h with
  | nil => simp
  | cons hr _ ih => exact List.forall_mem_cons.mpr ⟨hr.size, ih⟩

theorem RecordsOf.keys_nonneg {recs : List Record} {ts : Forest} (h : RecordsOf e recs ts)
    (hfits : ∀ r ∈ recs, Record.Fits e r) : ∀ p ∈ ts, 0 ≤ p.1 := by
  intro p hp
  obtain ⟨r, hr, hkey⟩ := (h.mem_keys p.1).mp (List.mem_map_of_mem hp)
  rw [← hkey]
  exact (hfits r hr).1

theorem Forest.answer_ne_null {ts : Forest} {key : Int} {t : Tree} (hfind : KeyMap.find key ts = some t) (x : Reading) :
    ts.answer key x ≠ .null := by
  rw [Forest.answer, hfind]
  cases t with
  | leaf v =>
      dsimp only
      split_ifs <;> simp
  | node sub => simp

/-- A message that gives its entries back never leads to nothing where an entry is. -/
theorem Conveys.lookAt_ne_null {ts : Forest} {bs : Bytes} (hc : Conveys e ts bs) {o o' : DsonObj} (ho : Arrives e o bs)
    {path : List Int} (hpath : Forest.Entry ts path) {x : Reading} (hne : ts.answerAt x path ≠ .null) {m : Mem} :
    lookAt e x path o m ≠ some (.null, o', m) := by
  intro hnull
  obtain ⟨o'', hask⟩ := hc.asks o ho [(path, x)] (by simpa using Or.inl hpath) m
  rw [askAll, hnull] at hask
  have hanswers := congrArg Prod.fst (Option.some.inj hask)
  exact hne (List.cons.inj hanswers).1.symm

/-- If all entries of a container are given back, the decoder takes its keys, and there are none in its children. -/
theorem Holds.loadable {o : DsonObj} {k : Int} {ts : Forest} (ho : Holds e o k (.node ts)) (hne : ts ≠ [])
    {network : Bool} (hc : Conveys e ts (o.wire e network)) : ts.Loadable := by
  have hordered := ho.ordered
  rw [Tree.Ordered] at hordered
  have hsorted : KeyMap.Sorted ts := hordered.1
  obtain ⟨h, children, hwire, hall, hsize, htype⟩ := ho.wire_node network
  have hlen := hall.wires_length network
  rw [hwire] at hc
  obtain ⟨p, hp⟩ := List.exists_mem_of_ne_nil _ hne
  have hpos : 0 < Forest.size ts := lt_of_lt_of_le (lt_of_lt_of_le (by decide) p.2.headerSize_le_size) (Forest.size_of_mem hp)
  have hm := hc.isMessage (List.ne_nil_of_length_pos (by omega)) (by
    rw [hsize, hlen]
    exact wrap32_le (Int.natCast_nonneg _))
  have hlimit : Forest.size ts ≤ 2 ^ 30 := hlen ▸ hm.limit
  obtain ⟨recs, hwires, hrecs⟩ := hall.records hlimit network
  rw [hwires] at hm hc
  obtain ⟨o', harrives⟩ := hm.arrives
  obtain ⟨d, rfl, rfl, -, hle, ⟨-, hd⟩ | ⟨hnil, -⟩⟩ := harrives.took hm
  · have hcontainer : d.headerBuf.dataTypeOf e = TypesMap.dsonContainer := by
      rw [htype, Tree.type, if_neg (by simp [hne])]
    have hkeys : ∀ q ∈ ts, 0 ≤ q.1 := by
      refine hrecs.keys_nonneg (fits_of_isRecords hrecs.sizes ?_)
      by_contra hbad
      -- the parse fails, and the entry that there is is not found
      have hfind := KeyMap.find_of_mem hsorted hp
      obtain ⟨o'', hlook⟩ := ask_malformed hd hcontainer hle hbad p.1 .string ⟨[], []⟩
      exact hc.lookAt_ne_null harrives (.here hfind) (Forest.answer_ne_null hfind .string) hlook
    refine ⟨fun q hq => ⟨hkeys q hq, ?_⟩, hlimit⟩
    obtain ⟨key, t⟩ := q
    cases t with
    | leaf v => trivial
    | node sub =>
        by_contra hsub
        have hsub : sub.isEmpty = false := Bool.eq_false_of_not_eq_true hsub
        -- the child is found, and an entry in it is not
        have hfind := KeyMap.find_of_mem hsorted hq
        obtain ⟨key', t', hfind'⟩ : ∃ key' t', KeyMap.find key' sub = some t' := by
          cases sub with
          | nil => cases hsub
          | cons q' _ => exact ⟨q'.1, q'.2, if_pos rfl⟩
        have hfits := hrecs.fits fun k hk => by
          obtain ⟨r, hr, rfl⟩ := List.mem_map.mp hk
          exact hkeys r hr
        obtain ⟨hparsed, hget⟩ := get_block hd hcontainer hle hfits
        obtain ⟨o'', hlook⟩ := Dson.Parsed.lookAt_below hparsed hsorted hrecs hfind hsub key' .string ⟨[], []⟩
        have hnull : lookAt e .string [key, key'] (.dson d []) ⟨[], []⟩ = some (.null, o'', ⟨[], []⟩) := by
          rw [lookAt, hget]
          exact hlook
        refine hc.lookAt_ne_null harrives (.inside hfind (.here hfind')) ?_ hnull
        rw [Forest.answerAt, hfind]
        · exact Forest.answer_ne_null hfind' .string
        · simp
  · rw [hwires, hnil] at hlen
    simp only [List.length_nil] at hlen
    omega

/-- All emissions of a container that is not empty give its entries back if and only if the decoder takes
them. -/
theorem Holds.conveys_iff {o : DsonObj} {k : Int} {ts : Forest} (ho : Holds e o k (.node ts))
    (hplain : Forest.Plain ts) (hne : ts ≠ []) (m : Mem) : Emissions e o m (Conveys e ts) ↔ ts.Loadable := by
  constructor
  · intro hemit
    obtain ⟨o', bs, hrun, -, hc⟩ := hemit.stream true
    obtain ⟨o'', hrun', -⟩ := ho.copyToStream true m
    rw [hrun'] at hrun
    cases hrun
    exact ho.loadable hne hc
  · intro hts
    have hlimit := hts.2
    exact ho.emissions (by rw [Tree.size, headerSize]; omega) m fun network => ho.conveys hplain hts network

theorem Holds.stores {o : DsonObj} {k key : Int} {ts : Forest} {t : Tree} (ho : Holds e o k (.node ts))
    (hfind : KeyMap.find key ts = some t) : Stores e key t o := by
  cases o with
  | string s => exact ho.elim
  | route r => exact ho.elim
  | dson d children =>
      rw [Holds] at ho
      obtain ⟨-, -, -, hall⟩ := ho
      rcases hall.find key with ⟨-, hnone⟩ | ⟨obj, t', hobj, ht', hholds⟩
      · rw [hfind] at hnone
        cases hnone
      · rw [hfind] at ht'
        cases ht'
        exact ⟨obj, hobj, hholds⟩

/-- What a container holds after an entry has been put into it. -/
theorem Added.holds {o o' obj : DsonObj} {k k₀ key : Int} {ts : Forest} {t : Tree} {m : Mem}
    (h : Added e key obj k₀ o m o') (ho : Holds e o k (.node ts)) (hobj : Holds e obj k₀ t) (hkey : IsInt32 key) :
    Holds e o' k (.node (KeyMap.insertOrAssign key t ts)) := by
  cases h with
  | keyed hrun =>
      obtain ⟨o'', hrun', ho''⟩ := ho.emplace hobj hkey m
      rw [hrun'] at hrun
      cases hrun
      exact ho''
  | ptr hk hrun =>
      subst hk
      obtain ⟨o'', hrun', ho''⟩ := ho.emplacePtr hobj m
      rw [hrun'] at hrun
      cases hrun
      exact ho''

/-- The encoder refuses no key; it agrees with the decoder on the entries of a container if and only if none of
the keys is negative, no child has entries of its own and the message is within the limit of the loaders. -/
theorem emplace_agrees_iff {o obj : DsonObj} {k k₀ key : Int} {ts : Forest} {t : Tree}
    (ho : Built e o k (.node ts)) (hobj : Built e obj k₀ t) (hkey : IsInt32 key) (m : Mem) :
    (∃ o', DsonObj.emplace e key obj o m = some (o', m)) ∧ (∃ o', DsonObj.emplacePtr e obj o m = some (o', m)) ∧
      ∀ o', Added e key obj k₀ o m o' → (KeysAgree e key t ts o o' m ↔ Forest.Loadable (KeyMap.insertOrAssign key t ts)) := by
  obtain ⟨o₁, hrun₁, -⟩ := ho.holds.emplace hobj.holds hkey m
  obtain ⟨o₂, hrun₂, -⟩ := ho.holds.emplacePtr hobj.holds m
  refine ⟨⟨o₁, hrun₁⟩, ⟨o₂, hrun₂⟩, fun o' hadded => ?_⟩
  have ho' := hadded.holds ho.holds hobj.holds hkey
  have hplain : Forest.Plain (KeyMap.insertOrAssign key t ts) := by
    have hts := ho.plain
    rw [Tree.Plain] at hts
    exact hts.insert hobj.plain key
  have hiff := ho'.conveys_iff hplain (KeyMap.insertOrAssign_ne_nil key t ts) m
  have hstores := ho'.stores (KeyMap.find_insertOrAssign_self key t ts)
  rw [KeysAgree, hiff]
  exact ⟨fun h => h.resolve_left fun hkept => hkept.1 hstores, Or.inr⟩

/-- Under a key that is not negative all entries are given back. -/
theorem emplace_agrees_iff_sample : ∃ o', Added .little 7 (DsonObj.ofStringObj .little 0 [104, 105]) 0
    (DsonObj.empty .little) ⟨[], []⟩ o' ∧
      KeysAgree .little 7 (.leaf (.string [104, 105])) [] (DsonObj.empty .little) o' ⟨[], []⟩ := by
  have hstring : Built .little (DsonObj.ofStringObj .little 0 [104, 105]) 0 (.leaf (.string [104, 105])) :=
    .stringObj (by decide) (by decide) (by decide)
  obtain ⟨⟨o', hrun⟩, -, hagree⟩ := emplace_agrees_iff .container hstring (by decide : IsInt32 7) ⟨[], []⟩
  exact ⟨o', .keyed hrun, (hagree o' (.keyed hrun)).mpr (by decide)⟩

/-- Under a negative key an entry makes a whole message unreadable, the entries under other keys too. -/
theorem emplace_negative_key : ∃ o o' : DsonObj, Added .little 7 (DsonObj.ofStringObj .little 0 [104, 105]) 0
    (DsonObj.empty .little) ⟨[], []⟩ o ∧ Added .little (-1) (DsonObj.ofStringObj .little 0 [110, 111]) 0 o ⟨[], []⟩ o' ∧
      ¬KeysAgree .little (-1) (.leaf (.string [110, 111])) [(7, .leaf (.string [104, 105]))] o o' ⟨[], []⟩ := by
  have hfirst : Built .little (DsonObj.ofStringObj .little 0 [104, 105]) 0 (.leaf (.string [104, 105])) :=
    .stringObj (by decide) (by decide) (by decide)
  have hsecond : Built .little (DsonObj.ofStringObj .little 0 [110, 111]) 0 (.leaf (.string [110, 111])) :=
    .stringObj (by decide) (by decide) (by decide)
  obtain ⟨o, hrun, ho⟩ := holds_empty.emplace hfirst.holds (by decide : IsInt32 7) ⟨[], []⟩
  obtain ⟨o', hrun', ho'⟩ := ho.emplace hsecond.holds (by decide : IsInt32 (-1)) ⟨[], []⟩
  refine ⟨o, o', .keyed hrun, .keyed hrun', ?_⟩
  rintro (⟨hnot, -⟩ | hemit)
  · exact hnot (ho'.stores rfl)
  · have hplain : Forest.Plain (KeyMap.insertOrAssign (-1) (.leaf (.string [110, 111])) [(7, .leaf (.string [104, 105]))]) :=
      ⟨trivial, trivial, trivial⟩
    exact absurd ((ho'.conveys_iff hplain (by decide) ⟨[], []⟩).mp hemit) (by decide)

end

end LeanDson
