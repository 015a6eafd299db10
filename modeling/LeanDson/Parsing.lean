import LeanDson.Inversion
import LeanDson.Views
import LeanDson.Widths

/-! What a lookup makes of a block that has not been parsed: it accepts the record grammar and nothing
else, and the children it makes lie in disjoint regions that cover the block. The record it finds is then
converted, and the conversion has to stay inside the block: nothing compares the size of a record with its type. -/

namespace LeanDson

/-! ### Regions -/

/-- Where the records lie, from an offset on: the offset and the length of each. -/
def regions : Nat → List Record → List (Nat × Nat)
  | _, [] => []
  | off, r :: recs => (off, r.bytes.length) :: regions (off + r.bytes.length) recs

theorem regions_bounds {off : Nat} {recs : List Record} {x : Nat × Nat} (hx : x ∈ regions off recs) :
    off ≤ x.1 ∧ headerSize ≤ x.2 ∧ x.1 + x.2 ≤ off + (recordsBytes recs).length := by
  induction recs generalizing off with
  | nil => cases hx
  | cons r recs ih =>
      rw [regions] at hx
      rw [recordsBytes_cons, List.length_append]
      rcases List.mem_cons.mp hx with rfl | hx
      · refine ⟨le_rfl, ?_, by dsimp only; omega⟩
        rw [Record.bytes_length]
        omega
      · obtain ⟨hoff, hsize, hend⟩ := ih hx
        exact ⟨by omega, hsize, by omega⟩

theorem regions_disjoint (off : Nat) (recs : List Record) :
    (regions off recs).Pairwise fun x y => x.1 + x.2 ≤ y.1 := by
  induction recs generalizing off with
  | nil => exact List.Pairwise.nil
  | cons r recs ih => exact List.pairwise_cons.mpr ⟨fun y hy => (regions_bounds hy).1, ih _⟩

theorem regions_cover {off : Nat} {recs : List Record} {i : Nat} (hi : off ≤ i)
    (hi' : i < off + (recordsBytes recs).length) : ∃ x ∈ regions off recs, x.1 ≤ i ∧ i < x.1 + x.2 := by
  induction recs generalizing off with
  | nil =>
      rw [recordsBytes_nil, List.length_nil] at hi'
      omega
  | cons r recs ih =>
      rw [recordsBytes_cons, List.length_append] at hi'
      by_cases hin : i < off + r.bytes.length
      · exact ⟨_, List.mem_cons_self, hi, hin⟩
      · obtain ⟨x, hx, hxi⟩ := ih (not_lt.mp hin) (by omega)
        exact ⟨x, List.mem_cons_of_mem _ hx, hxi⟩

theorem mem_regions (off : Nat) (before after : List Record) (r : Record) :
    (off + (recordsBytes before).length, r.bytes.length) ∈ regions off (before ++ r :: after) := by
  induction before generalizing off with
  | nil => exact List.mem_cons_self
  | cons r₀ before ih =>
      rw [List.cons_append, regions, recordsBytes_cons, List.length_append, ← Nat.add_assoc]
      exact List.mem_cons_of_mem _ (ih _)

/-- Every key of the records has a last record. -/
theorem exists_isLast {e : Endian} {k : Int} {recs : List Record} (h : ∃ r ∈ recs, r.key e = k) :
    ∃ before r after, IsLast e k recs before r after := by
  rcases find_views e k 0 recs [] with ⟨before, r, after, hlast, -⟩ | ⟨hne, -⟩
  · exact ⟨before, r, after, hlast⟩
  · obtain ⟨r, hr, hk⟩ := h
    exact absurd hk (hne r hr)

/-! ### Unparsed blocks -/

/-- A loaded message that has not been looked at. -/
structure Dson.Loaded (d : Dson) (block : Bytes) : Prop where
  state : d.state = .ready
  kind : d.dsonKind = .dataBufNeedParse
  alloc : d.wasBufAllocation = true
  buf : d.buf = .own block
  size : d.bufSize = block.length

/-- An object that holds a header and a block as a loader leaves them. -/
def Dson.loaded (h : Header) (block : Bytes) : Dson :=
  { Dson.uninit h with
    buf := .own block
    bufSize := block.length
    wasBufAllocation := true
    dsonKind := .dataBufNeedParse }

theorem Dson.loaded_loaded (h : Header) (block : Bytes) : (Dson.loaded h block).Loaded block :=
  ⟨rfl, rfl, rfl, rfl, rfl⟩

/-- `get` on an owned block of container type ends, and its parse accepts exactly the record grammar:
the object is then a ready container, bound at exactly the keys of the records to the last record of
each; otherwise it is in error. The lookup that follows converts the record it finds, keeps the state,
the kind and the children, and finds nothing under any other key. -/
theorem get_parses_records {e : Endian} {d : Dson} {block : Bytes} (hd : d.Loaded block)
    (htype : d.headerBuf.dataTypeOf e = TypesMap.dsonContainer) (hlen : block.length ≤ 2 ^ 30) (m : Mem) :
    ∃ d' children, d.parseBuf e [] m = some (d', children) ∧
      (d'.state = .ready ∧ d'.dsonKind = .dsonContainer ↔ IsRecords e block) ∧
      (¬IsRecords e block → d'.state = .error ∧
        ∀ k, DsonObj.get e k (.dson d []) m = some (.null, .dson d' children, m)) ∧
      ∀ recs, (∀ r ∈ recs, Record.Fits e r) → recordsBytes recs = block →
        (∀ k, k ∈ KeyMap.keys children ↔ ∃ r ∈ recs, r.key e = k) ∧
        (∀ k, k ∉ KeyMap.keys children →
          DsonObj.get e k (.dson d []) m = some (.null, .dson d' children, m)) ∧
        (∀ k before r after, IsLast e k recs before r after →
          KeyMap.find k children = some (.dson (r.view e (recordsBytes before).length) []) ∧
          ((recordsBytes before).length, r.bytes.length) ∈ regions 0 recs ∧
          DsonObj.get e k (.dson d []) m =
            (convertRecord e false r.header (r.payload ++ recordsBytes after)).map fun p =>
              (.child k, .dson { d' with buf := .own (recordsBytes before ++ (p.1.bytes ++ p.2)) } children, m)) ∧
        (regions 0 recs).Pairwise (fun x y => x.1 + x.2 ≤ y.1) ∧
        (∀ x ∈ regions 0 recs, headerSize ≤ x.2 ∧ x.1 + x.2 ≤ block.length) ∧
        (∀ i < block.length, ∃ x ∈ regions 0 recs, x.1 ≤ i ∧ i < x.1 + x.2) := by
  rcases Dson.parseBuf_spec (m := m) hd.buf hd.alloc hd.size (by simp [hd.state]) htype hlen [] with
    ⟨recs, hfits, hbytes, hparse⟩ | ⟨hnot, children, hparse⟩
  · have hrecs : IsRecords e block := ⟨recs, hfits, hbytes⟩
    have hparsed : Dson.Parsed { d with dsonKind := .dsonContainer } recs :=
      ⟨hd.state, rfl, hd.alloc, by rw [hbytes]; exact hd.buf, by rw [hbytes]; exact hd.size⟩
    have hget := get_parse hd.kind hparse
    refine ⟨_, _, hparse, ⟨fun _ => hrecs, fun _ => ⟨hd.state, rfl⟩⟩, fun h => absurd hrecs h, ?_⟩
    intro recs' hfits' hbytes'
    obtain rfl := recordsBytes_inj hfits' hfits (hbytes'.trans hbytes.symm)
    have hkeys : ∀ k, k ∈ KeyMap.keys (views e 0 recs' []) ↔ ∃ r ∈ recs', r.key e = k := fun k => by
      rw [mem_keys_views]
      simp
    refine ⟨hkeys, fun k hk => ?_, fun k before r after hlast => ⟨find_views_last hlast [], ?_, ?_⟩,
      regions_disjoint 0 recs', fun x hx => ?_, fun i hi => ?_⟩
    · have hne : ∀ r ∈ recs', r.key e ≠ k := fun r hr heq => hk ((hkeys k).mpr ⟨r, hr, heq⟩)
      rw [hget k, if_pos hd.state, hparsed.get_none hne]
    · have hmem := mem_regions 0 before after r
      rwa [Nat.zero_add, ← hlast.1] at hmem
    · rw [hget k, if_pos hd.state, hparsed.get_last hlast]
    · have hbounds := regions_bounds hx
      rw [hbytes, Nat.zero_add] at hbounds
      exact hbounds.2
    · exact regions_cover (Nat.zero_le i) (by rwa [hbytes, Nat.zero_add])
  · refine ⟨_, _, hparse, ⟨fun h => ?_, fun h => absurd h hnot⟩, fun _ => ⟨rfl, fun k => ?_⟩, ?_⟩
    · cases h.1
    · rw [get_parse hd.kind hparse k, if_neg (by simp)]
    · intro recs hfits hbytes
      exact absurd ⟨recs, hfits, hbytes⟩ hnot

/-! ### The grammar -/

/-- What a lookup leaves of a block: a ready container if the block is records, and otherwise an object in error.
The keys of the children are those of the records, each child is the last record of its key, and the records lie
in regions of the block that are disjoint and cover it. -/
structure Dson.Recognises (e : Endian) (block : Bytes) (d : Dson) (children : ObjMap) : Prop where
  accepts : d.state = .ready ∧ d.dsonKind = .dsonContainer ↔ IsRecords e block
  refuses : ¬IsRecords e block → d.state = .error
  keys : ∀ recs, (∀ r ∈ recs, Record.Fits e r) → recordsBytes recs = block →
    ∀ k, k ∈ KeyMap.keys children ↔ ∃ r ∈ recs, r.key e = k
  last : ∀ recs, (∀ r ∈ recs, Record.Fits e r) → recordsBytes recs = block → ∀ k before r after,
    IsLast e k recs before r after →
      KeyMap.find k children = some (.dson (r.view e (recordsBytes before).length) []) ∧
        ((recordsBytes before).length, r.bytes.length) ∈ regions 0 recs
  disjoint : ∀ recs, (∀ r ∈ recs, Record.Fits e r) → recordsBytes recs = block →
    (regions 0 recs).Pairwise fun x y => x.1 + x.2 ≤ y.1
  inside : ∀ recs, (∀ r ∈ recs, Record.Fits e r) → recordsBytes recs = block →
    ∀ x ∈ regions 0 recs, headerSize ≤ x.2 ∧ x.1 + x.2 ≤ block.length
  covers : ∀ recs, (∀ r ∈ recs, Record.Fits e r) → recordsBytes recs = block →
    ∀ i < block.length, ∃ x ∈ regions 0 recs, x.1 ≤ i ∧ i < x.1 + x.2

/-- A lookup ends, and leaves the block recognised. -/
def Dson.GetParses (e : Endian) (k : Int) (d : Dson) (block : Bytes) (m : Mem) : Prop :=
  ∃ f d' children, DsonObj.get e k (.dson d []) m = some (f, .dson d' children, m) ∧ d'.Recognises e block children

/-- Only the state, the kind and the children count. -/
theorem Dson.Recognises.congr {e : Endian} {block : Bytes} {d d' : Dson} {children : ObjMap}
    (h : d.Recognises e block children) (hstate : d'.state = d.state) (hkind : d'.dsonKind = d.dsonKind) :
    d'.Recognises e block children where
  accepts := by rw [hstate, hkind, h.accepts]
  refuses := fun hnot => hstate.trans (h.refuses hnot)
  keys := h.keys
  last := h.last
  disjoint := h.disjoint
  inside := h.inside
  covers := h.covers

/-- `get` recognises the records of an owned block of container type, if the record that it finds is not so narrow
that its conversion leaves the block, and on no other condition. -/
theorem get_parses_iff {e : Endian} {d : Dson} {block : Bytes} (hd : d.Loaded block)
    (htype : d.headerBuf.dataTypeOf e = TypesMap.dsonContainer) (hlen : block.length ≤ 2 ^ 30) (k : Int) (m : Mem) :
    Dson.GetParses e k d block m ↔ ∀ recs before r after, (∀ r ∈ recs, Record.Fits e r) → recordsBytes recs = block →
      IsLast e k recs before r after → r.InReach e (recordsBytes after) := by
  obtain ⟨d', children, -, haccepts, hrefuses, hrecords⟩ := get_parses_records hd htype hlen m
  have hrecognises : d'.Recognises e block children :=
    { accepts := haccepts
      refuses := fun hnot => (hrefuses hnot).1
      keys := fun recs hfits hbytes => (hrecords recs hfits hbytes).1
      last := fun recs hfits hbytes k before r after hlast =>
        ⟨((hrecords recs hfits hbytes).2.2.1 k before r after hlast).1,
          ((hrecords recs hfits hbytes).2.2.1 k before r after hlast).2.1⟩
      disjoint := fun recs hfits hbytes => (hrecords recs hfits hbytes).2.2.2.1
      inside := fun recs hfits hbytes => (hrecords recs hfits hbytes).2.2.2.2.1
      covers := fun recs hfits hbytes => (hrecords recs hfits hbytes).2.2.2.2.2 }
  constructor
  · rintro ⟨f, d'', children'', hget, -⟩ recs before r after hfits hbytes hlast
    obtain ⟨-, -, hfound⟩ := (hrecords recs hfits hbytes).2.2.1 k before r after hlast
    have hr : r.Fits e := hfits r (by rw [hlast.1]; simp)
    rw [hfound] at hget
    rw [← Record.convert_isSome_iff hr, ← Option.isSome_map, hget]
    rfl
  · intro hreach
    by_cases hrecs : IsRecords e block
    · obtain ⟨recs, hfits, hbytes⟩ := hrecs
      obtain ⟨hkeys, hnone, hlast', -⟩ := hrecords recs hfits hbytes
      by_cases hk : k ∈ KeyMap.keys children
      · obtain ⟨before, r, after, hlast⟩ := exists_isLast ((hkeys k).mp hk)
        have hr : r.Fits e := hfits r (by rw [hlast.1]; simp)
        have hconv := (Record.convert_isSome_iff hr _).mpr (hreach recs before r after hfits hbytes hlast)
        obtain ⟨p, hp⟩ := Option.isSome_iff_exists.mp hconv
        have hget := (hlast' k before r after hlast).2.2
        rw [hp, Option.map_some] at hget
        exact ⟨_, _, _, hget, hrecognises.congr rfl rfl⟩
      · exact ⟨_, _, _, hnone k hk, hrecognises⟩
    · exact ⟨_, _, _, (hrefuses hrecs).2 k, hrecognises⟩

/-- The header of a container in host order, on a little-endian host. -/
def containerHeader (key size : Int) : Header :=
  ⟨markHostOrder .little, Cell.ofInt .little size, Cell.ofInt .little key, Cell.ofInt .little 1⟩

/-- A number under a network mark and an empty string under a host mark. -/
def twoRecords : List Record :=
  [⟨⟨markNetworkOrder .little, Cell.ofInt .big 4, Cell.ofInt .big 5, Cell.ofInt .big 3⟩, [0, 0, 0, 7]⟩,
    ⟨⟨markHostOrder .little, Cell.ofInt .little 0, Cell.ofInt .little 9, Cell.ofInt .little 2⟩, []⟩]

theorem get_parses_iff_sample : Dson.GetParses .little 5 (Dson.loaded (containerHeader 0 36) (recordsBytes twoRecords))
    (recordsBytes twoRecords) ⟨[], []⟩ := by
  refine (get_parses_iff (Dson.loaded_loaded _ _) (by decide) (by decide) 5 ⟨[], []⟩).mpr ?_
  intro recs before r after hfits hbytes hlast
  obtain rfl := recordsBytes_inj hfits (by decide) hbytes
  obtain ⟨hsplit, hkey, -⟩ := hlast
  have hr : r ∈ twoRecords := by
    rw [hsplit]
    simp
  rcases List.mem_pair.mp hr with rfl | rfl
  · refine Or.inr ?_
    rw [reach, if_neg (by decide), List.length_append]
    exact Nat.le_add_right 4 _
  · exact absurd hkey (by decide)

/-- A number without a payload. -/
def narrowRecord : Record :=
  ⟨⟨markNetworkOrder .little, Cell.ofInt .big 0, Cell.ofInt .big 5, Cell.ofInt .big 3⟩, []⟩

/-- The conversion of a number without a payload leaves the block, and the lookup has no outcome. -/
theorem narrow_leaves_block : IsRecords .little (recordsBytes [narrowRecord]) ∧
    (Dson.loaded (containerHeader 0 16) (recordsBytes [narrowRecord])).Loaded (recordsBytes [narrowRecord]) ∧
    ¬Dson.GetParses .little 5 (Dson.loaded (containerHeader 0 16) (recordsBytes [narrowRecord]))
      (recordsBytes [narrowRecord]) ⟨[], []⟩ := by
  refine ⟨⟨[narrowRecord], by decide, rfl⟩, Dson.loaded_loaded _ _, ?_⟩
  rintro ⟨f, d', children, hget, -⟩
  have hnone : DsonObj.get .little 5 (.dson (Dson.loaded (containerHeader 0 16) (recordsBytes [narrowRecord])) [])
      ⟨[], []⟩ = none := by decide +kernel
  rw [hnone] at hget
  cases hget

end LeanDson
