import LeanDson.Encoding
import LeanDson.Extract
import LeanDson.Records

/-! Reading a parsed container. Its children are views into its block; a lookup or an extractor
converts the record of one child in place, and leaves the other records and every view as they are. -/

namespace LeanDson

/-! ### Views -/

/-- Views depend on the keys, the types and the lengths of the records alone. -/
theorem views_congr {e : Endian} {r r' : Record} (hkey : r'.key e = r.key e)
    (htype : r'.header.dataTypeOf e = r.header.dataTypeOf e) (hlen : r'.payload.length = r.payload.length)
    (off : Nat) (before after : List Record) (map : ObjMap) :
    views e off (before ++ r' :: after) map = views e off (before ++ r :: after) map := by
  induction before generalizing off map with
  | nil =>
      have hview : r'.view e off = r.view e off := by rw [Record.view, Record.view, htype]
      simp only [List.nil_append, views, hkey, hview, Record.bytes_length, hlen]
  | cons r₀ before ih => rw [List.cons_append, views, ih, List.cons_append, views]

/-- A key of the records is bound to a view of the last of them. -/
theorem find_views_last {e : Endian} {k : Int} {recs before after : List Record} {r : Record}
    (hlast : IsLast e k recs before r after) (map : ObjMap) :
    KeyMap.find k (views e 0 recs map) = some (.dson (r.view e (recordsBytes before).length) []) := by
  obtain ⟨hsplit, hkey, hafter⟩ := hlast
  rcases find_views e k 0 recs map with ⟨before', r', after', ⟨hsplit', hkey', hafter'⟩, hfind⟩ | ⟨hne, -⟩
  · have heq : before' = before ∧ r' = r := by
      rw [hsplit] at hsplit'
      rcases List.append_eq_append_iff.mp hsplit' with ⟨mid, hb, hr⟩ | ⟨mid, hb, hr⟩
      · cases mid with
        | nil =>
            rw [List.nil_append, List.cons.injEq] at hr
            exact ⟨by rw [hb, List.append_nil], hr.1.symm⟩
        | cons x mid =>
            rw [List.cons_append, List.cons.injEq] at hr
            refine absurd hkey' (hafter r' ?_)
            rw [hr.2]
            simp
      · cases mid with
        | nil =>
            rw [List.nil_append, List.cons.injEq] at hr
            exact ⟨by rw [hb, List.append_nil], hr.1⟩
        | cons x mid =>
            rw [List.cons_append, List.cons.injEq] at hr
            refine absurd hkey (hafter' r ?_)
            rw [hr.2]
            simp
    rw [hfind, heq.1, heq.2, Nat.zero_add]
  · refine absurd hkey (hne r ?_)
    rw [hsplit]
    simp

/-- A view converts its record where it lies. -/
theorem Record.view_toOrder {e : Endian} {r : Record} {m : Mem} {front tail : Bytes}
    (hblock : m.owner = front ++ (r.bytes ++ tail)) (e' : Endian) (network : Bool) :
    (r.view e front.length).toOrder e' network m =
      (convertRecord e' network r.header (r.payload ++ tail)).map fun p =>
        (r.view e front.length, { m with owner := front ++ (p.1.bytes ++ p.2) }) := by
  have hrec := (Dson.isRecord_view (d := r.view e front.length) rfl (by simp [Record.view, Dson.overBuf, Dson.uninit])
    rfl m rfl).toOrder e' r.header (r.payload ++ tail) network
  have hm : m.setBlock .owner (front ++ (r.header.bytes ++ (r.payload ++ tail))) = m := by
    rw [← List.append_assoc r.header.bytes, ← Record.bytes, ← hblock]
    exact m.setBlock_block .owner
  rw [hm] at hrec
  exact hrec

/-- An operation on the child under a key that leaves the view as it is. -/
theorem onChild_view {α : Type} {e : Endian} {d : Dson} {k : Int} {recs before after : List Record} {r : Record}
    {block : Bytes} {m : Mem} {f : DsonObj → Mem → Option (α × DsonObj × Mem)} {x : Option (α × Bytes)}
    (hbuf : d.buf = .own block) (hlast : IsLast e k recs before r after)
    (hf : f (.dson (r.view e (recordsBytes before).length) []) { m with owner := block } =
      x.map fun p => (p.1, .dson (r.view e (recordsBytes before).length) [], { m with owner := p.2 })) :
    DsonObj.onChild k f (.dson d (views e 0 recs [])) m =
      x.map fun p => (p.1, .dson { d with buf := .own p.2 } (views e 0 recs []), m) := by
  have hfind := find_views_last hlast []
  have hinner : d.inner m = { m with owner := block } := by rw [Dson.inner, hbuf]
  have houter : ∀ b, d.outer m { m with owner := b } = ({ d with buf := .own b }, m) := fun b => by
    rw [Dson.outer, hbuf]
  simp only [DsonObj.onChild, hfind, Option.bind_eq_bind, Option.bind_some, hinner, hf]
  cases x with
  | none => rfl
  | some p =>
      simp only [Option.map_some, Option.bind_some, houter,
        KeyMap.insertOrAssign_find hfind (sorted_views e 0 recs KeyMap.sorted_nil)]
      rfl

/-! ### Parsed containers -/

/-- A container that has parsed the block it owns. -/
structure Dson.Parsed (d : Dson) (recs : List Record) : Prop where
  state : d.state = .ready
  kind : d.dsonKind = .dsonContainer
  alloc : d.wasBufAllocation = true
  buf : d.buf = .own (recordsBytes recs)
  size : d.bufSize = (recordsBytes recs).length

theorem IsLast.bytes {e : Endian} {k : Int} {recs before after : List Record} {r : Record}
    (hlast : IsLast e k recs before r after) :
    recordsBytes recs = recordsBytes before ++ (r.bytes ++ recordsBytes after) := by
  rw [hlast.1, recordsBytes_append, recordsBytes_cons]

/-- Another record of the same key, type and length in the place of one. -/
theorem Dson.Parsed.replace {e : Endian} {d : Dson} {k : Int} {recs before after : List Record} {r r' : Record}
    (hd : d.Parsed recs) (hlast : IsLast e k recs before r after) (hkey : r'.key e = r.key e)
    (htype : r'.header.dataTypeOf e = r.header.dataTypeOf e) (hlen : r'.payload.length = r.payload.length) :
    Dson.Parsed { d with buf := .own (recordsBytes before ++ (r'.bytes ++ recordsBytes after)) }
      (before ++ r' :: after) ∧
    views e 0 recs [] = views e 0 (before ++ r' :: after) [] := by
  refine ⟨⟨hd.state, hd.kind, hd.alloc, ?_, ?_⟩, ?_⟩
  · simp
  · have hsize := hd.size
    rw [hlast.1] at hsize
    simpa [hlen] using hsize
  · rw [hlast.1]
    exact (views_congr hkey htype hlen 0 before after []).symm

/-- `get` on a parsed container, under a key that it has: the record of the child is converted, with the
bytes behind it in reach. -/
theorem Dson.Parsed.get_last {e : Endian} {d : Dson} {k : Int} {recs before after : List Record} {r : Record}
    (hd : d.Parsed recs) (hlast : IsLast e k recs before r after) (m : Mem) :
    DsonObj.get e k (.dson d (views e 0 recs [])) m =
      (convertRecord e false r.header (r.payload ++ recordsBytes after)).map fun p =>
        (.child k, .dson { d with buf := .own (recordsBytes before ++ (p.1.bytes ++ p.2)) }
          (views e 0 recs []), m) := by
  have hget : DsonObj.get e k (.dson d (views e 0 recs [])) m =
      DsonObj.getInternal e k d (views e 0 recs []) m := by
    rw [DsonObj.get, if_neg (by simp [hd.kind])]
    simp only [Option.bind_eq_bind, Option.bind_some]
    rw [if_neg (by simp [hd.state])]
    simp only [hd.kind]
  have hhost := Record.view_toOrder (e := e) (r := r) (m := { m with owner := recordsBytes recs })
    hlast.bytes e false
  rw [hget, DsonObj.getInternal, find_views_last hlast]
  have hchild := onChild_view (m := m) hd.buf hlast (x := (convertRecord e false r.header
    (r.payload ++ recordsBytes after)).map fun p => (Found.child k, recordsBytes before ++ (p.1.bytes ++ p.2)))
    (f := DsonObj.fetch e k) ?_
  · rw [Option.map_map] at hchild
    exact hchild
  · have hto : DsonObj.toHost e (.dson (r.view e (recordsBytes before).length) [])
        { m with owner := recordsBytes recs } = ((r.view e (recordsBytes before).length).toOrder e false
          { m with owner := recordsBytes recs }).map fun p => (.dson p.1 [], p.2) := by
      rw [DsonObj.toHost, Option.map_eq_bind]
      rfl
    simp only [DsonObj.fetch, hto, hhost, Option.map_map]
    cases convertRecord e false r.header (r.payload ++ recordsBytes after) <;> rfl

/-- `get` on a parsed container, under a key that it does not have. -/
theorem Dson.Parsed.get_none {e : Endian} {d : Dson} {k : Int} {recs : List Record} (hd : d.Parsed recs)
    (hne : ∀ r ∈ recs, r.key e ≠ k) (m : Mem) :
    DsonObj.get e k (.dson d (views e 0 recs [])) m = some (.null, .dson d (views e 0 recs []), m) := by
  have hfind : KeyMap.find k (views e 0 recs []) = none := by
    rw [KeyMap.find_eq_none, mem_keys_views]
    rintro (⟨r, hr, hk⟩ | hnil)
    · exact hne r hr hk
    · cases hnil
  rw [DsonObj.get, if_neg (by simp [hd.kind])]
  simp only [Option.bind_eq_bind, Option.bind_some]
  rw [if_neg (by simp [hd.state])]
  simp only [hd.kind, DsonObj.getInternal, hfind]

end LeanDson
