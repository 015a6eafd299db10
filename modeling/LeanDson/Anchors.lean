import LeanDson.Conversion

/-! Headers in memory that an object does not own. A call on a container whose header lies there writes over that
header; other headers keep their mark when the two do not overlap. -/

namespace LeanDson

/-- Where a header lies. -/
abbrev Anchor := Region × Nat

/-- Two headers do not overlap, unless they are one. -/
def Anchor.Apart (p q : Anchor) : Prop := p.1 = q.1 → p.2 = q.2 ∨ p.2 + headerSize ≤ q.2 ∨ q.2 + headerSize ≤ p.2

/-- The header of an object that has none of its own. -/
def Dson.anchor (d : Dson) : List Anchor :=
  match d.headerIsLocal, d.buf with
  | false, .view region off => [(region, off)]
  | _, _ => []

def Mem.headerAt (m : Mem) (p : Anchor) : Option Header := (Header.read ((m.block p.1).drop p.2)).map Prod.fst

/-- A header with one of the two marks lies there. -/
def Mem.Marked (e : Endian) (m : Mem) (p : Anchor) : Prop := ∃ h, m.headerAt p = some h ∧ h.ValidMark e

/-- From one memory to the other headers have only been written where these are. -/
def Mem.Keeps (e : Endian) (as : List Anchor) (m m' : Mem) : Prop :=
  ∀ p : Anchor, (∀ q ∈ as, p.Apart q) → m.Marked e p → m'.Marked e p

theorem Anchor.Apart.symm {p q : Anchor} (h : p.Apart q) : q.Apart p := by
  intro hregion
  rcases h hregion.symm with h | h | h
  · exact Or.inl h.symm
  · exact Or.inr (Or.inr h)
  · exact Or.inr (Or.inl h)

/-! ### Memories -/

section

variable {e : Endian} {m m' m'' : Mem} {as bs : List Anchor}

theorem Mem.Keeps.refl (e : Endian) (as : List Anchor) (m : Mem) : m.Keeps e as m := fun _ _ h => h

theorem Mem.Keeps.append (h : m.Keeps e as m') (h' : m'.Keeps e bs m'') : m.Keeps e (as ++ bs) m'' := fun p hp hm =>
  h' p (fun q hq => hp q (List.mem_append_right as hq)) (h p (fun q hq => hp q (List.mem_append_left bs hq)) hm)

/-- What has been read from the first bytes does not depend on the others. -/
theorem Header.read_congr {bs bs' : Bytes} (h : bs.take headerSize = bs'.take headerSize) :
    (Header.read bs).map Prod.fst = (Header.read bs').map Prod.fst := by
  have htake : ∀ bs : Bytes, (Header.read bs).map Prod.fst = (Header.read (bs.take headerSize)).map Prod.fst := by
    intro bs
    by_cases hlen : 16 ≤ bs.length
    · obtain ⟨h, rest, hread⟩ := Header.read_isSome hlen
      have hbs := Header.eq_of_read hread
      have hfront : bs.take headerSize = h.bytes ++ [] := by
        rw [hbs, List.append_nil]
        exact List.take_left' rfl
      rw [hread, hfront, Header.read_bytes_append]
      rfl
    · rw [List.take_of_length_le (by rw [headerSize]; omega)]
  rw [htake bs, htake bs', h]

/-- A window before or behind a piece that is replaced by one of its length. -/
theorem take_drop_replaced (front : Bytes) {old new : Bytes} (rest : Bytes) (hlen : new.length = old.length) {n k : Nat}
    (h : n + k ≤ front.length ∨ front.length + old.length ≤ n) :
    ((front ++ (new ++ rest)).drop n).take k = ((front ++ (old ++ rest)).drop n).take k := by
  rcases h with h | h
  · have hfront : ∀ bs : Bytes, ((front ++ bs).drop n).take k = (front.drop n).take k := by
      intro bs
      rw [List.drop_append_of_le_length (by omega), List.take_append_of_le_length (by rw [List.length_drop]; omega)]
    rw [hfront, hfront]
  · have hback : ∀ piece : Bytes, piece.length = old.length →
        (front ++ (piece ++ rest)).drop n = rest.drop (n - (front.length + old.length)) := by
      intro piece hpiece
      rw [← List.append_assoc, List.drop_append, List.drop_of_length_le (by rw [List.length_append]; omega),
        List.nil_append, List.length_append, hpiece]
    rw [hback new hlen, hback old rfl]

/-- A header is written over another one. -/
theorem Mem.headerAt_write {region : Region} {off : Nat} {h : Header} {rest : Bytes}
    (hread : Header.read ((m.block region).drop off) = some (h, rest)) (h' : Header) {p : Anchor}
    (hp : p.Apart (region, off)) :
    (m.setBlock region ((m.block region).take off ++ (h'.bytes ++ rest))).headerAt p =
      if p = (region, off) then some h' else m.headerAt p := by
  have hblock := Header.eq_of_read hread
  have hsplit : m.block region = (m.block region).take off ++ (h.bytes ++ rest) := by
    rw [← hblock, List.take_append_drop]
  have hoff : ((m.block region).take off).length = off := by
    refine List.length_take_of_le (le_of_lt ?_)
    have hlen := congrArg List.length hblock
    rw [List.length_drop, List.length_append, Header.bytes_length] at hlen
    omega
  have hself : (m.setBlock region ((m.block region).take off ++ (h'.bytes ++ rest))).block region =
      (m.block region).take off ++ (h'.bytes ++ rest) := by
    cases region <;> rfl
  split_ifs with heq
  · subst heq
    rw [Mem.headerAt, hself, List.drop_left' hoff, Header.read_bytes_append]
    rfl
  obtain ⟨region', off'⟩ := p
  by_cases hregion : region' = region
  · subst hregion
    rw [Mem.headerAt, Mem.headerAt, hself]
    refine Header.read_congr ?_
    conv_rhs => rw [hsplit]
    refine take_drop_replaced _ rest (show h'.bytes.length = h.bytes.length from rfl) ?_
    rcases hp rfl with h | h | h
    · exact absurd (congrArg (Prod.mk region') h) heq
    · exact Or.inl (by rw [hoff]; exact h)
    · exact Or.inr (by rw [hoff]; exact h)
  · have hother : (m.setBlock region ((m.block region).take off ++ (h'.bytes ++ rest))).block region' =
        m.block region' := by
      cases region <;> cases region' <;> first | rfl | exact absurd rfl hregion
    rw [Mem.headerAt, Mem.headerAt, hother]

end

/-! ### Headers of objects -/

section

variable {e : Endian} {d d' : Dson} {m m' : Mem} {h h' : Header}

theorem Dson.header_anchor {region : Region} {off : Nat} (hlocal : d.headerIsLocal = false)
    (hbuf : d.buf = .view region off) : d.header m = m.headerAt (region, off) := by
  rw [Dson.header, hlocal, hbuf, Mem.headerAt, BufPtr.tail, Nat.add_zero]
  simp only [Bool.false_eq_true, if_false]
  split_ifs with hle
  · simp only [Option.bind_eq_bind, Option.bind_some]
    cases Header.read ((m.block region).drop off) <;> rfl
  · rw [List.drop_of_length_le (by omega)]
    rfl

theorem BufPtr.setTail_setTail {p : BufPtr} {t : Bytes} {off : Nat} (htail : p.tail m off = some t) (bs bs' : Bytes) :
    (p.setTail m off bs).1.setTail (p.setTail m off bs).2 off bs' = p.setTail m off bs' := by
  cases p with
  | null => rfl
  | own block =>
      rw [BufPtr.tail] at htail
      split_ifs at htail with hle
      rw [BufPtr.setTail, BufPtr.setTail, BufPtr.setTail, List.take_left' (List.length_take_of_le hle)]
  | view region base =>
      rw [BufPtr.tail] at htail
      split_ifs at htail with hle
      rw [BufPtr.setTail, BufPtr.setTail, BufPtr.setTail, Mem.block_setBlock, Mem.setBlock_setBlock,
        List.take_left' (List.length_take_of_le hle)]

/-- A header in memory is replaced by one of its length. -/
theorem Dson.setHeader_foreign (hlocal : d.headerIsLocal = false) (hset : d.setHeader m h' = some (d', m')) :
    ∃ t h₀ rest, d.buf.tail m 0 = some t ∧ Header.read t = some (h₀, rest) ∧
      d' = { d with buf := (d.buf.setTail m 0 (h'.bytes ++ rest)).1 } ∧ m' = (d.buf.setTail m 0 (h'.bytes ++ rest)).2 := by
  rw [Dson.setHeader, if_neg (by simp [hlocal])] at hset
  obtain ⟨t, htail, hset⟩ := Option.bind_eq_some_iff.mp hset
  obtain ⟨⟨h₀, rest⟩, hread, heq⟩ := Option.bind_eq_some_iff.mp hset
  simp only [Option.pure_def, Option.some.injEq, Prod.mk.injEq] at heq
  exact ⟨t, h₀, rest, htail, hread, heq.1.symm, heq.2.symm⟩

/-- A header is written where it has been read. -/
theorem Dson.setHeader_keeps (hset : d.setHeader m h' = some (d', m')) (hmark : h'.ValidMark e) :
    m.Keeps e d.anchor m' ∧ d'.anchor = d.anchor := by
  cases hlocal : d.headerIsLocal with
  | true =>
      rw [Dson.setHeader_local hlocal] at hset
      cases hset
      exact ⟨.refl e _ m, rfl⟩
  | false =>
      obtain ⟨t, h₀, rest, htail, hread, rfl, rfl⟩ := Dson.setHeader_foreign hlocal hset
      have halloc : d.wasBufAllocation = false := (Bool.or_eq_false_iff.mp hlocal).1
      cases hbuf : d.buf with
      | null =>
          rw [hbuf] at htail
          cases htail
      | own block => exact ⟨.refl e _ m, by simp [Dson.anchor, Dson.headerIsLocal, BufPtr.isNull, hbuf, halloc, BufPtr.setTail]⟩
      | view region off =>
          have hanchor : d.anchor = [(region, off)] := by rw [Dson.anchor, hlocal, hbuf]
          rw [hbuf, BufPtr.tail, Nat.add_zero] at htail
          split_ifs at htail
          cases htail
          refine ⟨fun p hp hm => ?_, by simp [Dson.anchor, Dson.headerIsLocal, BufPtr.isNull, hbuf, halloc, BufPtr.setTail]⟩
          rw [hanchor, List.forall_mem_singleton] at hp
          rw [BufPtr.setTail, Nat.add_zero, Mem.Marked, Mem.headerAt_write hread h' hp]
          split_ifs
          · exact ⟨h', rfl, hmark⟩
          · exact hm

/-- Of two headers that are written one after the other the second one stays. -/
theorem Dson.setHeader_setHeader (hset : d.setHeader m h = some (d', m')) (h' : Header) :
    d'.setHeader m' h' = d.setHeader m h' := by
  cases hlocal : d.headerIsLocal with
  | true =>
      rw [Dson.setHeader_local hlocal] at hset
      cases hset
      rw [Dson.setHeader_local hlocal, Dson.setHeader_local (by exact hlocal)]
  | false =>
      obtain ⟨t, h₀, rest, htail, hread, rfl, rfl⟩ := Dson.setHeader_foreign hlocal hset
      have hlocal' : Dson.headerIsLocal { d with buf := (d.buf.setTail m 0 (h.bytes ++ rest)).1 } = false := by
        rw [← hlocal, Dson.headerIsLocal, Dson.headerIsLocal, BufPtr.setTail_isNull]
      rw [Dson.setHeader, Dson.setHeader, if_neg (Bool.not_eq_true _ ▸ hlocal'), if_neg (Bool.not_eq_true _ ▸ hlocal), htail]
      simp only [BufPtr.tail_setTail htail, Option.bind_eq_bind, Option.bind_some, Header.read_bytes_append, hread,
        BufPtr.setTail_setTail htail]

end

end LeanDson
