import LeanDson.Conversion
import LeanDson.Parse

/-! The record grammar and the parser. A container's payload is records one after the other, each a
header and as many bytes as it announces; `parse_buf` accepts these byte strings and no others, and
binds every key to a view of the last record that carries it. -/

namespace LeanDson

/-! ### Records -/

structure Record where
  header : Header
  payload : Bytes
  deriving DecidableEq, Repr

namespace Record

def bytes (r : Record) : Bytes := r.header.bytes ++ r.payload

def key (e : Endian) (r : Record) : Int := r.header.keyOf e

/-- The header is one that the parser takes, and announces the payload. -/
def Fits (e : Endian) (r : Record) : Prop :=
  0 ≤ r.key e ∧ r.header.dataSizeOf e = r.payload.length

instance (e : Endian) (r : Record) : Decidable (r.Fits e) := inferInstanceAs (Decidable (_ ∧ _))

/-- The child that the parser makes of a record at an offset of the owner's block. -/
def view (e : Endian) (off : Nat) (r : Record) : Dson :=
  { Dson.overBuf (.view .owner off) with
    dsonKind := if r.header.dataTypeOf e = TypesMap.dsonContainer then .dataBufNeedParse
      else .oneObjectInDataBuf }

@[simp] theorem bytes_length (r : Record) : r.bytes.length = headerSize + r.payload.length := by
  simp [bytes, headerSize]

end Record

/-- Records one after the other. -/
def recordsBytes (recs : List Record) : Bytes := recs.flatMap Record.bytes

@[simp] theorem recordsBytes_nil : recordsBytes [] = [] := rfl

@[simp] theorem recordsBytes_cons (r : Record) (recs : List Record) :
    recordsBytes (r :: recs) = r.bytes ++ recordsBytes recs := List.flatMap_cons

@[simp] theorem recordsBytes_append (recs recs' : List Record) :
    recordsBytes (recs ++ recs') = recordsBytes recs ++ recordsBytes recs' := List.flatMap_append

/-- A byte string is records with nothing left over. -/
def IsRecords (e : Endian) (bs : Bytes) : Prop := ∃ recs, (∀ r ∈ recs, Record.Fits e r) ∧ recordsBytes recs = bs

theorem isRecords_nil (e : Endian) : IsRecords e [] := ⟨[], by simp, rfl⟩

/-- A byte string that starts with a header is records when the header is in order and what follows
its payload is records. -/
theorem isRecords_header {e : Endian} (h : Header) (rest : Bytes) :
    IsRecords e (h.bytes ++ rest) ↔ 0 ≤ h.keyOf e ∧ 0 ≤ h.dataSizeOf e ∧
      (h.dataSizeOf e).toNat ≤ rest.length ∧ IsRecords e (rest.drop (h.dataSizeOf e).toNat) := by
  constructor
  · rintro ⟨recs, hfits, hbytes⟩
    cases recs with
    | nil =>
        have hlen := congrArg List.length hbytes
        simp at hlen
        omega
    | cons r recs =>
        rw [recordsBytes_cons, Record.bytes, List.append_assoc] at hbytes
        obtain ⟨hh, hrest⟩ := List.append_inj hbytes (by simp)
        obtain ⟨hkey, hsize⟩ := hfits r List.mem_cons_self
        rw [← Header.bytes_inj hh, ← hrest, hsize, Int.toNat_natCast, List.drop_left]
        refine ⟨hkey, by omega, by simp, recs, fun r hr => hfits r (List.mem_cons_of_mem _ hr), rfl⟩
  · rintro ⟨hkey, hsize, hle, recs, hfits, hbytes⟩
    refine ⟨⟨h, rest.take (h.dataSizeOf e).toNat⟩ :: recs, ?_, ?_⟩
    · intro r hr
      rcases List.mem_cons.mp hr with rfl | hr
      · refine ⟨hkey, ?_⟩
        rw [List.length_take, min_eq_left hle]
        exact (Int.toNat_of_nonneg hsize).symm
      · exact hfits r hr
    · rw [recordsBytes_cons, hbytes, Record.bytes, List.append_assoc, List.take_append_drop]

/-- The records of a byte string are determined by it. -/
theorem recordsBytes_inj {e : Endian} {recs recs' : List Record} (hfits : ∀ r ∈ recs, Record.Fits e r)
    (hfits' : ∀ r ∈ recs', Record.Fits e r) (h : recordsBytes recs = recordsBytes recs') : recs = recs' := by
  induction recs generalizing recs' with
  | nil =>
      cases recs' with
      | nil => rfl
      | cons r recs' =>
          have hlen := congrArg List.length h
          simp [headerSize] at hlen
          omega
  | cons r recs ih =>
      cases recs' with
      | nil =>
          have hlen := congrArg List.length h
          simp [headerSize] at hlen
      | cons r' recs' =>
          rw [recordsBytes_cons, recordsBytes_cons, Record.bytes, Record.bytes, List.append_assoc,
            List.append_assoc] at h
          obtain ⟨hh, hrest⟩ := List.append_inj h (by simp)
          have hheader := Header.bytes_inj hh
          have hsize := (hfits r List.mem_cons_self).2
          have hsize' := (hfits' r' List.mem_cons_self).2
          have hlen : r.payload.length = r'.payload.length := by
            rw [← hheader, hsize] at hsize'
            exact_mod_cast hsize'
          obtain ⟨hpayload, htail⟩ := List.append_inj hrest hlen
          have hr : r = r' := by
            cases r
            cases r'
            exact congrArg₂ Record.mk hheader hpayload
          rw [hr, ih (fun r hr => hfits r (List.mem_cons_of_mem _ hr))
            (fun r hr => hfits' r (List.mem_cons_of_mem _ hr)) htail]

/-! ### The children of a parsed block -/

/-- The map after the records from an offset on have been inserted. -/
def views (e : Endian) : Nat → List Record → ObjMap → ObjMap
  | _, [], map => map
  | off, r :: recs, map =>
      views e (off + r.bytes.length) recs (KeyMap.insertOrAssign (r.key e) (.dson (r.view e off) []) map)

/-- `r` is the last of the records under the key `k`; `before` and `after` are the others. -/
def IsLast (e : Endian) (k : Int) (recs before : List Record) (r : Record) (after : List Record) : Prop :=
  recs = before ++ r :: after ∧ r.key e = k ∧ ∀ r' ∈ after, r'.key e ≠ k

/-- A key is bound to the last record that carries it, or to what it was bound to before. -/
theorem find_views (e : Endian) (k : Int) (off : Nat) (recs : List Record) (map : ObjMap) :
    (∃ before r after, IsLast e k recs before r after ∧ KeyMap.find k (views e off recs map) =
        some (.dson (r.view e (off + (recordsBytes before).length)) [])) ∨
      ((∀ r ∈ recs, r.key e ≠ k) ∧ KeyMap.find k (views e off recs map) = KeyMap.find k map) := by
  induction recs generalizing off map with
  | nil => exact Or.inr ⟨by simp, rfl⟩
  | cons r recs ih =>
      rw [views]
      rcases ih (off + r.bytes.length) (KeyMap.insertOrAssign (r.key e) (.dson (r.view e off) []) map) with
        ⟨before, r', after, ⟨hsplit, hkey, hafter⟩, hfind⟩ | ⟨hne, hfind⟩
      · refine Or.inl ⟨r :: before, r', after, ⟨by rw [hsplit, List.cons_append], hkey, hafter⟩, ?_⟩
        rw [hfind, recordsBytes_cons, List.length_append, Nat.add_assoc]
      · by_cases hk : r.key e = k
        · refine Or.inl ⟨[], r, recs, ⟨rfl, hk, hne⟩, ?_⟩
          rw [hfind, ← hk, KeyMap.find_insertOrAssign_self]
          rfl
        · refine Or.inr ⟨List.forall_mem_cons.mpr ⟨hk, hne⟩, ?_⟩
          rw [hfind, KeyMap.find_insertOrAssign_ne (Ne.symm hk)]

theorem sorted_views (e : Endian) (off : Nat) (recs : List Record) {map : ObjMap}
    (hs : KeyMap.Sorted map) : KeyMap.Sorted (views e off recs map) := by
  induction recs generalizing off map with
  | nil => exact hs
  | cons r recs ih => exact ih _ (KeyMap.sorted_insertOrAssign hs _ _)

theorem mem_keys_views {e : Endian} {k : Int} {off : Nat} {recs : List Record} {map : ObjMap} :
    k ∈ KeyMap.keys (views e off recs map) ↔ (∃ r ∈ recs, r.key e = k) ∨ k ∈ KeyMap.keys map := by
  induction recs generalizing off map with
  | nil => simp [views]
  | cons r recs ih =>
      rw [views, ih, KeyMap.mem_keys_insertOrAssign]
      simp only [List.mem_cons, exists_eq_or_imp]
      grind

/-! ### The loop -/

namespace Dson

/-- A view reads its header where it points. -/
theorem header_view {d : Dson} {region : Region} {off : Nat} (halloc : d.wasBufAllocation = false)
    (hbuf : d.buf = .view region off) {m : Mem} {front rest : Bytes} {h : Header}
    (hblock : m.block region = front ++ (h.bytes ++ rest)) (hoff : front.length = off) :
    d.header m = some h := by
  have htail := BufPtr.tail_view m region (n := 0) hoff (h.bytes ++ rest)
  rw [← hblock, Mem.setBlock_block] at htail
  rw [Dson.header, if_neg (by simp [headerIsLocal, halloc, hbuf, BufPtr.isNull]), hbuf, htail]
  rfl

/-- The view over a header, as its constructor leaves it. -/
def viewOver (e : Endian) (p : BufPtr) (h : Header) : Dson :=
  if h.dataSizeOf e < 0 ∨ h.dataSizeOf e > maxDsonRamSize then { overBuf p with state := .error }
  else { overBuf p with
    dsonKind := if h.dataTypeOf e = TypesMap.dsonContainer then .dataBufNeedParse else .oneObjectInDataBuf }

/-- An object that has not been turned into a container has the size its header announces. -/
theorem dataSize_header {e : Endian} {d : Dson} (hkind : d.dsonKind ≠ .dsonContainer) (children : ObjMap)
    (m : Mem) : DsonObj.dataSize e m (.dson d children) = (d.header m).map (·.dataSizeOf e) := by
  rw [DsonObj.dataSize]
  split
  · exact absurd ‹_› hkind
  · rfl

theorem ofBuf_eq {e : Endian} {region : Region} {off : Nat} {m : Mem} {front rest : Bytes} {h : Header}
    (hblock : m.block region = front ++ (h.bytes ++ rest)) (hoff : front.length = off) :
    ofBuf e (.view region off) m = some (viewOver e (.view region off) h) := by
  have hheader : (overBuf (.view region off)).header m = some h := header_view rfl rfl hblock hoff
  rw [ofBuf, preParseBuf, dataSize_header (by simp [overBuf]), hheader]
  simp only [Option.map_some, Option.bind_eq_bind, Option.bind_some]
  rw [viewOver]
  by_cases hsize : h.dataSizeOf e < 0 ∨ h.dataSizeOf e > maxDsonRamSize
  · rw [if_pos hsize, if_pos hsize]
    rfl
  · rw [if_neg hsize, if_neg hsize, dataType, if_neg (by simp [overBuf, uninit]), hheader]
    simp only [Option.map_some, Option.bind_some]
    split_ifs <;> rfl

/-- One round of the loop, at a header. -/
theorem parseLoop_header {e : Endian} {m : Mem} {front rest : Bytes} {h : Header}
    (hblock : m.owner = front ++ (h.bytes ++ rest)) (fuel : Nat) {notUsed : Int} (hn : headerSize ≤ notUsed)
    (map : ObjMap) :
    parseLoop e (.view .owner 0) m (fuel + 1) notUsed front.length map =
      if h.keyOf e < 0 then some (notUsed, map)
      else if h.dataSizeOf e < 0 then some (notUsed, map)
      else parseLoop e (.view .owner 0) m fuel (wrap32 (notUsed - wrap32 (h.dataSizeOf e + headerSize)))
        (front.length + wrap32 (h.dataSizeOf e + headerSize))
        (KeyMap.insertOrAssign (h.keyOf e) (.dson (viewOver e (.view .owner front.length) h) []) map) := by
  have howner : m.block .owner = front ++ (h.bytes ++ rest) := hblock
  have hheader : (viewOver e (.view .owner front.length) h).header m = some h := by
    refine header_view ?_ ?_ howner rfl <;> rw [viewOver] <;> split_ifs <;> rfl
  have hkind : (viewOver e (.view .owner front.length) h).dsonKind ≠ .dsonContainer := by
    rw [viewOver]
    split_ifs <;> simp [overBuf]
  have hof : ofBuf e ((BufPtr.view .owner 0).child (front.length : Int).toNat) m =
      some (viewOver e (.view .owner front.length) h) := by
    rw [Int.toNat_natCast, BufPtr.child, Nat.zero_add]
    exact ofBuf_eq howner rfl
  rw [parseLoop, if_neg (by omega), if_neg (by omega), hof]
  simp only [Option.bind_eq_bind, Option.bind_some, Dson.key, dataSize_header hkind, hheader, Option.map_some]
  rfl

theorem parseLoop_stop {e : Endian} {p : BufPtr} {m : Mem} {notUsed : Int} (hn : notUsed < headerSize)
    (fuel : Nat) (ptr : Int) (map : ObjMap) : parseLoop e p m fuel notUsed ptr map = some (notUsed, map) := by
  cases fuel with
  | zero => rw [parseLoop, if_pos hn]
  | succ fuel => rw [parseLoop, if_pos hn]

theorem viewOver_eq {e : Endian} {r : Record} (hfits : r.Fits e) (off : Nat) (hlen : r.payload.length ≤ 2 ^ 30) :
    viewOver e (.view .owner off) r.header = r.view e off := by
  rw [viewOver, if_neg, Record.view]
  rw [hfits.2, maxDsonRamSize]
  omega

/-- What the loop does: it uses up a block of records, or stops with something else left. -/
theorem parseLoop_spec {e : Endian} {m : Mem} {fuel : Nat} {front bs : Bytes} (map : ObjMap)
    (hblock : m.owner = front ++ bs) (hlen : bs.length ≤ 2 ^ 30) (hfuel : bs.length ≤ fuel) :
    ∃ n map', parseLoop e (.view .owner 0) m fuel bs.length front.length map = some (n, map') ∧
      ((n = 0 ∧ ∃ recs, (∀ r ∈ recs, Record.Fits e r) ∧ recordsBytes recs = bs ∧
          map' = views e front.length recs map) ∨
        (n ≠ 0 ∧ ¬IsRecords e bs)) := by
  induction fuel generalizing front bs map with
  | zero =>
      have hnil : bs = [] := List.eq_nil_of_length_eq_zero (Nat.le_zero.mp hfuel)
      subst hnil
      exact ⟨0, map, rfl, Or.inl ⟨rfl, [], by simp, rfl, rfl⟩⟩
  | succ fuel ih =>
      by_cases hshort : bs.length < headerSize
      · refine ⟨bs.length, map, by rw [parseLoop, if_pos (by exact_mod_cast hshort)], ?_⟩
        by_cases hnil : bs = []
        · subst hnil
          exact Or.inl ⟨rfl, [], by simp, rfl, rfl⟩
        · refine Or.inr ⟨by simpa using hnil, ?_⟩
          rintro ⟨recs, -, rfl⟩
          cases recs with
          | nil => exact hnil rfl
          | cons r recs =>
              rw [recordsBytes_cons, List.length_append, Record.bytes_length] at hshort
              omega
      · obtain ⟨h, rest, hread⟩ := Header.read_isSome (b := bs) (by rw [headerSize] at hshort; omega)
        have hbs := Header.eq_of_read hread
        subst hbs
        rw [parseLoop_header hblock fuel (by exact_mod_cast not_lt.mp hshort)]
        have hn : ((h.bytes ++ rest).length : Int) ≠ 0 := by simp; omega
        by_cases hkey : h.keyOf e < 0
        · refine ⟨_, map, if_pos hkey, Or.inr ⟨hn, fun hrecs => ?_⟩⟩
          have := ((isRecords_header h rest).mp hrecs).1
          omega
        rw [if_neg hkey]
        by_cases hsize : h.dataSizeOf e < 0
        · refine ⟨_, map, if_pos hsize, Or.inr ⟨hn, fun hrecs => ?_⟩⟩
          have := ((isRecords_header h rest).mp hrecs).2.1
          omega
        rw [if_neg hsize, wrap32_sub_wrap32]
        have hint := Header.field_isInt32 (e := e) h h.dataSize
        rw [← Header.dataSizeOf, IsInt32] at hint
        simp only [List.length_append, Header.bytes_length] at hlen hfuel
        have hleft : wrap32 (((h.bytes ++ rest).length : Int) - (h.dataSizeOf e + headerSize)) =
            (rest.length : Int) - h.dataSizeOf e := by
          rw [wrap32_of_isInt32] <;> simp only [IsInt32, List.length_append, Header.bytes_length, headerSize] <;>
            omega
        rw [hleft]
        by_cases hover : (h.dataSizeOf e).toNat ≤ rest.length
        · have hadvance : wrap32 (h.dataSizeOf e + headerSize) = h.dataSizeOf e + headerSize := by
            apply wrap32_of_isInt32
            simp only [IsInt32, headerSize]
            omega
          have hfits : Record.Fits e ⟨h, rest.take (h.dataSizeOf e).toNat⟩ := by
            refine ⟨not_lt.mp hkey, ?_⟩
            rw [List.length_take, min_eq_left hover]
            exact (Int.toNat_of_nonneg (not_lt.mp hsize)).symm
          have hview := viewOver_eq hfits front.length (by rw [List.length_take]; omega)
          have hblock' : m.owner = (front ++ (h.bytes ++ rest.take (h.dataSizeOf e).toNat)) ++
              rest.drop (h.dataSizeOf e).toNat := by
            rw [hblock, List.append_assoc, List.append_assoc, List.take_append_drop]
          obtain ⟨n, map', hloop, hcases⟩ := ih (KeyMap.insertOrAssign (h.keyOf e)
            (.dson (viewOver e (.view .owner front.length) h) []) map) hblock'
            (by rw [List.length_drop]; omega) (by rw [List.length_drop]; omega)
          have hcount : ((rest.drop (h.dataSizeOf e).toNat).length : Int) = rest.length - h.dataSizeOf e := by
            rw [List.length_drop]
            omega
          have hcursor : ((front ++ (h.bytes ++ rest.take (h.dataSizeOf e).toNat)).length : Int) =
              front.length + (h.dataSizeOf e + headerSize) := by
            simp only [List.length_append, Header.bytes_length, List.length_take, headerSize]
            omega
          rw [hcount, hcursor] at hloop
          rw [hadvance, hloop]
          refine ⟨n, map', rfl, ?_⟩
          rcases hcases with ⟨hn0, recs, hrecs, hbytes, hmap⟩ | ⟨hn0, hnot⟩
          · refine Or.inl ⟨hn0, ⟨h, rest.take (h.dataSizeOf e).toNat⟩ :: recs, ?_, ?_, ?_⟩
            · exact List.forall_mem_cons.mpr ⟨hfits, hrecs⟩
            · rw [recordsBytes_cons, hbytes, Record.bytes, List.append_assoc, List.take_append_drop]
            · rw [hmap, views, List.length_append, ← hview]
              rfl
          · exact Or.inr ⟨hn0, fun hrecs => hnot ((isRecords_header h rest).mp hrecs).2.2.2⟩
        · rw [parseLoop_stop (by omega)]
          refine ⟨_, _, rfl, Or.inr ⟨by omega, fun hrecs => ?_⟩⟩
          exact hover ((isRecords_header h rest).mp hrecs).2.2.1

/-- `parse_buf` on a block of its own: the records of the block, or an error. -/
theorem parseBuf_spec {e : Endian} {d : Dson} {block : Bytes} {m : Mem} (hbuf : d.buf = .own block)
    (halloc : d.wasBufAllocation = true) (hsize : d.bufSize = block.length) (hstate : d.state ≠ .error)
    (htype : d.headerBuf.dataTypeOf e = TypesMap.dsonContainer) (hlen : block.length ≤ 2 ^ 30) (map : ObjMap) :
    (∃ recs, (∀ r ∈ recs, Record.Fits e r) ∧ recordsBytes recs = block ∧
        d.parseBuf e map m = some ({ d with dsonKind := .dsonContainer }, views e 0 recs map)) ∨
      (¬IsRecords e block ∧ ∃ map', d.parseBuf e map m = some ({ d with state := .error }, map')) := by
  have hlocal : d.headerIsLocal = true := by simp [headerIsLocal, halloc]
  have hdata : d.data = some 0 := by
    rw [data, if_neg (by simp [hstate, hbuf, BufPtr.isNull]), if_pos halloc]
  have hinner : (d.inner m).owner = [] ++ block := by rw [inner, hbuf, List.nil_append]
  have hbegin : d.dataType e m = some TypesMap.dsonContainer := by
    rw [dataType, if_neg hstate, header_local hlocal, Option.map_some, htype]
  obtain ⟨n, map', hloop, hcases⟩ := parseLoop_spec map hinner hlen le_rfl
  rw [parseBuf, hbegin]
  simp only [Option.bind_eq_bind, Option.bind_some, ne_eq, not_true_eq_false, if_false, hbuf, BufPtr.child,
    hsize, Int.toNat_natCast, hdata, Option.getD_some]
  rw [List.length_nil] at hloop
  rw [hloop]
  rcases hcases with ⟨rfl, recs, hfits, hbytes, rfl⟩ | ⟨hn, hnot⟩
  · refine Or.inl ⟨recs, hfits, hbytes, ?_⟩
    simp
  · refine Or.inr ⟨hnot, map', ?_⟩
    simp [hn]

end Dson

end LeanDson
