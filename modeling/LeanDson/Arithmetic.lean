import LeanDson.Abandon
import LeanDson.Safety

/-! The arithmetic of decoding. Loading adds and subtracts within the limit of 2^30; `parse_buf` moves its
counter and its cursor by what a child announces before it compares that with what is left. -/

namespace LeanDson

/-! ### The sums -/

/-- What one round of `parse_buf` computes: `buf_size + header_size`, and the counter and the cursor after it. -/
structure Round where
  size : Int
  notUsed : Int
  ptr : Int
  deriving DecidableEq

/-- The sums fit into 32 bits and the cursor is in a block of `length` bytes or at its end. -/
def Round.InRange (length : Int) (r : Round) : Prop :=
  IsInt32 r.size ∧ IsInt32 r.notUsed ∧ 0 ≤ r.ptr ∧ r.ptr ≤ length

instance (length : Int) (r : Round) : Decidable (r.InRange length) := inferInstanceAs (Decidable (_ ∧ _ ∧ _ ∧ _))

namespace Dson

variable (e : Endian) (junk : Nat → UInt8)

/-- The size of the child that `parse_buf` takes at the cursor; none where it stops. -/
def childSize (p : BufPtr) (m : Mem) (ptr : Int) : Option Int := do
  let obj ← ofBuf e (p.child ptr.toNat) m
  let key ← obj.key e m
  let size ← DsonObj.dataSize e m (.dson obj [])
  if key < 0 ∨ size < 0 then none else some size

/-- The rounds of `parseLoop`, each sum before it is stored. -/
def parseRounds (p : BufPtr) (m : Mem) : Nat → Int → Int → List Round
  | 0, _, _ => []
  | fuel + 1, notUsed, ptr =>
      if notUsed < headerSize ∨ ptr < 0 then []
      else match childSize e p m ptr with
        | none => []
        | some size =>
            let bufSize := wrap32 (size + headerSize)
            ⟨size + headerSize, notUsed - bufSize, ptr + bufSize⟩ ::
              parseRounds p m fuel (wrap32 (notUsed - bufSize)) (ptr + bufSize)

/-- The rounds of `parse_buf`. -/
def rounds (d : Dson) (m : Mem) : List Round :=
  if d.dataType e m = some TypesMap.dsonContainer then
    parseRounds e (d.buf.child 0) (d.inner m) d.bufSize.toNat d.bufSize (d.data.getD 0)
  else []

/-- `buf_size_ - offset_` and `offset_ + readed` in `load_from_fd`. -/
def dataSumsFd (d : Dson) (fd : FdIn) : List Int :=
  if (d.offset : Int) ≥ d.bufSize then []
  else (d.bufSize - d.offset) :: match readFromFd fd (d.bufSize - d.offset).toNat with
    | (none, _) => []
    | (some chunk, _) => [(d.offset + chunk.length : Int)]

/-- `header_size - offset_` and `offset_ + readed`, and those of the payload if the header is complete. -/
def headerSumsFd (d : Dson) (children : ObjMap) (m : Mem) (fd : FdIn) : List Int :=
  if d.offset ≥ headerSize then []
  else (headerSize - d.offset : Int) :: match readFromFd fd (headerSize - d.offset) with
    | (none, _) => []
    | (some chunk, fd) => (d.offset + chunk.length : Int) ::
        if d.offset + chunk.length < headerSize then []
        else match (d.headerTaken chunk).headerLoaded e junk children m with
          | some (none, d) => d.beginData.dataSumsFd fd
          | _ => []

/-- `buf_size_ - offset_` and `offset_ + readed` in `load_from_buf`. -/
def dataSumsBuf (d : Dson) (window : Bytes) : List Int :=
  if (d.offset : Int) ≥ d.bufSize then []
  else [d.bufSize - d.offset, (d.offset + (window.take (d.bufSize - d.offset).toNat).length : Int)]

/-- `header_size - offset_` and `offset_ + readed`; behind a complete header also `buf_size - readed`. -/
def headerSumsBuf (d : Dson) (children : ObjMap) (m : Mem) (window : Bytes) : List Int :=
  if d.offset ≥ headerSize then []
  else
    let chunk := window.take (headerSize - d.offset)
    (headerSize - d.offset : Int) :: (d.offset + chunk.length : Int) ::
      if d.offset + chunk.length < headerSize then []
      else match (d.headerTaken chunk).headerLoaded e junk children m with
        | some (none, d) => (window.length - chunk.length : Int) ::
            if chunk.length = window.length then [] else d.beginData.dataSumsBuf (window.drop chunk.length)
        | _ => []

/-- The sums of a call of a loader. -/
def loadSums (d : Dson) (children : ObjMap) (m : Mem) : LoadCall → List Int
  | .fd fd => match d.state with
      | .loadingHeader => d.headerSumsFd e junk children m fd
      | .loadingData => d.dataSumsFd fd
      | _ => d.beginLoad.headerSumsFd e junk [] m fd
  | .buf window => match d.state with
      | .loadingHeader => d.headerSumsBuf e junk children m window
      | .loadingData => d.dataSumsBuf window
      | _ => d.beginLoad.headerSumsBuf e junk [] m window

end Dson

/-! ### Decoding -/

/-- A call on an object that messages are loaded into. The stream loader adds nothing up. -/
inductive DecodeCall where
  | load (junk : Nat → UInt8) (call : LoadCall)
  | stream (junk : Nat → UInt8) (input : Bytes)
  | look (op : Lookup)
  | emplace (key : Int) (obj : DsonObj)
  | emplacePtr (obj : DsonObj)
  | clear
  | resetState

namespace DecodeCall

def run (e : Endian) : DecodeCall → DsonObj → Mem → Option (DsonObj × Mem)
  | .load junk call, o, m => (o.loadCall e junk call m).map fun (_, o, m) => (o, m)
  | .stream junk input, o, m => (o.loadFromStream e junk input m).map fun (o, m, _) => (o, m)
  | .look op, o, m => (o.lookup e op m).map fun (_, o, m) => (o, m)
  | .emplace key obj, o, m => DsonObj.emplace e key obj o m
  | .emplacePtr obj, o, m => DsonObj.emplacePtr e obj o m
  | .clear, o, m => some (o.clear, m)
  | .resetState, o, m => some (o.resetState, m)

/-- The call begins to load a message when no load is going on. -/
def IsLoad : DecodeCall → Prop
  | .load .. | .stream .. => True
  | _ => False

/-- The size of a window is a 32-bit integer. -/
def Proper : DecodeCall → Prop
  | .load _ (.buf window) => window.length < 2 ^ 31
  | _ => True

/-- The call runs `parse_buf`. -/
def Parses (d : Dson) : DecodeCall → Prop
  | .look (.get _) => d.dsonKind = .dataBufNeedParse
  | .look .map => d.dsonKind = .dataBufNeedParse ∧ d.state = .ready
  | .emplace .. | .emplacePtr .. => d.dsonKind = .dataBufNeedParse ∧ d.state ≠ .error
  | _ => False

/-- The sums of the call itself, those of `parse_buf` apart. -/
def sums (e : Endian) (d : Dson) (children : ObjMap) (m : Mem) : DecodeCall → List Int
  | .load junk call => d.loadSums e junk children m call
  | _ => []

/-- No sum of the call overflows and no cursor leaves the block. -/
def InRange (e : Endian) (d : Dson) (children : ObjMap) (m : Mem) (call : DecodeCall) : Prop :=
  (∀ x ∈ call.sums e d children m, IsInt32 x) ∧ (call.Parses d → ∀ r ∈ d.rounds e m, r.InRange d.bufSize)

end DecodeCall

/-- The objects that decoding goes through: an object a load has been begun on, the views that a parse makes, and
what calls make of these over whatever memory and children they find. -/
inductive Decodes (e : Endian) : Dson → Prop
  | load {d d' : Dson} {children children' : ObjMap} {m m' : Mem} {call : DecodeCall} (hload : call.IsLoad)
      (hheader : d.state ≠ .loadingHeader) (hdata : d.state ≠ .loadingData)
      (hrun : call.run e (.dson d children) m = some (.dson d' children', m')) : Decodes e d'
  | view {p : BufPtr} {m : Mem} {d : Dson} (hrun : Dson.ofBuf e p m = some d) : Decodes e d
  | single (h : Header) (p : BufPtr) : Decodes e (Dson.ofHeaderAndBuf h p)
  | converted {d d' : Dson} {m m' : Mem} (hd : Decodes e d) (hrun : d.toHost e m = some (d', m')) : Decodes e d'
  | step {d d' : Dson} {children children' : ObjMap} {m m' : Mem} (call : DecodeCall) (hd : Decodes e d)
      (hrun : call.run e (.dson d children) m = some (.dson d' children', m')) : Decodes e d'

/-- Behind records that fit, a header that the parser takes announces no more than there is. -/
def Bounded (e : Endian) (block : Bytes) : Prop :=
  ∀ recs h rest, (∀ r ∈ recs, Record.Fits e r) → recordsBytes recs ++ (Header.bytes h ++ rest) = block →
    0 ≤ h.keyOf e → 0 ≤ h.dataSizeOf e → h.dataSizeOf e ≤ rest.length

/-- The payload of a container that has been loaded is bounded. -/
def Dson.PayloadBounded (e : Endian) (d : Dson) (m : Mem) : Prop :=
  d.wasBufAllocation = true → d.dataType e m = some TypesMap.dsonContainer → ∀ block, d.buf = .own block →
    Bounded e block

section

variable {e : Endian} {d d' : Dson} {m m' : Mem}

/-! ### The rounds of a parse -/

theorem bounded_short {block : Bytes} (hshort : block.length < headerSize) : Bounded e block := by
  rintro recs h rest - rfl - -
  simp only [List.length_append, Header.bytes_length, headerSize] at hshort
  omega

theorem bounded_header {h : Header} {rest : Bytes} (hkey : 0 ≤ h.keyOf e) (hsize : 0 ≤ h.dataSizeOf e) :
    Bounded e (h.bytes ++ rest) ↔
      h.dataSizeOf e ≤ rest.length ∧ Bounded e (rest.drop (h.dataSizeOf e).toNat) := by
  constructor
  · intro hb
    have hle := hb [] h rest (by simp) rfl hkey hsize
    refine ⟨hle, fun recs h' rest' hfits hbytes => ?_⟩
    refine hb (⟨h, rest.take (h.dataSizeOf e).toNat⟩ :: recs) h' rest' (List.forall_mem_cons.mpr ⟨⟨hkey, ?_⟩, hfits⟩) ?_
    · show h.dataSizeOf e = _
      rw [List.length_take]
      omega
    · rw [recordsBytes_cons, Record.bytes, List.append_assoc, hbytes, List.append_assoc, List.take_append_drop]
  · rintro ⟨hle, hb⟩ recs h' rest' hfits hbytes hkey' hsize'
    cases recs with
    | nil =>
        rw [recordsBytes_nil, List.nil_append] at hbytes
        obtain ⟨hh, hrest⟩ := List.append_inj hbytes (by simp)
        rw [Header.bytes_inj hh, hrest]
        exact hle
    | cons r recs =>
        rw [recordsBytes_cons, Record.bytes, List.append_assoc, List.append_assoc] at hbytes
        obtain ⟨hh, hrest⟩ := List.append_inj hbytes (by simp)
        obtain ⟨-, hfit⟩ := hfits r List.mem_cons_self
        rw [Header.bytes_inj hh] at hfit
        refine hb recs h' rest' (fun r hr => hfits r (List.mem_cons_of_mem _ hr)) ?_ hkey' hsize'
        rw [← hrest, hfit, Int.toNat_natCast, List.drop_left]

/-- A header that is not taken ends the parse. -/
theorem bounded_refused {h : Header} (hneg : h.keyOf e < 0 ∨ h.dataSizeOf e < 0) (rest : Bytes) :
    Bounded e (h.bytes ++ rest) := by
  rintro recs h' rest' hfits hbytes hkey hsize
  cases recs with
  | nil =>
      rw [recordsBytes_nil, List.nil_append] at hbytes
      obtain ⟨hh, -⟩ := List.append_inj hbytes (by simp)
      rw [Header.bytes_inj hh] at hkey hsize
      omega
  | cons r recs =>
      rw [recordsBytes_cons, Record.bytes, List.append_assoc, List.append_assoc] at hbytes
      obtain ⟨hh, -⟩ := List.append_inj hbytes (by simp)
      obtain ⟨hkey', hsize'⟩ := hfits r List.mem_cons_self
      rw [Record.key] at hkey'
      rw [Header.bytes_inj hh] at hkey' hsize'
      omega

/-- Records announce what they carry. -/
theorem IsRecords.bounded {block : Bytes} (h : IsRecords e block) : Bounded e block := by
  obtain ⟨recs, hfits, rfl⟩ := h
  induction recs with
  | nil => exact bounded_short (by decide)
  | cons r recs ih =>
      obtain ⟨hkey, hsize⟩ := hfits r List.mem_cons_self
      rw [recordsBytes_cons, Record.bytes, List.append_assoc, bounded_header hkey (by omega), hsize, Int.toNat_natCast,
        List.drop_left]
      refine ⟨?_, ih fun r hr => hfits r (List.mem_cons_of_mem _ hr)⟩
      rw [List.length_append]
      omega

namespace Dson

theorem childSize_header {front rest : Bytes} {h : Header} (hblock : m.owner = front ++ (h.bytes ++ rest)) :
    childSize e (.view .owner 0) m front.length =
      if h.keyOf e < 0 ∨ h.dataSizeOf e < 0 then none else some (h.dataSizeOf e) := by
  have howner : m.block .owner = front ++ (h.bytes ++ rest) := hblock
  have hheader : (viewOver e (.view .owner front.length) h).header m = some h := by
    refine header_view ?_ ?_ howner rfl <;> rw [viewOver] <;> split_ifs <;> rfl
  have hkind : (viewOver e (.view .owner front.length) h).dsonKind ≠ .dsonContainer := by
    rw [viewOver]
    split_ifs <;> simp [overBuf]
  rw [childSize, Int.toNat_natCast, BufPtr.child, Nat.zero_add, ofBuf_eq howner rfl]
  simp only [Option.bind_eq_bind, Option.bind_some, Dson.key, dataSize_header hkind, hheader, Option.map_some]

/-- The rounds of a parse stay in range if and only if no header in the block announces more than there is. -/
theorem parseRounds_inRange {fuel : Nat} {front bs : Bytes} (hblock : m.owner = front ++ bs)
    (hlen : bs.length ≤ 2 ^ 30) (hfuel : bs.length ≤ fuel) :
    (∀ r ∈ parseRounds e (.view .owner 0) m fuel bs.length front.length, r.InRange m.owner.length) ↔
      Bounded e bs := by
  induction fuel generalizing front bs with
  | zero =>
      have hshort : bs.length < headerSize := lt_of_le_of_lt hfuel (by decide)
      exact iff_of_true (by simp [parseRounds]) (bounded_short hshort)
  | succ fuel ih =>
      rw [parseRounds]
      by_cases hshort : bs.length < headerSize
      · rw [if_pos (Or.inl (by exact_mod_cast hshort))]
        exact iff_of_true (by simp) (bounded_short hshort)
      rw [if_neg (by omega)]
      obtain ⟨h, rest, hread⟩ := Header.read_isSome (b := bs) (not_lt.mp hshort)
      have hbs := Header.eq_of_read hread
      subst hbs
      rw [childSize_header hblock]
      by_cases hneg : h.keyOf e < 0 ∨ h.dataSizeOf e < 0
      · rw [if_pos hneg]
        exact iff_of_true (by simp) (bounded_refused hneg rest)
      rw [if_neg hneg, bounded_header (by omega) (by omega)]
      have hint := Header.field_isInt32 (e := e) h h.dataSize
      rw [← Header.dataSizeOf, IsInt32] at hint
      have hlength : m.owner.length = front.length + (16 + rest.length) := by
        rw [hblock, List.length_append, List.length_append, Header.bytes_length]
      simp only [List.length_append, Header.bytes_length] at hlen hfuel
      dsimp only
      rw [List.forall_mem_cons]
      by_cases hover : h.dataSizeOf e ≤ rest.length
      · have hadvance : wrap32 (h.dataSizeOf e + headerSize) = h.dataSizeOf e + headerSize := by
          apply wrap32_of_isInt32
          simp only [IsInt32, headerSize]
          omega
        have hround : Round.InRange m.owner.length ⟨h.dataSizeOf e + headerSize,
            ((h.bytes ++ rest).length : Int) - wrap32 (h.dataSizeOf e + headerSize),
            front.length + wrap32 (h.dataSizeOf e + headerSize)⟩ := by
          rw [hadvance, hlength]
          simp only [Round.InRange, IsInt32, headerSize, List.length_append, Header.bytes_length]
          omega
        have hblock' : m.owner = (front ++ (h.bytes ++ rest.take (h.dataSizeOf e).toNat)) ++
            rest.drop (h.dataSizeOf e).toNat := by
          rw [hblock, List.append_assoc, List.append_assoc, List.take_append_drop]
        have hcount : wrap32 (((h.bytes ++ rest).length : Int) - wrap32 (h.dataSizeOf e + headerSize)) =
            (rest.drop (h.dataSizeOf e).toNat).length := by
          rw [hadvance, wrap32_of_isInt32] <;>
            simp only [IsInt32, List.length_append, Header.bytes_length, headerSize, List.length_drop] <;> omega
        have hcursor : (front.length : Int) + wrap32 (h.dataSizeOf e + headerSize) =
            (front ++ (h.bytes ++ rest.take (h.dataSizeOf e).toNat)).length := by
          rw [hadvance]
          simp only [List.length_append, Header.bytes_length, List.length_take, headerSize]
          omega
        have hrest := ih hblock' (by rw [List.length_drop]; omega) (by rw [List.length_drop]; omega)
        rw [hcursor] at hround
        rw [hcount, hcursor, hrest]
        exact ⟨fun hb => ⟨hover, hb.2⟩, fun hb => ⟨hround, hb.2⟩⟩
      · refine iff_of_false (fun hb => ?_) (fun hb => hover hb.1)
        -- The sum overflows, or the cursor goes beyond the end.
        obtain ⟨hsize, -, -, hptr⟩ := hb.1
        dsimp only at hsize hptr
        rw [wrap32_of_isInt32 hsize, hlength, headerSize] at hptr
        omega

/-- A parse of an object that owns its block, or has none. -/
theorem Blocks.rounds_inRange (h : d.Blocks) :
    (∀ r ∈ d.rounds e m, r.InRange d.bufSize) ↔ d.PayloadBounded e m := by
  rw [rounds]
  by_cases htype : d.dataType e m = some TypesMap.dsonContainer
  · rw [if_pos htype]
    rcases h with ⟨ha, block, hown, hb, hmax⟩ | ⟨ha, hzero⟩
    · have hstate : d.state ≠ .error := by
        intro herr
        rw [dataType, if_pos herr] at htype
        revert htype
        decide
      have hdata : d.data = some 0 := by
        rw [data, if_neg (by simp [hstate, hown, BufPtr.isNull]), if_pos ha]
      have hinner : (d.inner m).owner = [] ++ block := by rw [inner, hown, List.nil_append]
      have hround := parseRounds_inRange (e := e) hinner hmax le_rfl
      rw [hinner, List.nil_append, List.length_nil] at hround
      rw [hown, BufPtr.child, hb, Int.toNat_natCast, hdata, Option.getD_some, hround]
      constructor
      · rintro hbounded - - block' hown'
        cases hown.symm.trans hown'
        exact hbounded
      · intro hbounded
        exact hbounded ha htype block hown
    · have hnone : parseRounds e (d.buf.child 0) (d.inner m) d.bufSize.toNat d.bufSize (d.data.getD 0) = [] := by
        rw [hzero]
        rfl
      rw [hnone]
      refine iff_of_true (by simp) (fun ha' => ?_)
      rw [ha] at ha'
      cases ha'
  · rw [if_neg htype]
    exact iff_of_true (by simp) (fun _ htype' => absurd htype' htype)

/-! ### The sums of a load -/

theorem LoadSafe.dataSumsFd_inRange (h : d.LoadSafe) (hstate : d.state = .loadingData) (fd : FdIn) :
    ∀ x ∈ d.dataSumsFd fd, IsInt32 x := by
  obtain ⟨-, block, -, hb, hmax, hoff⟩ := h.data hstate
  rw [dataSumsFd, if_neg (by omega)]
  refine List.forall_mem_cons.mpr ⟨by rw [IsInt32]; omega, ?_⟩
  split
  · simp
  · next chunk fd₁ hread =>
      have hlen := length_readFromFd hread
      simp only [List.mem_singleton, forall_eq, IsInt32]
      omega

theorem LoadSafe.dataSumsBuf_inRange (h : d.LoadSafe) (hstate : d.state = .loadingData) (window : Bytes) :
    ∀ x ∈ d.dataSumsBuf window, IsInt32 x := by
  obtain ⟨-, block, -, hb, hmax, hoff⟩ := h.data hstate
  rw [dataSumsBuf, if_neg (by omega)]
  have hlen : (window.take (d.bufSize - d.offset).toNat).length ≤ (d.bufSize - d.offset).toNat := by
    rw [List.length_take]
    omega
  simp only [List.forall_mem_cons, IsInt32, List.not_mem_nil, false_imp_iff, implies_true, and_true]
  omega

/-- The sums of a header are small. -/
theorem header_sums_inRange {off n : Nat} (hoff : off < headerSize) (hn : n ≤ headerSize - off) :
    IsInt32 (headerSize - off : Int) ∧ IsInt32 (off + n : Int) := by
  simp only [IsInt32, headerSize] at *
  omega

theorem LoadSafe.headerSumsFd_inRange {junk : Nat → UInt8} {children : ObjMap} (h : d.LoadSafe)
    (hstate : d.state = .loadingHeader) (fd : FdIn) : ∀ x ∈ d.headerSumsFd e junk children m fd, IsInt32 x := by
  have hoff := h.header hstate
  rw [headerSumsFd, if_neg (by omega)]
  refine List.forall_mem_cons.mpr ⟨(header_sums_inRange hoff (Nat.zero_le _)).1, ?_⟩
  split
  · simp
  · next chunk fd₁ hread =>
      refine List.forall_mem_cons.mpr ⟨(header_sums_inRange hoff (length_readFromFd hread)).2, ?_⟩
      split_ifs
      · simp
      split
      · next d₁ hloaded =>
          exact ((headerLoaded_keeps hloaded).2 rfl).safe.dataSumsFd_inRange rfl fd₁
      · simp

theorem LoadSafe.headerSumsBuf_inRange {junk : Nat → UInt8} {children : ObjMap} {window : Bytes} (h : d.LoadSafe)
    (hstate : d.state = .loadingHeader) (hwindow : window.length < 2 ^ 31) :
    ∀ x ∈ d.headerSumsBuf e junk children m window, IsInt32 x := by
  have hoff := h.header hstate
  have hlen : (window.take (headerSize - d.offset)).length ≤ headerSize - d.offset := by
    rw [List.length_take]
    omega
  have hleft : (window.take (headerSize - d.offset)).length ≤ window.length := by
    rw [List.length_take]
    omega
  rw [headerSumsBuf, if_neg (by omega)]
  obtain ⟨hleftover, htaken⟩ := header_sums_inRange hoff hlen
  refine List.forall_mem_cons.mpr ⟨hleftover, List.forall_mem_cons.mpr ⟨htaken, ?_⟩⟩
  by_cases hshort : d.offset + (window.take (headerSize - d.offset)).length < headerSize
  · rw [if_pos hshort]
    simp
  rw [if_neg hshort]
  split
  · next d₁ hloaded =>
      refine List.forall_mem_cons.mpr ⟨by rw [IsInt32]; omega, ?_⟩
      split_ifs
      · simp
      · exact ((headerLoaded_keeps hloaded).2 rfl).safe.dataSumsBuf_inRange rfl _
  · simp

theorem LoadSafe.loadSums_inRange {junk : Nat → UInt8} {children : ObjMap} {call : LoadCall} (h : d.LoadSafe)
    (hcall : (DecodeCall.load junk call).Proper) : ∀ x ∈ d.loadSums e junk children m call, IsInt32 x := by
  have hbegin := (beginLoad_keeps d).safe
  cases call with
  | fd fd =>
      rw [loadSums]
      split
      · next hstate => exact h.headerSumsFd_inRange hstate fd
      · next hstate => exact h.dataSumsFd_inRange hstate fd
      · exact hbegin.headerSumsFd_inRange rfl fd
  | buf window =>
      rw [loadSums]
      split
      · next hstate => exact h.headerSumsBuf_inRange hstate hcall
      · next hstate => exact h.dataSumsBuf_inRange hstate window
      · exact hbegin.headerSumsBuf_inRange rfl hcall

end Dson

/-! ### Runs -/

/-- Every call keeps the position of a load in its memory. -/
theorem Dson.LoadSafe.run {call : DecodeCall} {children : ObjMap} {o' : DsonObj} (h : d.LoadSafe)
    (hrun : call.run e (.dson d children) m = some (o', m')) :
    ∃ d' children', o' = .dson d' children' ∧ d.Keeps d' := by
  cases call with
  | load junk call =>
      obtain ⟨⟨r, o₁, m₁⟩, hload, heq⟩ := Option.map_eq_some_iff.mp hrun
      cases heq
      cases call with
      | fd fd =>
          obtain ⟨⟨r₂, o₂, m₂, fd₂⟩, hload, heq⟩ := Option.map_eq_some_iff.mp hload
          cases heq
          exact h.loadFromFd hload
      | buf window => exact h.loadFromBuf hload
  | stream junk input =>
      obtain ⟨⟨o₁, m₁, rest⟩, hload, heq⟩ := Option.map_eq_some_iff.mp hrun
      cases heq
      exact Dson.loadFromStream_keeps hload
  | look op =>
      obtain ⟨⟨a, o₁, m₁⟩, hlook, heq⟩ := Option.map_eq_some_iff.mp hrun
      cases heq
      cases op with
      | get key =>
          obtain ⟨⟨f, o₂, m₂⟩, hget, heq⟩ := Option.map_eq_some_iff.mp hlook
          cases heq
          exact h.get hget
      | map =>
          obtain ⟨⟨o₂, m₂⟩, hmap, heq⟩ := Option.map_eq_some_iff.mp hlook
          cases heq
          exact h.map hmap
  | emplace key obj =>
      rw [DecodeCall.run, DsonObj.emplace] at hrun
      obtain ⟨⟨obj₁, m₁⟩, -, hrun⟩ := Option.bind_eq_some_iff.mp hrun
      obtain ⟨⟨d₁, children₁, m₂⟩, hinsert, heq⟩ := Option.bind_eq_some_iff.mp hrun
      cases heq
      exact ⟨d₁, children₁, rfl, Dson.insertInternal_keeps h hinsert⟩
  | emplacePtr obj =>
      rw [DecodeCall.run, DsonObj.emplacePtr] at hrun
      obtain ⟨key, -, hrun⟩ := Option.bind_eq_some_iff.mp hrun
      obtain ⟨⟨d₁, children₁, m₂⟩, hinsert, heq⟩ := Option.bind_eq_some_iff.mp hrun
      cases heq
      exact ⟨d₁, children₁, rfl, Dson.insertInternal_keeps h hinsert⟩
  | clear =>
      cases hrun
      exact ⟨_, _, rfl, Dson.clear_keeps d⟩
  | resetState =>
      cases hrun
      exact ⟨_, _, rfl, (Dson.resetState_keeps d children).1⟩

/-- A load that begins is one into an object without a block. -/
theorem DecodeCall.run_idle {call : DecodeCall} (hload : call.IsLoad) (hheader : d.state ≠ .loadingHeader)
    (hdata : d.state ≠ .loadingData) (children : ObjMap) :
    ∃ d₀ children₀, d₀.LoadSafe ∧ d₀.Blocks ∧ call.run e (.dson d children) m = call.run e (.dson d₀ children₀) m := by
  cases call with
  | load junk call =>
      refine ⟨d.beginLoad, [], (Dson.beginLoad_keeps d).safe, Or.inr ⟨rfl, rfl⟩, ?_⟩
      cases call with
      | fd fd =>
          rw [DecodeCall.run, DecodeCall.run, DsonObj.loadCall, DsonObj.loadCall, DsonObj.loadFromFd, DsonObj.loadFromFd]
          cases hstate : d.state with
          | loadingHeader => exact absurd hstate hheader
          | loadingData => exact absurd hstate hdata
          | _ => rfl
      | buf window =>
          rw [DecodeCall.run, DecodeCall.run, DsonObj.loadCall, DsonObj.loadCall, DsonObj.loadFromBuf, DsonObj.loadFromBuf]
          cases hstate : d.state with
          | loadingHeader => exact absurd hstate hheader
          | loadingData => exact absurd hstate hdata
          | _ => rfl
  | stream junk input =>
      exact ⟨d.clear, [], (Dson.clear_keeps d).safe, Or.inr ⟨rfl, rfl⟩, rfl⟩
  | _ => exact absurd hload id

/-- A view that has just been made is ready and has no size of its own. -/
theorem Dson.ofBuf_fresh {p : BufPtr} (hrun : Dson.ofBuf e p m = some d) : d.LoadSafe ∧ d.Blocks := by
  have hsafe : ∀ x : Dson, x.state ≠ .loadingHeader → x.state ≠ .loadingData → x.wasBufAllocation = false →
      x.bufSize = 0 → x.LoadSafe ∧ x.Blocks := fun x hx hx' halloc hzero =>
    ⟨.of_state hx hx', Or.inr ⟨halloc, hzero⟩⟩
  obtain ⟨size, -, hrun⟩ := Option.bind_eq_some_iff.mp hrun
  split_ifs at hrun
  · cases hrun
    exact hsafe _ (by simp) (by simp) rfl rfl
  obtain ⟨type, -, hrun⟩ := Option.bind_eq_some_iff.mp hrun
  split_ifs at hrun <;> cases hrun <;> exact hsafe _ (by simp [overBuf, uninit]) (by simp [overBuf, uninit]) rfl rfl

/-- In every state that decoding leads to, the position of a load lies in its memory. -/
theorem Decodes.safe (h : Decodes e d) : d.LoadSafe ∧ d.Blocks := by
  induction h with
  | load hload hheader hdata hrun =>
      obtain ⟨d₀, children₀, hsafe, hblocks, heq⟩ := DecodeCall.run_idle hload hheader hdata _
      obtain ⟨d₁, children₁, hd, hkeeps⟩ := hsafe.run (heq ▸ hrun)
      cases hd
      exact ⟨hkeeps.safe, hkeeps.blocks hblocks⟩
  | view hrun => exact Dson.ofBuf_fresh hrun
  | single h p => exact ⟨.of_state (by simp [Dson.ofHeaderAndBuf, Dson.uninit]) (by simp [Dson.ofHeaderAndBuf, Dson.uninit]),
      Or.inr ⟨rfl, rfl⟩⟩
  | converted _ hrun ih =>
      have hkeeps := ih.1.rewritten (Dson.toHost_rewrites hrun)
      exact ⟨hkeeps.safe, hkeeps.blocks ih.2⟩
  | step call _ hrun ih =>
      obtain ⟨d₁, children₁, hd, hkeeps⟩ := ih.1.run hrun
      cases hd
      exact ⟨hkeeps.safe, hkeeps.blocks ih.2⟩

/-- The sums of a call on an object that has been decoded into stay in range if and only if the payload, where the
call parses it, has no header that announces more than there is behind it. -/
theorem decoding_inRange_iff (h : Decodes e d) {call : DecodeCall} (hcall : call.Proper) (children : ObjMap) (m : Mem) :
    call.InRange e d children m ↔ (call.Parses d → d.PayloadBounded e m) := by
  obtain ⟨hsafe, hblocks⟩ := h.safe
  have hsums : ∀ x ∈ call.sums e d children m, IsInt32 x := by
    cases call with
    | load junk call => exact hsafe.loadSums_inRange hcall
    | _ => simp [DecodeCall.sums]
  rw [DecodeCall.InRange, hblocks.rounds_inRange]
  exact ⟨fun hrange => hrange.2, fun hbounded => ⟨hsums, hbounded⟩⟩

/-- Two records are loaded from a stream and looked at. -/
theorem decoding_inRange_sample : ∃ d, Decodes .little d ∧
    (DecodeCall.look (.get 5)).InRange .little d [] ⟨[], []⟩ := by
  obtain ⟨d, m', hrun, hblock⟩ : ∃ d m', (DecodeCall.stream (fun _ => 205) ((containerHeader 0 36).bytes ++
      recordsBytes twoRecords)).run .little (DsonObj.empty .little) ⟨[], []⟩ = some (.dson d [], m') ∧
      d.buf = .own (recordsBytes twoRecords) := ⟨_, _, rfl, by decide +kernel⟩
  have hd : Decodes .little d := .load (show DecodeCall.IsLoad (.stream _ _) from trivial) (by decide) (by decide) hrun
  refine ⟨d, hd, (decoding_inRange_iff hd (show (DecodeCall.look (.get 5)).Proper from trivial) [] ⟨[], []⟩).mpr fun _ _ _ block hown => ?_⟩
  cases hblock.symm.trans hown
  exact IsRecords.bounded ⟨twoRecords, by decide, rfl⟩

/-- A child that announces more than there is: its size with the header does not fit into 32 bits. -/
theorem decoding_overflows : ∃ d, Decodes .little d ∧
    ¬(DecodeCall.look (.get 5)).InRange .little d [] ⟨[], []⟩ := by
  have hrun : ∃ d m', (DecodeCall.stream (fun _ => 205) ((containerHeader 0 16).bytes ++
      Header.bytes ⟨markHostOrder .little, Cell.ofInt .little 2147483640, Cell.ofInt .little 5, Cell.ofInt .little 3⟩)).run
      .little (DsonObj.empty .little) ⟨[], []⟩ = some (.dson d [], m') ∧
      d.dsonKind = .dataBufNeedParse ∧ ¬∀ r ∈ d.rounds .little ⟨[], []⟩, r.InRange d.bufSize :=
    ⟨_, _, rfl, rfl, by decide +kernel⟩
  obtain ⟨d, m', hrun, hkind, hrounds⟩ := hrun
  exact ⟨d, .load (show DecodeCall.IsLoad (.stream _ _) from trivial) (by decide) (by decide) hrun,
    fun hrange => hrounds (hrange.2 hkind)⟩

end

end LeanDson
