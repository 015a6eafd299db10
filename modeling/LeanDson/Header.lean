import LeanDson.Cells

/-! The sixteen-byte header in front of every object, its byte-order mark, and the registry of data
types. A header keeps its four words as they lie in memory; how a word is read depends on the
mark. -/

namespace LeanDson

/-! ### Data types -/

namespace TypesMap

abbrev empty : Int := 0
abbrev dsonContainer : Int := 1
abbrev string : Int := 2
abbrev int32 : Int := 3
abbrev uint32 : Int := 4
abbrev int64 : Int := 5
abbrev uint64 : Int := 6
abbrev vectorUint32 : Int := 7
abbrev double : Int := 8

end TypesMap

/-! ### Headers -/

/-- `DsonObj::Header`, the words in memory order. -/
structure Header where
  markByteOrder : Cell
  dataSize : Cell
  key : Cell
  dataType : Cell
  deriving DecidableEq, Repr

def headerSize : Nat := 16

/-- `MAX_DSON_RAM_SIZE`. -/
def maxDsonRamSize : Int := 1024 * 1024 * 1024

/-- `mark_host_order`, as the host stores it. -/
def markHostOrder (e : Endian) : Cell := Cell.ofNat e 1

/-- `mark_network_order`, as the host stores it. -/
def markNetworkOrder (e : Endian) : Cell := (markHostOrder e).htonl e

/-- The next four bytes as a cell, and what follows them. -/
def Cell.read : Bytes → Option (Cell × Bytes)
  | b0 :: b1 :: b2 :: b3 :: rest => some (⟨b0, b1, b2, b3⟩, rest)
  | _ => none

namespace Header

def bytes (h : Header) : Bytes :=
  h.markByteOrder.bytes ++ h.dataSize.bytes ++ h.key.bytes ++ h.dataType.bytes

/-- The header at the start of a byte string, and what follows it. -/
def read (bs : Bytes) : Option (Header × Bytes) := do
  let (mark, bs) ← Cell.read bs
  let (size, bs) ← Cell.read bs
  let (key, bs) ← Cell.read bs
  let (type, bs) ← Cell.read bs
  return (⟨mark, size, key, type⟩, bs)

variable (e : Endian)

def isHostOrder (h : Header) : Bool := h.markByteOrder == markHostOrder e

def isNetworkOrder (h : Header) : Bool := h.markByteOrder == markNetworkOrder e

/-- `is_network_order` or `is_host_order`. -/
def inOrder (network : Bool) (h : Header) : Bool :=
  if network then h.isNetworkOrder e else h.isHostOrder e

/-- A word of the header as every accessor reads it: natively under the host mark, through
`int32_to_host` under any other. -/
def field (h : Header) (word : Cell) : Int :=
  if h.isHostOrder e then word.int32 e else int32ToHost e word

/-- A value as every setter writes it. -/
def word (h : Header) (value : Int) : Cell :=
  if h.isHostOrder e then Cell.ofInt e value else int32ToNetwork e value

def dataSizeOf (h : Header) : Int := h.field e h.dataSize

def keyOf (h : Header) : Int := h.field e h.key

def dataTypeOf (h : Header) : Int := h.field e h.dataType

def setKey (h : Header) (key : Int) : Header := { h with key := h.word e key }

def setDataType (h : Header) (type : Int) : Header := { h with dataType := h.word e type }

def setDataSize (h : Header) (size : Int) : Header := { h with dataSize := h.word e size }

/-- `header[i] = ntohl(header[i])` over the whole header; `htonl` is the same swap. -/
def swapWords (h : Header) : Header :=
  ⟨h.markByteOrder.ntohl e, h.dataSize.ntohl e, h.key.ntohl e, h.dataType.ntohl e⟩

/-- `header_to_host`. -/
def toHost (h : Header) : Header := if h.isHostOrder e then h else h.swapWords e

/-- `header_to_network`. -/
def toNetwork (h : Header) : Header := if h.isNetworkOrder e then h else h.swapWords e

/-- `header_to_network` or `header_to_host`. -/
def toOrder (network : Bool) (h : Header) : Header := if network then h.toNetwork e else h.toHost e

end Header

/-! ### Headers as byte strings -/

theorem Cell.read_bytes_append (c : Cell) (bs : Bytes) : Cell.read (c.bytes ++ bs) = some (c, bs) := rfl

theorem Cell.eq_of_read {bs rest : Bytes} {c : Cell} (h : Cell.read bs = some (c, rest)) :
    bs = c.bytes ++ rest := by
  unfold Cell.read at h
  split at h
  · cases h
    rfl
  · cases h

theorem Cell.read_isSome {b : Bytes} (h : 4 ≤ b.length) : ∃ c rest, Cell.read b = some (c, rest) := by
  match b, h with
  | b0 :: b1 :: b2 :: b3 :: rest, _ => exact ⟨⟨b0, b1, b2, b3⟩, rest, rfl⟩

namespace Header

@[simp] theorem bytes_length (h : Header) : h.bytes.length = 16 := rfl

@[simp] theorem read_bytes_append (h : Header) (bs : Bytes) : read (h.bytes ++ bs) = some (h, bs) := rfl

@[simp] theorem read_bytes (h : Header) : read h.bytes = some (h, []) := rfl

theorem eq_of_read {bs r : Bytes} {h : Header} (hr : read bs = some (h, r)) :
    bs = h.bytes ++ r := by
  simp only [read, Option.bind_eq_bind, Option.bind_eq_some_iff, Prod.exists, Option.pure_def,
    Option.some.injEq, Prod.mk.injEq] at hr
  obtain ⟨mark, bs1, h1, size, bs2, h2, key, bs3, h3, type, bs4, h4, rfl, rfl⟩ := hr
  rw [Cell.eq_of_read h1, Cell.eq_of_read h2, Cell.eq_of_read h3, Cell.eq_of_read h4]
  simp [bytes]

theorem read_isSome {b : Bytes} (hlen : 16 ≤ b.length) : ∃ h rest, read b = some (h, rest) := by
  obtain ⟨mark, bs1, h1⟩ := Cell.read_isSome (b := b) (by omega)
  have l1 := congrArg List.length (Cell.eq_of_read h1)
  rw [List.length_append, Cell.bytes_length] at l1
  obtain ⟨size, bs2, h2⟩ := Cell.read_isSome (b := bs1) (by omega)
  have l2 := congrArg List.length (Cell.eq_of_read h2)
  rw [List.length_append, Cell.bytes_length] at l2
  obtain ⟨key, bs3, h3⟩ := Cell.read_isSome (b := bs2) (by omega)
  have l3 := congrArg List.length (Cell.eq_of_read h3)
  rw [List.length_append, Cell.bytes_length] at l3
  obtain ⟨type, bs4, h4⟩ := Cell.read_isSome (b := bs3) (by omega)
  exact ⟨⟨mark, size, key, type⟩, bs4, by simp [read, h1, h2, h3, h4]⟩

theorem read_eq_none {bs : Bytes} (hlen : bs.length < 16) : read bs = none := by
  cases hr : read bs with
  | none => rfl
  | some p =>
      have hl := congrArg List.length (eq_of_read (h := p.1) (r := p.2) hr)
      rw [List.length_append, bytes_length] at hl
      omega

theorem bytes_inj {h h' : Header} (heq : h.bytes = h'.bytes) : h = h' := by
  have hr := read_bytes h
  rw [heq, read_bytes] at hr
  cases hr
  rfl

/-! ### Byte orders -/

variable {e : Endian}

/-- The order in which the accessors read a header. -/
def order (e : Endian) (h : Header) : Endian := if h.isHostOrder e then e else .big

/-- The mark is one of the two that emitters write. -/
def ValidMark (e : Endian) (h : Header) : Prop := h.isHostOrder e ∨ h.isNetworkOrder e

instance (h : Header) : Decidable (h.ValidMark e) := inferInstanceAs (Decidable (_ ∨ _))

theorem field_eq (h : Header) (c : Cell) : h.field e c = c.int32 (h.order e) := by
  rw [field, order]
  split <;> simp

theorem word_eq (h : Header) (i : Int) : h.word e i = Cell.ofInt (h.order e) i := by
  rw [word, order]
  split <;> simp

theorem isHostOrder_iff {h : Header} : h.isHostOrder e ↔ h.markByteOrder = markHostOrder e := by
  simp [isHostOrder]

theorem isNetworkOrder_iff {h : Header} : h.isNetworkOrder e ↔ h.markByteOrder = markNetworkOrder e := by
  simp [isNetworkOrder]

theorem marks_little : markNetworkOrder .little ≠ markHostOrder .little := by decide

@[simp] theorem swapWords_big (h : Header) : h.swapWords .big = h := rfl

@[simp] theorem swapWords_swapWords (h : Header) : (h.swapWords e).swapWords e = h := by
  cases e <;> rfl

theorem field_isInt32 (h : Header) (c : Cell) : IsInt32 (h.field e c) := by
  rw [field_eq]
  exact c.int32_isInt32 _

/-- Under a valid mark the accessors answer the same after the whole header is swapped. -/
theorem order_swapWords {h : Header} (hv : h.ValidMark e) (c : Cell) :
    (c.ntohl e).int32 ((h.swapWords e).order e) = c.int32 (h.order e) := by
  cases e with
  | big => rfl
  | little =>
      rcases hv with hh | hn
      · have hm := isHostOrder_iff.mp hh
        have hs : ¬(h.swapWords .little).isHostOrder .little := by
          rw [isHostOrder_iff]
          simp only [swapWords, hm]
          decide
        rw [order, order, if_neg hs, if_pos hh]
        rfl
      · have hm := isNetworkOrder_iff.mp hn
        have hs : (h.swapWords .little).isHostOrder .little := by
          rw [isHostOrder_iff]
          simp only [swapWords, hm]
          decide
        have hh : ¬h.isHostOrder .little := by
          rw [isHostOrder_iff, hm]
          decide
        rw [order, order, if_pos hs, if_neg hh]
        rfl

/-- A conversion of the header leaves the mark it is asked for. -/
theorem toOrder_mark {h : Header} (hv : h.ValidMark e) (network : Bool) :
    (h.toOrder e network).markByteOrder = if network then markNetworkOrder e else markHostOrder e := by
  cases network with
  | false =>
      rw [toOrder, if_neg (by simp), if_neg (by simp), toHost]
      split_ifs with hh
      · exact isHostOrder_iff.mp hh
      · have hn := isNetworkOrder_iff.mp (hv.resolve_left hh)
        simp only [swapWords, hn]
        exact Cell.htonl_htonl e _
  | true =>
      rw [toOrder, if_pos rfl, if_pos rfl, toNetwork]
      split_ifs with hn
      · exact isNetworkOrder_iff.mp hn
      · have hh := isHostOrder_iff.mp (hv.resolve_right hn)
        simp only [swapWords, hh]
        rfl

theorem inOrder_toOrder {h : Header} (hv : h.ValidMark e) (network : Bool) : (h.toOrder e network).inOrder e network := by
  have hmark := toOrder_mark hv network
  cases network with
  | true => exact isNetworkOrder_iff.mpr hmark
  | false => exact isHostOrder_iff.mpr hmark

theorem toOrder_of_inOrder {h : Header} {network : Bool} (hin : h.inOrder e network) : h.toOrder e network = h := by
  cases network with
  | true => exact if_pos hin
  | false => exact if_pos hin

theorem toOrder_valid {h : Header} (hv : h.ValidMark e) (network : Bool) :
    (h.toOrder e network).ValidMark e := by
  have hm := toOrder_mark hv network
  cases network with
  | false => exact Or.inl (isHostOrder_iff.mpr hm)
  | true => exact Or.inr (isNetworkOrder_iff.mpr hm)

/-- A conversion of the header leaves it alone or swaps all of it. -/
theorem toOrder_cases (h : Header) (network : Bool) :
    h.toOrder e network = h ∨ h.toOrder e network = h.swapWords e := by
  cases network <;> simp only [toOrder, toHost, toNetwork] <;> split_ifs <;> simp

/-- A conversion to network order mends no other mark. -/
theorem validMark_of_toOrder {h : Header} (hmark : (h.toOrder e true).markByteOrder = markNetworkOrder e) :
    h.ValidMark e := by
  rcases h.toOrder_cases true (e := e) with heq | heq
  · rw [heq] at hmark
    exact Or.inr (isNetworkOrder_iff.mpr hmark)
  · rw [heq] at hmark
    refine Or.inl (isHostOrder_iff.mpr ?_)
    have hswap : (h.markByteOrder.ntohl e).htonl e = ((markHostOrder e).htonl e).htonl e := congrArg (Cell.htonl e) hmark
    have hmark' : h.markByteOrder.htonl e = (markHostOrder e).htonl e := hmark
    rw [← Cell.htonl_htonl e h.markByteOrder, hmark', Cell.htonl_htonl]

theorem dataSizeOf_toOrder {h : Header} (hv : h.ValidMark e) (network : Bool) :
    (h.toOrder e network).dataSizeOf e = h.dataSizeOf e := by
  rcases h.toOrder_cases network (e := e) with heq | heq
  · rw [heq]
  · rw [heq, dataSizeOf, dataSizeOf, field_eq, field_eq]
    exact order_swapWords hv h.dataSize

theorem keyOf_toOrder {h : Header} (hv : h.ValidMark e) (network : Bool) :
    (h.toOrder e network).keyOf e = h.keyOf e := by
  rcases h.toOrder_cases network (e := e) with heq | heq
  · rw [heq]
  · rw [heq, keyOf, keyOf, field_eq, field_eq]
    exact order_swapWords hv h.key

theorem dataTypeOf_toOrder {h : Header} (hv : h.ValidMark e) (network : Bool) :
    (h.toOrder e network).dataTypeOf e = h.dataTypeOf e := by
  rcases h.toOrder_cases network (e := e) with heq | heq
  · rw [heq]
  · rw [heq, dataTypeOf, dataTypeOf, field_eq, field_eq]
    exact order_swapWords hv h.dataType

/-- A header that is not in the order asked for is on a little-endian host, and a conversion flips
the order it is read in. -/
theorem little_of_not_inOrder {h : Header} (hv : h.ValidMark e) {network : Bool}
    (hin : ¬h.inOrder e network) : e = .little ∧ h.isHostOrder e = network ∧
      (h.toOrder e network).isHostOrder e = !network := by
  have hm := toOrder_mark hv network
  cases e with
  | big =>
      have hboth : h.isNetworkOrder .big = h.isHostOrder .big := rfl
      have hhost : h.isHostOrder .big := by
        rcases hv with hh | hn
        · exact hh
        · rwa [← hboth]
      cases network <;> exact absurd hhost hin
  | little =>
      refine ⟨rfl, ?_⟩
      cases network with
      | true =>
          refine ⟨hv.resolve_right hin, ?_⟩
          rw [Bool.not_true, Bool.eq_false_iff, ne_eq, isHostOrder_iff, hm]
          exact marks_little
      | false =>
          have hnot : h.isHostOrder .little = false := by simpa [inOrder] using hin
          exact ⟨hnot, isHostOrder_iff.mpr hm⟩

theorem order_toOrder_of_not_inOrder {h : Header} (hv : h.ValidMark e) {network : Bool}
    (hin : ¬h.inOrder e network) : (h.toOrder e network).order e = (h.order e).flip := by
  obtain ⟨rfl, hh, hh'⟩ := little_of_not_inOrder hv hin
  rw [order, order, hh, hh']
  cases network <;> rfl

/-! ### Setters -/

@[simp] theorem setKey_markByteOrder (h : Header) (k : Int) :
    (h.setKey e k).markByteOrder = h.markByteOrder := rfl

@[simp] theorem setDataType_markByteOrder (h : Header) (t : Int) :
    (h.setDataType e t).markByteOrder = h.markByteOrder := rfl

@[simp] theorem setDataSize_markByteOrder (h : Header) (s : Int) :
    (h.setDataSize e s).markByteOrder = h.markByteOrder := rfl

/-- Accessors and setters follow the mark alone. -/
theorem field_congr {h h' : Header} (hm : h.markByteOrder = h'.markByteOrder) (c : Cell) :
    h.field e c = h'.field e c := by
  rw [field, field, isHostOrder, isHostOrder, hm]

theorem validMark_congr {h h' : Header} (hm : h.markByteOrder = h'.markByteOrder) :
    h.ValidMark e ↔ h'.ValidMark e := by
  rw [ValidMark, ValidMark, isHostOrder, isHostOrder, isNetworkOrder, isNetworkOrder, hm]

theorem field_word_wrap (h : Header) (i : Int) : h.field e (h.word e i) = wrap32 i := by
  rw [field_eq, word_eq, Cell.int32_ofInt_wrap]

theorem field_word (h : Header) {i : Int} (hi : IsInt32 i) : h.field e (h.word e i) = i := by
  rw [field_word_wrap, wrap32_of_isInt32 hi]

@[simp] theorem keyOf_setKey (h : Header) {k : Int} (hk : IsInt32 k) : (h.setKey e k).keyOf e = k :=
  (field_congr rfl _).trans (h.field_word hk)

@[simp] theorem dataSizeOf_setKey (h : Header) (k : Int) :
    (h.setKey e k).dataSizeOf e = h.dataSizeOf e := field_congr rfl _

@[simp] theorem dataTypeOf_setKey (h : Header) (k : Int) :
    (h.setKey e k).dataTypeOf e = h.dataTypeOf e := field_congr rfl _

@[simp] theorem dataTypeOf_setDataType (h : Header) {t : Int} (ht : IsInt32 t) :
    (h.setDataType e t).dataTypeOf e = t := (field_congr rfl _).trans (h.field_word ht)

@[simp] theorem keyOf_setDataType (h : Header) (t : Int) :
    (h.setDataType e t).keyOf e = h.keyOf e := field_congr rfl _

@[simp] theorem dataSizeOf_setDataSize (h : Header) {s : Int} (hs : IsInt32 s) :
    (h.setDataSize e s).dataSizeOf e = s := (field_congr rfl _).trans (h.field_word hs)

theorem dataSizeOf_isInt32 (h : Header) : IsInt32 (h.dataSizeOf e) := h.field_isInt32 _

/-- The size that a header announces is the one it has. -/
theorem setDataSize_dataSizeOf (h : Header) : h.setDataSize e (h.dataSizeOf e) = h := by
  rw [setDataSize, word_eq, dataSizeOf, field_eq, Cell.ofInt_int32]

/-- A size is stored modulo `2 ^ 32`. -/
theorem setDataSize_wrap32 (h : Header) (s : Int) : h.setDataSize e (wrap32 s) = h.setDataSize e s := by
  have hword : h.word e (wrap32 s) = h.word e s := by
    refine Cell.int32_inj (h.order e) ?_
    rw [word_eq, word_eq, Cell.int32_ofInt_wrap, Cell.int32_ofInt_wrap, wrap32_of_isInt32 (wrap32_isInt32 s)]
  rw [setDataSize, setDataSize, hword]

@[simp] theorem keyOf_setDataSize (h : Header) (s : Int) :
    (h.setDataSize e s).keyOf e = h.keyOf e := field_congr rfl _

@[simp] theorem dataTypeOf_setDataSize (h : Header) (s : Int) :
    (h.setDataSize e s).dataTypeOf e = h.dataTypeOf e := field_congr rfl _

/-- The size may be set before or after the header is converted. -/
theorem setDataSize_toOrder {h : Header} (hv : h.ValidMark e) (s : Int) (network : Bool) :
    (h.toOrder e network).setDataSize e s = (h.setDataSize e s).toOrder e network := by
  have hword : (h.swapWords e).word e s = (h.word e s).ntohl e := by
    refine Cell.int32_inj ((h.swapWords e).order e) ?_
    rw [order_swapWords hv, word_eq, word_eq, Cell.int32_ofInt_wrap, Cell.int32_ofInt_wrap]
  have hswap : (h.swapWords e).setDataSize e s = (h.setDataSize e s).swapWords e := by
    simp only [setDataSize, swapWords] at hword ⊢
    rw [hword]
  cases network with
  | false =>
      change (if h.isHostOrder e then h else h.swapWords e).setDataSize e s =
        if h.isHostOrder e then h.setDataSize e s else (h.setDataSize e s).swapWords e
      by_cases hin : h.isHostOrder e
      · rw [if_pos hin, if_pos hin]
      · rw [if_neg hin, if_neg hin, hswap]
  | true =>
      change (if h.isNetworkOrder e then h else h.swapWords e).setDataSize e s =
        if h.isNetworkOrder e then h.setDataSize e s else (h.setDataSize e s).swapWords e
      by_cases hin : h.isNetworkOrder e
      · rw [if_pos hin, if_pos hin]
      · rw [if_neg hin, if_neg hin, hswap]

/-- Headers that are read alike are converted alike. -/
theorem toOrder_congr {h₁ h₂ : Header} (hv₁ : h₁.ValidMark e) (hv₂ : h₂.ValidMark e)
    (hsize : h₁.dataSizeOf e = h₂.dataSizeOf e) (hkey : h₁.keyOf e = h₂.keyOf e)
    (htype : h₁.dataTypeOf e = h₂.dataTypeOf e) (network : Bool) : h₁.toOrder e network = h₂.toOrder e network := by
  have hmark : (h₁.toOrder e network).markByteOrder = (h₂.toOrder e network).markByteOrder := by
    rw [toOrder_mark hv₁, toOrder_mark hv₂]
  have horder : (h₁.toOrder e network).order e = (h₂.toOrder e network).order e := by
    rw [order, order, isHostOrder, isHostOrder, hmark]
  rw [← dataSizeOf_toOrder hv₁ network, ← dataSizeOf_toOrder hv₂ network, dataSizeOf, dataSizeOf, field_eq, field_eq,
    horder] at hsize
  rw [← keyOf_toOrder hv₁ network, ← keyOf_toOrder hv₂ network, keyOf, keyOf, field_eq, field_eq, horder] at hkey
  rw [← dataTypeOf_toOrder hv₁ network, ← dataTypeOf_toOrder hv₂ network, dataTypeOf, dataTypeOf, field_eq, field_eq,
    horder] at htype
  have hfields : ∀ h h' : Header, h.markByteOrder = h'.markByteOrder → h.dataSize = h'.dataSize → h.key = h'.key →
      h.dataType = h'.dataType → h = h' := by
    rintro ⟨_, _, _, _⟩ ⟨_, _, _, _⟩ rfl rfl rfl rfl
    rfl
  exact hfields _ _ hmark (Cell.int32_inj _ hsize) (Cell.int32_inj _ hkey) (Cell.int32_inj _ htype)

end Header

/-! ### Empty containers -/

theorem Header.setDataSize_zero (e : Endian) (h : Header) :
    h.setDataSize e 0 = { h with dataSize := ⟨0, 0, 0, 0⟩ } := by
  rw [Header.setDataSize, Header.word_eq]
  cases h.order e <;> rfl

theorem Header.setDataSize_zero_toOrder (e : Endian) (h : Header) (network : Bool) :
    (h.setDataSize e 0).toOrder e network = (h.toOrder e network).setDataSize e 0 := by
  have hswap : ({ h with dataSize := ⟨0, 0, 0, 0⟩ } : Header).swapWords e =
      { h.swapWords e with dataSize := ⟨0, 0, 0, 0⟩ } := by
    cases e <;> rfl
  have hnet : Header.isNetworkOrder e { h with dataSize := ⟨0, 0, 0, 0⟩ } = h.isNetworkOrder e := rfl
  have hhost : Header.isHostOrder e { h with dataSize := ⟨0, 0, 0, 0⟩ } = h.isHostOrder e := rfl
  rw [Header.setDataSize_zero, Header.setDataSize_zero, Header.toOrder, Header.toOrder, Header.toNetwork,
    Header.toNetwork, Header.toHost, Header.toHost, hnet, hhost]
  by_cases horder : if network then h.isNetworkOrder e else h.isHostOrder e
  · cases network <;> simp only [Bool.false_eq_true, if_false, if_true] at horder ⊢ <;> rw [if_pos horder, if_pos horder]
  · cases network <;> simp only [Bool.false_eq_true, if_false, if_true] at horder ⊢ <;>
      rw [if_neg horder, if_neg horder, hswap]

theorem Header.dataSizeOf_setDataSize_zero (e : Endian) (h : Header) : (h.setDataSize e 0).dataSizeOf e = 0 :=
  Header.dataSizeOf_setDataSize h (by decide)

end LeanDson
