import LeanDson.Transfer
import LeanDson.Agreement

/-! Records between hosts of different endianness. The network mark reads the same on every host, so a
record that carries it has the same key, size and type everywhere, and the same value unless it is a
double: a big-endian host takes the mark for its own, and neither encodes nor decodes. -/

namespace LeanDson

/-! ### Network marks -/

/-- The network mark is the host mark of a big-endian host. -/
theorem markNetworkOrder_eq (e : Endian) : markNetworkOrder e = markHostOrder .big := by
  cases e <;> rfl

section

variable {e : Endian} {h : Header} (hm : h.isNetworkOrder e) (e' : Endian)

include hm

theorem Header.isNetworkOrder_across : h.isNetworkOrder e' := by
  rw [isNetworkOrder_iff, markNetworkOrder_eq] at hm ⊢
  exact hm

/-- Every host reads a header under the network mark in the same order. -/
theorem Header.order_network : h.order e' = .big := by
  have hm' : h.isNetworkOrder e' := isNetworkOrder_across hm e'
  cases e' with
  | big => rw [order, ite_self]
  | little =>
      rw [isNetworkOrder_iff] at hm'
      have hnot : ¬h.isHostOrder .little := by
        intro hhost
        rw [isHostOrder_iff, hm'] at hhost
        exact marks_little hhost
      rw [order, if_neg hnot]

theorem Header.field_across (c : Cell) : h.field e' c = h.field e c := by
  rw [field_eq, field_eq, order_network hm, order_network hm]

theorem payloadValue_across (ht : h.dataTypeOf e ≠ TypesMap.double) (b : Bytes) :
    payloadValue e' h b = payloadValue e h b := by
  have htype : h.dataTypeOf e' = h.dataTypeOf e := Header.field_across hm e' _
  unfold payloadValue
  simp only [htype, Header.order_network hm, if_neg ht]

variable {k : Int} {v : Value} {b : Bytes}

/-- A record under the network mark that is not a double is the same record on every host. -/
theorem LeafRecord.across (hl : LeafRecord e k v h b) (hv : v.type ≠ TypesMap.double) : LeafRecord e' k v h b where
  mark := Or.inr (Header.isNetworkOrder_across hm e')
  size := (Header.field_across hm e' _).trans hl.size
  key := (Header.field_across hm e' _).trans hl.key
  type := (Header.field_across hm e' _).trans hl.type
  value := by
    rw [payloadValue_across hm e' (by rw [hl.type]; exact hv)]
    exact hl.value
  leaf := hl.leaf

/-- A double under the network mark is on every host a double, of the value that the host reads. -/
theorem LeafRecord.across_double {x y : Binary64} (hl : LeafRecord e k (.double x) h b)
    (hy : doubleValue e' h b = some y) : LeafRecord e' k (.double y.canon) h b := by
  have htype : h.dataTypeOf e' = TypesMap.double := (Header.field_across hm e' _).trans hl.type
  have hlen : b.length = 13 := hl.length_eq.symm
  refine ⟨Or.inr (Header.isNetworkOrder_across hm e'), (Header.field_across hm e' _).trans hl.size,
    (Header.field_across hm e' _).trans hl.key, htype, ?_, hl.leaf⟩
  rw [payloadValue_double htype (by omega) hy, List.drop_of_length_le (by omega)]

end

/-- A conversion to network order leaves the network mark, unless the type has no converter. -/
theorem convertRecord_network {e : Endian} {h h' : Header} {b b' : Bytes} (hv : h.ValidMark e)
    (hconv : converterTo e true (h.dataTypeOf e) ≠ none) (hc : convertRecord e true h b = some (h', b')) :
    h'.isNetworkOrder e := by
  by_cases hin : h.inOrder e true
  · rw [convertRecord_inOrder hin] at hc
    cases hc
    exact hin
  · obtain ⟨c, hsome⟩ := Option.ne_none_iff_exists'.mp hconv
    rw [convertRecord_some hin hsome] at hc
    obtain ⟨b'', -, heq⟩ := Option.map_eq_some_iff.mp hc
    cases heq
    rw [Header.isNetworkOrder_iff, Header.toOrder_mark hv true]
    rfl

/-- On a big-endian host no conversion changes a header. -/
theorem convertRecord_big {network : Bool} {h h' : Header} {b b' : Bytes}
    (hc : convertRecord .big network h b = some (h', b')) : h' = h := by
  rcases convertRecord_header hc with rfl | rfl
  · rfl
  · rcases Header.toOrder_cases (e := .big) h network with heq | heq
    · exact heq
    · exact heq.trans (Header.swapWords_big h)

/-! ### Doubles between hosts -/

theorem leNat_append (as bs : Bytes) : leNat (as ++ bs) = leNat as + 256 ^ as.length * leNat bs := by
  induction as with
  | nil => simp [leNat]
  | cons a as ih =>
      rw [List.cons_append, leNat, leNat, ih, List.length_cons, pow_succ]
      ring

/-- A byte and the upper seven of eight bytes, read as a big-endian number. -/
theorem natOf_big_tag (t : UInt8) {m : Nat} (hm : m < 2 ^ 64) :
    natOf .big (t :: (bytesOf .big 8 m).take 7) = t.toNat * 2 ^ 56 + m / 256 := by
  have hlow : leNat (leBytes 7 (m / 256)) = m / 256 := leNat_leBytes 7 _ (by omega)
  have hreverse : (t :: (bytesOf .big 8 m).take 7).reverse = leBytes 7 (m / 256) ++ [t] := rfl
  rw [natOf, hreverse, leNat_append, hlow, leBytes_length]
  simp only [leNat]
  omega

namespace Binary64

/-- The integral mantissa that is encoded. -/
def mantissa (x : Binary64) : Nat := (x.fabs.frexp.1.ldexp doubleMantissaBits).toUInt64

theorem mantissa_of_ne_zero {x : Binary64} (h0 : x.sig ≠ 0) : x.mantissa = x.fullSig :=
  toUInt64_ldexp_frexp x.fabs h0

theorem mantissa_of_zero {x : Binary64} (h0 : x.sig = 0) : x.mantissa = 0 := by
  obtain ⟨hb, hf⟩ := sig_eq_zero.mp h0
  have hzero : x.fabs = zero false := ext_fields rfl hb hf
  rw [mantissa, hzero, frexp, if_pos (zero_sig false), ldexp_zero, toUInt64_zero]

/-- What a big-endian host reads from the encoding of a finite number: the tag and the upper seven bytes
of the mantissa. -/
def crossed (x : Binary64) : Binary64 := ofNat ((if x.isNegative then 0 else 1) * 2 ^ 56 + x.mantissa / 256)

/-- The one double that its encoding reads as. -/
def fixed : Binary64 := ofNat 0x0100101010101010

theorem crossed_positive {x : Binary64} {n : Nat} (hneg : x.isNegative = false) (hm : x.mantissa / 256 = n)
    (hn : n < 2 ^ 52) : x.crossed = ⟨false, 16, n, by decide, hn⟩ := by
  rw [crossed, hm, hneg]
  ext1
  · simp only [ofNat]
    grind
  · simp only [ofNat]
    grind
  · simp only [ofNat]
    grind

/-- The encoding of a finite number reads as the number on a big-endian host for one number only. -/
theorem crossed_canon {x : Binary64} (hfin : x.isFinite) : x.crossed.canon = x.canon ↔ x = fixed := by
  have hnan : x.isNaN = false := by
    simp only [isFinite, bne_iff_ne] at hfin
    simp [isNaN, hfin]
  constructor
  · intro heq
    by_cases h0 : x.sig = 0
    · -- a zero is read as a number whose exponent is the tag
      rw [crossed_positive (isNegative_of_zero h0) (show x.mantissa / 256 = 0 by rw [mantissa_of_zero h0])
        (by decide), canon_of_zero h0] at heq
      cases heq
    · obtain ⟨hlo, hhi⟩ := fullSig_bounds x h0
      rw [canon_of_ne_zero hnan h0] at heq
      cases hneg : x.isNegative with
      | true =>
          -- the sign is not among the bytes that are read
          rw [isNegative_eq hnan h0] at hneg
          have hsign : x.crossed.sign = false := by
            rw [crossed, isNegative_eq hnan h0, hneg, mantissa_of_ne_zero h0]
            simp only [ofNat]
            grind
          have hcanon : x.crossed.canon.sign = false := by
            rw [canon]
            split_ifs
            · rfl
            · rfl
            · exact hsign
          rw [heq, hneg] at hcanon
          cases hcanon
      | false =>
          rw [crossed_positive hneg (by rw [mantissa_of_ne_zero h0]) (by omega)] at heq
          have hread : x = ⟨false, 16, x.fullSig / 256, by decide, by omega⟩ := by
            refine heq.symm.trans ?_
            simp [canon, isNaN]
          have hbexp : x.bexp = 16 := congrArg Binary64.bexp hread
          have hfrac : x.frac = x.fullSig / 256 := congrArg Binary64.frac hread
          have hsig : x.sig = 2 ^ 52 + x.frac := by rw [sig, if_neg (by omega)]
          have hlog : Nat.log2 x.sig = 52 := log_of_normal (by omega) x.sig_lt
          have hfull : x.fullSig = 2 ^ 52 + x.frac := by rw [fullSig, hlog, hsig, Nat.sub_self, pow_zero, mul_one]
          refine hread.trans ?_
          ext1
          · rfl
          · rfl
          · show x.fullSig / 256 = fixed.frac
            have hfixed : fixed.frac = 0x0101010101010 := by decide
            omega
  · rintro rfl
    decide +kernel

end Binary64

theorem eq_of_poke {b b' new : Bytes} (h : poke b new = some b') : b' = new ++ b.drop new.length := by
  rw [poke] at h
  split_ifs at h
  cases h
  rfl

theorem readDouble_tag (t : UInt8) {m : Nat} (hm : m < 2 ^ 64) (more : Bytes) :
    readDouble .big (t :: (bytesOf .big 8 m ++ more)) = some (Binary64.ofNat (t.toNat * 2 ^ 56 + m / 256)) := by
  have hlen : 8 ≤ (t :: (bytesOf .big 8 m ++ more)).length := by
    rw [List.length_cons, List.length_append, bytesOf_length]
    omega
  have htake : (t :: (bytesOf .big 8 m ++ more)).take 8 = t :: (bytesOf .big 8 m).take 7 := rfl
  rw [readDouble_of_length .big hlen, htake, natOf_big_tag t hm]

/-- A big-endian host reads the encoding of a finite double as the tag and the upper mantissa. -/
theorem readDouble_encoded {e : Endian} {b b' : Bytes} {x : Binary64} (hx : readDouble e b = some x)
    (hfin : x.isFinite) (hb : doubleInBufToNetworkOrder e b = some b') : readDouble .big b' = some x.crossed := by
  simp only [Binary64.isFinite, bne_iff_ne] at hfin
  have hm : (x.fabs.frexp.1.ldexp doubleMantissaBits).toUInt64 < 2 ^ 64 :=
    lt_trans (mantissa_lt x.fabs) (by decide)
  rw [doubleInBufToNetworkOrder, hx] at hb
  simp only [Option.bind_eq_bind, Option.bind_some] at hb
  rw [if_neg (by simp [Binary64.isNaN, hfin]), if_neg (by simp [Binary64.isInf, hfin])] at hb
  rw [eq_of_poke hb, List.cons_append, List.append_assoc, readDouble_tag _ hm, Binary64.crossed]
  cases x.isNegative <;> rfl

namespace Binary64

theorem nearest_le (m d : Nat) : nearest m d ≤ m / d + 1 := by
  rw [nearest]
  split_ifs <;> omega

/-- An integer of 64 bits, except zero, is a normal number. -/
theorem ofUInt64_normal {m : Nat} (hpos : 0 < m) (hm : m < 2 ^ 64) :
    0 < (ofUInt64 m).bexp ∧ (ofUInt64 m).bexp < 1100 := by
  have hlog : Nat.log2 m < 64 := (Nat.log2_lt hpos.ne').mpr hm
  have hupper : m < 2 ^ (Nat.log2 m + 1) := Nat.lt_log2_self
  rw [ofUInt64, round, if_neg hpos.ne']
  have hu : roundUnit m 0 = (Nat.log2 m : Int) - 52 := by
    rw [roundUnit]
    omega
  simp only [hu]
  generalize hk : (if ((Nat.log2 m : Int) - 52 ≤ 0) then m * 2 ^ (0 - ((Nat.log2 m : Int) - 52)).toNat
    else nearest m (2 ^ ((Nat.log2 m : Int) - 52 - 0).toNat)) = k
  have hk' : k ≤ 2 ^ 53 := by
    rw [← hk]
    by_cases hle : Nat.log2 m ≤ 52
    · have hscale : (0 - ((Nat.log2 m : Int) - 52)).toNat = 52 - Nat.log2 m := by omega
      have hsmall : m < 2 ^ 53 := lt_of_lt_of_le hupper (Nat.pow_le_pow_right (by decide) (by omega))
      rw [if_pos (by omega), hscale]
      exact (scale_bounds hpos.ne' hsmall).2.le
    · have hscale : ((Nat.log2 m : Int) - 52 - 0).toNat = Nat.log2 m - 52 := by omega
      have hdiv : m / 2 ^ (Nat.log2 m - 52) < 2 ^ 53 := by
        apply Nat.div_lt_of_lt_mul
        rw [← pow_add, show Nat.log2 m - 52 + 53 = Nat.log2 m + 1 by omega]
        exact hupper
      rw [if_neg (by omega), hscale]
      exact le_trans (nearest_le m _) hdiv
  simp only [ofMagnitude]
  omega

/-- Scaling a normal number in the middle of the range changes its exponent. -/
theorem ldexp_bexp {x : Binary64} (hlo : 0 < x.bexp) (hhi : x.bexp < 1100) {n : Int} (hn : 0 ≤ n) (hn' : n ≤ 1) :
    ((x.ldexp n).bexp : Int) = x.bexp + n := by
  have hsig : x.sig = 2 ^ 52 + x.frac := by rw [sig, if_neg (by omega)]
  have hunit : x.unit = x.bexp - 1075 := by
    rw [unit]
    omega
  have hfrac := x.frac_lt
  obtain ⟨-, hbexp, -⟩ := round_normal x.sign (m := x.sig) (q := x.unit + n) (by omega) (by omega) (by omega) (by omega)
  rw [ldexp, if_neg (by omega), hbexp]
  omega

theorem canon_bexp_ne {x : Binary64} (hfin : x.isFinite) : x.canon.bexp ≠ 2047 := by
  simp only [isFinite, bne_iff_ne] at hfin
  rw [canon, if_neg (by simp [isNaN, hfin])]
  split_ifs
  · simp [zero]
  · exact hfin

theorem canon_of_normal {x : Binary64} (hlo : 0 < x.bexp) (hhi : x.bexp < 2047) : x.canon = x := by
  rw [canon, if_neg (by simp [isNaN]; omega), if_neg (by omega)]

end Binary64

/-- The five bytes behind the value of a double, as they may be left by whoever had the memory before. -/
def leftover (n : UInt8) : Bytes := [1, 0, 0, 0, n]

/-- What is read as an encoded double from a tag, seven bytes and a leftover. -/
theorem networkDouble_leftover {t : UInt8} {seven : Bytes} (hlen : seven.length = 7) {n : UInt8} (hn : n ≤ 1)
    {y : Binary64} (hy : networkDouble (t :: (seven ++ leftover n)) = some y) :
    y.canon.bexp = 2047 ∨ (y.canon.bexp : Int) =
      (Binary64.ofUInt64 (natOf .big (seven ++ [1]))).bexp + n.toNat := by
  have hsplit : seven ++ leftover n = seven ++ [1] ++ [0, 0, 0, n] := by simp [leftover]
  have hfront : (seven ++ [1]).length = 8 := by simp [hlen]
  have hexp : toInt32 (natOf .big [0, 0, 0, n]) = n.toNat := by
    have hlt : n.toNat < 256 := n.toNat_lt
    simp only [natOf, leNat, toInt32, List.reverse_cons, List.reverse_nil, List.nil_append, List.cons_append]
    simp
    omega
  have hle : n.toNat ≤ 1 := UInt8.le_iff_toNat_le.mp hn
  have hpos : 0 < natOf .big (seven ++ [1]) := by
    rw [natOf, List.reverse_append, List.reverse_singleton, List.singleton_append, leNat]
    simp
  have hlt := natOf_lt .big (seven ++ [1])
  rw [hfront] at hlt
  obtain ⟨hlo, hhi⟩ := Binary64.ofUInt64_normal hpos hlt
  have hbexp := Binary64.ldexp_bexp hlo hhi (n := n.toNat) (by omega) (by omega)
  rw [networkDouble, hsplit, List.take_left' hfront, List.drop_left' hfront, List.take_of_length_le (by simp),
    hexp] at hy
  split_ifs at hy with h₁ h₂ h₃ h₄ h₅
  · cases hy
    exact Or.inl rfl
  · cases hy
    exact Or.inl rfl
  · cases hy
    exact Or.inl rfl
  · cases hy
    right
    rw [Binary64.canon_of_normal]
    · exact hbexp
    · simp only [Binary64.neg]
      omega
    · simp only [Binary64.neg]
      omega
  · cases hy
    right
    rw [Binary64.canon_of_normal]
    · exact hbexp
    · omega
    · omega

/-- No finite double is what a little-endian host reads whatever was left behind it. -/
theorem networkDouble_varies {x : Binary64} (hfin : x.isFinite) {y z : Binary64}
    (hy : networkDouble (bytesOf .big 8 x.toNat ++ leftover 0) = some y)
    (hz : networkDouble (bytesOf .big 8 x.toNat ++ leftover 1) = some z) : ¬(y.canon = x.canon ∧ z.canon = x.canon) := by
  rintro ⟨hyx, hzx⟩
  have hlen : (bytesOf .big 8 x.toNat).length = 8 := bytesOf_length .big 8 x.toNat
  obtain ⟨t, seven, hb⟩ := List.exists_cons_of_length_pos (l := bytesOf .big 8 x.toNat) (by omega)
  rw [hb, List.cons_append] at hy hz
  have hseven : seven.length = 7 := by
    rw [hb, List.length_cons] at hlen
    omega
  have hfinite := Binary64.canon_bexp_ne hfin
  have hy' := networkDouble_leftover hseven (by decide) hy
  have hz' := networkDouble_leftover hseven (by decide) hz
  rw [hyx] at hy'
  rw [hzx] at hz'
  rcases hy' with hy' | hy'
  · exact hfinite hy'
  · rcases hz' with hz' | hz'
    · exact hfinite hz'
    · simp at hy' hz'
      omega

/-! ### Children -/

/-- The values that a container is built from. -/
inductive Child where
  | int32 (v : Int)
  | uint32 (v : Nat)
  | double (x : Binary64)
  | string (s : Bytes)
  | stringObj (s : Bytes)
  | routeObj (fromServId fromCliId toServId toCliId : Nat)
  deriving DecidableEq

namespace Child

/-- The arguments are in the ranges of their types, doubles finite and strings not empty. -/
def Valid : Child → Prop
  | int32 v => IsInt32 v
  | uint32 v => v < 2 ^ 32
  | double x => x.isFinite
  | string s => s ≠ [] ∧ s.length < 2 ^ 31
  | stringObj s => s ≠ [] ∧ s.length < 2 ^ 31
  | routeObj a b c d => a < 2 ^ 32 ∧ b < 2 ^ 32 ∧ c < 2 ^ 32 ∧ d < 2 ^ 32

/-- What a reader should find. -/
def value : Child → Value
  | int32 v => .int32 v
  | uint32 v => .uint32 v
  | double x => .double x.canon
  | string s => .string s
  | stringObj s => .string s
  | routeObj a b c d => .words [a, b, c, d]

/-- The object on a host, over whatever the memory of its header and its block held; the custom objects
are given a key. -/
def build (e : Endian) (h : Header) (junk : Nat → UInt8) (key : Int) : Child → Option DsonObj
  | int32 v => DsonObj.ofInt32 e h junk v
  | uint32 v => DsonObj.ofUInt32 e h junk v
  | double x => DsonObj.ofDouble e h junk x
  | string s => DsonObj.ofString e h junk s
  | stringObj s => some (.ofStringObj e key s)
  | routeObj a b c d => some (.ofRouteObj e key ⟨Cell.ofNat e a, Cell.ofNat e b, Cell.ofNat e c, Cell.ofNat e d⟩)

theorem value_plain (c : Child) : c.value.Plain := by
  cases c <;> trivial

end Child

/-- An object that is a child, whatever keys it has been given. -/
inductive Made (e : Endian) : DsonObj → Child → Prop
  | build {c : Child} {h : Header} {junk : Nat → UInt8} {key : Int} {o : DsonObj} (hc : c.Valid)
      (hkey : IsInt32 key) (hrun : c.build e h junk key = some o) : Made e o c
  | setKey {c : Child} {o o' : DsonObj} {key : Int} {m m' : Mem} (ho : Made e o c) (hkey : IsInt32 key)
      (hrun : o.setKey e m key = some (o', m')) : Made e o' c

theorem Made.built {e : Endian} {o : DsonObj} {c : Child} (h : Made e o c) : ∃ k, Built e o k (.leaf c.value) := by
  induction h with
  | @build c h junk key o hc hkey hrun =>
      cases c with
      | int32 v => exact ⟨_, .int32 hc hrun⟩
      | uint32 v => exact ⟨_, .uint32 hc hrun⟩
      | double x => exact ⟨_, .double hrun⟩
      | string s => exact ⟨_, .string hc.1 hc.2 hrun⟩
      | stringObj s =>
          cases hrun
          exact ⟨_, .stringObj hkey hc.1 hc.2⟩
      | routeObj a b c d =>
          cases hrun
          obtain ⟨ha, hb, hc', hd⟩ := hc
          have hbuilt : Built e (DsonObj.ofRouteObj e key ⟨Cell.ofNat e a, Cell.ofNat e b, Cell.ofNat e c,
            Cell.ofNat e d⟩) key _ := .routeObj hkey
          rw [Address.words, Cell.toNat_ofNat e ha, Cell.toNat_ofNat e hb, Cell.toNat_ofNat e hc',
            Cell.toNat_ofNat e hd] at hbuilt
          exact ⟨key, hbuilt⟩
  | setKey ho hkey hrun ih =>
      obtain ⟨k, hbuilt⟩ := ih
      exact ⟨_, .setKey hbuilt hkey hrun⟩

/-! ### Children on the wire -/

/-- The block that an object has allocated. -/
def DsonObj.block : DsonObj → Bytes
  | .dson d _ =>
      match d.buf with
      | .own block => block
      | _ => []
  | _ => []

/-- The class of the object, and the header and the block of a `Dson` child that has not been converted. -/
def Child.Suits (e : Endian) : Child → DsonObj → Prop
  | stringObj _, .string _ => True
  | routeObj _ _ _ _, .route _ => True
  | int32 _, .dson d _ => d.headerBuf.isHostOrder e
  | uint32 _, .dson d _ => d.headerBuf.isHostOrder e
  | double x, .dson d _ => d.headerBuf.isHostOrder e ∧ ∃ tail, d.buf = .own (bytesOf e 8 x.toNat ++ tail)
  | string _, .dson d _ => d.headerBuf.isHostOrder e
  | _, _ => False

theorem Made.suits {e : Endian} {o : DsonObj} {c : Child} (h : Made e o c) : c.Suits e o := by
  induction h with
  | @build c h junk key o hc hkey hrun =>
      cases c with
      | int32 v =>
          obtain ⟨rest, heq, -⟩ := ofValue_eq (e := e) h junk TypesMap.int32 (Cell.ofInt e v).bytes
            (by decide : 0 < 4) (by decide) (by simp)
          cases heq.symm.trans hrun
          exact builtHeader_isHostOrder h _ _
      | uint32 v =>
          obtain ⟨rest, heq, -⟩ := ofValue_eq (e := e) h junk TypesMap.uint32 (bytesOf e 4 v)
            (by decide : 0 < 4) (by decide) (by simp)
          cases heq.symm.trans hrun
          exact builtHeader_isHostOrder h _ _
      | double x =>
          obtain ⟨rest, heq, -⟩ := ofValue_eq (e := e) h junk TypesMap.double (bytesOf e 8 x.toNat)
            (by decide : 0 < bufSizeForDouble) (by decide) (by simp [bufSizeForDouble])
          cases heq.symm.trans hrun
          exact ⟨builtHeader_isHostOrder h _ _, rest, rfl⟩
      | string s =>
          obtain ⟨rest, heq, -⟩ := ofValue_eq (e := e) h junk TypesMap.string s
            (List.length_pos_of_ne_nil hc.1) hc.2 le_rfl
          rw [Child.build, DsonObj.ofString, if_neg hc.1] at hrun
          cases heq.symm.trans hrun
          exact builtHeader_isHostOrder h _ _
      | stringObj s =>
          cases hrun
          trivial
      | routeObj a b c d =>
          cases hrun
          trivial
  | @setKey c o o' key m m' ho hkey hrun ih =>
      cases o with
      | string s =>
          cases hrun
          cases c <;> exact ih
      | route r =>
          cases hrun
          cases c <;> exact ih
      | dson d children =>
          obtain ⟨k, hbuilt⟩ := ho.built
          have hparts := hbuilt.holds
          rw [Holds] at hparts
          obtain ⟨-, -, block, hown, -⟩ := hparts
          rw [DsonObj.setKey, Dson.setKey_local (by simp [Dson.headerIsLocal, hown.alloc])] at hrun
          cases hrun
          cases c <;> exact ih

/-- What a child is on the wire in network order: a record of its value. Under the network mark, except
for a string in a `Dson`, which has no converter. -/
structure Child.Sent (e : Endian) (k : Int) (c : Child) (o : DsonObj) (r : Record) : Prop where
  leaf : LeafRecord e k c.value r.header r.payload
  network : (∀ s, c = .string s → e = .big) → r.header.isNetworkOrder e
  host : ∀ s, c = .string s → r.header.isHostOrder e
  double : ∀ x, c = .double x → ∃ tail, o.block = bytesOf e 8 x.toNat ++ tail ∧
    match e with
    | .little => doubleInBufToNetworkOrder .little o.block = some r.payload
    | .big => r.payload = o.block

theorem Made.sent {e : Endian} {o : DsonObj} {c : Child} {k : Int} (h : Made e o c)
    (ho : Holds e o k (.leaf c.value)) : ∃ r : Record, o.wire e true = r.bytes ∧ c.Sent e k o r := by
  have hsuits := h.suits
  cases o with
  | string s =>
      rw [Holds] at ho
      obtain ⟨-, -, hl, ht⟩ := ho
      refine ⟨⟨s.header.toOrder e true, s.object⟩, by rw [DsonObj.wire]; rfl, hl.toOrder_string ht true, fun _ => ?_,
        fun s' hc => ?_, fun x hc => ?_⟩
      · rw [Header.isNetworkOrder_iff, Header.toOrder_mark hl.mark true]
        rfl
      · rw [hc] at hsuits
        exact hsuits.elim
      · rw [hc] at hsuits
        exact hsuits.elim
  | route r =>
      rw [Holds] at ho
      obtain ⟨-, hl, ht⟩ := ho
      refine ⟨⟨(r.toOrder e true).header, (r.toOrder e true).address.bytes⟩, by rw [DsonObj.wire]; rfl,
        hl.route_toOrder ht true, fun _ => ?_, fun s' hc => ?_, fun x hc => ?_⟩
      · refine convertRecord_network hl.mark ?_ (DsonRouteObj.convertRecord_toOrder hl ht true)
        rw [hl.type, ht]
        simp [converterTo, toNetworkOrder]
      · rw [hc] at hsuits
        exact hsuits.elim
      · rw [hc] at hsuits
        exact hsuits.elim
  | dson d children =>
      rw [Holds] at ho
      obtain ⟨-, rfl, block, hown, hl⟩ := ho
      obtain ⟨h', b', hconv, hl', -⟩ := hl.convert true
      refine ⟨⟨h', b'⟩, hown.wire hconv [], hl', fun hbig => ?_, fun s hc => ?_, fun x hc => ?_⟩
      · by_cases hstring : ∃ s, c = .string s
        · obtain ⟨s, rfl⟩ := hstring
          obtain rfl := hbig s rfl
          have hhost : d.headerBuf.isHostOrder .big := hsuits
          rw [convertRecord_big hconv]
          exact hhost
        · refine convertRecord_network hl.mark ?_ hconv
          rw [hl.type]
          cases c with
          | string s => exact absurd ⟨s, rfl⟩ hstring
          | stringObj s => exact hsuits.elim
          | routeObj a b c d => exact hsuits.elim
          | int32 v => simp [converterTo, toNetworkOrder, Child.value, Value.type]
          | uint32 v => simp [converterTo, toNetworkOrder, Child.value, Value.type]
          | double x => simp [converterTo, toNetworkOrder, Child.value, Value.type]
      · subst hc
        have hnone : converterTo e true (d.headerBuf.dataTypeOf e) = none := by
          rw [hl.type]
          rfl
        rw [convertRecord_none hnone] at hconv
        cases hconv
        exact hsuits
      · subst hc
        obtain ⟨hhost, tail, hbuf⟩ := hsuits
        have hblock : block = bytesOf e 8 x.toNat ++ tail := BufPtr.own.inj (hown.buf.symm.trans hbuf)
        refine ⟨tail, by rw [DsonObj.block, hbuf], ?_⟩
        have hown' : (DsonObj.dson d []).block = block := by rw [DsonObj.block, hown.buf]
        rw [hown']
        cases e with
        | big =>
            have hin : d.headerBuf.inOrder .big true := hhost
            rw [convertRecord_inOrder hin] at hconv
            cases hconv
            rfl
        | little =>
            have hin : ¬d.headerBuf.inOrder .little true := by
              intro hnet
              have hnet' : d.headerBuf.isNetworkOrder .little := hnet
              rw [Header.isNetworkOrder_iff] at hnet'
              rw [Header.isHostOrder_iff, hnet'] at hhost
              exact Header.marks_little hhost
            have hsome : converterTo .little true (d.headerBuf.dataTypeOf .little) =
                some fun _ data => doubleInBufToNetworkOrder .little data := by
              rw [hl.type]
              rfl
            rw [convertRecord_some hin hsome] at hconv
            obtain ⟨b'', hb, heq⟩ := Option.map_eq_some_iff.mp hconv
            cases heq
            exact hb

end LeanDson
