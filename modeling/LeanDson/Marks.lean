import LeanDson.Views
import LeanDson.Widths
import LeanDson.Inversion

/-! Byte-order marks. Nothing validates the mark of a header: the accessors take any mark but that of the host
for network order, and a conversion swaps the mark with the rest. What a header says survives when the mark is
one of the two, or when the words read the same in both orders; a payload survives when it is as wide as its
type. -/

namespace LeanDson

/-! ### Headers -/

namespace Header

variable (e : Endian) (network : Bool) (h : Header)

/-- A conversion of the header alone keeps what it says. -/
def Turns : Prop :=
  h.inOrder e network ∨ h.ValidMark e ∨
    (h.dataSize.ntohl e = h.dataSize ∧ h.key.ntohl e = h.key ∧ h.dataType.ntohl e = h.dataType)

instance : Decidable (h.Turns e network) := inferInstanceAs (Decidable (_ ∨ _ ∨ (_ ∧ _ ∧ _)))

/-- A conversion of the object leaves it alone or settles its mark. -/
def Settles : Prop :=
  h.inOrder e network ∨ (converterTo e network (h.dataTypeOf e)).isNone ∨ h.ValidMark e

instance : Decidable (h.Settles e network) := inferInstanceAs (Decidable (_ ∨ _ ∨ _))

end Header

namespace Header

variable {e : Endian} {network : Bool} {h : Header}

/-- A word that reads the same in both orders, in a header that is converted. -/
theorem field_swapWords {c : Cell} (hc : h.ValidMark e ∨ c.ntohl e = c) :
    (h.swapWords e).field e (c.ntohl e) = h.field e c := by
  by_cases hv : h.ValidMark e
  · rw [field_eq, field_eq]
    exact order_swapWords hv c
  · have hsame := hc.resolve_left hv
    have hhost : ¬h.isHostOrder e := fun hin => hv (Or.inl hin)
    have hhost' : ¬(h.swapWords e).isHostOrder e ∨ e = .big := by
      cases e with
      | big => exact Or.inr rfl
      | little =>
          refine Or.inl fun hin => hv (Or.inr ?_)
          rw [isHostOrder_iff] at hin
          rw [isNetworkOrder_iff, markNetworkOrder, ← hin]
          rfl
    rw [hsame, field_eq, field_eq, order, order, if_neg hhost]
    rcases hhost' with hne | rfl
    · rw [if_neg hne]
    · rw [swapWords_big, if_neg hhost]

theorem keyOf_turned (hc : h.inOrder e network ∨ h.ValidMark e ∨ h.key.ntohl e = h.key) :
    (h.toOrder e network).keyOf e = h.keyOf e := by
  by_cases hin : h.inOrder e network
  · rw [toOrder_of_inOrder hin]
  · rcases h.toOrder_cases network (e := e) with heq | heq
    · rw [heq]
    · rw [heq]
      exact field_swapWords (hc.resolve_left hin)

theorem dataTypeOf_turned (hc : h.inOrder e network ∨ h.ValidMark e ∨ h.dataType.ntohl e = h.dataType) :
    (h.toOrder e network).dataTypeOf e = h.dataTypeOf e := by
  by_cases hin : h.inOrder e network
  · rw [toOrder_of_inOrder hin]
  · rcases h.toOrder_cases network (e := e) with heq | heq
    · rw [heq]
    · rw [heq]
      exact field_swapWords (hc.resolve_left hin)

theorem dataSizeOf_turned (hc : h.inOrder e network ∨ h.ValidMark e ∨ h.dataSize.ntohl e = h.dataSize) :
    (h.toOrder e network).dataSizeOf e = h.dataSizeOf e := by
  by_cases hin : h.inOrder e network
  · rw [toOrder_of_inOrder hin]
  · rcases h.toOrder_cases network (e := e) with heq | heq
    · rw [heq]
    · rw [heq]
      exact field_swapWords (hc.resolve_left hin)

theorem Turns.key (ht : h.Turns e network) : (h.toOrder e network).keyOf e = h.keyOf e :=
  keyOf_turned (ht.imp_right fun h => h.imp_right fun h => h.2.1)

theorem Turns.dataType (ht : h.Turns e network) : (h.toOrder e network).dataTypeOf e = h.dataTypeOf e :=
  dataTypeOf_turned (ht.imp_right fun h => h.imp_right fun h => h.2.2)

theorem Turns.dataSize (ht : h.Turns e network) : (h.toOrder e network).dataSizeOf e = h.dataSizeOf e :=
  dataSizeOf_turned (ht.imp_right fun h => h.imp_right fun h => h.1)

/-- The size of a header may be set before it is converted. -/
theorem Turns.setDataSize_key (ht : h.Turns e network) (size : Int) :
    ((h.setDataSize e size).toOrder e network).keyOf e = h.keyOf e :=
  (keyOf_turned (h := h.setDataSize e size) (ht.imp_right fun h => h.imp_right fun h => h.2.1)).trans
    (h.keyOf_setDataSize size)

theorem Turns.setDataSize_dataType (ht : h.Turns e network) (size : Int) :
    ((h.setDataSize e size).toOrder e network).dataTypeOf e = h.dataTypeOf e :=
  (dataTypeOf_turned (h := h.setDataSize e size) (ht.imp_right fun h => h.imp_right fun h => h.2.2)).trans
    (h.dataTypeOf_setDataSize size)

end Header

/-! ### Records -/

/-- Two records that say the same of payloads of the same length. -/
structure Record.Alike (e : Endian) (r r' : Record) : Prop where
  key : r'.key e = r.key e
  type : r'.header.dataTypeOf e = r.header.dataTypeOf e
  size : r'.header.dataSizeOf e = r.header.dataSizeOf e
  length : r'.payload.length = r.payload.length

theorem Record.Alike.refl (e : Endian) (r : Record) : r.Alike e r := ⟨rfl, rfl, rfl, rfl⟩

theorem Record.Alike.fits {e : Endian} {r r' : Record} (ha : r.Alike e r') (hfits : r.Fits e) : r'.Fits e := by
  refine ⟨?_, ?_⟩
  · rw [ha.key]
    exact hfits.1
  · rw [ha.size, hfits.2, ha.length]

/-- A conversion of the object stays inside its payload. -/
def Record.Roomy (e : Endian) (network : Bool) (r : Record) : Prop :=
  r.header.inOrder e network ∨ (converterTo e network (r.header.dataTypeOf e)).isNone ∨
    reach e network (r.header.dataTypeOf e) r.payload ≤ r.payload.length

instance (e : Endian) (network : Bool) (r : Record) : Decidable (r.Roomy e network) :=
  inferInstanceAs (Decidable (_ ∨ _ ∨ _))

/-- A conversion of a record that settles and stays inside the payload: it keeps what the header says, reaches
the order when the type has a converter, and does nothing when it is repeated. -/
theorem Record.convert {e : Endian} {network : Bool} {r : Record} (hfits : r.header.dataSizeOf e = r.payload.length)
    (hsettles : r.header.Settles e network) (hroomy : r.Roomy e network) :
    ∃ r', convertRecord e network r.header r.payload = some (r'.header, r'.payload) ∧ r.Alike e r' ∧
      ((converterTo e network (r.header.dataTypeOf e)).isSome → r'.header.inOrder e network) ∧
      convertRecord e network r'.header r'.payload = some (r'.header, r'.payload) := by
  by_cases hin : r.header.inOrder e network
  · exact ⟨r, convertRecord_inOrder hin _, .refl e r, fun _ => hin, convertRecord_inOrder hin _⟩
  cases hconv : converterTo e network (r.header.dataTypeOf e) with
  | none =>
      exact ⟨r, convertRecord_none hconv _, .refl e r, fun h => Bool.noConfusion h, convertRecord_none hconv _⟩
  | some c =>
      have hv : r.header.ValidMark e := by
        rcases hsettles with h | h | h
        · exact absurd h hin
        · rw [hconv] at h
          cases h
        · exact h
      have hreach : reach e network (r.header.dataTypeOf e) r.payload ≤ r.payload.length := by
        rcases hroomy with h | h | h
        · exact absurd h hin
        · rw [hconv] at h
          cases h
        · exact h
      obtain ⟨rfl, hhost, -⟩ := Header.little_of_not_inOrder hv hin
      have hready : (if network then r.header else r.header.toHost .little).isHostOrder .little ∧
          (if network then r.header else r.header.toHost .little).dataSizeOf .little = r.payload.length := by
        cases network with
        | true => exact ⟨hhost, hfits⟩
        | false =>
            exact ⟨Header.inOrder_toOrder hv false, (Header.dataSizeOf_toOrder hv false).trans hfits⟩
      have hwords : 4 * arraySize .little (if network then r.header else r.header.toHost .little) ≤ r.payload.length := by
        rw [arraySize_eq hready.1 hready.2]
        omega
      obtain ⟨b', hb⟩ := Option.isSome_iff_exists.mp ((converter_isSome_iff hconv hwords).mpr hreach)
      have hrun : convertRecord .little network r.header r.payload = some (r.header.toOrder .little network, b') := by
        rw [convertRecord_some hin hconv, hb]
        rfl
      refine ⟨⟨r.header.toOrder .little network, b'⟩, hrun, ⟨?_, ?_, ?_, (convertRecord_local hrun).1⟩, ?_, ?_⟩
      · exact Header.keyOf_toOrder hv network
      · exact Header.dataTypeOf_toOrder hv network
      · exact Header.dataSizeOf_toOrder hv network
      · exact fun _ => Header.inOrder_toOrder hv network
      · exact convertRecord_inOrder (Header.inOrder_toOrder hv network) _

/-! ### Blocks of records -/

/-- The records of a block, one after the other as they say the same. -/
abbrev AlikeAll (e : Endian) : List Record → List Record → Prop := List.Forall₂ (Record.Alike e)

theorem AlikeAll.refl (e : Endian) : ∀ recs : List Record, AlikeAll e recs recs
  | [] => .nil
  | r :: recs => .cons (.refl e r) (AlikeAll.refl e recs)

theorem AlikeAll.trans {e : Endian} {as bs cs : List Record} (h : AlikeAll e as bs) (h' : AlikeAll e bs cs) :
    AlikeAll e as cs := by
  induction h generalizing cs with
  | nil =>
      cases h'
      exact .nil
  | cons hab _ ih =>
      cases h' with
      | cons hbc htail =>
          exact .cons ⟨hbc.key.trans hab.key, hbc.type.trans hab.type, hbc.size.trans hab.size,
            hbc.length.trans hab.length⟩ (ih htail)

/-- One record in the place of another. -/
theorem AlikeAll.set {e : Endian} {r r' : Record} (ha : r.Alike e r') :
    ∀ {recs : List Record} {i : Nat}, recs[i]? = some r → AlikeAll e recs (recs.set i r')
  | [], _, h => by cases h
  | _ :: recs, 0, h => by
      cases h
      exact .cons ha (AlikeAll.refl e recs)
  | _ :: _, i + 1, h => .cons (.refl e _) (AlikeAll.set ha (i := i) h)

section

variable {e : Endian} {recs recs' : List Record} (h : AlikeAll e recs recs')

include h

theorem AlikeAll.length_take (i : Nat) :
    (recordsBytes (recs'.take i)).length = (recordsBytes (recs.take i)).length := by
  induction h generalizing i with
  | nil => rfl
  | cons ha _ ih =>
      cases i with
      | zero => rfl
      | succ i => simp [ih i, ha.length]

theorem AlikeAll.getElem? {i : Nat} {r : Record} (hr : recs[i]? = some r) : ∃ r', recs'[i]? = some r' ∧ r.Alike e r' := by
  induction h generalizing i with
  | nil => cases hr
  | cons ha _ ih =>
      cases i with
      | zero =>
          cases hr
          exact ⟨_, rfl, ha⟩
      | succ i => exact ih hr

theorem AlikeAll.fits (hfits : ∀ r ∈ recs, Record.Fits e r) : ∀ r ∈ recs', Record.Fits e r := by
  induction h with
  | nil => exact hfits
  | cons ha _ ih =>
      rw [List.forall_mem_cons] at hfits ⊢
      exact ⟨ha.fits hfits.1, ih hfits.2⟩

end

/-- The block in front of a record, the record and the block behind it. -/
theorem recordsBytes_split {recs : List Record} {i : Nat} {r : Record} (hr : recs[i]? = some r) (r' : Record) :
    recordsBytes (recs.set i r') =
      recordsBytes (recs.take i) ++ (r'.header.bytes ++ (r'.payload ++ recordsBytes (recs.drop (i + 1)))) := by
  obtain ⟨hi, -⟩ := List.getElem?_eq_some_iff.mp hr
  rw [List.set_eq_take_append_cons_drop, if_pos hi, recordsBytes_append, recordsBytes_cons, Record.bytes]
  simp only [List.append_assoc]

theorem Record.set_self {recs : List Record} {i : Nat} {r : Record} (hr : recs[i]? = some r) :
    recs.set i r = recs := by
  obtain ⟨hi, rfl⟩ := List.getElem?_eq_some_iff.mp hr
  exact List.set_getElem_self hi

end LeanDson
