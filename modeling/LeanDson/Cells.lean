import Mathlib.Data.List.Basic
import Mathlib.Tactic.Ring
import Mathlib.Tactic.NormNum

/-! Byte strings as numbers, and the four-byte cell of memory. A cell keeps its bytes in address
order, so the in-place byte swaps of `htonl` and `ntohl` are operations on cells, while the value a
program reads depends on the endianness of the host. -/

namespace LeanDson

abbrev Bytes := List UInt8

/-- The byte order of a host. -/
inductive Endian where
  | little
  | big
  deriving DecidableEq, Repr

/-! ### Numbers and byte strings -/

/-- The value of a byte string, least significant byte first. -/
def leNat : Bytes → Nat
  | [] => 0
  | b :: bs => b.toNat + 256 * leNat bs

/-- The `w` low bytes of a number, least significant byte first. -/
def leBytes : Nat → Nat → Bytes
  | 0, _ => []
  | w + 1, n => UInt8.ofNat n :: leBytes w (n / 256)

def natOf : Endian → Bytes → Nat
  | .little, bs => leNat bs
  | .big, bs => leNat bs.reverse

def bytesOf : Endian → Nat → Nat → Bytes
  | .little, w, n => leBytes w n
  | .big, w, n => (leBytes w n).reverse

@[simp] theorem leBytes_length (w n : Nat) : (leBytes w n).length = w := by
  induction w generalizing n with
  | zero => rfl
  | succ w ih => simp only [leBytes, List.length_cons, ih]

@[simp] theorem bytesOf_length (e : Endian) (w n : Nat) : (bytesOf e w n).length = w := by
  cases e <;> simp [bytesOf]

theorem leNat_lt (bs : Bytes) : leNat bs < 256 ^ bs.length := by
  induction bs with
  | nil => simp [leNat]
  | cons b bs ih =>
      have hb : b.toNat < 256 := b.toNat_lt
      rw [leNat, List.length_cons, pow_succ]
      omega

theorem leNat_leBytes (w n : Nat) (hn : n < 256 ^ w) : leNat (leBytes w n) = n := by
  induction w generalizing n with
  | zero =>
      have : n = 0 := by simpa using hn
      simp [leBytes, leNat, this]
  | succ w ih =>
      have hdiv : n / 256 < 256 ^ w := by
        rw [pow_succ] at hn
        exact Nat.div_lt_of_lt_mul (by omega)
      rw [leBytes, leNat, ih _ hdiv, UInt8.toNat_ofNat']
      omega

theorem leBytes_leNat (bs : Bytes) : leBytes bs.length (leNat bs) = bs := by
  induction bs with
  | nil => rfl
  | cons b bs ih =>
      have hb : b.toNat < 256 := b.toNat_lt
      have hdiv : (b.toNat + 256 * leNat bs) / 256 = leNat bs := by omega
      have hlow : UInt8.ofNat (b.toNat + 256 * leNat bs) = b := by
        apply UInt8.toNat_inj.mp
        rw [UInt8.toNat_ofNat']
        omega
      rw [List.length_cons, leNat, leBytes, hdiv, ih, hlow]

theorem natOf_lt (e : Endian) (bs : Bytes) : natOf e bs < 256 ^ bs.length := by
  cases e with
  | little => exact leNat_lt bs
  | big => simpa [natOf] using leNat_lt bs.reverse

theorem natOf_bytesOf (e : Endian) (w n : Nat) (hn : n < 256 ^ w) : natOf e (bytesOf e w n) = n := by
  cases e with
  | little => exact leNat_leBytes w n hn
  | big => simpa [natOf, bytesOf] using leNat_leBytes w n hn

theorem bytesOf_natOf (e : Endian) (bs : Bytes) : bytesOf e bs.length (natOf e bs) = bs := by
  cases e with
  | little => exact leBytes_leNat bs
  | big =>
      have h := leBytes_leNat bs.reverse
      rw [List.length_reverse] at h
      rw [bytesOf, natOf, h, List.reverse_reverse]

def Endian.flip : Endian → Endian
  | .little => .big
  | .big => .little

/-- Reversed bytes read in the other order give the same number. -/
theorem natOf_flip_reverse (e : Endian) (bs : Bytes) : natOf e.flip bs.reverse = natOf e bs := by
  cases e with
  | little => rw [Endian.flip, natOf, natOf, List.reverse_reverse]
  | big => rfl

/-! ### Two's complement -/

/-- The signed reading of a 32-bit number. -/
def toInt32 (n : Nat) : Int := if n < 2 ^ 31 then n else n - 2 ^ 32

/-- The signed reading of a 64-bit number. -/
def toInt64 (n : Nat) : Int := if n < 2 ^ 63 then n else n - 2 ^ 64

/-- The 32-bit pattern of an integer. -/
def ofInt32 (i : Int) : Nat := (i % 2 ^ 32).toNat

/-- What a 32-bit signed addition leaves of its exact result. -/
def wrap32 (i : Int) : Int := toInt32 (ofInt32 i)

/-- The values of a 32-bit signed integer. -/
def IsInt32 (i : Int) : Prop := -2 ^ 31 ≤ i ∧ i < 2 ^ 31

instance (i : Int) : Decidable (IsInt32 i) := inferInstanceAs (Decidable (_ ∧ _))

theorem ofInt32_lt (i : Int) : ofInt32 i < 2 ^ 32 := by
  simp only [ofInt32]
  omega

theorem toInt32_isInt32 {n : Nat} (hn : n < 2 ^ 32) : IsInt32 (toInt32 n) := by
  simp only [IsInt32, toInt32]
  split <;> omega

theorem ofInt32_cast (i : Int) : (ofInt32 i : Int) = i % 2 ^ 32 := by
  simp only [ofInt32]
  omega

theorem toInt32_ofInt32 {i : Int} (hi : IsInt32 i) : toInt32 (ofInt32 i) = i := by
  obtain ⟨h1, h2⟩ := hi
  have hcast := ofInt32_cast i
  rw [toInt32]
  split <;> omega

theorem ofInt32_toInt32 {n : Nat} (hn : n < 2 ^ 32) : ofInt32 (toInt32 n) = n := by
  simp only [toInt32, ofInt32]
  split <;> omega

theorem wrap32_of_isInt32 {i : Int} (hi : IsInt32 i) : wrap32 i = i := toInt32_ofInt32 hi

theorem wrap32_le {i : Int} (hi : 0 ≤ i) : wrap32 i ≤ i := by
  have hcast := ofInt32_cast i
  rw [wrap32, toInt32]
  split_ifs <;> omega

theorem wrap32_emod (i : Int) : wrap32 i % 2 ^ 32 = i % 2 ^ 32 := by
  have hlt := ofInt32_lt i
  have hcast := ofInt32_cast i
  rw [wrap32, toInt32]
  split_ifs <;> omega

theorem wrap32_congr {i j : Int} (h : i % 2 ^ 32 = j % 2 ^ 32) : wrap32 i = wrap32 j := by
  rw [wrap32, wrap32, ofInt32, ofInt32, h]

/-- The subtrahend of a wrapped difference may be wrapped first. -/
theorem wrap32_sub_wrap32 (i j : Int) : wrap32 (i - wrap32 j) = wrap32 (i - j) := by
  apply wrap32_congr
  rw [Int.sub_emod, wrap32_emod, ← Int.sub_emod]

theorem wrap32_add_left (i j : Int) : wrap32 (wrap32 i + j) = wrap32 (i + j) := by
  apply wrap32_congr
  rw [Int.add_emod, wrap32_emod, ← Int.add_emod]

theorem wrap32_add_right (i j : Int) : wrap32 (i + wrap32 j) = wrap32 (i + j) := by
  rw [Int.add_comm, wrap32_add_left, Int.add_comm]

theorem wrap32_isInt32 (i : Int) : IsInt32 (wrap32 i) := toInt32_isInt32 (ofInt32_lt i)

/-! ### Cells -/

/-- A four-byte cell of memory, its bytes in address order. -/
structure Cell where
  b0 : UInt8
  b1 : UInt8
  b2 : UInt8
  b3 : UInt8
  deriving DecidableEq, Repr

namespace Cell

def bytes (c : Cell) : Bytes := [c.b0, c.b1, c.b2, c.b3]

/-- The cell with its bytes in the opposite order. -/
def swap (c : Cell) : Cell := ⟨c.b3, c.b2, c.b1, c.b0⟩

/-- The unsigned value a host reads from a cell. -/
def toNat (e : Endian) (c : Cell) : Nat := natOf e c.bytes

def ofNat (e : Endian) (n : Nat) : Cell :=
  match bytesOf e 4 n with
  | [b0, b1, b2, b3] => ⟨b0, b1, b2, b3⟩
  | _ => ⟨0, 0, 0, 0⟩

/-- The signed value a host reads from a cell. -/
def int32 (e : Endian) (c : Cell) : Int := toInt32 (c.toNat e)

def ofInt (e : Endian) (i : Int) : Cell := ofNat e (ofInt32 i)

/-- `htonl` applied in place: the identity on a big-endian host. -/
def htonl (e : Endian) (c : Cell) : Cell :=
  match e with
  | .little => c.swap
  | .big => c

/-- `ntohl` applied in place. -/
def ntohl (e : Endian) (c : Cell) : Cell := c.htonl e

@[simp] theorem bytes_length (c : Cell) : c.bytes.length = 4 := rfl

@[simp] theorem swap_swap (c : Cell) : c.swap.swap = c := rfl

@[simp] theorem bytes_swap (c : Cell) : c.swap.bytes = c.bytes.reverse := rfl

@[simp] theorem htonl_htonl (e : Endian) (c : Cell) : (c.htonl e).htonl e = c := by
  cases e <;> rfl

theorem bytes_inj {c d : Cell} (h : c.bytes = d.bytes) : c = d := by
  cases c
  cases d
  simp only [bytes, List.cons.injEq, and_true] at h
  simp only [mk.injEq]
  exact h

@[simp] theorem bytes_ofNat (e : Endian) (n : Nat) : (ofNat e n).bytes = bytesOf e 4 n := by
  cases e <;> rfl

theorem toNat_lt (e : Endian) (c : Cell) : c.toNat e < 2 ^ 32 := by
  have h := natOf_lt e c.bytes
  rwa [bytes_length, show 256 ^ 4 = 2 ^ 32 by norm_num] at h

theorem toNat_ofNat (e : Endian) {n : Nat} (hn : n < 2 ^ 32) : (ofNat e n).toNat e = n := by
  rw [toNat, bytes_ofNat]
  exact natOf_bytesOf e 4 n (by norm_num; omega)

theorem ofNat_toNat (e : Endian) (c : Cell) : ofNat e (c.toNat e) = c := by
  apply bytes_inj
  rw [bytes_ofNat]
  exact bytesOf_natOf e c.bytes

theorem int32_isInt32 (e : Endian) (c : Cell) : IsInt32 (c.int32 e) := toInt32_isInt32 (c.toNat_lt e)

theorem int32_ofInt_wrap (e : Endian) (i : Int) : (ofInt e i).int32 e = wrap32 i := by
  rw [int32, ofInt, toNat_ofNat e (ofInt32_lt i), wrap32]

@[simp] theorem int32_ofInt (e : Endian) {i : Int} (hi : IsInt32 i) : (ofInt e i).int32 e = i := by
  rw [int32_ofInt_wrap, wrap32_of_isInt32 hi]

@[simp] theorem ofInt_int32 (e : Endian) (c : Cell) : ofInt e (c.int32 e) = c := by
  rw [int32, ofInt, ofInt32_toInt32 (c.toNat_lt e), ofNat_toNat]

theorem int32_inj (e : Endian) {c d : Cell} (h : c.int32 e = d.int32 e) : c = d := by
  rw [← ofInt_int32 e c, h, ofInt_int32]

/-- Network order is the big-endian reading on every host. -/
@[simp] theorem toNat_htonl (e : Endian) (c : Cell) : (c.htonl e).toNat e = c.toNat .big := by
  cases e <;> rfl

@[simp] theorem int32_htonl (e : Endian) (c : Cell) : (c.htonl e).int32 e = c.int32 .big := by
  rw [int32, int32, toNat_htonl]

@[simp] theorem htonl_ofNat (e : Endian) (n : Nat) : (ofNat e n).htonl e = ofNat .big n := by
  cases e <;> rfl

end Cell

/-- A network-order cell read as a host integer. -/
def int32ToHost (e : Endian) (c : Cell) : Int := (c.ntohl e).int32 e

/-- A host integer as a network-order cell. -/
def int32ToNetwork (e : Endian) (i : Int) : Cell := (Cell.ofInt e i).htonl e

@[simp] theorem int32ToHost_eq (e : Endian) (c : Cell) : int32ToHost e c = c.int32 .big :=
  Cell.int32_htonl e c

@[simp] theorem int32ToNetwork_eq (e : Endian) (i : Int) : int32ToNetwork e i = Cell.ofInt .big i :=
  Cell.htonl_ofNat e _

end LeanDson
