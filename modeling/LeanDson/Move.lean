import LeanDson.Load
import LeanDson.Copy

/-! Moving. `move_from_other` looks at the object it moves into: a view is filled by two copies of the other
object, and anything else takes over the other object's fields. -/

namespace LeanDson

variable (e : Endian) (junk : Nat → UInt8)

/-- `malloc` of the size a view has: nothing for a size that is no `size_t`, or a block of arbitrary bytes. -/
def Dson.mallocView (d : Dson) (size : Int) : Dson :=
  if size < 0 then { d with bufSize := size, buf := .null }
  else { d with
    bufSize := size
    buf := .own ((List.range size.toNat).map junk)
    wasBufAllocation := true }

/-- A view is filled by a copy through a window of one header, and one through a window of the size it had. -/
def Dson.fillFrom (d : Dson) (children : ObjMap) (other : DsonObj) (m : Mem) : Option (DsonObj × DsonObj × Mem) := do
  let (r, other, m, out) ← other.copyToBufHostOrder e m (BufOut.fresh headerSize)
  let d := { d with headerBuf := d.headerBuf.patch 0 out.out }
  if r = .error ∨ out.room ≠ 0 then return (.dson { d with state := .error } children, other, m)
  let (r, other, m, out) ← other.copyToBufHostOrder e m (BufOut.fresh d.bufSize.toNat)
  let (d, m) ← d.patchBuf m 0 out.out
  if r ≠ .ready ∨ out.room ≠ 0 then return (.dson { d with state := .error } children, other, m)
  return (.dson d children, other, m)

/-- `move_from_other`: the object it is called on, the other object, and the memory around both. -/
def DsonObj.moveFromOther : DsonObj → DsonObj → Mem → Option (DsonObj × DsonObj × Mem)
  | .dson d children, .dson s cs, m =>
      if d.wasBufAllocation = false ∧ d.buf.isNull = false then do
        let size ← DsonObj.dataSize e m (.dson d children)
        let d := d.mallocView junk size
        if d.buf.isNull then return (.dson d children, .dson s cs, m)
        d.fillFrom e children (.dson s cs) m
      else
        some (.dson s cs, .dson { s with state := .error, buf := .null, copyIter := d.copyIter } children, m)
  | _, _, _ => none

end LeanDson
