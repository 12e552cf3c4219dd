import TaggedWire.Codec.Reader

/-! From bytes back to values, with a limit on the nesting. A container or struct first takes one level of the
limit, so siblings do not use up one another's levels. A count is believed only if that many entries of the
least length would fit into the bytes that are left. -/
namespace TaggedWire
namespace Reader

def fit {α : Type} : Except Misfit α → Reader α
  | .ok a => return a
  | .error m => throw (.misfit m)

def codeOf (b : UInt8) : Reader TypeCode :=
  match TypeCode.ofByte? b with
  | some c => return c
  | none => throw (.invalidTypeCode b)

def typeCode : Reader TypeCode := do codeOf (← uint8)

/-- A count of entries that take at least `minLength` bytes each. -/
def count (minLength : Nat) : Reader Nat := do
  let n ← int32
  if n < 0 then throw (.negativeLength n)
  demand (n.toInt.toNat * minLength)
  return n.toInt.toNat

/-- Fields up to the stop byte. A field takes bytes, so there are no more fields than bytes in `bound`, which is
what the struct was read from; when `bound` is used up no byte is left to read. -/
def fields (element : TypeCode → Reader Value) : (bound : Bytes) → Reader (List Field)
  | [] => throw (.insufficientData 1 0)
  | _ :: bound => do
    let tag ← uint8
    if tag = TypeCode.stop then return []
    let code ← codeOf tag
    let id ← int16
    let v ← element code
    let f ← fit (Value.checkedField ⟨id, code⟩ v)
    return f :: (← fields element bound)

def struct (element : TypeCode → Reader Value) : Reader Value := do
  return .struct (← fields element (← get))

def map (element : TypeCode → Reader Value) : Reader Value := do
  let key ← typeCode
  let value ← typeCode
  let n ← count (key.minLength + value.minLength)
  let items ← times (return (← element key, ← element value)) n
  fit (Value.checkedMap key value items)

def sequence (build : TypeCode → List Value → Except Misfit Value)
    (element : TypeCode → Reader Value) : Reader Value := do
  let code ← typeCode
  let n ← count code.minLength
  let values ← times (element code) n
  fit (build code values)

/-- A value of the given code, with `levels` of the `limit` still free. -/
def value (limit : Nat) : (levels : Nat) → TypeCode → Reader Value
  | _, .bool => return .bool ((← uint8) != 0)
  | _, .byte => return .byte (← int8)
  | _, .double => return .double (← uint64)
  | _, .i16 => return .i16 (← int16)
  | _, .i32 => return .i32 (← int32)
  | _, .i64 => return .i64 (← int64)
  | _, .binary => do return .binary (← take (← count 1))
  | 0, _ => throw (.depthLimitExceeded limit)
  | levels + 1, .struct => struct fun c => value limit levels c
  | levels + 1, .map => map fun c => value limit levels c
  | levels + 1, .set => sequence Value.checkedSet fun c => value limit levels c
  | levels + 1, .list => sequence Value.checkedList fun c => value limit levels c

end Reader
end TaggedWire
