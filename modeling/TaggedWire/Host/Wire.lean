import TaggedWire.Host.Value
import TaggedWire.Codec.Error

/-! Host values on the wire, and back. Reading checks the codes of a container's entries only if it has some,
since writers of empty containers do not always fill them in. A member is read from the first field with its
id and code; any other field with that id does not count. -/
namespace TaggedWire

/-- One of each, in a set: the last of equal elements stays. -/
def distinct {α : Type} [DecidableEq α] : List α → List α
  | [] => []
  | x :: xs => if x ∈ xs then distinct xs else x :: distinct xs

/-- One entry a key, in a map: the last of those with equal keys stays. -/
def lastEntries {κ α : Type} [DecidableEq κ] : List (κ × α) → List (κ × α)
  | [] => []
  | x :: xs => if ∃ y ∈ xs, y.1 = x.1 then lastEntries xs else x :: lastEntries xs

def HostValue.setOf (xs : List HostValue) : HostValue := .set (distinct xs)

def HostValue.mapOf (xs : List (HostValue × HostValue)) : HostValue := .map (lastEntries xs)

/-- The seconds that the calendar of times has a date for: from -262143-01-01 00:00:00 to 262142-12-31 23:59:59, the year 0
coming before the year 1. -/
def timeInRange (seconds : Int64) : Bool := -8334601228800 ≤ seconds && seconds ≤ 8210266876799

def expectCode (expected actual : TypeCode) : Except DecodeError Unit :=
  if actual = expected then .ok () else .error (.typeMismatch expected actual)

/-- The slot of a member from what its field gave, if there was one: what is there but cannot be converted is
an error also for an optional member. -/
def Member.settle (m : Member) : Option (Except DecodeError HostValue) →
    Except DecodeError (Option HostValue)
  | some r => r.map some
  | none => if m.optional then .ok none else .error (.missingRequiredField m.id)

mutual
def fromWire (catalog : Catalog) : Value → HostType → Except DecodeError HostValue
  | .bool b, .bool => .ok (.bool b)
  | .byte n, .int8 => .ok (.int8 n)
  | .i16 n, .int16 => .ok (.int16 n)
  | .i32 n, .int32 => .ok (.int32 n)
  | .i64 n, .int64 => .ok (.int64 n)
  | .double bits, .double => .ok (.double bits)
  | .binary bs, .bytes => .ok (.bytes bs)
  | .binary bs, .text =>
    match bs.text? with
    | some s => .ok (.text s)
    | none => .error .invalidText
  | .i64 n, .time => if timeInRange n then .ok (.time n) else .error (.invalidTimestamp n)
  | .list c vs, .list elem => do
    unless vs.isEmpty do expectCode elem.code c
    return .list (← fromWireAll catalog vs elem)
  | .set c vs, .set elem => do
    unless vs.isEmpty do expectCode elem.code c
    return .setOf (← fromWireAll catalog vs elem)
  | .map k c xs, .map key value => do
    unless xs.isEmpty do
      expectCode key.code k
      expectCode value.code c
    return .mapOf (← fromWireItems catalog xs key value)
  | .struct fs, .record name =>
    return .record (← (catalog name).mapM fun m => m.settle (fromWireField catalog fs m.key m.type))
  | v, t => .error (.typeMismatch t.code v.typeCode)
termination_by structural v => v

def fromWireAll (catalog : Catalog) : List Value → HostType → Except DecodeError (List HostValue)
  | [], _ => .ok []
  | v :: vs, t => return (← fromWire catalog v t) :: (← fromWireAll catalog vs t)
termination_by structural vs => vs

def fromWireItems (catalog : Catalog) : List (Value × Value) → HostType → HostType →
    Except DecodeError (List (HostValue × HostValue))
  | [], _, _ => .ok []
  | (k, v) :: xs, key, value =>
    return (← fromWire catalog k key, ← fromWire catalog v value) ::
      (← fromWireItems catalog xs key value)
termination_by structural xs => xs

def fromWireField (catalog : Catalog) : List Field → FieldKey → HostType →
    Option (Except DecodeError HostValue)
  | [], _, _ => none
  | (k, v) :: fs, key, t =>
    if k = key then some (fromWire catalog v t) else fromWireField catalog fs key t
termination_by structural fs => fs
end

/-- Only the first field with the key counts. -/
theorem fromWireField_eq (catalog : Catalog) (fields : List Field) (key : FieldKey) (t : HostType) :
    fromWireField catalog fields key t = (fieldAt fields key).map fun v => fromWire catalog v t := by
  induction fields with
  | nil => rfl
  | cons f fs ih =>
    obtain ⟨k, v⟩ := f
    by_cases h : k = key
    · simp [fromWireField, fieldAt, h]
    · have h' : (key == k) = false := by simpa using fun e => h e.symm
      simp [fromWireField, fieldAt, List.lookup_cons, h, h', ih]

def readMember (catalog : Catalog) (fields : List Field) (m : Member) :
    Except DecodeError (Option HostValue) :=
  m.settle (fromWireField catalog fields m.key m.type)

/-- The fields of a struct; any other value is a mismatch. -/
def structFields : Value → Except DecodeError (List Field)
  | .struct fs => .ok fs
  | v => .error (.typeMismatch .struct v.typeCode)

def fitted {α : Type} : Except Misfit α → Except EncodeError α
  | .ok a => .ok a
  | .error m => .error (.misfit m)

mutual
def toWire (catalog : Catalog) : HostValue → HostType → Except EncodeError Value
  | .bool b, .bool => .ok (.bool b)
  | .int8 n, .int8 => .ok (.byte n)
  | .int16 n, .int16 => .ok (.i16 n)
  | .int32 n, .int32 => .ok (.i32 n)
  | .int64 n, .int64 => .ok (.i64 n)
  | .double bits, .double => .ok (.double bits)
  | .bytes bs, .bytes => .ok (.binary bs)
  | .text s, .text => .ok (.binary (Bytes.ofText s))
  | .time s, .time => .ok (.i64 s)
  | .list xs, .list elem => do fitted (Value.checkedList elem.code (← toWireAll catalog xs elem))
  | .set xs, .set elem => do fitted (Value.checkedSet elem.code (← toWireAll catalog xs elem))
  | .map xs, .map key value => do
    fitted (Value.checkedMap key.code value.code (← toWireItems catalog xs key value))
  | .record slots, .record name => return .struct (← toWireSlots catalog slots (catalog name))
  | _, t => .error (.notOfType t.code)
termination_by structural x => x

def toWireAll (catalog : Catalog) : List HostValue → HostType → Except EncodeError (List Value)
  | [], _ => .ok []
  | x :: xs, t => return (← toWire catalog x t) :: (← toWireAll catalog xs t)
termination_by structural xs => xs

def toWireItems (catalog : Catalog) : List (HostValue × HostValue) → HostType → HostType →
    Except EncodeError (List (Value × Value))
  | [], _, _ => .ok []
  | (k, x) :: xs, key, value =>
    return (← toWire catalog k key, ← toWire catalog x value) ::
      (← toWireItems catalog xs key value)
termination_by structural xs => xs

/-- A field for each filled slot; an empty one is skipped where the member is optional. -/
def toWireSlots (catalog : Catalog) : List (Option HostValue) → List Member →
    Except EncodeError (List Field)
  | [], [] => .ok []
  | none :: xs, m :: ms =>
    if m.optional then toWireSlots catalog xs ms else .error (.notOfType m.type.code)
  | some x :: xs, m :: ms => do
    let f ← fitted (Value.checkedField m.key (← toWire catalog x m.type))
    return f :: (← toWireSlots catalog xs ms)
  | _, _ => .error (.notOfType .struct)
termination_by structural xs => xs
end

/-- A struct built from members and their slots. -/
def structOf (catalog : Catalog) (entries : List (Member × Option HostValue)) : Except EncodeError Value :=
  return .struct (← toWireSlots catalog (entries.map Prod.snd) (entries.map Prod.fst))

end TaggedWire
