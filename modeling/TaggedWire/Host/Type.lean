import TaggedWire.Value

/-! Host types: the types that a program holds its data in, each with the code that its values have on the wire.
Records are named, and a catalog says which members a name stands for, so records may be recursive. -/
namespace TaggedWire

inductive HostType where
  | bool | int8 | int16 | int32 | int64 | double
  | bytes
  /-- Text is UTF-8 on the wire. -/
  | text
  /-- A time is a whole number of seconds since the start of 1970. -/
  | time
  | list (elem : HostType)
  | set (elem : HostType)
  | map (key value : HostType)
  | record (name : String)
deriving DecidableEq

def HostType.code : HostType → TypeCode
  | .bool => .bool
  | .int8 => .byte
  | .int16 => .i16
  | .int32 => .i32
  | .int64 | .time => .i64
  | .double => .double
  | .bytes | .text => .binary
  | .list _ => .list
  | .set _ => .set
  | .map .. => .map
  | .record _ => .struct

structure Member where
  id : Int16
  name : String
  type : HostType
  optional : Bool := false
deriving DecidableEq

def Member.key (m : Member) : FieldKey := ⟨m.id, m.type.code⟩

abbrev Catalog := String → List Member

end TaggedWire
