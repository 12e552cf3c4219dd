/-! Type codes: the one-byte tags that say how the bytes after them are to be read. -/
namespace TaggedWire

inductive TypeCode where
  | bool | byte | double | i16 | i32 | i64 | binary | struct | map | set | list
deriving DecidableEq

namespace TypeCode

def all : List TypeCode :=
  [.bool, .byte, .double, .i16, .i32, .i64, .binary, .struct, .map, .set, .list]

theorem mem_all (c : TypeCode) : c ∈ all := by cases c <;> decide

def toByte : TypeCode → UInt8
  | .bool => 0x02
  | .byte => 0x03
  | .double => 0x04
  | .i16 => 0x06
  | .i32 => 0x08
  | .i64 => 0x0A
  | .binary => 0x0B
  | .struct => 0x0C
  | .map => 0x0D
  | .set => 0x0E
  | .list => 0x0F

/-- The byte that closes the fields of a struct; no type code has it. -/
def stop : UInt8 := 0x00

theorem toByte_ne_stop (c : TypeCode) : c.toByte ≠ stop := by cases c <;> decide

def ofByte? (b : UInt8) : Option TypeCode := all.find? fun c => c.toByte == b

theorem ofByte?_eq_some_iff {b : UInt8} {c : TypeCode} : ofByte? b = some c ↔ c.toByte = b := by
  constructor
  · intro h
    simpa using List.find?_some h
  · rintro rfl
    cases c <;> decide

def name : TypeCode → String
  | .bool => "bool"
  | .byte => "byte"
  | .double => "double"
  | .i16 => "i16"
  | .i32 => "i32"
  | .i64 => "i64"
  | .binary => "binary"
  | .struct => "struct"
  | .map => "map"
  | .set => "set"
  | .list => "list"

def ofName? (s : String) : Option TypeCode := all.find? fun c => c.name == s

/-- The fewest bytes that a value of this code takes. -/
def minLength : TypeCode → Nat
  | .bool | .byte | .struct => 1
  | .i16 => 2
  | .i32 | .binary => 4
  | .double | .i64 => 8
  | .set | .list => 5
  | .map => 6

end TypeCode
end TaggedWire
