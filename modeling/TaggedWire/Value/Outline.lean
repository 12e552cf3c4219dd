import TaggedWire.Value

/-! The outline of a value: its nodes in the order in which they are met from the root, each before what it
holds. A struct's fields are announced by their keys, and a container by the number of its entries. -/
namespace TaggedWire

inductive Mark where
  | bool (b : Bool)
  | byte (n : Int8)
  | double (bits : UInt64)
  | i16 (n : Int16)
  | i32 (n : Int32)
  | i64 (n : Int64)
  | binary (bytes : Bytes)
  | struct (count : Nat)
  | field (key : FieldKey)
  | map (key value : TypeCode) (count : Nat)
  | set (elem : TypeCode) (count : Nat)
  | list (elem : TypeCode) (count : Nat)
deriving DecidableEq

namespace Value

mutual
def outline : Value → List Mark
  | .bool b => [.bool b]
  | .byte n => [.byte n]
  | .double d => [.double d]
  | .i16 n => [.i16 n]
  | .i32 n => [.i32 n]
  | .i64 n => [.i64 n]
  | .binary bs => [.binary bs]
  | .struct fs => .struct fs.length :: outlineFields fs
  | .map k c xs => .map k c xs.length :: outlineItems xs
  | .set c vs => .set c vs.length :: outlineAll vs
  | .list c vs => .list c vs.length :: outlineAll vs

def outlineFields : List Field → List Mark
  | [] => []
  | (k, v) :: fs => .field k :: (outline v ++ outlineFields fs)

def outlineItems : List (Value × Value) → List Mark
  | [] => []
  | (k, v) :: xs => outline k ++ (outline v ++ outlineItems xs)

def outlineAll : List Value → List Mark
  | [] => []
  | v :: vs => outline v ++ outlineAll vs
end

end Value
end TaggedWire
