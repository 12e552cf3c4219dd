import TaggedWire.TypeCode

/-! Type descriptors. They refer to one another by handle, so a schema is a graph that may share descriptors and
may be cyclic. A reference stands for a type by its name and holds no handle; a typedef gives another name to
the type it points at. Line numbers say where in a schema's source a name was written. -/
namespace TaggedWire
namespace Schema

/-- A place in a schema's arena. -/
abbrev Handle := Nat

inductive Primitive where
  | bool | byte | double | i16 | i32 | i64 | binary | string
deriving DecidableEq

namespace Primitive

def all : List Primitive := [.bool, .byte, .double, .i16, .i32, .i64, .binary, .string]

/-- On the wire a string is a binary. -/
def code : Primitive → TypeCode
  | .bool => .bool
  | .byte => .byte
  | .double => .double
  | .i16 => .i16
  | .i32 => .i32
  | .i64 => .i64
  | .binary | .string => .binary

def name : Primitive → String
  | .string => "string"
  | p => p.code.name

end Primitive

inductive Requiredness where
  | required | optional | unstated
deriving DecidableEq

inductive StructKind where
  | struct | union | exception
deriving DecidableEq

structure FieldDescriptor where
  id : Int16
  name : String
  requiredness : Requiredness
  type : Handle
deriving DecidableEq

inductive Descriptor where
  | primitive (p : Primitive)
  | list (elem : Handle)
  | set (elem : Handle)
  | map (key value : Handle)
  | struct (kind : StructKind) (name : String) (fields : List FieldDescriptor)
  | enum (name : String) (items : List (String × Int32))
  | typedef (name : String) (target : Handle) (line : Nat)
  | reference (name : String) (line : Nat)
deriving DecidableEq

namespace Descriptor

def isReference : Descriptor → Bool
  | .reference .. => true
  | _ => false

/-- Containers have no name. -/
def name? : Descriptor → Option String
  | .primitive p => some p.name
  | .struct _ name _ | .enum name _ | .typedef name _ _ | .reference name _ => some name
  | .list _ | .set _ | .map .. => none

/-- The code of the values it describes, where that does not hang on what a handle or name stands for. -/
def code? : Descriptor → Option TypeCode
  | .primitive p => some p.code
  | .list _ => some .list
  | .set _ => some .set
  | .map .. => some .map
  | .struct .. => some .struct
  | .enum .. => some .i32
  | .typedef .. | .reference .. => none

def children : Descriptor → List Handle
  | .list elem | .set elem => [elem]
  | .map key value => [key, value]
  | .struct _ _ fields => fields.map (·.type)
  | .typedef _ target _ => [target]
  | .primitive _ | .enum .. | .reference .. => []

end Descriptor

/-- The first field descriptor with that id. -/
def fieldWithId? (fields : List FieldDescriptor) (id : Int16) : Option FieldDescriptor :=
  fields.find? fun f => f.id == id

def hasNumber (items : List (String × Int32)) (n : Int32) : Bool := items.any fun i => i.2 == n

end Schema
end TaggedWire
