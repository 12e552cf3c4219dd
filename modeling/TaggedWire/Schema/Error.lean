import TaggedWire.Schema.Descriptor

/-! What can go wrong with a schema, and the text of each failure. -/
namespace TaggedWire
namespace Schema

/-- A handle that leads nowhere. -/
inductive HandleFault where
  | unallocated (handle : Handle) (size : Nat)
  /-- Typedefs that point only at one another name no type. -/
  | endlessAlias (handle : Handle)
deriving DecidableEq

def HandleFault.message : HandleFault → String
  | .unallocated handle size => s!"index out of bounds: the len is {size} but the index is {handle}"
  | .endlessAlias handle => s!"typedef #{handle} leads back to itself"

inductive LinkError where
  | selfReference (name : String) (line : Nat)
  | unknownType (name : String) (line : Nat)
  | duplicateType (name : String)
  | fault (f : HandleFault)
deriving DecidableEq

def LinkError.message : LinkError → String
  | .selfReference name line => s!"link error: type \"{name}\" at line {line} is a reference to itself"
  | .unknownType name line => s!"link error: unknown type \"{name}\" referenced at line {line}"
  | .duplicateType name => s!"link error: type \"{name}\" is already defined"
  | .fault f => f.message

inductive ValidationError where
  | typeMismatch (expected actual : TypeCode)
  | missingRequiredField (name : String) (id : Int16)
  | unionFieldCount (name : String) (count : Nat)
  | unknownEnumValue (name : String) (value : Int32)
  | fault (f : HandleFault)
deriving DecidableEq

def ValidationError.message : ValidationError → String
  | .typeMismatch expected actual =>
    s!"validation error: type mismatch: expected {expected.name}, got {actual.name}"
  | .missingRequiredField name id =>
    s!"validation error: \"{name}\" is missing required field {id.toInt}"
  | .unionFieldCount name count =>
    s!"validation error: union \"{name}\" must have exactly one field set, found {count}"
  | .unknownEnumValue name value =>
    s!"validation error: {value.toInt} is not a valid value of enum \"{name}\""
  | .fault f => f.message

end Schema
end TaggedWire
