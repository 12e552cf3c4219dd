import TaggedWire.Value

/-! Checked construction: a field or container is only built from parts that have the code declared for them.
A field may also be written down directly, as a pair of key and value; then nothing is checked. -/
namespace TaggedWire

/-- Why a field or container was refused. -/
inductive Misfit where
  | field (id : Int16) (declared actual : TypeCode)
  | mapItems (key value : TypeCode)
  | setElements (elem : TypeCode)
  | listElements (elem : TypeCode)
deriving DecidableEq

def Misfit.message : Misfit → String
  | .field id declared actual =>
    s!"assertion `left == right` failed: field {id.toInt} declared as {declared.name}\n" ++
      s!"  left: {declared.name.capitalize}\n right: {actual.name.capitalize}"
  | .mapItems key value => s!"map items must match map<{key.name}, {value.name}>"
  | .setElements elem => s!"set elements must match the declared type {elem.name}"
  | .listElements elem => s!"list elements must match the declared type {elem.name}"

namespace Value

def checkedField (key : FieldKey) (v : Value) : Except Misfit Field :=
  if v.typeCode = key.code then .ok (key, v) else .error (.field key.id key.code v.typeCode)

def checkedMap (key value : TypeCode) (items : List (Value × Value)) : Except Misfit Value :=
  if ∀ x ∈ items, x.1.typeCode = key ∧ x.2.typeCode = value then .ok (.map key value items)
  else .error (.mapItems key value)

def checkedSet (elem : TypeCode) (values : List Value) : Except Misfit Value :=
  if ∀ v ∈ values, v.typeCode = elem then .ok (.set elem values) else .error (.setElements elem)

def checkedList (elem : TypeCode) (values : List Value) : Except Misfit Value :=
  if ∀ v ∈ values, v.typeCode = elem then .ok (.list elem values) else .error (.listElements elem)

end Value
end TaggedWire
