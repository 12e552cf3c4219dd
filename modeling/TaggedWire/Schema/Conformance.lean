import TaggedWire.Schema.Table
import TaggedWire.Schema.Linking
import TaggedWire.Value

/-! Validation of wire values against descriptors. Typedefs are looked through. A struct's fields that are not
declared do not count, nor do those whose code is not the declared one; the codes that an empty container states
for its entries are not looked at. -/
namespace TaggedWire
namespace Schema
namespace TypeTable

/-- The first descriptor that is no typedef on the way from a handle, where the typedefs in `visited` lie on the
way to it. -/
def targetFrom (t : TypeTable) (visited : List Handle) (h : Handle) :
    Except HandleFault (Handle × Descriptor) :=
  match _ : t.arena[h]? with
  | none => .error (.unallocated h t.arena.size)
  | some (.typedef _ target _) =>
    if _ : h ∈ visited then .error (.endlessAlias h) else t.targetFrom (h :: visited) target
  | some d => .ok (h, d)
termination_by t.unvisited visited
decreasing_by exact unvisited_lt ‹_› ‹_›

end TypeTable

/-- A failing handle is the failure of the validation that met it. -/
def checked {α : Type} : Except HandleFault α → Except ValidationError α
  | .ok a => .ok a
  | .error f => .error (.fault f)

/-- A reference that was left in place describes every value. -/
def Descriptor.accepts (d : Descriptor) (code : TypeCode) : Except ValidationError Unit :=
  match d.code? with
  | none => .ok ()
  | some c => if c = code then .ok () else .error (.typeMismatch c code)

namespace Linked

def resolveTypedefs (s : Linked) (h : Handle) : Except HandleFault (Handle × Descriptor) :=
  s.targetFrom [] h

/-- The code of the values that a handle describes; only a reference left in place has none. -/
def code? (s : Linked) (h : Handle) : Except HandleFault (Option TypeCode) :=
  (s.resolveTypedefs h).map fun p => p.2.code?

mutual
def validate (s : Linked) : Value → Handle → Except ValidationError Unit
  | .i32 n, h => do
    match (← checked (s.resolveTypedefs h)).2 with
    | .enum name items => if hasNumber items n then .ok () else .error (.unknownEnumValue name n)
    | d => d.accepts .i32
  | .list _ vs, h => do
    match (← checked (s.resolveTypedefs h)).2 with
    | .list elem => s.validateAll vs elem
    | d => d.accepts .list
  | .set _ vs, h => do
    match (← checked (s.resolveTypedefs h)).2 with
    | .set elem => s.validateAll vs elem
    | d => d.accepts .set
  | .map _ _ xs, h => do
    match (← checked (s.resolveTypedefs h)).2 with
    | .map key value => s.validateItems xs key value
    | d => d.accepts .map
  | .struct fs, h => do
    match (← checked (s.resolveTypedefs h)).2 with
    | .struct kind name fields =>
      let present ← fields.mapM fun f => do
        match ← checked (s.code? f.type) with
        | none => return false
        | some c =>
          match s.validateField fs ⟨f.id, c⟩ f.type with
          | some r => r.map fun _ => true
          | none =>
            if f.requiredness = .required then .error (.missingRequiredField name f.id) else return false
      let count := present.count true
      if kind = .union ∧ count ≠ 1 then .error (.unionFieldCount name count) else .ok ()
    | d => d.accepts .struct
  | v, h => do (← checked (s.resolveTypedefs h)).2.accepts v.typeCode
termination_by structural v => v

def validateAll (s : Linked) : List Value → Handle → Except ValidationError Unit
  | [], _ => .ok ()
  | v :: vs, h => do
    s.validate v h
    s.validateAll vs h
termination_by structural vs => vs

def validateItems (s : Linked) : List (Value × Value) → Handle → Handle →
    Except ValidationError Unit
  | [], _, _ => .ok ()
  | (k, v) :: xs, key, value => do
    s.validate k key
    s.validate v value
    s.validateItems xs key value
termination_by structural xs => xs

/-- What the first field with that key gives, if there is one. -/
def validateField (s : Linked) : List Field → FieldKey → Handle →
    Option (Except ValidationError Unit)
  | [], _, _ => none
  | (k, v) :: fs, key, h => if k = key then some (s.validate v h) else s.validateField fs key h
termination_by structural fs => fs
end

theorem validateField_eq (s : Linked) (fields : List Field) (key : FieldKey) (h : Handle) :
    s.validateField fields key h = (fieldAt fields key).map fun v => s.validate v h := by
  induction fields with
  | nil => rfl
  | cons f fs ih =>
    obtain ⟨k, v⟩ := f
    by_cases hk : k = key
    · simp [validateField, fieldAt, hk]
    · have hk' : (key == k) = false := by simpa using fun e => hk e.symm
      simp [validateField, fieldAt, List.lookup_cons, hk, hk', ih]

end Linked
end Schema
end TaggedWire
