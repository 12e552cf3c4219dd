import TaggedWire.TypeCode
import TaggedWire.Bytes

/-! Wire values: what the binary form carries, with a type code for every field and every element.
Equality is decided on the bits, so a NaN equals itself and the two zeros differ; the order of fields, items
and elements counts, also in maps and sets. -/
namespace TaggedWire

/-- Ids need not be unique in a struct: a field is named by its id and its declared code together. -/
structure FieldKey where
  id : Int16
  code : TypeCode
deriving DecidableEq

inductive Value where
  | bool (b : Bool)
  | byte (n : Int8)
  /-- A double is held as its bits. -/
  | double (bits : UInt64)
  | i16 (n : Int16)
  | i32 (n : Int32)
  | i64 (n : Int64)
  | binary (bytes : Bytes)
  | struct (fields : List (FieldKey × Value))
  | map (key value : TypeCode) (items : List (Value × Value))
  | set (elem : TypeCode) (values : List Value)
  | list (elem : TypeCode) (values : List Value)

abbrev Field := FieldKey × Value

namespace Value

def typeCode : Value → TypeCode
  | .bool _ => .bool
  | .byte _ => .byte
  | .double _ => .double
  | .i16 _ => .i16
  | .i32 _ => .i32
  | .i64 _ => .i64
  | .binary _ => .binary
  | .struct _ => .struct
  | .map .. => .map
  | .set .. => .set
  | .list .. => .list

@[induction_eliminator]
theorem ind {P : Value → Prop} (bool : ∀ b, P (.bool b)) (byte : ∀ n, P (.byte n))
    (double : ∀ d, P (.double d)) (i16 : ∀ n, P (.i16 n)) (i32 : ∀ n, P (.i32 n))
    (i64 : ∀ n, P (.i64 n)) (binary : ∀ bs, P (.binary bs))
    (struct : ∀ fs : List Field, (∀ f ∈ fs, P f.2) → P (.struct fs))
    (map : ∀ k c (xs : List (Value × Value)), (∀ x ∈ xs, P x.1 ∧ P x.2) → P (.map k c xs))
    (set : ∀ c vs, (∀ v ∈ vs, P v) → P (.set c vs))
    (list : ∀ c vs, (∀ v ∈ vs, P v) → P (.list c vs)) (v : Value) : P v :=
  Value.rec (motive_1 := P) (motive_2 := fun fs => ∀ f ∈ fs, P f.2)
    (motive_3 := fun xs => ∀ x ∈ xs, P x.1 ∧ P x.2) (motive_4 := fun vs => ∀ v ∈ vs, P v)
    (motive_5 := fun f => P f.2) (motive_6 := fun x => P x.1 ∧ P x.2)
    bool byte double i16 i32 i64 binary struct map set list
    (by simp) (by simp_all) (by simp) (by simp_all) (by simp) (by simp_all)
    (fun _ _ h => h) (fun _ _ h₁ h₂ => ⟨h₁, h₂⟩) v

mutual
def same : Value → Value → Bool
  | .bool a, .bool b => a == b
  | .byte a, .byte b => a == b
  | .double a, .double b => a == b
  | .i16 a, .i16 b => a == b
  | .i32 a, .i32 b => a == b
  | .i64 a, .i64 b => a == b
  | .binary a, .binary b => a == b
  | .struct fs, .struct gs => sameFields fs gs
  | .map k c xs, .map l d ys => k == l && c == d && sameItems xs ys
  | .set c vs, .set d ws => c == d && sameAll vs ws
  | .list c vs, .list d ws => c == d && sameAll vs ws
  | _, _ => false
termination_by structural v => v

def sameFields : List Field → List Field → Bool
  | [], [] => true
  | (k, v) :: fs, (l, w) :: gs => k == l && same v w && sameFields fs gs
  | _, _ => false
termination_by structural v => v

def sameItems : List (Value × Value) → List (Value × Value) → Bool
  | [], [] => true
  | (k, v) :: xs, (l, w) :: ys => same k l && same v w && sameItems xs ys
  | _, _ => false
termination_by structural v => v

def sameAll : List Value → List Value → Bool
  | [], [] => true
  | v :: vs, w :: ws => same v w && sameAll vs ws
  | _, _ => false
termination_by structural v => v
end

theorem sameFields_iff {fs : List Field} (h : ∀ f ∈ fs, ∀ w, same f.2 w = true ↔ f.2 = w)
    (gs : List Field) : sameFields fs gs = true ↔ fs = gs := by
  induction fs generalizing gs with
  | nil => cases gs <;> simp [sameFields]
  | cons f fs ih =>
    cases gs with
    | nil => simp [sameFields]
    | cons g gs =>
      obtain ⟨k, v⟩ := f
      obtain ⟨l, w⟩ := g
      simp [sameFields, h (k, v) (by simp), ih fun f hf => h f (by simp [hf]), and_assoc]

theorem sameItems_iff {xs : List (Value × Value)}
    (h : ∀ x ∈ xs, (∀ w, same x.1 w = true ↔ x.1 = w) ∧ ∀ w, same x.2 w = true ↔ x.2 = w)
    (ys : List (Value × Value)) : sameItems xs ys = true ↔ xs = ys := by
  induction xs generalizing ys with
  | nil => cases ys <;> simp [sameItems]
  | cons x xs ih =>
    cases ys with
    | nil => simp [sameItems]
    | cons y ys =>
      obtain ⟨k, v⟩ := x
      obtain ⟨l, w⟩ := y
      obtain ⟨hk, hv⟩ := h (k, v) (by simp)
      simp [sameItems, hk, hv, ih fun x hx => h x (by simp [hx]), and_assoc]

theorem sameAll_iff {vs : List Value} (h : ∀ v ∈ vs, ∀ w, same v w = true ↔ v = w)
    (ws : List Value) : sameAll vs ws = true ↔ vs = ws := by
  induction vs generalizing ws with
  | nil => cases ws <;> simp [sameAll]
  | cons v vs ih =>
    cases ws with
    | nil => simp [sameAll]
    | cons w ws => simp [sameAll, h v (by simp), ih fun v hv => h v (by simp [hv])]

theorem same_iff (v w : Value) : same v w = true ↔ v = w := by
  induction v generalizing w with
  | struct fs ih => cases w <;> simp [same, sameFields_iff ih]
  | map k c xs ih => cases w <;> simp [same, sameItems_iff ih, and_assoc]
  | set c vs ih => cases w <;> simp [same, sameAll_iff ih]
  | list c vs ih => cases w <;> simp [same, sameAll_iff ih]
  | _ => cases w <;> simp [same]

instance : DecidableEq Value := fun v w => decidable_of_iff _ (same_iff v w)

end Value

/-- The contents of the first field with that id and code; one with another code does not count. -/
def fieldAt (fields : List Field) (key : FieldKey) : Option Value := fields.lookup key

theorem mem_of_fieldAt {fields : List Field} {key : FieldKey} {v : Value} (h : fieldAt fields key = some v) :
    (key, v) ∈ fields := by
  obtain ⟨before, after, he, -⟩ := List.lookup_eq_some_iff.mp h
  rw [he]
  exact List.mem_append_right before List.mem_cons_self

theorem fieldAt_eq_none_iff {fields : List Field} {key : FieldKey} :
    fieldAt fields key = none ↔ ∀ f ∈ fields, f.1 ≠ key := by
  simp only [fieldAt, List.lookup_eq_none_iff, bne_iff_ne]
  exact forall₂_congr fun f _ => ne_comm

theorem fieldAt_cons_of_ne {fields : List Field} {f : Field} {key : FieldKey} (h : f.1 ≠ key) :
    fieldAt (f :: fields) key = fieldAt fields key := by
  have hkey : (key == f.1) = false := by simpa using h.symm
  rw [fieldAt, List.lookup_cons, hkey]
  rfl

end TaggedWire
