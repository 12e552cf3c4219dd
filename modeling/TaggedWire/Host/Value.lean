import TaggedWire.Host.Type

/-! Host values. A set or map is held in some order, which is not part of what it says; a record has a slot for
each of its members, empty where an optional member is absent. -/
namespace TaggedWire

inductive HostValue where
  | bool (b : Bool)
  | int8 (n : Int8)
  | int16 (n : Int16)
  | int32 (n : Int32)
  | int64 (n : Int64)
  | double (bits : UInt64)
  | bytes (bytes : Bytes)
  | text (s : String)
  | time (seconds : Int64)
  | list (values : List HostValue)
  | set (values : List HostValue)
  | map (items : List (HostValue × HostValue))
  | record (slots : List (Option HostValue))

namespace HostValue

@[induction_eliminator]
theorem ind {P : HostValue → Prop} (bool : ∀ b, P (.bool b)) (int8 : ∀ n, P (.int8 n))
    (int16 : ∀ n, P (.int16 n)) (int32 : ∀ n, P (.int32 n)) (int64 : ∀ n, P (.int64 n))
    (double : ∀ d, P (.double d)) (bytes : ∀ bs, P (.bytes bs)) (text : ∀ s, P (.text s))
    (time : ∀ s, P (.time s)) (list : ∀ xs, (∀ x ∈ xs, P x) → P (.list xs))
    (set : ∀ xs, (∀ x ∈ xs, P x) → P (.set xs))
    (map : ∀ xs : List (HostValue × HostValue), (∀ x ∈ xs, P x.1 ∧ P x.2) → P (.map xs))
    (record : ∀ xs : List (Option HostValue), (∀ x, some x ∈ xs → P x) → P (.record xs))
    (x : HostValue) : P x :=
  HostValue.rec (motive_1 := P) (motive_2 := fun xs => ∀ x ∈ xs, P x)
    (motive_3 := fun xs => ∀ x ∈ xs, P x.1 ∧ P x.2) (motive_4 := fun xs => ∀ x, some x ∈ xs → P x)
    (motive_5 := fun x => P x.1 ∧ P x.2) (motive_6 := fun o => ∀ x, o = some x → P x)
    bool int8 int16 int32 int64 double bytes text time list set map record
    (by simp) (by simp_all) (by simp) (by simp_all) (by simp)
    (fun _ _ h₁ h₂ x hx => (List.mem_cons.mp hx).elim (fun h => h₁ x h.symm) (h₂ x))
    (fun _ _ h₁ h₂ => ⟨h₁, h₂⟩) (by simp) (fun _ h x hx => Option.some.inj hx ▸ h) x

mutual
def same : HostValue → HostValue → Bool
  | .bool a, .bool b => a == b
  | .int8 a, .int8 b => a == b
  | .int16 a, .int16 b => a == b
  | .int32 a, .int32 b => a == b
  | .int64 a, .int64 b => a == b
  | .double a, .double b => a == b
  | .bytes a, .bytes b => a == b
  | .text a, .text b => a == b
  | .time a, .time b => a == b
  | .list xs, .list ys => sameAll xs ys
  | .set xs, .set ys => sameAll xs ys
  | .map xs, .map ys => sameItems xs ys
  | .record xs, .record ys => sameSlots xs ys
  | _, _ => false
termination_by structural x => x

def sameAll : List HostValue → List HostValue → Bool
  | [], [] => true
  | x :: xs, y :: ys => same x y && sameAll xs ys
  | _, _ => false
termination_by structural xs => xs

def sameItems : List (HostValue × HostValue) → List (HostValue × HostValue) → Bool
  | [], [] => true
  | (k, x) :: xs, (l, y) :: ys => same k l && same x y && sameItems xs ys
  | _, _ => false
termination_by structural xs => xs

def sameSlots : List (Option HostValue) → List (Option HostValue) → Bool
  | [], [] => true
  | none :: xs, none :: ys => sameSlots xs ys
  | some x :: xs, some y :: ys => same x y && sameSlots xs ys
  | _, _ => false
termination_by structural xs => xs
end

theorem sameAll_iff {xs : List HostValue} (h : ∀ x ∈ xs, ∀ y, same x y = true ↔ x = y)
    (ys : List HostValue) : sameAll xs ys = true ↔ xs = ys := by
  induction xs generalizing ys with
  | nil => cases ys <;> simp [sameAll]
  | cons x xs ih =>
    cases ys with
    | nil => simp [sameAll]
    | cons y ys => simp [sameAll, h x (by simp), ih fun x hx => h x (by simp [hx])]

theorem sameItems_iff {xs : List (HostValue × HostValue)}
    (h : ∀ x ∈ xs, (∀ y, same x.1 y = true ↔ x.1 = y) ∧ ∀ y, same x.2 y = true ↔ x.2 = y)
    (ys : List (HostValue × HostValue)) : sameItems xs ys = true ↔ xs = ys := by
  induction xs generalizing ys with
  | nil => cases ys <;> simp [sameItems]
  | cons x xs ih =>
    cases ys with
    | nil => simp [sameItems]
    | cons y ys =>
      obtain ⟨k, x⟩ := x
      obtain ⟨l, y⟩ := y
      obtain ⟨hk, hx⟩ := h (k, x) (by simp)
      simp [sameItems, hk, hx, ih fun x hx => h x (by simp [hx]), and_assoc]

theorem sameSlots_iff {xs : List (Option HostValue)}
    (h : ∀ x, some x ∈ xs → ∀ y, same x y = true ↔ x = y) (ys : List (Option HostValue)) :
    sameSlots xs ys = true ↔ xs = ys := by
  induction xs generalizing ys with
  | nil => cases ys <;> simp [sameSlots]
  | cons x xs ih =>
    cases ys with
    | nil => simp [sameSlots]
    | cons y ys =>
      have ih := ih (fun x hx => h x (by simp [hx])) ys
      cases x <;> cases y <;> simp [sameSlots, ih]
      case some.some x y => simp [h x (by simp)]

theorem same_iff (x y : HostValue) : same x y = true ↔ x = y := by
  induction x generalizing y with
  | list xs ih => cases y <;> simp [same, sameAll_iff ih]
  | set xs ih => cases y <;> simp [same, sameAll_iff ih]
  | map xs ih => cases y <;> simp [same, sameItems_iff ih]
  | record xs ih => cases y <;> simp [same, sameSlots_iff ih]
  | _ => cases y <;> simp [same]

instance : DecidableEq HostValue := fun x y => decidable_of_iff _ (same_iff x y)

end HostValue
end TaggedWire
