import Mathlib.Data.List.Nodup
import TaggedWire.Codec.Encode
import TaggedWire.Host.Wire

/-! Host values of a type, and what is measured of them: the lengths of what they hold, and how many records lie inside
one another. -/
namespace TaggedWire

/-- The members of each record have ids of their own. -/
def Catalog.DistinctIds (catalog : Catalog) : Prop := ∀ name, ((catalog name).map (·.id)).Nodup

theorem Catalog.DistinctIds.nodup_keys {catalog : Catalog} (hc : catalog.DistinctIds) (name : String) :
    ((catalog name).map Member.key).Nodup := by
  have hids : (((catalog name).map Member.key).map (·.id)).Nodup := by
    rw [List.map_map]
    exact hc name
  exact List.Nodup.of_map _ hids

namespace HostValue

mutual
/-- A value that a program can hold under the type. A set lists no element twice and a map no key, and a time is one that
the calendar can name. -/
inductive HasType (catalog : Catalog) : HostValue → HostType → Prop
  | bool (b : Bool) : HasType catalog (.bool b) .bool
  | int8 (n : Int8) : HasType catalog (.int8 n) .int8
  | int16 (n : Int16) : HasType catalog (.int16 n) .int16
  | int32 (n : Int32) : HasType catalog (.int32 n) .int32
  | int64 (n : Int64) : HasType catalog (.int64 n) .int64
  | double (bits : UInt64) : HasType catalog (.double bits) .double
  | bytes (bs : Bytes) : HasType catalog (.bytes bs) .bytes
  | text (s : String) : HasType catalog (.text s) .text
  | time {seconds : Int64} : timeInRange seconds = true → HasType catalog (.time seconds) .time
  | list {xs : List HostValue} {elem : HostType} :
    (∀ x ∈ xs, HasType catalog x elem) → HasType catalog (.list xs) (.list elem)
  | set {xs : List HostValue} {elem : HostType} :
    xs.Nodup → (∀ x ∈ xs, HasType catalog x elem) → HasType catalog (.set xs) (.set elem)
  | map {xs : List (HostValue × HostValue)} {key value : HostType} :
    (xs.map Prod.fst).Nodup → (∀ x ∈ xs, HasType catalog x.1 key) → (∀ x ∈ xs, HasType catalog x.2 value) →
      HasType catalog (.map xs) (.map key value)
  | record {slots : List (Option HostValue)} {name : String} :
    Fills catalog slots (catalog name) → HasType catalog (.record slots) (.record name)

/-- A slot for each member: filled with a value of the member's type, or empty where the member is optional. -/
inductive Fills (catalog : Catalog) : List (Option HostValue) → List Member → Prop
  | nil : Fills catalog [] []
  | empty {m : Member} {slots : List (Option HostValue)} {ms : List Member} :
    m.optional = true → Fills catalog slots ms → Fills catalog (none :: slots) (m :: ms)
  | filled {m : Member} {x : HostValue} {slots : List (Option HostValue)} {ms : List Member} :
    HasType catalog x m.type → Fills catalog slots ms → Fills catalog (some x :: slots) (m :: ms)
end

mutual
/-- The value and every value inside it, each before what it holds. -/
def nodes : HostValue → List HostValue
  | .list xs => .list xs :: nodesAll xs
  | .set xs => .set xs :: nodesAll xs
  | .map xs => .map xs :: nodesItems xs
  | .record slots => .record slots :: nodesSlots slots
  | .bool b => [.bool b]
  | .int8 n => [.int8 n]
  | .int16 n => [.int16 n]
  | .int32 n => [.int32 n]
  | .int64 n => [.int64 n]
  | .double bits => [.double bits]
  | .bytes bs => [.bytes bs]
  | .text s => [.text s]
  | .time seconds => [.time seconds]
termination_by structural x => x

def nodesAll : List HostValue → List HostValue
  | [] => []
  | x :: xs => nodes x ++ nodesAll xs
termination_by structural xs => xs

def nodesItems : List (HostValue × HostValue) → List HostValue
  | [] => []
  | (k, x) :: xs => nodes k ++ (nodes x ++ nodesItems xs)
termination_by structural xs => xs

def nodesSlots : List (Option HostValue) → List HostValue
  | [] => []
  | none :: slots => nodesSlots slots
  | some x :: slots => nodes x ++ nodesSlots slots
termination_by structural slots => slots
end

theorem forall_nodesAll {P : HostValue → Prop} {xs : List HostValue} :
    (∀ y ∈ nodesAll xs, P y) ↔ ∀ x ∈ xs, ∀ y ∈ nodes x, P y := by
  induction xs with
  | nil => simp [nodesAll]
  | cons x xs ih => simp only [nodesAll, List.forall_mem_append, List.forall_mem_cons, ih]

theorem forall_nodesItems {P : HostValue → Prop} {xs : List (HostValue × HostValue)} :
    (∀ y ∈ nodesItems xs, P y) ↔ ∀ x ∈ xs, (∀ y ∈ nodes x.1, P y) ∧ ∀ y ∈ nodes x.2, P y := by
  induction xs with
  | nil => simp [nodesItems]
  | cons x xs ih =>
    obtain ⟨k, x⟩ := x
    simp only [nodesItems, List.forall_mem_append, List.forall_mem_cons, ih, and_assoc]

theorem forall_nodesSlots {P : HostValue → Prop} {slots : List (Option HostValue)} :
    (∀ y ∈ nodesSlots slots, P y) ↔ ∀ x, some x ∈ slots → ∀ y ∈ nodes x, P y := by
  induction slots with
  | nil => simp [nodesSlots]
  | cons slot slots ih =>
    cases slot with
    | none => simp [nodesSlots, ih]
    | some x =>
      simp only [nodesSlots, List.forall_mem_append, ih, List.mem_cons, Option.some.injEq]
      constructor
      · intro h z hz
        obtain rfl | hz := hz
        · exact h.1
        · exact h.2 z hz
      · intro h
        exact ⟨h x (.inl rfl), fun z hz => h z (.inr hz)⟩

/-- The number of bytes, elements or items that the value itself holds; a text holds the bytes of its UTF-8 form. -/
def extent : HostValue → Nat
  | .bytes bs => bs.length
  | .text s => (Bytes.ofText s).length
  | .list xs => xs.length
  | .set xs => xs.length
  | .map xs => xs.length
  | _ => 0

/-- Every length at any depth can be written. -/
def LengthsFit (x : HostValue) : Prop := ∀ y ∈ x.nodes, y.extent < lengthLimit

instance (x : HostValue) : Decidable x.LengthsFit :=
  inferInstanceAs (Decidable (∀ y ∈ x.nodes, y.extent < lengthLimit))

theorem lengthsFit_list_iff {xs : List HostValue} :
    (HostValue.list xs).LengthsFit ↔ xs.length < lengthLimit ∧ ∀ x ∈ xs, x.LengthsFit := by
  simp only [LengthsFit, nodes, List.forall_mem_cons, extent, forall_nodesAll]

theorem lengthsFit_set_iff {xs : List HostValue} :
    (HostValue.set xs).LengthsFit ↔ xs.length < lengthLimit ∧ ∀ x ∈ xs, x.LengthsFit := by
  simp only [LengthsFit, nodes, List.forall_mem_cons, extent, forall_nodesAll]

theorem lengthsFit_map_iff {xs : List (HostValue × HostValue)} :
    (HostValue.map xs).LengthsFit ↔ xs.length < lengthLimit ∧ ∀ x ∈ xs, x.1.LengthsFit ∧ x.2.LengthsFit := by
  simp only [LengthsFit, nodes, List.forall_mem_cons, extent, forall_nodesItems]

theorem lengthsFit_record_iff {slots : List (Option HostValue)} :
    (HostValue.record slots).LengthsFit ↔ ∀ x, some x ∈ slots → x.LengthsFit := by
  simp [LengthsFit, nodes, extent, forall_nodesSlots, lengthLimit]

mutual
/-- How many records lie inside one another, the value itself included. -/
def height : HostValue → Nat
  | .list xs => heightAll xs
  | .set xs => heightAll xs
  | .map xs => heightItems xs
  | .record slots => heightSlots slots + 1
  | .bool _ | .int8 _ | .int16 _ | .int32 _ | .int64 _ | .double _ | .bytes _ | .text _ | .time _ => 0
termination_by structural x => x

def heightAll : List HostValue → Nat
  | [] => 0
  | x :: xs => max (height x) (heightAll xs)
termination_by structural xs => xs

def heightItems : List (HostValue × HostValue) → Nat
  | [] => 0
  | (k, x) :: xs => max (max (height k) (height x)) (heightItems xs)
termination_by structural xs => xs

def heightSlots : List (Option HostValue) → Nat
  | [] => 0
  | none :: slots => heightSlots slots
  | some x :: slots => max (height x) (heightSlots slots)
termination_by structural slots => slots
end

end HostValue
end TaggedWire
