import TaggedWire.Codec.Encode

/-! The shape of a value: the values inside it, whether each holds what it declares, whether its lengths can be
written, and how deep it nests. Each is said of all that is inside at once and then read off level by level. -/
namespace TaggedWire

/-- Structs and containers hold values; the others do not. -/
def TypeCode.nests : TypeCode → Bool
  | .struct | .map | .set | .list => true
  | _ => false

namespace Value

mutual
/-- The value and every value inside it, each before what it holds. -/
def nodes : Value → List Value
  | .struct fs => .struct fs :: nodesFields fs
  | .map k c xs => .map k c xs :: nodesItems xs
  | .set c vs => .set c vs :: nodesAll vs
  | .list c vs => .list c vs :: nodesAll vs
  | .bool b => [.bool b]
  | .byte n => [.byte n]
  | .double bits => [.double bits]
  | .i16 n => [.i16 n]
  | .i32 n => [.i32 n]
  | .i64 n => [.i64 n]
  | .binary bs => [.binary bs]

def nodesFields : List Field → List Value
  | [] => []
  | (_, v) :: fs => nodes v ++ nodesFields fs

def nodesItems : List (Value × Value) → List Value
  | [] => []
  | (k, v) :: xs => nodes k ++ (nodes v ++ nodesItems xs)

def nodesAll : List Value → List Value
  | [] => []
  | v :: vs => nodes v ++ nodesAll vs
end

theorem nodesFields_eq_flatMap (fs : List Field) : nodesFields fs = fs.flatMap fun f => f.2.nodes := by
  induction fs with
  | nil => rfl
  | cons f fs ih => rw [nodesFields, ih, List.flatMap_cons]

theorem nodesItems_eq_flatMap (xs : List (Value × Value)) :
    nodesItems xs = xs.flatMap fun x => x.1.nodes ++ x.2.nodes := by
  induction xs with
  | nil => rfl
  | cons x xs ih => rw [nodesItems, ih, List.flatMap_cons, List.append_assoc]

theorem nodesAll_eq_flatMap (vs : List Value) : nodesAll vs = vs.flatMap nodes := by
  induction vs with
  | nil => rfl
  | cons v vs ih => rw [nodesAll, ih, List.flatMap_cons]

theorem forall_nodesFields {P : Value → Prop} {fs : List Field} :
    (∀ w ∈ nodesFields fs, P w) ↔ ∀ f ∈ fs, ∀ w ∈ nodes f.2, P w := by
  induction fs with
  | nil => simp [nodesFields]
  | cons f fs ih =>
    obtain ⟨k, v⟩ := f
    simp only [nodesFields, List.forall_mem_append, List.forall_mem_cons, ih]

theorem forall_nodesItems {P : Value → Prop} {xs : List (Value × Value)} :
    (∀ w ∈ nodesItems xs, P w) ↔ ∀ x ∈ xs, (∀ w ∈ nodes x.1, P w) ∧ ∀ w ∈ nodes x.2, P w := by
  induction xs with
  | nil => simp [nodesItems]
  | cons x xs ih =>
    obtain ⟨k, v⟩ := x
    simp only [nodesItems, List.forall_mem_append, List.forall_mem_cons, ih, and_assoc]

theorem forall_nodesAll {P : Value → Prop} {vs : List Value} :
    (∀ w ∈ nodesAll vs, P w) ↔ ∀ v ∈ vs, ∀ w ∈ nodes v, P w := by
  induction vs with
  | nil => simp [nodesAll]
  | cons v vs ih => simp only [nodesAll, List.forall_mem_append, List.forall_mem_cons, ih]

/-- What the value itself holds has the codes that it declares. -/
def Fits : Value → Prop
  | .struct fs => ∀ f ∈ fs, f.2.typeCode = f.1.code
  | .map k c xs => ∀ x ∈ xs, x.1.typeCode = k ∧ x.2.typeCode = c
  | .set c vs => ∀ v ∈ vs, v.typeCode = c
  | .list c vs => ∀ v ∈ vs, v.typeCode = c
  | _ => True

instance (v : Value) : Decidable v.Fits := by
  cases v <;> unfold Fits <;> infer_instance

/-- Every field, key and element at any depth has the code declared for it. -/
def WellTyped (v : Value) : Prop := ∀ w ∈ v.nodes, w.Fits

instance (v : Value) : Decidable v.WellTyped := inferInstanceAs (Decidable (∀ w ∈ v.nodes, w.Fits))

theorem wellTyped_struct_iff {fs : List Field} :
    (Value.struct fs).WellTyped ↔ ∀ f ∈ fs, f.2.typeCode = f.1.code ∧ f.2.WellTyped := by
  simp only [WellTyped, nodes, List.forall_mem_cons, Fits, forall_nodesFields, forall_and]

theorem wellTyped_map_iff {k c : TypeCode} {xs : List (Value × Value)} :
    (Value.map k c xs).WellTyped ↔
      ∀ x ∈ xs, (x.1.typeCode = k ∧ x.1.WellTyped) ∧ x.2.typeCode = c ∧ x.2.WellTyped := by
  simp only [WellTyped, nodes, List.forall_mem_cons, Fits, forall_nodesItems, forall_and]
  constructor <;> rintro ⟨⟨hk, hc⟩, hl, hr⟩ <;> exact ⟨⟨hk, hl⟩, hc, hr⟩

theorem wellTyped_set_iff {c : TypeCode} {vs : List Value} :
    (Value.set c vs).WellTyped ↔ ∀ v ∈ vs, v.typeCode = c ∧ v.WellTyped := by
  simp only [WellTyped, nodes, List.forall_mem_cons, Fits, forall_nodesAll, forall_and]

theorem wellTyped_list_iff {c : TypeCode} {vs : List Value} :
    (Value.list c vs).WellTyped ↔ ∀ v ∈ vs, v.typeCode = c ∧ v.WellTyped := by
  simp only [WellTyped, nodes, List.forall_mem_cons, Fits, forall_nodesAll, forall_and]

/-- The fields that the value itself holds have the codes of their keys. -/
def KeysFit : Value → Prop
  | .struct fs => ∀ f ∈ fs, f.2.typeCode = f.1.code
  | _ => True

instance (v : Value) : Decidable v.KeysFit := by
  cases v <;> unfold KeysFit <;> infer_instance

/-- Every field at any depth has the code of its key; what is in a container need not have the code declared for it. -/
def FieldsFit (v : Value) : Prop := ∀ w ∈ v.nodes, w.KeysFit

instance (v : Value) : Decidable v.FieldsFit := inferInstanceAs (Decidable (∀ w ∈ v.nodes, w.KeysFit))

theorem WellTyped.fieldsFit {v : Value} (h : v.WellTyped) : v.FieldsFit := by
  intro w hw
  cases w with
  | struct fs => exact h (.struct fs) hw
  | _ => trivial

theorem fieldsFit_struct_iff {fs : List Field} :
    (Value.struct fs).FieldsFit ↔ ∀ f ∈ fs, f.2.typeCode = f.1.code ∧ f.2.FieldsFit := by
  simp only [FieldsFit, nodes, List.forall_mem_cons, KeysFit, forall_nodesFields, forall_and]

theorem fieldsFit_map_iff {k c : TypeCode} {xs : List (Value × Value)} :
    (Value.map k c xs).FieldsFit ↔ ∀ x ∈ xs, x.1.FieldsFit ∧ x.2.FieldsFit := by
  simp only [FieldsFit, nodes, List.forall_mem_cons, KeysFit, forall_nodesItems, true_and]

theorem fieldsFit_set_iff {c : TypeCode} {vs : List Value} :
    (Value.set c vs).FieldsFit ↔ ∀ v ∈ vs, v.FieldsFit := by
  simp only [FieldsFit, nodes, List.forall_mem_cons, KeysFit, forall_nodesAll, true_and]

theorem fieldsFit_list_iff {c : TypeCode} {vs : List Value} :
    (Value.list c vs).FieldsFit ↔ ∀ v ∈ vs, v.FieldsFit := by
  simp only [FieldsFit, nodes, List.forall_mem_cons, KeysFit, forall_nodesAll, true_and]

/-- The length or count that is written before what the value holds; the others are written without one. -/
def extent : Value → Nat
  | .binary bs => bs.length
  | .map _ _ xs => xs.length
  | .set _ vs => vs.length
  | .list _ vs => vs.length
  | _ => 0

/-- Every length and count at any depth can be written. -/
def LengthsFit (v : Value) : Prop := ∀ w ∈ v.nodes, w.extent < lengthLimit

instance (v : Value) : Decidable v.LengthsFit :=
  inferInstanceAs (Decidable (∀ w ∈ v.nodes, w.extent < lengthLimit))

theorem lengthsFit_struct_iff {fs : List Field} :
    (Value.struct fs).LengthsFit ↔ ∀ f ∈ fs, f.2.LengthsFit := by
  simp [LengthsFit, nodes, extent, forall_nodesFields, lengthLimit]

theorem lengthsFit_map_iff {k c : TypeCode} {xs : List (Value × Value)} :
    (Value.map k c xs).LengthsFit ↔
      xs.length < lengthLimit ∧ ∀ x ∈ xs, x.1.LengthsFit ∧ x.2.LengthsFit := by
  simp only [LengthsFit, nodes, List.forall_mem_cons, extent, forall_nodesItems]

theorem lengthsFit_set_iff {c : TypeCode} {vs : List Value} :
    (Value.set c vs).LengthsFit ↔ vs.length < lengthLimit ∧ ∀ v ∈ vs, v.LengthsFit := by
  simp only [LengthsFit, nodes, List.forall_mem_cons, extent, forall_nodesAll]

theorem lengthsFit_list_iff {c : TypeCode} {vs : List Value} :
    (Value.list c vs).LengthsFit ↔ vs.length < lengthLimit ∧ ∀ v ∈ vs, v.LengthsFit := by
  simp only [LengthsFit, nodes, List.forall_mem_cons, extent, forall_nodesAll]

mutual
/-- How many structs and containers lie inside one another, the value itself included. -/
def depth : Value → Nat
  | .struct fs => depthFields fs + 1
  | .map _ _ xs => depthItems xs + 1
  | .set _ vs => depthAll vs + 1
  | .list _ vs => depthAll vs + 1
  | .bool _ | .byte _ | .double _ | .i16 _ | .i32 _ | .i64 _ | .binary _ => 0

def depthFields : List Field → Nat
  | [] => 0
  | (_, v) :: fs => max (depth v) (depthFields fs)

def depthItems : List (Value × Value) → Nat
  | [] => 0
  | (k, v) :: xs => max (max (depth k) (depth v)) (depthItems xs)

def depthAll : List Value → Nat
  | [] => 0
  | v :: vs => max (depth v) (depthAll vs)
end

theorem depth_pos_iff {v : Value} : 0 < v.depth ↔ v.typeCode.nests = true := by
  cases v <;> simp [depth, typeCode, TypeCode.nests]

theorem wellTyped_of_not_nests {v : Value} (h : v.typeCode.nests = false) : v.WellTyped := by
  cases v <;> simp_all [typeCode, TypeCode.nests, WellTyped, nodes, Fits]

theorem depthFields_le_iff {fs : List Field} {n : Nat} :
    depthFields fs ≤ n ↔ ∀ f ∈ fs, f.2.depth ≤ n := by
  induction fs with
  | nil => simp [depthFields]
  | cons f fs ih =>
    obtain ⟨k, v⟩ := f
    simp only [depthFields, Nat.max_le, List.forall_mem_cons, ih]

theorem depthItems_le_iff {xs : List (Value × Value)} {n : Nat} :
    depthItems xs ≤ n ↔ ∀ x ∈ xs, x.1.depth ≤ n ∧ x.2.depth ≤ n := by
  induction xs with
  | nil => simp [depthItems]
  | cons x xs ih =>
    obtain ⟨k, v⟩ := x
    simp only [depthItems, Nat.max_le, List.forall_mem_cons, ih]

theorem depthAll_le_iff {vs : List Value} {n : Nat} : depthAll vs ≤ n ↔ ∀ v ∈ vs, v.depth ≤ n := by
  induction vs with
  | nil => simp [depthAll]
  | cons v vs ih => simp only [depthAll, Nat.max_le, List.forall_mem_cons, ih]

/-- The values that the value itself holds. -/
def parts : Value → List Value
  | .struct fs => fs.map Prod.snd
  | .map _ _ xs => xs.flatMap fun x => [x.1, x.2]
  | .set _ vs => vs
  | .list _ vs => vs
  | _ => []

/-- A way of so many steps down, from the value to one inside it. -/
inductive Way : Value → Nat → Value → Prop
  | here (v : Value) : Way v 0 v
  | down {v w u : Value} {n : Nat} : w ∈ v.parts → Way w n u → Way v (n + 1) u

theorem depth_le_succ_iff {v : Value} {n : Nat} : v.depth ≤ n + 1 ↔ ∀ w ∈ v.parts, w.depth ≤ n := by
  cases v with
  | struct fs => simp only [depth, parts, Nat.add_le_add_iff_right, depthFields_le_iff, List.forall_mem_map]
  | map k c xs =>
    simp only [depth, parts, Nat.add_le_add_iff_right, depthItems_le_iff, List.forall_mem_flatMap, List.forall_mem_cons,
      List.not_mem_nil, false_implies, implies_true, and_true]
  | set c vs => simp only [depth, parts, Nat.add_le_add_iff_right, depthAll_le_iff]
  | list c vs => simp only [depth, parts, Nat.add_le_add_iff_right, depthAll_le_iff]
  | _ => simp [depth, parts]

theorem depth_lt_of_mem_parts {v w : Value} (hw : w ∈ v.parts) : w.depth < v.depth := by
  cases hd : v.depth with
  | zero =>
    have hnone : v.parts = [] := by
      cases v with
      | struct | map | set | list => simp [depth] at hd
      | _ => rfl
    rw [hnone] at hw
    cases hw
  | succ n => exact Nat.lt_succ_of_le (depth_le_succ_iff.mp (Nat.le_of_eq hd) w hw)

theorem Way.lt_depth {v w : Value} {n : Nat} (h : v.Way n w) (hw : w.typeCode.nests = true) : n < v.depth := by
  induction h with
  | here v => exact depth_pos_iff.mpr hw
  | down hmem _ ih =>
    have hlt := depth_lt_of_mem_parts hmem
    have hn := ih hw
    omega

/-- The depth is the least bound of all ways down to a struct or container: by induction on a bound that they keep to. -/
theorem depth_le_iff_way {v : Value} {n : Nat} :
    v.depth ≤ n ↔ ∀ k w, v.Way k w → w.typeCode.nests = true → k < n := by
  constructor
  · intro hd k w hway hw
    exact Nat.lt_of_lt_of_le (hway.lt_depth hw) hd
  · intro hway
    induction n generalizing v with
    | zero =>
      refine Nat.le_of_not_lt fun hd => ?_
      exact Nat.lt_irrefl 0 (hway 0 v (.here v) (depth_pos_iff.mp hd))
    | succ n ih =>
      refine depth_le_succ_iff.mpr fun w hw => ih fun k u hwu hu => ?_
      exact Nat.lt_of_succ_lt_succ (hway (k + 1) u (.down hw hwu) hu)

end Value
end TaggedWire
