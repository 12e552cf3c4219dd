import Mathlib.Algebra.Order.BigOperators.Group.List
import Mathlib.Algebra.Order.Ring.Nat
import Mathlib.Data.List.Flatten
import Mathlib.Data.List.Forall2
import Mathlib.Data.List.Perm.Subperm
import TaggedWire.Proofs.Codec.Encoding

/-! When one value is no larger than another: it nests no deeper, its encoding is no longer, and its lengths can be
written if those of the other can. A struct or container is no larger if what it holds is drawn from what the other
holds, each part no larger than the one it stands for and in any order. -/
namespace TaggedWire

/-- Each of the items stands for one of the others, and no two of them for the same. -/
def Drawn {α β : Type} (R : α → β → Prop) (as : List α) (bs : List β) : Prop :=
  ∃ cs, List.Forall₂ R as cs ∧ cs.Subperm bs

namespace Drawn

variable {α β γ δ : Type} {R : α → β → Prop} {S : γ → δ → Prop} {as as' : List α} {bs : List β}

theorem of_forall₂ (h : List.Forall₂ R as bs) : Drawn R as bs := ⟨bs, h, .refl bs⟩

theorem subperm (h : Drawn R as bs) (hs : as'.Subperm as) : Drawn R as' bs := by
  obtain ⟨us, hus, husub⟩ := h
  obtain ⟨l, hperm, hsub⟩ := hs
  obtain ⟨ms, hms, hmsub⟩ := exists_forall₂_of_sublist hus hsub
  obtain ⟨cs, hcs, hcperm⟩ := List.perm_comp_forall₂ hperm.symm hms
  exact ⟨cs, hcs, hcperm.subperm.trans (hmsub.subperm.trans husub)⟩

/-- What stands for the items one by one stands for what they stand for. -/
theorem comp {Q : γ → α → Prop} {T : γ → β → Prop} {gs : List γ} (hT : ∀ c a b, Q c a → R a b → T c b)
    (hgs : List.Forall₂ Q gs as) (h : Drawn R as bs) : Drawn T gs bs := by
  obtain ⟨cs, hcs, hsub⟩ := h
  exact ⟨cs, forall₂_trans hT hgs hcs, hsub⟩

theorem length_le (h : Drawn R as bs) : as.length ≤ bs.length := by
  obtain ⟨cs, hcs, hsub⟩ := h
  rw [hcs.length_eq]
  exact hsub.length_le

theorem forall_mem (h : Drawn R as bs) {P : α → Prop} (hP : ∀ b ∈ bs, ∀ a, R a b → P a) : ∀ a ∈ as, P a := by
  obtain ⟨cs, hcs, hsub⟩ := h
  exact forall_mem_of_forall₂ hcs.flip fun b hb a hR => hP b (hsub.subset hb) a hR

theorem sum_le (h : Drawn R as bs) {f : α → Nat} {g : β → Nat} (hfg : ∀ a b, R a b → f a ≤ g b) :
    (as.map f).sum ≤ (bs.map g).sum := by
  obtain ⟨cs, hcs, l, hperm, hsub⟩ := h
  have hle : List.Forall₂ (· ≤ ·) (as.map f) (cs.map g) := by
    rw [List.forall₂_map_left_iff, List.forall₂_map_right_iff]
    exact hcs.imp hfg
  calc
    (as.map f).sum ≤ (cs.map g).sum := hle.sum_le_sum
    _ = (l.map g).sum := (hperm.map g).symm.sum_eq
    _ ≤ (bs.map g).sum := (hsub.map g).sum_le_sum fun _ _ => Nat.zero_le _

theorem flatMap (h : Drawn R as bs) {f : α → List γ} {g : β → List δ}
    (hfg : ∀ a b, R a b → List.Forall₂ S (f a) (g b)) : Drawn S (as.flatMap f) (bs.flatMap g) := by
  obtain ⟨cs, hcs, l, hperm, hsub⟩ := h
  refine ⟨cs.flatMap g, List.rel_flatMap hcs fun a b => hfg a b, l.flatMap g, hperm.flatMap_right g, hsub.flatMap g⟩

end Drawn

namespace Value

/-- The number of bytes that the value is written in. -/
def size (v : Value) : Nat := v.boolSpots.length

theorem Spells.length_eq_size {v : Value} {raw : Bytes} (h : v.Spells raw) : raw.length = v.size := by
  obtain ⟨out, -, hlength, -⟩ := h.normalises
  exact hlength.symm

theorem Spells.lengthsFit {v : Value} {raw : Bytes} (h : v.Spells raw) : v.LengthsFit := by
  induction v generalizing raw with
  | binary bs => exact List.forall_mem_singleton.mpr h.1
  | struct fs ih =>
    obtain ⟨body, -, hfs⟩ := h
    refine lengthsFit_struct_iff.mpr fun f hf => ?_
    obtain ⟨_, payload, -, hv⟩ := (spellsFields_iff.mp hfs).exists_of_mem hf
    exact ih f hf hv
  | map k c xs ih =>
    obtain ⟨hlt, body, -, hxs⟩ := h
    refine lengthsFit_map_iff.mpr ⟨hlt, fun x hx => ?_⟩
    obtain ⟨_, key, payload, -, hk, hv⟩ := (spellsItems_iff.mp hxs).exists_of_mem hx
    exact ⟨(ih x hx).1 hk, (ih x hx).2 hv⟩
  | set c vs ih =>
    obtain ⟨hlt, body, -, hvs⟩ := h
    refine lengthsFit_set_iff.mpr ⟨hlt, fun v hv => ?_⟩
    obtain ⟨_, hraw⟩ := (spellsAll_iff.mp hvs).exists_of_mem hv
    exact ih v hv hraw
  | list c vs ih =>
    obtain ⟨hlt, body, -, hvs⟩ := h
    refine lengthsFit_list_iff.mpr ⟨hlt, fun v hv => ?_⟩
    obtain ⟨_, hraw⟩ := (spellsAll_iff.mp hvs).exists_of_mem hv
    exact ih v hv hraw
  | _ => exact List.forall_mem_singleton.mpr (show 0 < lengthLimit by decide)

/-- The bytes that are not those of a part. -/
def ownSize : Value → Nat
  | .struct fs => 3 * fs.length + 1
  | .map _ _ _ => 6
  | .set _ _ => 5
  | .list _ _ => 5
  | v => v.size

/-- A value takes its own bytes and those of its parts. -/
theorem size_eq (v : Value) : v.size = v.ownSize + (v.parts.map size).sum := by
  cases v with
  | struct fs =>
    have hfields : (fs.map fun f => 3 + f.2.boolSpots.length).sum = 3 * fs.length + (fs.map fun f => f.2.size).sum := by
      rw [List.sum_map_add]
      simp [size, Nat.mul_comm]
    simp only [size, boolSpots, boolSpotsFields_eq, List.length_append, List.length_flatMap, List.length_replicate,
      List.length_singleton, ownSize, parts, List.map_map]
    rw [hfields]
    simp only [Function.comp_def, size]
    omega
  | map k c xs =>
    have hitems : (xs.map fun x => x.1.size + x.2.size).sum = ((xs.flatMap fun x => [x.1, x.2]).map size).sum := by
      induction xs with
      | nil => rfl
      | cons x xs ih =>
        simp only [List.map_cons, List.sum_cons, List.flatMap_cons, List.map_append, List.sum_append, ih]
        simp [Nat.add_assoc]
    simp only [size, boolSpots, boolSpotsItems_eq, List.length_append, List.length_flatMap, List.length_replicate,
      ownSize, parts]
    exact congrArg (6 + ·) hitems
  | set c vs =>
    simp only [size, boolSpots, boolSpotsAll_eq, List.length_append, List.length_flatMap, List.length_replicate, ownSize,
      parts]
    rfl
  | list c vs =>
    simp only [size, boolSpots, boolSpotsAll_eq, List.length_append, List.length_flatMap, List.length_replicate, ownSize,
      parts]
    rfl
  | _ => rfl

theorem lengthsFit_iff_parts {v : Value} :
    v.LengthsFit ↔ v.extent < lengthLimit ∧ ∀ w ∈ v.parts, w.LengthsFit := by
  cases v with
  | struct fs =>
    simp only [lengthsFit_struct_iff, extent, parts, List.forall_mem_map]
    exact (and_iff_right (by decide)).symm
  | map k c xs =>
    simp only [lengthsFit_map_iff, extent, parts, List.forall_mem_flatMap, List.forall_mem_cons, List.not_mem_nil,
      false_implies, implies_true, and_true]
  | set c vs => exact lengthsFit_set_iff
  | list c vs => exact lengthsFit_list_iff
  | _ => simp [LengthsFit, nodes, parts]

/-- No deeper, no longer to write, and written if the other can be. -/
structure NoLarger (w v : Value) : Prop where
  depth_le : w.depth ≤ v.depth
  size_le : w.size ≤ v.size
  lengthsFit : v.LengthsFit → w.LengthsFit

theorem NoLarger.refl (v : Value) : NoLarger v v := ⟨Nat.le_refl _, Nat.le_refl _, id⟩

/-- The parts need only be drawn from those of a struct or container. -/
theorem NoLarger.of_parts {w v : Value} (hn : v.typeCode.nests = true) (hown : w.ownSize ≤ v.ownSize)
    (hextent : w.extent ≤ v.extent) (hparts : Drawn NoLarger w.parts v.parts) : NoLarger w v := by
  refine ⟨?_, ?_, ?_⟩
  · obtain ⟨n, hd⟩ := Nat.exists_eq_add_of_lt (depth_pos_iff.mpr hn)
    have hbound : ∀ b ∈ v.parts, b.depth ≤ n := depth_le_succ_iff.mp (by omega)
    have hw : w.depth ≤ n + 1 :=
      depth_le_succ_iff.mpr (hparts.forall_mem fun b hb a hab => Nat.le_trans hab.depth_le (hbound b hb))
    omega
  · rw [size_eq w, size_eq v]
    exact Nat.add_le_add hown (hparts.sum_le fun a b hab => hab.size_le)
  · intro hv
    obtain ⟨hlt, hfit⟩ := lengthsFit_iff_parts.mp hv
    refine lengthsFit_iff_parts.mpr ⟨Nat.lt_of_le_of_lt hextent hlt, ?_⟩
    exact hparts.forall_mem fun b hb a hab => hab.lengthsFit (hfit b hb)

variable {c d k l : TypeCode}

theorem NoLarger.list {ws vs : List Value} (h : Drawn NoLarger ws vs) : NoLarger (.list c ws) (.list d vs) :=
  .of_parts rfl (Nat.le_refl 5) h.length_le h

theorem NoLarger.set {ws vs : List Value} (h : Drawn NoLarger ws vs) : NoLarger (.set c ws) (.set d vs) :=
  .of_parts rfl (Nat.le_refl 5) h.length_le h

theorem NoLarger.map {ys xs : List (Value × Value)} (h : Drawn (fun y x => NoLarger y.1 x.1 ∧ NoLarger y.2 x.2) ys xs) :
    NoLarger (.map k c ys) (.map l d xs) :=
  .of_parts rfl (Nat.le_refl 6) h.length_le (h.flatMap fun _ _ h => .cons h.1 (.cons h.2 .nil))

theorem NoLarger.struct {gs fs : List Field} (h : Drawn (fun g f => NoLarger g.2 f.2) gs fs) :
    NoLarger (.struct gs) (.struct fs) := by
  refine .of_parts rfl ?_ (Nat.le_refl 0) ?_
  · have hle := h.length_le
    simp only [ownSize]
    omega
  · simp only [parts, List.map_eq_flatMap]
    exact h.flatMap fun _ _ h => .cons h .nil

end Value
end TaggedWire
