import TaggedWire.Proofs.Outcome
import TaggedWire.Schema.Rewire

/-! Children of a descriptor: as many handles as it has children can be put in their places, and are read there again. All
else of the descriptor stays as it is. -/
namespace TaggedWire
namespace Schema

theorem map_type_retype {fs : List FieldDescriptor} {rs : List Handle} (hl : fs.length = rs.length) :
    (retype fs rs).map (·.type) = rs := by
  induction fs generalizing rs with
  | nil =>
    obtain rfl := List.length_eq_zero_iff.mp hl.symm
    rfl
  | cons f fs ih =>
    obtain ⟨r, rs, rfl⟩ := List.exists_cons_of_length_eq_add_one hl.symm
    simp only [retype, List.map_cons, ih (Nat.succ.inj hl)]

namespace Descriptor

theorem children_withChildren {d : Descriptor} {rs : List Handle} (hl : d.children.length = rs.length) :
    (d.withChildren rs).children = rs := by
  match d, rs, hl with
  | .primitive _, [], _ | .enum .., [], _ | .reference .., [], _ => rfl
  | .list _, [_], _ | .set _, [_], _ | .typedef .., [_], _ => rfl
  | .map .., [_, _], _ => rfl
  | .struct _ _ fs, rs, hl => exact map_type_retype (by simpa [children] using hl)

@[simp] theorem isReference_withChildren (d : Descriptor) (rs : List Handle) :
    (d.withChildren rs).isReference = d.isReference := by
  cases d <;> rfl

end Descriptor

def FieldDescriptor.cleared (fd : FieldDescriptor) : FieldDescriptor := { fd with type := 0 }

/-- The descriptor with nothing said of its children. -/
def Descriptor.cleared : Descriptor → Descriptor
  | .list _ => .list 0
  | .set _ => .set 0
  | .map .. => .map 0 0
  | .struct kind name fields => .struct kind name (fields.map FieldDescriptor.cleared)
  | .typedef name _ line => .typedef name 0 line
  | .primitive p => .primitive p
  | .enum name items => .enum name items
  | .reference name line => .reference name line

theorem map_cleared_retype (fds : List FieldDescriptor) (hs : List Handle) :
    (retype fds hs).map FieldDescriptor.cleared = fds.map FieldDescriptor.cleared := by
  induction fds generalizing hs with
  | nil => cases hs <;> rfl
  | cons fd fds ih =>
    cases hs with
    | nil => rfl
    | cons h hs => simp only [retype, List.map_cons, ih, FieldDescriptor.cleared]

theorem Descriptor.cleared_withChildren (d : Descriptor) (hs : List Handle) : (d.withChildren hs).cleared = d.cleared := by
  cases d with
  | struct kind name fields => simp only [withChildren, cleared, map_cleared_retype]
  | _ => rfl

theorem retype_self (fds : List FieldDescriptor) : retype fds (fds.map (·.type)) = fds := by
  induction fds with
  | nil => rfl
  | cons fd fds ih => simp only [List.map_cons, retype, ih]

theorem retype_append_drop (fds : List FieldDescriptor) (hs : List Handle) :
    retype fds (hs ++ (fds.map (·.type)).drop hs.length) = retype fds hs := by
  induction fds generalizing hs with
  | nil => cases hs <;> rfl
  | cons fd fds ih =>
    cases hs with
    | nil => exact retype_self (fd :: fds)
    | cons h hs => exact congrArg (List.cons { fd with type := h }) (ih hs)

/-- The last children stay if they are put where they are, too. -/
theorem Descriptor.withChildren_append_drop (d : Descriptor) (hs : List Handle) :
    d.withChildren (hs ++ d.children.drop hs.length) = d.withChildren hs := by
  cases d with
  | struct kind name fields => exact congrArg (Descriptor.struct kind name) (retype_append_drop fields hs)
  | map key value =>
    cases hs with
    | nil => rfl
    | cons k hs => cases hs <;> rfl
  | list elem => cases hs <;> rfl
  | set elem => cases hs <;> rfl
  | typedef name target line => cases hs <;> rfl
  | _ => rfl

variable {ε : Type} {f : Handle → Except ε Handle}

theorem mapUntil_eq_none_iff {hs rs : List Handle} :
    mapUntil f hs = (rs, none) ↔ List.Forall₂ (fun h r => f h = .ok r) hs rs := by
  induction hs generalizing rs with
  | nil => simp [mapUntil, eq_comm]
  | cons h hs ih =>
    rw [List.forall₂_cons_left_iff]
    cases hf : f h with
    | error e => simp [mapUntil, hf]
    | ok r =>
      simp only [mapUntil, hf, Prod.mk.injEq, Except.ok.injEq, ← ih]
      constructor
      · intro hm
        obtain ⟨hrs, hnone⟩ := hm
        exact ⟨r, _, rfl, Prod.ext rfl hnone, hrs.symm⟩
      · intro hm
        obtain ⟨r', rs', rfl, hrs, rfl⟩ := hm
        exact ⟨by rw [hrs], by rw [hrs]⟩

/-- A mapping that ends early has met a handle that fails. -/
theorem exists_of_mapUntil_eq_some {hs : List Handle} {e : ε} (he : (mapUntil f hs).2 = some e) :
    ∃ h ∈ hs, f h = .error e := by
  induction hs with
  | nil => cases he
  | cons h hs ih =>
    cases hf : f h with
    | error e' =>
      rw [mapUntil, hf] at he
      exact ⟨h, List.mem_cons_self, by rw [hf, Option.some.inj he]⟩
    | ok r =>
      rw [mapUntil, hf] at he
      obtain ⟨g, hg, hfg⟩ := ih he
      exact ⟨g, List.mem_cons_of_mem h hg, hfg⟩

/-- A rewiring that is not ended early has put something in the place of each child. -/
theorem Descriptor.rewire_error_eq_none_iff {d d' : Descriptor} :
    ((d.rewire f).error = none ∧ (d.rewire f).descriptor = d') ↔
      ∃ rs, List.Forall₂ (fun h r => f h = .ok r) d.children rs ∧ d' = d.withChildren rs := by
  simp only [← mapUntil_eq_none_iff]
  constructor
  · intro h
    obtain ⟨hnone, rfl⟩ := h
    exact ⟨_, Prod.ext rfl hnone, rfl⟩
  · intro h
    obtain ⟨rs, hm, rfl⟩ := h
    exact ⟨by rw [rewire, hm], by rw [rewire, hm]⟩

end Schema
end TaggedWire
