import TaggedWire.Proofs.Host.Typing
import TaggedWire.Proofs.Outcome

/-! The orders in which one host value may be listed. A set and a map are listed in any order, at every depth where a
program can hold them: in a slot, in a list, or under a key. What is in a set or serves as a key is hashed as a whole,
so no set or map lies inside it. -/
namespace TaggedWire
namespace HostValue

/-- The same host value with its sets and maps listed in other orders. -/
inductive Relisted : HostValue → HostValue → Prop
  | same (x : HostValue) : Relisted x x
  | list {xs ys : List HostValue} : List.Forall₂ Relisted xs ys → Relisted (.list xs) (.list ys)
  | set {xs ys : List HostValue} : xs.Perm ys → Relisted (.set xs) (.set ys)
  | map {xs ys zs : List (HostValue × HostValue)} : xs.map Prod.fst = ys.map Prod.fst →
    List.Forall₂ Relisted (xs.map Prod.snd) (ys.map Prod.snd) → ys.Perm zs → Relisted (.map xs) (.map zs)
  | record {slots slots' : List (Option HostValue)} :
    List.Forall₂ (Option.Rel Relisted) slots slots' → Relisted (.record slots) (.record slots')

variable {catalog : Catalog} {t : HostType} {x y : HostValue} {xs : List HostValue}
  {items : List (HostValue × HostValue)} {slots : List (Option HostValue)} {ms : List Member}

/-- An item of a map under its key. -/
def RelistedItem (x y : HostValue × HostValue) : Prop := x.1 = y.1 ∧ x.2.Relisted y.2

theorem relisted_list_iff : (HostValue.list xs).Relisted y ↔ ∃ ys, List.Forall₂ Relisted xs ys ∧ y = .list ys := by
  constructor
  · intro h
    cases h with
    | same => exact ⟨xs, List.forall₂_same.mpr fun x _ => .same x, rfl⟩
    | list h => exact ⟨_, h, rfl⟩
  · rintro ⟨ys, h, rfl⟩
    exact .list h

theorem relisted_set_iff : (HostValue.set xs).Relisted y ↔ ∃ ys, xs.Perm ys ∧ y = .set ys := by
  constructor
  · intro h
    cases h with
    | same => exact ⟨xs, .refl xs, rfl⟩
    | set h => exact ⟨_, h, rfl⟩
  · rintro ⟨ys, h, rfl⟩
    exact .set h

theorem relisted_map_iff : (HostValue.map items).Relisted y ↔
    ∃ ys zs, List.Forall₂ RelistedItem items ys ∧ ys.Perm zs ∧ y = .map zs := by
  have hitems (ys : List (HostValue × HostValue)) : List.Forall₂ RelistedItem items ys ↔
      items.map Prod.fst = ys.map Prod.fst ∧ List.Forall₂ Relisted (items.map Prod.snd) (ys.map Prod.snd) := by
    have hpairs : List.Forall₂ RelistedItem items ys ↔ _ := forall₂_and_iff (R := Eq)
    rwa [List.forall₂_eq_eq_eq] at hpairs
  constructor
  · intro h
    cases h with
    | same => exact ⟨items, items, List.forall₂_same.mpr fun x _ => ⟨rfl, .same x.2⟩, .refl items, rfl⟩
    | map hkeys hvalues hperm => exact ⟨_, _, (hitems _).mpr ⟨hkeys, hvalues⟩, hperm, rfl⟩
  · rintro ⟨ys, zs, h, hperm, rfl⟩
    exact .map ((hitems ys).mp h).1 ((hitems ys).mp h).2 hperm

theorem relisted_record_iff : (HostValue.record slots).Relisted y ↔
    ∃ slots', List.Forall₂ (Option.Rel Relisted) slots slots' ∧ y = .record slots' := by
  constructor
  · intro h
    cases h with
    | same =>
      refine ⟨slots, List.forall₂_same.mpr fun slot _ => ?_, rfl⟩
      cases slot with
      | none => exact .none
      | some x => exact .some (.same x)
    | record h => exact ⟨_, h, rfl⟩
  · rintro ⟨slots', h, rfl⟩
    exact .record h

theorem Fills.relisted (hf : Fills catalog slots ms) {slots' : List (Option HostValue)}
    (h : List.Forall₂ (Option.Rel Relisted) slots slots')
    (hslots : ∀ x, some x ∈ slots → ∀ t y, x.HasType catalog t → x.Relisted y → y.HasType catalog t) :
    Fills catalog slots' ms := by
  induction h generalizing ms with
  | nil => exact hf
  | cons hslot _ ih =>
    have hrest := fun x hx => hslots x (List.mem_cons_of_mem _ hx)
    cases hf with
    | empty ho hf =>
      cases hslot
      exact .empty ho (ih hf hrest)
    | filled hx hf =>
      cases hslot with
      | some hxy => exact .filled (hslots _ List.mem_cons_self _ _ hx hxy) (ih hf hrest)

/-- A value keeps its type in every order of its sets and maps. -/
theorem HasType.relisted (hx : x.HasType catalog t) (h : x.Relisted y) : y.HasType catalog t := by
  induction x generalizing t y with
  | list xs ih =>
    obtain ⟨ys, hys, rfl⟩ := relisted_list_iff.mp h
    cases hx with
    | list hxs => exact .list (forall_mem_of_forall₂ hys fun x hx y hxy => ih x hx (hxs x hx) hxy)
  | set xs ih =>
    obtain ⟨ys, hys, rfl⟩ := relisted_set_iff.mp h
    cases hx with
    | set hnodup hxs => exact .set (hys.nodup_iff.mp hnodup) fun y hy => hxs y (hys.mem_iff.mpr hy)
  | map items ih =>
    obtain ⟨ys, zs, hys, hperm, rfl⟩ := relisted_map_iff.mp h
    cases hx with
    | @map _ key value hnodup hkeys hvalues =>
      have hfst : items.map Prod.fst = ys.map Prod.fst := map_eq_map_of_forall₂ hys fun _ _ _ hxy => hxy.1
      have hys' : ∀ y ∈ ys, y.1.HasType catalog key ∧ y.2.HasType catalog value :=
        forall_mem_of_forall₂ hys fun x hx y hxy => ⟨hxy.1 ▸ hkeys x hx, (ih x hx).2 (hvalues x hx) hxy.2⟩
      rw [hfst] at hnodup
      refine .map ((hperm.map Prod.fst).nodup_iff.mp hnodup) ?_ ?_
      · exact fun z hz => (hys' z (hperm.mem_iff.mpr hz)).1
      · exact fun z hz => (hys' z (hperm.mem_iff.mpr hz)).2
  | record slots ih =>
    obtain ⟨slots', hslots, rfl⟩ := relisted_record_iff.mp h
    cases hx with
    | record hf => exact .record (hf.relisted hslots fun x hx t y => ih x hx)
  | _ =>
    cases h
    exact hx

end HostValue
end TaggedWire
