import TaggedWire.Proofs.Codec.Decoding
import TaggedWire.Proofs.Host.Typing

/-! Writing a host value, level by level. What is written has the code of the type, so the checks on parts never stand in
the way: a value of a type is always written, as a well-typed value whose lengths are its own. -/
namespace TaggedWire

variable {catalog : Catalog} {t elem key value : HostType} {v : Value} {x : HostValue} {xs : List HostValue}
  {items : List (HostValue × HostValue)} {slots : List (Option HostValue)} {ms : List Member} {fs : List Field}

theorem fitted_eq_ok_iff {α : Type} {r : Except Misfit α} {a : α} : fitted r = .ok a ↔ r = .ok a := by
  cases r <;> simp [fitted]

theorem toWireAll_eq (xs : List HostValue) (t : HostType) :
    toWireAll catalog xs t = xs.mapM fun x => toWire catalog x t := by
  induction xs with
  | nil => rfl
  | cons x xs ih => rw [toWireAll, ih, List.mapM_cons]

/-- An item of a map: its key, then its value. -/
def toWireItem (catalog : Catalog) (key value : HostType) (x : HostValue × HostValue) :
    Except EncodeError (Value × Value) :=
  return (← toWire catalog x.1 key, ← toWire catalog x.2 value)

theorem toWireItem_eq_ok_iff {x : HostValue × HostValue} {y : Value × Value} :
    toWireItem catalog key value x = .ok y ↔ toWire catalog x.1 key = .ok y.1 ∧ toWire catalog x.2 value = .ok y.2 :=
  pair_eq_ok_iff

theorem toWireItems_eq (items : List (HostValue × HostValue)) (key value : HostType) :
    toWireItems catalog items key value = items.mapM (toWireItem catalog key value) := by
  induction items with
  | nil => rfl
  | cons x items ih =>
    rw [toWireItems, ih, List.mapM_cons, toWireItem]
    simp only [bind_assoc, pure_bind]

theorem typeCode_of_toWire (hv : toWire catalog x t = .ok v) : v.typeCode = t.code := by
  cases x with
  | list xs =>
    cases t with
    | list elem =>
      obtain ⟨vs, -, hlist⟩ := bind_eq_ok_iff.mp hv
      rw [(Value.checkedList_eq_ok_iff.mp (fitted_eq_ok_iff.mp hlist)).2]
      rfl
    | _ => cases hv
  | set xs =>
    cases t with
    | set elem =>
      obtain ⟨vs, -, hset⟩ := bind_eq_ok_iff.mp hv
      rw [(Value.checkedSet_eq_ok_iff.mp (fitted_eq_ok_iff.mp hset)).2]
      rfl
    | _ => cases hv
  | map items =>
    cases t with
    | map key value =>
      obtain ⟨ys, -, hmap⟩ := bind_eq_ok_iff.mp hv
      rw [(Value.checkedMap_eq_ok_iff.mp (fitted_eq_ok_iff.mp hmap)).2]
      rfl
    | _ => cases hv
  | record slots =>
    cases t with
    | record name =>
      obtain ⟨fs, -, hstruct⟩ := bind_eq_ok_iff.mp hv
      rw [pure_eq_ok_iff.mp hstruct]
      rfl
    | _ => cases hv
  | _ =>
    cases t <;> cases hv
    rfl

theorem toWire_list_eq_ok_iff : toWire catalog (.list xs) (.list elem) = .ok v ↔
    ∃ vs, List.Forall₂ (fun x v => toWire catalog x elem = .ok v) xs vs ∧ v = .list elem.code vs := by
  rw [toWire, toWireAll_eq, bind_eq_ok_iff]
  simp only [mapM_eq_ok_iff, fitted_eq_ok_iff, Value.checkedList_eq_ok_iff]
  refine exists_congr fun vs => and_congr_right fun hvs => and_iff_right ?_
  exact forall_mem_of_forall₂ hvs fun _ _ _ hv => typeCode_of_toWire hv

theorem toWire_set_eq_ok_iff : toWire catalog (.set xs) (.set elem) = .ok v ↔
    ∃ vs, List.Forall₂ (fun x v => toWire catalog x elem = .ok v) xs vs ∧ v = .set elem.code vs := by
  rw [toWire, toWireAll_eq, bind_eq_ok_iff]
  simp only [mapM_eq_ok_iff, fitted_eq_ok_iff, Value.checkedSet_eq_ok_iff]
  refine exists_congr fun vs => and_congr_right fun hvs => and_iff_right ?_
  exact forall_mem_of_forall₂ hvs fun _ _ _ hv => typeCode_of_toWire hv

theorem toWire_map_eq_ok_iff : toWire catalog (.map items) (.map key value) = .ok v ↔
    ∃ ys, List.Forall₂ (fun i y => toWire catalog i.1 key = .ok y.1 ∧ toWire catalog i.2 value = .ok y.2) items ys ∧
      v = .map key.code value.code ys := by
  rw [toWire, toWireItems_eq, bind_eq_ok_iff]
  simp only [mapM_eq_ok_iff, toWireItem_eq_ok_iff, fitted_eq_ok_iff, Value.checkedMap_eq_ok_iff]
  refine exists_congr fun ys => and_congr_right fun hys => and_iff_right ?_
  exact forall_mem_of_forall₂ hys fun _ _ _ hy => ⟨typeCode_of_toWire hy.1, typeCode_of_toWire hy.2⟩

/-- The fields of a record: one for each filled slot, with the key of its member. -/
inductive WritesSlots (catalog : Catalog) : List (Option HostValue) → List Member → List Field → Prop
  | nil : WritesSlots catalog [] [] []
  | empty {m : Member} {slots : List (Option HostValue)} {ms : List Member} {fs : List Field} :
    m.optional = true → WritesSlots catalog slots ms fs → WritesSlots catalog (none :: slots) (m :: ms) fs
  | filled {m : Member} {x : HostValue} {v : Value} {slots : List (Option HostValue)} {ms : List Member}
      {fs : List Field} :
    toWire catalog x m.type = .ok v → WritesSlots catalog slots ms fs →
      WritesSlots catalog (some x :: slots) (m :: ms) ((m.key, v) :: fs)

theorem checkedField_of_toWire {m : Member} (hv : toWire catalog x m.type = .ok v) :
    Value.checkedField m.key v = .ok (m.key, v) :=
  Value.checkedField_eq_ok_iff.mpr ⟨typeCode_of_toWire hv, rfl⟩

theorem toWireSlots_eq_ok_iff : toWireSlots catalog slots ms = .ok fs ↔ WritesSlots catalog slots ms fs := by
  constructor
  · intro hfs
    induction slots generalizing ms fs with
    | nil =>
      cases ms with
      | nil =>
        cases hfs
        exact .nil
      | cons m ms => cases hfs
    | cons slot slots ih =>
      cases ms with
      | nil => cases slot <;> cases hfs
      | cons m ms =>
        cases slot with
        | none =>
          rw [toWireSlots] at hfs
          by_cases ho : m.optional = true
          · rw [if_pos ho] at hfs
            exact .empty ho (ih hfs)
          · rw [if_neg ho] at hfs
            cases hfs
        | some x =>
          simp only [toWireSlots, bind_eq_ok_iff, fitted_eq_ok_iff, pure_eq_ok_iff] at hfs
          obtain ⟨v, hv, f, hf, gs, hgs, rfl⟩ := hfs
          rw [checkedField_of_toWire hv] at hf
          obtain rfl := Except.ok.inj hf
          exact .filled hv (ih hgs)
  · intro hw
    induction hw with
    | nil => rfl
    | empty ho _ ih => rw [toWireSlots, if_pos ho, ih]
    | filled hv _ ih =>
      simp only [toWireSlots, bind_eq_ok_iff, fitted_eq_ok_iff, pure_eq_ok_iff]
      exact ⟨_, hv, _, checkedField_of_toWire hv, _, ih, rfl⟩

theorem toWire_record_eq_ok_iff {name : String} : toWire catalog (.record slots) (.record name) = .ok v ↔
    ∃ fs, WritesSlots catalog slots (catalog name) fs ∧ v = .struct fs := by
  rw [toWire, bind_eq_ok_iff]
  simp only [toWireSlots_eq_ok_iff, pure_eq_ok_iff]

/-- Each field is written for a filled slot. -/
theorem WritesSlots.exists_slot (hw : WritesSlots catalog slots ms fs) {f : Field} (hf : f ∈ fs) :
    ∃ m x, m ∈ ms ∧ some x ∈ slots ∧ f.1 = m.key ∧ toWire catalog x m.type = .ok f.2 := by
  induction hw with
  | nil => cases hf
  | empty _ _ ih =>
    obtain ⟨m, x, hm, hx, hk, hv⟩ := ih hf
    exact ⟨m, x, List.mem_cons_of_mem _ hm, List.mem_cons_of_mem _ hx, hk, hv⟩
  | filled hv _ ih =>
    obtain rfl | hf := List.mem_cons.mp hf
    · exact ⟨_, _, List.mem_cons_self, List.mem_cons_self, rfl, hv⟩
    · obtain ⟨m, x, hm, hx, hk, hv⟩ := ih hf
      exact ⟨m, x, List.mem_cons_of_mem _ hm, List.mem_cons_of_mem _ hx, hk, hv⟩

theorem WritesSlots.keys_sublist (hw : WritesSlots catalog slots ms fs) :
    (fs.map Prod.fst).Sublist (ms.map Member.key) := by
  induction hw with
  | nil => exact .slnil
  | empty _ _ ih => exact ih.cons _
  | filled _ _ ih => exact ih.cons_cons _

theorem exists_writesSlots (hslots : ∀ x, some x ∈ slots → ∀ t, x.HasType catalog t → ∃ v, toWire catalog x t = .ok v)
    (hf : HostValue.Fills catalog slots ms) : ∃ fs, WritesSlots catalog slots ms fs := by
  induction slots generalizing ms with
  | nil =>
    cases hf
    exact ⟨[], .nil⟩
  | cons slot slots ih =>
    have hrest := fun ms => @ih ms fun x hx => hslots x (List.mem_cons_of_mem _ hx)
    cases hf with
    | empty ho hf =>
      obtain ⟨fs, hfs⟩ := hrest _ hf
      exact ⟨fs, .empty ho hfs⟩
    | filled hx hf =>
      obtain ⟨v, hv⟩ := hslots _ List.mem_cons_self _ hx
      obtain ⟨fs, hfs⟩ := hrest _ hf
      exact ⟨_, .filled hv hfs⟩

/-- A value of a type is always written: no check of a part fails. -/
theorem exists_toWire (hx : x.HasType catalog t) : ∃ v, toWire catalog x t = .ok v := by
  induction x generalizing t with
  | list xs ih =>
    cases hx with
    | list hxs =>
      obtain ⟨vs, hvs⟩ := exists_forall₂ fun x hmem => ih x hmem (hxs x hmem)
      exact ⟨_, toWire_list_eq_ok_iff.mpr ⟨vs, hvs, rfl⟩⟩
  | set xs ih =>
    cases hx with
    | set _ hxs =>
      obtain ⟨vs, hvs⟩ := exists_forall₂ fun x hmem => ih x hmem (hxs x hmem)
      exact ⟨_, toWire_set_eq_ok_iff.mpr ⟨vs, hvs, rfl⟩⟩
  | map items ih =>
    cases hx with
    | @map _ key value _ hkeys hvalues =>
      have hitem : ∀ i ∈ items, ∃ y : Value × Value,
          toWire catalog i.1 key = .ok y.1 ∧ toWire catalog i.2 value = .ok y.2 := by
        intro i hi
        obtain ⟨k, hk⟩ := (ih i hi).1 (hkeys i hi)
        obtain ⟨v, hv⟩ := (ih i hi).2 (hvalues i hi)
        exact ⟨(k, v), hk, hv⟩
      obtain ⟨ys, hys⟩ := exists_forall₂ hitem
      exact ⟨_, toWire_map_eq_ok_iff.mpr ⟨ys, hys, rfl⟩⟩
  | record slots ih =>
    cases hx with
    | record hf =>
      obtain ⟨fs, hfs⟩ := exists_writesSlots (fun x hmem t => ih x hmem) hf
      exact ⟨_, toWire_record_eq_ok_iff.mpr ⟨fs, hfs, rfl⟩⟩
  | _ =>
    cases hx
    exact ⟨_, rfl⟩

/-- What is said of a written value by induction: of one that holds no others at once, and of a container or record from
what is said of its parts. -/
theorem toWire_induction {motive : HostValue → HostType → Value → Prop}
    (flat : ∀ {x t v}, toWire catalog x t = .ok v → v.typeCode.nests = false → motive x t v)
    (list : ∀ {xs elem vs}, List.Forall₂ (fun x v => toWire catalog x elem = .ok v ∧ motive x elem v) xs vs →
      motive (.list xs) (.list elem) (.list elem.code vs))
    (set : ∀ {xs elem vs}, List.Forall₂ (fun x v => toWire catalog x elem = .ok v ∧ motive x elem v) xs vs →
      motive (.set xs) (.set elem) (.set elem.code vs))
    (map : ∀ {items key value ys},
      List.Forall₂ (fun i y => (toWire catalog i.1 key = .ok y.1 ∧ motive i.1 key y.1) ∧
        toWire catalog i.2 value = .ok y.2 ∧ motive i.2 value y.2) items ys →
      motive (.map items) (.map key value) (.map key.code value.code ys))
    (record : ∀ {slots name fs}, WritesSlots catalog slots (catalog name) fs →
      (∀ x, some x ∈ slots → ∀ t v, toWire catalog x t = .ok v → motive x t v) →
      motive (.record slots) (.record name) (.struct fs))
    (hv : toWire catalog x t = .ok v) : motive x t v := by
  induction x generalizing t v with
  | list xs ih =>
    cases t with
    | list elem =>
      obtain ⟨vs, hvs, rfl⟩ := toWire_list_eq_ok_iff.mp hv
      have hparts := (List.forall₂_and_left _ _).mpr ⟨ih, hvs⟩
      exact list (hparts.imp fun x v h => ⟨h.2, h.1 h.2⟩)
    | _ => cases hv
  | set xs ih =>
    cases t with
    | set elem =>
      obtain ⟨vs, hvs, rfl⟩ := toWire_set_eq_ok_iff.mp hv
      have hparts := (List.forall₂_and_left _ _).mpr ⟨ih, hvs⟩
      exact set (hparts.imp fun x v h => ⟨h.2, h.1 h.2⟩)
    | _ => cases hv
  | map items ih =>
    cases t with
    | map key value =>
      obtain ⟨ys, hys, rfl⟩ := toWire_map_eq_ok_iff.mp hv
      have hparts := (List.forall₂_and_left _ _).mpr ⟨ih, hys⟩
      exact map (hparts.imp fun i y h => ⟨⟨h.2.1, h.1.1 h.2.1⟩, h.2.2, h.1.2 h.2.2⟩)
    | _ => cases hv
  | record slots ih =>
    cases t with
    | record name =>
      obtain ⟨fs, hfs, rfl⟩ := toWire_record_eq_ok_iff.mp hv
      exact record hfs fun x hx t v hv => ih x hx hv
    | _ => cases hv
  | _ =>
    refine flat hv ?_
    cases t <;> cases hv
    rfl

theorem wellTyped_of_toWire (hv : toWire catalog x t = .ok v) : v.WellTyped := by
  refine toWire_induction (motive := fun _ _ v => v.WellTyped) ?flat ?list ?set ?map ?record hv
  case flat =>
    intro x t v _ hn
    exact Value.wellTyped_of_not_nests hn
  case list =>
    intro xs elem vs hvs
    refine Value.wellTyped_list_iff.mpr (forall_mem_of_forall₂ hvs ?_)
    exact fun x _ v hv => ⟨typeCode_of_toWire hv.1, hv.2⟩
  case set =>
    intro xs elem vs hvs
    refine Value.wellTyped_set_iff.mpr (forall_mem_of_forall₂ hvs ?_)
    exact fun x _ v hv => ⟨typeCode_of_toWire hv.1, hv.2⟩
  case map =>
    intro items key value ys hys
    refine Value.wellTyped_map_iff.mpr (forall_mem_of_forall₂ hys ?_)
    exact fun i _ y hy => ⟨⟨typeCode_of_toWire hy.1.1, hy.1.2⟩, typeCode_of_toWire hy.2.1, hy.2.2⟩
  case record =>
    intro slots name fs hfs hslots
    refine Value.wellTyped_struct_iff.mpr fun f hf => ?_
    obtain ⟨m, x, -, hx, hk, hv⟩ := hfs.exists_slot hf
    have hcode : f.2.typeCode = f.1.code := by
      rw [hk]
      exact typeCode_of_toWire hv
    exact ⟨hcode, hslots x hx _ _ hv⟩

theorem lengthsFit_of_not_nests (hv : toWire catalog x t = .ok v) (hn : v.typeCode.nests = false)
    (hl : x.LengthsFit) : v.LengthsFit := by
  have hself : x.extent < lengthLimit := hl x (by cases x <;> exact List.mem_cons_self)
  cases x with
  | list _ | set _ | map _ | record _ =>
    rw [typeCode_of_toWire hv] at hn
    cases t <;> first | cases hv | cases hn
  | _ =>
    cases t <;> cases hv
    exact List.forall_mem_singleton.mpr hself

/-- The lengths that are written are those of the host value. -/
theorem lengthsFit_of_toWire (hv : toWire catalog x t = .ok v) : x.LengthsFit → v.LengthsFit := by
  refine toWire_induction (motive := fun x _ v => x.LengthsFit → v.LengthsFit) ?flat ?list ?set ?map ?record hv
  case flat =>
    intro x t v hv hn
    exact lengthsFit_of_not_nests hv hn
  case list =>
    intro xs elem vs hvs hl
    obtain ⟨hlt, hxs⟩ := HostValue.lengthsFit_list_iff.mp hl
    rw [hvs.length_eq] at hlt
    exact Value.lengthsFit_list_iff.mpr ⟨hlt, forall_mem_of_forall₂ hvs fun x hx v hv => hv.2 (hxs x hx)⟩
  case set =>
    intro xs elem vs hvs hl
    obtain ⟨hlt, hxs⟩ := HostValue.lengthsFit_set_iff.mp hl
    rw [hvs.length_eq] at hlt
    exact Value.lengthsFit_set_iff.mpr ⟨hlt, forall_mem_of_forall₂ hvs fun x hx v hv => hv.2 (hxs x hx)⟩
  case map =>
    intro items key value ys hys hl
    obtain ⟨hlt, hitems⟩ := HostValue.lengthsFit_map_iff.mp hl
    rw [hys.length_eq] at hlt
    refine Value.lengthsFit_map_iff.mpr ⟨hlt, forall_mem_of_forall₂ hys ?_⟩
    exact fun i hi y hy => ⟨hy.1.2 (hitems i hi).1, hy.2.2 (hitems i hi).2⟩
  case record =>
    intro slots name fs hfs hslots hl
    refine Value.lengthsFit_struct_iff.mpr fun f hf => ?_
    obtain ⟨m, x, -, hx, -, hv⟩ := hfs.exists_slot hf
    exact hslots x hx _ _ hv (HostValue.lengthsFit_record_iff.mp hl x hx)

end TaggedWire
