import TaggedWire.Host.Wire
import TaggedWire.Proofs.Outcome

/-! Reading a host value, level by level. A value with another code than the type's is a mismatch; of a container the
entries are read in order, and of a record the members, each from the first field with its id and code. -/
namespace TaggedWire

/-- To read the value as the type, a part of it is read as a type of its own: the value itself, the entries of a container,
and of a struct the first field of each member. -/
inductive ReadsPart (catalog : Catalog) : Value → HostType → Value → HostType → Prop where
  | here (v : Value) (t : HostType) : ReadsPart catalog v t v t
  | list {c : TypeCode} {vs : List Value} {v w : Value} {t s : HostType} : v ∈ vs → ReadsPart catalog v t w s →
      ReadsPart catalog (.list c vs) (.list t) w s
  | set {c : TypeCode} {vs : List Value} {v w : Value} {t s : HostType} : v ∈ vs → ReadsPart catalog v t w s →
      ReadsPart catalog (.set c vs) (.set t) w s
  | key {k c : TypeCode} {xs : List (Value × Value)} {x : Value × Value} {w : Value} {key value s : HostType} : x ∈ xs →
      ReadsPart catalog x.1 key w s → ReadsPart catalog (.map k c xs) (.map key value) w s
  | value {k c : TypeCode} {xs : List (Value × Value)} {x : Value × Value} {w : Value} {key value s : HostType} : x ∈ xs →
      ReadsPart catalog x.2 value w s → ReadsPart catalog (.map k c xs) (.map key value) w s
  | member {fs : List Field} {name : String} {m : Member} {v w : Value} {s : HostType} : m ∈ catalog name →
      fieldAt fs m.key = some v → ReadsPart catalog v m.type w s → ReadsPart catalog (.struct fs) (.record name) w s

variable {catalog : Catalog} {t elem key value : HostType} {v : Value} {c k : TypeCode} {vs : List Value}
  {items : List (Value × Value)} {fs : List Field} {x : HostValue} {e : DecodeError}

theorem fromWireAll_eq (vs : List Value) (t : HostType) :
    fromWireAll catalog vs t = vs.mapM fun v => fromWire catalog v t := by
  induction vs with
  | nil => rfl
  | cons v vs ih => rw [fromWireAll, ih, List.mapM_cons]

/-- An item of a map: its key, then its value. -/
def fromWireItem (catalog : Catalog) (key value : HostType) (x : Value × Value) :
    Except DecodeError (HostValue × HostValue) :=
  return (← fromWire catalog x.1 key, ← fromWire catalog x.2 value)

theorem fromWireItem_eq_ok_iff {x : Value × Value} {y : HostValue × HostValue} :
    fromWireItem catalog key value x = .ok y ↔
      fromWire catalog x.1 key = .ok y.1 ∧ fromWire catalog x.2 value = .ok y.2 :=
  pair_eq_ok_iff

/-- An item fails with its key, or else with its value. -/
theorem fromWireItem_eq_error_iff {i : Value × Value} : fromWireItem catalog key value i = .error e ↔
    fromWire catalog i.1 key = .error e ∨
      (∃ a, fromWire catalog i.1 key = .ok a) ∧ fromWire catalog i.2 value = .error e :=
  pair_eq_error_iff

theorem fromWireItems_eq (items : List (Value × Value)) (key value : HostType) :
    fromWireItems catalog items key value = items.mapM (fromWireItem catalog key value) := by
  induction items with
  | nil => rfl
  | cons x items ih =>
    rw [fromWireItems, ih, List.mapM_cons, fromWireItem]
    simp only [bind_assoc, pure_bind]

theorem fromWire_of_typeCode_ne (hne : v.typeCode ≠ t.code) :
    fromWire catalog v t = .error (.typeMismatch t.code v.typeCode) := by
  cases v <;> cases t <;> first | rfl | exact absurd rfl hne

theorem typeCode_of_fromWire (hx : fromWire catalog v t = .ok x) : v.typeCode = t.code := by
  by_contra hne
  rw [fromWire_of_typeCode_ne hne] at hx
  cases hx

theorem expectCode_eq_ok_iff {expected actual : TypeCode} :
    expectCode expected actual = .ok () ↔ actual = expected := by
  by_cases h : actual = expected <;> simp [expectCode, h]

theorem expectCode_eq_error_iff {expected actual : TypeCode} :
    expectCode expected actual = .error e ↔ actual ≠ expected ∧ e = .typeMismatch expected actual := by
  by_cases h : actual = expected <;> simp [expectCode, h, eq_comm]

/-- The codes of the entries count only if there are some. -/
def checkFilled {α : Type} (xs : List α) (check : Except DecodeError Unit) : Except DecodeError Unit :=
  if xs.isEmpty then .ok () else check

theorem checkFilled_nil {α : Type} (check : Except DecodeError Unit) : checkFilled ([] : List α) check = .ok () := rfl

theorem checkFilled_middle {α : Type} {before after : List α} {x : α} (check : Except DecodeError Unit) :
    checkFilled (before ++ x :: after) check = check := by
  simp [checkFilled]

theorem checkFilled_eq_ok_iff {α : Type} {xs : List α} {check : Except DecodeError Unit} :
    checkFilled xs check = .ok () ↔ (xs ≠ [] → check = .ok ()) := by
  cases xs <;> simp [checkFilled]

/-- Of a container that has entries, the codes are looked at first, and then the entries one by one. -/
theorem checkFilled_bind_eq_error_iff {α β γ : Type} {as : List α} {check : Except DecodeError Unit}
    {f : α → Except DecodeError β} {g : List β → γ} :
    (checkFilled as check >>= fun _ => (as.mapM f).map g) = .error e ↔
      as ≠ [] ∧ (check = .error e ∨ check = .ok () ∧ ∃ before a after, as = before ++ a :: after ∧
        (∀ a' ∈ before, ∃ b, f a' = .ok b) ∧ f a = .error e) := by
  rw [check_bind_eq_error_iff, map_eq_error_iff, mapM_eq_error_iff]
  cases as with
  | nil => simp [checkFilled]
  | cons a as => simp [checkFilled]

theorem fromWire_list_eq : fromWire catalog (.list c vs) (.list elem) = (do
    checkFilled vs (expectCode elem.code c)
    (vs.mapM fun v => fromWire catalog v elem).map .list) := by
  rw [fromWire, fromWireAll_eq]
  cases vs <;> rfl

theorem fromWire_set_eq : fromWire catalog (.set c vs) (.set elem) = (do
    checkFilled vs (expectCode elem.code c)
    (vs.mapM fun v => fromWire catalog v elem).map .setOf) := by
  rw [fromWire, fromWireAll_eq]
  cases vs <;> rfl

theorem fromWire_map_eq : fromWire catalog (.map k c items) (.map key value) = (do
    checkFilled items (do
      expectCode key.code k
      expectCode value.code c)
    (items.mapM (fromWireItem catalog key value)).map .mapOf) := by
  rw [fromWire, fromWireItems_eq]
  cases items with
  | nil => rfl
  | cons x items =>
    simp only [checkFilled, List.isEmpty_cons, Bool.false_eq_true, if_false, bind_assoc]
    rfl

theorem fromWire_struct_eq {name : String} : fromWire catalog (.struct fs) (.record name) =
    ((catalog name).mapM (readMember catalog fs)).map .record := by
  rw [fromWire]
  rfl

/-- Where the codes are those of the type, only the entries decide how the reading ends. -/
theorem fromWire_list_of_code (hc : vs ≠ [] → c = elem.code) : fromWire catalog (.list c vs) (.list elem) =
    (vs.mapM fun v => fromWire catalog v elem).map .list := by
  have hcheck : checkFilled vs (expectCode elem.code c) = .ok () :=
    checkFilled_eq_ok_iff.mpr fun hne => expectCode_eq_ok_iff.mpr (hc hne)
  rw [fromWire_list_eq, hcheck]
  rfl

theorem fromWire_set_of_code (hc : vs ≠ [] → c = elem.code) : fromWire catalog (.set c vs) (.set elem) =
    (vs.mapM fun v => fromWire catalog v elem).map .setOf := by
  have hcheck : checkFilled vs (expectCode elem.code c) = .ok () :=
    checkFilled_eq_ok_iff.mpr fun hne => expectCode_eq_ok_iff.mpr (hc hne)
  rw [fromWire_set_eq, hcheck]
  rfl

theorem fromWire_map_of_code (hc : items ≠ [] → k = key.code ∧ c = value.code) :
    fromWire catalog (.map k c items) (.map key value) =
      (items.mapM (fromWireItem catalog key value)).map .mapOf := by
  have hcheck : checkFilled items (do expectCode key.code k; expectCode value.code c) = .ok () := by
    refine checkFilled_eq_ok_iff.mpr fun hne => check_bind_eq_ok_iff.mpr ?_
    exact ⟨expectCode_eq_ok_iff.mpr (hc hne).1, expectCode_eq_ok_iff.mpr (hc hne).2⟩
  rw [fromWire_map_eq, hcheck]
  rfl

theorem fromWire_list_eq_ok_iff : fromWire catalog (.list c vs) (.list elem) = .ok x ↔
    (vs ≠ [] → c = elem.code) ∧
      ∃ xs, List.Forall₂ (fun v y => fromWire catalog v elem = .ok y) vs xs ∧ x = .list xs := by
  rw [fromWire_list_eq, check_bind_eq_ok_iff, checkFilled_eq_ok_iff, expectCode_eq_ok_iff]
  simp only [map_eq_ok_iff, mapM_eq_ok_iff]

theorem fromWire_set_eq_ok_iff : fromWire catalog (.set c vs) (.set elem) = .ok x ↔
    (vs ≠ [] → c = elem.code) ∧
      ∃ xs, List.Forall₂ (fun v y => fromWire catalog v elem = .ok y) vs xs ∧ x = .setOf xs := by
  rw [fromWire_set_eq, check_bind_eq_ok_iff, checkFilled_eq_ok_iff, expectCode_eq_ok_iff]
  simp only [map_eq_ok_iff, mapM_eq_ok_iff]

theorem fromWire_map_eq_ok_iff : fromWire catalog (.map k c items) (.map key value) = .ok x ↔
    (items ≠ [] → k = key.code ∧ c = value.code) ∧
      ∃ xs, List.Forall₂ (fun i y => fromWire catalog i.1 key = .ok y.1 ∧ fromWire catalog i.2 value = .ok y.2)
        items xs ∧ x = .mapOf xs := by
  rw [fromWire_map_eq, check_bind_eq_ok_iff, checkFilled_eq_ok_iff, check_bind_eq_ok_iff,
    expectCode_eq_ok_iff, expectCode_eq_ok_iff]
  simp only [map_eq_ok_iff, mapM_eq_ok_iff, fromWireItem_eq_ok_iff]

theorem readMember_eq (catalog : Catalog) (fs : List Field) (m : Member) :
    readMember catalog fs m = m.settle ((fieldAt fs m.key).map fun v => fromWire catalog v m.type) := by
  rw [readMember, fromWireField_eq]

theorem readMember_of_fieldAt {m : Member} (hv : fieldAt fs m.key = some v) :
    readMember catalog fs m = (fromWire catalog v m.type).map some := by
  rw [readMember_eq, hv]
  rfl

theorem readMember_of_absent {m : Member} (hv : fieldAt fs m.key = none) :
    readMember catalog fs m = if m.optional then .ok none else .error (.missingRequiredField m.id) := by
  rw [readMember_eq, hv]
  rfl

theorem readMember_eq_ok_none_iff {m : Member} :
    readMember catalog fs m = .ok none ↔ fieldAt fs m.key = none ∧ m.optional = true := by
  cases hf : fieldAt fs m.key with
  | none =>
    rw [readMember_of_absent hf]
    cases m.optional <;> simp
  | some v =>
    rw [readMember_of_fieldAt hf, map_eq_ok_iff]
    simp

theorem readMember_eq_ok_some_iff {m : Member} : readMember catalog fs m = .ok (some x) ↔
    ∃ v, fieldAt fs m.key = some v ∧ fromWire catalog v m.type = .ok x := by
  cases hf : fieldAt fs m.key with
  | none =>
    rw [readMember_of_absent hf]
    cases m.optional <;> simp
  | some v =>
    rw [readMember_of_fieldAt hf, map_eq_ok_iff]
    simp

theorem fromWire_struct_eq_ok_iff {name : String} : fromWire catalog (.struct fs) (.record name) = .ok x ↔
    ∃ slots, List.Forall₂ (fun m slot => readMember catalog fs m = .ok slot) (catalog name) slots ∧
      x = .record slots := by
  simp only [fromWire_struct_eq, map_eq_ok_iff, mapM_eq_ok_iff]

theorem ReadsPart.exists_ok {w : Value} {s : HostType} (hp : ReadsPart catalog v t w s)
    (hx : fromWire catalog v t = .ok x) : ∃ y, fromWire catalog w s = .ok y := by
  induction hp generalizing x with
  | here v t => exact ⟨x, hx⟩
  | list hv _ ih =>
    obtain ⟨-, xs, hxs, -⟩ := fromWire_list_eq_ok_iff.mp hx
    obtain ⟨y, -, hy⟩ := exists_of_forall₂_of_mem hxs hv
    exact ih hy
  | set hv _ ih =>
    obtain ⟨-, xs, hxs, -⟩ := fromWire_set_eq_ok_iff.mp hx
    obtain ⟨y, -, hy⟩ := exists_of_forall₂_of_mem hxs hv
    exact ih hy
  | key hi _ ih =>
    obtain ⟨-, xs, hxs, -⟩ := fromWire_map_eq_ok_iff.mp hx
    obtain ⟨y, -, hy, -⟩ := exists_of_forall₂_of_mem hxs hi
    exact ih hy
  | value hi _ ih =>
    obtain ⟨-, xs, hxs, -⟩ := fromWire_map_eq_ok_iff.mp hx
    obtain ⟨y, -, -, hy⟩ := exists_of_forall₂_of_mem hxs hi
    exact ih hy
  | member hm hv _ ih =>
    obtain ⟨slots, hslots, -⟩ := fromWire_struct_eq_ok_iff.mp hx
    obtain ⟨slot, -, hslot⟩ := exists_of_forall₂_of_mem hslots hm
    rw [readMember_of_fieldAt hv, map_eq_ok_iff] at hslot
    obtain ⟨y, hy, -⟩ := hslot
    exact ih hy

end TaggedWire
