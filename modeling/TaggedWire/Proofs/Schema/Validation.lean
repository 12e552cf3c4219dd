import TaggedWire.Proofs.Schema.Soundness

/-! What a validation accepts, level by level. It looks only at the descriptor that the typedefs lead to: a value with
another code than that one describes is a mismatch, and of the others those are accepted whose parts are accepted by
the children. For a struct a part is what the first field with the id and code of a declared field holds. -/
namespace TaggedWire
namespace Schema
open Relation

namespace TypeTable
variable {t : TypeTable} {h g : Handle} {d : Descriptor} {visited : List Handle}

/-- What is found is at the end of the typedefs from the handle. -/
theorem end_of_targetFrom (ht : t.targetFrom visited h = .ok (g, d)) :
    ReflTransGen t.Points h g ∧ t.arena[g]? = some d ∧ d.isTypedef = false := by
  fun_induction targetFrom t visited h with
  | case1 => cases ht
  | case2 => cases ht
  | case3 visited h name target line hd hv ih =>
    obtain ⟨hg, hend⟩ := ih ht
    exact ⟨.head ⟨name, line, hd⟩ hg, hend⟩
  | case4 visited h d' hnt hd =>
    obtain ⟨rfl, rfl⟩ := Prod.mk.inj (Except.ok.inj ht)
    refine ⟨.refl, hd, ?_⟩
    cases d' with
    | typedef name target line => exact (hnt name target line rfl).elim
    | _ => rfl

theorem arena_of_targetFrom (ht : t.targetFrom visited h = .ok (g, d)) : t.arena[g]? = some d := (end_of_targetFrom ht).2.1

end TypeTable

namespace Linked
variable {l : Linked} {h g : Handle} {d : Descriptor} {v : Value} {t : TypeCode} {fs : List Field}
  {f : FieldDescriptor}

/-- What a struct holds for a declared field: the contents of its first field with that id and the code of the
declared type. -/
def contentsOf (l : Linked) (fs : List Field) (f : FieldDescriptor) : Option Value :=
  match l.code? f.type with
  | .ok (some c) => fieldAt fs ⟨f.id, c⟩
  | _ => none

theorem contentsOf_of_code? (hc : l.code? f.type = .ok (some t)) : l.contentsOf fs f = fieldAt fs ⟨f.id, t⟩ := by
  simp [contentsOf, hc]

/-- The contents are accepted by the declared type, or there are none and none are required. -/
def Satisfied (l : Linked) (fs : List Field) (f : FieldDescriptor) : Prop :=
  match l.contentsOf fs f with
  | some v => l.validate v f.type = .ok ()
  | none => f.requiredness ≠ .required

/-- The value is one that the descriptor describes, as far as its parts are accepted by the children. -/
def Admits (l : Linked) : Descriptor → Value → Prop
  | .primitive _, _ => True
  | .enum _ items, .i32 n => ∃ i ∈ items, i.2 = n
  | .list elem, .list _ vs => ∀ v ∈ vs, l.validate v elem = .ok ()
  | .set elem, .set _ vs => ∀ v ∈ vs, l.validate v elem = .ok ()
  | .map key value, .map _ _ xs => ∀ x ∈ xs, l.validate x.1 key = .ok () ∧ l.validate x.2 value = .ok ()
  | .struct kind _ fields, .struct fs =>
    (∀ f ∈ fields, l.Satisfied fs f) ∧
      (kind = .union → (fields.countP fun f => (l.contentsOf fs f).isSome) = 1)
  | _, _ => False

/-- Whether a declared field is there, or why it is refused. -/
def presence (l : Linked) (name : String) (fs : List Field) (f : FieldDescriptor) : Except ValidationError Bool := do
  match ← checked (l.code? f.type) with
  | none => return false
  | some c =>
    match fieldAt fs ⟨f.id, c⟩ with
    | some v => (l.validate v f.type).map fun _ => true
    | none => if f.requiredness = .required then .error (.missingRequiredField name f.id) else return false

/-- Of the fields only the contents for the declared one count, and of those only how they are validated. -/
theorem presence_of_code? {name : String} (hc : l.code? f.type = .ok (some t)) : l.presence name fs f =
    match (fieldAt fs ⟨f.id, t⟩).map (l.validate · f.type) with
    | some r => r.map fun _ => true
    | none => if f.requiredness = .required then .error (.missingRequiredField name f.id) else .ok false := by
  simp only [presence, hc, checked, bind, Except.bind]
  cases fieldAt fs ⟨f.id, t⟩ <;> rfl

theorem presence_eq_ok_iff {name : String} {b : Bool} (hc : l.code? f.type = .ok (some t)) :
    l.presence name fs f = .ok b ↔ l.Satisfied fs f ∧ b = (l.contentsOf fs f).isSome := by
  rw [presence_of_code? hc, Satisfied, contentsOf_of_code? hc]
  cases fieldAt fs ⟨f.id, t⟩ with
  | some v =>
    simp only [Option.map_some, map_eq_ok_iff]
    exact ⟨fun ⟨_, hok, hb⟩ => ⟨hok, hb⟩, fun ⟨hok, hb⟩ => ⟨(), hok, hb⟩⟩
  | none =>
    by_cases hreq : f.requiredness = .required
    · simp [hreq]
    · simp [hreq, eq_comm]

/-- A struct is validated field by field, and then the fields that are there are counted. -/
theorem validate_struct_eq {kind : StructKind} {name : String} {fields : List FieldDescriptor}
    (ht : l.resolveTypedefs h = .ok (g, .struct kind name fields)) :
    l.validate (.struct fs) h = (do
      let present ← fields.mapM (l.presence name fs)
      if kind = .union ∧ present.count true ≠ 1 then .error (.unionFieldCount name (present.count true))
      else .ok ()) := by
  rw [validate, ht]
  change ((fields.mapM _ : Except ValidationError (List Bool)) >>= _) = _
  congr 2
  funext f
  rw [presence]
  congr 1
  funext c
  cases c with
  | none => rfl
  | some c =>
    simp only [validateField_eq]
    cases fieldAt fs ⟨f.id, c⟩ <;> rfl

theorem mapM_presence_eq_ok_iff {name : String} {fields : List FieldDescriptor}
    (hcode : ∀ f ∈ fields, ∃ c, l.code? f.type = .ok (some c)) {present : List Bool} :
    fields.mapM (l.presence name fs) = .ok present ↔
      (∀ f ∈ fields, l.Satisfied fs f) ∧ present = fields.map fun f => (l.contentsOf fs f).isSome := by
  refine mapM_eq_ok_iff_of_forall fun f hf b => ?_
  obtain ⟨c, hc⟩ := hcode f hf
  exact presence_eq_ok_iff hc

theorem count_contents (l : Linked) (fs : List Field) (fields : List FieldDescriptor) :
    (fields.map fun f => (l.contentsOf fs f).isSome).count true =
      fields.countP fun f => (l.contentsOf fs f).isSome := by
  rw [List.count, List.countP_map]
  congr 1
  funext f
  simp

theorem validate_struct_eq_ok_iff {kind : StructKind} {name : String} {fields : List FieldDescriptor}
    (ht : l.resolveTypedefs h = .ok (g, .struct kind name fields))
    (hcode : ∀ f ∈ fields, ∃ c, l.code? f.type = .ok (some c)) :
    l.validate (.struct fs) h = .ok () ↔ l.Admits (.struct kind name fields) (.struct fs) := by
  rw [validate_struct_eq ht, bind_eq_ok_iff, Admits]
  simp only [mapM_presence_eq_ok_iff hcode]
  constructor
  · intro hok
    obtain ⟨_, ⟨hall, rfl⟩, hunion⟩ := hok
    refine ⟨hall, fun hk => ?_⟩
    rw [count_contents] at hunion
    by_contra hne
    simp [hk, hne] at hunion
  · intro hadmits
    obtain ⟨hall, hunion⟩ := hadmits
    refine ⟨_, ⟨hall, rfl⟩, ?_⟩
    rw [count_contents]
    exact if_neg fun hbad => hbad.2 (hunion hbad.1)

theorem validateAll_eq_mapM (l : Linked) (vs : List Value) (h : Handle) :
    l.validateAll vs h = (vs.mapM fun v => l.validate v h).map fun _ => () := by
  induction vs with
  | nil => rfl
  | cons v vs ih =>
    rw [validateAll, ih, List.mapM_cons]
    cases l.validate v h with
    | error e => rfl
    | ok u => cases vs.mapM fun v => l.validate v h <;> rfl

/-- An item is validated key first. -/
def validateItem (l : Linked) (key value : Handle) (x : Value × Value) : Except ValidationError Unit := do
  l.validate x.1 key
  l.validate x.2 value

theorem validateItem_eq_ok_iff {key value : Handle} {x : Value × Value} :
    l.validateItem key value x = .ok () ↔ l.validate x.1 key = .ok () ∧ l.validate x.2 value = .ok () :=
  check_bind_eq_ok_iff

theorem validateItems_eq_mapM (l : Linked) (xs : List (Value × Value)) (key value : Handle) :
    l.validateItems xs key value = (xs.mapM (l.validateItem key value)).map fun _ => () := by
  induction xs with
  | nil => rfl
  | cons x xs ih =>
    obtain ⟨k, v⟩ := x
    rw [validateItems, ih, List.mapM_cons, validateItem]
    cases l.validate k key with
    | error e => rfl
    | ok u =>
      cases l.validate v value with
      | error e => rfl
      | ok u => cases xs.mapM (l.validateItem key value) <;> rfl

theorem validateAll_eq_ok_iff {vs : List Value} :
    l.validateAll vs h = .ok () ↔ ∀ v ∈ vs, l.validate v h = .ok () := by
  induction vs with
  | nil => simp [validateAll]
  | cons v vs ih => simp [validateAll, check_bind_eq_ok_iff, ih]

theorem validateItems_eq_ok_iff {xs : List (Value × Value)} {key value : Handle} :
    l.validateItems xs key value = .ok () ↔
      ∀ x ∈ xs, l.validate x.1 key = .ok () ∧ l.validate x.2 value = .ok () := by
  induction xs with
  | nil => simp [validateItems]
  | cons x xs ih =>
    obtain ⟨k, v⟩ := x
    simp [validateItems, check_bind_eq_ok_iff, ih, and_assoc]

/-- A handle counts only by what its typedefs lead to. -/
theorem validate_congr {h' : Handle} (hh : l.resolveTypedefs h' = l.resolveTypedefs h) (v : Value) :
    l.validate v h' = l.validate v h := by
  cases v <;> simp only [validate, hh]

/-- Only an enum, a container or a struct looks into values, and only into those with its code. -/
theorem validate_of_code?_ne (ht : l.resolveTypedefs h = .ok (g, d)) (hc : d.code? = some t) (hne : v.typeCode ≠ t) :
    l.validate v h = .error (.typeMismatch t v.typeCode) := by
  have haccepts : d.accepts v.typeCode = .error (.typeMismatch t v.typeCode) := by
    rw [Descriptor.accepts, hc]
    exact if_neg hne.symm
  rw [← haccepts]
  cases v with
  | i32 n =>
    rw [validate, ht]
    cases d with
    | enum name items => exact absurd (Option.some.inj hc) hne
    | _ => rfl
  | list c vs =>
    rw [validate, ht]
    cases d with
    | list elem => exact absurd (Option.some.inj hc) hne
    | _ => rfl
  | set c vs =>
    rw [validate, ht]
    cases d with
    | set elem => exact absurd (Option.some.inj hc) hne
    | _ => rfl
  | map k c xs =>
    rw [validate, ht]
    cases d with
    | map key value => exact absurd (Option.some.inj hc) hne
    | _ => rfl
  | struct fs =>
    rw [validate, ht]
    cases d with
    | struct kind name fields => exact absurd (Option.some.inj hc) hne
    | _ => rfl
  | _ =>
    simp only [validate, ht]
    rfl

theorem typeCode_of_validate (ht : l.resolveTypedefs h = .ok (g, d)) (hc : d.code? = some t)
    (hok : l.validate v h = .ok ()) : v.typeCode = t := by
  by_contra hne
  rw [validate_of_code?_ne ht hc hne] at hok
  cases hok

theorem validate_primitive {p : Primitive} (ht : l.resolveTypedefs h = .ok (g, .primitive p))
    (hv : v.typeCode = p.code) : l.validate v h = .ok () := by
  have haccepts : (Descriptor.primitive p).accepts v.typeCode = .ok () := if_pos hv.symm
  rw [← haccepts]
  cases v <;> simp only [validate, ht] <;> rfl

theorem validate_list_eq {elem : Handle} {c : TypeCode} {vs : List Value} (ht : l.resolveTypedefs h = .ok (g, .list elem)) :
    l.validate (.list c vs) h = l.validateAll vs elem := by
  rw [validate, ht]
  rfl

theorem validate_set_eq {elem : Handle} {c : TypeCode} {vs : List Value} (ht : l.resolveTypedefs h = .ok (g, .set elem)) :
    l.validate (.set c vs) h = l.validateAll vs elem := by
  rw [validate, ht]
  rfl

theorem validate_map_eq {key value : Handle} {k c : TypeCode} {xs : List (Value × Value)}
    (ht : l.resolveTypedefs h = .ok (g, .map key value)) :
    l.validate (.map k c xs) h = l.validateItems xs key value := by
  rw [validate, ht]
  rfl

theorem validate_enum_eq {name : String} {items : List (String × Int32)} {n : Int32}
    (ht : l.resolveTypedefs h = .ok (g, .enum name items)) :
    l.validate (.i32 n) h = if ∃ i ∈ items, i.2 = n then .ok () else .error (.unknownEnumValue name n) := by
  have hitems : hasNumber items n = true ↔ ∃ i ∈ items, i.2 = n := by simp [hasNumber]
  rw [validate, ht]
  change (if hasNumber items n = true then _ else _) = _
  simp only [hitems]

theorem validate_eq_ok_iff_admits (ht : l.resolveTypedefs h = .ok (g, d)) (hv : d.code? = some v.typeCode)
    (hcode : ∀ c ∈ d.children, ∃ t, l.code? c = .ok (some t)) : l.validate v h = .ok () ↔ l.Admits d v := by
  cases d with
  | primitive p => exact iff_of_true (validate_primitive ht (Option.some.inj hv).symm) trivial
  | list elem =>
    cases v with
    | list c vs => rw [validate_list_eq ht, Admits, validateAll_eq_ok_iff]
    | _ => cases hv
  | set elem =>
    cases v with
    | set c vs => rw [validate_set_eq ht, Admits, validateAll_eq_ok_iff]
    | _ => cases hv
  | map key value =>
    cases v with
    | map k c xs => rw [validate_map_eq ht, Admits, validateItems_eq_ok_iff]
    | _ => cases hv
  | struct kind name fields =>
    cases v with
    | struct fs => exact validate_struct_eq_ok_iff ht fun f hf => hcode f.type (List.mem_map_of_mem hf)
    | _ => cases hv
  | enum name items =>
    cases v with
    | i32 n =>
      rw [validate_enum_eq ht, Admits]
      by_cases hn : ∃ i ∈ items, i.2 = n
      · simp [hn]
      · simp [hn]
    | _ => cases hv
  | typedef name target line => cases hv
  | reference name line => cases hv

end Linked

namespace Draft
variable {s : Draft} {l : Linked} {h : Handle}

/-- After a link a reachable handle has a code and leads through typedefs to a descriptor. A value with another code is
a mismatch of just the two codes; any other is accepted exactly if the descriptor admits it. A second handle that leads
to the same place gives the same answers. -/
theorem validate_reachable (hok : s.link.outcome = .ok l) (hr : l.Reachable h) :
    ∃ t g d, l.code? h = .ok (some t) ∧ l.resolveTypedefs h = .ok (g, d) ∧ l.arena[g]? = some d ∧
      (∀ v, v.typeCode ≠ t → l.validate v h = .error (.typeMismatch t v.typeCode)) ∧
      (∀ v, v.typeCode = t → (l.validate v h = .ok () ↔ l.Admits d v)) ∧
      ∀ h' d', l.resolveTypedefs h' = .ok (g, d') → ∀ v, l.validate v h' = l.validate v h := by
  have hs := sound_of_link hok
  obtain ⟨g, d, -, hg, hd, hn, href, ht⟩ := hs.exists_target hr
  obtain ⟨t, hc⟩ := Descriptor.exists_code? hn href
  have hchildren : ∀ c ∈ d.children, ∃ t, l.code? c = .ok (some t) := fun c hmem =>
    hs.exists_code? (hg.child hd hmem)
  refine ⟨t, g, d, by rw [Linked.code?, ht, ← hc]; rfl, ht, hd, fun v => Linked.validate_of_code?_ne ht hc, ?_, ?_⟩
  · intro v hv
    exact Linked.validate_eq_ok_iff_admits ht (by rw [hc, hv]) hchildren
  · intro h' d' ht'
    have hd' : l.arena[g]? = some d' := TypeTable.arena_of_targetFrom ht'
    obtain rfl : d = d' := Option.some.inj (hd.symm.trans hd')
    exact Linked.validate_congr (ht'.trans ht.symm)

/-- A union behind a typedef: one declared field there, none, and a value of another code. The second handle is the
union itself. -/
theorem validate_reachable_union :
    let side (id : Int16) (name : String) : FieldDescriptor := ⟨id, name, .unstated, 2⟩
    let shape : Descriptor := .struct .union "Shape" [side 1 "radius", side 2 "side"]
    let named (name : String) (target line : Nat) : Descriptor := .typedef name target line
    let s : Draft := ⟨⟨#[named "Figure" 3 7, shape, .primitive .double, .reference "Shape" 8],
      [("Figure", 0), ("Shape", 1)]⟩, by decide, by decide⟩
    ∃ l : Linked, s.link.outcome = .ok l ∧ l.Reachable 0 ∧
      l.validate (.struct [(⟨1, .i32⟩, .i32 4), (⟨2, .double⟩, .double 0)]) 0 = .ok () ∧
      l.validate (.struct []) 0 ≠ .ok () ∧ l.validate (.i32 4) 0 = .error (.typeMismatch .struct .i32) ∧
      ∀ v, l.validate v 1 = l.validate v 0 := by
  intro side shape named s
  let l : Linked := ⟨⟨#[named "Figure" 1 7, shape, .primitive .double, .reference "Shape" 8],
    [("Figure", 0), ("Shape", 1)]⟩⟩
  have hok : s.link.outcome = .ok l := by cbv
  have hr : l.Reachable 0 := .named List.mem_cons_self
  have hcode : l.code? 0 = .ok (some .struct) := by cbv
  have htarget : l.resolveTypedefs 0 = .ok (1, shape) := by cbv
  have hdouble : l.code? 2 = .ok (some .double) := by cbv
  obtain ⟨t, g, d, hc, ht, -, hother, hsame, hall⟩ := validate_reachable hok hr
  obtain rfl : TypeCode.struct = t := Option.some.inj (Except.ok.inj (hcode.symm.trans hc))
  obtain ⟨rfl, rfl⟩ := Prod.mk.inj (Except.ok.inj (htarget.symm.trans ht))
  let fs : List Field := [(⟨1, .i32⟩, .i32 4), (⟨2, .double⟩, .double 0)]
  have hradius : l.contentsOf fs (side 1 "radius") = none := (Linked.contentsOf_of_code? hdouble).trans rfl
  have hside : l.contentsOf fs (side 2 "side") = some (.double 0) := (Linked.contentsOf_of_code? hdouble).trans rfl
  have hnothing (f : FieldDescriptor) : l.contentsOf [] f = none := by
    unfold Linked.contentsOf
    split <;> rfl
  have hzero : l.validate (.double 0) 2 = .ok () := by cbv
  have hfs : l.Admits shape (.struct fs) := by
    refine ⟨?_, fun _ => by simp [hradius, hside]⟩
    simp only [List.forall_mem_cons, Linked.Satisfied, hradius, hside]
    exact ⟨by decide, hzero, List.forall_mem_nil _⟩
  have hempty : ¬ l.Admits shape (.struct []) := fun h => by
    have hone := h.2 rfl
    simp [hnothing] at hone
  exact ⟨l, hok, hr, (hsame _ rfl).mpr hfs, mt (hsame _ rfl).mp hempty, hother _ (by decide), hall 1 shape (by cbv)⟩

end Draft
end Schema
end TaggedWire
