import TaggedWire.Proofs.Schema.Blindness
import TaggedWire.Proofs.Value.Shape

/-! What the error of a validation says. It speaks of one descriptor and one value inside the validated one, to which the
validation came through typedefs, entries and declared fields, with nothing amiss before; and what it says of the two is
so. Where a validation comes to a descriptor and a value that are at odds in such a way, it fails with just that error. -/
namespace TaggedWire

/-- What is in a place right below the value. -/
def Value.at? : Value → Place → Option Value
  | .struct fs, .field k => fieldAt fs k
  | .map _ _ xs, .key i => xs[i]?.map Prod.fst
  | .map _ _ xs, .value i => xs[i]?.map Prod.snd
  | .set _ vs, .element i => vs[i]?
  | .list _ vs, .element i => vs[i]?
  | _, _ => none

theorem Value.mem_parts_of_at? {v w : Value} {p : Place} (hw : v.at? p = some w) : w ∈ v.parts := by
  cases v with
  | struct fs =>
    cases p with
    | field k => exact List.mem_map_of_mem (mem_of_fieldAt hw)
    | _ => cases hw
  | map k c xs =>
    cases p with
    | key i =>
      rcases Option.map_eq_some_iff.mp hw with ⟨x, hx, rfl⟩
      exact List.mem_flatMap.mpr ⟨x, List.mem_of_getElem? hx, by simp⟩
    | value i =>
      rcases Option.map_eq_some_iff.mp hw with ⟨x, hx, rfl⟩
      exact List.mem_flatMap.mpr ⟨x, List.mem_of_getElem? hx, by simp⟩
    | _ => cases hw
  | set c vs =>
    cases p with
    | element i => exact List.mem_of_getElem? hw
    | _ => cases hw
  | list c vs =>
    cases p with
    | element i => exact List.mem_of_getElem? hw
    | _ => cases hw
  | _ => cases hw

namespace Schema
open Relation

namespace Linked
variable {l : Linked} {h g elem key value : Handle} {d : Descriptor} {v w : Value} {vs : List Value}
  {xs : List (Value × Value)} {fs : List Field} {f : FieldDescriptor} {e : ValidationError}

/-- From a handle and a value to a handle and a value right below that a validation comes to. -/
def Descends (l : Linked) (p q : Handle × Value) : Prop := ∃ place, l.ComesTo p.1 p.2 place q.1 ∧ p.2.at? place = some q.2

/-- What each error says of a descriptor and a value: that the value has another code; that it has no field with the id and
code of a required one, the first declared field that is not satisfied; that of a union's fields, all satisfied, not just
one is there; that its number is none of the enum's. -/
inductive Blames (l : Linked) : Descriptor → Value → ValidationError → Prop where
  | typeMismatch {d : Descriptor} {w : Value} {expected : TypeCode} : d.code? = some expected → expected ≠ w.typeCode →
      l.Blames d w (.typeMismatch expected w.typeCode)
  | missingRequiredField {kind : StructKind} {name : String} {before after : List FieldDescriptor} {f : FieldDescriptor}
      {fs : List Field} {c : TypeCode} : (∀ e ∈ before, l.Satisfied fs e) → f.requiredness = .required →
      l.code? f.type = .ok (some c) → (∀ x ∈ fs, x.1 ≠ ⟨f.id, c⟩) →
      l.Blames (.struct kind name (before ++ f :: after)) (.struct fs) (.missingRequiredField name f.id)
  | unionFieldCount {name : String} {fields : List FieldDescriptor} {fs : List Field} {count : Nat} :
      (∀ f ∈ fields, l.Satisfied fs f) → (fields.countP fun f => (l.contentsOf fs f).isSome) = count → count ≠ 1 →
      l.Blames (.struct .union name fields) (.struct fs) (.unionFieldCount name count)
  | unknownEnumValue {name : String} {items : List (String × Int32)} {n : Int32} : (∀ i ∈ items, i.2 ≠ n) →
      l.Blames (.enum name items) (.i32 n) (.unknownEnumValue name n)

section Order

theorem validateAll_eq_error_iff : l.validateAll vs h = .error e ↔
    ∃ before v after, vs = before ++ v :: after ∧ (∀ w ∈ before, l.validate w h = .ok ()) ∧ l.validate v h = .error e := by
  simp only [validateAll_eq_mapM, map_eq_error_iff, mapM_eq_error_iff, exists_eq_ok_iff]

theorem validateItems_eq_error_iff : l.validateItems xs key value = .error e ↔
    ∃ before x after, xs = before ++ x :: after ∧
      (∀ y ∈ before, l.validate y.1 key = .ok () ∧ l.validate y.2 value = .ok ()) ∧
      (l.validate x.1 key = .error e ∨ l.validate x.1 key = .ok () ∧ l.validate x.2 value = .error e) := by
  have hitem (x : Value × Value) : l.validateItem key value x = .error e ↔
      l.validate x.1 key = .error e ∨ l.validate x.1 key = .ok () ∧ l.validate x.2 value = .error e := by
    rw [validateItem, bind_eq_error_iff]
    cases l.validate x.1 key <;> simp
  simp only [validateItems_eq_mapM, map_eq_error_iff, mapM_eq_error_iff, exists_eq_ok_iff, hitem, validateItem_eq_ok_iff]

end Order

section Presence
variable {name : String} {t : TypeCode}

theorem presence_eq_error_iff (hc : l.code? f.type = .ok (some t)) : l.presence name fs f = .error e ↔
    (∃ v, fieldAt fs ⟨f.id, t⟩ = some v ∧ l.validate v f.type = .error e) ∨
      (∀ x ∈ fs, x.1 ≠ ⟨f.id, t⟩) ∧ f.requiredness = .required ∧ e = .missingRequiredField name f.id := by
  rw [presence_of_code? hc, ← fieldAt_eq_none_iff]
  cases fieldAt fs ⟨f.id, t⟩ with
  | some v => simp [map_eq_error_iff]
  | none =>
    by_cases hreq : f.requiredness = .required
    · simp [hreq, eq_comm]
    · simp [hreq]

theorem exists_presence_iff (hc : l.code? f.type = .ok (some t)) :
    (∃ b, l.presence name fs f = .ok b) ↔ l.Satisfied fs f := by
  simp [presence_eq_ok_iff hc]

theorem validate_of_presence {kind : StructKind} {before after : List FieldDescriptor}
    (ht : l.resolveTypedefs h = .ok (g, .struct kind name (before ++ f :: after)))
    (hbefore : ∀ e ∈ before, ∃ b, l.presence name fs e = .ok b) (he : l.presence name fs f = .error e) :
    l.validate (.struct fs) h = .error e := by
  rw [validate_struct_eq ht, mapM_eq_error_iff.mpr ⟨before, f, after, rfl, hbefore, he⟩]
  rfl

end Presence

section Step

theorem validate_of_descends {p q : Handle × Value} (hd : l.Descends p q) (he : l.validate q.2 q.1 = .error e) :
    l.validate p.2 p.1 = .error e := by
  rcases p with ⟨h, v⟩
  rcases q with ⟨j, w⟩
  rcases hd with ⟨place, hcomes, hw⟩
  dsimp only at hcomes hw he ⊢
  cases hcomes with
  | @field g kind name before after f fs k ht hid hc hbefore =>
    have hw : fieldAt fs ⟨f.id, k.code⟩ = some w := by
      rw [hid]
      exact hw
    exact validate_of_presence ht hbefore ((presence_eq_error_iff hc).mpr (.inl ⟨w, hw, he⟩))
  | @list g elem c before after v ht hbefore =>
    obtain rfl : v = w := by simpa [Value.at?] using hw
    rw [validate_list_eq ht]
    exact validateAll_eq_error_iff.mpr ⟨before, v, after, rfl, hbefore, he⟩
  | @set g elem c before after v ht hbefore =>
    obtain rfl : v = w := by simpa [Value.at?] using hw
    rw [validate_set_eq ht]
    exact validateAll_eq_error_iff.mpr ⟨before, v, after, rfl, hbefore, he⟩
  | @key g key value k c before after x ht hbefore =>
    obtain rfl : x.1 = w := by simpa [Value.at?] using hw
    rw [validate_map_eq ht]
    exact validateItems_eq_error_iff.mpr ⟨before, x, after, rfl, hbefore, .inl he⟩
  | @value g key value k c before after x ht hbefore hkey =>
    obtain rfl : x.2 = w := by simpa [Value.at?] using hw
    rw [validate_map_eq ht]
    exact validateItems_eq_error_iff.mpr ⟨before, x, after, rfl, hbefore, .inr ⟨hkey, he⟩⟩

theorem validate_of_blames (ht : l.resolveTypedefs h = .ok (g, d)) (hcode : ∀ c ∈ d.children, ∃ t, l.code? c = .ok (some t))
    (hb : l.Blames d v e) : l.validate v h = .error e := by
  cases hb with
  | typeMismatch hc hne => exact validate_of_code?_ne ht hc hne.symm
  | @missingRequiredField kind name before after f fs c hbefore hreq hc hnone =>
    refine validate_of_presence ht (fun e he => ?_) ((presence_eq_error_iff hc).mpr (.inr ⟨hnone, hreq, rfl⟩))
    obtain ⟨t, ht⟩ := hcode e.type (List.mem_map_of_mem (List.mem_append_left _ he))
    exact (exists_presence_iff ht).mpr (hbefore e he)
  | @unionFieldCount name fields fs count hall hcount hne =>
    have hpresent : fields.mapM (l.presence name fs) = .ok (fields.map fun f => (l.contentsOf fs f).isSome) :=
      (mapM_presence_eq_ok_iff fun f hf => hcode f.type (List.mem_map_of_mem hf)).mpr ⟨hall, rfl⟩
    rw [validate_struct_eq ht, hpresent, ← hcount]
    change ite _ _ _ = _
    rw [count_contents, if_pos ⟨rfl, hcount ▸ hne⟩]
  | unknownEnumValue hnone =>
    rw [validate_enum_eq ht]
    exact if_neg fun ⟨i, hi, hn⟩ => hnone i hi hn

theorem exists_descent_list (ht : l.resolveTypedefs h = .ok (g, .list elem)) {c : TypeCode}
    (he : l.validate (.list c vs) h = .error e) :
    ∃ q, l.Descends (h, .list c vs) q ∧ l.validate q.2 q.1 = .error e := by
  rw [validate_list_eq ht] at he
  obtain ⟨before, w, after, rfl, hbefore, he⟩ := validateAll_eq_error_iff.mp he
  exact ⟨(elem, w), ⟨.element before.length, .list ht hbefore, by simp [Value.at?]⟩, he⟩

theorem exists_descent_set (ht : l.resolveTypedefs h = .ok (g, .set elem)) {c : TypeCode}
    (he : l.validate (.set c vs) h = .error e) :
    ∃ q, l.Descends (h, .set c vs) q ∧ l.validate q.2 q.1 = .error e := by
  rw [validate_set_eq ht] at he
  obtain ⟨before, w, after, rfl, hbefore, he⟩ := validateAll_eq_error_iff.mp he
  exact ⟨(elem, w), ⟨.element before.length, .set ht hbefore, by simp [Value.at?]⟩, he⟩

theorem exists_descent_map (ht : l.resolveTypedefs h = .ok (g, .map key value)) {k c : TypeCode}
    (he : l.validate (.map k c xs) h = .error e) :
    ∃ q, l.Descends (h, .map k c xs) q ∧ l.validate q.2 q.1 = .error e := by
  rw [validate_map_eq ht] at he
  obtain ⟨before, x, after, rfl, hbefore, he | ⟨hkey, he⟩⟩ := validateItems_eq_error_iff.mp he
  · exact ⟨(key, x.1), ⟨.key before.length, .key ht hbefore, by simp [Value.at?]⟩, he⟩
  · exact ⟨(value, x.2), ⟨.value before.length, .value ht hbefore hkey, by simp [Value.at?]⟩, he⟩

theorem blames_or_descends_struct {kind : StructKind} {name : String} {fields : List FieldDescriptor}
    (ht : l.resolveTypedefs h = .ok (g, .struct kind name fields))
    (hcode : ∀ f ∈ fields, ∃ c, l.code? f.type = .ok (some c)) (he : l.validate (.struct fs) h = .error e) :
    l.Blames (.struct kind name fields) (.struct fs) e ∨
      ∃ q, l.Descends (h, .struct fs) q ∧ l.validate q.2 q.1 = .error e := by
  rw [validate_struct_eq ht, bind_eq_error_iff] at he
  rcases he with he | ⟨present, hpresent, he⟩
  · obtain ⟨before, f, after, rfl, hbefore, he⟩ := mapM_eq_error_iff.mp he
    obtain ⟨c, hc⟩ := hcode f (List.mem_append_right before List.mem_cons_self)
    rcases (presence_eq_error_iff hc).mp he with ⟨v, hv, he⟩ | ⟨hnone, hreq, rfl⟩
    · exact .inr ⟨(f.type, v), ⟨.field ⟨f.id, c⟩, .field ht rfl hc hbefore, hv⟩, he⟩
    · refine .inl (.missingRequiredField (fun e he => ?_) hreq hc hnone)
      obtain ⟨t, ht⟩ := hcode e (List.mem_append_left _ he)
      exact (exists_presence_iff ht).mp (hbefore e he)
  · obtain ⟨hall, rfl⟩ := (mapM_presence_eq_ok_iff hcode).mp hpresent
    rw [count_contents] at he
    split at he
    · obtain rfl := Except.error.inj he
      rename_i hcount
      obtain ⟨rfl, hne⟩ := hcount
      exact .inl (.unionFieldCount hall rfl hne)
    · cases he

theorem blames_of_enum {name : String} {items : List (String × Int32)} {n : Int32}
    (ht : l.resolveTypedefs h = .ok (g, .enum name items)) (he : l.validate (.i32 n) h = .error e) :
    l.Blames (.enum name items) (.i32 n) e := by
  rw [validate_enum_eq ht] at he
  split at he
  · cases he
  · rename_i hnone
    obtain rfl := Except.error.inj he
    exact .unknownEnumValue fun i hi hn => hnone ⟨i, hi, hn⟩

theorem validate_of_code?_none (ht : l.resolveTypedefs h = .ok (g, d)) (hc : d.code? = none) : l.validate v h = .ok () := by
  cases d with
  | typedef | reference =>
    cases v <;> simp only [validate, ht] <;> rfl
  | _ => cases hc

/-- A validation that fails has met a value that is at odds with its descriptor, or something right below it failed, or it
came to a struct, where it first asks for the codes of the declared fields. -/
theorem error_cases (ht : l.resolveTypedefs h = .ok (g, d)) (he : l.validate v h = .error e) :
    l.Blames d v e ∨ (∃ q, l.Descends (h, v) q ∧ l.validate q.2 q.1 = .error e) ∨
      ∃ kind name fields fs, d = .struct kind name fields ∧ v = .struct fs := by
  cases hc : d.code? with
  | none =>
    rw [validate_of_code?_none ht hc] at he
    cases he
  | some t =>
    by_cases hv : v.typeCode = t
    · subst hv
      cases d with
      | primitive p =>
        rw [validate_primitive ht (Option.some.inj hc).symm] at he
        cases he
      | list elem =>
        cases v with
        | list c vs => exact .inr (.inl (exists_descent_list ht he))
        | _ => cases hc
      | set elem =>
        cases v with
        | set c vs => exact .inr (.inl (exists_descent_set ht he))
        | _ => cases hc
      | map key value =>
        cases v with
        | map k c xs => exact .inr (.inl (exists_descent_map ht he))
        | _ => cases hc
      | struct kind name fields =>
        cases v with
        | struct fs => exact .inr (.inr ⟨kind, name, fields, fs, rfl, rfl⟩)
        | _ => cases hc
      | enum name items =>
        cases v with
        | i32 n => exact .inl (blames_of_enum ht he)
        | _ => cases hc
      | typedef | reference => cases hc
    · rw [validate_of_code?_ne ht hc hv] at he
      obtain rfl := Except.error.inj he
      exact .inl (.typeMismatch hc (Ne.symm hv))

/-- One level of a failure: the value is at odds with the descriptor that the typedefs lead to, or something right below
fails just so. -/
theorem validate_eq_error_iff (ht : l.resolveTypedefs h = .ok (g, d)) (hcode : ∀ c ∈ d.children, ∃ t, l.code? c = .ok (some t)) :
    l.validate v h = .error e ↔ l.Blames d v e ∨ ∃ q, l.Descends (h, v) q ∧ l.validate q.2 q.1 = .error e := by
  constructor
  · intro he
    rcases error_cases ht he with hb | hq | ⟨kind, name, fields, fs, rfl, rfl⟩
    · exact .inl hb
    · exact .inr hq
    · exact blames_or_descends_struct ht (fun f hf => hcode f.type (List.mem_map_of_mem hf)) he
  · rintro (hb | ⟨q, hd, he⟩)
    · exact validate_of_blames ht hcode hb
    · exact validate_of_descends hd he

end Step

section Way

theorem target_unique {g' : Handle} {d' : Descriptor} (ht : l.resolveTypedefs h = .ok (g, d))
    (ht' : l.resolveTypedefs h = .ok (g', d')) : d = d' := (Prod.mk.inj (Except.ok.inj (ht.symm.trans ht'))).2

theorem mem_children_of_descends {q : Handle × Value} (ht : l.resolveTypedefs h = .ok (g, d)) (hd : l.Descends (h, v) q) :
    q.1 ∈ d.children := by
  rcases q with ⟨j, w⟩
  rcases hd with ⟨place, hcomes, -⟩
  dsimp only at hcomes ⊢
  cases hcomes with
  | field ht' =>
    obtain rfl := target_unique ht ht'
    exact List.mem_map_of_mem (List.mem_append_right _ List.mem_cons_self)
  | list ht' | set ht' | key ht' =>
    obtain rfl := target_unique ht ht'
    exact List.mem_cons_self
  | value ht' =>
    obtain rfl := target_unique ht ht'
    exact List.mem_cons_of_mem _ List.mem_cons_self

/-- At a type that a reachable handle leads to, the error speaks of the value. -/
def BlamesAt (l : Linked) (e : ValidationError) (p : Handle × Value) : Prop :=
  l.Reachable p.1 ∧ ∃ g d, l.resolveTypedefs p.1 = .ok (g, d) ∧ l.Reachable g ∧ l.arena[g]? = some d ∧ l.Blames d p.2 e

theorem Sound.validate_eq_error_iff (hs : l.Sound) (hr : l.Reachable h) : l.validate v h = .error e ↔
    l.BlamesAt e (h, v) ∨ ∃ q, l.Descends (h, v) q ∧ l.Reachable q.1 ∧ l.validate q.2 q.1 = .error e := by
  obtain ⟨g, d, -, hg, hd, -, -, ht⟩ := hs.exists_target hr
  have hchildren : ∀ c ∈ d.children, l.Reachable c := fun c hc => hg.child hd hc
  rw [Linked.validate_eq_error_iff ht fun c hc => hs.exists_code? (hchildren c hc)]
  constructor
  · rintro (hb | ⟨q, hq, he⟩)
    · exact .inl ⟨hr, g, d, ht, hg, hd, hb⟩
    · exact .inr ⟨q, hq, hchildren _ (mem_children_of_descends ht hq), he⟩
  · rintro (⟨-, g', d', ht', -, -, hb⟩ | ⟨q, hq, -, he⟩)
    · obtain rfl := target_unique ht ht'
      exact .inl hb
    · exact .inr ⟨q, hq, he⟩

theorem depth_lt_of_descends {p q : Handle × Value} (hd : l.Descends p q) : q.2.depth < p.2.depth := by
  obtain ⟨place, -, hw⟩ := hd
  exact Value.depth_lt_of_mem_parts (Value.mem_parts_of_at? hw)

/-- A failure has come from the end of a chain of steps down: by induction on the depth of the value, of which each step
leaves less. The handles on the way are in `A`. -/
theorem exists_of_descends {A : Handle → Prop} {B : Handle × Value → Prop}
    (hstep : ∀ h v, A h → l.validate v h = .error e →
      B (h, v) ∨ ∃ q, l.Descends (h, v) q ∧ A q.1 ∧ l.validate q.2 q.1 = .error e)
    (hh : A h) (he : l.validate v h = .error e) : ∃ q, ReflTransGen l.Descends (h, v) q ∧ B q := by
  induction v using (measure Value.depth).wf.induction generalizing h with
  | h v ih =>
    rcases hstep h v hh he with hb | ⟨⟨j, w⟩, hd, hj, he⟩
    · exact ⟨(h, v), .refl, hb⟩
    · obtain ⟨q, hq, hb⟩ := ih w (depth_lt_of_descends hd) hj he
      exact ⟨q, .head hd hq, hb⟩

theorem validate_of_reflTransGen {p q : Handle × Value} (hq : ReflTransGen l.Descends p q)
    (he : l.validate q.2 q.1 = .error e) : l.validate p.2 p.1 = .error e := by
  induction hq using ReflTransGen.head_induction_on with
  | refl => exact he
  | head hd _ ih => exact validate_of_descends hd ih

end Way

end Linked

namespace Draft
variable {s : Draft} {l : Linked} {h : Handle}

/-- After a link a validation against a reachable handle fails with an error exactly if it comes to a value of which the
error speaks truly. -/
theorem validate_eq_error_iff_blames (hok : s.link.outcome = .ok l) (hr : l.Reachable h) (v : Value) (e : ValidationError) :
    l.validate v h = .error e ↔ ∃ j w, ReflTransGen l.Descends (h, v) (j, w) ∧ l.Reachable j ∧
      ∃ g d, l.resolveTypedefs j = .ok (g, d) ∧ l.Reachable g ∧ l.arena[g]? = some d ∧ l.Blames d w e := by
  have hs := sound_of_link hok
  constructor
  · intro he
    obtain ⟨⟨j, w⟩, hq, hb⟩ := Linked.exists_of_descends (fun _ _ hr => (hs.validate_eq_error_iff hr).mp) hr he
    exact ⟨j, w, hq, hb⟩
  · rintro ⟨j, w, hq, hj, hb⟩
    exact Linked.validate_of_reflTransGen hq ((hs.validate_eq_error_iff hj).mpr (.inl ⟨hj, hb⟩))

/-- Below the second of the nodes in a list behind a typedef there is one with its id under another code. -/
theorem validate_eq_error_iff_blames_nested :
    let node : Descriptor := .struct .exception "Node" [⟨1, "id", .required, 2⟩, ⟨2, "kids", .optional, 3⟩]
    let synonym (name : String) (target : Handle) : Descriptor := .typedef name target 9
    let s : Draft := ⟨⟨#[synonym "Forest" 3, node, .primitive .i64, .list 4, .reference "Node" 5],
      [("Forest", 0), ("Node", 1)]⟩, by decide, by decide⟩
    let leaf (id : Value) : Value := .struct [(⟨1, id.typeCode⟩, id)]
    let v : Value := .list .struct [leaf (.i64 7), .struct [(⟨2, .list⟩, .list .struct [leaf (.i32 7)]), (⟨1, .i64⟩, .i64 8)]]
    ∃ l : Linked, s.link.outcome = .ok l ∧ l.Reachable 0 ∧ ∃ j w, ReflTransGen l.Descends (0, v) (j, w) ∧ l.Reachable j ∧
      ∃ g d, l.resolveTypedefs j = .ok (g, d) ∧ l.Reachable g ∧ l.arena[g]? = some d ∧
        l.Blames d w (.missingRequiredField "Node" 1) := by
  intro node synonym s leaf v
  let l : Linked := ⟨⟨#[synonym "Forest" 3, node, .primitive .i64, .list 1, .reference "Node" 5],
    [("Forest", 0), ("Node", 1)]⟩⟩
  have hok : s.link.outcome = .ok l := by cbv
  have hr : l.Reachable 0 := .named List.mem_cons_self
  have he : l.validate v 0 = .error (.missingRequiredField "Node" 1) := by cbv
  exact ⟨l, hok, hr, (validate_eq_error_iff_blames hok hr v _).mp he⟩

end Draft
end Schema
end TaggedWire
