import TaggedWire.Proofs.Host.Reading
import TaggedWire.Proofs.Schema.Validation
import TaggedWire.Proofs.Value.Shape

/-! Descriptors that mirror host types. What can be read as the type is accepted by the descriptor; what is accepted can
be read, but for text that is not well-formed and times out of range, of which descriptors know nothing. -/
namespace TaggedWire

namespace Value

/-- Every container at any depth holds what it declares; the fields of structs may be anything. -/
def Built (v : Value) : Prop := ∀ w ∈ v.nodes, w.typeCode ≠ .struct → w.Fits

instance (v : Value) : Decidable v.Built :=
  inferInstanceAs (Decidable (∀ w ∈ v.nodes, w.typeCode ≠ .struct → w.Fits))

theorem built_struct_iff {fs : List Field} : (Value.struct fs).Built ↔ ∀ f ∈ fs, f.2.Built := by
  simp [Built, nodes, typeCode, forall_nodesFields]

theorem built_map_iff {k c : TypeCode} {xs : List (Value × Value)} :
    (Value.map k c xs).Built ↔
      (∀ x ∈ xs, x.1.typeCode = k ∧ x.2.typeCode = c) ∧ ∀ x ∈ xs, x.1.Built ∧ x.2.Built := by
  simp [Built, nodes, typeCode, Fits, forall_nodesItems]

theorem built_set_iff {c : TypeCode} {vs : List Value} :
    (Value.set c vs).Built ↔ (∀ v ∈ vs, v.typeCode = c) ∧ ∀ v ∈ vs, v.Built := by
  simp [Built, nodes, typeCode, Fits, forall_nodesAll]

theorem built_list_iff {c : TypeCode} {vs : List Value} :
    (Value.list c vs).Built ↔ (∀ v ∈ vs, v.typeCode = c) ∧ ∀ v ∈ vs, v.Built := by
  simp [Built, nodes, typeCode, Fits, forall_nodesAll]

end Value

/-- The failures of reading that lie in what a value holds, of which its form says nothing: text that is not
well-formed, and a time out of range. -/
def DecodeError.OfContents (e : DecodeError) : Prop := e = .invalidText ∨ ∃ n, e = .invalidTimestamp n

/-- What a value without parts holds cannot be read as the type, though it has the type's code. -/
inductive Unreadable : Value → HostType → DecodeError → Prop where
  | text {bs : Bytes} : bs.text? = none → Unreadable (.binary bs) .text .invalidText
  | time {n : Int64} : timeInRange n = false → Unreadable (.i64 n) .time (.invalidTimestamp n)

section Unreadable
variable {catalog : Catalog} {v : Value} {t : HostType} {e : DecodeError}

theorem Unreadable.ofContents (hu : Unreadable v t e) : e.OfContents := by
  cases hu with
  | text _ => exact .inl rfl
  | time _ => exact .inr ⟨_, rfl⟩

theorem Unreadable.fromWire_eq (hu : Unreadable v t e) : fromWire catalog v t = .error e := by
  cases hu with
  | text htext => rw [fromWire, htext]
  | time hrange => rw [fromWire, if_neg (by simp [hrange])]

theorem unreadable_of_not_nests (hn : v.typeCode.nests = false) (hv : v.typeCode = t.code)
    (he : fromWire catalog v t = .error e) : Unreadable v t e := by
  cases v with
  | binary bs =>
    cases t with
    | text =>
      cases htext : bs.text? with
      | some s => simp [fromWire, htext] at he
      | none =>
        simp only [fromWire, htext] at he
        cases he
        exact .text htext
    | bytes => cases he
    | _ => cases hv
  | i64 n =>
    cases t with
    | time =>
      rw [fromWire] at he
      split at he
      case isTrue => cases he
      case isFalse hrange =>
        cases he
        exact .time (Bool.eq_false_iff.mpr hrange)
    | int64 => cases he
    | _ => cases hv
  | struct _ | map _ _ _ | set _ _ | list _ _ => cases hn
  | _ =>
    cases t <;> cases hv
    cases he

end Unreadable

namespace Schema
open Relation

/-- The primitive that a type is described by: text and bytes are told apart, but a time is just a number. -/
def primitiveOf? : HostType → Option Primitive
  | .bool => some .bool
  | .int8 => some .byte
  | .int16 => some .i16
  | .int32 => some .i32
  | .int64 | .time => some .i64
  | .double => some .double
  | .bytes => some .binary
  | .text => some .string
  | .list _ | .set _ | .map .. | .record _ => none

/-- A field that is declared for a member, its type in the relation `M` to the member's. -/
structure Declares (M : Handle → HostType → Prop) (f : FieldDescriptor) (m : Member) : Prop where
  id : f.id = m.id
  requiredness : f.requiredness = if m.optional then .optional else .required
  type : M f.type m.type

/-- The descriptor has the form of the type, its children in the relation `M` to the type's parts. A record is
described by a struct with one field a member, in any order. -/
def Reflects (catalog : Catalog) (M : Handle → HostType → Prop) : Descriptor → HostType → Prop
  | .list elem, .list t => M elem t
  | .set elem, .set t => M elem t
  | .map key value, .map s t => M key s ∧ M value t
  | .struct kind _ fields, .record name =>
    kind = .struct ∧ ∃ declared, declared.Perm fields ∧ List.Forall₂ (Declares M) declared (catalog name)
  | .primitive p, t => primitiveOf? t = some p
  | _, _ => False

/-- The handle describes the type, so deep as one may look: it is in some relation to the type that holds on at all the
parts, looking through typedefs. So a cycle may mirror a recursive record. -/
def Linked.Mirrors (l : Linked) (catalog : Catalog) (h : Handle) (t : HostType) : Prop :=
  ∃ M : Handle → HostType → Prop, M h t ∧ ∀ h t, M h t →
    ∃ g d, ReflTransGen l.Points h g ∧ l.arena[g]? = some d ∧ Reflects catalog M d t

section Reflects
variable {catalog : Catalog} {M N : Handle → HostType → Prop} {d : Descriptor} {t : HostType}

theorem Declares.mono (hMN : ∀ h t, M h t → N h t) {f : FieldDescriptor} {m : Member} (hf : Declares M f m) :
    Declares N f m :=
  ⟨hf.id, hf.requiredness, hMN _ _ hf.type⟩

theorem Reflects.mono (hMN : ∀ h t, M h t → N h t) (hd : Reflects catalog M d t) : Reflects catalog N d t := by
  cases d with
  | primitive p => exact hd
  | list elem =>
    cases t with
    | list t => exact hMN _ _ hd
    | _ => exact hd.elim
  | set elem =>
    cases t with
    | set t => exact hMN _ _ hd
    | _ => exact hd.elim
  | map key value =>
    cases t with
    | map s t => exact ⟨hMN _ _ hd.1, hMN _ _ hd.2⟩
    | _ => exact hd.elim
  | struct kind name fields =>
    cases t with
    | record name =>
      obtain ⟨hk, declared, hperm, hall⟩ := hd
      exact ⟨hk, declared, hperm, hall.imp fun _ _ => Declares.mono hMN⟩
    | _ => exact hd.elim
  | _ => exact hd.elim

theorem Reflects.code? (hd : Reflects catalog M d t) : d.code? = some t.code := by
  cases d with
  | primitive p =>
    cases t <;> cases hd <;> rfl
  | list elem => cases t <;> first | rfl | exact hd.elim
  | set elem => cases t <;> first | rfl | exact hd.elim
  | map key value => cases t <;> first | rfl | exact hd.elim
  | struct kind name fields => cases t <;> first | rfl | exact hd.elim
  | _ => exact hd.elim

theorem Reflects.not_typedef (hd : Reflects catalog M d t) : d.isTypedef = false := by
  cases d <;> first | rfl | exact hd.elim

theorem exists_member {declared fields : List FieldDescriptor} {ms : List Member} (hperm : declared.Perm fields)
    (hall : List.Forall₂ (Declares M) declared ms) {f : FieldDescriptor} (hf : f ∈ fields) :
    ∃ m ∈ ms, Declares M f m :=
  exists_of_forall₂_of_mem hall (hperm.mem_iff.mpr hf)

theorem exists_declared {declared fields : List FieldDescriptor} {ms : List Member} (hperm : declared.Perm fields)
    (hall : List.Forall₂ (Declares M) declared ms) {m : Member} (hm : m ∈ ms) : ∃ f ∈ fields, Declares M f m := by
  obtain ⟨f, hf, hd⟩ := exists_of_forall₂_of_mem hall.flip hm
  exact ⟨f, hperm.mem_iff.mp hf, hd⟩

theorem Reflects.exists_child (hd : Reflects catalog M d t) {c : Handle} (hc : c ∈ d.children) : ∃ t, M c t := by
  cases d with
  | primitive p => cases hc
  | list elem =>
    obtain rfl := List.mem_singleton.mp hc
    cases t with
    | list t => exact ⟨t, hd⟩
    | _ => exact hd.elim
  | set elem =>
    obtain rfl := List.mem_singleton.mp hc
    cases t with
    | set t => exact ⟨t, hd⟩
    | _ => exact hd.elim
  | map key value =>
    cases t with
    | map s t =>
      obtain rfl | hc := List.mem_cons.mp hc
      · exact ⟨s, hd.1⟩
      · obtain rfl := List.mem_singleton.mp hc
        exact ⟨t, hd.2⟩
    | _ => exact hd.elim
  | struct kind name fields =>
    cases t with
    | record name =>
      obtain ⟨-, declared, hperm, hall⟩ := hd
      obtain ⟨f, hf, rfl⟩ := List.mem_map.mp hc
      obtain ⟨m, -, hm⟩ := exists_member hperm hall hf
      exact ⟨m.type, hm.type⟩
    | _ => exact hd.elim
  | _ => exact hd.elim

end Reflects

namespace Linked
variable {l : Linked} {catalog : Catalog} {h g : Handle} {d : Descriptor} {s t : HostType} {v : Value}
  {x : HostValue} {e : DecodeError} {fs : List Field} {f : FieldDescriptor} {m : Member}

theorem Mirrors.exists_target (hm : l.Mirrors catalog h t) :
    ∃ g d, l.resolveTypedefs h = .ok (g, d) ∧ Reflects catalog (l.Mirrors catalog) d t := by
  obtain ⟨M, hM, hstep⟩ := hm
  obtain ⟨g, d, hg, hd, href⟩ := hstep h t hM
  refine ⟨g, d, TypeTable.targetFrom_of_points hg hd href.not_typedef nofun, ?_⟩
  exact href.mono fun h t hM => ⟨M, hM, hstep⟩

theorem Mirrors.code? (hm : l.Mirrors catalog h t) : l.code? h = .ok (some t.code) := by
  obtain ⟨g, d, ht, hd⟩ := hm.exists_target
  rw [Linked.code?, ht, ← hd.code?]
  rfl

theorem Mirrors.typeCode_of_validate (hm : l.Mirrors catalog h t) (hok : l.validate v h = .ok ()) :
    v.typeCode = t.code := by
  obtain ⟨g, d, ht, hd⟩ := hm.exists_target
  exact Linked.typeCode_of_validate ht hd.code? hok

theorem validate_iff_admits_of_reflects (ht : l.resolveTypedefs h = .ok (g, d))
    (hd : Reflects catalog (l.Mirrors catalog) d t) (hv : v.typeCode = t.code) :
    l.validate v h = .ok () ↔ l.Admits d v := by
  refine validate_eq_ok_iff_admits ht (by rw [hd.code?, hv]) fun c hc => ?_
  obtain ⟨s, hs⟩ := hd.exists_child hc
  exact ⟨s.code, hs.code?⟩

theorem Mirrors.list (hm : l.Mirrors catalog h (.list t)) :
    ∃ elem, l.Mirrors catalog elem t ∧
      ∀ c vs, l.validate (.list c vs) h = .ok () ↔ ∀ v ∈ vs, l.validate v elem = .ok () := by
  obtain ⟨g, d, ht, hd⟩ := hm.exists_target
  cases d with
  | list elem => exact ⟨elem, hd, fun c vs => validate_iff_admits_of_reflects ht hd rfl⟩
  | primitive p => cases hd
  | _ => exact hd.elim

theorem Mirrors.set (hm : l.Mirrors catalog h (.set t)) :
    ∃ elem, l.Mirrors catalog elem t ∧
      ∀ c vs, l.validate (.set c vs) h = .ok () ↔ ∀ v ∈ vs, l.validate v elem = .ok () := by
  obtain ⟨g, d, ht, hd⟩ := hm.exists_target
  cases d with
  | set elem => exact ⟨elem, hd, fun c vs => validate_iff_admits_of_reflects ht hd rfl⟩
  | primitive p => cases hd
  | _ => exact hd.elim

theorem Mirrors.map (hm : l.Mirrors catalog h (.map s t)) :
    ∃ key value, l.Mirrors catalog key s ∧ l.Mirrors catalog value t ∧
      ∀ k c xs, l.validate (.map k c xs) h = .ok () ↔
        ∀ x ∈ xs, l.validate x.1 key = .ok () ∧ l.validate x.2 value = .ok () := by
  obtain ⟨g, d, ht, hd⟩ := hm.exists_target
  cases d with
  | map key value => exact ⟨key, value, hd.1, hd.2, fun k c xs => validate_iff_admits_of_reflects ht hd rfl⟩
  | primitive p => cases hd
  | _ => exact hd.elim

theorem Mirrors.record {name : String} (hm : l.Mirrors catalog h (.record name)) :
    ∃ fields : List FieldDescriptor,
      (∀ f ∈ fields, ∃ m ∈ catalog name, Declares (l.Mirrors catalog) f m) ∧
      (∀ m ∈ catalog name, ∃ f ∈ fields, Declares (l.Mirrors catalog) f m) ∧
      ∀ fs, l.validate (.struct fs) h = .ok () ↔ ∀ f ∈ fields, l.Satisfied fs f := by
  obtain ⟨g, d, ht, hd⟩ := hm.exists_target
  cases d with
  | struct kind _ fields =>
    have hadmits := fun fs => validate_iff_admits_of_reflects (v := .struct fs) ht hd rfl
    obtain ⟨rfl, declared, hperm, hall⟩ := hd
    refine ⟨fields, fun f hf => exists_member hperm hall hf, fun m hm => exists_declared hperm hall hm, fun fs => ?_⟩
    rw [hadmits, Admits]
    exact and_iff_left fun hunion => by cases hunion
  | primitive p => cases hd
  | _ => exact hd.elim

theorem Mirrors.validate_of_not_nests (hm : l.Mirrors catalog h t) (hv : v.typeCode = t.code)
    (hn : v.typeCode.nests = false) : l.validate v h = .ok () := by
  obtain ⟨g, d, ht, hd⟩ := hm.exists_target
  rw [validate_iff_admits_of_reflects ht hd hv]
  have hcode := hd.code?
  rw [← hv] at hcode
  cases d with
  | primitive p => trivial
  | enum _ _ => exact hd.elim
  | reference _ _ => exact hd.elim
  | typedef _ _ _ => exact hd.elim
  | _ =>
    rw [← Option.some.inj hcode] at hn
    cases hn

theorem contentsOf_of_declares (hf : Declares (l.Mirrors catalog) f m) : l.contentsOf fs f = fieldAt fs m.key := by
  rw [contentsOf_of_code? hf.type.code?, hf.id]
  rfl

theorem satisfied_of_fieldAt (hf : Declares (l.Mirrors catalog) f m) (hv : fieldAt fs m.key = some v) :
    l.Satisfied fs f ↔ l.validate v f.type = .ok () := by
  rw [Satisfied, contentsOf_of_declares hf, hv]

theorem satisfied_of_absent (hf : Declares (l.Mirrors catalog) f m) (hv : fieldAt fs m.key = none) :
    l.Satisfied fs f ↔ m.optional = true := by
  rw [Satisfied, contentsOf_of_declares hf, hv, hf.requiredness]
  cases m.optional <;> simp

/-- What can be read as the type is accepted: by induction on the value, level by level against the children. -/
theorem Mirrors.validate_of_fromWire (hm : l.Mirrors catalog h t) (hx : fromWire catalog v t = .ok x) :
    l.validate v h = .ok () := by
  have hcode := typeCode_of_fromWire hx
  induction v generalizing h t x with
  | struct fs ih =>
    cases t with
    | record name =>
      obtain ⟨fields, hmember, -, hval⟩ := hm.record
      obtain ⟨slots, hslots, -⟩ := fromWire_struct_eq_ok_iff.mp hx
      refine (hval fs).mpr fun f hf => ?_
      obtain ⟨m, hmem, hdecl⟩ := hmember f hf
      obtain ⟨slot, -, hslot⟩ := exists_of_forall₂_of_mem hslots hmem
      cases hv : fieldAt fs m.key with
      | some v =>
        rw [readMember_of_fieldAt hv, map_eq_ok_iff] at hslot
        obtain ⟨x, hx, -⟩ := hslot
        exact (satisfied_of_fieldAt hdecl hv).mpr
          (ih (m.key, v) (mem_of_fieldAt hv) hdecl.type hx (typeCode_of_fromWire hx))
      | none =>
        rw [readMember_of_absent hv, ite_eq_ok_iff] at hslot
        exact (satisfied_of_absent hdecl hv).mpr hslot.1
    | _ => cases hcode
  | map k c xs ih =>
    cases t with
    | map s t =>
      obtain ⟨key, value, hkey, hvalue, hval⟩ := hm.map
      obtain ⟨-, ys, hys, -⟩ := fromWire_map_eq_ok_iff.mp hx
      refine (hval k c xs).mpr fun i hi => ?_
      obtain ⟨y, -, hk, hv⟩ := exists_of_forall₂_of_mem hys hi
      exact ⟨(ih i hi).1 hkey hk (typeCode_of_fromWire hk), (ih i hi).2 hvalue hv (typeCode_of_fromWire hv)⟩
    | _ => cases hcode
  | set c vs ih =>
    cases t with
    | set t =>
      obtain ⟨elem, helem, hval⟩ := hm.set
      obtain ⟨-, ys, hys, -⟩ := fromWire_set_eq_ok_iff.mp hx
      refine (hval c vs).mpr fun v hv => ?_
      obtain ⟨y, -, hy⟩ := exists_of_forall₂_of_mem hys hv
      exact ih v hv helem hy (typeCode_of_fromWire hy)
    | _ => cases hcode
  | list c vs ih =>
    cases t with
    | list t =>
      obtain ⟨elem, helem, hval⟩ := hm.list
      obtain ⟨-, ys, hys, -⟩ := fromWire_list_eq_ok_iff.mp hx
      refine (hval c vs).mpr fun v hv => ?_
      obtain ⟨y, -, hy⟩ := exists_of_forall₂_of_mem hys hv
      exact ih v hv helem hy (typeCode_of_fromWire hy)
    | _ => cases hcode
  | _ => exact hm.validate_of_not_nests hcode rfl

/-- Where elements are accepted by a mirror of the type, the code they are declared with is that of the type. -/
theorem Mirrors.code_eq {vs : List Value} {c : TypeCode} (hm : l.Mirrors catalog h t)
    (hvs : ∀ v ∈ vs, l.validate v h = .ok ()) (hc : ∀ v ∈ vs, v.typeCode = c) (hne : vs ≠ []) : c = t.code := by
  obtain ⟨v, hv⟩ := List.exists_mem_of_ne_nil vs hne
  exact (hc v hv).symm.trans (hm.typeCode_of_validate (hvs v hv))

/-- What is accepted fails to be read only for a part that descriptors know nothing of: by induction on the value, the
failing part found at each level. -/
theorem Mirrors.exists_unreadable (hm : l.Mirrors catalog h t) (hb : v.Built) (hok : l.validate v h = .ok ())
    (he : fromWire catalog v t = .error e) : ∃ w s, ReadsPart catalog v t w s ∧ Unreadable w s e := by
  have hcode := hm.typeCode_of_validate hok
  induction v generalizing h t with
  | struct fs ih =>
    cases t with
    | record name =>
      obtain ⟨fields, -, hdeclared, hval⟩ := hm.record
      rw [fromWire_struct_eq, map_eq_error_iff] at he
      obtain ⟨m, hmem, he⟩ := exists_of_mapM_eq_error he
      obtain ⟨f, hf, hdecl⟩ := hdeclared m hmem
      have hsat := (hval fs).mp hok f hf
      cases hv : fieldAt fs m.key with
      | some v =>
        rw [readMember_of_fieldAt hv, map_eq_error_iff] at he
        rw [satisfied_of_fieldAt hdecl hv] at hsat
        have hbuilt := Value.built_struct_iff.mp hb _ (mem_of_fieldAt hv)
        obtain ⟨w, s, hw, hu⟩ := ih (m.key, v) (mem_of_fieldAt hv) hdecl.type hbuilt hsat he
          (hdecl.type.typeCode_of_validate hsat)
        exact ⟨w, s, .member hmem hv hw, hu⟩
      | none =>
        rw [readMember_of_absent hv, (satisfied_of_absent hdecl hv).mp hsat] at he
        cases he
    | _ => cases hcode
  | map k c xs ih =>
    cases t with
    | map s t =>
      obtain ⟨key, value, hkey, hvalue, hval⟩ := hm.map
      obtain ⟨hcodes, hparts⟩ := Value.built_map_iff.mp hb
      have hxs := (hval k c xs).mp hok
      have hfilled : xs ≠ [] → k = s.code ∧ c = t.code := fun hne => by
        obtain ⟨i, hi⟩ := List.exists_mem_of_ne_nil xs hne
        have hk := hkey.typeCode_of_validate (hxs i hi).1
        have hv := hvalue.typeCode_of_validate (hxs i hi).2
        exact ⟨(hcodes i hi).1.symm.trans hk, (hcodes i hi).2.symm.trans hv⟩
      rw [fromWire_map_of_code hfilled, map_eq_error_iff] at he
      obtain ⟨i, hi, he⟩ := exists_of_mapM_eq_error he
      obtain he | ⟨-, he⟩ := fromWireItem_eq_error_iff.mp he
      · obtain ⟨w, s, hw, hu⟩ := (ih i hi).1 hkey (hparts i hi).1 (hxs i hi).1 he
          (hkey.typeCode_of_validate (hxs i hi).1)
        exact ⟨w, s, .key hi hw, hu⟩
      · obtain ⟨w, s, hw, hu⟩ := (ih i hi).2 hvalue (hparts i hi).2 (hxs i hi).2 he
          (hvalue.typeCode_of_validate (hxs i hi).2)
        exact ⟨w, s, .value hi hw, hu⟩
    | _ => cases hcode
  | set c vs ih =>
    cases t with
    | set t =>
      obtain ⟨elem, helem, hval⟩ := hm.set
      obtain ⟨hcodes, hparts⟩ := Value.built_set_iff.mp hb
      have hvs := (hval c vs).mp hok
      rw [fromWire_set_of_code (helem.code_eq hvs hcodes), map_eq_error_iff] at he
      obtain ⟨v, hv, he⟩ := exists_of_mapM_eq_error he
      obtain ⟨w, s, hw, hu⟩ := ih v hv helem (hparts v hv) (hvs v hv) he (helem.typeCode_of_validate (hvs v hv))
      exact ⟨w, s, .set hv hw, hu⟩
    | _ => cases hcode
  | list c vs ih =>
    cases t with
    | list t =>
      obtain ⟨elem, helem, hval⟩ := hm.list
      obtain ⟨hcodes, hparts⟩ := Value.built_list_iff.mp hb
      have hvs := (hval c vs).mp hok
      rw [fromWire_list_of_code (helem.code_eq hvs hcodes), map_eq_error_iff] at he
      obtain ⟨v, hv, he⟩ := exists_of_mapM_eq_error he
      obtain ⟨w, s, hw, hu⟩ := ih v hv helem (hparts v hv) (hvs v hv) he (helem.typeCode_of_validate (hvs v hv))
      exact ⟨w, s, .list hv hw, hu⟩
    | _ => cases hcode
  | _ => exact ⟨_, t, .here _ t, unreadable_of_not_nests rfl hcode he⟩

theorem Mirrors.exists_ok_iff (hm : l.Mirrors catalog h t) (hb : v.Built) : (∃ x, fromWire catalog v t = .ok x) ↔
    l.validate v h = .ok () ∧ ∀ w s e, ReadsPart catalog v t w s → ¬ Unreadable w s e := by
  constructor
  · rintro ⟨x, hx⟩
    refine ⟨hm.validate_of_fromWire hx, fun w s e hp hu => ?_⟩
    obtain ⟨y, hy⟩ := hp.exists_ok hx
    rw [hu.fromWire_eq] at hy
    cases hy
  · intro ⟨hok, hparts⟩
    cases he : fromWire catalog v t with
    | ok x => exact ⟨x, rfl⟩
    | error e =>
      obtain ⟨w, s, hp, hu⟩ := hm.exists_unreadable hb hok he
      exact absurd hu (hparts w s e hp)

/-- Descriptor and type agree on a value whose containers hold what they declare: what can be read is accepted, and what
is accepted is read, or fails on text that is not well-formed or on a time out of range. It fails so exactly if some binary
that is read as text is not well-formed or some number that is read as a time is out of range, and the error is that of
such a part. -/
theorem mirror_agrees (hm : l.Mirrors catalog h t) (hb : v.Built) :
    (∀ x, fromWire catalog v t = .ok x → l.validate v h = .ok ()) ∧
      (l.validate v h = .ok () →
        (∃ x, fromWire catalog v t = .ok x) ∨ ∃ e, fromWire catalog v t = .error e ∧ e.OfContents) ∧
      ((∃ x, fromWire catalog v t = .ok x) ↔
        l.validate v h = .ok () ∧ ∀ w s e, ReadsPart catalog v t w s → ¬ Unreadable w s e) ∧
      ∀ e, l.validate v h = .ok () → fromWire catalog v t = .error e →
        ∃ w s, ReadsPart catalog v t w s ∧ Unreadable w s e := by
  refine ⟨fun x hx => hm.validate_of_fromWire hx, fun hok => ?_, hm.exists_ok_iff hb, fun e => hm.exists_unreadable hb⟩
  cases he : fromWire catalog v t with
  | ok x => exact .inl ⟨x, rfl⟩
  | error e =>
    obtain ⟨w, s, -, hu⟩ := hm.exists_unreadable hb hok he
    exact .inr ⟨e, rfl, hu.ofContents⟩

/-- A tree of labels, mirrored by a cycle through a typedef, its fields declared the other way round. A field with
another code stands before the label, and an empty list has elements of another code. With a label that is text it is
read; with one that is not, it is still accepted, and the failure is that of the label. -/
theorem mirror_agrees_recursive :
    let node : List Member :=
      [{ id := 1, name := "label", type := .text }, { id := 2, name := "children", type := .list (.record "Node") }]
    let named (name : String) (target line : Nat) : Descriptor := .typedef name target line
    let l : Linked := ⟨⟨#[named "Root" 1 4,
      .struct .struct "Node" [⟨2, "children", .required, 2⟩, ⟨1, "label", .required, 3⟩], .list 0, .primitive .string],
      [("Root", 0)]⟩⟩
    let leaf (label : Bytes) : Value := .struct [(⟨1, .i32⟩, .i32 0), (⟨1, .binary⟩, .binary label),
      (⟨2, .list⟩, .list .bool [])]
    let tree (label : Bytes) : Value := .struct [(⟨2, .list⟩, .list .struct [leaf label]), (⟨1, .binary⟩, .binary [])]
    l.Mirrors (fun _ => node) 0 (.record "Node") ∧
      (∃ x, fromWire (fun _ => node) (tree [0x41]) (.record "Node") = .ok x) ∧ l.validate (tree [0x41]) 0 = .ok () ∧
      l.validate (tree [0xFF]) 0 = .ok () ∧
      ∃ e, fromWire (fun _ => node) (tree [0xFF]) (.record "Node") = .error e ∧ e.OfContents ∧
        ∃ w s, ReadsPart (fun _ => node) (tree [0xFF]) (.record "Node") w s ∧ Unreadable w s e := by
  intro node named l leaf tree
  have hm : l.Mirrors (fun _ => node) 0 (.record "Node") := by
    refine ⟨fun h t => (h = 0 ∧ t = .record "Node") ∨ (h = 2 ∧ t = .list (.record "Node")) ∨ (h = 3 ∧ t = .text),
      .inl ⟨rfl, rfl⟩, fun h t hM => ?_⟩
    obtain ⟨rfl, rfl⟩ | ⟨rfl, rfl⟩ | ⟨rfl, rfl⟩ := hM
    · refine ⟨1, _, .single ⟨_, _, rfl⟩, rfl, rfl, _, List.Perm.swap _ _ _, ?_⟩
      refine .cons ⟨rfl, rfl, .inr (.inr ⟨rfl, rfl⟩)⟩ (.cons ⟨rfl, rfl, .inr (.inl ⟨rfl, rfl⟩)⟩ .nil)
    · exact ⟨2, _, .refl, rfl, .inl ⟨rfl, rfl⟩⟩
    · exact ⟨3, _, .refl, rfl, rfl⟩
  have hread : ∃ x, fromWire (fun _ => node) (tree [0x41]) (.record "Node") = .ok x := ⟨_, rfl⟩
  have haccepted := ((mirror_agrees hm (by decide)).2.2.1.mp hread).1
  have hok : l.validate (tree [0xFF]) 0 = .ok () := by cbv
  obtain ⟨-, hcontents, -, hpart⟩ := mirror_agrees (v := tree [0xFF]) hm (by decide)
  refine ⟨hm, hread, haccepted, hok, ?_⟩
  obtain ⟨y, hy⟩ | ⟨e, he, hof⟩ := hcontents hok
  · cases hy
  · exact ⟨e, he, hof, hpart e hok he⟩

end Linked
end Schema
end TaggedWire
