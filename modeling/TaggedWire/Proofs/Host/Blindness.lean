import TaggedWire.Host.Samples
import TaggedWire.Proofs.Host.Reading
import TaggedWire.Proofs.Value.Editing

/-! What the reading of a host value does not see: fields that no member of the record asks for, fields behind another one
with their id and code, the order of fields that differ in one of the two, and the codes that an empty container declares.
A program reads what a later version of it writes, as long as the members it knows are still there. -/
namespace TaggedWire
open Relation

variable {catalog : Catalog} {t : HostType} {fs gs : List Field} {a b v w : Value}

namespace HostType

def Asks (catalog : Catalog) (t : HostType) (k : FieldKey) : Prop :=
  ∃ name, t = .record name ∧ ∃ m ∈ catalog name, m.key = k

/-- A reading of the value under the first type comes to read what is in the place under the second: the entries have the
codes of their types, and what is read before is there and can be converted. -/
inductive ComesTo (catalog : Catalog) : HostType → Value → Place → HostType → Prop where
  | field {name : String} {before after : List Member} {m : Member} {fs : List Field} :
      catalog name = before ++ m :: after → (∀ e ∈ before, ∃ slot, readMember catalog fs e = .ok slot) →
      ComesTo catalog (.record name) (.struct fs) (.field m.key) m.type
  | list {elem : HostType} {before after : List Value} {v : Value} : (∀ w ∈ before, ∃ x, fromWire catalog w elem = .ok x) →
      ComesTo catalog (.list elem) (.list elem.code (before ++ v :: after)) (.element before.length) elem
  | set {elem : HostType} {before after : List Value} {v : Value} : (∀ w ∈ before, ∃ x, fromWire catalog w elem = .ok x) →
      ComesTo catalog (.set elem) (.set elem.code (before ++ v :: after)) (.element before.length) elem
  | key {key value : HostType} {before after : List (Value × Value)} {x : Value × Value} :
      (∀ y ∈ before, ∃ z, fromWireItem catalog key value y = .ok z) →
      ComesTo catalog (.map key value) (.map key.code value.code (before ++ x :: after)) (.key before.length) key
  | value {key value : HostType} {before after : List (Value × Value)} {x : Value × Value} :
      (∀ y ∈ before, ∃ z, fromWireItem catalog key value y = .ok z) → (∃ k, fromWire catalog x.1 key = .ok k) →
      ComesTo catalog (.map key value) (.map key.code value.code (before ++ x :: after)) (.value before.length) value

def inspection (catalog : Catalog) : Inspection HostType := ⟨Asks catalog, ComesTo catalog⟩

end HostType

section Congruence
variable {elem key value : HostType} {c k : TypeCode} {before after : List Value} {earlier later : List (Value × Value)}
  {x y : Value × Value}

theorem fromWire_struct_congr (hall : ∀ name, t = .record name →
    (catalog name).mapM (readMember catalog fs) = (catalog name).mapM (readMember catalog gs)) :
    fromWire catalog (.struct fs) t = fromWire catalog (.struct gs) t := by
  cases t with
  | record name => rw [fromWire_struct_eq, fromWire_struct_eq, hall name rfl]
  | _ => rfl

theorem fromWire_list_middle (hab : c = elem.code → (∀ w ∈ before, ∃ x, fromWire catalog w elem = .ok x) →
    fromWire catalog a elem = fromWire catalog b elem) : fromWire catalog (.list c (before ++ a :: after)) (.list elem) =
      fromWire catalog (.list c (before ++ b :: after)) (.list elem) := by
  rw [fromWire_list_eq, fromWire_list_eq, checkFilled_middle, checkFilled_middle]
  apply check_bind_congr
  intro hc
  rw [mapM_middle (hab (expectCode_eq_ok_iff.mp hc))]

theorem fromWire_set_middle (hab : c = elem.code → (∀ w ∈ before, ∃ x, fromWire catalog w elem = .ok x) →
    fromWire catalog a elem = fromWire catalog b elem) : fromWire catalog (.set c (before ++ a :: after)) (.set elem) =
      fromWire catalog (.set c (before ++ b :: after)) (.set elem) := by
  rw [fromWire_set_eq, fromWire_set_eq, checkFilled_middle, checkFilled_middle]
  apply check_bind_congr
  intro hc
  rw [mapM_middle (hab (expectCode_eq_ok_iff.mp hc))]

theorem fromWire_map_middle (hxy : k = key.code → c = value.code →
    (∀ z ∈ earlier, ∃ y, fromWireItem catalog key value z = .ok y) →
      fromWireItem catalog key value x = fromWireItem catalog key value y) :
    fromWire catalog (.map k c (earlier ++ x :: later)) (.map key value) =
      fromWire catalog (.map k c (earlier ++ y :: later)) (.map key value) := by
  rw [fromWire_map_eq, fromWire_map_eq, checkFilled_middle, checkFilled_middle]
  apply check_bind_congr
  intro hcodes
  rw [check_bind_eq_ok_iff, expectCode_eq_ok_iff, expectCode_eq_ok_iff] at hcodes
  rw [mapM_middle (hxy hcodes.1 hcodes.2)]

end Congruence

theorem blind_fromWire (catalog : Catalog) : (HostType.inspection catalog).Blind fun t v => fromWire catalog v t where
  fields := by
    intro t fs gs hsame
    apply fromWire_struct_congr
    intro name ht
    apply mapM_congr_until
    intro before m after hsplit _
    have hm : m ∈ catalog name := hsplit ▸ List.mem_append_right before List.mem_cons_self
    rw [readMember_eq, readMember_eq, hsame m.key ⟨name, ht, m, hm, rfl⟩]
  recoded := by
    intro t v w hr
    cases hr with
    | map k c k' c' =>
      cases t with
      | map key value => rw [fromWire_map_eq, fromWire_map_eq, checkFilled_nil, checkFilled_nil]
      | _ => rfl
    | set c c' =>
      cases t with
      | set elem => rw [fromWire_set_eq, fromWire_set_eq, checkFilled_nil, checkFilled_nil]
      | _ => rfl
    | list c c' =>
      cases t with
      | list elem => rw [fromWire_list_eq, fromWire_list_eq, checkFilled_nil, checkFilled_nil]
      | _ => rfl
  replaced := by
    intro t p a b v w hp hpart
    cases hp with
    | field before after k a b hfirst =>
      apply fromWire_struct_congr
      rintro name rfl
      apply mapM_congr_until
      intro earlier m later hsplit hok
      rw [readMember_eq, readMember_eq]
      by_cases hk : k = m.key
      · subst hk
        rw [fieldAt_middle hfirst, fieldAt_middle hfirst, Option.map_some, Option.map_some, hpart m.type (.field hsplit hok)]
      · rw [fieldAt_append, fieldAt_append, fieldAt_cons_of_ne hk, fieldAt_cons_of_ne hk]
    | key k c before after a b x =>
      cases t with
      | map key value =>
        apply fromWire_map_middle
        rintro rfl rfl hok
        rw [fromWireItem, fromWireItem, hpart key (.key hok)]
      | _ => rfl
    | value k c before after x a b =>
      cases t with
      | map key value =>
        apply fromWire_map_middle
        rintro rfl rfl hok
        rw [fromWireItem, fromWireItem]
        cases hx : fromWire catalog x key with
        | error e => rfl
        | ok y => rw [hpart value (.value hok ⟨y, hx⟩)]
      | _ => rfl
    | set c before after a b =>
      cases t with
      | set elem =>
        apply fromWire_set_middle
        rintro rfl hok
        exact hpart elem (.set hok)
      | _ => rfl
    | list c before after a b =>
      cases t with
      | list elem =>
        apply fromWire_list_middle
        rintro rfl hok
        exact hpart elem (.list hok)
      | _ => rfl

/-- Any number of edits, at any depth, of what is not looked at where the node is read leave the result as it is, be it a
host value or an error. -/
theorem fromWire_of_edits (catalog : Catalog) (t : HostType) {v w : Value}
    (he : ReflTransGen ((HostType.inspection catalog).Edit (· = t)) v w) : fromWire catalog v t = fromWire catalog w t :=
  (blind_fromWire catalog).eq_of_edits he rfl

/-- Inside a tree in a map an unknown field comes in and is refilled, and an empty list gets another code; in the tree
itself the fields change places and a second value is added. The child without children is still refused. -/
theorem fromWire_of_edits_nested :
    let value (n : Int32) : Field := (⟨1, .i32⟩, .i32 n)
    let children (c : TypeCode) (vs : List Value) : Field := (⟨2, .list⟩, .list c vs)
    let note (v : Value) : Field := (⟨90, .binary⟩, v)
    let forest (fs : List Field) : Value := .map .binary .struct [(.binary [0x61], .struct fs)]
    let t : HostType := .map .text (.record "Tree")
    let v := forest [value 1, children .struct [.struct [value 2, children .struct []], .struct [value 3]]]
    let w := forest [children .struct [.struct [value 2, children .bool []], .struct [note (.bool true), value 3]],
      value 1, value 8]
    ReflTransGen ((HostType.inspection Samples.catalog).Edit (· = t)) v w ∧
      fromWire Samples.catalog w t = .error (.missingRequiredField 2) := by
  intro value children note forest t v w
  let s : Inspection HostType := HostType.inspection Samples.catalog
  let leaf (c : TypeCode) : Value := .struct [value 2, children c []]
  let kids (c : TypeCode) (fs : List Field) : Field := children .struct [leaf c, .struct fs]
  have hnote : ∀ i, ¬ HostType.Asks Samples.catalog i ⟨90, .binary⟩ := by
    rintro i ⟨name, -, hm⟩
    exact Samples.forall_catalog (P := fun ms => ¬ ∃ m ∈ ms, m.key = ⟨90, .binary⟩) (by simp) (by decide) name hm
  have hunseen {P : HostType → Prop} {before : List Field} :
      Ignored (fun k => ∃ i, P i ∧ s.asks i k) before ⟨90, .binary⟩ :=
    .inl fun ⟨i, _, hi⟩ => hnote i hi
  have htree : ∀ {fs gs}, (∀ P, s.Edit P (.struct fs) (.struct gs)) →
      s.Edit (· = t) (forest fs) (forest gs) := fun he =>
    .inside (.value .binary .struct [] [] (.binary [0x61]) _ _) (he _)
  have hkids : ∀ {fs gs}, (∀ P, s.Edit P (.list .struct fs) (.list .struct gs)) →
      s.Edit (· = t) (forest [value 1, children .struct fs])
        (forest [value 1, children .struct gs]) := fun he =>
    htree fun _ => .inside (.field [value 1] [] ⟨2, .list⟩ _ _ (by decide)) (he _)
  have hrecode : s.Edit (· = t) v (forest [value 1, kids .bool [value 3]]) := by
    apply hkids
    intro P
    refine .inside (.list .struct [] [.struct [value 3]] (leaf .struct) (leaf .bool)) ?_
    exact .inside (.field [value 2] [] ⟨2, .list⟩ _ _ (by decide)) (.recode (.list .struct .bool))
  have hadd : s.Edit (· = t) (forest [value 1, kids .bool [value 3]])
      (forest [value 1, kids .bool [note (.binary []), value 3]]) := by
    apply hkids
    intro P
    exact .inside (.list .struct [leaf .bool] [] _ _) (.fields (.add [] [value 3] (note (.binary [])) hunseen))
  have hrefill : s.Edit (· = t) (forest [value 1, kids .bool [note (.binary []), value 3]])
      (forest [value 1, kids .bool [note (.bool true), value 3]]) := by
    apply hkids
    intro P
    exact .inside (.list .struct [leaf .bool] [] _ _) (.fields (.refill [] [value 3] ⟨90, .binary⟩ _ _ hunseen))
  have hswap : s.Edit (· = t) (forest [value 1, kids .bool [note (.bool true), value 3]])
      (forest [kids .bool [note (.bool true), value 3], value 1]) :=
    htree fun _ => .fields (.swap [] [] (by decide))
  have hsecond : s.Edit (· = t) (forest [kids .bool [note (.bool true), value 3], value 1]) w :=
    htree fun _ => .fields (.add [_, value 1] [] (value 8) (.inr ⟨value 1, by simp, rfl⟩))
  have he : ReflTransGen (s.Edit (· = t)) v w :=
    .head hrecode (.head hadd (.head hrefill (.head hswap (.single hsecond))))
  have hmissing : fromWire Samples.catalog v t = .error (.missingRequiredField 2) := rfl
  refine ⟨he, ?_⟩
  rw [← hmissing]
  exact (fromWire_of_edits Samples.catalog t he).symm

end TaggedWire
