import Mathlib.Tactic.FinCases
import TaggedWire.Proofs.Schema.Validation
import TaggedWire.Proofs.Value.Editing

/-! What a validation does not see: fields that no struct descriptor declares that the node is validated against, fields
behind another one with their id and code, the order of fields that differ in one of the two, and the codes that an
empty container declares. Not even the error hangs on them, nor which of several errors is found first. -/
namespace TaggedWire
namespace Schema
open Relation

namespace Linked
variable {l : Linked} {h g key value : Handle} {name : String} {fs gs : List Field} {f : FieldDescriptor} {a b v w : Value}
  {vs ws : List Value} {xs ys : List (Value × Value)}

/-- The handle leads to a struct with a field of that id, the type of which describes values with that code. -/
def Asks (l : Linked) (h : Handle) (k : FieldKey) : Prop :=
  ∃ g kind name fields, l.resolveTypedefs h = .ok (g, .struct kind name fields) ∧
    ∃ f ∈ fields, f.id = k.id ∧ l.code? f.type = .ok (some k.code)

/-- A validation of the value against the first handle comes to validate what is in the place against the second: the
place is one that the descriptor speaks of, and what is looked at before it is accepted. -/
inductive ComesTo (l : Linked) : Handle → Value → Place → Handle → Prop where
  | field {h g : Handle} {kind : StructKind} {name : String} {before after : List FieldDescriptor} {f : FieldDescriptor}
      {fs : List Field} {k : FieldKey} : l.resolveTypedefs h = .ok (g, .struct kind name (before ++ f :: after)) →
      f.id = k.id → l.code? f.type = .ok (some k.code) → (∀ e ∈ before, ∃ b, l.presence name fs e = .ok b) →
      l.ComesTo h (.struct fs) (.field k) f.type
  | list {h g elem : Handle} {c : TypeCode} {before after : List Value} {v : Value} :
      l.resolveTypedefs h = .ok (g, .list elem) → (∀ w ∈ before, l.validate w elem = .ok ()) →
      l.ComesTo h (.list c (before ++ v :: after)) (.element before.length) elem
  | set {h g elem : Handle} {c : TypeCode} {before after : List Value} {v : Value} :
      l.resolveTypedefs h = .ok (g, .set elem) → (∀ w ∈ before, l.validate w elem = .ok ()) →
      l.ComesTo h (.set c (before ++ v :: after)) (.element before.length) elem
  | key {h g key value : Handle} {k c : TypeCode} {before after : List (Value × Value)} {x : Value × Value} :
      l.resolveTypedefs h = .ok (g, .map key value) →
      (∀ y ∈ before, l.validate y.1 key = .ok () ∧ l.validate y.2 value = .ok ()) →
      l.ComesTo h (.map k c (before ++ x :: after)) (.key before.length) key
  | value {h g key value : Handle} {k c : TypeCode} {before after : List (Value × Value)} {x : Value × Value} :
      l.resolveTypedefs h = .ok (g, .map key value) →
      (∀ y ∈ before, l.validate y.1 key = .ok () ∧ l.validate y.2 value = .ok ()) → l.validate x.1 key = .ok () →
      l.ComesTo h (.map k c (before ++ x :: after)) (.value before.length) value

def inspection (l : Linked) : Inspection Handle := ⟨l.Asks, l.ComesTo⟩

section Congruence

theorem presence_congr (hf : ∀ c, l.code? f.type = .ok (some c) →
    (fieldAt fs ⟨f.id, c⟩).map (l.validate · f.type) = (fieldAt gs ⟨f.id, c⟩).map (l.validate · f.type)) :
    l.presence name fs f = l.presence name gs f := by
  cases hc : l.code? f.type with
  | error e =>
    rw [presence, presence, hc]
    rfl
  | ok o =>
    cases o with
    | none =>
      rw [presence, presence, hc]
      rfl
    | some c => rw [presence_of_code? hc, presence_of_code? hc, hf c hc]

theorem checked_bind_congr {α β : Type} {r : Except HandleFault α} {F G : α → Except ValidationError β}
    (hFG : ∀ a, r = .ok a → F a = G a) : checked r >>= F = checked r >>= G := by
  cases r with
  | error e => rfl
  | ok a => exact hFG a rfl

theorem validate_struct_congr (hall : ∀ g kind name fields, l.resolveTypedefs h = .ok (g, .struct kind name fields) →
    fields.mapM (l.presence name fs) = fields.mapM (l.presence name gs)) :
    l.validate (.struct fs) h = l.validate (.struct gs) h := by
  by_cases hstruct : ∃ g kind name fields, l.resolveTypedefs h = .ok (g, .struct kind name fields)
  · rcases hstruct with ⟨g, kind, name, fields, ht⟩
    rw [validate_struct_eq ht, validate_struct_eq ht, hall g kind name fields ht]
  · rw [validate, validate]
    apply checked_bind_congr
    rintro ⟨g, d⟩ ht
    cases d with
    | struct kind name fields => exact absurd ⟨g, kind, name, fields, ht⟩ hstruct
    | _ => rfl

theorem validate_list_congr {c c' : TypeCode} (hall : ∀ g elem, l.resolveTypedefs h = .ok (g, .list elem) →
    l.validateAll vs elem = l.validateAll ws elem) : l.validate (.list c vs) h = l.validate (.list c' ws) h := by
  rw [validate, validate]
  apply checked_bind_congr
  rintro ⟨g, d⟩ ht
  cases d with
  | list elem => exact hall g elem ht
  | _ => rfl

theorem validate_set_congr {c c' : TypeCode} (hall : ∀ g elem, l.resolveTypedefs h = .ok (g, .set elem) →
    l.validateAll vs elem = l.validateAll ws elem) : l.validate (.set c vs) h = l.validate (.set c' ws) h := by
  rw [validate, validate]
  apply checked_bind_congr
  rintro ⟨g, d⟩ ht
  cases d with
  | set elem => exact hall g elem ht
  | _ => rfl

theorem validate_map_congr {k c k' c' : TypeCode} (hall : ∀ g key value, l.resolveTypedefs h = .ok (g, .map key value) →
    l.validateItems xs key value = l.validateItems ys key value) :
    l.validate (.map k c xs) h = l.validate (.map k' c' ys) h := by
  rw [validate, validate]
  apply checked_bind_congr
  rintro ⟨g, d⟩ ht
  cases d with
  | map key value => exact hall g key value ht
  | _ => rfl

end Congruence

section Order

theorem validateAll_middle (hab : (∀ w ∈ vs, l.validate w h = .ok ()) → l.validate a h = l.validate b h) :
    l.validateAll (vs ++ a :: ws) h = l.validateAll (vs ++ b :: ws) h := by
  rw [validateAll_eq_mapM, validateAll_eq_mapM, mapM_middle]
  simpa only [exists_eq_ok_iff] using hab

theorem validateItems_middle {x y : Value × Value}
    (hxy : (∀ z ∈ xs, l.validate z.1 key = .ok () ∧ l.validate z.2 value = .ok ()) →
      l.validateItem key value x = l.validateItem key value y) :
    l.validateItems (xs ++ x :: ys) key value = l.validateItems (xs ++ y :: ys) key value := by
  rw [validateItems_eq_mapM, validateItems_eq_mapM, mapM_middle]
  simpa only [exists_eq_ok_iff, validateItem_eq_ok_iff] using hxy

end Order

theorem blind_validate (l : Linked) : l.inspection.Blind fun h v => l.validate v h where
  fields := by
    intro h fs gs hsame
    apply validate_struct_congr
    intro g kind name fields ht
    apply mapM_congr_until
    intro before f after hsplit _
    apply presence_congr
    intro c hc
    have hf : f ∈ fields := hsplit ▸ List.mem_append_right before List.mem_cons_self
    rw [hsame ⟨f.id, c⟩ ⟨g, kind, name, fields, ht, f, hf, rfl, hc⟩]
  recoded := by
    intro h v w hr
    cases hr with
    | map k c k' c' => exact validate_map_congr fun _ _ _ _ => rfl
    | set c c' => exact validate_set_congr fun _ _ _ => rfl
    | list c c' => exact validate_list_congr fun _ _ _ => rfl
  replaced := by
    intro h p a b v w hp hpart
    cases hp with
    | field before after k a b hfirst =>
      apply validate_struct_congr
      intro g kind name fields ht
      apply mapM_congr_until
      intro earlier f later hsplit hok
      apply presence_congr
      intro c hc
      by_cases hk : k = ⟨f.id, c⟩
      · subst hk
        rw [fieldAt_middle hfirst, fieldAt_middle hfirst]
        exact congrArg some (hpart f.type (.field (hsplit ▸ ht) rfl hc hok))
      · rw [fieldAt_append, fieldAt_append, fieldAt_cons_of_ne hk, fieldAt_cons_of_ne hk]
    | key k c before after a b x =>
      apply validate_map_congr
      intro g key value ht
      apply validateItems_middle
      intro hok
      rw [validateItem, validateItem, hpart key (.key ht hok)]
    | value k c before after x a b =>
      apply validate_map_congr
      intro g key value ht
      apply validateItems_middle
      intro hok
      apply check_bind_congr
      intro hx
      exact hpart value (.value ht hok hx)
    | set c before after a b =>
      apply validate_set_congr
      intro g elem ht
      apply validateAll_middle
      intro hok
      exact hpart elem (.set ht hok)
    | list c before after a b =>
      apply validate_list_congr
      intro g elem ht
      apply validateAll_middle
      intro hok
      exact hpart elem (.list ht hok)

/-- Any number of edits, at any depth, of what is not looked at where the node is validated leave the result as it is, be
it success or an error. -/
theorem validate_of_edits (l : Linked) (h : Handle) {v w : Value} (he : ReflTransGen (l.inspection.Edit (· = h)) v w) :
    l.validate v h = l.validate w h :=
  (blind_validate l).eq_of_edits he rfl

/-- Inside the list of a node an undeclared field comes in and an empty list gets another code; in the node itself two
fields change places and a second field with a declared key is added. The field that is missing inside is still missing. -/
theorem validate_of_edits_nested :
    let node (kids : Handle) : Descriptor := .struct .struct "Node" [⟨1, "id", .required, 2⟩, ⟨2, "kids", .optional, kids⟩]
    let s : Draft := ⟨⟨#[node 1, .list 3, .primitive .i64, .reference "Node" 4], [("Node", 0)]⟩, by decide, by decide⟩
    let id (n : Int64) : Field := (⟨1, .i64⟩, .i64 n)
    let kids (c : TypeCode) (vs : List Value) : Field := (⟨2, .list⟩, .list c vs)
    let flag : Field := (⟨9, .bool⟩, .bool true)
    let v : Value := .struct [id 7, kids .struct [.struct [kids .struct []]]]
    let w : Value := .struct [kids .struct [.struct [flag, kids .bool []]], id 7, id 8]
    ∃ l : Linked, s.link.outcome = .ok l ∧ l.Reachable 0 ∧ ReflTransGen (l.inspection.Edit (· = 0)) v w ∧
      l.validate w 0 = .error (.missingRequiredField "Node" 1) := by
  intro node s id kids flag v w
  let l : Linked := ⟨⟨#[node 1, .list 0, .primitive .i64, .reference "Node" 4], [("Node", 0)]⟩⟩
  have hflag : ∀ i, ¬ l.Asks i flag.1 := by
    rintro i ⟨g, kind, name, fields, ht, f, hf, hid, -⟩
    have hd : Descriptor.struct kind name fields ∈ l.arena := Array.mem_of_getElem? (TypeTable.arena_of_targetFrom ht)
    simp only [l, node, Array.mem_def, List.mem_cons, List.not_mem_nil, or_false, Descriptor.struct.injEq, reduceCtorEq] at hd
    rcases hd with ⟨-, -, rfl⟩
    fin_cases hf
    · cases hid
    · cases hid
  let outer (fs : List Field) : Value := .struct [id 7, kids .struct [.struct fs]]
  have hinside : ∀ {fs gs}, (∀ P, l.inspection.Edit P (.struct fs) (.struct gs)) →
      l.inspection.Edit (· = 0) (outer fs) (outer gs) := by
    intro fs gs he
    exact .inside (.field [id 7] [] ⟨2, .list⟩ _ _ (by decide)) (.inside (.list .struct [] [] _ _) (he _))
  have hadd : l.inspection.Edit (· = 0) v (outer [flag, kids .struct []]) := by
    apply hinside
    intro P
    exact .fields (.add [] [kids .struct []] flag (Or.inl fun hi => hflag hi.choose hi.choose_spec.2))
  have hrecode : l.inspection.Edit (· = 0) (outer [flag, kids .struct []]) (outer [flag, kids .bool []]) := by
    apply hinside
    intro P
    exact .inside (.field [flag] [] ⟨2, .list⟩ _ _ (by decide)) (.recode (.list .struct .bool))
  have hswap : l.inspection.Edit (· = 0) (outer [flag, kids .bool []])
      (.struct [kids .struct [.struct [flag, kids .bool []]], id 7]) :=
    .fields (.swap [] [] (by decide))
  have hsecond : l.inspection.Edit (· = 0) (.struct [kids .struct [.struct [flag, kids .bool []]], id 7]) w :=
    .fields (.add [_, id 7] [] (id 8) (Or.inr ⟨id 7, by simp, rfl⟩))
  have he : ReflTransGen (l.inspection.Edit (· = 0)) v w := .head hadd (.head hrecode (.head hswap (.single hsecond)))
  have hmissing : l.validate v 0 = .error (.missingRequiredField "Node" 1) := by cbv
  refine ⟨l, by cbv, .named List.mem_cons_self, he, ?_⟩
  rw [← hmissing]
  exact (validate_of_edits l 0 he).symm

end Linked
end Schema
end TaggedWire
