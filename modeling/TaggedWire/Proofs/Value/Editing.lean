import Mathlib.Logic.Relation
import TaggedWire.Value

/-! Edits of a value that one who inspects it does not see. From a struct an inspection asks for the first field with
some keys; of a container it looks at the entries and, where there are none, not at the codes declared for them. So a
field may come, go or be refilled if nobody asks for its key or another field with the key comes before it, and fields
with different keys may change places. All this may happen at any depth, in each place by how that place is looked at. -/
namespace TaggedWire
open Relation

inductive Place where
  | field (key : FieldKey)
  | key (index : Nat)
  | value (index : Nat)
  | element (index : Nat)

/-- A way of looking at values, as far as it decides what is seen: the fields that it asks a struct for, and the ways in
which it goes on to look at what is right below a node. -/
structure Inspection (ι : Type) where
  asks : ι → FieldKey → Prop
  part : ι → Value → Place → ι → Prop

def Ignored (asked : FieldKey → Prop) (before : List Field) (key : FieldKey) : Prop :=
  ¬ asked key ∨ ∃ f ∈ before, f.1 = key

/-- One edit of the fields of a struct. Fields with the same key stay in their order. -/
inductive FieldEdit (asked : FieldKey → Prop) : List Field → List Field → Prop where
  | add (before after : List Field) (f : Field) : Ignored asked before f.1 →
      FieldEdit asked (before ++ after) (before ++ f :: after)
  | drop (before after : List Field) (f : Field) : Ignored asked before f.1 →
      FieldEdit asked (before ++ f :: after) (before ++ after)
  | refill (before after : List Field) (k : FieldKey) (v w : Value) : Ignored asked before k →
      FieldEdit asked (before ++ (k, v) :: after) (before ++ (k, w) :: after)
  | reorder {fs gs : List Field} : (∀ k, fs.filter (fun f => f.1 = k) = gs.filter fun f => f.1 = k) →
      FieldEdit asked fs gs

section Fields
variable {asked : FieldKey → Prop} {before after fs gs : List Field} {k key : FieldKey} {v : Value}

theorem fieldAt_append : fieldAt (before ++ after) key = (fieldAt before key).or (fieldAt after key) := List.lookup_append

theorem fieldAt_middle (hk : ∀ f ∈ before, f.1 ≠ k) : fieldAt (before ++ (k, v) :: after) k = some v := by
  rw [fieldAt_append, fieldAt_eq_none_iff.mpr hk, Option.none_or, fieldAt, List.lookup_cons_self]

theorem fieldAt_eq_head? : fieldAt fs key = ((fs.filter fun f => f.1 = key).head?).map Prod.snd := by
  induction fs with
  | nil => rfl
  | cons f fs ih =>
    by_cases hk : f.1 = key
    · rcases f with ⟨k, v⟩
      simp [fieldAt, show k = key from hk]
    · rw [fieldAt_cons_of_ne hk, ih, List.filter_cons_of_neg (by simpa using hk)]

theorem Ignored.fieldAt_middle (hi : Ignored asked before k) (hkey : asked key) :
    fieldAt (before ++ (k, v) :: after) key = fieldAt (before ++ after) key := by
  rw [fieldAt_append, fieldAt_append]
  by_cases hk : k = key
  · subst hk
    have hbefore : fieldAt before k ≠ none := by
      rcases hi with hno | ⟨f, hf, hfk⟩
      · exact absurd hkey hno
      · exact fun hnone => fieldAt_eq_none_iff.mp hnone f hf hfk
    rcases Option.ne_none_iff_exists'.mp hbefore with ⟨w, hw⟩
    rw [hw, Option.some_or, Option.some_or]
  · rw [fieldAt_cons_of_ne hk]

theorem FieldEdit.fieldAt_eq (he : FieldEdit asked fs gs) (hkey : asked key) : fieldAt fs key = fieldAt gs key := by
  cases he with
  | add before after f hi => exact (hi.fieldAt_middle hkey).symm
  | drop before after f hi => exact hi.fieldAt_middle hkey
  | refill before after k v w hi => exact (hi.fieldAt_middle hkey).trans (hi.fieldAt_middle hkey).symm
  | reorder hsame => rw [fieldAt_eq_head?, fieldAt_eq_head?, hsame key]

theorem FieldEdit.swap (before after : List Field) {f g : Field} (hne : f.1 ≠ g.1) :
    FieldEdit asked (before ++ f :: g :: after) (before ++ g :: f :: after) := by
  apply FieldEdit.reorder
  intro k
  have hpair : [f, g].filter (fun f => f.1 = k) = [g, f].filter fun f => f.1 = k := by
    by_cases hf : f.1 = k
    · have hg : g.1 ≠ k := fun hg => hne (hf.trans hg.symm)
      simp [hf, hg]
    · simp [List.filter_cons, hf]
  have hsplit : ∀ f g : Field, before ++ f :: g :: after = before ++ ([f, g] ++ after) := fun _ _ => rfl
  rw [hsplit, hsplit, List.filter_append, List.filter_append, List.filter_append, List.filter_append, hpair]

end Fields

namespace Value

inductive Recoded : Value → Value → Prop where
  | map (k c k' c' : TypeCode) : Recoded (.map k c []) (.map k' c' [])
  | set (c c' : TypeCode) : Recoded (.set c []) (.set c' [])
  | list (c c' : TypeCode) : Recoded (.list c []) (.list c' [])

/-- Two values that are the same but for what they have in one place: the first value there, and the second. -/
inductive Replaced : Place → Value → Value → Value → Value → Prop where
  | field (before after : List Field) (k : FieldKey) (a b : Value) : (∀ f ∈ before, f.1 ≠ k) →
      Replaced (.field k) a b (.struct (before ++ (k, a) :: after)) (.struct (before ++ (k, b) :: after))
  | key (k c : TypeCode) (before after : List (Value × Value)) (a b x : Value) :
      Replaced (.key before.length) a b (.map k c (before ++ (a, x) :: after)) (.map k c (before ++ (b, x) :: after))
  | value (k c : TypeCode) (before after : List (Value × Value)) (x a b : Value) :
      Replaced (.value before.length) a b (.map k c (before ++ (x, a) :: after)) (.map k c (before ++ (x, b) :: after))
  | set (c : TypeCode) (before after : List Value) (a b : Value) :
      Replaced (.element before.length) a b (.set c (before ++ a :: after)) (.set c (before ++ b :: after))
  | list (c : TypeCode) (before after : List Value) (a b : Value) :
      Replaced (.element before.length) a b (.list c (before ++ a :: after)) (.list c (before ++ b :: after))

end Value

namespace Inspection
variable {ι β : Type} {s : Inspection ι} {P : ι → Prop}

def below (s : Inspection ι) (P : ι → Prop) (v : Value) (p : Place) (j : ι) : Prop := ∃ i, P i ∧ s.part i v p j

/-- One edit, at the node or below it, that is not seen if the node is looked at in the ways of `P` only. -/
inductive Edit (s : Inspection ι) : (ι → Prop) → Value → Value → Prop where
  | fields {P : ι → Prop} {fs gs : List Field} : FieldEdit (fun k => ∃ i, P i ∧ s.asks i k) fs gs →
      Edit s P (.struct fs) (.struct gs)
  | recode {P : ι → Prop} {v w : Value} : v.Recoded w → Edit s P v w
  | inside {P : ι → Prop} {p : Place} {a b v w : Value} : Value.Replaced p a b v w → Edit s (s.below P v p) a b → Edit s P v w

/-- What a check finds at a node hangs only on the fields that are asked for and on what is found in the places below. -/
structure Blind (s : Inspection ι) (check : ι → Value → β) : Prop where
  fields : ∀ {i fs gs}, (∀ k, s.asks i k → fieldAt fs k = fieldAt gs k) → check i (.struct fs) = check i (.struct gs)
  recoded : ∀ {i v w}, Value.Recoded v w → check i v = check i w
  replaced : ∀ {i p a b v w}, Value.Replaced p a b v w → (∀ j, s.part i v p j → check j a = check j b) →
    check i v = check i w

theorem Blind.eq_of_edit {check : ι → Value → β} {v w : Value} (hb : s.Blind check) (he : s.Edit P v w) :
    ∀ i, P i → check i v = check i w := by
  -- on the depth of the edit: the ways to look at a place come from those to look at the node
  induction he with
  | fields he =>
    intro i hi
    exact hb.fields fun k hk => he.fieldAt_eq ⟨i, hi, hk⟩
  | recode hr =>
    intro i _
    exact hb.recoded hr
  | inside hp _ ih =>
    intro i hi
    exact hb.replaced hp fun j hj => ih j ⟨i, hi, hj⟩

theorem Blind.eq_of_edits {check : ι → Value → β} {v w : Value} (hb : s.Blind check)
    (he : ReflTransGen (s.Edit P) v w) {i : ι} (hi : P i) : check i v = check i w := by
  induction he with
  | refl => rfl
  | tail _ hstep ih => exact ih.trans (hb.eq_of_edit hstep i hi)

end Inspection
end TaggedWire
