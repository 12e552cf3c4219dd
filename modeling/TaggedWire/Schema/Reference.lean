import TaggedWire.Schema.Table
import TaggedWire.Log

/-! Following names: a reference leads to what its name is declared as, which may be a reference again. A chain
ends at the first descriptor that is no reference, at a name that is not declared, or at a name that it has
used before. -/
namespace TaggedWire
namespace Schema

inductive LinkEvent where
  | linking (types : Nat)
  | followed (name : String) (target : Handle)
  | linked (count : Nat)
deriving DecidableEq

def handleText (h : Handle) : String := s!"#{h}"

def LinkEvent.record : LinkEvent → Record
  | .linking types => ⟨.debug, "linking scope", [("types", toString types)]⟩
  | .followed name target =>
    ⟨.trace, "resolved type reference", [("name", name), ("target", handleText target)]⟩
  | .linked count => ⟨.debug, "linked scope", [("linked", toString count)]⟩

abbrev Linking := Traced LinkEvent LinkError

theorem countP_lt {α : Type} {p q : α → Bool} {xs : List α} (h : ∀ x, q x = true → p x = true)
    {a : α} (ha : a ∈ xs) (hp : p a = true) (hq : q a = false) : xs.countP q < xs.countP p := by
  induction xs with
  | nil => simp at ha
  | cons x xs ih =>
    have hle : xs.countP q ≤ xs.countP p := List.countP_mono_left fun x _ => h x
    rcases List.mem_cons.mp ha with rfl | ha
    · simp [hp, hq]
      omega
    · have := ih ha
      simp only [List.countP_cons]
      split <;> split
      · omega
      · exact absurd (h x ‹_›) ‹_›
      · omega
      · omega

namespace TypeTable

/-- How many declared names are not yet used. -/
def unusedNames (t : TypeTable) (used : List String) : Nat := t.names.countP fun e => e.1 ∉ used

theorem unusedNames_lt {t : TypeTable} {used : List String} {name : String} {h : Handle}
    (hn : name ∉ used) (hl : t.handleOf? name = some h) :
    t.unusedNames (name :: used) < t.unusedNames used := by
  have hm : (name, h) ∈ t.names := by
    obtain ⟨l₁, l₂, he, -⟩ := List.lookup_eq_some_iff.mp hl
    simp [he]
  exact countP_lt (by simp) hm (by simpa using hn) (by simp)

/-- The end of the chain from a handle, where the names in `used` were used on the way to it. -/
def resolveFrom (t : TypeTable) (used : List String) (h : Handle) : Linking Handle :=
  match t.arena[h]? with
  | none => .fail (.fault (.unallocated h t.arena.size))
  | some (.reference name line) =>
    if _ : name ∈ used then .fail (.selfReference name line)
    else match _ : t.handleOf? name with
      | none => .fail (.unknownType name line)
      | some target => (t.resolveFrom (name :: used) target).after (.followed name target)
  | some _ => .pure h
termination_by t.unusedNames used
decreasing_by exact unusedNames_lt ‹_› ‹_›

def resolve (t : TypeTable) (h : Handle) : Linking Handle := t.resolveFrom [] h

def resolveAll (t : TypeTable) : List Handle → Linking (List Handle)
  | [] => return []
  | h :: hs => return (← t.resolve h) :: (← t.resolveAll hs)

end TypeTable
end Schema
end TaggedWire
