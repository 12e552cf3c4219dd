import Mathlib.Data.List.Forall2
import Mathlib.Logic.Relation
import TaggedWire.Schema.Reference
import TaggedWire.Proofs.Outcome

/-! What a handle stands for. Resolving follows references by name: it succeeds exactly if the chain of references
leads to a descriptor that is none, and then it gives that one. -/
namespace TaggedWire
namespace Schema
open Relation

section Chain
variable {α : Type} {R : α → α → Prop} {a b c : α}

theorem chain_end_unique (hR : Relator.RightUnique R) (hb : ReflTransGen R a b) (hc : ReflTransGen R a c)
    (eb : ∀ x, ¬ R b x) (ec : ∀ x, ¬ R c x) : b = c := by
  obtain h | h := ReflTransGen.total_of_right_unique hR hb hc
  · obtain h | ⟨x, hx, -⟩ := h.cases_head
    · exact h
    · exact absurd hx (eb x)
  · obtain h | ⟨x, hx, -⟩ := h.cases_head
    · exact h.symm
    · exact absurd hx (ec x)

/-- A chain that ends does not come back to where it was. -/
theorem not_transGen_self (hR : Relator.RightUnique R) (hb : ReflTransGen R a b) (eb : ∀ x, ¬ R b x) :
    ¬ TransGen R a a := by
  induction hb using ReflTransGen.head_induction_on with
  | refl =>
    intro h
    obtain ⟨x, hx, -⟩ := TransGen.head'_iff.mp h
    exact eb x hx
  | head hac hcb ih =>
    intro h
    obtain ⟨x, hx, hxa⟩ := TransGen.head'_iff.mp h
    rw [hR hx hac] at hxa
    exact ih (TransGen.tail' hxa hac)

end Chain

/-- A step of a resolution; resolving logs nothing else. -/
def LinkEvent.IsFollowed (e : LinkEvent) : Prop := ∃ name target, e = .followed name target

namespace TypeTable
variable {t : TypeTable} {h g r : Handle} {name : String}

def Refers (t : TypeTable) (h : Handle) (name : String) : Prop :=
  ∃ line, t.arena[h]? = some (.reference name line)

/-- From a reference to the handle that its name is declared on. -/
def Follows (t : TypeTable) (h g : Handle) : Prop := ∃ name, t.Refers h name ∧ t.handleOf? name = some g

/-- The handle is allocated and no reference. -/
def Settled (t : TypeTable) (h : Handle) : Prop := ∃ d, t.arena[h]? = some d ∧ d.isReference = false

/-- The chain of references from `h` ends at `r`. -/
def Resolves (t : TypeTable) (h r : Handle) : Prop := ReflTransGen t.Follows h r ∧ t.Settled r

theorem Refers.unique {name' : String} (hn : t.Refers h name) (hn' : t.Refers h name') : name = name' := by
  obtain ⟨line, hd⟩ := hn
  obtain ⟨line', hd'⟩ := hn'
  rw [hd] at hd'
  exact (Descriptor.reference.inj (Option.some.inj hd')).1

theorem follows_rightUnique (t : TypeTable) : Relator.RightUnique t.Follows := by
  intro h g g' hg hg'
  obtain ⟨name, hn, hl⟩ := hg
  obtain ⟨name', hn', hl'⟩ := hg'
  rw [hn.unique hn', hl'] at hl
  exact (Option.some.inj hl).symm

theorem Settled.not_refers (hs : t.Settled h) : ¬ t.Refers h name := by
  intro hn
  obtain ⟨d, hd, hr⟩ := hs
  obtain ⟨line, hd'⟩ := hn
  rw [hd] at hd'
  rw [Option.some.inj hd'] at hr
  cases hr

theorem Settled.not_follows (hs : t.Settled h) (g : Handle) : ¬ t.Follows h g := by
  intro hf
  obtain ⟨name, hn, -⟩ := hf
  exact hs.not_refers hn

theorem Settled.resolves (hs : t.Settled h) : t.Resolves h h := ⟨.refl, hs⟩

theorem Resolves.of_follows (hf : t.Follows h g) (hg : t.Resolves g r) : t.Resolves h r :=
  ⟨.head hf hg.1, hg.2⟩

theorem Resolves.unique {r' : Handle} (hr : t.Resolves h r) (hr' : t.Resolves h r') : r = r' :=
  chain_end_unique t.follows_rightUnique hr.1 hr'.1 hr.2.not_follows hr'.2.not_follows

theorem Settled.eq_of_resolves (hs : t.Settled h) (hr : t.Resolves h r) : r = h := hr.unique hs.resolves

theorem Resolves.cases (hr : t.Resolves h r) : (h = r ∧ t.Settled h) ∨ ∃ g, t.Follows h g ∧ t.Resolves g r := by
  obtain ⟨hc, hs⟩ := hr
  obtain rfl | ⟨g, hf, hg⟩ := hc.cases_head
  · exact .inl ⟨rfl, hs⟩
  · exact .inr ⟨g, hf, hg, hs⟩

theorem resolveFrom_of_settled (hs : t.Settled h) (used : List String) : t.resolveFrom used h = .pure h := by
  obtain ⟨d, hd, hr⟩ := hs
  rw [resolveFrom, hd]
  cases d <;> first | rfl | cases hr

theorem resolveFrom_of_refers {used : List String} (hn : t.Refers h name) (hl : t.handleOf? name = some g)
    (hu : name ∉ used) :
    t.resolveFrom used h = (t.resolveFrom (name :: used) g).after (.followed name g) := by
  obtain ⟨line, hd⟩ := hn
  rw [resolveFrom, hd]
  simp only [hu, dite_false]
  split
  · rename_i hl'
    simp [hl] at hl'
  · rename_i g' hl'
    obtain rfl := Option.some.inj (hl.symm.trans hl')
    rfl

theorem resolves_of_resolveFrom {used : List String} (hr : (t.resolveFrom used h).outcome = .ok r) :
    t.Resolves h r := by
  fun_induction resolveFrom t used h with
  | case1 => cases hr
  | case2 => cases hr
  | case3 => cases hr
  | case4 used h name line hd hu target hl ih => exact .of_follows ⟨name, ⟨line, hd⟩, hl⟩ (ih hr)
  | case5 used h d hnr hd =>
    have hs : t.Settled h := by
      refine ⟨d, hd, ?_⟩
      cases d <;> first | rfl | exact (hnr _ _ rfl).elim
    obtain rfl : h = r := Except.ok.inj hr
    exact hs.resolves

/-- The names that were used lie on the chain before `h`, so no reference from `h` on uses one of them again. -/
theorem resolveFrom_of_resolves (hr : t.Resolves h r) {used : List String}
    (hu : ∀ name ∈ used, ∃ w, t.Refers w name ∧ TransGen t.Follows w h) :
    (t.resolveFrom used h).outcome = .ok r := by
  obtain ⟨hc, hs⟩ := hr
  induction hc using ReflTransGen.head_induction_on generalizing used with
  | refl => rw [resolveFrom_of_settled hs]; rfl
  | @head h g hf hc ih =>
    have hacyclic := not_transGen_self t.follows_rightUnique (.head hf hc) hs.not_follows
    obtain ⟨name, hn, hl⟩ := hf
    have hnew : name ∉ used := by
      intro hmem
      -- the reference that used the name went on to `g` too, so the chain would come round to `g`
      obtain ⟨w, hw, hwh⟩ := hu name hmem
      obtain ⟨g', hwg, hgh⟩ := TransGen.head'_iff.mp hwh
      obtain rfl : g' = g := t.follows_rightUnique hwg ⟨name, hw, hl⟩
      exact hacyclic (.head' ⟨name, hn, hl⟩ hgh)
    rw [resolveFrom_of_refers hn hl hnew]
    refine ih fun name' hname' => ?_
    obtain rfl | hname' := List.mem_cons.mp hname'
    · exact ⟨h, hn, .single ⟨name', hn, hl⟩⟩
    · obtain ⟨w, hw, hwh⟩ := hu name' hname'
      exact ⟨w, hw, .tail hwh ⟨name, hn, hl⟩⟩

theorem resolve_eq_ok_iff : (t.resolve h).outcome = .ok r ↔ t.Resolves h r :=
  ⟨resolves_of_resolveFrom, fun hr => resolveFrom_of_resolves hr nofun⟩

theorem resolveAll_eq_ok_iff {hs rs : List Handle} :
    (t.resolveAll hs).outcome = .ok rs ↔ List.Forall₂ t.Resolves hs rs := by
  induction hs generalizing rs with
  | nil => simp [resolveAll, eq_comm]
  | cons h hs ih =>
    simp only [resolveAll, Traced.outcome_bind_eq_ok_iff, resolve_eq_ok_iff, ih, List.forall₂_cons_left_iff]
    constructor
    · intro hok
      obtain ⟨r, hr, rs', hrs, he⟩ := hok
      exact ⟨r, rs', hr, hrs, (Except.ok.inj he).symm⟩
    · intro hall
      obtain ⟨r, rs', hr, hrs, rfl⟩ := hall
      exact ⟨r, hr, rs', hrs, rfl⟩

theorem resolveFrom_emits (h : Handle) (used : List String) : (t.resolveFrom used h).Emits LinkEvent.IsFollowed := by
  fun_induction resolveFrom t used h with
  | case1 => nofun
  | case2 => nofun
  | case3 => nofun
  | case4 used h name line hd hu target hl ih =>
    intro e he
    obtain rfl | he := List.mem_cons.mp he
    · exact ⟨name, target, rfl⟩
    · exact ih e he
  | case5 => nofun

theorem resolve_emits (t : TypeTable) (h : Handle) : (t.resolve h).Emits LinkEvent.IsFollowed :=
  resolveFrom_emits h []

theorem resolveAll_emits (t : TypeTable) (hs : List Handle) : (t.resolveAll hs).Emits LinkEvent.IsFollowed := by
  induction hs with
  | nil => exact Traced.emits_pure []
  | cons h hs ih =>
    refine (t.resolve_emits h).bind fun r _ => ?_
    exact ih.bind fun rs _ => Traced.emits_pure _

end TypeTable

end Schema
end TaggedWire
