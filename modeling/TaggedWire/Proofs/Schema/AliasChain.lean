import TaggedWire.Proofs.Schema.Diagnosis
import TaggedWire.Proofs.Schema.Rejection

/-! Typedefs that are followed from any handle of a linked schema, also from one that no name leads to. What a link does
not come to it leaves as it is, so there typedefs may still lead round. No type is found from where they do, and one from
everywhere else; and a validation that comes nowhere where they do has an answer. -/
namespace TaggedWire
namespace Schema
open Relation

namespace TypeTable
variable {s t : TypeTable} {h g : Handle} {d : Descriptor} {visited : List Handle} {f : HandleFault}

/-- The typedefs from the handle come to one that leads back to itself. -/
def Circular (t : TypeTable) (h : Handle) : Prop := ∃ c, ReflTransGen t.Points h c ∧ TransGen t.Points c c

theorem not_circular (hg : ReflTransGen t.Points h g) (hd : t.arena[g]? = some d) (hn : d.isTypedef = false) :
    ¬ t.Circular h := by
  rintro ⟨c, hc, hcc⟩
  exact not_transGen_self_of_reach t.points_rightUnique hg (not_points hd hn) hc hcc

/-- The typedefs in `visited` lie on the way to `h`, so one that is met again leads back to itself. -/
theorem circular_of_targetFrom (ht : t.Closed) (hh : h < t.arena.size) (he : t.targetFrom visited h = .error f)
    (hv : ∀ v ∈ visited, TransGen t.Points v h) : t.Circular h := by
  fun_induction targetFrom t visited h with
  | case1 visited h hd => exact absurd hh (by simpa using hd)
  | case2 visited h name target line hd hmem => exact ⟨h, .refl, hv h hmem⟩
  | case3 visited h name target line hd hnew ih =>
    have hp : t.Points h target := ⟨name, line, hd⟩
    have htarget : target < t.arena.size := ht.children _ (Array.mem_of_getElem? hd) target List.mem_cons_self
    have hv' : ∀ v ∈ h :: visited, TransGen t.Points v target := by
      intro v hmem
      rcases List.mem_cons.mp hmem with rfl | hmem
      · exact .single hp
      · exact .tail (hv v hmem) hp
    rcases ih htarget he hv' with ⟨c, hc, hcc⟩
    exact ⟨c, .head hp hc, hcc⟩
  | case4 => cases he

theorem Circular.exists_fault (hc : t.Circular h) : ∃ f, t.targetFrom [] h = .error f := by
  cases htarget : t.targetFrom [] h with
  | error f => exact ⟨f, rfl⟩
  | ok p =>
    rcases end_of_targetFrom htarget with ⟨hg, hd, hn⟩
    exact absurd hc (not_circular hg hd hn)

/-- Where typedefs pointed only backwards before a link they lead round nowhere, if they do not where the link came. -/
theorem LinkedOn.not_circular (hl : LinkedOn s t visited) (hs : ∀ h g, s.Points h g → g < h)
    (hv : ∀ c ∈ visited, ¬ t.Circular c) (h : Handle) : ¬ t.Circular h := by
  rintro ⟨c, -, hcc⟩
  -- the link did not come to the handles on the cycle, so each typedef there still points backwards
  have hback : ∀ x y, ReflTransGen t.Points c x → t.Points x y → y < x := by
    intro x y hx hxy
    have hkept : x ∉ visited := fun hmem =>
      hv x hmem ⟨x, .refl, transGen_self_of_reflTransGen t.points_rightUnique hcc hx⟩
    rcases hxy with ⟨name, line, hd⟩
    rw [hl.kept x hkept] at hd
    exact hs x y ⟨name, line, hd⟩
  have hlt : ∀ x, TransGen t.Points c x → x < c := by
    intro x hx
    induction hx with
    | single hp => exact hback _ _ .refl hp
    | tail hx hxy ih => exact (hback _ _ hx.to_reflTransGen hxy).trans ih
  exact Nat.lt_irrefl c (hlt c hcc)

end TypeTable

namespace Linked
variable {l : Linked} {h g : Handle} {v : Value} {f : HandleFault}

/-- At once a validation looks for a type where typedefs lead round: from the handle itself, or from the type of the
first declared field of a struct that is not done with. -/
inductive Stalls (l : Linked) : Handle × Value → Prop where
  | here {h : Handle} {v : Value} : l.Circular h → l.Stalls (h, v)
  | field {h g : Handle} {kind : StructKind} {name : String} {before after : List FieldDescriptor} {f : FieldDescriptor}
      {fs : List Field} : l.resolveTypedefs h = .ok (g, .struct kind name (before ++ f :: after)) →
      (∀ e ∈ before, ∃ b, l.presence name fs e = .ok b) → l.Circular f.type → l.Stalls (h, .struct fs)

theorem validate_of_fault (ht : l.resolveTypedefs h = .error f) (v : Value) : l.validate v h = .error (.fault f) := by
  cases v <;> simp only [validate, ht] <;> rfl

theorem code?_eq_error_iff : l.code? h = .error f ↔ l.resolveTypedefs h = .error f := map_eq_error_iff

theorem not_circular_iff (hl : l.Closed) (hh : h < l.arena.size) : ¬ l.Circular h ↔
    ∃ g d, ReflTransGen l.Points h g ∧ l.arena[g]? = some d ∧ d.isTypedef = false ∧ l.resolveTypedefs h = .ok (g, d) ∧
      l.code? h = .ok d.code? := by
  constructor
  · intro hc
    cases ht : l.resolveTypedefs h with
    | error f => exact absurd (TypeTable.circular_of_targetFrom hl hh ht nofun) hc
    | ok p =>
      rcases p with ⟨g, d⟩
      rcases TypeTable.end_of_targetFrom ht with ⟨hg, hd, hn⟩
      refine ⟨g, d, hg, hd, hn, rfl, ?_⟩
      rw [code?, ht]
      rfl
  · rintro ⟨g, d, hg, hd, hn, -⟩
    exact TypeTable.not_circular hg hd hn

theorem presence_eq_fault_iff {name : String} {fs : List Field} {field : FieldDescriptor} :
    l.presence name fs field = .error (.fault f) ↔ l.resolveTypedefs field.type = .error f ∨
      ∃ c v, l.code? field.type = .ok (some c) ∧ fieldAt fs ⟨field.id, c⟩ = some v ∧
        l.validate v field.type = .error (.fault f) := by
  rw [← code?_eq_error_iff]
  cases hc : l.code? field.type with
  | error e => simp [presence, hc, checked, bind, Except.bind]
  | ok o =>
    cases o with
    | none => simp [presence, hc, checked, bind, Except.bind, pure, Except.pure]
    | some c => simp [presence_eq_error_iff hc]

theorem fault_of_stalls {q : Handle × Value} (hs : l.Stalls q) : ∃ f, l.validate q.2 q.1 = .error (.fault f) := by
  cases hs with
  | here hc =>
    rcases hc.exists_fault with ⟨f, he⟩
    exact ⟨f, validate_of_fault he _⟩
  | field ht hbefore hc =>
    rcases hc.exists_fault with ⟨f, he⟩
    exact ⟨f, validate_of_presence ht hbefore (presence_eq_fault_iff.mpr (.inl he))⟩

theorem stalls_or_descends (hl : l.Closed) (hh : h < l.arena.size) (he : l.validate v h = .error (.fault f)) :
    l.Stalls (h, v) ∨ ∃ q, l.Descends (h, v) q ∧ q.1 < l.arena.size ∧ l.validate q.2 q.1 = .error (.fault f) := by
  cases ht : l.resolveTypedefs h with
  | error f => exact .inl (.here (TypeTable.circular_of_targetFrom hl hh ht nofun))
  | ok p =>
    rcases p with ⟨g, d⟩
    have hchild : ∀ c ∈ d.children, c < l.arena.size :=
      hl.children d (Array.mem_of_getElem? (TypeTable.arena_of_targetFrom ht))
    rcases error_cases ht he with hb | ⟨q, hq, he⟩ | ⟨kind, name, fields, fs, rfl, rfl⟩
    · cases hb
    · exact .inr ⟨q, hq, hchild q.1 (mem_children_of_descends ht hq), he⟩
    · rw [validate_struct_eq ht, bind_eq_error_iff] at he
      rcases he with he | ⟨present, -, he⟩
      · rcases mapM_eq_error_iff.mp he with ⟨before, field, after, rfl, hbefore, he⟩
        have hfield : field.type < l.arena.size :=
          hchild field.type (List.mem_map_of_mem (List.mem_append_right before List.mem_cons_self))
        rcases presence_eq_fault_iff.mp he with he | ⟨c, w, hc, hw, he⟩
        · exact .inl (.field ht hbefore (TypeTable.circular_of_targetFrom hl hfield he nofun))
        · exact .inr ⟨(field.type, w), ⟨.field ⟨field.id, c⟩, .field ht rfl hc hbefore, hw⟩, hfield, he⟩
      · split at he <;> cases he

theorem validate_eq_fault_iff (hl : l.Closed) (hh : h < l.arena.size) : (∃ f, l.validate v h = .error (.fault f)) ↔
    ∃ q, ReflTransGen l.Descends (h, v) q ∧ l.Stalls q := by
  constructor
  · rintro ⟨f, he⟩
    exact exists_of_descends (A := (· < l.arena.size)) (fun _ _ => stalls_or_descends hl) hh he
  · rintro ⟨q, hq, hs⟩
    rcases fault_of_stalls hs with ⟨f, he⟩
    exact ⟨f, validate_of_reflTransGen hq he⟩

end Linked

namespace Draft
variable {s : Draft} {l : Linked}

/-- Of a schema with all children allocated: after a link the typedefs from an allocated handle come to an end, where the
type is found that they stand for, if and only if they do not come to ones that lead round; and a validation against it
ends with a fault if and only if it comes to where they do. From what the names lead to they never come there, and from
nowhere if each typedef of the draft points at what was allocated before it. -/
theorem link_aliases (hok : s.link.outcome = .ok l) (hc : ∀ d ∈ s.arena, ∀ c ∈ d.children, c < s.arena.size) :
    (∀ h < s.arena.size, ¬ l.Circular h ↔ ∃ g d, ReflTransGen l.Points h g ∧ l.arena[g]? = some d ∧ d.isTypedef = false ∧
        l.resolveTypedefs h = .ok (g, d) ∧ l.code? h = .ok d.code?) ∧
      (∀ h < s.arena.size, ∀ v, (∃ f, l.validate v h = .error (.fault f)) ↔
        ∃ q, ReflTransGen l.Descends (h, v) q ∧ l.Stalls q) ∧
      (∀ h, l.Reachable h → ¬ l.Circular h) ∧
      ((∀ h g, s.Points h g → g < h) → ∀ h, ¬ l.Circular h) := by
  rcases exists_progress hok with ⟨heads, expanded, -, -, hp⟩
  have hl : l.Closed := hp.closed ⟨s.names_allocated, hc⟩
  have hreach : ∀ h, l.Reachable h → ¬ l.Circular h := by
    intro h hr
    rcases sound_of_link hok h hr with ⟨-, g, d, hg, hd, hn⟩
    exact TypeTable.not_circular hg hd hn
  rw [← hp.size]
  refine ⟨fun h hh => ?_, fun h hh v => Linked.validate_eq_fault_iff hl hh, hreach, fun hback => ?_⟩
  · exact Linked.not_circular_iff hl hh
  · exact hp.not_circular hback fun c hc => hreach c ((reachable_iff_needed hok).mpr (hp.mem_visited_iff.mp hc))

/-- Two typedefs and a list that no name leads to: one points at itself, the other at a typedef that a name leads to, and
the list is of the first. -/
theorem link_aliases_apart :
    let synonym (name : String) (target : Handle) : Descriptor := .typedef name target 4
    let user (id : Handle) : Descriptor := .struct .struct "User" [⟨1, "id", .required, id⟩]
    let s : Draft := ⟨⟨#[user 1, .reference "Id" 2, synonym "Id" 3, .primitive .i64, synonym "Loop" 4, synonym "Name" 2,
      .list 4], [("User", 0), ("Id", 2)]⟩, by decide, by decide⟩
    ∃ l : Linked, s.link.outcome = .ok l ∧ ¬ l.Circular 2 ∧
      (∃ g d, ReflTransGen l.Points 5 g ∧ l.arena[g]? = some d ∧ d.isTypedef = false ∧ l.resolveTypedefs 5 = .ok (g, d) ∧
        l.code? 5 = .ok d.code?) ∧
      ∃ q, ReflTransGen l.Descends (6, .list .i64 [.i64 1]) q ∧ l.Stalls q := by
  intro synonym user s
  let l : Linked := ⟨⟨#[user 2, .reference "Id" 2, synonym "Id" 3, .primitive .i64, synonym "Loop" 4, synonym "Name" 2,
    .list 4], [("User", 0), ("Id", 2)]⟩⟩
  have hok : s.link.outcome = .ok l := by cbv
  rcases link_aliases hok (by decide) with ⟨hend, hfault, hreach, -⟩
  have hname : ¬ l.Circular 5 :=
    TypeTable.not_circular (.head ⟨"Name", 4, rfl⟩ (.single ⟨"Id", 4, rfl⟩)) (show l.arena[3]? = some _ from rfl) rfl
  have hloop : l.validate (.list .i64 [.i64 1]) 6 = .error (.fault (.endlessAlias 4)) := by cbv
  exact ⟨l, hok, hreach 2 (.named (List.mem_cons_of_mem _ List.mem_cons_self)), (hend 5 (by decide)).mp hname,
    (hfault 6 (by decide) _).mp ⟨_, hloop⟩⟩

/-- A typedef that no name leads to and that points at itself stays as it is. -/
theorem link_keeps_endless_alias :
    let synonym (name : String) (target : Handle) : Descriptor := .typedef name target 1
    let s : Draft := ⟨⟨#[synonym "Loop" 0], []⟩, by decide, by decide⟩
    ∃ l : Linked, s.link.outcome = .ok l ∧ (∀ d ∈ s.arena, ∀ c ∈ d.children, c < s.arena.size) ∧ 0 < s.arena.size ∧
      (¬ ∃ g d, ReflTransGen l.Points 0 g ∧ l.arena[g]? = some d ∧ d.isTypedef = false) ∧
      l.resolveTypedefs 0 = .error (.endlessAlias 0) ∧ l.code? 0 = .error (.endlessAlias 0) ∧
      ∀ v, l.validate v 0 = .error (.fault (.endlessAlias 0)) := by
  intro synonym s
  let l : Linked := ⟨⟨#[synonym "Loop" 0], []⟩⟩
  have hok : s.link.outcome = .ok l := by cbv
  have hround : l.Circular 0 := ⟨0, .refl, .single ⟨"Loop", 1, rfl⟩⟩
  have hendless : l.resolveTypedefs 0 = .error (.endlessAlias 0) := by cbv
  refine ⟨l, hok, by decide, by decide, ?_, hendless, Linked.code?_eq_error_iff.mpr hendless, Linked.validate_of_fault hendless⟩
  rintro ⟨g, d, hg, hd, hn⟩
  exact TypeTable.not_circular hg hd hn hround

end Draft
end Schema
end TaggedWire
