import TaggedWire.Proofs.Schema.Rewiring
import TaggedWire.Schema.Linking
import TaggedWire.Schema.Visit

/-! Visiting the children of a descriptor: they are asked about in the order in which they are listed, and as far as the
visit comes each is overwritten by its answer. All else is as before, also where a visit has ended half way. Putting the
answers in afterwards, as a rewiring does, comes to the same. -/
namespace TaggedWire
namespace Schema

variable {σ ε : Type}

namespace Visit
variable {f : Handle → EStateM ε σ Handle} {h r : Handle} {hs rs : List Handle} {s mid s' : σ} {e : ε}

theorem place_of_ok (hr : f h s = .ok r s') : place f h s = ⟨r, [h], s', none⟩ := by
  rw [place, hr]

theorem place_of_error (he : f h s = .error e s') : place f h s = ⟨h, [h], s', some e⟩ := by
  rw [place, he]

theorem row_cons_of_ok (hr : f h s = .ok r mid) : row (place f) (h :: hs) s =
    ⟨r :: (row (place f) hs mid).part, h :: (row (place f) hs mid).asked, (row (place f) hs mid).state,
      (row (place f) hs mid).error⟩ := by
  rw [row, place_of_ok hr]
  rfl

theorem row_cons_of_error (he : f h s = .error e s') : row (place f) (h :: hs) s = ⟨h :: hs, [h], s', some e⟩ := by
  rw [row, place_of_error he]
  rfl

theorem row_singleton (h : Handle) (s : σ) : row (place f) [h] s = (place f h s).map fun r => [r] := by
  cases hf : f h s with
  | ok r mid =>
    rw [row_cons_of_ok hf, place_of_ok hf]
    rfl
  | error e mid =>
    rw [row_cons_of_error hf, place_of_error hf]
    rfl

theorem row_pair (h h' : Handle) (s : σ) : row (place f) [h, h'] s =
    ((place f h s).andThen h' fun s => place f h' s).map fun x => [x.1, x.2] := by
  cases hf : f h s with
  | ok r mid =>
    rw [row_cons_of_ok hf, place_of_ok hf, row_singleton]
    rfl
  | error e mid =>
    rw [row_cons_of_error hf, place_of_error hf]
    rfl

theorem row_of_ok (hm : hs.mapM f s = .ok rs s') : row (place f) hs s = ⟨rs, hs, s', none⟩ := by
  induction hs generalizing s rs with
  | nil =>
    cases hm
    rfl
  | cons h hs ih =>
    rcases mapM_cons_eq_result_ok_iff.mp hm with ⟨r, mid, rs, hr, hrs, rfl⟩
    rw [row_cons_of_ok hr, ih hrs]

theorem row_of_error {before : List Handle} (hm : before.mapM f s = .ok rs mid) (he : f h mid = .error e s')
    (after : List Handle) : row (place f) (before ++ h :: after) s = ⟨rs ++ h :: after, before ++ [h], s', some e⟩ := by
  induction before generalizing s rs with
  | nil =>
    cases hm
    exact row_cons_of_error he
  | cons h' before ih =>
    rcases mapM_cons_eq_result_ok_iff.mp hm with ⟨r, s₁, rs, hr, hrs, rfl⟩
    rw [List.cons_append, row_cons_of_ok hr, ih hrs]
    rfl

theorem length_row (hs : List Handle) (s : σ) : (row (place f) hs s).part.length = hs.length := by
  induction hs generalizing s with
  | nil => rfl
  | cons h hs ih =>
    cases hf : f h s with
    | ok r mid => rw [row_cons_of_ok hf, List.length_cons, List.length_cons, ih]
    | error e mid => rw [row_cons_of_error hf]

/-- Fields are visited as their types are. -/
theorem row_fields (fds : List FieldDescriptor) (s : σ) :
    row (FieldDescriptor.visit f) fds s = (row (place f) (fds.map (·.type)) s).map (retype fds) := by
  induction fds generalizing s with
  | nil => rfl
  | cons fd fds ih =>
    rw [List.map_cons, row, FieldDescriptor.visit]
    cases hf : f fd.type s with
    | ok r mid =>
      rw [row_cons_of_ok hf, place_of_ok hf]
      simp only [map, andThen, ih, retype, List.singleton_append]
    | error e mid =>
      rw [row_cons_of_error hf, place_of_error hf]
      simp only [map, andThen, retype, retype_self]

end Visit

/-- A visit to a descriptor is one to its children in a row, with what that leaves put in their places. -/
theorem Descriptor.visit_eq (d : Descriptor) (f : Handle → EStateM ε σ Handle) (s : σ) :
    d.visit f s = (Visit.row (Visit.place f) d.children s).map d.withChildren := by
  cases d with
  | list elem => rw [children, Visit.row_singleton]; rfl
  | set elem => rw [children, Visit.row_singleton]; rfl
  | typedef name target line => rw [children, Visit.row_singleton]; rfl
  | map key value => rw [children, Visit.row_pair]; rfl
  | struct kind name fields => rw [visit, Visit.row_fields]; rfl
  | primitive p => rfl
  | enum name items => rfl
  | reference name line => rfl

theorem Descriptor.children_visit (d : Descriptor) (f : Handle → EStateM ε σ Handle) (s : σ) :
    (d.visit f s).part.children = (Visit.row (Visit.place f) d.children s).part := by
  rw [visit_eq]
  exact children_withChildren (Visit.length_row d.children s).symm

theorem Descriptor.cleared_visit (d : Descriptor) (f : Handle → EStateM ε σ Handle) (s : σ) :
    (d.visit f s).part.cleared = d.cleared := by
  rw [visit_eq]
  exact d.cleared_withChildren _

/-! ### Visits and rewirings -/

/-- The function answers what one without a state answers, whatever its own state is. -/
def AnswersAs (f : Handle → EStateM ε σ Handle) (g : Handle → Except ε Handle) : Prop :=
  ∀ h s, ∃ s', f h s = match g h with
    | .ok r => .ok r s'
    | .error e => .error e s'

theorem answersAs_ofExcept (g : Handle → Except ε Handle) :
    AnswersAs (fun h => (ofExcept (g h) : EStateM ε σ Handle)) g := by
  intro h s
  refine ⟨s, ?_⟩
  change (ofExcept (g h) : EStateM ε σ Handle) s = _
  cases g h with
  | ok r => rfl
  | error e => rfl

/-- Such a function is asked as far as a mapping goes, and its answers are those of the mapping. -/
theorem Visit.row_of_answersAs {f : Handle → EStateM ε σ Handle} {g : Handle → Except ε Handle} (hfg : AnswersAs f g)
    (hs : List Handle) (s : σ) :
    (row (place f) hs s).part = (mapUntil g hs).1 ++ hs.drop (mapUntil g hs).1.length ∧
      (row (place f) hs s).asked = hs.take ((mapUntil g hs).1.length + if (mapUntil g hs).2.isSome then 1 else 0) ∧
      (row (place f) hs s).error = (mapUntil g hs).2 := by
  induction hs generalizing s with
  | nil => exact ⟨rfl, rfl, rfl⟩
  | cons h hs ih =>
    rcases hfg h s with ⟨mid, hf⟩
    cases hg : g h with
    | ok r =>
      rw [hg] at hf
      rcases ih mid with ⟨hpart, hasked, herror⟩
      rw [row_cons_of_ok hf, mapUntil, hg]
      refine ⟨congrArg (List.cons r) hpart, ?_, herror⟩
      simp only [hasked, List.length_cons, Nat.succ_add, List.take_succ_cons]
    | error e =>
      rw [hg] at hf
      rw [row_cons_of_error hf, mapUntil, hg]
      exact ⟨rfl, rfl, rfl⟩

/-- What answers are put in by a visit on its way a rewiring puts in at its end. -/
theorem Descriptor.rewire_eq_visit {f : Handle → EStateM ε σ Handle} {g : Handle → Except ε Handle}
    (hfg : AnswersAs f g) (d : Descriptor) (s : σ) :
    d.rewire g = ⟨(d.visit f s).part, (d.visit f s).asked, (d.visit f s).error⟩ := by
  rcases Visit.row_of_answersAs hfg d.children s with ⟨hpart, hasked, herror⟩
  rw [visit_eq, Visit.map, hpart, hasked, herror, withChildren_append_drop]
  rfl

/-- Resolution that keeps the log as its state. -/
def TypeTable.resolveLogged (t : TypeTable) (h : Handle) : EStateM LinkError (List LinkEvent) Handle := fun log =>
  match (t.resolve h).outcome with
  | .ok r => .ok r (log ++ (t.resolve h).log)
  | .error e => .error e (log ++ (t.resolve h).log)

theorem TypeTable.resolveLogged_answersAs (t : TypeTable) :
    AnswersAs t.resolveLogged fun h => (t.resolve h).outcome := by
  intro h log
  refine ⟨log ++ (t.resolve h).log, ?_⟩
  cases ho : (t.resolve h).outcome with
  | ok r => simp only [resolveLogged, ho]
  | error e => simp only [resolveLogged, ho]

theorem TypeTable.row_resolveLogged_state (t : TypeTable) (hs : List Handle) (log : List LinkEvent) :
    (Visit.row (Visit.place t.resolveLogged) hs log).state =
      log ++ (Visit.row (Visit.place t.resolveLogged) hs log).asked.flatMap fun h => (t.resolve h).log := by
  induction hs generalizing log with
  | nil => exact (List.append_nil log).symm
  | cons h hs ih =>
    cases ho : (t.resolve h).outcome with
    | ok r =>
      have hr : t.resolveLogged h log = .ok r (log ++ (t.resolve h).log) := by rw [resolveLogged, ho]
      rw [Visit.row_cons_of_ok hr, ih, List.flatMap_cons, List.append_assoc]
    | error e =>
      have he : t.resolveLogged h log = .error e (log ++ (t.resolve h).log) := by rw [resolveLogged, ho]
      rw [Visit.row_cons_of_error he, List.flatMap_singleton]

/-- The children of a descriptor are resolved, and the steps logged, in the order in which a visit comes to them. -/
theorem TypeTable.resolveChildren_eq_visit (t : TypeTable) (d : Descriptor) :
    t.resolveChildren d = ⟨(d.visit t.resolveLogged []).state, match (d.visit t.resolveLogged []).error with
      | some e => .error e
      | none => .ok (d.visit t.resolveLogged []).part⟩ := by
  have hlog : (d.visit t.resolveLogged []).state =
      (d.visit t.resolveLogged []).asked.flatMap fun h => (t.resolve h).log := by
    rw [Descriptor.visit_eq]
    exact t.row_resolveLogged_state d.children []
  rw [resolveChildren, Descriptor.rewire_eq_visit t.resolveLogged_answersAs d []]
  exact congrArg (fun log => Traced.mk log _) hlog.symm

/-- The function is asked about the children in their order. If it answers for all of them, those answers are the children
afterwards. If it fails at one, it has been asked about that one last, its error is handed on, the children before have
been replaced, and that one and those after it have not. Nothing else of the descriptor changes. A rewiring does the same. -/
theorem Descriptor.visit_exact (d : Descriptor) (f : Handle → EStateM ε σ Handle) (s : σ) :
    (∀ rs s', d.children.mapM f s = .ok rs s' →
      ∃ d', d.visit f s = ⟨d', d.children, s', none⟩ ∧ d'.children = rs ∧ d'.cleared = d.cleared) ∧
    (∀ before h after rs mid e s', d.children = before ++ h :: after → before.mapM f s = .ok rs mid →
      f h mid = .error e s' →
        ∃ d', d.visit f s = ⟨d', before ++ [h], s', some e⟩ ∧ d'.children = rs ++ h :: after ∧ d'.cleared = d.cleared) ∧
    ((∃ rs s', d.children.mapM f s = .ok rs s') ∨
      ∃ before h after rs mid e s', d.children = before ++ h :: after ∧ before.mapM f s = .ok rs mid ∧
        f h mid = .error e s') ∧
    ∀ g : Handle → Except ε Handle, let v := d.visit (fun h => ofExcept (g h)) s
      d.rewire g = ⟨v.part, v.asked, v.error⟩ := by
  refine ⟨?_, ?_, mapM_ok_or_fails f d.children s, fun g => rewire_eq_visit (answersAs_ofExcept g) d s⟩
  · intro rs s' hm
    have hrow := Visit.row_of_ok hm
    refine ⟨(d.visit f s).part, ?_, ?_, d.cleared_visit f s⟩
    · rw [visit_eq, hrow]
      rfl
    · rw [children_visit, hrow]
  · intro before h after rs mid e s' hsplit hm he
    have hrow := Visit.row_of_error hm he after
    rw [← hsplit] at hrow
    refine ⟨(d.visit f s).part, ?_, ?_, d.cleared_visit f s⟩
    · rw [visit_eq, hrow]
      rfl
    · rw [children_visit, hrow]

/-- Of four fields the third one is refused; the answers count the questions, so two fields of one type get two answers. -/
theorem Descriptor.visit_exact_half_way :
    let d : Descriptor := .struct .union "Shape"
      [⟨1, "a", .required, 5⟩, ⟨2, "b", .optional, 5⟩, ⟨-3, "c", .unstated, 2⟩, ⟨4, "d", .required, 5⟩]
    let f : Handle → EStateM String Nat Handle := fun h n =>
      if h = 2 then .error "unknown" (n + 1) else .ok (10 * h + n) (n + 1)
    (∃ d', d.visit f 0 = ⟨d', [5, 5, 2], 3, some "unknown"⟩ ∧ d'.children = [50, 51, 2, 5] ∧ d'.cleared = d.cleared) ∧
      ∃ d', (Descriptor.map 7 1).visit f 0 = ⟨d', [7, 1], 2, none⟩ ∧ d'.children = [70, 11] ∧ d'.cleared = .map 0 0 := by
  intro d f
  have hfails := (visit_exact d f 0).2.1
  have hanswers := (visit_exact (.map 7 1) f 0).1
  exact ⟨hfails [5, 5] 2 [5] [50, 51] 2 "unknown" 3 rfl rfl rfl, hanswers [70, 11] 2 rfl⟩

end Schema
end TaggedWire
