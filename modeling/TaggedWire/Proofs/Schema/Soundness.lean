import TaggedWire.Schema.Conformance
import TaggedWire.Proofs.Schema.Linking

/-! What a link promises to those who walk through the types afterwards. From a named type no way leads out of the
arena or to a reference, and typedefs always lead to a type; so a validation never meets a handle that leads nowhere,
however the types refer to one another. -/
namespace TaggedWire
namespace Schema
open Relation

namespace TypeTable
variable {t : TypeTable} {h g : Handle} {d : Descriptor} {visited : List Handle}

/-- From a typedef to its target. -/
def Points (t : TypeTable) (h g : Handle) : Prop := ∃ name line, t.arena[h]? = some (.typedef name g line)

theorem points_rightUnique (t : TypeTable) : Relator.RightUnique t.Points := by
  intro h g g' hg hg'
  obtain ⟨name, line, hd⟩ := hg
  obtain ⟨name', line', hd'⟩ := hg'
  rw [hd] at hd'
  exact (Descriptor.typedef.inj (Option.some.inj hd')).2.1

theorem not_points (hd : t.arena[h]? = some d) (hn : d.isTypedef = false) (g : Handle) : ¬ t.Points h g := by
  intro hp
  obtain ⟨name, line, hd'⟩ := hp
  rw [hd] at hd'
  rw [Option.some.inj hd'] at hn
  cases hn

theorem targetFrom_of_not_typedef (hd : t.arena[h]? = some d) (hn : d.isTypedef = false) :
    t.targetFrom visited h = .ok (h, d) := by
  rw [targetFrom]
  split
  · simp_all
  · rename_i he
    rw [hd] at he
    rw [Option.some.inj he] at hn
    cases hn
  · simp_all

theorem targetFrom_of_typedef {name : String} {line : Nat} (hd : t.arena[h]? = some (.typedef name g line))
    (hv : h ∉ visited) : t.targetFrom visited h = t.targetFrom (h :: visited) g := by
  rw [targetFrom]
  split
  · simp_all
  · simp_all
  · simp_all

/-- The typedefs in `visited` lie on the chain before `h`, so it meets none of them again. -/
theorem targetFrom_of_points (hg : ReflTransGen t.Points h g) (hd : t.arena[g]? = some d)
    (hn : d.isTypedef = false) (hv : ∀ v ∈ visited, TransGen t.Points v h) :
    t.targetFrom visited h = .ok (g, d) := by
  induction hg using ReflTransGen.head_induction_on generalizing visited with
  | refl => exact targetFrom_of_not_typedef hd hn
  | @head h g' hp hg ih =>
    have hacyclic := not_transGen_self t.points_rightUnique (.head hp hg) (not_points hd hn)
    have hnew : h ∉ visited := fun hmem => hacyclic (hv h hmem)
    obtain ⟨name, line, hh⟩ := hp
    rw [targetFrom_of_typedef hh hnew]
    refine ih fun v hmem => ?_
    obtain rfl | hmem := List.mem_cons.mp hmem
    · exact .single ⟨name, line, hh⟩
    · exact .tail (hv v hmem) ⟨name, line, hh⟩

end TypeTable

theorem Descriptor.exists_code? {d : Descriptor} (hn : d.isTypedef = false) (hr : d.isReference = false) :
    ∃ c, d.code? = some c := by
  cases d <;> simp_all [isTypedef, isReference, code?]

namespace Linked
variable {l : Linked} {h g : Handle}

/-- The handles that the names lead to, child by child. -/
inductive Reachable (l : Linked) : Handle → Prop where
  | named {name : String} {h : Handle} : (name, h) ∈ l.names → l.Reachable h
  | child {h c : Handle} {d : Descriptor} : l.Reachable h → l.arena[h]? = some d → c ∈ d.children →
      l.Reachable c

theorem Reachable.of_points (hr : l.Reachable h) (hp : l.Points h g) : l.Reachable g := by
  obtain ⟨name, line, hd⟩ := hp
  exact hr.child hd List.mem_cons_self

/-- What is reachable is no reference, and typedefs lead from it to a type. -/
def Sound (l : Linked) : Prop :=
  ∀ h, l.Reachable h → l.Settled h ∧
    ∃ g d, ReflTransGen l.Points h g ∧ l.arena[g]? = some d ∧ d.isTypedef = false

/-- The type that a reachable handle leads to, with all that is known of it. -/
theorem Sound.exists_target (hs : l.Sound) (hr : l.Reachable h) :
    ∃ g d, ReflTransGen l.Points h g ∧ l.Reachable g ∧ l.arena[g]? = some d ∧
      d.isTypedef = false ∧ d.isReference = false ∧ l.resolveTypedefs h = .ok (g, d) := by
  obtain ⟨-, g, d, hg, hd, hn⟩ := hs h hr
  have hreach : l.Reachable g := by
    clear hd
    induction hg with
    | refl => exact hr
    | tail _ hp ih => exact ih.of_points hp
  obtain ⟨⟨d', hd', href⟩, -⟩ := hs g hreach
  obtain rfl : d = d' := Option.some.inj (hd.symm.trans hd')
  exact ⟨g, d, hg, hreach, hd, hn, href, TypeTable.targetFrom_of_points hg hd hn nofun⟩

theorem Sound.exists_code? (hs : l.Sound) (hr : l.Reachable h) : ∃ c, l.code? h = .ok (some c) := by
  obtain ⟨g, d, -, -, -, hn, href, ht⟩ := hs.exists_target hr
  obtain ⟨c, hc⟩ := Descriptor.exists_code? hn href
  exact ⟨c, by rw [code?, ht, ← hc]; rfl⟩

/-- No handle that leads nowhere ended the validation. -/
def FaultFree {α : Type} (x : Except ValidationError α) : Prop := ∀ f, x ≠ .error (.fault f)

section FaultFree
variable {α β : Type}

theorem faultFree_ok (a : α) : FaultFree (.ok a : Except ValidationError α) := nofun

theorem FaultFree.bind {x : Except ValidationError α} {k : α → Except ValidationError β} (hx : FaultFree x)
    (hk : ∀ a, x = .ok a → FaultFree (k a)) : FaultFree (x >>= k) := by
  cases x with
  | ok a => exact hk a rfl
  | error e => exact fun f he => hx f (by rw [Except.error.inj he])

theorem FaultFree.map {x : Except ValidationError α} (hx : FaultFree x) (k : α → β) : FaultFree (x.map k) := by
  cases x with
  | ok a => exact faultFree_ok _
  | error e => exact fun f he => hx f (by rw [Except.error.inj he])

theorem faultFree_mapM {k : α → Except ValidationError β} {xs : List α} (hk : ∀ a ∈ xs, FaultFree (k a)) :
    FaultFree (xs.mapM k) := by
  induction xs with
  | nil => exact faultFree_ok []
  | cons a xs ih =>
    rw [List.mapM_cons]
    refine (hk a List.mem_cons_self).bind fun b _ => ?_
    refine (ih fun a' ha' => hk a' (List.mem_cons_of_mem a ha')).bind fun bs _ => ?_
    exact faultFree_ok (b :: bs)

theorem faultFree_accepts (d : Descriptor) (c : TypeCode) : FaultFree (d.accepts c) := by
  intro f
  rw [Descriptor.accepts]
  split
  · nofun
  · split <;> nofun

theorem faultFree_validateAll {vs : List Value} (hvs : ∀ v ∈ vs, FaultFree (l.validate v h)) :
    FaultFree (l.validateAll vs h) := by
  induction vs with
  | nil => exact faultFree_ok ()
  | cons v vs ih =>
    rw [validateAll]
    refine (hvs v List.mem_cons_self).bind fun _ _ => ?_
    exact ih fun w hw => hvs w (List.mem_cons_of_mem v hw)

theorem faultFree_validateItems {xs : List (Value × Value)} {key value : Handle}
    (hxs : ∀ x ∈ xs, FaultFree (l.validate x.1 key) ∧ FaultFree (l.validate x.2 value)) :
    FaultFree (l.validateItems xs key value) := by
  induction xs with
  | nil => exact faultFree_ok ()
  | cons x xs ih =>
    obtain ⟨k, v⟩ := x
    obtain ⟨hk, hv⟩ := hxs (k, v) List.mem_cons_self
    rw [validateItems]
    refine hk.bind fun _ _ => hv.bind fun _ _ => ?_
    exact ih fun y hy => hxs y (List.mem_cons_of_mem _ hy)

end FaultFree

theorem Sound.faultFree_bind_target (hs : l.Sound) (hr : l.Reachable h)
    {k : Handle × Descriptor → Except ValidationError Unit}
    (hk : ∀ g d, l.Reachable g → l.arena[g]? = some d → FaultFree (k (g, d))) :
    FaultFree (checked (l.resolveTypedefs h) >>= k) := by
  obtain ⟨g, d, -, hg, hd, -, -, ht⟩ := hs.exists_target hr
  rw [ht]
  exact hk g d hg hd

theorem Sound.faultFree_validate_struct (hs : l.Sound) (hr : l.Reachable h) {fs : List Field}
    (hfs : ∀ f ∈ fs, ∀ h, l.Reachable h → FaultFree (l.validate f.2 h)) :
    FaultFree (l.validate (.struct fs) h) := by
  rw [validate]
  refine hs.faultFree_bind_target hr fun g d hg hd => ?_
  dsimp only
  split
  · refine (faultFree_mapM fun f hf => ?_).bind fun present _ => ?_
    · have hf : l.Reachable f.type := hg.child hd (List.mem_map_of_mem hf)
      obtain ⟨c, hc⟩ := hs.exists_code? hf
      rw [hc]
      refine (faultFree_ok (some c)).bind fun c' hc' => ?_
      obtain rfl : some c = c' := Except.ok.inj hc'
      simp only [validateField_eq]
      -- a declared field is missing, or it is validated against a child of the struct
      cases hv : fieldAt fs ⟨f.id, c⟩ with
      | none =>
        simp only [Option.map_none]
        split <;> nofun
      | some v => exact (hfs _ (mem_of_fieldAt hv) _ hf).map _
    · split <;> nofun
  · exact faultFree_accepts _ _

theorem Sound.faultFree_validate_map (hs : l.Sound) (hr : l.Reachable h) {k c : TypeCode}
    {xs : List (Value × Value)} (hxs : ∀ x ∈ xs, (∀ h, l.Reachable h → FaultFree (l.validate x.1 h)) ∧
      ∀ h, l.Reachable h → FaultFree (l.validate x.2 h)) :
    FaultFree (l.validate (.map k c xs) h) := by
  rw [validate]
  refine hs.faultFree_bind_target hr fun g d hg hd => ?_
  dsimp only
  split
  · rename_i key value
    have hkey : l.Reachable key := hg.child hd List.mem_cons_self
    have hvalue : l.Reachable value := hg.child hd (List.mem_cons_of_mem _ List.mem_cons_self)
    exact faultFree_validateItems fun x hx => ⟨(hxs x hx).1 key hkey, (hxs x hx).2 value hvalue⟩
  · exact faultFree_accepts _ _

/-- By induction on the value: whatever is inside it is validated against a child of the type that the handle leads
to, so against a reachable handle again. -/
theorem Sound.faultFree_validate (hs : l.Sound) (v : Value) : ∀ h, l.Reachable h → FaultFree (l.validate v h) := by
  induction v with
  | i32 n =>
    intro h hr
    rw [validate]
    refine hs.faultFree_bind_target hr fun g d _ _ => ?_
    dsimp only
    split
    · split <;> nofun
    · exact faultFree_accepts _ _
  | struct fs ih => exact fun h hr => hs.faultFree_validate_struct hr ih
  | map k c xs ih => exact fun h hr => hs.faultFree_validate_map hr ih
  | set c vs ih =>
    intro h hr
    rw [validate]
    refine hs.faultFree_bind_target hr fun g d hg hd => ?_
    dsimp only
    split
    · exact faultFree_validateAll fun v hv => ih v hv _ (hg.child hd List.mem_cons_self)
    · exact faultFree_accepts _ _
  | list c vs ih =>
    intro h hr
    rw [validate]
    refine hs.faultFree_bind_target hr fun g d hg hd => ?_
    dsimp only
    split
    · exact faultFree_validateAll fun v hv => ih v hv _ (hg.child hd List.mem_cons_self)
    · exact faultFree_accepts _ _
  | _ =>
    intro h hr
    simp only [validate]
    exact hs.faultFree_bind_target hr fun g d _ _ => faultFree_accepts d _

end Linked

namespace Draft
variable {s : Draft} {l : Linked} {h : Handle}

/-- What is reachable after a link is what was needed before it. -/
theorem reachable_iff_needed (hok : s.link.outcome = .ok l) : l.Reachable h ↔ s.Needed h := by
  obtain ⟨heads, expanded, -, -, hp⟩ := exists_progress hok
  constructor
  · intro hr
    rw [← hp.mem_visited_iff]
    induction hr with
    | named he => exact hp.head_mem he
    | child _ hd hc ih => exact hp.child_mem ih hd hc
  · intro hn
    induction hn with
    | named he hr => exact .named (hp.mem_names he (TypeTable.resolve_eq_ok_iff.mp hr))
    | child hn hd hc hr ih =>
      have hv := hp.mem_visited_iff.mpr hn
      obtain ⟨d', hd', hmem⟩ := hp.exists_child hv hd hc (TypeTable.resolve_eq_ok_iff.mp hr)
      exact ih.child hd' hmem

theorem settled_of_reachable (hok : s.link.outcome = .ok l) (hr : l.Reachable h) : l.Settled h := by
  obtain ⟨heads, expanded, -, -, hp⟩ := exists_progress hok
  exact hp.settled_iff.mpr ((reachable_iff_needed hok).mp hr).settled

/-- After a link the target of a reachable typedef stands for itself. -/
theorem points_of_aliases (hok : s.link.outcome = .ok l) {g : Handle} (hg : ReflTransGen l.Aliases h g)
    (hr : l.Reachable h) : ReflTransGen l.Points h g := by
  induction hg using ReflTransGen.head_induction_on with
  | refl => exact .refl
  | head ha _ ih =>
    obtain ⟨name, target, line, hd, ht⟩ := ha
    have htarget : l.Reachable target := hr.child hd List.mem_cons_self
    rw [(settled_of_reachable hok htarget).eq_of_resolves ht] at ih
    exact .head ⟨name, line, hd⟩ (ih htarget)

/-- The typedefs from a reachable handle were followed when it was expanded, and lead where they led then. -/
theorem sound_of_link (hok : s.link.outcome = .ok l) : l.Sound := by
  intro h hr
  obtain ⟨heads, expanded, -, -, hp⟩ := exists_progress hok
  have hmem : h ∈ expanded := hp.mem_visited_iff.mpr ((reachable_iff_needed hok).mp hr)
  obtain ⟨g, d, hg, hd, hn⟩ := hp.grounded_iff.mpr (hp.grounded h hmem)
  exact ⟨settled_of_reachable hok hr, g, d, points_of_aliases hok hg hr, hd, hn⟩

/-- After a link that succeeds a reachable handle is allocated and no reference; typedefs lead from it to a type that
is reachable too, so it has a code, and no validation against it meets a handle that leads nowhere. -/
theorem link_sound (hok : s.link.outcome = .ok l) (hr : l.Reachable h) :
    (∃ d, l.arena[h]? = some d ∧ d.isReference = false) ∧
      (∃ g d, ReflTransGen l.Points h g ∧ l.Reachable g ∧ l.arena[g]? = some d ∧
        d.isTypedef = false ∧ d.isReference = false ∧ l.resolveTypedefs h = .ok (g, d)) ∧
      (∃ c, l.code? h = .ok (some c)) ∧
      ∀ v f, l.validate v h ≠ .error (.fault f) := by
  have hs := sound_of_link hok
  exact ⟨(hs h hr).1, hs.exists_target hr, hs.exists_code? hr, fun v => hs.faultFree_validate v h hr⟩

/-- A typedef of a struct that holds a list of it, so that all ways are endless. -/
theorem link_sound_recursive :
    let synonym (name : String) (target : Handle) : Descriptor := .typedef name target 1
    let node : Descriptor := .struct .struct "Node" [⟨1, "below", .required, 3⟩]
    let s : Draft := ⟨⟨#[synonym "Tree" 1, .reference "Node" 1, node, .list 4, .reference "Tree" 3],
      [("Tree", 0), ("Node", 2)]⟩, by decide, by decide⟩
    ∃ l : Linked, s.link.outcome = .ok l ∧ l.Reachable 3 ∧ l.Reachable 0 ∧ l.code? 0 = .ok (some .struct) ∧
      ∀ v f, l.validate v 0 ≠ .error (.fault f) := by
  intro synonym node s
  let l : Linked := ⟨⟨#[synonym "Tree" 2, .reference "Node" 1, node, .list 0, .reference "Tree" 3],
    [("Tree", 0), ("Node", 2)]⟩⟩
  have hok : s.link.outcome = .ok l := by cbv
  have htree : l.Reachable 0 := .named List.mem_cons_self
  have hnode : l.Reachable 2 := htree.child rfl List.mem_cons_self
  have hbelow : l.Reachable 3 := hnode.child rfl List.mem_cons_self
  obtain ⟨-, -, -, hvalid⟩ := link_sound hok htree
  exact ⟨l, hok, hbelow, htree, by cbv, hvalid⟩

end Draft
end Schema
end TaggedWire
