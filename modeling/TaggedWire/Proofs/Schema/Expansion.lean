import TaggedWire.Schema.Linking
import TaggedWire.Proofs.Schema.Resolution
import TaggedWire.Proofs.Schema.Rewiring

/-! Expansion as a worklist. While descriptors are rewired one after the other, handles go on to stand for what they
stood for before the first of them was; so in the end each needed descriptor has been rewired once, as if all had
been at once. -/
namespace TaggedWire
namespace Schema
open Relation

def Descriptor.isTypedef : Descriptor → Bool
  | .typedef .. => true
  | _ => false

@[simp] theorem Descriptor.isTypedef_withChildren (d : Descriptor) (rs : List Handle) :
    (d.withChildren rs).isTypedef = d.isTypedef := by
  cases d <;> rfl

namespace TypeTable
variable {s t : TypeTable} {h g r : Handle} {visited queue : List Handle}

theorem resolveChildren_eq_ok_iff {d d' : Descriptor} :
    (t.resolveChildren d).outcome = .ok d' ↔
      ∃ rs, List.Forall₂ t.Resolves d.children rs ∧ d' = d.withChildren rs := by
  have hR : t.Resolves = fun h r => (t.resolve h).outcome = .ok r :=
    funext₂ fun h r => propext resolve_eq_ok_iff.symm
  rw [hR, ← Descriptor.rewire_error_eq_none_iff, resolveChildren]
  cases (d.rewire fun h => (t.resolve h).outcome).error with
  | some e => simp
  | none => simp

/-- From a typedef to what its target stands for. -/
def Aliases (t : TypeTable) (h g : Handle) : Prop :=
  ∃ name target line, t.arena[h]? = some (.typedef name target line) ∧ t.Resolves target g

/-- Typedefs and references lead from the handle to a type. -/
def Grounded (t : TypeTable) (h : Handle) : Prop :=
  ∃ g d, ReflTransGen t.Aliases h g ∧ t.arena[g]? = some d ∧ d.isTypedef = false

theorem grounded_of_checkAliases (hok : (t.checkAliases visited h).outcome = .ok ()) : t.Grounded h := by
  fun_induction checkAliases t visited h with
  | case1 => cases hok
  | case2 => cases hok
  | case3 visited h name target line hd hv ih =>
    obtain ⟨r, hr, hok⟩ := Traced.outcome_bind_eq_ok_iff.mp hok
    obtain ⟨g, d, hg, hgd⟩ := ih r hok
    exact ⟨g, d, .head ⟨name, target, line, hd, resolve_eq_ok_iff.mp hr⟩ hg, hgd⟩
  | case4 visited h d hnt hd =>
    refine ⟨h, d, .refl, hd, ?_⟩
    cases d <;> first | rfl | exact (hnt _ _ _ rfl).elim

theorem checkAliases_emits (t : TypeTable) (h : Handle) (visited : List Handle) :
    (t.checkAliases visited h).Emits LinkEvent.IsFollowed := by
  fun_induction checkAliases t visited h with
  | case1 => nofun
  | case2 => nofun
  | case3 visited h name target line hd hv ih => exact (t.resolve_emits target).bind fun r _ => ih r
  | case4 => nofun

theorem resolveChildren_emits (t : TypeTable) (d : Descriptor) :
    (t.resolveChildren d).Emits LinkEvent.IsFollowed := by
  intro e he
  obtain ⟨h, -, he⟩ := List.mem_flatMap.mp he
  exact t.resolve_emits h e he

theorem expandFrom_emits (t : TypeTable) (visited queue : List Handle) :
    (t.expandFrom visited queue).Emits LinkEvent.IsFollowed := by
  fun_induction expandFrom t visited queue with
  | case1 => nofun
  | case2 t visited h queue hv ih => exact ih
  | case3 => nofun
  | case4 t visited h queue hv d hd ih =>
    refine (t.checkAliases_emits h []).bind fun _ _ => ?_
    exact (t.resolveChildren_emits d).bind fun d' _ => ih d'

/-- What the named types lead to: the handles that a link expands. -/
inductive Needed (t : TypeTable) : Handle → Prop where
  | named {name : String} {h r : Handle} : (name, h) ∈ t.names → (t.resolve h).outcome = .ok r → t.Needed r
  | child {h c r : Handle} {d : Descriptor} : t.Needed h → t.arena[h]? = some d → c ∈ d.children →
      (t.resolve c).outcome = .ok r → t.Needed r

theorem Needed.settled (hn : t.Needed h) : t.Settled h := by
  cases hn with
  | named _ hr => exact (resolve_eq_ok_iff.mp hr).2
  | child _ _ _ hr => exact (resolve_eq_ok_iff.mp hr).2

/-- In `t` the handle has its descriptor from `s`, with the children that those of `s` stand for there. -/
def Expanded (s t : TypeTable) (h : Handle) : Prop :=
  ∃ d d', s.arena[h]? = some d ∧ d.isReference = false ∧ t.arena[h]? = some d' ∧
    List.Forall₂ s.Resolves d.children d'.children ∧ d' = d.withChildren d'.children

theorem Expanded.typedef (he : Expanded s t h) {name : String} {target : Handle} {line : Nat}
    (hs : s.arena[h]? = some (.typedef name target line)) :
    ∃ r, t.arena[h]? = some (.typedef name r line) ∧ s.Resolves target r := by
  obtain ⟨d, d', hd, -, hd', hc, he⟩ := he
  obtain rfl : d = .typedef name target line := Option.some.inj (hd.symm.trans hs)
  obtain ⟨r, rs, hr, -, hrs⟩ := List.forall₂_cons_left_iff.mp hc
  exact ⟨r, by rw [hd', he, hrs]; rfl, hr⟩

theorem Expanded.of_typedef (he : Expanded s t h) {name : String} {r : Handle} {line : Nat}
    (ht : t.arena[h]? = some (.typedef name r line)) :
    ∃ target, s.arena[h]? = some (.typedef name target line) ∧ s.Resolves target r := by
  obtain ⟨d, d', hd, -, hd', hc, he⟩ := he
  obtain rfl : d' = .typedef name r line := Option.some.inj (hd'.symm.trans ht)
  obtain ⟨target, hs⟩ : ∃ target, d = .typedef name target line := by
    cases d with
    | typedef name' target line' =>
      obtain ⟨rfl, -, rfl⟩ := Descriptor.typedef.inj he
      exact ⟨target, rfl⟩
    | _ => cases he
  subst hs
  exact ⟨target, hd, (List.forall₂_cons.mp hc).1⟩

/-- The table `t` is `s` with its names resolved and the visited handles expanded. -/
structure LinkedOn (s t : TypeTable) (visited : List Handle) : Prop where
  size : t.arena.size = s.arena.size
  names : List.Forall₂ (fun e e' => e'.1 = e.1 ∧ s.Resolves e.2 e'.2) s.names t.names
  kept : ∀ h, h ∉ visited → t.arena[h]? = s.arena[h]?
  expanded : ∀ h ∈ visited, Expanded s t h

theorem lookup_rel {R : Handle → Handle → Prop} {xs ys : List (String × Handle)}
    (hxs : List.Forall₂ (fun e e' => e'.1 = e.1 ∧ R e.2 e'.2) xs ys) (name : String) :
    Option.Rel R (xs.lookup name) (ys.lookup name) := by
  induction hxs with
  | nil => exact .none
  | @cons e e' xs ys he hxs ih =>
    obtain ⟨n, h⟩ := e
    obtain ⟨n', h'⟩ := e'
    obtain ⟨rfl, hR⟩ := he
    rw [List.lookup_cons, List.lookup_cons]
    cases name == n' with
    | true => exact .some hR
    | false => exact ih

namespace LinkedOn

theorem handleOf?_rel (hl : LinkedOn s t visited) (name : String) :
    Option.Rel s.Resolves (s.handleOf? name) (t.handleOf? name) := lookup_rel hl.names name

theorem exists_original (hl : LinkedOn s t visited) {name : String} (hg : t.handleOf? name = some g) :
    ∃ g', s.handleOf? name = some g' ∧ s.Resolves g' g := by
  have hrel := hl.handleOf?_rel name
  cases hs : s.handleOf? name with
  | none => simp [hs, hg] at hrel
  | some g' => exact ⟨g', rfl, by simpa [hs, hg] using hrel⟩

theorem exists_resolved (hl : LinkedOn s t visited) {name : String} (hg : s.handleOf? name = some g) :
    ∃ g', t.handleOf? name = some g' ∧ s.Resolves g g' := by
  have hrel := hl.handleOf?_rel name
  cases ht : t.handleOf? name with
  | none => simp [hg, ht] at hrel
  | some g' => exact ⟨g', rfl, by simpa [hg, ht] using hrel⟩

theorem mem_names (hl : LinkedOn s t visited) {name : String} (he : (name, h) ∈ s.names) (hr : s.Resolves h r) :
    (name, r) ∈ t.names := by
  obtain ⟨⟨name', r'⟩, he', rfl, hr'⟩ := exists_of_forall₂_of_mem hl.names he
  rwa [hr.unique hr']

theorem exists_child (hl : LinkedOn s t visited) (hv : h ∈ visited) {d : Descriptor} {c : Handle}
    (hd : s.arena[h]? = some d) (hc : c ∈ d.children) (hr : s.Resolves c r) :
    ∃ d', t.arena[h]? = some d' ∧ r ∈ d'.children := by
  obtain ⟨d₀, d', hd₀, -, hd', hrs, -⟩ := hl.expanded h hv
  obtain rfl : d = d₀ := Option.some.inj (hd.symm.trans hd₀)
  obtain ⟨r', hmem, hr'⟩ := exists_of_forall₂_of_mem hrs hc
  exact ⟨d', hd', by rwa [hr.unique hr']⟩

theorem kept_or_expanded (hl : LinkedOn s t visited) (h : Handle) :
    t.arena[h]? = s.arena[h]? ∨ Expanded s t h := by
  by_cases hv : h ∈ visited
  · exact .inr (hl.expanded h hv)
  · exact .inl (hl.kept h hv)

theorem settled_iff (hl : LinkedOn s t visited) : t.Settled h ↔ s.Settled h := by
  obtain hk | ⟨d, d', hd, hr, hd', -, he⟩ := hl.kept_or_expanded h
  · rw [Settled, Settled, hk]
  · have hr' : d'.isReference = false := by rw [he, Descriptor.isReference_withChildren, hr]
    exact ⟨fun _ => ⟨d, hd, hr⟩, fun _ => ⟨d', hd', hr'⟩⟩

theorem refers_iff (hl : LinkedOn s t visited) {name : String} : t.Refers h name ↔ s.Refers h name := by
  obtain hk | ⟨d, d', hd, hr, -⟩ := hl.kept_or_expanded h
  · rw [Refers, Refers, hk]
  · have hs : s.Settled h := ⟨d, hd, hr⟩
    exact iff_of_false (hl.settled_iff.mpr hs).not_refers hs.not_refers

/-- A name is already resolved, so a chain of references in `t` has at most one step. -/
theorem resolves_iff (hl : LinkedOn s t visited) : t.Resolves h r ↔ s.Resolves h r := by
  constructor
  · intro hr
    obtain ⟨rfl, hs⟩ | ⟨g, ⟨name, hn, hg⟩, hgr⟩ := hr.cases
    · exact (hl.settled_iff.mp hs).resolves
    · obtain ⟨g', hg', hR⟩ := hl.exists_original hg
      obtain rfl : r = g := (hl.settled_iff.mpr hR.2).eq_of_resolves hgr
      exact .of_follows ⟨name, hl.refers_iff.mp hn, hg'⟩ hR
  · intro hr
    obtain ⟨rfl, hs⟩ | ⟨g, ⟨name, hn, hg⟩, hgr⟩ := hr.cases
    · exact (hl.settled_iff.mpr hs).resolves
    · obtain ⟨g', hg', hR⟩ := hl.exists_resolved hg
      obtain rfl : r = g' := hgr.unique hR
      exact .of_follows ⟨name, hl.refers_iff.mpr hn, hg'⟩ (hl.settled_iff.mpr hR.2).resolves

/-- The target of an expanded typedef is what its target in `s` stands for, and stands for itself in `t`. -/
theorem aliases_iff (hl : LinkedOn s t visited) : t.Aliases h g ↔ s.Aliases h g := by
  obtain hk | he := hl.kept_or_expanded h
  · simp only [Aliases, hk, hl.resolves_iff]
  · constructor
    · intro ha
      obtain ⟨name, r, line, ht, hg⟩ := ha
      obtain ⟨target, hs, hr⟩ := he.of_typedef ht
      obtain rfl : g = r := (hl.settled_iff.mpr hr.2).eq_of_resolves hg
      exact ⟨name, target, line, hs, hr⟩
    · intro ha
      obtain ⟨name, target, line, hs, hg⟩ := ha
      obtain ⟨r, ht, hr⟩ := he.typedef hs
      obtain rfl : g = r := hg.unique hr
      exact ⟨name, g, line, ht, (hl.settled_iff.mpr hg.2).resolves⟩

theorem exists_isTypedef_iff (hl : LinkedOn s t visited) (b : Bool) :
    (∃ d, t.arena[h]? = some d ∧ d.isTypedef = b) ↔ ∃ d, s.arena[h]? = some d ∧ d.isTypedef = b := by
  obtain hk | ⟨d, d', hd, -, hd', -, he⟩ := hl.kept_or_expanded h
  · rw [hk]
  · have hb : d'.isTypedef = d.isTypedef := by rw [he, Descriptor.isTypedef_withChildren]
    simp [hd, hd', hb]

theorem grounded_iff (hl : LinkedOn s t visited) : t.Grounded h ↔ s.Grounded h := by
  have ha : t.Aliases = s.Aliases := funext₂ fun h g => propext hl.aliases_iff
  simp only [Grounded, ha, hl.exists_isTypedef_iff, exists_and_left]

end LinkedOn

theorem replace_arena_self {d d' : Descriptor} (hd : t.arena[h]? = some d) :
    (t.replace h d').arena[h]? = some d' := by
  obtain ⟨hlt, -⟩ := Array.getElem?_eq_some_iff.mp hd
  simp [replace, hlt]

theorem replace_arena_of_ne (d' : Descriptor) (hne : g ≠ h) : (t.replace h d').arena[g]? = t.arena[g]? := by
  simp [replace, hne.symm]

theorem LinkedOn.expand (hl : LinkedOn s t visited) (hv : h ∉ visited) {d : Descriptor} {rs : List Handle}
    (hd : s.arena[h]? = some d) (hr : d.isReference = false) (hrs : List.Forall₂ s.Resolves d.children rs) :
    LinkedOn s (t.replace h (d.withChildren rs)) (h :: visited) where
  size := by simpa [replace] using hl.size
  names := hl.names
  kept := by
    intro g hg
    obtain ⟨hgh, hgv⟩ := not_or.mp (mt List.mem_cons.mpr hg)
    rw [replace_arena_of_ne _ hgh, hl.kept g hgv]
  expanded := by
    intro g hg
    obtain rfl | hg := List.mem_cons.mp hg
    · have hchildren := Descriptor.children_withChildren hrs.length_eq
      have hd' : t.arena[g]? = some d := by rw [hl.kept g hv, hd]
      exact ⟨d, _, hd, hr, replace_arena_self hd', by rwa [hchildren], by rw [hchildren]⟩
    · have hne : g ≠ h := fun he => hv (he ▸ hg)
      obtain ⟨e, e', he, hr, he', hrest⟩ := hl.expanded g hg
      exact ⟨e, e', he, hr, by rw [replace_arena_of_ne _ hne, he'], hrest⟩

/-- What holds each time round the loop: what was visited is expanded, and what is needed beyond that is found from
the queue. -/
structure Progress (s t : TypeTable) (visited queue : List Handle) : Prop extends LinkedOn s t visited where
  nodup : visited.Nodup
  grounded : ∀ h ∈ visited, s.Grounded h
  needed : ∀ h ∈ visited ++ queue, s.Needed h
  heads : ∀ e ∈ t.names, e.2 ∈ visited ++ queue
  children : ∀ h ∈ visited, ∀ d, t.arena[h]? = some d → ∀ c ∈ d.children, c ∈ visited ++ queue

namespace Progress

theorem skip (hp : Progress s t visited (h :: queue)) (hv : h ∈ visited) : Progress s t visited queue := by
  have hmem (c : Handle) : c ∈ visited ++ h :: queue ↔ c ∈ visited ++ queue := by
    by_cases hc : c = h
    · simp [hc, hv]
    · simp [hc]
  exact {
    hp.toLinkedOn with
    nodup := hp.nodup
    grounded := hp.grounded
    needed := fun c hc => hp.needed c ((hmem c).mpr hc)
    heads := fun e he => (hmem _).mp (hp.heads e he)
    children := fun g hg d hd c hc => (hmem c).mp (hp.children g hg d hd c hc) }

/-- What is visited or queued once `h` is expanded: what was so before, and the children of `h`. -/
theorem mem_enqueue {c : Handle} {rs : List Handle} :
    c ∈ (h :: visited) ++ (queue ++ rs.filter fun c => c ∉ h :: visited) ↔
      c ∈ visited ++ h :: queue ∨ c ∈ rs := by
  simp only [List.mem_append, List.mem_cons, List.mem_filter, decide_eq_true_eq]
  tauto

/-- The checks and resolutions are made in `t`, where they come out as they would in `s`. -/
theorem expand (hp : Progress s t visited (h :: queue)) (hv : h ∉ visited) {d d' : Descriptor}
    (hd : t.arena[h]? = some d) (hg : (t.checkAliases [] h).outcome = .ok ())
    (hd' : (t.resolveChildren d).outcome = .ok d') :
    Progress s (t.replace h d') (h :: visited) (queue ++ d'.children.filter fun c => c ∉ h :: visited) := by
  have hR : t.Resolves = s.Resolves := funext₂ fun h r => propext hp.resolves_iff
  obtain ⟨rs, hrs, rfl⟩ := resolveChildren_eq_ok_iff.mp hd'
  rw [hR] at hrs
  rw [Descriptor.children_withChildren hrs.length_eq]
  have hs : s.arena[h]? = some d := by rw [← hp.kept h hv, hd]
  have hneeded : s.Needed h := hp.needed h (by simp)
  -- a needed handle is no reference, so the frame lemma applies to its descriptor
  obtain ⟨e, he, hr⟩ := hneeded.settled
  obtain rfl : d = e := Option.some.inj (hs.symm.trans he)
  exact {
    hp.toLinkedOn.expand hv hs hr hrs with
    nodup := List.nodup_cons.mpr ⟨hv, hp.nodup⟩
    grounded := by
      intro g hg'
      obtain rfl | hg' := List.mem_cons.mp hg'
      · exact hp.grounded_iff.mp (grounded_of_checkAliases hg)
      · exact hp.grounded g hg'
    needed := by
      intro g hg
      obtain hg | hg := mem_enqueue.mp hg
      · exact hp.needed g hg
      · obtain ⟨c, hc, hcg⟩ := exists_of_forall₂_of_mem hrs.flip hg
        exact .child hneeded hs hc (resolve_eq_ok_iff.mpr hcg)
    heads := fun e he => mem_enqueue.mpr (.inl (hp.heads e he))
    children := by
      intro g hg e he c hc
      obtain rfl | hg := List.mem_cons.mp hg
      · rw [replace_arena_self hd] at he
        rw [← Option.some.inj he, Descriptor.children_withChildren hrs.length_eq] at hc
        exact mem_enqueue.mpr (.inr hc)
      · have hne : g ≠ h := fun e => hv (e ▸ hg)
        rw [replace_arena_of_ne _ hne] at he
        exact mem_enqueue.mpr (.inl (hp.children g hg e he c hc)) }

theorem head_mem (hp : Progress s t visited []) {name : String} (he : (name, h) ∈ t.names) : h ∈ visited := by
  simpa using hp.heads (name, h) he

theorem child_mem (hp : Progress s t visited []) (hv : h ∈ visited) {d : Descriptor} {c : Handle}
    (hd : t.arena[h]? = some d) (hc : c ∈ d.children) : c ∈ visited := by
  simpa using hp.children h hv d hd c hc

/-- With nothing left in the queue, what was visited is what is needed. -/
theorem mem_visited_iff (hp : Progress s t visited []) : h ∈ visited ↔ s.Needed h := by
  constructor
  · intro hv
    exact hp.needed h (List.mem_append_left [] hv)
  · intro hn
    -- the closure of the names under children never leaves what was visited
    induction hn with
    | named he hr => exact hp.head_mem (hp.mem_names he (resolve_eq_ok_iff.mp hr))
    | child _ hd hc hr ih =>
      obtain ⟨d', hd', hmem⟩ := hp.exists_child ih hd hc (resolve_eq_ok_iff.mp hr)
      exact hp.child_mem ih hd' hmem

end Progress

/-- The loop carries `Progress` to its end. -/
theorem progress_of_expandFrom (hp : Progress s t visited queue) {t' : TypeTable} {visited' : List Handle}
    (hok : (t.expandFrom visited queue).outcome = .ok (t', visited')) : Progress s t' visited' [] := by
  fun_induction expandFrom t visited queue with
  | case1 t visited =>
    obtain ⟨rfl, rfl⟩ := Prod.mk.inj (Except.ok.inj hok)
    exact hp
  | case2 t visited h queue hv ih => exact ih (hp.skip hv) hok
  | case3 => cases hok
  | case4 t visited h queue hv d hd ih =>
    obtain ⟨_, hg, hok⟩ := Traced.outcome_bind_eq_ok_iff.mp hok
    obtain ⟨d', hd', hok⟩ := Traced.outcome_bind_eq_ok_iff.mp hok
    exact ih d' (hp.expand hv hd hg hd') hok

end TypeTable
end Schema
end TaggedWire
