import TaggedWire.Proofs.Schema.Soundness

/-! When a link fails, and what it then says. It fails only for a name that is not declared or for a cycle of nothing
but typedefs and references, and only where the named types lead to one; the error names a descriptor that was met
there. Other cycles, through the members of a struct or the elements of a container, never stand in the way. -/
namespace TaggedWire
namespace Schema
open Relation

section Cycle
variable {α : Type} {R : α → α → Prop} {a b : α}

/-- What a cycle leads to lies on it, where there is only one way to go. -/
theorem transGen_self_of_reflTransGen (hR : Relator.RightUnique R) (ha : TransGen R a a) (hb : ReflTransGen R a b) :
    TransGen R b b := by
  induction hb with
  | refl => exact ha
  | @tail b c _ hbc ih =>
    obtain ⟨x, hbx, hxb⟩ := TransGen.head'_iff.mp ih
    have hxc : x = c := hR hbx hbc
    rw [hxc] at hxb
    exact TransGen.tail' hxb hbc

theorem not_transGen_self_of_reach (hR : Relator.RightUnique R) (hb : ReflTransGen R a b) (eb : ∀ x, ¬ R b x)
    {c : α} (hc : ReflTransGen R a c) : ¬ TransGen R c c := by
  intro hcc
  have ha : ReflTransGen R c b ∨ ReflTransGen R b c := (ReflTransGen.total_of_right_unique hR hb hc).symm
  obtain hcb | hbc := ha
  · exact not_transGen_self hR hcb eb hcc
  · obtain hbc | ⟨x, hbx, -⟩ := hbc.cases_head
    · rw [← hbc] at hcc
      exact not_transGen_self hR .refl eb hcc
    · exact eb x hbx

end Cycle

namespace TypeTable
variable {s t : TypeTable} {h g r c : Handle} {d : Descriptor} {visited queue : List Handle} {e : LinkError}

/-- From a typedef to its target, and from a reference to the handle that its name is declared on. -/
def Leads (t : TypeTable) (h g : Handle) : Prop := t.Points h g ∨ t.Follows h g

theorem not_points_of_follows {x : Handle} (hf : t.Follows h g) : ¬ t.Points h x := by
  obtain ⟨name, ⟨line, hd⟩, -⟩ := hf
  exact not_points hd rfl x

theorem leads_rightUnique (t : TypeTable) : Relator.RightUnique t.Leads := by
  intro h g g' hg hg'
  obtain hg | hg := hg
  · obtain hg' | hg' := hg'
    · exact t.points_rightUnique hg hg'
    · exact absurd hg (not_points_of_follows hg')
  · obtain hg' | hg' := hg'
    · exact absurd hg' (not_points_of_follows hg)
    · exact t.follows_rightUnique hg hg'

theorem leads_of_follows (hg : ReflTransGen t.Follows h g) : ReflTransGen t.Leads h g :=
  ReflTransGen.mono (fun _ _ => Or.inr) h g hg

theorem transGen_leads_of_aliases (hg : t.Aliases h g) : TransGen t.Leads h g := by
  obtain ⟨name, target, line, hd, hr⟩ := hg
  exact .head' (.inl ⟨name, line, hd⟩) (leads_of_follows hr.1)

/-- What is met on the way from the names, through children and along references. -/
inductive Met (t : TypeTable) : Handle → Prop where
  | named {name : String} {h : Handle} : (name, h) ∈ t.names → t.Met h
  | child {h c : Handle} {d : Descriptor} : t.Met h → t.arena[h]? = some d → c ∈ d.children → t.Met c
  | followed {h g : Handle} : t.Met h → t.Follows h g → t.Met g

theorem Met.of_leads (hm : t.Met h) (hg : ReflTransGen t.Leads h g) : t.Met g := by
  induction hg with
  | refl => exact hm
  | tail _ hl ih =>
    obtain ⟨name, line, hd⟩ | hf := hl
    · exact ih.child hd List.mem_cons_self
    · exact ih.followed hf

theorem Met.of_resolves (hm : t.Met h) (hr : t.Resolves h r) : t.Met r := hm.of_leads (leads_of_follows hr.1)

theorem Needed.met (hn : t.Needed h) : t.Met h := by
  induction hn with
  | named hm hr => exact (Met.named hm).of_resolves (resolve_eq_ok_iff.mp hr)
  | child _ hd hc hr ih => exact (ih.child hd hc).of_resolves (resolve_eq_ok_iff.mp hr)

structure Closed (t : TypeTable) : Prop where
  names : ∀ e ∈ t.names, e.2 < t.arena.size
  children : ∀ d ∈ t.arena, ∀ c ∈ d.children, c < t.arena.size

theorem Settled.lt (hs : t.Settled h) : h < t.arena.size := by
  obtain ⟨d, hd, -⟩ := hs
  exact (Array.getElem?_eq_some_iff.mp hd).1

theorem Closed.lt_of_handleOf? (ht : t.Closed) {name : String} (hg : t.handleOf? name = some g) :
    g < t.arena.size := by
  obtain ⟨l₁, l₂, he, -⟩ := List.lookup_eq_some_iff.mp hg
  exact ht.names (name, g) (by simp [he])

theorem LinkedOn.closed (hl : LinkedOn s t visited) (hs : s.Closed) : t.Closed where
  names := by
    intro e' he'
    obtain ⟨e, -, -, hr⟩ := exists_of_forall₂_of_mem hl.names.flip he'
    rw [hl.size]
    exact hr.2.lt
  children := by
    intro d hd c hc
    obtain ⟨h, hd⟩ := Array.mem_iff_getElem?.mp hd
    rw [hl.size]
    obtain hk | ⟨e, d', -, -, hd', hrs, -⟩ := hl.kept_or_expanded h
    · exact hs.children d (Array.mem_of_getElem? (hk ▸ hd)) c hc
    · obtain rfl : d = d' := Option.some.inj (hd.symm.trans hd')
      obtain ⟨c', -, hr⟩ := exists_of_forall₂_of_mem hrs.flip hc
      exact hr.2.lt

def Mentions (t : TypeTable) (h : Handle) (name : String) (line : Nat) : Prop :=
  t.arena[h]? = some (.reference name line) ∨ ∃ target, t.arena[h]? = some (.typedef name target line)

/-- What an error says of the descriptor that it names: it is a reference to a name that is not declared, or it lies
on a cycle of typedefs and references. No other error says anything true. -/
def Explains (t : TypeTable) (h : Handle) : LinkError → Prop
  | .unknownType name line => t.arena[h]? = some (.reference name line) ∧ t.handleOf? name = none
  | .selfReference name line => t.Mentions h name line ∧ TransGen t.Leads h h
  | .duplicateType _ | .fault _ => False

/-- The names that were used lie on the chain before `h`, as for a resolution that succeeds. -/
theorem explains_of_resolveFrom (ht : t.Closed) {used : List String} (hh : h < t.arena.size)
    (he : (t.resolveFrom used h).outcome = .error e)
    (hu : ∀ name ∈ used, ∃ w, t.Refers w name ∧ TransGen t.Follows w h) : ∃ g, ReflTransGen t.Follows h g ∧ t.Explains g e := by
  fun_induction resolveFrom t used h with
  | case1 used h hd => exact absurd hh (by simpa using hd)
  | case2 used h name line hd hmem =>
    obtain rfl : e = .selfReference name line := (Except.error.inj he).symm
    obtain ⟨w, hw, hwh⟩ := hu name hmem
    -- both references with the name go on to the same handle, from which the chain has come round to `h`
    obtain ⟨g, hwg, hgh⟩ := TransGen.head'_iff.mp hwh
    obtain ⟨name', hw', hl⟩ := hwg
    rw [← hw.unique hw'] at hl
    have hhg : t.Follows h g := ⟨name, ⟨line, hd⟩, hl⟩
    exact ⟨h, .refl, .inl hd, .head' (.inr hhg) (leads_of_follows hgh)⟩
  | case3 used h name line hd hnew hl =>
    obtain rfl : e = .unknownType name line := (Except.error.inj he).symm
    exact ⟨h, .refl, hd, hl⟩
  | case4 used h name line hd hnew target hl ih =>
    have hf : t.Follows h target := ⟨name, ⟨line, hd⟩, hl⟩
    have hu' : ∀ name' ∈ name :: used, ∃ w, t.Refers w name' ∧ TransGen t.Follows w target := by
      intro name' hmem
      obtain rfl | hmem := List.mem_cons.mp hmem
      · exact ⟨h, ⟨line, hd⟩, .single hf⟩
      · obtain ⟨w, hw, hwh⟩ := hu name' hmem
        exact ⟨w, hw, .tail hwh hf⟩
    obtain ⟨g, hg, hexp⟩ := ih (ht.lt_of_handleOf? hl) he hu'
    exact ⟨g, .head hf hg, hexp⟩
  | case5 => cases he

theorem explains_of_resolve (ht : t.Closed) (hh : h < t.arena.size) (he : (t.resolve h).outcome = .error e) :
    ∃ g, ReflTransGen t.Leads h g ∧ t.Explains g e := by
  obtain ⟨g, hg, hexp⟩ := explains_of_resolveFrom ht hh he nofun
  exact ⟨g, leads_of_follows hg, hexp⟩

theorem exists_of_resolveAll_eq_error {hs : List Handle} (he : (t.resolveAll hs).outcome = .error e) :
    ∃ h ∈ hs, (t.resolve h).outcome = .error e := by
  induction hs with
  | nil => cases he
  | cons h hs ih =>
    obtain he | ⟨r, -, he⟩ := Traced.outcome_bind_eq_error_iff.mp he
    · exact ⟨h, List.mem_cons_self, he⟩
    · obtain he | ⟨rs, -, he⟩ := Traced.outcome_bind_eq_error_iff.mp he
      · obtain ⟨g, hg, hge⟩ := ih he
        exact ⟨g, List.mem_cons_of_mem h hg, hge⟩
      · cases he

theorem exists_of_resolveChildren_eq_error (he : (t.resolveChildren d).outcome = .error e) :
    ∃ c ∈ d.children, (t.resolve c).outcome = .error e := by
  have hmap : (mapUntil (fun h => (t.resolve h).outcome) d.children).2 = some e := by
    rw [resolveChildren, Descriptor.rewire] at he
    cases hm : (mapUntil (fun h => (t.resolve h).outcome) d.children).2 with
    | none => simp [hm] at he
    | some e' => simpa [hm] using he
  exact exists_of_mapUntil_eq_some hmap

/-- The typedefs in `visited` lie on the way to `h`, so one that is met again lies on a cycle. -/
theorem explains_of_checkAliases (ht : t.Closed) (hh : h < t.arena.size)
    (he : (t.checkAliases visited h).outcome = .error e) (hv : ∀ v ∈ visited, TransGen t.Leads v h) :
    ∃ g, ReflTransGen t.Leads h g ∧ t.Explains g e := by
  fun_induction checkAliases t visited h with
  | case1 visited h hd => exact absurd hh (by simpa using hd)
  | case2 visited h name target line hd hmem =>
    obtain rfl : e = .selfReference name line := (Except.error.inj he).symm
    exact ⟨h, .refl, .inr ⟨target, hd⟩, hv h hmem⟩
  | case3 visited h name target line hd hnew ih =>
    have hp : t.Leads h target := .inl ⟨name, line, hd⟩
    obtain he | ⟨r, hr, he⟩ := Traced.outcome_bind_eq_error_iff.mp he
    · have htarget : target < t.arena.size := ht.children _ (Array.mem_of_getElem? hd) target List.mem_cons_self
      obtain ⟨g, hg, hexp⟩ := explains_of_resolve ht htarget he
      exact ⟨g, .head hp hg, hexp⟩
    · have hr : t.Resolves target r := resolve_eq_ok_iff.mp hr
      have hhr : TransGen t.Leads h r := .head' hp (leads_of_follows hr.1)
      have hv' : ∀ v ∈ h :: visited, TransGen t.Leads v r := by
        intro v hmem
        obtain rfl | hmem := List.mem_cons.mp hmem
        · exact hhr
        · exact (hv v hmem).trans hhr
      obtain ⟨g, hg, hexp⟩ := ih r hr.2.lt he hv'
      exact ⟨g, hhr.to_reflTransGen.trans hg, hexp⟩
  | case4 => cases he

namespace LinkedOn

theorem reference_iff (hl : LinkedOn s t visited) {name : String} {line : Nat} :
    t.arena[h]? = some (.reference name line) ↔ s.arena[h]? = some (.reference name line) := by
  obtain hk | ⟨d, d', hd, hr, hd', -, he⟩ := hl.kept_or_expanded h
  · rw [hk]
  · have hr' : d'.isReference = false := by rw [he, Descriptor.isReference_withChildren, hr]
    rw [hd, hd']
    constructor
    · intro hsame
      rw [Option.some.inj hsame] at hr'
      cases hr'
    · intro hsame
      rw [Option.some.inj hsame] at hr
      cases hr

theorem mentions (hl : LinkedOn s t visited) {name : String} {line : Nat} (hm : t.Mentions h name line) :
    s.Mentions h name line := by
  obtain hm | ⟨target, hd⟩ := hm
  · exact .inl (hl.reference_iff.mp hm)
  · obtain hk | he := hl.kept_or_expanded h
    · exact .inr ⟨target, by rw [← hk, hd]⟩
    · obtain ⟨target', hs, -⟩ := he.of_typedef hd
      exact .inr ⟨target', hs⟩

theorem handleOf?_eq_none (hl : LinkedOn s t visited) {name : String} (hn : t.handleOf? name = none) :
    s.handleOf? name = none := by
  cases hs : s.handleOf? name with
  | none => rfl
  | some g =>
    obtain ⟨g', hg', -⟩ := hl.exists_resolved hs
    simp [hn] at hg'

/-- A step in `t` is one or more steps in `s`, since chains of references have been made short. -/
theorem leads (hl : LinkedOn s t visited) (hg : t.Leads h g) : TransGen s.Leads h g := by
  obtain ⟨name, line, hd⟩ | ⟨name, hn, hg⟩ := hg
  · obtain hk | he := hl.kept_or_expanded h
    · exact .single (.inl ⟨name, line, by rw [← hk, hd]⟩)
    · obtain ⟨target, hs, hr⟩ := he.of_typedef hd
      exact .head' (.inl ⟨name, line, hs⟩) (leads_of_follows hr.1)
  · obtain ⟨g', hg', hr⟩ := hl.exists_original hg
    exact .head' (.inr ⟨name, hl.refers_iff.mp hn, hg'⟩) (leads_of_follows hr.1)

theorem reflTransGen_leads (hl : LinkedOn s t visited) (hg : ReflTransGen t.Leads h g) :
    ReflTransGen s.Leads h g := by
  induction hg with
  | refl => exact .refl
  | tail _ hstep ih => exact ih.trans (hl.leads hstep).to_reflTransGen

theorem explains (hl : LinkedOn s t visited) (hexp : t.Explains h e) : s.Explains h e := by
  cases e with
  | unknownType name line =>
    obtain ⟨hd, hn⟩ := hexp
    exact ⟨hl.reference_iff.mp hd, hl.handleOf?_eq_none hn⟩
  | selfReference name line =>
    obtain ⟨hm, hc⟩ := hexp
    have hc' : TransGen s.Leads h h := TransGen.closed (fun _ _ => hl.leads) h h hc
    exact ⟨hl.mentions hm, hc'⟩
  | duplicateType name => exact hexp
  | fault f => exact hexp

end LinkedOn

/-- What the error speaks of was met on the way from the names. -/
def Truthful (t : TypeTable) (e : LinkError) : Prop := ∃ h, t.Met h ∧ t.Explains h e

/-- An error found in the partly linked table speaks of the draft. -/
theorem Progress.truthful (hp : Progress s t visited queue) (hm : s.Met h) (hg : ReflTransGen t.Leads h g)
    (hexp : t.Explains g e) : s.Truthful e :=
  ⟨g, hm.of_leads (hp.reflTransGen_leads hg), hp.explains hexp⟩

/-- The loop fails truthfully: in the check of a typedef, or at a child that does not resolve. -/
theorem truthful_of_expandFrom (hs : s.Closed) (hp : Progress s t visited queue)
    (he : (t.expandFrom visited queue).outcome = .error e) : s.Truthful e := by
  fun_induction expandFrom t visited queue with
  | case1 => cases he
  | case2 t visited h queue hv ih => exact ih (hp.skip hv) he
  | case3 t visited h queue hv hd =>
    obtain ⟨d, hd', -⟩ := hp.settled_iff.mpr (hp.needed h (by simp)).settled
    rw [hd] at hd'
    cases hd'
  | case4 t visited h queue hv d hd ih =>
    have ht : t.Closed := hp.closed hs
    have hm : s.Met h := (hp.needed h (by simp)).met
    obtain he | ⟨_, hg, he⟩ := Traced.outcome_bind_eq_error_iff.mp he
    · have hh : h < t.arena.size := (Array.getElem?_eq_some_iff.mp hd).1
      obtain ⟨g, hg, hexp⟩ := explains_of_checkAliases ht hh he (List.forall_mem_nil _)
      exact hp.truthful hm hg hexp
    · obtain he | ⟨d', hd', he⟩ := Traced.outcome_bind_eq_error_iff.mp he
      · obtain ⟨c, hc, he⟩ := exists_of_resolveChildren_eq_error he
        obtain ⟨g, hg, hexp⟩ := explains_of_resolve ht (ht.children d (Array.mem_of_getElem? hd) c hc) he
        have hmc : s.Met c := hm.child (by rw [← hp.kept h hv, hd]) hc
        exact hp.truthful hmc hg hexp
      · exact ih d' (hp.expand hv hd hg hd') he

/-- Nothing stands in the way of a link: the names and the children of what is needed resolve, and no needed typedef
leads to a cycle of typedefs and references. -/
structure Linkable (t : TypeTable) : Prop where
  names : ∀ e ∈ t.names, ∃ r, t.Resolves e.2 r
  children : ∀ h d, t.Needed h → t.arena[h]? = some d → ∀ c ∈ d.children, ∃ r, t.Resolves c r
  typedefs : ∀ h d, t.Needed h → t.arena[h]? = some d → d.isTypedef = true →
    ∀ g, ReflTransGen t.Leads h g → ¬ TransGen t.Leads g g

theorem Linkable.exists_needed (hl : t.Linkable) (hm : t.Met h) : ∃ r, t.Resolves h r ∧ t.Needed r := by
  induction hm with
  | @named name h hn =>
    obtain ⟨r, hr⟩ := hl.names (name, h) hn
    exact ⟨r, hr, .named hn (resolve_eq_ok_iff.mpr hr)⟩
  | @child h c d hm hd hc ih =>
    obtain ⟨r, hr, hn⟩ := ih
    -- a descriptor with children is no reference, so it stands for itself
    have hs : t.Settled h := ⟨d, hd, by cases d <;> first | rfl | cases hc⟩
    rw [hs.eq_of_resolves hr] at hn
    obtain ⟨r', hr'⟩ := hl.children h d hn hd c hc
    exact ⟨r', hr', hn.child hd hc (resolve_eq_ok_iff.mpr hr')⟩
  | @followed h g hm hf ih =>
    obtain ⟨r, hr, hn⟩ := ih
    obtain ⟨-, hs⟩ | ⟨g', hf', hr'⟩ := hr.cases
    · exact absurd hf (hs.not_follows g)
    · rw [t.follows_rightUnique hf' hf] at hr'
      exact ⟨r, hr', hn⟩

theorem Linkable.not_truthful (hl : t.Linkable) : ¬ t.Truthful e := by
  intro ht
  obtain ⟨h, hm, hexp⟩ := ht
  obtain ⟨r, hr, hn⟩ := hl.exists_needed hm
  cases e with
  | unknownType name line =>
    obtain ⟨hd, hnone⟩ := hexp
    obtain ⟨-, hs⟩ | ⟨g, ⟨name', hname', hg⟩, -⟩ := hr.cases
    · exact hs.not_refers ⟨line, hd⟩
    · have hsame : name = name' := Refers.unique ⟨line, hd⟩ hname'
      rw [← hsame, hnone] at hg
      cases hg
  | selfReference name line =>
    -- the cycle goes through what `h` stands for, which can only be a typedef
    have hcycle : TransGen t.Leads r r :=
      transGen_self_of_reflTransGen t.leads_rightUnique hexp.2 (leads_of_follows hr.1)
    obtain ⟨g, hp | hf, -⟩ := TransGen.head'_iff.mp hcycle
    · obtain ⟨name', line', hd⟩ := hp
      exact hl.typedefs r _ hn hd rfl r .refl hcycle
    · exact hr.2.not_follows g hf
  | duplicateType name => exact hexp
  | fault f => exact hexp

theorem Grounded.not_cycle (hg : t.Grounded h) (hs : t.Settled h) (hc : ReflTransGen t.Leads h c) :
    ¬ TransGen t.Leads c c := by
  obtain ⟨g, d, ha, hd, hn⟩ := hg
  have hhg : ReflTransGen t.Leads h g := by
    clear hd
    induction ha with
    | refl => exact .refl
    | tail _ hstep ih => exact ih.trans (transGen_leads_of_aliases hstep).to_reflTransGen
  have hsettled : t.Settled g := by
    obtain heq | ⟨x, -, name, target, line, -, hr⟩ := ha.cases_tail
    · rwa [heq]
    · exact hr.2
  have hend (x : Handle) : ¬ t.Leads g x := by
    intro hx
    obtain hp | hf := hx
    · exact not_points hd hn x hp
    · exact hsettled.not_follows x hf
  exact not_transGen_self_of_reach t.leads_rightUnique hhg hend hc

end TypeTable

namespace Draft
variable {s : Draft} {l : Linked} {e : LinkError}

theorem linkable_of_link (hok : s.link.outcome = .ok l) : s.Linkable := by
  obtain ⟨heads, expanded, hh, -, hp⟩ := exists_progress hok
  have hexpanded {h : Handle} (hn : s.Needed h) : h ∈ expanded := hp.mem_visited_iff.mpr hn
  exact {
    names := by
      intro e he
      have hall := TypeTable.resolveAll_eq_ok_iff.mp hh
      obtain ⟨r, -, hr⟩ := exists_of_forall₂_of_mem hall (List.mem_map_of_mem he)
      exact ⟨r, hr⟩
    children := by
      intro h d hn hd c hc
      obtain ⟨d', e', hd', -, -, hrs, -⟩ := hp.expanded h (hexpanded hn)
      obtain rfl : d = d' := Option.some.inj (hd.symm.trans hd')
      obtain ⟨r, -, hr⟩ := exists_of_forall₂_of_mem hrs hc
      exact ⟨r, hr⟩
    typedefs := by
      intro h d hn _ _ g hg
      exact (hp.grounded h (hexpanded hn)).not_cycle hn.settled hg }

theorem link_eq_error_iff : s.link.outcome = .error e ↔
    (s.resolveAll (s.names.map Prod.snd)).outcome = .error e ∨
      ∃ heads, (s.resolveAll (s.names.map Prod.snd)).outcome = .ok heads ∧
        ((s.rename heads).expandFrom [] heads).outcome = .error e := by
  rw [link]
  simp [Traced.outcome_bind_eq_error_iff, Traced.emit]

theorem truthful_of_link (hs : s.Closed) (he : s.link.outcome = .error e) : s.Truthful e := by
  obtain he | ⟨heads, hh, he⟩ := link_eq_error_iff.mp he
  · obtain ⟨h, hmem, he⟩ := TypeTable.exists_of_resolveAll_eq_error he
    obtain ⟨⟨name, h⟩, hname, rfl⟩ := List.mem_map.mp hmem
    obtain ⟨g, hg, hexp⟩ := TypeTable.explains_of_resolve hs (hs.names (name, h) hname) he
    exact ⟨g, (TypeTable.Met.named hname).of_leads hg, hexp⟩
  · have hstart := TypeTable.progress_rename (TypeTable.resolveAll_eq_ok_iff.mp hh)
    exact TypeTable.truthful_of_expandFrom hs hstart he

/-- A draft whose children are all allocated is linked exactly if nothing stands in the way: cycles through members and
elements do not. If something does, the error names a reference to an undeclared name, or a reference or typedef on a
cycle of nothing else, with its line; it was met on the way from the names. -/
theorem link_verdict (s : Draft) (hc : ∀ d ∈ s.arena, ∀ c ∈ d.children, c < s.arena.size) :
    ((∃ l, s.link.outcome = .ok l) ↔ s.Linkable) ∧
      ∀ e, s.link.outcome = .error e → ∃ h, s.Met h ∧ s.Explains h e := by
  have hs : s.Closed := ⟨s.names_allocated, hc⟩
  refine ⟨⟨fun hok => ?_, fun hl => ?_⟩, fun e he => truthful_of_link hs he⟩
  · obtain ⟨l, hok⟩ := hok
    exact linkable_of_link hok
  · cases hout : s.link.outcome with
    | ok l => exact ⟨l, rfl⟩
    | error e => exact absurd (truthful_of_link hs hout) hl.not_truthful

/-- A struct that holds itself and a list of itself is linked. A typedef of a reference that is a typedef of another
reference and so on round is not, and the error names the typedef that closes the round, not the one before it. -/
theorem link_verdict_recursive :
    let node : Descriptor := .struct .struct "Node" [⟨1, "next", .optional, 1⟩, ⟨2, "all", .required, 2⟩]
    let good : Draft := ⟨⟨#[node, .reference "Node" 1, .list 1], [("Node", 0)]⟩, by decide, by decide⟩
    let named (name : String) (target line : Nat) : Descriptor := .typedef name target line
    let bad : Draft := ⟨⟨#[named "Entry" 1 1, .reference "A" 1, named "A" 3 2, .reference "B" 2, named "B" 5 3,
      .reference "A" 3], [("Entry", 0), ("A", 2), ("B", 4)]⟩, by decide, by decide⟩
    good.Linkable ∧ ¬ bad.Linkable ∧ bad.link.outcome = .error (.selfReference "A" 2) ∧
      ∃ h, bad.Met h ∧ bad.Mentions h "A" 2 ∧ TransGen bad.Leads h h := by
  intro node good named bad
  have hgood := link_verdict good (by decide)
  have hbad := link_verdict bad (by decide)
  have hok : ∃ l, good.link.outcome = .ok l := ⟨⟨⟨#[.struct .struct "Node" [⟨1, "next", .optional, 0⟩,
    ⟨2, "all", .required, 2⟩], .reference "Node" 1, .list 0], [("Node", 0)]⟩⟩, by cbv⟩
  have herror : bad.link.outcome = .error (.selfReference "A" 2) := by cbv
  have hno : ¬ ∃ l, bad.link.outcome = .ok l := by simp [herror]
  exact ⟨hgood.1.mp hok, mt hbad.1.mpr hno, herror, hbad.2 _ herror⟩

end Draft
end Schema
end TaggedWire
