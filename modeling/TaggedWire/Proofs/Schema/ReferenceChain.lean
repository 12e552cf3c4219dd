import TaggedWire.Proofs.Schema.Rejection

/-! The chain of references from a handle, and where a resolution stops on it. The names used so far tell an endless
chain from one that ends: on a chain that ends no name is used twice, and on an endless one some name comes round. So a
resolution ends at a type, at a name that is not declared, or at the first name that is used again, and it follows no
more references than there are names. -/
namespace TaggedWire
namespace Schema
open Relation

namespace TypeTable
variable {t : TypeTable} {h g c d r : Handle} {name : String} {line : Nat} {used names : List String}
  {es fs : List (String × Handle)} {o o' : Except LinkError Handle}

/-- References lead from the first handle to the last. A step is the name that a reference stands for and the handle that
this name is declared on. -/
inductive Trail (t : TypeTable) : Handle → List (String × Handle) → Handle → Prop where
  | here (h : Handle) : t.Trail h [] h
  | step {h g c : Handle} {name : String} {es : List (String × Handle)} : t.Refers h name → t.handleOf? name = some g →
      t.Trail g es c → t.Trail h ((name, g) :: es) c

/-- Why a resolution stops at a handle, where the references before it had the names: it is no reference, or a reference
to a name that is not declared, or the first reference to a name that was there before. -/
def Stops (t : TypeTable) (names : List String) (c : Handle) : Except LinkError Handle → Prop
  | .ok r => r = c ∧ t.Settled c
  | .error (.unknownType name line) => t.arena[c]? = some (.reference name line) ∧ t.handleOf? name = none
  | .error (.selfReference name line) => t.arena[c]? = some (.reference name line) ∧ names.Nodup ∧ name ∈ names
  | .error (.duplicateType _) | .error (.fault _) => False

def Endless (t : TypeTable) (h : Handle) : Prop := ∀ es c, t.Trail h es c → ∃ g, t.Follows c g

namespace Trail

theorem reflTransGen (ht : t.Trail h es c) : ReflTransGen t.Follows h c := by
  induction ht with
  | here h => exact .refl
  | step hr hl _ ih => exact .head ⟨_, hr, hl⟩ ih

theorem of_mem (ht : t.Trail h es c) {e : String × Handle} (he : e ∈ es) :
    t.handleOf? e.1 = some e.2 ∧ ReflTransGen t.Follows e.2 c := by
  induction ht with
  | here h => cases he
  | step hr hl htail ih =>
    rcases List.mem_cons.mp he with rfl | he
    · exact ⟨hl, htail.reflTransGen⟩
    · exact ih he

theorem length_le (ht : t.Trail h es c) (hn : (es.map Prod.fst).Nodup) : es.length ≤ t.names.length := by
  have hdeclared : es.map Prod.fst ⊆ t.names.map Prod.fst := by
    intro name hname
    rcases List.mem_map.mp hname with ⟨e, he, rfl⟩
    rcases List.lookup_eq_some_iff.mp (ht.of_mem he).1 with ⟨before, after, hsplit, -⟩
    rw [hsplit]
    simp
  simpa using (List.subperm_of_subset hn hdeclared).length_le

theorem compare (hc : t.Trail h es c) (hd : t.Trail h fs d) :
    (∃ more, fs = es ++ more ∧ t.Trail c more d) ∨ ∃ more, es = fs ++ more ∧ t.Trail d more c := by
  induction hc generalizing fs with
  | here h => exact Or.inl ⟨fs, rfl, hd⟩
  | @step h g c name es hr hl htail ih =>
    cases hd with
    | here => exact Or.inr ⟨(name, g) :: es, rfl, .step hr hl htail⟩
    | @step _ g' _ name' fs hr' hl' htail' =>
      have hname : name' = name := hr'.unique hr
      subst hname
      have hg : g' = g := Option.some.inj (hl'.symm.trans hl)
      subst hg
      rcases ih htail' with ⟨more, rfl, hmore⟩ | ⟨more, rfl, hmore⟩
      · exact Or.inl ⟨more, rfl, hmore⟩
      · exact Or.inr ⟨more, rfl, hmore⟩

theorem cycle (ht : t.Trail h es c) (hr : t.Refers c name) (hname : name ∈ es.map Prod.fst) : TransGen t.Follows c c := by
  rcases List.mem_map.mp hname with ⟨e, he, rfl⟩
  rcases ht.of_mem he with ⟨hl, hback⟩
  exact .head' ⟨e.1, hr, hl⟩ hback

end Trail

theorem stops_reverse : t.Stops names.reverse c o ↔ t.Stops names c o := by
  cases o with
  | ok r => rfl
  | error e => cases e <;> simp [Stops]

/-- The resolution goes along the trail, logs each step and stops at its end. The names in `used` were used on the way
to the handle, the last of them first. -/
theorem exists_trail_of_resolveFrom (ht : ∀ e ∈ t.names, e.2 < t.arena.size) (hh : h < t.arena.size) (hused : used.Nodup) :
    ∃ es c, t.Trail h es c ∧ (t.resolveFrom used h).log = es.map (fun e => .followed e.1 e.2) ∧
      ((es.map Prod.fst).reverse ++ used).Nodup ∧
      t.Stops ((es.map Prod.fst).reverse ++ used) c (t.resolveFrom used h).outcome := by
  fun_induction resolveFrom t used h with
  | case1 used h hd => exact absurd hh (by simpa using hd)
  | case2 used h name line hd hmem => exact ⟨[], h, .here h, rfl, hused, hd, hused, hmem⟩
  | case3 used h name line hd hnew hl => exact ⟨[], h, .here h, rfl, hused, hd, hl⟩
  | case4 used h name line hd hnew target hl ih =>
    have htarget : target < t.arena.size := by
      rcases List.lookup_eq_some_iff.mp hl with ⟨before, after, hsplit, -⟩
      exact ht (name, target) (by simp [hsplit])
    rcases ih htarget (List.nodup_cons.mpr ⟨hnew, hused⟩) with ⟨es, c, htrail, hlog, hnodup, hstops⟩
    have hnames : (((name, target) :: es).map Prod.fst).reverse ++ used = (es.map Prod.fst).reverse ++ name :: used := by
      simp
    refine ⟨(name, target) :: es, c, .step ⟨line, hd⟩ hl htrail, ?_, ?_, ?_⟩
    · exact congrArg (LinkEvent.followed name target :: ·) hlog
    · rw [hnames]
      exact hnodup
    · rw [hnames]
      exact hstops
  | case5 used h d hnr hd =>
    have hs : t.Settled h := by
      refine ⟨d, hd, ?_⟩
      cases d with
      | reference name line => exact (hnr name line rfl).elim
      | _ => rfl
    exact ⟨[], h, .here h, rfl, hused, rfl, hs⟩

theorem exists_trail_of_resolve (ht : ∀ e ∈ t.names, e.2 < t.arena.size) (hh : h < t.arena.size) :
    ∃ es c, t.Trail h es c ∧ (t.resolve h).log = es.map (fun e => .followed e.1 e.2) ∧ es.length ≤ t.names.length ∧
      t.Stops (es.map Prod.fst) c (t.resolve h).outcome := by
  rcases exists_trail_of_resolveFrom ht hh List.nodup_nil with ⟨es, c, htrail, hlog, hnodup, hstops⟩
  rw [List.append_nil] at hnodup hstops
  exact ⟨es, c, htrail, hlog, htrail.length_le (List.nodup_reverse.mp hnodup), stops_reverse.mp hstops⟩

def answer (t : TypeTable) (names : List String) (c : Handle) : Except LinkError Handle :=
  match t.arena[c]? with
  | some (.reference name line) =>
    if name ∈ names then .error (.selfReference name line) else .error (.unknownType name line)
  | _ => .ok c

namespace Stops

protected theorem cases (hs : t.Stops names c o) :
    (o = .ok c ∧ t.Settled c) ∨
      (∃ name line, o = .error (.unknownType name line) ∧ t.arena[c]? = some (.reference name line) ∧ t.handleOf? name = none) ∨
        ∃ name line, o = .error (.selfReference name line) ∧ t.arena[c]? = some (.reference name line) ∧ names.Nodup ∧
          name ∈ names := by
  cases o with
  | ok r =>
    rcases hs with ⟨rfl, hs⟩
    exact Or.inl ⟨rfl, hs⟩
  | error e =>
    cases e with
    | unknownType name line => exact Or.inr (Or.inl ⟨name, line, rfl, hs⟩)
    | selfReference name line => exact Or.inr (Or.inr ⟨name, line, rfl, hs⟩)
    | duplicateType name => exact hs.elim
    | fault f => exact hs.elim

theorem mem_of_refers (hs : t.Stops names c o) (hr : t.Refers c name) (hl : t.handleOf? name = some g) : name ∈ names := by
  rcases hs.cases with ⟨-, hsettled⟩ | ⟨name', line, -, hd, hnone⟩ | ⟨name', line, -, hd, -, hmem⟩
  · exact absurd hr hsettled.not_refers
  · have hname : name' = name := Refers.unique ⟨line, hd⟩ hr
    rw [← hname, hnone] at hl
    cases hl
  · have hname : name' = name := Refers.unique ⟨line, hd⟩ hr
    rwa [← hname]

theorem end_or_nodup (hs : t.Stops names c o) : (∀ x, ¬ t.Follows c x) ∨ names.Nodup := by
  rcases hs.cases with ⟨-, hsettled⟩ | ⟨name, line, -, hd, hnone⟩ | ⟨name, line, -, -, hnodup, -⟩
  · exact Or.inl hsettled.not_follows
  · left
    rintro x ⟨name', hr, hl⟩
    have hname : name = name' := Refers.unique ⟨line, hd⟩ hr
    rw [← hname, hnone] at hl
    cases hl
  · exact Or.inr hnodup

theorem not_further (ht : t.Trail h es c) (hs : t.Stops (es.map Prod.fst) c o) (hmore : t.Trail c fs d)
    (hs' : t.Stops ((es ++ fs).map Prod.fst) d o') : fs = [] := by
  cases hmore with
  | here => rfl
  | @step _ g _ name fs hr hl htail =>
    exfalso
    have hname : name ∈ es.map Prod.fst := hs.mem_of_refers hr hl
    -- so the further one uses a name twice, or ends on a chain that comes round
    rcases hs'.end_or_nodup with hend | hnodup
    · have hd : ReflTransGen t.Follows c d := .head ⟨name, hr, hl⟩ htail.reflTransGen
      exact not_transGen_self t.follows_rightUnique hd hend (ht.cycle hr hname)
    · rw [List.map_append, List.map_cons] at hnodup
      exact List.disjoint_of_nodup_append hnodup hname List.mem_cons_self

theorem eq_answer (ht : t.Trail h es c) (hs : t.Stops (es.map Prod.fst) c o) : o = t.answer (es.map Prod.fst) c := by
  rcases hs.cases with ⟨rfl, d, hd, hnr⟩ | ⟨name, line, rfl, hd, hnone⟩ | ⟨name, line, rfl, hd, -, hmem⟩
  · rw [answer, hd]
    cases d with
    | reference name line => cases hnr
    | _ => rfl
  · have hnew : name ∉ es.map Prod.fst := by
      intro hmem
      rcases List.mem_map.mp hmem with ⟨e, he, rfl⟩
      rw [(ht.of_mem he).1] at hnone
      cases hnone
    simp only [answer, hd, hnew, if_false]
  · simp only [answer, hd, hmem, if_true]

theorem unique (hc : t.Trail h es c) (hs : t.Stops (es.map Prod.fst) c o) (hd : t.Trail h fs d)
    (hs' : t.Stops (fs.map Prod.fst) d o') : es = fs ∧ c = d ∧ o = o' := by
  have hsame : es = fs ∧ c = d := by
    rcases hc.compare hd with ⟨more, rfl, hmore⟩ | ⟨more, rfl, hmore⟩
    · have hnil : more = [] := hs.not_further hc hmore hs'
      subst hnil
      cases hmore
      exact ⟨(List.append_nil es).symm, rfl⟩
    · have hnil : more = [] := hs'.not_further hd hmore hs
      subst hnil
      cases hmore
      exact ⟨List.append_nil fs, rfl⟩
  rcases hsame with ⟨rfl, rfl⟩
  exact ⟨rfl, rfl, (hs.eq_answer hc).trans (hs'.eq_answer hc).symm⟩

theorem selfReference_iff_endless (ht : t.Trail h es c) (hs : t.Stops (es.map Prod.fst) c o) :
    (∃ name line, o = .error (.selfReference name line)) ↔ t.Endless h := by
  constructor
  · rintro ⟨name, line, rfl⟩ fs d hd
    have hcycle : TransGen t.Follows c c := ht.cycle ⟨line, hs.1⟩ hs.2.2
    by_contra hend
    push Not at hend
    exact not_transGen_self_of_reach t.follows_rightUnique hd.reflTransGen hend ht.reflTransGen hcycle
  · intro hendless
    rcases hendless es c ht with ⟨g, name, hr, hl⟩
    have hname : name ∈ es.map Prod.fst := hs.mem_of_refers hr hl
    rcases hr with ⟨line, hd⟩
    refine ⟨name, line, ?_⟩
    rw [hs.eq_answer ht]
    simp only [answer, hd, hname, if_true]

end Stops

theorem resolve_of_resolve (hr : (t.resolve h).outcome = .ok r) : t.resolve r = .pure r :=
  resolveFrom_of_settled (resolve_eq_ok_iff.mp hr).2 []

end TypeTable

namespace Draft

/-- A resolution from an allocated handle stops at one place of the chain of references and for one reason: at a type,
at the first reference to a name that is not declared, or at the first one whose name was there before; the last if and
only if the chain never ends. What it logs is the chain up to that place, with one entry at most for each name. What it
finds stands for itself. -/
theorem resolve_exact (s : Draft) {h : Handle} (hh : h < s.arena.size) :
    (∀ o, (s.resolve h).outcome = o ↔ ∃ es c, s.Trail h es c ∧ s.Stops (es.map Prod.fst) c o) ∧
      (∀ es c o, s.Trail h es c → s.Stops (es.map Prod.fst) c o →
        (s.resolve h).log = es.map (fun e => .followed e.1 e.2) ∧ es.length ≤ s.names.length) ∧
      ((∃ name line, (s.resolve h).outcome = .error (.selfReference name line)) ↔ s.Endless h) ∧
      ∀ r, (s.resolve h).outcome = .ok r → s.resolve r = .pure r := by
  rcases TypeTable.exists_trail_of_resolve s.names_allocated hh with ⟨es, c, htrail, hlog, hlength, hstops⟩
  refine ⟨fun o => ?_, fun fs d o hd ho => ?_, hstops.selfReference_iff_endless htrail, fun r => TypeTable.resolve_of_resolve⟩
  · constructor
    · intro ho
      rw [← ho]
      exact ⟨es, c, htrail, hstops⟩
    · rintro ⟨fs, d, hd, ho⟩
      exact (hstops.unique htrail hd ho).2.2
  · rcases hstops.unique htrail hd ho with ⟨rfl, -, -⟩
    exact ⟨hlog, hlength⟩

/-- A chain that is entered from outside and comes round by the second reference to a name, one that ends at a type,
and one that ends at a name that is not declared. -/
theorem resolve_exact_rounds :
    let named (name : String) (line : Nat) : Descriptor := .reference name line
    let s : Draft := ⟨⟨#[named "B" 9, named "B" 2, named "A" 3, named "Key" 4, named "Id" 5, .primitive .i64, named "Lost" 6],
      [("A", 1), ("B", 2), ("Key", 4), ("Id", 5)]⟩, by decide, by decide⟩
    (s.resolve 0).outcome = .error (.selfReference "B" 2) ∧ s.Endless 0 ∧
      (s.resolve 3).log = [.followed "Key" 4, .followed "Id" 5] ∧ s.resolve 5 = .pure 5 ∧ ¬ s.Endless 3 ∧
      (s.resolve 6).outcome = .error (.unknownType "Lost" 6) := by
  intro named s
  have hround : (s.resolve 0).outcome = .error (.selfReference "B" 2) := by cbv
  have hfound : (s.resolve 3).outcome = .ok 5 := by cbv
  have hid : s.Trail 3 [("Key", 4), ("Id", 5)] 5 := .step ⟨4, rfl⟩ rfl (.step ⟨5, rfl⟩ rfl (.here 5))
  rcases resolve_exact s (show 0 < s.arena.size by decide) with ⟨-, -, hendless, -⟩
  rcases resolve_exact s (show 3 < s.arena.size by decide) with ⟨-, hlog, hendless', hagain⟩
  rcases resolve_exact s (show 6 < s.arena.size by decide) with ⟨hlost, -⟩
  refine ⟨hround, hendless.mp ⟨"B", 2, hround⟩, (hlog _ 5 (.ok 5) hid ⟨rfl, .primitive .i64, rfl, rfl⟩).1, hagain 5 hfound, ?_, ?_⟩
  · rw [← hendless', hfound]
    rintro ⟨name, line, he⟩
    cases he
  · exact (hlost _).mpr ⟨[], 6, .here 6, rfl, rfl⟩

end Draft
end Schema
end TaggedWire
