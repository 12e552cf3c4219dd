import TaggedWire.Schema.Table

/-! The life of a draft: requests that are made one after another, each with the handle that was given out for it or the
error that it was refused with. A draft holds what its history says and nothing else: the arena what was allocated, at
handles that count up, and the names what was declared, in that order. A refused request leaves no mark. -/
namespace TaggedWire
namespace Schema

inductive Request where
  | alloc (d : Descriptor)
  | declare (name : String) (d : Descriptor)
  | reference (name : String) (line : Nat)
  | primitive (p : Primitive)

def Request.descriptor : Request → Descriptor
  | .alloc d => d
  | .declare _ d => d
  | .reference name line => .reference name line
  | .primitive p => .primitive p

/-- Requests in the order in which they were made, each with its answer. -/
abbrev History := List (Request × Except LinkError Handle)

namespace History
variable {past later : History} {r : Request} {h : Handle} {e : LinkError}

def granted (past : History) : List (Request × Handle) :=
  past.filterMap fun
    | (r, .ok h) => some (r, h)
    | (_, .error _) => none

def declared (past : History) : List (String × Handle) :=
  past.filterMap fun
    | (.declare name _, .ok h) => some (name, h)
    | _ => none

theorem granted_append : granted (past ++ later) = granted past ++ granted later := List.filterMap_append

theorem declared_append : declared (past ++ later) = declared past ++ declared later := List.filterMap_append

theorem mem_declared_iff {name : String} : (name, h) ∈ declared past ↔ ∃ d, (.declare name d, .ok h) ∈ past := by
  simp only [declared, List.mem_filterMap]
  constructor
  · rintro ⟨⟨r, a⟩, hmem, hd⟩
    cases r with
    | declare name' d =>
      cases a with
      | ok h' =>
        cases hd
        exact ⟨d, hmem⟩
      | error e => cases hd
    | _ => cases hd
  · rintro ⟨d, hmem⟩
    exact ⟨_, hmem, rfl⟩

end History

namespace Draft
variable {s s' : Draft} {r : Request} {rs : List Request} {past before after : History} {a : Except LinkError Handle}

def answer (s : Draft) : Request → Except LinkError Handle × Draft
  | .alloc d => (.ok (s.alloc d).1, (s.alloc d).2)
  | .declare name d =>
    match s.declare name d with
    | .ok (h, s') => (.ok h, s')
    | .error e => (.error e, s)
  | .reference name line => (.ok (s.reference name line).1, (s.reference name line).2)
  | .primitive p => (.ok (s.primitive p).1, (s.primitive p).2)

/-- What has come of requests made one after another, and the draft after them. -/
def serve (s : Draft) : List Request → History × Draft
  | [] => ([], s)
  | r :: rs =>
    let next := s.answer r
    let rest := next.2.serve rs
    ((r, next.1) :: rest.1, rest.2)

def Refuses (s : Draft) (r : Request) (name : String) : Prop :=
  (∃ d, r = .declare name d) ∧ name ∈ s.names.map Prod.fst

theorem answer_of_refuses {name : String} (h : s.Refuses r name) : s.answer r = (.error (.duplicateType name), s) := by
  rcases h with ⟨⟨d, rfl⟩, htaken⟩
  rw [answer, declare, dif_pos htaken]

theorem answer_of_not_refuses (h : ∀ name, ¬ s.Refuses r name) :
    (s.answer r).1 = .ok s.arena.size ∧ (s.answer r).2.arena = s.arena.push r.descriptor ∧
      (s.answer r).2.names = s.names ++ History.declared [(r, .ok s.arena.size)] := by
  cases r with
  | declare name d =>
    have hfree : name ∉ s.names.map Prod.fst := fun htaken => h name ⟨⟨d, rfl⟩, htaken⟩
    rw [answer, declare, dif_neg hfree]
    exact ⟨rfl, rfl, rfl⟩
  | alloc d => exact ⟨rfl, rfl, (List.append_nil _).symm⟩
  | reference name line => exact ⟨rfl, rfl, (List.append_nil _).symm⟩
  | primitive p => exact ⟨rfl, rfl, (List.append_nil _).symm⟩

theorem answer_eq_error_iff {e : LinkError} :
    (s.answer r).1 = .error e ↔ ∃ name, s.Refuses r name ∧ e = .duplicateType name := by
  by_cases h : ∃ name, s.Refuses r name
  · rcases h with ⟨name, hname⟩
    rw [answer_of_refuses hname]
    constructor
    · intro he
      cases he
      exact ⟨name, hname, rfl⟩
    · rintro ⟨name', hname', rfl⟩
      rw [← answer_of_refuses hname, answer_of_refuses hname']
  · have hgranted := (answer_of_not_refuses (not_exists.mp h)).1
    rw [hgranted]
    constructor
    · intro he
      cases he
    · rintro ⟨name, hname, -⟩
      exact absurd ⟨name, hname⟩ h

theorem answer_of_error {e : LinkError} (he : (s.answer r).1 = .error e) : (s.answer r).2 = s := by
  rcases answer_eq_error_iff.mp he with ⟨name, hname, -⟩
  rw [answer_of_refuses hname]

/-- The draft holds what its history says. -/
structure Records (s : Draft) (past : History) : Prop where
  arena : s.arena.toList = (History.granted past).map fun e => e.1.descriptor
  handles : (History.granted past).map Prod.snd = List.range s.arena.size
  names : s.names = History.declared past

theorem records_empty : empty.Records [] := ⟨rfl, rfl, rfl⟩

theorem Records.answer (hs : s.Records past) (r : Request) : (s.answer r).2.Records (past ++ [(r, (s.answer r).1)]) := by
  by_cases h : ∃ name, s.Refuses r name
  · rcases h with ⟨name, hname⟩
    rw [answer_of_refuses hname]
    refine ⟨?_, ?_, ?_⟩
    · rw [History.granted_append, hs.arena]
      exact congrArg _ (List.append_nil _).symm
    · rw [History.granted_append, ← hs.handles]
      exact congrArg _ (List.append_nil _)
    · rw [History.declared_append, hs.names]
      cases r <;> exact (List.append_nil _).symm
  · rcases answer_of_not_refuses (not_exists.mp h) with ⟨hok, harena, hnames⟩
    rw [hok]
    refine ⟨?_, ?_, ?_⟩
    · rw [harena, Array.toList_push, hs.arena, History.granted_append, List.map_append]
      rfl
    · rw [harena, Array.size_push, List.range_succ, History.granted_append, List.map_append, hs.handles]
      rfl
    · rw [hnames, hs.names, History.declared_append]

theorem Records.serve (hs : s.Records past) (rs : List Request) : (s.serve rs).2.Records (past ++ (s.serve rs).1) := by
  induction rs generalizing s past with
  | nil =>
    rw [Draft.serve, List.append_nil]
    exact hs
  | cons r rs ih =>
    have hrest := ih (hs.answer r)
    rw [List.append_assoc] at hrest
    exact hrest

theorem Records.arena_eq (hs : s.Records past) {h : Handle} (hr : (r, h) ∈ History.granted past) :
    s.arena[h]? = some r.descriptor := by
  rcases List.mem_iff_getElem?.mp hr with ⟨i, hi⟩
  have hrange : (List.range s.arena.size)[i]? = some h := by rw [← hs.handles, List.getElem?_map, hi, Option.map_some]
  have hih : i = h := by
    rcases List.getElem?_eq_some_iff.mp hrange with ⟨hlt, hget⟩
    simpa using hget
  rw [← Array.getElem?_toList, hs.arena, List.getElem?_map, ← hih, hi, Option.map_some]

theorem Records.mem_names_iff (hs : s.Records past) {name : String} :
    name ∈ s.names.map Prod.fst ↔ ∃ d h, (.declare name d, .ok h) ∈ past := by
  simp only [hs.names, List.mem_map, Prod.exists, exists_and_right, exists_eq_right, History.mem_declared_iff]
  exact exists_comm

theorem handleOf?_eq_some_iff (s : Draft) {name : String} {h : Handle} : s.handleOf? name = some h ↔ (name, h) ∈ s.names := by
  rw [TypeTable.handleOf?, List.lookup_eq_some_iff]
  constructor
  · rintro ⟨before, after, hsplit, -⟩
    rw [hsplit]
    exact List.mem_append_right before List.mem_cons_self
  · intro hmem
    rcases List.append_of_mem hmem with ⟨before, after, hsplit⟩
    refine ⟨before, after, hsplit, fun e he => ?_⟩
    have hnodup := s.names_nodup
    rw [hsplit, List.map_append, List.map_cons] at hnodup
    have hne := (List.nodup_append.mp hnodup).2.2 e.1 (List.mem_map_of_mem he) name List.mem_cons_self
    simpa using hne.symm

theorem serve_append (s : Draft) (rs later : List Request) : s.serve (rs ++ later) =
    ((s.serve rs).1 ++ ((s.serve rs).2.serve later).1, ((s.serve rs).2.serve later).2) := by
  induction rs generalizing s with
  | nil => rfl
  | cons r rs ih =>
    rw [List.cons_append, serve, serve, ih]
    rfl

theorem serve_requests (s : Draft) (rs : List Request) : (s.serve rs).1.map Prod.fst = rs := by
  induction rs generalizing s with
  | nil => rfl
  | cons r rs ih => rw [serve, List.map_cons, ih]

/-- Where a history is cut, what comes before and after is the history of the requests there. -/
theorem serve_split (hpast : (s.serve rs).1 = before ++ (r, a) :: after) :
    (s.serve (before.map Prod.fst)).1 = before ∧ ((s.serve (before.map Prod.fst)).2.answer r).1 = a ∧
      ((s.serve (before.map Prod.fst)).2.answer r).2.serve (after.map Prod.fst) = (after, (s.serve rs).2) := by
  have hrs : rs = before.map Prod.fst ++ r :: after.map Prod.fst := by
    rw [← serve_requests s rs, hpast, List.map_append, List.map_cons]
  have hlength : (s.serve (before.map Prod.fst)).1.length = before.length := by
    rw [← List.length_map Prod.fst, serve_requests, List.length_map]
  rw [hrs, serve_append] at hpast ⊢
  rcases List.append_inj hpast hlength with ⟨hbefore, hrest⟩
  rcases List.cons.inj hrest with ⟨hanswer, hafter⟩
  exact ⟨hbefore, (Prod.mk.inj hanswer).2, Prod.ext hafter rfl⟩

/-- Of any requests to an empty draft: each is answered in turn, and the handles that are given out count up from zero.
What was allocated stays at its handle, whatever is requested later. Only a declaration is ever refused, exactly if the
same name was declared before, and without it all answers and the draft would be the same. The names are those declared,
in that order, each of them once and on the handle that was given out for it. -/
theorem serve_faithful (requests : List Request) :
    let past := (empty.serve requests).1
    let s := (empty.serve requests).2
    past.map Prod.fst = requests ∧ (History.granted past).map Prod.snd = List.range s.arena.size ∧
      (∀ later, ∀ e ∈ History.granted past,
        (empty.serve (requests ++ later)).2.descriptorAt e.2 = .ok e.1.descriptor) ∧
      (∀ before r a after, past = before ++ (r, a) :: after → ∀ e, a = .error e ↔
        ∃ name d, r = .declare name d ∧ e = .duplicateType name ∧ ∃ d' h, (.declare name d', .ok h) ∈ before) ∧
      (∀ before r e after, past = before ++ (r, .error e) :: after →
        empty.serve ((before ++ after).map Prod.fst) = (before ++ after, s)) ∧
      s.names = History.declared past ∧ s.names.length = (History.declared past).length ∧
      (s.names.map Prod.fst).Nodup ∧ (∀ e ∈ s.names, e.2 < s.arena.size) ∧
      ∀ name h, s.handleOf? name = some h ↔ ∃ d, (.declare name d, .ok h) ∈ past := by
  intro past s
  have hs : s.Records past := records_empty.serve requests
  refine ⟨serve_requests empty requests, hs.handles, ?_, ?_, ?_, hs.names, congrArg List.length hs.names, s.names_nodup,
    s.names_allocated, fun name h => ?_⟩
  · intro later e he
    have hlater := hs.serve later
    have hgranted : e ∈ History.granted (past ++ (s.serve later).1) := by
      rw [History.granted_append]
      exact List.mem_append_left _ he
    rw [serve_append, TypeTable.descriptorAt, hlater.arena_eq hgranted]
  · intro before r a after hpast e
    rcases serve_split hpast with ⟨hbefore, ha, -⟩
    have hmid := records_empty.serve (before.map Prod.fst)
    rw [hbefore, List.nil_append] at hmid
    rw [← ha, answer_eq_error_iff]
    constructor
    · rintro ⟨name, ⟨⟨d, rfl⟩, htaken⟩, rfl⟩
      exact ⟨name, d, rfl, rfl, hmid.mem_names_iff.mp htaken⟩
    · rintro ⟨name, d, rfl, rfl, hearlier⟩
      exact ⟨name, ⟨⟨d, rfl⟩, hmid.mem_names_iff.mpr hearlier⟩, rfl⟩
  · intro before r e after hpast
    rcases serve_split hpast with ⟨hbefore, ha, hafter⟩
    rw [answer_of_error ha] at hafter
    rw [List.map_append, serve_append, hafter, hbefore]
  · rw [handleOf?_eq_some_iff, hs.names, History.mem_declared_iff]

/-- A reference to a name that is declared only later, and a name that is declared twice. -/
theorem serve_faithful_repeated :
    let first : List Request := [.declare "Id" (.primitive .i64), .reference "Later" 3]
    let again : Request := .declare "Id" (.primitive .i32)
    let last : List Request := [.primitive .bool, .declare "Later" (.list 0)]
    let history := (empty.serve (first ++ again :: last)).1
    let s := (empty.serve (first ++ again :: last)).2
    history.map Prod.snd = [.ok 0, .ok 1, .error (.duplicateType "Id"), .ok 2, .ok 3] ∧
      (empty.serve (first ++ last)).2 = s ∧ s.names = [("Id", 0), ("Later", 3)] ∧ s.handleOf? "Later" = some 3 ∧
      (empty.serve (first ++ again :: last ++ [.alloc (.set 1)])).2.descriptorAt 1 = .ok (.reference "Later" 3) := by
  intro first again last history s
  rcases serve_faithful (first ++ again :: last) with ⟨-, -, hkept, -, hrefused, hnames, -, -, -, hfound⟩
  have hwithout : empty.serve (first ++ last) = _ := hrefused (history.take 2) again _ (history.drop 3) rfl
  have hgranted : (.reference "Later" 3, 1) ∈ History.granted history := List.mem_cons_of_mem _ List.mem_cons_self
  have hlater : (.declare "Later" (.list 0), .ok 3) ∈ history := List.mem_append_right (history.take 4) List.mem_cons_self
  refine ⟨rfl, ?_, hnames, (hfound "Later" 3).mpr ⟨.list 0, hlater⟩, hkept _ _ hgranted⟩
  rw [hwithout]

end Draft
end Schema
end TaggedWire
