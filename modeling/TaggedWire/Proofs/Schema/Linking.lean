import Mathlib.Data.List.Permutation
import Mathlib.Data.Set.Card
import TaggedWire.Proofs.Schema.Expansion

/-! What a link does. If it succeeds, the handles that the names lead to have been expanded, each of them once, and
nothing else has changed but that the names are on what they stand for. -/
namespace TaggedWire
namespace Schema

namespace TypeTable
variable {s : TypeTable} {heads : List Handle}

theorem forall₂_rename (hh : List.Forall₂ s.Resolves (s.names.map Prod.snd) heads) :
    List.Forall₂ (fun e e' => e'.1 = e.1 ∧ s.Resolves e.2 e'.2) s.names (s.rename heads).names := by
  rw [List.forall₂_map_left_iff] at hh
  simp only [rename]
  generalize s.names = names at hh ⊢
  induction hh with
  | nil => exact .nil
  | cons hr _ ih => exact .cons ⟨rfl, hr⟩ ih

theorem progress_rename (hh : List.Forall₂ s.Resolves (s.names.map Prod.snd) heads) :
    Progress s (s.rename heads) [] heads where
  size := rfl
  names := forall₂_rename hh
  kept := fun _ _ => rfl
  expanded := nofun
  nodup := List.nodup_nil
  grounded := nofun
  needed := by
    intro r hr
    obtain ⟨h, hm, hR⟩ := exists_of_forall₂_of_mem hh.flip hr
    obtain ⟨e, he, rfl⟩ := List.mem_map.mp hm
    exact .named he (resolve_eq_ok_iff.mpr hR)
  heads := by
    intro e he
    rw [rename, ← List.map_uncurry_zip_eq_zipWith] at he
    obtain ⟨p, hp, rfl⟩ := List.mem_map.mp he
    exact (List.of_mem_zip hp).2
  children := nofun

end TypeTable

namespace Draft
variable {s : Draft} {l : Linked}

theorem link_eq_ok_iff : s.link.outcome = .ok l ↔
    ∃ heads expanded, (s.resolveAll (s.names.map Prod.snd)).outcome = .ok heads ∧
      ((s.rename heads).expandFrom [] heads).outcome = .ok (l.toTypeTable, expanded) := by
  rw [link]
  simp only [Traced.outcome_bind_eq_ok_iff, Traced.emit, Traced.outcome_pure]
  constructor
  · intro hok
    obtain ⟨-, -, heads, hh, ⟨t, expanded⟩, he, -, -, hl⟩ := hok
    exact ⟨heads, expanded, hh, by rw [he, ← Except.ok.inj hl]⟩
  · intro hok
    obtain ⟨heads, expanded, hh, he⟩ := hok
    exact ⟨(), trivial, heads, hh, _, he, (), trivial, rfl⟩

theorem link_log {heads expanded : List Handle} {t : TypeTable}
    (hh : (s.resolveAll (s.names.map Prod.snd)).outcome = .ok heads)
    (he : ((s.rename heads).expandFrom [] heads).outcome = .ok (t, expanded)) :
    s.link.log = .linking s.names.length :: ((s.resolveAll (s.names.map Prod.snd)).log ++
      (((s.rename heads).expandFrom [] heads).log ++ [.linked expanded.length])) := by
  rw [link, Traced.bind_ok rfl, Traced.bind_ok hh, Traced.bind_ok he]
  rfl

/-- Of what a link logs only its own last event says how many handles were expanded. -/
theorem linked_mem_link_log_iff {heads expanded : List Handle} {t : TypeTable} {n : Nat}
    (hh : (s.resolveAll (s.names.map Prod.snd)).outcome = .ok heads)
    (he : ((s.rename heads).expandFrom [] heads).outcome = .ok (t, expanded)) :
    .linked n ∈ s.link.log ↔ n = expanded.length := by
  have hother {α : Type} {x : Linking α} (hx : x.Emits LinkEvent.IsFollowed) : .linked n ∉ x.log := by
    intro hn
    obtain ⟨name, target, h⟩ := hx _ hn
    cases h
  rw [link_log hh he]
  simp [hother (s.resolveAll_emits _), hother (TypeTable.expandFrom_emits _ _ _)]

theorem exists_progress (hok : s.link.outcome = .ok l) :
    ∃ heads expanded, (s.resolveAll (s.names.map Prod.snd)).outcome = .ok heads ∧
      ((s.rename heads).expandFrom [] heads).outcome = .ok (l.toTypeTable, expanded) ∧
      TypeTable.Progress s.toTypeTable l.toTypeTable expanded [] := by
  obtain ⟨heads, expanded, hh, he⟩ := link_eq_ok_iff.mp hok
  have hstart := TypeTable.progress_rename (TypeTable.resolveAll_eq_ok_iff.mp hh)
  exact ⟨heads, expanded, hh, he, TypeTable.progress_of_expandFrom hstart he⟩

/-- A link that succeeds gives each needed descriptor the children that its own stand for, changes nothing else of it, and
leaves the others as they were; the names, in their order, are on what they stood for. Each needed descriptor is expanded
once, and the log says how many there are. -/
theorem link_exact (hok : s.link.outcome = .ok l) :
    l.arena.size = s.arena.size ∧
      (∀ h, s.Needed h → ∃ d d', s.arena[h]? = some d ∧ l.arena[h]? = some d' ∧
        List.Forall₂ (fun c r => (s.resolve c).outcome = .ok r) d.children d'.children ∧
        d' = d.withChildren d'.children ∧ d'.cleared = d.cleared) ∧
      (∀ h, ¬ s.Needed h → l.arena[h]? = s.arena[h]?) ∧
      List.Forall₂ (fun e e' => e'.1 = e.1 ∧ (s.resolve e.2).outcome = .ok e'.2) s.names l.names ∧
      ∃ heads expanded, (s.resolveAll (s.names.map Prod.snd)).outcome = .ok heads ∧
        ((s.rename heads).expandFrom [] heads).outcome = .ok (l.toTypeTable, expanded) ∧
        expanded.Nodup ∧ (∀ h, h ∈ expanded ↔ s.Needed h) ∧
        ∀ n, .linked n ∈ s.link.log ↔ n = {h | s.Needed h}.ncard := by
  obtain ⟨heads, expanded, hh, he, hp⟩ := exists_progress hok
  have hmem (h : Handle) : h ∈ expanded ↔ s.Needed h := hp.mem_visited_iff
  have hcard : {h | s.Needed h}.ncard = expanded.length := by
    rw [← List.toFinset_card_of_nodup hp.nodup, ← Set.ncard_coe_finset]
    congr 1
    ext h
    simp [hmem]
  simp only [TypeTable.resolve_eq_ok_iff]
  refine ⟨hp.size, ?_, ?_, hp.names, heads, expanded, hh, he, hp.nodup, hmem, ?_⟩
  · intro h hn
    obtain ⟨d, d', hd, -, hd', hrs, hw⟩ := hp.expanded h ((hmem h).mpr hn)
    have hcleared : d'.cleared = d.cleared := by
      rw [hw]
      exact d.cleared_withChildren d'.children
    exact ⟨d, d', hd, hd', hrs, hw, hcleared⟩
  · intro h hn
    exact hp.kept h (mt (hmem h).mp hn)
  · intro n
    rw [linked_mem_link_log_iff hh he, hcard]

/-- A struct that holds itself and a list of itself, under two names, and a reference that nothing needs. -/
theorem link_exact_recursive :
    let node (next items : Handle) : Descriptor :=
      .struct .struct "Node" [⟨1, "next", .optional, next⟩, ⟨2, "items", .required, items⟩]
    let s : Draft := ⟨⟨#[node 1 2, .reference "Node" 1, .list 1, .reference "Node" 2, .reference "Missing" 3],
      [("Node", 0), ("Again", 3)]⟩, by decide, by decide⟩
    ∃ l : Linked, s.link.outcome = .ok l ∧ l.arena[0]? = some (node 0 2) ∧
      l.arena[4]? = s.arena[4]? ∧ l.names = [("Node", 0), ("Again", 0)] ∧ {h | s.Needed h}.ncard = 2 := by
  intro node s
  let l : Linked := ⟨⟨#[node 0 2, .reference "Node" 1, .list 0, .reference "Node" 2, .reference "Missing" 3],
    [("Node", 0), ("Again", 0)]⟩⟩
  have hok : s.link.outcome = .ok l := by cbv
  have hlog : s.link.log = [.linking 2, .followed "Node" 0, .followed "Node" 0, .followed "Node" 0, .linked 2] := by cbv
  obtain ⟨-, -, -, -, -, -, -, -, -, -, hcount⟩ := link_exact hok
  have htwo := (hcount 2).mp (by simp [hlog])
  exact ⟨l, hok, rfl, rfl, rfl, htwo.symm⟩

end Draft
end Schema
end TaggedWire
