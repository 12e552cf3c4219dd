import TaggedWire.Schema.Reference
import TaggedWire.Schema.Rewire

/-! Linking: every reference that a named type leads to is replaced by what it stands for. The named types are
resolved first, in order; then each descriptor met from them is expanded once, in the order in which they are
met, so shared descriptors stay shared and recursive types become cycles. A typedef that leads back to itself
through typedefs and references alone names no type and is refused. -/
namespace TaggedWire
namespace Schema
namespace TypeTable

/-- How many places of the arena are not yet visited. -/
def unvisited (t : TypeTable) (visited : List Handle) : Nat :=
  (List.range t.arena.size).countP fun h => h ∉ visited

theorem unvisited_lt {t : TypeTable} {visited : List Handle} {h : Handle} {d : Descriptor}
    (hv : h ∉ visited) (hd : t.arena[h]? = some d) :
    t.unvisited (h :: visited) < t.unvisited visited := by
  have hs : h < t.arena.size := (Array.getElem?_eq_some_iff.mp hd).1
  exact countP_lt (by simp) (List.mem_range.mpr hs) (by simpa using hv) (by simp)

/-- Fails where typedefs and references lead from the handle round to a typedef in `visited`, the ones on the way
to it included. -/
def checkAliases (t : TypeTable) (visited : List Handle) (h : Handle) : Linking Unit :=
  match _ : t.arena[h]? with
  | none => .fail (.fault (.unallocated h t.arena.size))
  | some (.typedef name target line) =>
    if _ : h ∈ visited then .fail (.selfReference name line)
    else do t.checkAliases (h :: visited) (← t.resolve target)
  | some _ => .pure ()
termination_by t.unvisited visited
decreasing_by exact unvisited_lt ‹_› ‹_›

/-- The descriptor with its children resolved. -/
def resolveChildren (t : TypeTable) (d : Descriptor) : Linking Descriptor :=
  let r := d.rewire fun h => (t.resolve h).outcome
  { log := r.asked.flatMap fun h => (t.resolve h).log
    outcome := match r.error with
      | some e => .error e
      | none => .ok r.descriptor }

def replace (t : TypeTable) (h : Handle) (d : Descriptor) : TypeTable :=
  { t with arena := t.arena.setIfInBounds h d }

@[simp] theorem unvisited_replace (t : TypeTable) (h : Handle) (d : Descriptor) (visited : List Handle) :
    (t.replace h d).unvisited visited = t.unvisited visited := by
  simp [unvisited, replace]

/-- Expands the handles of the queue and what they lead to: the table after that, and the handles expanded. -/
def expandFrom (t : TypeTable) (visited queue : List Handle) : Linking (TypeTable × List Handle) :=
  match queue with
  | [] => .pure (t, visited)
  | h :: queue =>
    if _ : h ∈ visited then t.expandFrom visited queue
    else match _ : t.arena[h]? with
      | none => .fail (.fault (.unallocated h t.arena.size))
      | some d => do
        t.checkAliases [] h
        let linked ← t.resolveChildren d
        (t.replace h linked).expandFrom (h :: visited)
          (queue ++ linked.children.filter fun c => c ∉ h :: visited)
termination_by (t.unvisited visited, queue.length)
decreasing_by
  · exact Prod.Lex.right _ (Nat.lt_succ_self _)
  · exact Prod.Lex.left _ _ (by simpa using unvisited_lt ‹_› ‹_›)

/-- The declared names on other handles, in the same order. -/
def rename (t : TypeTable) (hs : List Handle) : TypeTable :=
  { t with names := List.zipWith (fun e h => (e.1, h)) t.names hs }

end TypeTable

def Draft.link (s : Draft) : Linking Linked := do
  Traced.emit (.linking s.names.length)
  let heads ← s.resolveAll (s.names.map Prod.snd)
  let (t, expanded) ← (s.toTypeTable.rename heads).expandFrom [] heads
  Traced.emit (.linked expanded.length)
  return ⟨t⟩

end Schema
end TaggedWire
