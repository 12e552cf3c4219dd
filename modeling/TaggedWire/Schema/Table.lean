import TaggedWire.Schema.Error

/-! The types of one schema: an arena of descriptors in the order of their allocation, and the names declared for
some of them, in the order of declaration. A draft grows by allocation and declaration until it is linked. -/
namespace TaggedWire
namespace Schema

structure TypeTable where
  arena : Array Descriptor
  names : List (String × Handle)

namespace TypeTable

def descriptorAt (t : TypeTable) (h : Handle) : Except HandleFault Descriptor :=
  match t.arena[h]? with
  | some d => .ok d
  | none => .error (.unallocated h t.arena.size)

def handleOf? (t : TypeTable) (name : String) : Option Handle := t.names.lookup name

end TypeTable

/-- A schema under construction. A name is declared once, with a descriptor of its own; children may be handles
and names of what comes later or never. -/
structure Draft extends TypeTable where
  names_nodup : (names.map Prod.fst).Nodup
  names_allocated : ∀ e ∈ names, e.2 < arena.size

namespace Draft

def empty : Draft := ⟨⟨#[], []⟩, List.nodup_nil, nofun⟩

/-- The next free handle, and the draft with the descriptor there. -/
def alloc (s : Draft) (d : Descriptor) : Handle × Draft :=
  (s.arena.size,
    { arena := s.arena.push d
      names := s.names
      names_nodup := s.names_nodup
      names_allocated := fun e he => by
        simpa using Nat.lt_succ_of_lt (s.names_allocated e he) })

/-- Allocation under a name that is still free. -/
def declare (s : Draft) (name : String) (d : Descriptor) : Except LinkError (Handle × Draft) :=
  if h : name ∈ s.names.map Prod.fst then .error (.duplicateType name)
  else .ok (s.arena.size,
    { arena := s.arena.push d
      names := s.names ++ [(name, s.arena.size)]
      names_nodup := by
        rw [List.map_append]
        exact List.nodup_append.mpr
          ⟨s.names_nodup, by simp, fun a ha b hb e => h (by simp_all)⟩
      names_allocated := fun e he => by
        rcases List.mem_append.mp he with he | he
        · simpa using Nat.lt_succ_of_lt (s.names_allocated e he)
        · simp_all })

def reference (s : Draft) (name : String) (line : Nat) : Handle × Draft := s.alloc (.reference name line)

def primitive (s : Draft) (p : Primitive) : Handle × Draft := s.alloc (.primitive p)

end Draft

/-- A schema after linking. -/
structure Linked extends TypeTable

/-- The descriptor that a name stands for, if it stands for one. -/
def Linked.lookup (s : Linked) (name : String) : Except HandleFault (Option Descriptor) :=
  match s.handleOf? name with
  | some h => (s.descriptorAt h).map some
  | none => .ok none

end Schema
end TaggedWire
