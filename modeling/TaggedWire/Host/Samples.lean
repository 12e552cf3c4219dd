import TaggedWire.Host.Type

/-! A small catalog of records: a flat one, a recursive one, one with a map, and one with a member of every kind. -/
namespace TaggedWire
namespace Samples

def user : List Member :=
  [ { id := 1, name := "id", type := .int64 },
    { id := 2, name := "name", type := .text },
    { id := 3, name := "email", type := .text, optional := true },
    { id := 4, name := "tags", type := .list .text } ]

def tree : List Member :=
  [ { id := 1, name := "value", type := .int32 },
    { id := 2, name := "children", type := .list (.record "Tree") } ]

def person : List Member :=
  [ { id := 1, name := "name", type := .text },
    { id := 2, name := "age", type := .int32 },
    { id := 3, name := "nickname", type := .text, optional := true },
    { id := 4, name := "scores", type := .map .text .int16 } ]

/-- Ids may be negative and need not rise. -/
def everything : List Member :=
  [ { id := 1, name := "flag", type := .bool },
    { id := 2, name := "b", type := .int8 },
    { id := 3, name := "s", type := .int16 },
    { id := 4, name := "n", type := .int32 },
    { id := 5, name := "l", type := .int64 },
    { id := 6, name := "d", type := .double },
    { id := 7, name := "bin", type := .bytes },
    { id := 8, name := "text", type := .text },
    { id := 9, name := "opt", type := .list .int32, optional := true },
    { id := 10, name := "ids", type := .set .int32 },
    { id := -1, name := "attrs", type := .map .text .int64 },
    { id := 12, name := "at", type := .time, optional := true },
    { id := 13, name := "user", type := .record "User", optional := true } ]

def records : List (String × List Member) :=
  [("User", user), ("Tree", tree), ("Person", person), ("Everything", everything)]

/-- An unknown name has no members. -/
def catalog : Catalog := fun name => (records.lookup name).getD []

theorem forall_catalog {P : List Member → Prop} (hnone : P []) (hall : ∀ e ∈ records, P e.2) (name : String) :
    P (catalog name) := by
  rw [catalog]
  cases hms : records.lookup name with
  | none => exact hnone
  | some ms =>
    obtain ⟨before, after, he, -⟩ := List.lookup_eq_some_iff.mp hms
    exact hall (name, ms) (he ▸ List.mem_append_right before List.mem_cons_self)

end Samples
end TaggedWire
