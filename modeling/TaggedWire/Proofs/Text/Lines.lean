import Mathlib.Algebra.BigOperators.Group.List.Basic
import Mathlib.Algebra.Order.Ring.Nat
import TaggedWire.Proofs.Bytes
import TaggedWire.Proofs.Text.Plain
import TaggedWire.Proofs.Value.Shape

/-! The lines of a value's text. Only blocks break lines, one line for each entry and one for the closing brace, and
whatever a value carries is written without control characters: the number of lines can be read off the value's shape. -/
namespace TaggedWire
namespace Value

theorem sum_map_flatMap {α : Type} (g : Value → Nat) (f : α → List Value) (xs : List α) :
    ((xs.flatMap f).map g).sum = (xs.map fun x => ((f x).map g).sum).sum := by
  rw [List.map_flatMap, List.flatMap_def, List.sum_flatten, List.map_map]
  rfl

/-- The entries of its block. -/
def entryCount : Value → Nat
  | .struct fs => fs.length
  | .map _ _ xs => xs.length
  | .set _ vs => vs.length
  | .list _ vs => vs.length
  | _ => 0

/-- The line feeds that its block needs besides those within the entries. -/
def ownLineFeeds (v : Value) : Nat := if v.entryCount = 0 then 0 else v.entryCount + 1

end Value

namespace Text

theorem Literal.isControl_eq_false_iff {c : Char} : isControl c = false ↔ 0x20 ≤ c.toNat ∧ c.toNat ≠ 0x7F := by
  simp [isControl]

/-- Text with so many line feeds and no other control characters. -/
structure Lined (feeds : Nat) (s : List Char) : Prop where
  plain : ∀ c ∈ s, c ≠ '\n' → Literal.isControl c = false
  count : s.count '\n' = feeds

theorem Plain.lined {s : List Char} (hs : Plain s) : Lined 0 s :=
  ⟨fun c hc _ => hs c hc, List.count_eq_zero.mpr hs.not_mem_lineFeed⟩

theorem Lined.append {m n : Nat} {s t : List Char} (hs : Lined m s) (ht : Lined n t) : Lined (m + n) (s ++ t) :=
  ⟨List.forall_mem_append.mpr ⟨hs.plain, ht.plain⟩, by rw [List.count_append, hs.count, ht.count]⟩

theorem Plain.append_lined {n : Nat} {s t : List Char} (hs : Plain s) (ht : Lined n t) : Lined n (s ++ t) := by
  have h := hs.lined.append ht
  rwa [Nat.zero_add] at h

theorem Lined.append_plain {n : Nat} {s t : List Char} (hs : Lined n s) (ht : Plain t) : Lined n (s ++ t) :=
  hs.append ht.lined

theorem lineFeed_lined : Lined 1 ['\n'] := ⟨List.forall_mem_singleton.mpr fun h => absurd rfl h, rfl⟩

section Blocks

variable {α : Type} {xs : List α} {text : α → List Char} {feeds : α → Nat}

theorem lines_lined (hxs : ∀ x ∈ xs, Lined (feeds x) (text x)) (n : Nat) :
    Lined (xs.map fun x => feeds x + 1).sum (lines n (xs.map text)) := by
  induction xs with
  | nil => exact Plain.lined (List.forall_mem_nil _)
  | cons x xs ih =>
    rw [List.forall_mem_cons] at hxs
    have hcomma : Plain [','] := by decide
    have hline := ((padding_plain (n + 1)).append_lined hxs.1).append (hcomma.append_lined lineFeed_lined)
    exact hline.append (ih hxs.2)

theorem block_lined (hxs : ∀ x ∈ xs, Lined (feeds x) (text x)) (n : Nat) :
    Lined ((if xs.length = 0 then 0 else xs.length + 1) + (xs.map feeds).sum) (block n (xs.map text)) := by
  cases xs with
  | nil =>
    have hempty : Plain ['{', '}'] := by decide
    exact hempty.lined
  | cons x xs =>
    have hopen : Plain ['{'] := by decide
    have hclose : Plain ['}'] := by decide
    have hlines := (lines_lined hxs n).append_plain (padding_plain n)
    have hblock := (hopen.append_lined lineFeed_lined).append (hlines.append_plain hclose)
    have hcount : 1 + ((x :: xs).map fun x => feeds x + 1).sum =
        (if (x :: xs).length = 0 then 0 else (x :: xs).length + 1) + ((x :: xs).map feeds).sum := by
      rw [if_neg (by simp), List.sum_map_add, List.map_const', List.sum_replicate_nat]
      omega
    rw [← hcount]
    exact hblock

end Blocks

/-- The text of a value has the line feeds of its blocks, and no other control characters: by induction on the value. -/
theorem render_lined (n : Nat) (v : Value) : Lined (v.nodes.map Value.ownLineFeeds).sum (render Double.text n v) := by
  have hsep : Plain [':', ' '] := by decide
  induction v generalizing n with
  | struct fs ih =>
    have hlead : Plain "struct ".toList := by decide
    have hfield : ∀ f ∈ fs, Lined (f.2.nodes.map Value.ownLineFeeds).sum
        (wholeNumber f.1.id.toInt ++ ':' :: ' ' :: render Double.text (n + 1) f.2) := fun f hf =>
      (wholeNumber_isWord f.1.id.toInt).plain.append_lined (hsep.append_lined (ih f hf (n + 1)))
    rw [render_struct, renderFields_eq_map, Value.nodes, Value.nodesFields_eq_flatMap, List.map_cons, List.sum_cons,
      Value.sum_map_flatMap]
    exact hlead.append_lined (block_lined hfield n)
  | map k c xs ih =>
    have hitem : ∀ x ∈ xs, Lined ((x.1.nodes ++ x.2.nodes).map Value.ownLineFeeds).sum
        (render Double.text (n + 1) x.1 ++ ':' :: ' ' :: render Double.text (n + 1) x.2) := by
      intro x hx
      rw [List.map_append, List.sum_append]
      exact ((ih x hx).1 (n + 1)).append (hsep.append_lined ((ih x hx).2 (n + 1)))
    rw [render_map, renderItems_eq_map, Value.nodes, Value.nodesItems_eq_flatMap, List.map_cons, List.sum_cons,
      Value.sum_map_flatMap]
    exact (header_plain (by decide) [k, c]).append_lined (block_lined hitem n)
  | set c vs ih =>
    rw [render_set, renderAll_eq_map, Value.nodes, Value.nodesAll_eq_flatMap, List.map_cons, List.sum_cons,
      Value.sum_map_flatMap]
    exact (header_plain (by decide) [c]).append_lined (block_lined (fun v hv => ih v hv (n + 1)) n)
  | list c vs ih =>
    rw [render_list, renderAll_eq_map, Value.nodes, Value.nodesAll_eq_flatMap, List.map_cons, List.sum_cons,
      Value.sum_map_flatMap]
    exact (header_plain (by decide) [c]).append_lined (block_lined (fun v hv => ih v hv (n + 1)) n)
  | _ => exact (render_plain rfl n).lined

theorem getLast?_append_block (s : List Char) (n : Nat) (entries : List (List Char)) :
    (s ++ block n entries).getLast? = some '}' := by
  cases entries with
  | nil => exact List.getLast?_append_cons s '{' ['}']
  | cons e entries =>
    have hend : s ++ block n (e :: entries) = s ++ '{' :: '\n' :: (lines n (e :: entries) ++ padding n) ++ ['}'] := by
      simp [block]
    rw [hend, List.getLast?_concat]

theorem render_getLast?_ne (n : Nat) (v : Value) : (render Double.text n v).getLast? ≠ some '\n' := by
  cases hn : v.typeCode.nests with
  | false => exact fun h => (render_plain hn n).not_mem_lineFeed (List.mem_of_getLast? h)
  | true =>
    have hbrace : (render Double.text n v).getLast? = some '}' := by
      cases v with
      | struct | map | set | list => exact getLast?_append_block _ n _
      | _ => cases hn
    rw [hbrace]
    decide

/-- Nor are there other control characters among the bytes that the text is written in. -/
theorem Lined.bytes {n : Nat} {s : String} (hs : Lined n s.toList) {b : UInt8} (hb : b ∈ Bytes.ofText s) (hne : b ≠ 0x0A) :
    0x20 ≤ b ∧ b ≠ 0x7F := by
  rw [UInt8.le_iff_toNat_le, ne_eq, ← UInt8.toNat_inj]
  show 32 ≤ b.toNat ∧ b.toNat ≠ 127
  by_cases hlt : b.toNat < 128
  · rw [Bytes.ofText_eq_flatMap, List.mem_flatMap] at hb
    rcases hb with ⟨c, hc, hcode⟩
    have hread := Bytes.toNat_of_mem_utf8EncodeChar hcode hlt
    have hfeed : c ≠ '\n' := by
      rintro rfl
      exact hne (UInt8.toNat_inj.mp hread)
    rw [hread]
    exact Literal.isControl_eq_false_iff.mp (hs.plain c hc hfeed)
  · omega

/-- Whatever a value holds, its text has a line feed for each entry of a block and one more for each block that has
entries, none of them at the end, and no other control character. -/
theorem toText_lines (v : Value) :
    (∀ c ∈ v.toText.toList, c ≠ '\n' → 0x20 ≤ c.toNat ∧ c.toNat ≠ 0x7F) ∧
      v.toText.toList.count '\n' = (v.nodes.map Value.ownLineFeeds).sum ∧
      v.toText.toList.getLast? ≠ some '\n' ∧
      ∀ b ∈ Bytes.ofText v.toText, b ≠ 0x0A → 0x20 ≤ b ∧ b ≠ 0x7F := by
  have hlined : Lined (v.nodes.map Value.ownLineFeeds).sum v.toText.toList := by
    rw [v.toList_toText]
    exact render_lined 0 v
  refine ⟨?_, hlined.count, ?_, fun b hb hne => hlined.bytes hb hne⟩
  · exact fun c hc hne => Literal.isControl_eq_false_iff.mp (hlined.plain c hc hne)
  · rw [v.toList_toText]
    exact render_getLast?_ne 0 v

/-- A key that would clear the screen and begin a line of its own. -/
theorem toText_lines_escaped :
    (Value.map .binary .struct [(.binary (Bytes.ofText "\x1b[2J\n"), .struct [])]).toText.toList.count '\n' = 2 ∧
      (0x1B : UInt8) ∉
        Bytes.ofText (Value.map .binary .struct [(.binary (Bytes.ofText "\x1b[2J\n"), .struct [])]).toText := by
  have h := toText_lines (.map .binary .struct [(.binary (Bytes.ofText "\x1b[2J\n"), .struct [])])
  refine ⟨h.2.1.trans rfl, fun hmem => ?_⟩
  exact absurd (h.2.2.2 0x1B hmem (by decide)).1 (by decide)

end Text
end TaggedWire
