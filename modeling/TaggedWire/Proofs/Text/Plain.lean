import TaggedWire.Proofs.Text.Unambiguous

/-! Text without control characters: the numbers and words that scalars are written with, the literals, whose escapes
leave none of them, and the headers of structs and containers. A line feed is one of these characters, so all of this stays
on one line. -/
namespace TaggedWire
namespace Text

def Plain (s : List Char) : Prop := ∀ c ∈ s, Literal.isControl c = false

instance (s : List Char) : Decidable (Plain s) := List.decidableBAll (Literal.isControl · = false) s

theorem Plain.append {s t : List Char} (hs : Plain s) (ht : Plain t) : Plain (s ++ t) :=
  List.forall_mem_append.mpr ⟨hs, ht⟩

theorem Plain.not_mem_lineFeed {s : List Char} (hs : Plain s) : '\n' ∉ s := by
  intro h
  have hcontrol : Literal.isControl '\n' = true := by decide
  rw [hs '\n' h] at hcontrol
  cases hcontrol

theorem padding_plain (n : Nat) : Plain (padding n) := by
  intro c hc
  rw [List.eq_of_mem_replicate hc]
  decide

theorem not_control_of_inWord {c : Char} (h : inWord c = true) : Literal.isControl c = false := by
  by_cases hc : c.toNat < 128
  · have hall : ∀ n < 128, inWord (Char.ofNat n) = true → Literal.isControl (Char.ofNat n) = false := by decide
    have hread := hall c.toNat hc
    rw [Char.ofNat_toNat] at hread
    exact hread h
  · simp only [Literal.isControl, Bool.or_eq_false_iff, decide_eq_false_iff_not, beq_eq_false_iff_ne]
    omega

theorem IsWord.plain {s : List Char} (hs : IsWord s) : Plain s := fun c hc => not_control_of_inWord (hs c hc)

namespace Literal

/-- What would be a control character is spelled with others. -/
theorem escape_plain (c : Char) : Plain (escape c) := by
  have hquote : Plain ['\\', '"'] := by decide
  have hslash : Plain ['\\', '\\'] := by decide
  have hline : Plain ['\\', 'n'] := by decide
  have hreturn : Plain ['\\', 'r'] := by decide
  have htab : Plain ['\\', 't'] := by decide
  have hlead : Plain ['\\', 'x'] := by decide
  unfold escape
  split_ifs with _ _ _ _ _ hcontrol
  · exact hquote
  · exact hslash
  · exact hline
  · exact hreturn
  · exact htab
  · exact hlead.append (Bytes.hexPair_isWord _).plain
  · exact List.forall_mem_singleton.mpr (Bool.eq_false_iff.mpr hcontrol)

theorem ofBytes_plain (bs : Bytes) : Plain (ofBytes bs) := by
  have hquote : Plain ['"'] := by decide
  have hlead : Plain ['0', 'x'] := by decide
  unfold ofBytes
  cases bs.text? with
  | some s => exact hquote.append (Plain.append (List.forall_mem_flatMap.mpr fun c _ => escape_plain c) hquote)
  | none => exact hlead.append (Bytes.hex_isWord bs).plain

end Literal

theorem intercalate_plain {sep : List Char} (hsep : Plain sep) {words : List (List Char)} (hwords : ∀ w ∈ words, Plain w) :
    Plain (sep.intercalate words) := by
  induction words with
  | nil => exact List.forall_mem_nil _
  | cons w words ih =>
    rcases List.forall_mem_cons.mp hwords with ⟨hw, hrest⟩
    cases words with
    | nil => simpa using hw
    | cons w' words =>
      rw [List.intercalate_cons_cons]
      exact (hw.append hsep).append (ih hrest)

theorem header_plain {kind : String} (hkind : Plain kind.toList) (codes : List TypeCode) : Plain (header kind codes) := by
  have hname : ∀ c ∈ TypeCode.all, Plain c.name.toList := by decide
  have hnames : ∀ w ∈ codes.map fun c => c.name.toList, Plain w := by
    rw [List.forall_mem_map]
    exact fun c _ => hname c c.mem_all
  have hsep : Plain [',', ' '] := by decide
  have hopen : Plain ['<'] := by decide
  have hclose : Plain ['>', ' '] := by decide
  exact hkind.append (hopen.append ((intercalate_plain hsep hnames).append hclose))

/-- A value that holds no others is written on one line, wherever it stands. -/
theorem render_plain {v : Value} (hn : v.typeCode.nests = false) (indent : Nat) : Plain (render Double.text indent v) := by
  cases v with
  | struct | map | set | list => cases hn
  | bool b =>
    have hwords : ∀ b : Bool, Plain (if b then "true" else "false").toList := by decide
    exact hwords b
  | binary bs => exact Literal.ofBytes_plain bs
  | double bits => exact ((double_isWord Double.text_legible bits).append (by decide)).plain
  | byte n => exact ((wholeNumber_isWord n.toInt).append (by decide)).plain
  | i16 n => exact ((wholeNumber_isWord n.toInt).append (by decide)).plain
  | i32 n => exact ((wholeNumber_isWord n.toInt).append (by decide)).plain
  | i64 n => exact ((wholeNumber_isWord n.toInt).append (by decide)).plain

end Text
end TaggedWire
