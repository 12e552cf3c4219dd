import TaggedWire.Proofs.Text.Word
import TaggedWire.Text.Literal

/-! The two spellings of binary contents. Every character is read back from its escape, and no escape begins with a
quote, so a literal ends at its closing quote; bytes are read back from their hexadecimal digits. -/
namespace TaggedWire
namespace Bytes

theorem digitChar_inj {m n : Nat} (hm : m < 16) (hn : n < 16) (h : Nat.digitChar m = Nat.digitChar n) : m = n := by
  have hall : ∀ m < 16, ∀ n < 16, Nat.digitChar m = Nat.digitChar n → m = n := by decide
  exact hall m hm n hn h

theorem hexPair_injective {a b : UInt8} (h : hexPair a = hexPair b) : a = b := by
  have ha := a.toNat_lt
  have hb := b.toNat_lt
  obtain ⟨hhigh, hlow⟩ := List.cons.inj h
  have hdiv : a.toNat / 16 = b.toNat / 16 := digitChar_inj (by omega) (by omega) hhigh
  have hmod : a.toNat % 16 = b.toNat % 16 := digitChar_inj (by omega) (by omega) (List.cons.inj hlow).1
  apply UInt8.toNat_inj.mp
  omega

theorem hex_injective {bs cs : Bytes} (h : hex bs = hex cs) : bs = cs := by
  induction bs generalizing cs with
  | nil =>
    cases cs with
    | nil => rfl
    | cons c cs => simp [hex, hexPair] at h
  | cons b bs ih =>
    cases cs with
    | nil => simp [hex, hexPair] at h
    | cons c cs =>
      have hpair : hexPair b ++ hex bs = hexPair c ++ hex cs := h
      obtain ⟨hb, hbs⟩ := List.append_inj hpair rfl
      rw [hexPair_injective hb, ih hbs]

theorem hexPair_isWord (b : UInt8) : Text.IsWord (hexPair b) := by
  have hdigit : ∀ n < 16, Text.inWord (Nat.digitChar n) = true := by decide
  have hb := b.toNat_lt
  simp [Text.IsWord, hexPair, hdigit (b.toNat / 16) (by omega), hdigit (b.toNat % 16) (by omega)]

theorem hex_isWord (bs : Bytes) : Text.IsWord (hex bs) := List.forall_mem_flatMap.mpr fun b _ => hexPair_isWord b

end Bytes

namespace Text.Literal

/-- The control character with those two digits. -/
def ofHexPair (a b : Char) : Char := Char.ofNat (16 * hexValue a + hexValue b)
where
  hexValue (c : Char) : Nat := if c.isDigit then c.toNat - 48 else c.toNat - 87

/-- The first character of a literal's contents and what comes after it; none at the closing quote. -/
def unescape : List Char → Option (Char × List Char)
  | '\\' :: 'x' :: a :: b :: rest => some (ofHexPair a b, rest)
  | '\\' :: c :: rest =>
    some (if c = 'n' then '\n' else if c = 'r' then '\r' else if c = 't' then '\t' else c, rest)
  | c :: rest => if c = '"' then none else some (c, rest)
  | [] => none

theorem ofHexPair_hexPair {c : Char} (h : isControl c = true) :
    Bytes.hexPair (UInt8.ofNat c.toNat) = [Nat.digitChar (c.toNat / 16), Nat.digitChar (c.toNat % 16)] ∧
      ofHexPair (Nat.digitChar (c.toNat / 16)) (Nat.digitChar (c.toNat % 16)) = c := by
  have hlt : c.toNat < 128 := by
    simp only [isControl, Bool.or_eq_true, decide_eq_true_eq, beq_iff_eq] at h
    omega
  have hvalue : ∀ n < 16, ofHexPair.hexValue (Nat.digitChar n) = n := by decide
  refine ⟨?_, ?_⟩
  · rw [Bytes.hexPair, UInt8.toNat_ofNat', Nat.mod_eq_of_lt (by omega)]
  · rw [ofHexPair, hvalue _ (by omega), hvalue _ (by omega), Nat.div_add_mod]
    exact Char.ofNat_toNat c

theorem unescape_escape (c : Char) (rest : List Char) : unescape (escape c ++ rest) = some (c, rest) := by
  by_cases hquote : c = '"'
  · rw [hquote]
    rfl
  by_cases hslash : c = '\\'
  · rw [hslash]
    rfl
  by_cases hline : c = '\n'
  · rw [hline]
    rfl
  by_cases hreturn : c = '\r'
  · rw [hreturn]
    rfl
  by_cases htab : c = '\t'
  · rw [htab]
    rfl
  rw [escape, if_neg hquote, if_neg hslash, if_neg hline, if_neg hreturn, if_neg htab]
  by_cases hcontrol : isControl c = true
  · obtain ⟨hpair, hread⟩ := ofHexPair_hexPair hcontrol
    rw [if_pos hcontrol, hpair]
    show some (ofHexPair _ _, rest) = some (c, rest)
    rw [hread]
  · -- neither a quote nor a backslash, so only the third way of reading applies
    rw [if_neg hcontrol]
    simp [unescape, hquote, hslash]

theorem escape_append_ne (c : Char) (r r' : List Char) : escape c ++ r ≠ '"' :: r' := by
  intro h
  have hread : unescape (escape c ++ r) = none := congrArg unescape h
  rw [unescape_escape] at hread
  cases hread

theorem contents_determine (s t : List Char) :
    Determines (s = t) (s.flatMap escape ++ ['"']) (t.flatMap escape ++ ['"']) := by
  induction s generalizing t with
  | nil =>
    cases t with
    | nil => exact .same rfl _
    | cons d t =>
      intro r r' _ _ heq
      simp only [List.flatMap_cons, List.append_assoc] at heq
      exact absurd heq.symm (escape_append_ne d _ _)
  | cons c s ih =>
    cases t with
    | nil =>
      intro r r' _ _ heq
      simp only [List.flatMap_cons, List.append_assoc] at heq
      exact absurd heq (escape_append_ne c _ _)
    | cons d t =>
      intro r r' hr hr' heq
      have hread := congrArg unescape heq
      simp only [List.flatMap_cons, List.append_assoc, unescape_escape, Option.some.injEq, Prod.mk.injEq] at hread
      obtain ⟨rfl, hrest⟩ := hread
      obtain ⟨rfl, hend⟩ := ih t r r' hr hr' (by simpa using hrest)
      exact ⟨rfl, hend⟩

theorem quoted_determines (s t : List Char) : Determines (s = t) (quoted s) (quoted t) :=
  (contents_determine s t).after ['"']

/-- Contents are read off their spelling, and which of the two it is shows at its first character. -/
theorem ofBytes_determines (bs cs : Bytes) : Determines (bs = cs) (ofBytes bs) (ofBytes cs) := by
  unfold ofBytes
  cases hb : bs.text? with
  | some s =>
    cases hc : cs.text? with
    | some t =>
      refine (quoted_determines s.toList t.toList).mono fun h => ?_
      rw [← Bytes.text?_eq_some_iff.mp hb, ← Bytes.text?_eq_some_iff.mp hc, String.toList_inj.mp h]
    | none =>
      intro r r' _ _ heq
      simp [quoted] at heq
  | none =>
    cases hc : cs.text? with
    | some t =>
      intro r r' _ _ heq
      simp [quoted] at heq
    | none =>
      have hdigits := Determines.word (Bytes.hex_isWord bs) (Bytes.hex_isWord cs)
      exact (hdigits.mono Bytes.hex_injective).after ['0', 'x']

end Text.Literal
end TaggedWire
