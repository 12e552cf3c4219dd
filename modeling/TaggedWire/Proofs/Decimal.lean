import TaggedWire.Decimal.Double

/-! What numbers are written with: digits, a sign and a point. A whole number is read back from its digits, and
the text of a double is a word for what is not finite, or again made of these characters. -/
namespace TaggedWire

def isNumeric (c : Char) : Bool := c.isDigit || c == '-' || c == '.'

theorem digits_numeric (n : Nat) : ∀ c ∈ digits n, isNumeric c = true := by
  intro c hc
  have hd : c.isDigit = true := Nat.isDigit_of_mem_toDigits (by decide) (by decide) hc
  simp [isNumeric, hd]

theorem digits_injective {m n : Nat} (h : digits m = digits n) : m = n := by
  have hread := congrArg (fun ds => Nat.ofDigitChars 10 ds 0) h
  simpa [digits] using hread

theorem digits_ne_minus_cons {n : Nat} {cs : List Char} : digits n ≠ '-' :: cs := by
  intro h
  have hmem : '-' ∈ digits n := by simp [h]
  exact absurd (Nat.isDigit_of_mem_toDigits (by decide) (by decide) hmem) (by decide)

theorem wholeNumber_numeric (n : Int) : ∀ c ∈ wholeNumber n, isNumeric c = true := by
  cases n with
  | ofNat n => exact digits_numeric n
  | negSucc n => exact List.forall_mem_cons.mpr ⟨by decide, digits_numeric (n + 1)⟩

theorem wholeNumber_injective {m n : Int} (h : wholeNumber m = wholeNumber n) : m = n := by
  cases m with
  | ofNat m =>
    cases n with
    | ofNat n => exact congrArg Int.ofNat (digits_injective h)
    | negSucc n => exact absurd h digits_ne_minus_cons
  | negSucc m =>
    cases n with
    | ofNat n => exact absurd h.symm digits_ne_minus_cons
    | negSucc n =>
      have hd : m + 1 = n + 1 := digits_injective (List.cons.inj h).2
      rw [Nat.succ.inj hd]

theorem Decimal.positional_numeric (d : Decimal) : ∀ c ∈ d.positional, isNumeric c = true := by
  have hzeros (n : Nat) : ∀ c ∈ List.replicate n '0', isNumeric c = true := by
    intro c hc
    rw [List.eq_of_mem_replicate hc]
    decide
  have hds := digits_numeric d.mantissa
  simp only [positional]
  split
  · exact List.forall_mem_append.mpr ⟨hds, hzeros _⟩
  · split
    · refine List.forall_mem_append.mpr ⟨fun c hc => hds c (List.mem_of_mem_take hc), ?_⟩
      exact List.forall_mem_cons.mpr ⟨by decide, fun c hc => hds c (List.mem_of_mem_drop hc)⟩
    · refine List.forall_mem_cons.mpr ⟨by decide, List.forall_mem_cons.mpr ⟨by decide, ?_⟩⟩
      exact List.forall_mem_append.mpr ⟨hzeros _, hds⟩

/-- A way of writing doubles where only the infinities and a NaN have letters in their text. -/
def Double.Legible (text : UInt64 → List Char) : Prop :=
  ∀ bits, text bits = ['i', 'n', 'f'] ∨ text bits = ['-', 'i', 'n', 'f'] ∨ text bits = ['N', 'a', 'N'] ∨
    ∀ c ∈ text bits, isNumeric c = true

theorem Double.text_legible : Legible text := by
  intro bits
  have hsign : ∀ c ∈ (if negative bits then ['-'] else []), isNumeric c = true := by
    split <;> simp [isNumeric]
  unfold text
  by_cases hexp : exponentField bits = 2047
  · by_cases hfrac : fraction bits = 0
    · cases hneg : negative bits <;> simp [hexp, hfrac]
    · simp [hexp, hfrac]
  · right; right; right
    by_cases hzero : mantissa bits = 0
    · simp only [hexp, hzero, if_false, if_true]
      exact List.forall_mem_append.mpr ⟨hsign, by simp [isNumeric]⟩
    · simp only [hexp, hzero, if_false]
      exact List.forall_mem_append.mpr ⟨hsign, Decimal.positional_numeric _⟩

end TaggedWire
