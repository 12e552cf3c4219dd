import TaggedWire.Proofs.Decimal

/-! Where one text ends and the next begins. Words are made of letters, digits, signs and points, so they end where
something else stands; two texts are compared together with whatever may follow them. -/
namespace TaggedWire
namespace Text

def inWord (c : Char) : Bool := c.isAlphanum || c == '-' || c == '.'

def IsWord (s : List Char) : Prop := ∀ c ∈ s, inWord c = true

-- the elements are tried, not all characters
instance (s : List Char) : Decidable (IsWord s) := List.decidableBAll (inWord · = true) s

/-- No word goes on here. -/
def EndsWord (rest : List Char) : Prop := ∀ c ∈ rest.head?, inWord c = false

instance (rest : List Char) : Decidable (EndsWord rest) := rest.head?.decidableForallMem

theorem inWord_of_isNumeric {c : Char} (h : isNumeric c = true) : inWord c = true := by
  simp only [isNumeric, Bool.or_eq_true] at h
  simp only [inWord, Char.isAlphanum, Bool.or_eq_true]
  rcases h with (h | h) | h
  · exact .inl (.inl (.inr h))
  · exact .inl (.inr h)
  · exact .inr h

theorem IsWord.append {s t : List Char} (hs : IsWord s) (ht : IsWord t) : IsWord (s ++ t) :=
  List.forall_mem_append.mpr ⟨hs, ht⟩

theorem EndsWord.cons {c : Char} (h : inWord c = false) (rest : List Char) : EndsWord (c :: rest) := by
  intro d hd
  obtain rfl : c = d := Option.some.inj hd
  exact h

theorem EndsWord.append {s t : List Char} (hs : EndsWord s) (ht : EndsWord t) : EndsWord (s ++ t) := by
  cases s with
  | nil => exact ht
  | cons c s => exact .cons (hs c rfl) _

theorem EndsWord.takeWhile {rest : List Char} (h : EndsWord rest) : rest.takeWhile inWord = [] := by
  cases rest with
  | nil => rfl
  | cons c rest => simp [h c rfl]

/-- If one text can be taken to begin with either of the two, then `P` holds and what follows is the same. The rest of a
word does not count as following. -/
def Determines (P : Prop) (s t : List Char) : Prop :=
  ∀ r r', EndsWord r → EndsWord r' → s ++ r = t ++ r' → P ∧ r = r'

namespace Determines

variable {P Q : Prop} {s t s' t' : List Char}

theorem mono (h : Determines P s t) (hPQ : P → Q) : Determines Q s t := by
  intro r r' hr hr' heq
  obtain ⟨hP, hrest⟩ := h r r' hr hr' heq
  exact ⟨hPQ hP, hrest⟩

theorem same (hP : P) (s : List Char) : Determines P s s :=
  fun _ _ _ _ heq => ⟨hP, List.append_cancel_left heq⟩

theorem word (hs : IsWord s) (ht : IsWord t) : Determines (s = t) s t := by
  intro r r' hr hr' heq
  have hst := congrArg (List.takeWhile inWord) heq
  rw [List.takeWhile_append_of_pos hs, List.takeWhile_append_of_pos ht, hr.takeWhile, hr'.takeWhile, List.append_nil,
    List.append_nil] at hst
  subst hst
  exact ⟨rfl, List.append_cancel_left heq⟩

/-- The same text before both. -/
theorem after (lead : List Char) (h : Determines P s t) : Determines P (lead ++ s) (lead ++ t) := by
  intro r r' hr hr' heq
  rw [List.append_assoc, List.append_assoc] at heq
  exact h r r' hr hr' (List.append_cancel_left heq)

/-- One text after another that ends where it begins. -/
theorem followed (h : Determines P s t) (hs : EndsWord s') (ht : EndsWord t') (h' : P → Determines Q s' t') :
    Determines (P ∧ Q) (s ++ s') (t ++ t') := by
  intro r r' hr hr' heq
  rw [List.append_assoc, List.append_assoc] at heq
  obtain ⟨hP, heq⟩ := h _ _ (hs.append hr) (ht.append hr') heq
  obtain ⟨hQ, hrest⟩ := h' hP r r' hr hr' heq
  exact ⟨⟨hP, hQ⟩, hrest⟩

end Determines

theorem wholeNumber_isWord (n : Int) : IsWord (wholeNumber n) :=
  fun c hc => inWord_of_isNumeric (wholeNumber_numeric n c hc)

theorem wholeNumber_determines (m n : Int) : Determines (m = n) (wholeNumber m) (wholeNumber n) :=
  (Determines.word (wholeNumber_isWord m) (wholeNumber_isWord n)).mono wholeNumber_injective

end Text
end TaggedWire
