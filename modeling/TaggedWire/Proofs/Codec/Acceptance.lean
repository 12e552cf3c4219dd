import TaggedWire.Codec.Reader
import TaggedWire.Proofs.Bytes
import TaggedWire.Proofs.Codec.Spelling

/-! Acceptance: what a reader takes off the front. A reader accepts a relation if it succeeds exactly where some
string of the relation stands at the front, takes just that string, and hands on the rest, whatever that is. -/
namespace TaggedWire
namespace Reader

variable {α β : Type}

theorem bind_eq_ok_iff {x : Reader α} {f : α → Reader β} {bs rest : Bytes} {b : β} :
    (x >>= f) bs = .ok (b, rest) ↔ ∃ a mid, x bs = .ok (a, mid) ∧ f a mid = .ok (b, rest) := by
  change (x bs >>= fun p => f p.1 p.2) = .ok (b, rest) ↔ _
  simp [TaggedWire.bind_eq_ok_iff]

theorem pure_eq_ok_iff {a b : α} {bs rest : Bytes} :
    (pure a : Reader α) bs = .ok (b, rest) ↔ b = a ∧ rest = bs := by
  change Except.ok (a, bs) = .ok (b, rest) ↔ _
  simp [eq_comm]

/-- The strings in `R` stand for the results: the reader succeeds exactly on a string of `R` and any rest. -/
def Accepts (x : Reader α) (R : α → Bytes → Prop) : Prop :=
  ∀ bs a rest, x bs = .ok (a, rest) ↔ ∃ raw, bs = raw ++ rest ∧ R a raw

namespace Accepts
variable {x : Reader α} {R S : α → Bytes → Prop}

theorem congr (h : x.Accepts R) (hRS : ∀ a raw, R a raw ↔ S a raw) : x.Accepts S := by
  intro bs a rest
  simp only [h bs a rest, hRS]

theorem pure (a : α) : (Pure.pure a : Reader α).Accepts fun b raw => b = a ∧ raw = [] := by
  intro bs b rest
  rw [pure_eq_ok_iff]
  constructor
  · rintro ⟨rfl, rfl⟩
    exact ⟨[], rfl, rfl, rfl⟩
  · rintro ⟨raw, rfl, rfl, rfl⟩
    exact ⟨rfl, rfl⟩

theorem throw (e : DecodeError) : (MonadExcept.throw e : Reader α).Accepts fun _ _ => False := by
  intro bs a rest
  change Except.error e = .ok (a, rest) ↔ _
  simp

/-- One reader after the other: the strings are put together. -/
theorem bind {f : α → Reader β} {T : α → β → Bytes → Prop} (hx : x.Accepts R)
    (hf : ∀ a, (f a).Accepts (T a)) :
    (x >>= f).Accepts fun b raw => ∃ a first rest, raw = first ++ rest ∧ R a first ∧ T a b rest := by
  intro bs b rest
  rw [bind_eq_ok_iff]
  constructor
  · rintro ⟨a, mid, ha, hb⟩
    obtain ⟨first, rfl, hr⟩ := (hx bs a mid).mp ha
    obtain ⟨second, rfl, ht⟩ := (hf a mid b rest).mp hb
    exact ⟨first ++ second, by simp, a, first, second, rfl, hr, ht⟩
  · rintro ⟨_, rfl, a, first, second, rfl, hr, ht⟩
    refine ⟨a, second ++ rest, ?_, (hf a _ b rest).mpr ⟨second, rfl, ht⟩⟩
    exact (hx _ a _).mpr ⟨first, by simp, hr⟩

theorem map (hx : x.Accepts R) (f : α → β) :
    (do return f (← x) : Reader β).Accepts fun b raw => ∃ a, b = f a ∧ R a raw := by
  refine (hx.bind fun a => Accepts.pure (f a)).congr ?_
  intro b raw
  constructor
  · rintro ⟨a, first, _, rfl, hr, rfl, rfl⟩
    exact ⟨a, rfl, by simpa using hr⟩
  · rintro ⟨a, rfl, hr⟩
    exact ⟨a, raw, [], by simp, hr, rfl, rfl⟩

/-- A reader run a number of times takes a row of its strings. -/
theorem times (hx : x.Accepts R) (n : Nat) :
    (Reader.times x n).Accepts fun as raw => as.length = n ∧ InRow R as raw := by
  induction n with
  | zero =>
    refine (Accepts.pure []).congr ?_
    intro as raw
    cases as <;> simp [InRow]
  | succ n ih =>
    refine (hx.bind fun a => ih.map (a :: ·)).congr ?_
    intro as raw
    constructor
    · rintro ⟨a, first, rest, rfl, hr, as, rfl, rfl, hrest⟩
      exact ⟨rfl, first, rest, rfl, hr, hrest⟩
    · rintro ⟨hl, h⟩
      cases as with
      | nil => simp at hl
      | cons a as =>
        obtain ⟨first, rest, rfl, hr, hrest⟩ := h
        exact ⟨a, first, rest, rfl, hr, as, rfl, by simpa using hl, hrest⟩

end Accepts

theorem take_accepts (n : Nat) : (take n).Accepts fun bs raw => bs = raw ∧ raw.length = n := by
  intro bs a rest
  by_cases h : n ≤ bs.length
  · have ht : take n bs = .ok (bs.take n, bs.drop n) := if_pos (Bytes.holds_iff.mpr h)
    rw [ht]
    constructor
    · intro he
      obtain ⟨rfl, rfl⟩ := Prod.mk.inj (Except.ok.inj he)
      exact ⟨bs.take n, by simp, rfl, by simp [h]⟩
    · rintro ⟨raw, rfl, rfl, rfl⟩
      simp
  · rw [take_short (by omega)]
    constructor
    · simp
    · rintro ⟨raw, rfl, rfl, rfl⟩
      simp at h

theorem nat_accepts (width : Nat) :
    (nat width).Accepts fun n raw => n < 256 ^ width ∧ raw = Bytes.ofNat width n := by
  refine ((take_accepts width).map Bytes.toNat).congr ?_
  intro n raw
  constructor
  · rintro ⟨bs, rfl, rfl, rfl⟩
    exact ⟨bs.toNat_lt, (Bytes.ofNat_toNat bs).symm⟩
  · rintro ⟨hn, rfl⟩
    exact ⟨_, by rw [Bytes.toNat_ofNat, Nat.mod_eq_of_lt hn], rfl, by simp⟩

/-- A number of fixed width, read from the digits of its code. -/
theorem number_accepts {width : Nat} {ofCode : Nat → α} (code : α → Nat) (hof : ∀ a, ofCode (code a) = a)
    (hcode : ∀ n < 256 ^ width, code (ofCode n) = n) (hlt : ∀ a, code a < 256 ^ width) :
    (do return ofCode (← nat width) : Reader α).Accepts fun a raw => raw = Bytes.ofNat width (code a) := by
  refine ((nat_accepts width).map ofCode).congr ?_
  intro a raw
  constructor
  · rintro ⟨n, rfl, hn, rfl⟩
    rw [hcode n hn]
  · rintro rfl
    exact ⟨code a, (hof a).symm, hlt a, rfl⟩

theorem uint8_accepts : uint8.Accepts fun b raw => raw = [b] := by
  refine (number_accepts UInt8.toNat (by simp) ?_ fun a => a.toNat_lt).congr ?_
  · intro n hn
    exact UInt8.toNat_ofNat_of_lt' hn
  · intro b raw
    simp [Bytes.ofNat]

theorem uint64_accepts : uint64.Accepts fun n raw => raw = Bytes.ofNat 8 n.toNat :=
  number_accepts _ (by simp) (fun _ hn => UInt64.toNat_ofNat_of_lt' hn) fun a => a.toNat_lt

theorem int8_accepts : int8.Accepts fun n raw => raw = Bytes.ofNat 1 n.toUInt8.toNat :=
  number_accepts _ (by simp) (fun _ hn => UInt8.toNat_ofNat_of_lt' hn) fun a => a.toUInt8.toNat_lt

theorem int16_accepts : int16.Accepts fun n raw => raw = Bytes.ofNat 2 n.toUInt16.toNat :=
  number_accepts _ (by simp) (fun _ hn => UInt16.toNat_ofNat_of_lt' hn) fun a => a.toUInt16.toNat_lt

theorem int32_accepts : int32.Accepts fun n raw => raw = Bytes.ofNat 4 n.toUInt32.toNat :=
  number_accepts _ (by simp) (fun _ hn => UInt32.toNat_ofNat_of_lt' hn) fun a => a.toUInt32.toNat_lt

theorem int64_accepts : int64.Accepts fun n raw => raw = Bytes.ofNat 8 n.toUInt64.toNat :=
  number_accepts _ (by simp) (fun _ hn => UInt64.toNat_ofNat_of_lt' hn) fun a => a.toUInt64.toNat_lt

end Reader
end TaggedWire
