import TaggedWire.Codec.Cursor
import TaggedWire.Codec.Encode
import TaggedWire.Proofs.Bytes

/-! The slices that a cursor reads. Those of the reads that succeed are the bytes that it started from, cut up, with what is
left in the end behind them, and each is the big-endian form of what was read from it. A read that wants more than is left
takes nothing, so the reads after it find what it found. -/
namespace TaggedWire
namespace Cursor

/-- What is read stands in the slice as it is written, and as a number it is the slice in two's complement. -/
def Read.Denotes : (r : Read) → Bytes → r.Result → Prop
  | .bytes _, slice, bs => bs = slice
  | .uint8, slice, b => slice = [b]
  | .int8, slice, n => (Value.byte n).encode = .ok slice ∧ n.toInt = (slice.toNat : Int).bmod (2 ^ 8)
  | .int16, slice, n => (Value.i16 n).encode = .ok slice ∧ n.toInt = (slice.toNat : Int).bmod (2 ^ 16)
  | .int32, slice, n => (Value.i32 n).encode = .ok slice ∧ n.toInt = (slice.toNat : Int).bmod (2 ^ 32)
  | .int64, slice, n => (Value.i64 n).encode = .ok slice ∧ n.toInt = (slice.toNat : Int).bmod (2 ^ 64)
  | .double, slice, bits => (Value.double bits).encode = .ok slice ∧ bits.toNat = slice.toNat

theorem ofNat_of_length {width code : Nat} {slice : Bytes} (hs : slice.length = width) (hc : code = slice.toNat) :
    Bytes.ofNat width code = slice := by
  rw [hc, ← hs, Bytes.ofNat_toNat]

theorem Read.denotes_ofSlice {r : Read} {slice : Bytes} (hs : slice.length = r.width) :
    r.Denotes slice (r.ofSlice slice) := by
  have hlt : slice.toNat < 256 ^ r.width := hs ▸ slice.toNat_lt
  cases r with
  | bytes n => rfl
  | uint8 =>
    rcases List.length_eq_one_iff.mp hs with ⟨b, rfl⟩
    have hb : UInt8.ofNat (256 * 0 + b.toNat) = b := by simp
    exact congrArg (fun b => [b]) hb.symm
  | int8 =>
    have hcode : (UInt8.ofNat slice.toNat).toNat = slice.toNat := UInt8.toNat_ofNat_of_lt' hlt
    exact ⟨congrArg Except.ok (ofNat_of_length hs hcode), BitVec.toInt_ofNat' _⟩
  | int16 =>
    have hcode : (UInt16.ofNat slice.toNat).toNat = slice.toNat := UInt16.toNat_ofNat_of_lt' hlt
    exact ⟨congrArg Except.ok (ofNat_of_length hs hcode), BitVec.toInt_ofNat' _⟩
  | int32 =>
    have hcode : (UInt32.ofNat slice.toNat).toNat = slice.toNat := UInt32.toNat_ofNat_of_lt' hlt
    exact ⟨congrArg Except.ok (ofNat_of_length hs hcode), BitVec.toInt_ofNat' _⟩
  | int64 =>
    have hcode : (UInt64.ofNat slice.toNat).toNat = slice.toNat := UInt64.toNat_ofNat_of_lt' hlt
    exact ⟨congrArg Except.ok (ofNat_of_length hs hcode), BitVec.toInt_ofNat' _⟩
  | double =>
    have hcode : (UInt64.ofNat slice.toNat).toNat = slice.toNat := UInt64.toNat_ofNat_of_lt' hlt
    exact ⟨congrArg Except.ok (ofNat_of_length hs hcode), hcode⟩

/-! ### One read -/

section One
variable {n : Nat} {left : Bytes} {r : Read}

theorem take_of_le (hn : n ≤ left.length) : take n left = .ok (left.take n) (left.drop n) := by
  change (if left.length < n then _ else _ : Cursor Bytes) left = _
  rw [if_neg (Nat.not_lt.mpr hn)]
  rfl

theorem take_of_lt (hn : left.length < n) : take n left = .error (.insufficientData n left.length) left := by
  change (if left.length < n then _ else _ : Cursor Bytes) left = _
  rw [if_pos hn]
  rfl

theorem Read.perform_of_le (hr : r.width ≤ left.length) :
    r.perform left = .ok (r.ofSlice (left.take r.width)) (left.drop r.width) := by
  change EStateM.bind (take r.width) (fun slice => pure (r.ofSlice slice)) left = _
  rw [EStateM.bind, take_of_le hr]
  rfl

theorem Read.perform_of_lt (hr : left.length < r.width) :
    r.perform left = .error (.insufficientData r.width left.length) left := by
  change EStateM.bind (take r.width) (fun slice => pure (r.ofSlice slice)) left = _
  rw [EStateM.bind, take_of_lt hr]

theorem return_nat_eq {α : Type} (width : Nat) (ofNat : Nat → α) :
    (return ofNat (← Reader.nat width) : Reader α) = return ofNat (← Reader.take width).toNat := by
  simp only [Reader.nat, bind_assoc, pure_bind]

theorem Read.reader_eq (r : Read) : r.reader = (return r.ofSlice (← Reader.take r.width)) := by
  cases r with
  | bytes n => exact (bind_pure _).symm
  | uint8 => exact return_nat_eq 1 UInt8.ofNat
  | int8 => exact return_nat_eq 1 fun n => (UInt8.ofNat n).toInt8
  | int16 => exact return_nat_eq 2 fun n => (UInt16.ofNat n).toInt16
  | int32 => exact return_nat_eq 4 fun n => (UInt32.ofNat n).toInt32
  | int64 => exact return_nat_eq 8 fun n => (UInt64.ofNat n).toInt64
  | double => exact return_nat_eq 8 UInt64.ofNat

/-- A reader takes what the cursor takes, and forgets where a failure leaves it. -/
theorem Read.reader_eq_perform (r : Read) (left : Bytes) : r.reader left = match r.perform left with
    | .ok a rest => .ok (a, rest)
    | .error e _ => .error e := by
  rw [reader_eq]
  change (Reader.take r.width left >>= fun p => .ok (r.ofSlice p.1, p.2)) = _
  by_cases hr : r.width ≤ left.length
  · have htake : Reader.take r.width left = .ok (left.take r.width, left.drop r.width) :=
      if_pos (Bytes.holds_iff.mpr hr)
    rw [perform_of_le hr, htake]
    rfl
  · have hlt : left.length < r.width := Nat.lt_of_not_le hr
    rw [perform_of_lt hlt, Reader.take_short hlt]
    rfl

end One

namespace Step

/-- The step is a read of the bytes that were left before it. -/
def Made (s : Step) : Prop := s.result = s.read.perform s.before

variable {s : Step}

theorem succeeded_iff (hs : s.Made) : s.succeeded = true ↔ s.read.width ≤ s.before.length := by
  rw [succeeded, hs]
  by_cases hr : s.read.width ≤ s.before.length
  · rw [Read.perform_of_le hr]
    exact iff_of_true rfl hr
  · rw [Read.perform_of_lt (Nat.lt_of_not_le hr)]
    exact iff_of_false nofun hr

theorem slice_of_le (hs : s.Made) (hr : s.read.width ≤ s.before.length) :
    s.slice = s.before.take s.read.width ∧ s.after = s.before.drop s.read.width := by
  have hafter : s.after = s.before.drop s.read.width := by rw [after, hs, Read.perform_of_le hr]
  have hmoved : s.before.length - s.after.length = s.read.width := by
    rw [hafter, List.length_drop]
    omega
  exact ⟨by rw [slice, hmoved], hafter⟩

/-- Failed or not, what a read moves over is what is then missing. -/
theorem slice_append_after (hs : s.Made) : (if s.succeeded then s.slice else []) ++ s.after = s.before := by
  by_cases hr : s.read.width ≤ s.before.length
  · rcases slice_of_le hs hr with ⟨hslice, hafter⟩
    rw [if_pos ((succeeded_iff hs).mpr hr), hslice, hafter, List.take_append_drop]
  · have hlt : s.before.length < s.read.width := Nat.lt_of_not_le hr
    rw [if_neg (mt (succeeded_iff hs).mp hr), List.nil_append, after, hs, Read.perform_of_lt hlt]

theorem of_result_ok (hs : s.Made) {a : s.read.Result} {left : Bytes} (ha : s.result = .ok a left) :
    s.before = s.slice ++ left ∧ s.slice.length = s.read.width ∧ s.read.Denotes s.slice a := by
  have hr : s.read.width ≤ s.before.length := (succeeded_iff hs).mp (by rw [succeeded, ha])
  rcases slice_of_le hs hr with ⟨hslice, -⟩
  have hresult := ha.symm.trans (hs.trans (Read.perform_of_le hr))
  rcases EStateM.Result.ok.inj hresult with ⟨rfl, rfl⟩
  have hlength : (s.before.take s.read.width).length = s.read.width := List.length_take_of_le hr
  rw [hslice]
  exact ⟨(List.take_append_drop _ _).symm, hlength, Read.denotes_ofSlice hlength⟩

theorem of_result_error (hs : s.Made) {e : DecodeError} {left : Bytes} (he : s.result = .error e left) :
    e = .insufficientData s.read.width s.before.length ∧ left = s.before := by
  have hr : ¬ s.read.width ≤ s.before.length := by
    rw [← succeeded_iff hs, succeeded, he]
    exact Bool.false_ne_true
  exact EStateM.Result.error.inj (he.symm.trans (hs.trans (Read.perform_of_lt (Nat.lt_of_not_le hr))))

end Step

/-! ### One read after the other -/

theorem consumed_cons (step : Step) (steps : List Step) :
    consumed (step :: steps) = (if step.succeeded then step.slice else []) ++ consumed steps := by
  rw [consumed, List.filter_cons]
  by_cases hs : step.succeeded = true
  · rw [if_pos hs, if_pos hs]
    rfl
  · rw [if_neg hs, if_neg hs]
    rfl

theorem session_reads (reads : List Read) (left : Bytes) : (session reads left).1.map Step.read = reads := by
  induction reads generalizing left with
  | nil => rfl
  | cons r reads ih => exact congrArg (List.cons r) (ih _)

/-- What is consumed and what is left are the bytes at the start: by induction on the reads, each cutting its slice off. -/
theorem consumed_session (reads : List Read) (left : Bytes) :
    consumed (session reads left).1 ++ (session reads left).2 = left := by
  induction reads generalizing left with
  | nil => rfl
  | cons r reads ih =>
    have hmade : (Step.make r left).Made := rfl
    change consumed (Step.make r left :: (session reads _).1) ++ (session reads _).2 = left
    rw [consumed_cons, List.append_assoc, ih]
    exact Step.slice_append_after hmade

/-- Each step is made where those before it have led to. -/
theorem made_of_split {reads : List Read} {left : Bytes} {past later : List Step} {step : Step}
    (hsplit : (session reads left).1 = past ++ step :: later) : consumed past ++ step.before = left ∧ step.Made := by
  induction reads generalizing left past with
  | nil => cases past <;> cases hsplit
  | cons r reads ih =>
    cases past with
    | nil =>
      rcases List.cons.inj hsplit with ⟨rfl, -⟩
      exact ⟨rfl, rfl⟩
    | cons first past =>
      rcases List.cons.inj hsplit with ⟨rfl, hrest⟩
      have hmade : (Step.make r left).Made := rfl
      rcases ih hrest with ⟨hbefore, hstep⟩
      rw [consumed_cons, List.append_assoc, hbefore]
      exact ⟨Step.slice_append_after hmade, hstep⟩

/-- Of any reads, one after the other. The slices of those that succeed, put together and with what is left behind them, are
the bytes at the start. A read succeeds exactly if as many bytes are left as it wants; its slice is that many bytes and
the written form of what it gives. Otherwise it says how many it wants and how many there are, and they stay. The readers
that a decoder is put together from read just this. -/
theorem session_exact (reads : List Read) (buffer : Bytes) :
    let steps := (session reads buffer).1
    let rest := (session reads buffer).2
    steps.map Step.read = reads ∧ consumed steps ++ rest = buffer ∧
      (∀ past step later, steps = past ++ step :: later →
        consumed past ++ step.before = buffer ∧
        (step.succeeded = true ↔ step.read.width ≤ step.before.length) ∧
        (∀ a left, step.result = .ok a left →
          step.before = step.slice ++ left ∧ step.slice.length = step.read.width ∧ step.read.Denotes step.slice a) ∧
        ∀ e left, step.result = .error e left →
          e = .insufficientData step.read.width step.before.length ∧ left = step.before) ∧
      ∀ (r : Read) (left : Bytes), r.reader left = match r.perform left with
        | .ok a rest => .ok (a, rest)
        | .error e _ => .error e := by
  intro steps rest
  refine ⟨session_reads reads buffer, consumed_session reads buffer, ?_, Read.reader_eq_perform⟩
  intro past step later hsplit
  rcases made_of_split hsplit with ⟨hbefore, hmade⟩
  exact ⟨hbefore, Step.succeeded_iff hmade, fun _ _ ha => Step.of_result_ok hmade ha,
    fun _ _ he => Step.of_result_error hmade he⟩

/-- Reads that want too much stand between others, and after the last byte; the sign is extended at each width. -/
theorem session_exact_short :
    let buffer : Bytes := [0x01, 0x02, 0xFF, 0xFF, 0xFF, 0xFE, 0x80]
    let steps := (session [.int16, .int64, .int32, .int8, .uint8] buffer).1
    let first : Step := ⟨.int16, buffer, .ok (0x0102 : Int16) (buffer.drop 2)⟩
    let wide : Step := ⟨.int64, buffer.drop 2, .error (.insufficientData 8 5) (buffer.drop 2)⟩
    let four : Step := ⟨.int32, buffer.drop 2, .ok (-2 : Int32) [0x80]⟩
    let last : Step := ⟨.int8, [0x80], .ok (-128 : Int8) []⟩
    steps = [first, wide, four, last, ⟨.uint8, [], .error (.insufficientData 1 0) []⟩] ∧
      consumed steps ++ [] = buffer ∧ consumed [first, wide] ++ four.before = buffer ∧ wide.succeeded = false ∧
      four.before = four.slice ++ [0x80] ∧ four.slice.length = 4 ∧ four.read.Denotes four.slice (-2 : Int32) := by
  intro buffer steps first wide four last
  rcases session_exact [.int16, .int64, .int32, .int8, .uint8] buffer with ⟨-, hall, hstep, -⟩
  rcases hstep [first] wide _ rfl with ⟨-, hwide, -, -⟩
  rcases hstep [first, wide] four _ rfl with ⟨hbefore, -, hfour, -⟩
  have hrefused : ¬ wide.succeeded = true := mt hwide.mp (by decide)
  exact ⟨rfl, hall, hbefore, Bool.eq_false_iff.mpr hrefused, hfour (-2 : Int32) [0x80] rfl⟩

end Cursor
end TaggedWire
