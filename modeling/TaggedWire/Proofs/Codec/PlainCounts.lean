import TaggedWire.Proofs.Codec.Decoding

/-! Counts taken at their word. The plain decoder reads entry after entry and never asks beforehand whether so many of
them would fit into the bytes that are left. It decodes the same values from the same bytes: no entry is shorter than the
least length of its code, so the entries of a count that is refused for want of bytes would have run out of them. -/
namespace TaggedWire
namespace Reader

/-- A count that is refused only if it is negative. -/
def plainCount : Reader Nat := do
  let n ← int32
  if n < 0 then throw (.negativeLength n)
  return n.toInt.toNat

def plainMap (element : TypeCode → Reader Value) : Reader Value := do
  let key ← typeCode
  let value ← typeCode
  let n ← plainCount
  let items ← times (return (← element key, ← element value)) n
  fit (Value.checkedMap key value items)

def plainSequence (build : TypeCode → List Value → Except Misfit Value)
    (element : TypeCode → Reader Value) : Reader Value := do
  let code ← typeCode
  let n ← plainCount
  let values ← times (element code) n
  fit (build code values)

/-- What holds no values is read as ever, a binary with the check of its length. -/
def plainValue (limit : Nat) : (levels : Nat) → TypeCode → Reader Value
  | levels + 1, .struct => struct fun c => plainValue limit levels c
  | levels + 1, .map => plainMap fun c => plainValue limit levels c
  | levels + 1, .set => plainSequence Value.checkedSet fun c => plainValue limit levels c
  | levels + 1, .list => plainSequence Value.checkedList fun c => plainValue limit levels c
  | levels, c => value limit levels c

variable {α β : Type} {x y : Reader α} {f g : α → Reader β} {m n : Nat}

/-- Both succeed on the same bytes, with the same results and the same rests. Where they fail their errors may differ. -/
def SucceedsAs (x y : Reader α) : Prop := ∀ bs a rest, x bs = .ok (a, rest) ↔ y bs = .ok (a, rest)

theorem SucceedsAs.refl (x : Reader α) : SucceedsAs x x := fun _ _ _ => Iff.rfl

theorem SucceedsAs.bind (hx : SucceedsAs x y) (hf : ∀ a, SucceedsAs (f a) (g a)) : SucceedsAs (x >>= f) (y >>= g) := by
  intro bs b rest
  simp only [bind_eq_ok_iff, hx bs, hf _ _ b rest]

theorem SucceedsAs.times (hx : SucceedsAs x y) (n : Nat) : SucceedsAs (Reader.times x n) (Reader.times y n) := by
  induction n with
  | zero => exact .refl _
  | succ n ih => exact hx.bind fun a => ih.bind fun as => .refl (pure (a :: as))

/-- A success takes at least so many bytes. -/
def Takes (m : Nat) (x : Reader α) : Prop := ∀ bs a rest, x bs = .ok (a, rest) → m + rest.length ≤ bs.length

theorem takes_pure (a : α) : Takes 0 (pure a) := by
  intro bs b rest h
  have hrest : rest = bs := (pure_eq_ok_iff.mp h).2
  rw [hrest]
  omega

theorem takes_fit (r : Except Misfit α) : Takes 0 (fit r) := by
  cases r with
  | ok a => exact takes_pure a
  | error e => exact fun _ _ _ h => nomatch h

theorem Takes.bind (hx : Takes m x) (hf : ∀ a, Takes n (f a)) : Takes (m + n) (x >>= f) := by
  intro bs b rest h
  rcases bind_eq_ok_iff.mp h with ⟨a, mid, ha, hb⟩
  have hfirst : m + mid.length ≤ bs.length := hx bs a mid ha
  have hsecond : n + rest.length ≤ mid.length := hf a mid b rest hb
  omega

theorem Takes.times (hx : Takes m x) (n : Nat) : Takes (n * m) (Reader.times x n) := by
  induction n with
  | zero =>
    rw [Nat.zero_mul]
    exact takes_pure []
  | succ n ih =>
    have hstep : Takes (m + (n * m + 0)) (Reader.times x (n + 1)) := hx.bind fun a => ih.bind fun as => takes_pure (a :: as)
    rwa [Nat.add_zero, Nat.add_comm, ← Nat.succ_mul] at hstep

theorem count_eq (m : Nat) : count m = (do let n ← plainCount; demand (n * m); return n) := by
  rw [count, plainCount, bind_assoc]
  apply bind_congr
  intro n
  by_cases hn : n < 0
  · simp only [if_pos hn]
    rfl
  · simp only [if_neg hn, pure_bind]

/-- The check of a count rejects nothing that its entries would accept, where those take the bytes that it asks for. -/
theorem count_bind_succeedsAs {f g : Nat → Reader β} (hf : ∀ n, Takes (n * m) (f n)) (hfg : ∀ n, SucceedsAs (f n) (g n)) :
    SucceedsAs (count m >>= f) (plainCount >>= g) := by
  rw [count_eq, bind_assoc]
  apply (SucceedsAs.refl plainCount).bind
  intro n bs b rest
  rw [bind_assoc, bind_eq_ok_iff, ← hfg n bs b rest]
  constructor
  · rintro ⟨_, _, hd, hb⟩
    rcases demand_eq_ok_iff.mp hd with ⟨-, rfl⟩
    exact hb
  · intro hb
    have hroom : n * m ≤ bs.length := Nat.le_of_add_right_le (hf n bs b rest hb)
    exact ⟨(), bs, demand_eq_ok_iff.mpr ⟨hroom, rfl⟩, hb⟩

/-- Every success takes at least the least length of the code. -/
theorem value_takes (limit levels : Nat) (c : TypeCode) : Takes c.minLength (value limit levels c) := by
  intro bs v rest h
  rcases (value_accepts limit levels c bs v rest).mp h with ⟨raw, rfl, hw, hs⟩
  have hraw : v.typeCode.minLength ≤ raw.length := hs.minLength_le
  rw [hw.1] at hraw
  rw [List.length_append]
  exact Nat.add_le_add_right hraw rest.length

section Elements
variable {element element' : TypeCode → Reader Value} (he : ∀ c, SucceedsAs (element c) (element' c))
include he

theorem item_succeedsAs (k c : TypeCode) :
    SucceedsAs (do return (← element k, ← element c)) (do return (← element' k, ← element' c)) :=
  (he k).bind fun a => (he c).bind fun b => .refl (pure (a, b))

theorem fields_succeedsAs (bound : Bytes) : SucceedsAs (fields element bound) (fields element' bound) := by
  have hfield (tag : UInt8) : SucceedsAs (field element tag) (field element' tag) :=
    (SucceedsAs.refl (codeOf tag)).bind fun c => (SucceedsAs.refl int16).bind fun id =>
      (he c).bind fun v => .refl (fit (Value.checkedField ⟨id, c⟩ v))
  induction bound with
  | nil => exact .refl _
  | cons b bound ih =>
    rw [fields_cons, fields_cons]
    apply (SucceedsAs.refl uint8).bind
    intro tag
    by_cases hstop : tag = TypeCode.stop
    · simp only [if_pos hstop]
      exact .refl _
    · simp only [if_neg hstop]
      exact (hfield tag).bind fun fd => ih.bind fun fs => .refl (pure (fd :: fs))

theorem struct_succeedsAs : SucceedsAs (struct element) (struct element') := by
  intro bs
  have hrun : SucceedsAs (do return Value.struct (← fields element bs)) (do return Value.struct (← fields element' bs)) :=
    (fields_succeedsAs he bs).bind fun fs => .refl (pure (Value.struct fs))
  exact hrun bs

variable (hm : ∀ c, Takes c.minLength (element c))
include hm

theorem map_succeedsAs : SucceedsAs (map element) (plainMap element') := by
  have hitem (k c : TypeCode) : Takes (k.minLength + c.minLength) (do return (← element k, ← element c)) :=
    (hm k).bind fun a => (hm c).bind fun b => takes_pure (a, b)
  refine (SucceedsAs.refl typeCode).bind fun k => (SucceedsAs.refl typeCode).bind fun c => ?_
  apply count_bind_succeedsAs
  · exact fun n => ((hitem k c).times n).bind fun xs => takes_fit (Value.checkedMap k c xs)
  · exact fun n => ((item_succeedsAs he k c).times n).bind fun xs => .refl (fit (Value.checkedMap k c xs))

theorem sequence_succeedsAs (build : TypeCode → List Value → Except Misfit Value) :
    SucceedsAs (sequence build element) (plainSequence build element') := by
  apply (SucceedsAs.refl typeCode).bind
  intro c
  apply count_bind_succeedsAs
  · exact fun n => ((hm c).times n).bind fun vs => takes_fit (build c vs)
  · exact fun n => ((he c).times n).bind fun vs => .refl (fit (build c vs))

end Elements

/-- By induction on the levels, each kind of container from its parts. -/
theorem value_succeedsAs_plainValue (limit levels : Nat) (c : TypeCode) :
    SucceedsAs (value limit levels c) (plainValue limit levels c) := by
  induction levels generalizing c with
  | zero => cases c <;> exact .refl _
  | succ levels ih =>
    have hm : ∀ c, Takes c.minLength (value limit levels c) := value_takes limit levels
    cases c with
    | struct => exact struct_succeedsAs ih
    | map => exact map_succeedsAs ih hm
    | set | list => exact sequence_succeedsAs ih hm _
    | _ => exact .refl _

end Reader

namespace Protocol

/-- Decoding with counts taken at their word. -/
def plainPrefix (p : Protocol) (code : TypeCode) (bs : Bytes) : Except DecodeError (Value × Bytes) :=
  (Reader.plainValue p.maxDepth p.maxDepth code).run bs

/-- Asking beforehand whether the entries of a count would fit changes nothing of what is decoded and of what is left,
since whatever is decoded takes at least the least length of its code. -/
theorem decodePrefix_iff_plainPrefix (p : Protocol) (c : TypeCode) (bs : Bytes) (v : Value) (rest : Bytes) :
    (p.decodePrefix c bs = .ok (v, rest) ↔ p.plainPrefix c bs = .ok (v, rest)) ∧
      (p.decodePrefix c bs = .ok (v, rest) → c.minLength + rest.length ≤ bs.length) :=
  ⟨Reader.value_succeedsAs_plainValue p.maxDepth p.maxDepth c bs v rest,
    Reader.value_takes p.maxDepth p.maxDepth c bs v rest⟩

/-- Two empty maps in a list just fit into what is left behind the count, and with a byte less they do not. -/
theorem decodePrefix_iff_plainPrefix_tight :
    let v : Value := .list .map [.map .i32 .bool [], .map .i32 .bool []]
    let bs : Bytes := [0x0D, 0, 0, 0, 2, 0x08, 0x02, 0, 0, 0, 0, 0x08, 0x02, 0, 0, 0, 0]
    Protocol.plainPrefix ⟨2⟩ .list bs = .ok (v, []) ∧ TypeCode.list.minLength ≤ bs.length ∧
      Protocol.decodePrefix ⟨2⟩ .list (bs.take 16) = .error (.insufficientData 12 11) ∧
      ∀ w rest, Protocol.plainPrefix ⟨2⟩ .list (bs.take 16) ≠ .ok (w, rest) := by
  intro v bs
  have hv : Protocol.decodePrefix ⟨2⟩ .list bs = .ok (v, []) := rfl
  have hshort : Protocol.decodePrefix ⟨2⟩ .list (bs.take 16) = .error (.insufficientData 12 11) := rfl
  have hsame := decodePrefix_iff_plainPrefix ⟨2⟩ .list bs v []
  refine ⟨hsame.1.mp hv, hsame.2 hv, hshort, fun w rest hplain => ?_⟩
  have hw := (decodePrefix_iff_plainPrefix ⟨2⟩ .list (bs.take 16) w rest).1.mpr hplain
  rw [hshort] at hw
  cases hw

end Protocol
end TaggedWire
