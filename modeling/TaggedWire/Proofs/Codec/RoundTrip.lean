import TaggedWire.Proofs.Codec.Decoding
import TaggedWire.Proofs.Codec.Encoding

/-! There and back. Encoding and then decoding gives the value again exactly if it is well-typed and nests no
deeper than the limit; decoding and then encoding gives the bytes again up to the payloads of true bools. -/
namespace TaggedWire
namespace Protocol

theorem decodePrefix_eq_ok_iff {p : Protocol} {c : TypeCode} {bs rest : Bytes} {v : Value} :
    p.decodePrefix c bs = .ok (v, rest) ↔
      ∃ raw, bs = raw ++ rest ∧ v.Within p.maxDepth c ∧ v.Spells raw :=
  Reader.value_accepts p.maxDepth p.maxDepth c bs v rest

theorem decode_eq_ok_iff {p : Protocol} {c : TypeCode} {bs : Bytes} {v : Value} :
    p.decode c bs = .ok v ↔ ∃ rest, p.decodePrefix c bs = .ok (v, rest) := by
  unfold decode
  cases h : p.decodePrefix c bs with
  | error e => simp [Except.map]
  | ok r =>
    obtain ⟨w, rest⟩ := r
    simp [Except.map]

theorem decodePrefix_encode {p : Protocol} {v : Value} {out : Bytes} (hout : v.encode = .ok out)
    (hw : v.WellTyped) (hd : v.depth ≤ p.maxDepth) (rest : Bytes) :
    p.decodePrefix v.typeCode (out ++ rest) = .ok (v, rest) :=
  decodePrefix_eq_ok_iff.mpr ⟨out, rfl, ⟨rfl, hw, hd⟩, Value.spells_of_encode hout⟩

/-- A value whose lengths can be written comes back from its encoding exactly if it is well-typed and nests no
deeper than the limit, and then just the encoding is taken. -/
theorem decode_encode_iff (v : Value) (hv : v.LengthsFit) (p : Protocol) (rest : Bytes) :
    ∃ out, v.encode = .ok out ∧
      (p.decode v.typeCode (out ++ rest) = .ok v ↔ v.WellTyped ∧ v.depth ≤ p.maxDepth) ∧
      (p.decode v.typeCode (out ++ rest) = .ok v →
        p.decodePrefix v.typeCode (out ++ rest) = .ok (v, rest)) := by
  obtain ⟨out, hout⟩ := Value.exists_encode hv
  have hsound (h : p.decode v.typeCode (out ++ rest) = .ok v) : v.WellTyped ∧ v.depth ≤ p.maxDepth := by
    obtain ⟨rest', h'⟩ := decode_eq_ok_iff.mp h
    obtain ⟨raw, -, hw, -⟩ := decodePrefix_eq_ok_iff.mp h'
    exact hw.2
  refine ⟨out, hout, ⟨hsound, fun h => ?_⟩, fun h => ?_⟩
  · exact decode_eq_ok_iff.mpr ⟨rest, decodePrefix_encode hout h.1 h.2 rest⟩
  · have hw := hsound h
    exact decodePrefix_encode hout hw.1 hw.2 rest

theorem decode_encode_nested :
    let v : Value := .list .struct [.struct [(⟨-1, .map⟩, .map .i16 .bool [(.i16 (-7), .bool true)])], .struct []]
    v.LengthsFit ∧ ∃ out, v.encode = .ok out ∧
      Protocol.decode ⟨2⟩ .list (out ++ [0xFF]) ≠ .ok v ∧
      Protocol.decodePrefix ⟨3⟩ .list (out ++ [0xFF]) = .ok (v, [0xFF]) := by
  intro v
  have hv : v.LengthsFit := by decide
  obtain ⟨out, hout, hshallow, -⟩ := decode_encode_iff v hv ⟨2⟩ [0xFF]
  obtain ⟨out', hout', hdeep, hrest⟩ := decode_encode_iff v hv ⟨3⟩ [0xFF]
  obtain rfl : out = out' := Except.ok.inj (hout.symm.trans hout')
  refine ⟨hv, out, hout, fun h => ?_, hrest (hdeep.mpr (by decide))⟩
  exact absurd (hshallow.mp h).2 (by decide)

/-- What is decoded has the code asked for, is well-typed and nests no deeper than the limit. Its encoding is as long
as the bytes that were taken, and differs from them only where the payload of a bool was neither zero nor one. -/
theorem encode_of_decodePrefix {p : Protocol} {c : TypeCode} {bs rest : Bytes} {v : Value}
    (h : p.decodePrefix c bs = .ok (v, rest)) :
    v.typeCode = c ∧ v.WellTyped ∧ v.depth ≤ p.maxDepth ∧
      ∃ raw out : Bytes, bs = raw ++ rest ∧ v.encode = .ok out ∧
        out.length = raw.length ∧ v.boolSpots.length = raw.length ∧
        ∀ (i : Nat) (b : UInt8), raw[i]? = some b → out[i]? ≠ some b →
          v.boolSpots[i]? = some true ∧ b ≠ 0 ∧ b ≠ 1 ∧ out[i]? = some 1 := by
  obtain ⟨raw, rfl, ⟨hc, hw, hd⟩, hs⟩ := decodePrefix_eq_ok_iff.mp h
  obtain ⟨out, hout, hn⟩ := hs.normalises
  exact ⟨hc, hw, hd, raw, out, rfl, hout, hn.length_eq, hn.1, fun i b hi hne => hn.of_getElem?_ne hi hne⟩

theorem encode_of_decodePrefix_seven :
    let v : Value := .list .bool [.bool true, .bool false]
    let bs : Bytes := [0x02, 0, 0, 0, 2, 7, 0, 9]
    Protocol.decodePrefix ⟨1⟩ .list bs = .ok (v, [9]) ∧ v.WellTyped ∧
      ∃ raw out : Bytes, bs = raw ++ [9] ∧ v.encode = .ok out ∧ out.length = raw.length ∧ out[5]? = some 1 := by
  intro v bs
  have h : Protocol.decodePrefix ⟨1⟩ .list bs = .ok (v, [9]) := rfl
  obtain ⟨-, hw, -, raw, out, hbs, hout, hl, -, hdiff⟩ := encode_of_decodePrefix h
  have hraw : raw = [0x02, 0, 0, 0, 2, 7, 0] := List.append_cancel_right (hbs.symm.trans rfl)
  have hfive : out[5]? ≠ some 7 := by
    obtain rfl : out = [0x02, 0, 0, 0, 2, 1, 0] := Except.ok.inj (hout.symm.trans rfl)
    decide
  exact ⟨h, hw, raw, out, hbs, hout, hl, (hdiff 5 7 (by simp [hraw]) hfive).2.2.2⟩

end Protocol
end TaggedWire
