import TaggedWire.Proofs.Outcome
import TaggedWire.Proofs.Text.Literal
import TaggedWire.Proofs.Value.Shape
import TaggedWire.Text.Render

/-! The readable form tells values apart. The letters after a value's number, or the keyword at its front, give
its type code; two texts of one code are then compared piece by piece, and a block entry by entry. -/
namespace TaggedWire

/-- Equal as far as the text goes: two doubles need only be written the same, all else is equal. -/
inductive Value.Alike (double : UInt64 → List Char) : Value → Value → Prop
  | bool (b : Bool) : Alike double (.bool b) (.bool b)
  | byte (n : Int8) : Alike double (.byte n) (.byte n)
  | double {a b : UInt64} : double a = double b → Alike double (.double a) (.double b)
  | i16 (n : Int16) : Alike double (.i16 n) (.i16 n)
  | i32 (n : Int32) : Alike double (.i32 n) (.i32 n)
  | i64 (n : Int64) : Alike double (.i64 n) (.i64 n)
  | binary (bs : Bytes) : Alike double (.binary bs) (.binary bs)
  | struct {fs gs : List Field} : fs.map Prod.fst = gs.map Prod.fst →
      List.Forall₂ (Alike double) (fs.map Prod.snd) (gs.map Prod.snd) → Alike double (.struct fs) (.struct gs)
  | map (k c : TypeCode) {xs ys : List (Value × Value)} :
      List.Forall₂ (Alike double) (xs.map Prod.fst) (ys.map Prod.fst) →
      List.Forall₂ (Alike double) (xs.map Prod.snd) (ys.map Prod.snd) → Alike double (.map k c xs) (.map k c ys)
  | set (c : TypeCode) {vs ws : List Value} : List.Forall₂ (Alike double) vs ws → Alike double (.set c vs) (.set c ws)
  | list (c : TypeCode) {vs ws : List Value} : List.Forall₂ (Alike double) vs ws → Alike double (.list c vs) (.list c ws)

section
variable {double : UInt64 → List Char}

theorem Value.Alike.typeCode_eq {v w : Value} (h : v.Alike double w) : v.typeCode = w.typeCode := by
  cases h <;> rfl

theorem Value.alike_struct_iff {fs gs : List Field} : (Value.struct fs).Alike double (.struct gs) ↔
    List.Forall₂ (fun f g => f.1 = g.1 ∧ f.2.Alike double g.2) fs gs := by
  rw [forall₂_and_iff (R := Eq), List.forall₂_eq_eq_eq]
  constructor
  · intro h
    cases h with
    | struct hkeys hvalues => exact ⟨hkeys, hvalues⟩
  · exact fun h => .struct h.1 h.2

theorem Value.alike_map_iff {k c : TypeCode} {xs ys : List (Value × Value)} :
    (Value.map k c xs).Alike double (.map k c ys) ↔
      List.Forall₂ (fun x y => x.1.Alike double y.1 ∧ x.2.Alike double y.2) xs ys := by
  rw [forall₂_and_iff]
  constructor
  · intro h
    cases h with
    | map _ _ hkeys hvalues => exact ⟨hkeys, hvalues⟩
  · exact fun h => .map k c h.1 h.2

end

theorem FieldKey.ext {k l : FieldKey} (hid : k.id = l.id) (hcode : k.code = l.code) : k = l := by
  cases k
  cases l
  rw [FieldKey.mk.injEq]
  exact ⟨hid, hcode⟩

namespace Text

/-- The letters by which a value shows its type code. Binary contents have none of these. -/
def marks : List (List Char × TypeCode) :=
  [("true".toList, .bool), ("false".toList, .bool), ("i8".toList, .byte), ("f64".toList, .double),
    ("inff64".toList, .double), ("NaNf64".toList, .double), ("i16".toList, .i16), ("i32".toList, .i32),
    ("i64".toList, .i64), ("struct".toList, .struct), ("map".toList, .map), ("set".toList, .set),
    ("list".toList, .list)]

/-- The type code of the value that a text begins with. -/
def codeOf (text : List Char) : TypeCode :=
  (marks.lookup ((text.dropWhile isNumeric).takeWhile Char.isAlphanum)).getD .binary

theorem EndsWord.takeWhile_isAlphanum {rest : List Char} (h : EndsWord rest) : rest.takeWhile Char.isAlphanum = [] := by
  cases rest with
  | nil => rfl
  | cons c rest =>
    have hc := h c rfl
    simp only [inWord, Bool.or_eq_false_iff] at hc
    simp [hc.1.1]

/-- A number may stand before the mark. -/
theorem codeOf_mark (number mark : List Char) {rest : List Char} {c : TypeCode}
    (hnumber : ∀ c ∈ number, isNumeric c = true) (hmark : (mark, c) ∈ marks) (hrest : EndsWord rest) :
    codeOf (number ++ mark ++ rest) = c := by
  have hletters : ∀ m ∈ marks, m.1.all Char.isAlphanum = true ∧ m.1.dropWhile isNumeric = m.1 ∧ m.1 ≠ [] ∧
      marks.lookup m.1 = some m.2 := by decide
  obtain ⟨hall, hstop, hne, hcode⟩ := hletters _ hmark
  have hdrop : (number ++ mark ++ rest).dropWhile isNumeric = mark ++ rest := by
    rw [List.append_assoc, List.dropWhile_append_of_pos hnumber, List.dropWhile_append, hstop]
    simp [hne]
  rw [codeOf, hdrop, List.takeWhile_append_of_pos (List.all_eq_true.mp hall), hrest.takeWhile_isAlphanum,
    List.append_nil, hcode]
  rfl

theorem codeOf_double {double : UInt64 → List Char} (hd : Double.Legible double) (bits : UInt64) {rest : List Char}
    (hrest : EndsWord rest) : codeOf (double bits ++ "f64".toList ++ rest) = .double := by
  rcases hd bits with h | h | h | h
  · rw [h]
    exact codeOf_mark [] "inff64".toList (by simp) (by decide) hrest
  · rw [h]
    exact codeOf_mark ['-'] "inff64".toList (by simp [isNumeric]) (by decide) hrest
  · rw [h]
    exact codeOf_mark [] "NaNf64".toList (by simp) (by decide) hrest
  · exact codeOf_mark _ "f64".toList h (by decide) hrest

theorem codeOf_binary (bs : Bytes) (rest : List Char) : codeOf (Literal.ofBytes bs ++ rest) = .binary := by
  unfold Literal.ofBytes
  cases bs.text? with
  | some s => rfl
  | none => rfl

theorem codeOf_header (kind : String) (codes : List TypeCode) {c : TypeCode} (hkind : (kind.toList, c) ∈ marks)
    (rest : List Char) : codeOf (header kind codes ++ rest) = c := by
  rw [header, List.append_assoc]
  exact codeOf_mark [] kind.toList (by simp) hkind (.cons (by decide) _)

theorem codeOf_render {double : UInt64 → List Char} (hd : Double.Legible double) (indent : Nat) (v : Value)
    {rest : List Char} (hrest : EndsWord rest) : codeOf (render double indent v ++ rest) = v.typeCode := by
  cases v with
  | bool b =>
    cases b with
    | true => exact codeOf_mark [] "true".toList (by simp) (by decide) hrest
    | false => exact codeOf_mark [] "false".toList (by simp) (by decide) hrest
  | byte n => exact codeOf_mark (c := .byte) _ "i8".toList (wholeNumber_numeric n.toInt) (by decide) hrest
  | double bits => exact codeOf_double hd bits hrest
  | i16 n => exact codeOf_mark (c := .i16) _ "i16".toList (wholeNumber_numeric n.toInt) (by decide) hrest
  | i32 n => exact codeOf_mark (c := .i32) _ "i32".toList (wholeNumber_numeric n.toInt) (by decide) hrest
  | i64 n => exact codeOf_mark (c := .i64) _ "i64".toList (wholeNumber_numeric n.toInt) (by decide) hrest
  | binary bs => exact codeOf_binary bs rest
  | struct fs =>
    have hlead : "struct ".toList = [] ++ "struct".toList ++ [' '] := by decide
    rw [render_struct, hlead, List.append_assoc, List.append_assoc]
    exact codeOf_mark (c := .struct) [] "struct".toList (by simp) (by decide) (.cons (by decide) _)
  | map k c xs =>
    rw [render_map, List.append_assoc]
    exact codeOf_header (c := .map) "map" [k, c] (by decide) _
  | set c vs =>
    rw [render_set, List.append_assoc]
    exact codeOf_header (c := .set) "set" [c] (by decide) _
  | list c vs =>
    rw [render_list, List.append_assoc]
    exact codeOf_header (c := .list) "list" [c] (by decide) _

section
variable {α : Type} {R : α → α → Prop} {entry : α → List Char} {as bs : List α}

/-- By induction on the entries: after the padding of a block's end comes a brace, before an entry more padding. -/
theorem lines_determine (h : ∀ a ∈ as, ∀ b ∈ bs, Determines (R a b) (entry a) (entry b)) (indent : Nat) :
    Determines (List.Forall₂ R as bs) (lines indent (as.map entry) ++ (padding indent ++ ['}']))
      (lines indent (bs.map entry) ++ (padding indent ++ ['}'])) := by
  induction as generalizing bs with
  | nil =>
    cases bs with
    | nil => exact .same .nil _
    | cons b bs =>
      intro r r' _ _ heq
      simp [lines, padding_succ] at heq
  | cons a as ih =>
    cases bs with
    | nil =>
      intro r r' _ _ heq
      simp [lines, padding_succ] at heq
    | cons b bs =>
      have hhead := h a List.mem_cons_self b List.mem_cons_self
      have htail := ih fun a ha b hb => h a (List.mem_cons_of_mem _ ha) b (List.mem_cons_of_mem _ hb)
      have hends (rest : List Char) : EndsWord ([',', '\n'] ++ rest) := .cons (by decide) _
      have hboth := hhead.followed (hends _) (hends _) fun _ => htail.after [',', '\n']
      have hentries := (hboth.mono fun h => List.Forall₂.cons h.1 h.2).after (padding (indent + 1))
      simpa only [lines, List.map_cons, List.flatMap_cons, List.append_assoc] using hentries

theorem block_determines (h : ∀ a ∈ as, ∀ b ∈ bs, Determines (R a b) (entry a) (entry b)) (indent : Nat) :
    Determines (List.Forall₂ R as bs) (block indent (as.map entry)) (block indent (bs.map entry)) := by
  cases as with
  | nil =>
    cases bs with
    | nil => exact .same .nil _
    | cons b bs =>
      intro r r' _ _ heq
      simp [block] at heq
  | cons a as =>
    cases bs with
    | nil =>
      intro r r' _ _ heq
      simp [block] at heq
    | cons b bs =>
      have hblock := (lines_determine h indent).after ['{', '\n']
      simpa [block] using hblock

end

theorem name_determines (c d : TypeCode) : Determines (c = d) c.name.toList d.name.toList := by
  have hword : ∀ c ∈ TypeCode.all, IsWord c.name.toList := by decide
  have hinj : ∀ c ∈ TypeCode.all, ∀ d ∈ TypeCode.all, c.name.toList = d.name.toList → c = d := by decide
  refine (Determines.word (hword c c.mem_all) (hword d d.mem_all)).mono ?_
  exact hinj c c.mem_all d d.mem_all

theorem header_determines (kind : String) (c d : TypeCode) :
    Determines (c = d) (header kind [c]) (header kind [d]) := by
  have hname := (name_determines c d).followed (.cons (by decide) [' ']) (.cons (by decide) [' '])
    fun _ => .same trivial ['>', ' ']
  have hheader := (hname.mono And.left).after (kind.toList ++ ['<'])
  simpa [header] using hheader

theorem header_pair_determines (kind : String) (k c l d : TypeCode) :
    Determines (k = l ∧ c = d) (header kind [k, c]) (header kind [l, d]) := by
  have hcomma (rest : List Char) : EndsWord ([',', ' '] ++ rest) := .cons (by decide) _
  have hname := (name_determines c d).followed (.cons (by decide) [' ']) (.cons (by decide) [' '])
    fun _ => .same trivial ['>', ' ']
  have hpair := (name_determines k l).followed (hcomma _) (hcomma _)
    fun _ => (hname.mono And.left).after [',', ' ']
  have hheader := hpair.after (kind.toList ++ ['<'])
  simpa [header] using hheader

theorem suffixed_determines (m n : Int) {suffix : String} (hsuffix : IsWord suffix.toList) :
    Determines (m = n) (suffixed m suffix) (suffixed n suffix) := by
  have hword (k : Int) : IsWord (suffixed k suffix) := (wholeNumber_isWord k).append hsuffix
  exact (Determines.word (hword m) (hword n)).mono fun h => wholeNumber_injective (List.append_cancel_right h)

theorem double_isWord {double : UInt64 → List Char} (hd : Double.Legible double) (bits : UInt64) :
    IsWord (double bits) := by
  rcases hd bits with h | h | h | h
  · rw [h]; decide
  · rw [h]; decide
  · rw [h]; decide
  · exact fun c hc => inWord_of_isNumeric (h c hc)

theorem block_endsWord (indent : Nat) (entries : List (List Char)) : EndsWord (block indent entries) := by
  unfold block
  split <;> exact .cons (by decide) _

section
variable {double : UInt64 → List Char}

theorem field_determines (indent : Nat) {f g : Field} (hf : f.2.typeCode = f.1.code) (hg : g.2.typeCode = g.1.code)
    (h : Determines (f.2.Alike double g.2) (render double indent f.2) (render double indent g.2)) :
    Determines (f.1 = g.1 ∧ f.2.Alike double g.2) (wholeNumber f.1.id.toInt ++ ':' :: ' ' :: render double indent f.2)
      (wholeNumber g.1.id.toInt ++ ':' :: ' ' :: render double indent g.2) := by
  have hid := (wholeNumber_determines f.1.id.toInt g.1.id.toInt).followed
    (.cons (by decide) (' ' :: render double indent f.2)) (.cons (by decide) (' ' :: render double indent g.2))
    fun _ => h.after [':', ' ']
  refine hid.mono fun ⟨hids, halike⟩ => ⟨?_, halike⟩
  -- the code is not written: both are those of the contents
  have hcode : f.1.code = g.1.code := by rw [← hf, ← hg, halike.typeCode_eq]
  exact FieldKey.ext (Int16.toInt_inj.mp hids) hcode

theorem item_determines (indent : Nat) {x y : Value × Value}
    (hkey : Determines (x.1.Alike double y.1) (render double indent x.1) (render double indent y.1))
    (hvalue : Determines (x.2.Alike double y.2) (render double indent x.2) (render double indent y.2)) :
    Determines (x.1.Alike double y.1 ∧ x.2.Alike double y.2)
      (render double indent x.1 ++ ':' :: ' ' :: render double indent x.2)
      (render double indent y.1 ++ ':' :: ' ' :: render double indent y.2) :=
  hkey.followed (.cons (by decide) (' ' :: render double indent x.2)) (.cons (by decide) (' ' :: render double indent y.2))
    fun _ => hvalue.after [':', ' ']

theorem sequence_determines (kind : String) {indent : Nat} {c d : TypeCode} {vs ws : List Value}
    (h : ∀ v ∈ vs, ∀ w ∈ ws, Determines (v.Alike double w) (render double (indent + 1) v) (render double (indent + 1) w)) :
    Determines (c = d ∧ List.Forall₂ (Value.Alike double) vs ws)
      (header kind [c] ++ block indent (renderAll double (indent + 1) vs))
      (header kind [d] ++ block indent (renderAll double (indent + 1) ws)) := by
  rw [renderAll_eq_map, renderAll_eq_map]
  exact (header_determines kind c d).followed (block_endsWord indent _) (block_endsWord indent _)
    fun _ => block_determines h indent

/-- Values of different codes have different texts, so it is enough to compare those of one code. -/
theorem Determines.of_typeCode (hd : Double.Legible double) {P : Prop} {indent : Nat} {v w : Value}
    (h : v.typeCode = w.typeCode → Determines P (render double indent v) (render double indent w)) :
    Determines P (render double indent v) (render double indent w) := by
  intro r r' hr hr' heq
  have hcode : v.typeCode = w.typeCode := by rw [← codeOf_render hd indent v hr, heq, codeOf_render hd indent w hr']
  exact h hcode r r' hr hr' heq

theorem flat_determines (hd : Double.Legible double) {v w : Value} (hcode : v.typeCode = w.typeCode)
    (hn : v.typeCode.nests = false) (indent : Nat) :
    Determines (v.Alike double w) (render double indent v) (render double indent w) := by
  cases v with
  | bool b =>
    cases w with
    | bool b' =>
      have hword : ∀ b : Bool, IsWord (if b then "true" else "false").toList := by decide
      have hinj : ∀ b b' : Bool, (if b then "true" else "false").toList = (if b' then "true" else "false").toList →
          b = b' := by decide
      refine (Determines.word (hword b) (hword b')).mono fun h => ?_
      rw [hinj b b' h]
      exact .bool b'
    | _ => cases hcode
  | byte n =>
    cases w with
    | byte m =>
      refine (suffixed_determines n.toInt m.toInt (by decide)).mono fun h => ?_
      rw [Int8.toInt_inj.mp h]
      exact .byte m
    | _ => cases hcode
  | double a =>
    cases w with
    | double b =>
      have hword (bits : UInt64) : IsWord (double bits ++ "f64".toList) := (double_isWord hd bits).append (by decide)
      exact (Determines.word (hword a) (hword b)).mono fun h => .double (List.append_cancel_right h)
    | _ => cases hcode
  | i16 n =>
    cases w with
    | i16 m =>
      refine (suffixed_determines n.toInt m.toInt (by decide)).mono fun h => ?_
      rw [Int16.toInt_inj.mp h]
      exact .i16 m
    | _ => cases hcode
  | i32 n =>
    cases w with
    | i32 m =>
      refine (suffixed_determines n.toInt m.toInt (by decide)).mono fun h => ?_
      rw [Int32.toInt_inj.mp h]
      exact .i32 m
    | _ => cases hcode
  | i64 n =>
    cases w with
    | i64 m =>
      refine (suffixed_determines n.toInt m.toInt (by decide)).mono fun h => ?_
      rw [Int64.toInt_inj.mp h]
      exact .i64 m
    | _ => cases hcode
  | binary bs =>
    cases w with
    | binary cs =>
      refine (Literal.ofBytes_determines bs cs).mono fun h => ?_
      rw [h]
      exact .binary cs
    | _ => cases hcode
  | struct | map | set | list => cases hn

/-- Two texts determine whether the values are alike: by induction on the first value. -/
theorem render_determines (hd : Double.Legible double) {v w : Value} (hv : v.FieldsFit) (hw : w.FieldsFit)
    (indent : Nat) :
    Determines (v.Alike double w) (render double indent v) (render double indent w) := by
  refine .of_typeCode hd fun hcode => ?_
  induction v generalizing w indent with
  | struct fs ih =>
    cases w with
    | struct gs =>
      rw [Value.fieldsFit_struct_iff] at hv hw
      have hentries : ∀ f ∈ fs, ∀ g ∈ gs, _ := fun f hf g hg =>
        field_determines (indent + 1) (hv f hf).1 (hw g hg).1
          (.of_typeCode hd (ih f hf (hv f hf).2 (hw g hg).2 (indent + 1)))
      rw [render_struct, render_struct, renderFields_eq_map, renderFields_eq_map]
      exact ((block_determines hentries indent).after _).mono Value.alike_struct_iff.mpr
    | _ => cases hcode
  | map k c xs ih =>
    cases w with
    | map l d ys =>
      rw [Value.fieldsFit_map_iff] at hv hw
      have hentries : ∀ x ∈ xs, ∀ y ∈ ys, _ := fun x hx y hy =>
        item_determines (indent + 1)
          (.of_typeCode hd ((ih x hx).1 (hv x hx).1 (hw y hy).1 (indent + 1)))
          (.of_typeCode hd ((ih x hx).2 (hv x hx).2 (hw y hy).2 (indent + 1)))
      have hboth := (header_pair_determines "map" k c l d).followed (block_endsWord indent _) (block_endsWord indent _)
        fun _ => block_determines hentries indent
      rw [render_map, render_map, renderItems_eq_map, renderItems_eq_map]
      refine hboth.mono fun ⟨⟨hk, hc⟩, hxs⟩ => ?_
      subst hk hc
      exact Value.alike_map_iff.mpr hxs
    | _ => cases hcode
  | set c vs ih =>
    cases w with
    | set d ws =>
      rw [Value.fieldsFit_set_iff] at hv hw
      refine (sequence_determines "set" fun v hv' w hw' => ?_).mono fun ⟨hc, hvs⟩ => ?_
      · exact .of_typeCode hd (ih v hv' (hv v hv') (hw w hw') (indent + 1))
      · subst hc
        exact .set c hvs
    | _ => cases hcode
  | list c vs ih =>
    cases w with
    | list d ws =>
      rw [Value.fieldsFit_list_iff] at hv hw
      refine (sequence_determines "list" fun v hv' w hw' => ?_).mono fun ⟨hc, hvs⟩ => ?_
      · exact .of_typeCode hd (ih v hv' (hv v hv') (hw w hw') (indent + 1))
      · subst hc
        exact .list c hvs
    | _ => cases hcode
  | _ => exact flat_determines hd hcode rfl indent

theorem render_of_alike {v w : Value} (h : v.Alike double w) (indent : Nat) :
    render double indent v = render double indent w := by
  induction v generalizing w indent with
  | double a =>
    cases h with
    | double h => exact congrArg (· ++ "f64".toList) h
  | struct fs ih =>
    cases w with
    | struct gs =>
      rw [render_struct, render_struct, renderFields_eq_map, renderFields_eq_map,
        map_eq_map_of_forall₂ (Value.alike_struct_iff.mp h)]
      intro f hf g hfg
      rw [hfg.1, ih f hf hfg.2]
    | _ => cases h
  | map k c xs ih =>
    cases h with
    | map _ _ hkeys hvalues =>
      have hitems := Value.alike_map_iff.mp (.map k c hkeys hvalues)
      rw [render_map, render_map, renderItems_eq_map, renderItems_eq_map, map_eq_map_of_forall₂ hitems]
      intro x hx y hxy
      rw [(ih x hx).1 hxy.1, (ih x hx).2 hxy.2]
  | set c vs ih =>
    cases h with
    | set _ hvs =>
      rw [render_set, render_set, renderAll_eq_map, renderAll_eq_map, map_eq_map_of_forall₂ hvs]
      exact fun v hv w hvw => ih v hv hvw _
  | list c vs ih =>
    cases h with
    | list _ hvs =>
      rw [render_list, render_list, renderAll_eq_map, renderAll_eq_map, map_eq_map_of_forall₂ hvs]
      exact fun v hv w hvw => ih v hv hvw _
  | _ =>
    cases h
    rfl

/-- However doubles are written, so long as they are legible, two texts are the same exactly if the values are equal but for
doubles that are written the same. -/
theorem render_eq_iff (hd : Double.Legible double) {v w : Value} (hv : v.FieldsFit) (hw : w.FieldsFit) (indent : Nat) :
    render double indent v = render double indent w ↔ v.Alike double w := by
  constructor
  · intro h
    exact (render_determines hd hv hw indent [] [] (by decide) (by decide) (by rw [h])).1
  · exact fun h => render_of_alike h indent

end

end Text

/-- Two values whose fields have the codes of their keys have one text exactly if they are equal but for doubles that
have one text. Of the texts of doubles no more is needed than that they are legible. -/
theorem Value.toText_eq_iff {v w : Value} (hv : v.FieldsFit) (hw : w.FieldsFit) :
    (v.toText = w.toText ↔ v.Alike Double.text w) ∧
      ∀ double, Double.Legible double → ∀ indent,
        (Text.render double indent v = Text.render double indent w ↔ v.Alike double w) := by
  refine ⟨?_, fun double hd indent => Text.render_eq_iff hd hv hw indent⟩
  rw [← Text.render_eq_iff Double.text_legible hv hw 0, ← v.toList_toText, ← w.toList_toText]
  exact String.toList_inj.symm

/-- All NaNs read the same, unless they are written by their bits; the element code of an empty set is still told. -/
theorem Value.toText_eq_iff_nans :
    (Value.list .double [.double 0x7FF8000000000000]).toText = (Value.list .double [.double 0x7FF8000000000001]).toText ∧
      Text.render (fun bits => digits bits.toNat) 0 (.double 0x7FF8000000000000) ≠
        Text.render (fun bits => digits bits.toNat) 0 (.double 0x7FF8000000000001) ∧
      (Value.set .i32 []).toText ≠ (Value.set .i64 []).toText := by
  refine ⟨?_, ?_, ?_⟩
  · apply (Value.toText_eq_iff (Value.WellTyped.fieldsFit (by decide)) (Value.WellTyped.fieldsFit (by decide))).1.mpr
    exact .list .double (.cons (.double (by decide)) .nil)
  · intro h
    have hlegible : Double.Legible fun bits => digits bits.toNat := fun _ => .inr (.inr (.inr (digits_numeric _)))
    cases ((Value.toText_eq_iff (by decide) (by decide)).2 _ hlegible 0).mp h with
    | double hdigits => exact absurd (digits_injective hdigits) (by decide)
  · intro h
    cases (Value.toText_eq_iff (by decide) (by decide)).1.mp h

end TaggedWire
