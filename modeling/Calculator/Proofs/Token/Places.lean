import Calculator.Proofs.Token.Parentheses
import Mathlib.Data.List.Infix
import Mathlib.Tactic.SplitIfs
/-!
Where tokens stand in their text. They stand one behind the other, and the characters of a token's span spell it; a
product that is not written takes no characters.
-/
namespace Calculator

/-- The characters of the text in the span. -/
def Span.chars (s : Span) (text : List Char) : List Char := (text.drop s.start).take (s.stop - s.start)

namespace Token

/-- The token stands in the text. Its characters are its own, and those of a constant in any case. -/
structure StandsIn (text : List Char) (t : Token) : Prop where
  start_le : t.position ≤ t.stop
  stop_le : t.stop ≤ text.length
  nonempty : t.kind ≠ .operator → t.position < t.stop
  chars : t.kind = .number ∨ t.kind = .variableName → t.span.chars text = t.text.toList
  name : t.kind = .constant → ∃ c : Constant, t.text = c.name ∧ (t.span.chars text).map Char.toLower = c.name.toList

/-- The tokens stand in the text one behind the other, from the place `start` to the place `stop`. -/
def Between (text : List Char) (start : Nat) : List Token → Nat → Prop
  | [], stop => start ≤ stop
  | t :: ts, stop => start ≤ t.position ∧ t.StandsIn text ∧ Between text t.stop ts stop

section
variable {text : List Char} {start stop : Nat}

theorem Between.weaken {ts : List Token} (h : Between text start ts stop) {before : Nat} (hle : before ≤ start) :
    Between text before ts stop := by
  cases ts with
  | nil => exact hle.trans h
  | cons t ts => exact ⟨hle.trans h.1, h.2⟩

theorem between_append {ts us : List Token} :
    Between text start (ts ++ us) stop ↔ ∃ middle, Between text start ts middle ∧ Between text middle us stop := by
  induction ts generalizing start with
  | nil => exact ⟨fun h => ⟨start, Nat.le_refl start, h⟩, fun ⟨_, hle, h⟩ => h.weaken hle⟩
  | cons t ts ih =>
    constructor
    · rintro ⟨hstart, ht, hrest⟩
      obtain ⟨middle, hts, hus⟩ := ih.mp hrest
      exact ⟨middle, ⟨hstart, ht, hts⟩, hus⟩
    · rintro ⟨middle, ⟨hstart, ht, hts⟩, hus⟩
      exact ⟨hstart, ht, ih.mpr ⟨middle, hts, hus⟩⟩

theorem Between.start_le {ts : List Token} (h : Between text start ts stop) : start ≤ stop := by
  induction ts generalizing start with
  | nil => exact h
  | cons t ts ih => exact (h.1.trans h.2.1.start_le).trans (ih h.2.2)

end

/-! ### From the text to its tokens -/

/-- The token is written with these characters. Built-ins and constants may be written in any case. -/
structure WrittenAs (t : Token) (written : List Char) : Prop where
  explicit : t.implicit = false
  ne_nil : written ≠ []
  length_text : t.text.length = written.length
  chars : t.kind = .number ∨ t.kind = .variableName → written = t.text.toList
  name : t.kind = .constant → ∃ c : Constant, t.text = c.name ∧ written.map Char.toLower = c.name.toList

/-- A token whose text is just what is written. -/
theorem writtenAs_ofList {t : Token} {written : List Char} (hexplicit : t.implicit = false) (hne : written ≠ [])
    (htext : t.text.toList = written) (hkind : t.kind ≠ .constant) : t.WrittenAs written where
  explicit := hexplicit
  ne_nil := hne
  length_text := by rw [← String.length_toList, htext]
  chars _ := htext.symm
  name h := absurd h hkind

theorem toList_toLower (s : String) : s.toLower.toList = s.toList.map Char.toLower := String.toList_map ..

theorem writtenAs_ofName (functions : List String) {written : List Char} (hne : written ≠ []) (position : Nat) :
    (ofName functions (String.ofList written) position).WrittenAs written := by
  have htext : (String.ofList written).toList = written := String.toList_ofList
  have hlower : (String.ofList written).toLower.toList = written.map Char.toLower := by rw [toList_toLower, htext]
  have hlength : (String.ofList written).toLower.length = written.length := by
    rw [← String.length_toList, hlower, List.length_map]
  unfold ofName
  split
  · rename_i b hb
    unfold Builtin.ofName? at hb
    have hname : b.name = (String.ofList written).toLower := by simpa using List.find?_some hb
    exact {
      explicit := rfl
      ne_nil := hne
      length_text := (congrArg String.length hname).trans hlength
      chars := by simp
      name := by simp }
  split
  · exact writtenAs_ofList rfl hne htext (by simp)
  split
  · rename_i c hc
    unfold Constant.ofName? at hc
    have hname : c.name = (String.ofList written).toLower := by simpa using List.find?_some hc
    exact {
      explicit := rfl
      ne_nil := hne
      length_text := (congrArg String.length hname).trans hlength
      chars := by simp
      name := fun _ => ⟨c, rfl, by rw [hname, hlower]⟩ }
  · exact writtenAs_ofList rfl hne htext (by simp)

theorem position_ofName (functions : List String) (name : String) (position : Nat) :
    (ofName functions name position).position = position := by
  unfold ofName
  repeat' split
  all_goals rfl

section
variable {text written rest : List Char} {start stop : Nat}

theorem WrittenAs.stop_eq {t : Token} (h : t.WrittenAs written) : t.stop = t.position + written.length := by
  rw [Token.stop, h.explicit, h.length_text]
  rfl

/-- A token stands where its characters do. -/
theorem WrittenAs.standsIn {t : Token} (h : t.WrittenAs written) (hrest : text.drop t.position = written ++ rest) :
    t.StandsIn text := by
  have hstop := h.stop_eq
  have hpos : 0 < written.length := List.length_pos_iff.mpr h.ne_nil
  have hlength := congrArg List.length hrest
  rw [List.length_drop, List.length_append] at hlength
  have htaken : t.span.chars text = written := by
    change (text.drop t.position).take (t.stop - t.position) = written
    rw [hrest, hstop, Nat.add_sub_cancel_left, List.take_left]
  refine ⟨by omega, by omega, fun _ => by omega, fun hkind => ?_, fun hkind => ?_⟩
  · rw [htaken]
    exact h.chars hkind
  · rw [htaken]
    exact h.name hkind

/-- What is taken from the rest of the text leaves a rest behind it. -/
theorem drop_of_append (hrest : text.drop start = written ++ rest) (hle : start ≤ text.length) :
    text.drop (start + written.length) = rest ∧ start + written.length ≤ text.length := by
  have hlength := congrArg List.length hrest
  rw [List.length_drop, List.length_append] at hlength
  refine ⟨?_, by omega⟩
  rw [← List.drop_drop, hrest, List.drop_left]

/-- A token that is written at the start, and others behind it. -/
theorem WrittenAs.between {t : Token} {ts : List Token} (h : t.WrittenAs written) (hstart : t.position = start)
    (hrest : text.drop start = written ++ rest) (hle : start ≤ text.length)
    (hts : text.drop (start + written.length) = rest → start + written.length ≤ text.length →
      Between text (start + written.length) ts stop) : Between text start (t :: ts) stop := by
  obtain ⟨hdrop, hbound⟩ := drop_of_append hrest hle
  subst hstart
  refine ⟨Nat.le_refl _, h.standsIn hrest, ?_⟩
  rw [h.stop_eq]
  exact hts hdrop hbound

theorem cons_eq_append_drop {c : Char} {tail cs : List Char} (h : tail <+: cs) :
    c :: cs = (c :: tail) ++ cs.drop ((c :: tail).length - 1) :=
  congrArg (c :: ·) (List.prefix_append_drop h)

theorem ne_constant_of_kindOfChar? {c : Char} {kind : Kind} (h : kindOfChar? c = some kind) : kind ≠ .constant := by
  rintro rfl
  unfold kindOfChar? at h
  split_ifs at h <;> cases h

/-- What the scanner finds stands in the text. -/
theorem between_scan (functions : List String) {position : Nat} {cs : List Char} (hrest : text.drop position = cs)
    (hle : position ≤ text.length) : Between text position (scan functions position cs) text.length := by
  fun_induction scan functions position cs with
  | case1 => exact hle
  | case2 position c cs hblank ih | case6 position c cs hblank hnumeral hname hkind ih =>
    have hskip : text.drop position = [c] ++ cs := hrest
    obtain ⟨hdrop, hbound⟩ := drop_of_append hskip hle
    exact (ih hdrop hbound).weaken (Nat.le_succ position)
  | case3 position c cs hblank hnumeral written ih =>
    have hprefix : c :: (numeral (c :: cs)).tail <+: c :: cs := by
      rw [numeral_cons hnumeral]
      exact numeral_isPrefix (c :: cs)
    have hsplit := cons_eq_append_drop (c := c) (List.cons_prefix_cons.mp hprefix).2
    have htoken : ({ kind := .number, text := String.ofList written, position } : Token).WrittenAs written :=
      writtenAs_ofList rfl (List.cons_ne_nil _ _) String.toList_ofList (by simp)
    exact htoken.between rfl (hrest.trans hsplit) hle ih
  | case4 position c cs hblank hnumeral hname written ih =>
    have hsplit := cons_eq_append_drop (c := c) (List.takeWhile_prefix continuesName (l := cs))
    have htoken := writtenAs_ofName functions (List.cons_ne_nil c (cs.takeWhile continuesName)) position
    exact htoken.between (position_ofName ..) (hrest.trans hsplit) hle ih
  | case5 position c cs hblank hnumeral hname kind hkind ih =>
    have htoken : ({ kind, text := String.singleton c, position } : Token).WrittenAs [c] :=
      writtenAs_ofList rfl (List.cons_ne_nil _ _) (String.toList_singleton c) (ne_constant_of_kindOfChar? hkind)
    exact htoken.between rfl hrest hle ih

/-- A product that is not written stands where its right factor starts. -/
theorem standsIn_unwrittenProduct {position : Nat} (h : position ≤ text.length) :
    (unwrittenProduct position).StandsIn text where
  start_le := Nat.le_refl position
  stop_le := h
  nonempty hkind := absurd rfl hkind
  chars hkind := by rcases hkind with hkind | hkind <;> cases hkind
  name hkind := nomatch hkind

theorem between_withProducts {ts : List Token} (h : Between text start ts stop) :
    Between text start (withProducts ts) stop := by
  fun_induction withProducts ts generalizing start with
  | case1 => exact h
  | case2 => exact h
  | case3 t u rest hproduct ih =>
    have hu : u.position ≤ text.length := h.2.2.2.1.start_le.trans h.2.2.2.1.stop_le
    exact ⟨h.1, h.2.1, h.2.2.1, standsIn_unwrittenProduct hu, ih ⟨Nat.le_refl u.position, h.2.2.2⟩⟩
  | case4 t u rest hproduct ih => exact ⟨h.1, h.2.1, ih h.2.2⟩

end

/-- The tokens of a text stand in it, one behind the other. -/
theorem between_tokenize (functions : List String) (text : String) :
    Between text.toList 0 (tokenize functions text) text.length := by
  rw [← String.length_toList]
  exact between_withProducts (between_scan functions rfl (Nat.zero_le _))

end Token
end Calculator
