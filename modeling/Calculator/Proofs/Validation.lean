import Calculator.Proofs.Grammar.Correctness
import Calculator.Proofs.Token.Parentheses
import Calculator.Validation
import Mathlib.Data.List.TakeWhile
/-!
The validator and the parser agree. The checks that come before the parser find nothing in a text that it accepts: a
blank text has no tokens, and the parentheses of a text pair up if those of its tokens do.
-/
namespace Calculator.Validation
open Parenthesis

/-! ### Parentheses that do not pair up -/

/-- If no parenthesis closes nothing, those that stay open are as many as the depth behind the text. -/
theorem unpaired_of_depthAfter {cs : List Char} {position : Nat} {opened : List Nat} {depth : Nat}
    (h : depthAfter opened.length (ofChars cs) = some depth) :
    (unpaired position opened cs).closing = [] ∧ (unpaired position opened cs).opening.length = depth := by
  fun_induction unpaired position opened cs with
  | case1 => exact ⟨rfl, Option.some.inj h⟩
  | case2 position opened cs ih => exact ih h
  | case3 position cs head others ih => exact ih h
  | case4 position cs later ih => cases h
  | case5 position opened c cs hopen hclose ih =>
    have hc : ofChar? c = none := by rw [ofChar?, if_neg hopen, if_neg hclose]
    rw [ofChars_cons_of_none hc] at h
    exact ih h

/-- No parenthesis is found where they pair up. -/
theorem parenthesisFindings_of_paired {cs : List Char} (h : Paired (ofChars cs)) : parenthesisFindings cs = [] := by
  have hdepth : depthAfter ([] : List Nat).length (ofChars cs) = some 0 := by
    have hempty := h 0 []
    rwa [List.append_nil] at hempty
  have hunpaired : (unpaired 0 [] cs).closing = [] ∧ (unpaired 0 [] cs).opening.length = 0 :=
    unpaired_of_depthAfter hdepth
  obtain ⟨hclosing, hopening⟩ := hunpaired
  rw [parenthesisFindings, hclosing, List.length_eq_zero_iff.mp hopening]
  rfl

/-- The positions that are found lie before the end of the text, if those of the parentheses before it do. -/
theorem unpaired_lt {position : Nat} {opened : List Nat} {cs : List Char} {stop : Nat} (hopened : ∀ i ∈ opened, i < stop)
    (hstop : position + cs.length ≤ stop) : (∀ i ∈ (unpaired position opened cs).closing, i < stop) ∧
      ∀ i ∈ (unpaired position opened cs).opening, i < stop := by
  fun_induction unpaired position opened cs with
  | case1 => exact ⟨List.forall_mem_nil _, hopened⟩
  | case2 position opened cs ih =>
    rw [List.length_cons] at hstop
    exact ih (List.forall_mem_cons.mpr ⟨by omega, hopened⟩) (by omega)
  | case3 position cs head others ih =>
    rw [List.length_cons] at hstop
    exact ih (List.forall_mem_cons.mp hopened).2 (by omega)
  | case4 position cs later ih =>
    rw [List.length_cons] at hstop
    obtain ⟨hclosing, hopening⟩ := ih hopened (by omega)
    exact ⟨List.forall_mem_cons.mpr ⟨by omega, hclosing⟩, hopening⟩
  | case5 position opened c cs hopen hclose ih =>
    rw [List.length_cons] at hstop
    exact ih hopened (by omega)

/-- The characters of a finding are characters of the text. -/
def Inside (cs : List Char) (f : Finding) : Prop := f.span.start ≤ f.span.stop ∧ f.span.stop ≤ cs.length

theorem parenthesisFindings_inside {cs : List Char} {f : Finding} (h : f ∈ parenthesisFindings cs) : Inside cs f := by
  obtain ⟨hclosing, hopening⟩ := unpaired_lt (List.forall_mem_nil (· < cs.length)) (Nat.zero_add cs.length).le
  rw [parenthesisFindings, List.mem_append, Option.mem_toList, Option.mem_toList] at h
  rcases h with h | h
  · obtain ⟨i, hi, rfl⟩ := Option.map_eq_some_iff.mp h
    exact ⟨Nat.le_succ i, hclosing i (List.mem_of_head? hi)⟩
  · obtain ⟨i, hi, rfl⟩ := Option.map_eq_some_iff.mp h
    exact ⟨Nat.le_succ i, hopening i (List.mem_of_head? hi)⟩

/-! ### Blank texts -/

theorem isBlank_of_trim {cs : List Char} (h : Text.trim cs = []) : ∀ c ∈ cs, Text.isBlank c = true := by
  have hback := List.dropWhile_eq_nil_iff.mp (List.reverse_eq_nil_iff.mp h)
  intro c hc
  rw [← List.takeWhile_append_dropWhile (p := Text.isBlank) (l := cs), List.mem_append] at hc
  rcases hc with hc | hc
  · exact List.all_eq_true.mp List.all_takeWhile c hc
  · exact hback c (List.mem_reverse.mpr hc)

/-- A blank text has no tokens. -/
theorem scan_of_blank {cs : List Char} (h : ∀ c ∈ cs, Text.isBlank c = true) (functions : List String) (position : Nat) :
    Token.scan functions position cs = [] := by
  induction cs generalizing position with
  | nil => rw [Token.scan]
  | cons c cs ih =>
    obtain ⟨hc, hcs⟩ := List.forall_mem_cons.mp h
    rw [Token.scan, if_pos hc]
    exact ih hcs _

theorem not_blank_of_parse {functions : List String} {text : String} {e : Expr}
    (h : Expr.parse functions text = .ok e) : (Text.trim text.toList).isEmpty = false := by
  rw [Bool.eq_false_iff]
  intro hblank
  have hscan := scan_of_blank (isBlank_of_trim (List.isEmpty_iff.mp hblank)) functions 0
  rw [Expr.parse, Token.tokenize, hscan] at h
  cases h

/-! ### Agreement -/

/-- Parentheses pair up in a text that the parser accepts. -/
theorem paired_of_parse {functions : List String} {text : String} {e : Expr}
    (h : Expr.parse functions text = .ok e) : Paired (ofChars text.toList) := by
  obtain ⟨n, hderives⟩ := Expr.derives_of_ofTokens h
  have hpaired := paired_of_derives hderives
  rwa [Token.tokenize, ofTokens_withProducts, ofTokens_scan] at hpaired

theorem validate_of_parse {text : String} {e : Expr} (h : Expr.parse [] text = .ok e) : validate text = .ok := by
  rw [validate]
  rw [not_blank_of_parse h, if_neg Bool.false_ne_true, parenthesisFindings_of_paired (paired_of_parse h), h]

/-- Either the text parses and nothing is wrong with it, or something is, and lies in the text. -/
theorem validate_cases (text : String) : (∃ e, Expr.parse [] text = .ok e) ∧ validate text = .ok ∨
    ∃ errors, errors ≠ [] ∧ validate text = .fail errors ∧ ∀ f ∈ errors, Inside text.toList f := by
  rw [validate]
  split
  · refine .inr ⟨_, List.cons_ne_nil _ _, rfl, ?_⟩
    intro f hf
    cases List.mem_singleton.mp hf
    exact ⟨Nat.le_refl 0, Nat.zero_le _⟩
  split
  · split
    · rename_i e he
      exact .inl ⟨⟨e, he⟩, rfl⟩
    · refine .inr ⟨_, List.cons_ne_nil _ _, rfl, ?_⟩
      intro f hf
      cases List.mem_singleton.mp hf
      exact ⟨Nat.zero_le _, Nat.le_refl _⟩
  · rename_i found hfound
    exact .inr ⟨_, hfound, rfl, fun f => parenthesisFindings_inside⟩

/-- The validator accepts the texts that the parser accepts, and finds something in every other. What it finds lies in
the text. -/
theorem valid_iff_parse (text : String) :
    ((validate text).valid = true ↔ ∃ e, Expr.parse [] text = .ok e) ∧
      ((validate text).errors = [] ↔ (validate text).valid = true) ∧
      ∀ f ∈ (validate text).errors, f.span.start ≤ f.span.stop ∧ f.span.stop ≤ text.length := by
  rcases validate_cases text with ⟨hparse, hvalidate⟩ | ⟨errors, herrors, hvalidate, hinside⟩
  · rw [hvalidate]
    exact ⟨iff_of_true rfl hparse, iff_of_true rfl rfl, List.forall_mem_nil _⟩
  · have hnone : ¬∃ e, Expr.parse [] text = .ok e := by
      rintro ⟨e, he⟩
      cases (validate_of_parse he).symm.trans hvalidate
    rw [hvalidate, ← String.length_toList]
    exact ⟨iff_of_false Bool.false_ne_true hnone, iff_of_false herrors Bool.false_ne_true, hinside⟩

end Calculator.Validation
