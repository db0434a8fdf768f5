import Calculator.Proofs.Printing.Derivation
/-!
Reading what is printed gives the tree back, apart from places. The levels of a derivation do not grow when the tree
is printed, so neither limit can be met anew.
-/
namespace Calculator.Expr
open Grammar Token

theorem height_eq_of_unplaced_eq {e f : Expr} (h : e.unplaced = f.unplaced) : e.height = f.height := by
  rw [← height_unplaced e, ← height_unplaced f, h]

/-- A printed tree derives again, as an expression, within the levels of the tokens that it came from. -/
theorem Grammar.Derives.derives_print {functions : List String} (hfunctions : ∀ c : Constant, c.name ∉ functions)
    {text : String} {n : Nat} {e : Expr} (h : Derives .expression n (tokenize functions text) e) :
    ∃ n' e', Derives .expression n' (tokenize functions e.print) e' ∧ e'.unplaced = e.unplaced ∧ n' ≤ n := by
  have hlegible := h.legible hfunctions fun t ht => spelled_of_mem_tokenize hfunctions ht
  obtain ⟨n', e', hderives, hsame, hle, -⟩ := h.rewrites _ hlegible.tokenize_print
  exact ⟨n', e', hderives.loosen (Nat.zero_le _), hsame, hle⟩

theorem parse_print (functions : List String) (hfunctions : ∀ c : Constant, c.name ∉ functions) (text : String)
    (e : Expr) (h : parse functions text = .ok e) :
    ∃ e', parse functions e.print = .ok e' ∧ e'.unplaced = e.unplaced ∧ e'.print = e.print := by
  obtain ⟨n, hderives, hlevels, hheight⟩ := ofTokens_eq_ok_iff.mp h
  obtain ⟨n', e', hderives', hsame, hle⟩ := hderives.derives_print hfunctions
  have hheight' : e'.height ≤ maxDepth := height_eq_of_unplaced_eq hsame ▸ hheight
  have hread : parse functions e.print = .ok e' :=
    ofTokens_eq_ok_iff.mpr ⟨n', hderives', Nat.le_trans hle hlevels, hheight'⟩
  exact ⟨e', hread, hsame, print_eq_of_unplaced_eq hsame⟩

theorem parse_print_difference :
    ∃ e, parse ["f"] "x-(f(y)-pi)!" = .ok e ∧ e.print = "x - (f(y) - pi)!" ∧
      ∃ e', parse ["f"] e.print = .ok e' ∧ e'.unplaced = e.unplaced ∧ e'.print = e.print := by
  have hprint : (parse ["f"] "x-(f(y)-pi)!").toOption.map print = some "x - (f(y) - pi)!" := by decide +kernel
  have hfunctions : ∀ c : Constant, c.name ∉ ["f"] := by
    intro c
    cases c <;> decide
  cases hread : parse ["f"] "x-(f(y)-pi)!" with
  | error err =>
    rw [hread] at hprint
    cases hprint
  | ok e =>
    rw [hread] at hprint
    exact ⟨e, rfl, Option.some.inj hprint, parse_print ["f"] hfunctions _ e hread⟩

end Calculator.Expr
