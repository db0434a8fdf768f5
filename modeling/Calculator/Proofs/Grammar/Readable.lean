import Calculator.Expr.Parser
import Calculator.Proofs.Except
/-!
Parsing never fails by a number or a constant, where these can be read: every rule that fails on such tokens fails
otherwise, and a rule that does not fail leaves some of the tokens for the next one.
-/
namespace Calculator

/-- The error says of the text of a number, or of a constant, that it cannot be read. -/
def ParseError.unreadable : ParseError → Bool
  | invalidNumber _ | unknownConstant _ => true
  | _ => false

/-- If the token is a number or a constant, its text can be read. -/
structure Token.Readable (t : Token) : Prop where
  number : t.kind = .number → ∃ x, Binary64.read? t.text = some x
  constant : t.kind = .constant → ∃ c, Constant.ofName? t.text = some c

namespace Expr.Parser

section
variable {α β : Type} {m n : Nat} {ts : List Token}

/-- Reading leaves some of the tokens, or fails otherwise than by a text that cannot be read. -/
structure Reads (ts : List Token) (r : Except ParseError (Parsed α n)) : Prop where
  error : ∀ error, r = .error error → error.unreadable = false
  rest : ∀ p, r = .ok p → p.rest ⊆ ts

theorem reads_ok {p : Parsed α n} (h : p.rest ⊆ ts) : Reads ts (.ok p) where
  error _ herror := by cases herror
  rest q hq := by
    cases hq
    exact h

theorem reads_error {error : ParseError} (h : error.unreadable = false) :
    Reads ts (.error error : Except ParseError (Parsed α n)) where
  error other hother := by
    cases hother
    exact h
  rest _ hp := by cases hp

/-- What goes on with the tokens that are left. -/
theorem Reads.bind {r : Except ParseError (Parsed α n)} {f : Parsed α n → Except ParseError (Parsed β m)}
    (h : Reads ts r) (hf : ∀ p, p.rest ⊆ ts → Reads p.rest (f p)) : Reads ts (r >>= f) where
  error error herror := by
    rcases bind_eq_error.mp herror with herror | ⟨p, hp, herror⟩
    · exact h.error error herror
    · exact (hf p (h.rest p hp)).error error herror
  rest q hq := by
    obtain ⟨p, hp, hq⟩ := bind_eq_ok.mp hq
    have hrest := h.rest p hp
    exact List.Subset.trans ((hf p hrest).rest q hq) hrest

theorem Reads.weaken {r : Except ParseError (Parsed α m)} (h : Reads ts r) (hle : m ≤ n) :
    Reads ts (do let p ← r; .ok (p.weaken hle) : Except ParseError (Parsed α n)) :=
  h.bind fun _ _ => reads_ok (List.Subset.refl _)

theorem Reads.mono {us : List Token} {r : Except ParseError (Parsed α n)} (h : Reads us r) (hsub : us ⊆ ts) :
    Reads ts r where
  error := h.error
  rest p hp := List.Subset.trans (h.rest p hp) hsub

/-- A tree that is too high is no matter of texts. -/
theorem reads_bounded {limit : Nat} {e : Expr} {f : Expr → Except ParseError (Parsed β m)}
    (hf : ∀ tree, Reads ts (f tree)) : Reads ts (bounded limit e >>= f) := by
  unfold bounded
  split
  · exact hf e
  · exact reads_error rfl

end

/-- The rule reads tokens whose texts can be read. -/
def ReadsAll (rule : Rule) : Prop := ∀ ts, (∀ t ∈ ts, t.Readable) → Reads ts (rule ts)

theorem forall_readable_of_subset {ts us : List Token} (h : ∀ t ∈ ts, t.Readable) (hsub : us ⊆ ts) :
    ∀ t ∈ us, t.Readable := fun t ht => h t (hsub ht)

section
variable {limit : Nat} {inner innerUnary innerFactor operand : Rule} {ts : List Token}

theorem reads_closing (ts : List Token) : Reads ts (closing ts) := by
  cases ts with
  | nil => exact reads_error rfl
  | cons t rest =>
    rw [closing]
    split
    · exact reads_ok (List.subset_cons_self t rest)
    · exact reads_error rfl

theorem reads_moreArguments (hinner : ReadsAll inner) {ts : List Token} (hts : ∀ t ∈ ts, t.Readable) :
    Reads ts (moreArguments inner ts) := by
  match ts with
  | [] =>
    rw [moreArguments]
    exact reads_ok (List.Subset.refl [])
  | t :: rest =>
    have hrest : ∀ u ∈ rest, u.Readable := (List.forall_mem_cons.mp hts).2
    rw [moreArguments]
    split
    · refine ((hinner rest hrest).bind fun first hfirst => ?_).mono (List.subset_cons_self t rest)
      have hlt : first.rest.length < (t :: rest).length := Nat.lt_succ_of_lt first.rest_lt
      refine (reads_moreArguments hinner (forall_readable_of_subset hrest hfirst)).bind fun others _ => ?_
      exact reads_ok (List.Subset.refl _)
    · exact reads_ok (List.Subset.refl _)
termination_by ts.length
decreasing_by exact hlt

theorem reads_arguments (hinner : ReadsAll inner) (hts : ∀ t ∈ ts, t.Readable) : Reads ts (arguments inner ts) := by
  cases ts with
  | nil => exact (hinner [] hts).bind fun first _ => reads_ok (List.Subset.refl _)
  | cons t rest =>
    rw [arguments]
    split
    · exact reads_ok (List.Subset.refl _)
    · refine (hinner _ hts).bind fun first hfirst => ?_
      refine (reads_moreArguments hinner (forall_readable_of_subset hts hfirst)).bind fun others _ => ?_
      exact reads_ok (List.Subset.refl _)

theorem reads_call (hinner : ReadsAll inner) (name : Token) (hts : ∀ t ∈ ts, t.Readable) :
    Reads ts (call limit inner name ts) := by
  cases ts with
  | nil => exact reads_error rfl
  | cons t rest =>
    rw [call]
    split
    · refine ((reads_arguments hinner (List.forall_mem_cons.mp hts).2).bind fun args _ => ?_).mono
        (List.subset_cons_self t rest)
      refine (reads_closing args.rest).bind fun close _ => ?_
      exact reads_bounded fun tree => reads_ok (List.Subset.refl _)
    · exact reads_error rfl

theorem reads_primary (hinner : ReadsAll inner) : ReadsAll (primary limit inner) := by
  intro ts hts
  cases ts with
  | nil => exact reads_error rfl
  | cons t rest =>
    obtain ⟨ht, hrest⟩ := List.forall_mem_cons.mp hts
    have hleft : rest ⊆ t :: rest := List.subset_cons_self t rest
    cases hkind : t.kind with
    | number =>
      obtain ⟨x, hx⟩ := ht.number hkind
      simp only [primary, hkind, hx]
      exact reads_ok hleft
    | constant =>
      obtain ⟨c, hc⟩ := ht.constant hkind
      simp only [primary, hkind, hc]
      exact reads_ok hleft
    | variableName =>
      simp only [primary, hkind]
      exact reads_ok hleft
    | function =>
      simp only [primary, hkind]
      exact ((reads_call hinner t hrest).weaken (Nat.le_succ _)).mono hleft
    | lparen =>
      simp only [primary, hkind]
      refine ((hinner rest hrest).bind fun tree _ => ?_).mono hleft
      exact (reads_closing tree.rest).bind fun close _ => reads_ok (List.Subset.refl _)
    | operator | rparen | comma =>
      simp only [primary, hkind]
      exact reads_error rfl

theorem reads_factorials (base : Expr) (ts : List Token) : Reads ts (factorials limit base ts) := by
  induction ts generalizing base with
  | nil => exact reads_ok (List.Subset.refl [])
  | cons t rest ih =>
    rw [factorials]
    split
    · exact reads_bounded fun tree => ((ih tree).weaken (Nat.le_succ _)).mono (List.subset_cons_self t rest)
    · exact reads_ok (List.Subset.refl _)

theorem reads_postfixed (hinner : ReadsAll inner) : ReadsAll (postfixed limit inner) := by
  intro ts hts
  refine (reads_primary hinner ts hts).bind fun base _ => ?_
  exact (reads_factorials base.value base.rest).weaken base.rest_lt

theorem reads_unary (hinner : ReadsAll inner) (hunary : ReadsAll innerUnary) :
    ReadsAll (unary limit inner innerUnary) := by
  intro ts hts
  cases ts with
  | nil => exact reads_postfixed hinner [] hts
  | cons t rest =>
    rw [unary]
    split
    · refine ((hunary rest (List.forall_mem_cons.mp hts).2).bind fun base _ => ?_).mono (List.subset_cons_self t rest)
      exact reads_bounded fun tree => reads_ok (List.Subset.refl _)
    · exact reads_postfixed hinner _ hts

theorem reads_exponent (hfactor : ReadsAll innerFactor) (base : Expr) (hts : ∀ t ∈ ts, t.Readable) :
    Reads ts (exponent limit innerFactor base ts) := by
  cases ts with
  | nil => exact reads_ok (List.Subset.refl [])
  | cons t rest =>
    rw [exponent]
    split
    · refine ((hfactor rest (List.forall_mem_cons.mp hts).2).bind fun power _ => ?_).mono
        (List.subset_cons_self t rest)
      exact reads_bounded fun tree => reads_ok (List.Subset.refl _)
    · exact reads_ok (List.Subset.refl _)

theorem reads_factor (hoperand : ReadsAll operand) (hfactor : ReadsAll innerFactor) :
    ReadsAll (factor limit operand innerFactor) := by
  intro ts hts
  refine (hoperand ts hts).bind fun base hbase => ?_
  exact (reads_exponent hfactor base.value (forall_readable_of_subset hts hbase)).weaken base.rest_lt

theorem reads_chain (ops : List BinaryOp) (hoperand : ReadsAll operand) (left : Expr) {ts : List Token}
    (hts : ∀ t ∈ ts, t.Readable) : Reads ts (chain limit ops operand left ts) := by
  match ts with
  | [] =>
    rw [chain]
    exact reads_ok (List.Subset.refl [])
  | t :: rest =>
    have hrest : ∀ u ∈ rest, u.Readable := (List.forall_mem_cons.mp hts).2
    rw [chain]
    split
    · refine ((hoperand rest hrest).bind fun right hright => ?_).mono (List.subset_cons_self t rest)
      have hlt : right.rest.length < (t :: rest).length := Nat.lt_succ_of_lt right.rest_lt
      refine reads_bounded fun tree => ?_
      exact (reads_chain ops hoperand tree (forall_readable_of_subset hrest hright)).weaken _
    · exact reads_ok (List.Subset.refl _)
termination_by ts.length
decreasing_by exact hlt

theorem reads_joinedBy (ops : List BinaryOp) (hoperand : ReadsAll operand) :
    ReadsAll (joinedBy limit ops operand) := by
  intro ts hts
  refine (hoperand ts hts).bind fun left hleft => ?_
  exact (reads_chain ops hoperand left.value (forall_readable_of_subset hts hleft)).weaken left.rest_lt

end

/-- All rules of a level read tokens whose texts can be read. -/
structure RulesRead (r : Rules) : Prop where
  expression : ReadsAll r.expression
  factor : ReadsAll r.factor
  unary : ReadsAll r.unary

theorem rulesRead_exhausted : RulesRead Rules.exhausted :=
  ⟨fun _ _ => reads_error rfl, fun _ _ => reads_error rfl, fun _ _ => reads_error rfl⟩

theorem RulesRead.around {r : Rules} (h : RulesRead r) (limit : Nat) : RulesRead (r.around limit) := by
  have hunary : ReadsAll (r.around limit).unary := reads_unary h.expression h.unary
  have hfactor : ReadsAll (r.around limit).factor := reads_factor hunary h.factor
  exact ⟨reads_joinedBy _ (reads_joinedBy _ hfactor), hfactor, hunary⟩

theorem rulesRead_rules (limit levels : Nat) : RulesRead (rules limit levels) := by
  induction levels with
  | zero => exact rulesRead_exhausted.around limit
  | succ levels ih => exact ih.around limit

end Expr.Parser

/-- Parsing tokens whose texts can be read does not fail by one that cannot. -/
theorem Expr.readable_of_ofTokens {ts : List Token} (hts : ∀ t ∈ ts, t.Readable) {error : ParseError}
    (h : Expr.ofTokens ts = .error error) : error.unreadable = false := by
  have hreads := (Parser.rulesRead_rules maxDepth maxDepth).expression ts hts
  unfold Expr.ofTokens at h
  cases ts with
  | nil =>
    cases h
    rfl
  | cons t rest =>
    rcases bind_eq_error.mp h with h | ⟨p, hp, h⟩
    · exact hreads.error error h
    · cases hrest : p.rest with
      | nil =>
        rw [hrest] at h
        cases h
      | cons u us =>
        rw [hrest] at h
        cases h
        rfl

end Calculator
