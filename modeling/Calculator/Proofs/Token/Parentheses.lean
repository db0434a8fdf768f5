import Calculator.Proofs.Grammar.Outcome
import Calculator.Proofs.Grammar
import Calculator.Proofs.Token.Words
/-!
Parentheses in a text and in its tokens: they are the same ones, in the same order, since no other token holds one and
none is dropped. What the grammar derives leaves as many parentheses open as there were before it.
-/
namespace Calculator

/-- A parenthesis, by the way it faces. -/
inductive Parenthesis
  | opening | closing
deriving DecidableEq, Repr

namespace Parenthesis

def ofChar? (c : Char) : Option Parenthesis :=
  if c = '(' then some .opening else if c = ')' then some .closing else none

def ofKind? : Token.Kind → Option Parenthesis
  | .lparen => some .opening
  | .rparen => some .closing
  | _ => none

/-- The parentheses of a text. -/
def ofChars (cs : List Char) : List Parenthesis := cs.filterMap ofChar?

/-- The parentheses among tokens. -/
def ofTokens (ts : List Token) : List Parenthesis := ts.filterMap fun t => ofKind? t.kind

/-- How many parentheses are open behind some, of which `depth` were open before; none if one closes nothing. -/
def depthAfter : Nat → List Parenthesis → Option Nat
  | depth, [] => some depth
  | depth, .opening :: ps => depthAfter (depth + 1) ps
  | depth + 1, .closing :: ps => depthAfter depth ps
  | 0, .closing :: _ => none

/-! ### From the text to its tokens -/

theorem ofChars_cons_of_none {c : Char} (h : ofChar? c = none) (cs : List Char) : ofChars (c :: cs) = ofChars cs :=
  List.filterMap_cons_none h

theorem ofTokens_cons_of_none {t : Token} (h : ofKind? t.kind = none) (ts : List Token) :
    ofTokens (t :: ts) = ofTokens ts :=
  List.filterMap_cons_none h

theorem ofChars_append (cs ds : List Char) : ofChars (cs ++ ds) = ofChars cs ++ ofChars ds := List.filterMap_append

theorem ofTokens_append (ts us : List Token) : ofTokens (ts ++ us) = ofTokens ts ++ ofTokens us := List.filterMap_append

/-- Characters without parentheses do not matter in front of a text. -/
theorem ofChars_of_prefix {cs rest : List Char} (h : ∀ c ∈ cs, ofChar? c = none) : ofChars (cs ++ rest) = ofChars rest := by
  rw [ofChars_append, ofChars, List.filterMap_eq_nil_iff.mpr h, List.nil_append]

/-- Only the parentheses themselves have these classes of tokens. -/
theorem ofKind?_kindOfChar? (c : Char) : (Token.kindOfChar? c).bind ofKind? = ofChar? c := by
  unfold Token.kindOfChar? ofChar?
  by_cases hopen : c = '('
  · rw [if_pos hopen, if_pos hopen]
    rfl
  by_cases hclose : c = ')'
  · rw [if_neg hopen, if_neg hopen, if_pos hclose, if_pos hclose]
    rfl
  rw [if_neg hopen, if_neg hopen, if_neg hclose, if_neg hclose]
  split
  · rfl
  · split <;> rfl

/-- A character of a class that neither parenthesis is in. -/
theorem ofChar?_of_class {P : Char → Bool} (hopen : P '(' = false) (hclose : P ')' = false) {c : Char}
    (h : P c = true) : ofChar? c = none := by
  have hne : c ≠ '(' := by
    rintro rfl
    rw [hopen] at h
    cases h
  have hne' : c ≠ ')' := by
    rintro rfl
    rw [hclose] at h
    cases h
  rw [ofChar?, if_neg hne, if_neg hne']

theorem ofChar?_of_numeral {cs : List Char} (h : Token.Numeral cs) : ∀ c ∈ cs, ofChar? c = none := by
  intro c hc
  rcases Token.mem_numeral h hc with hdigit | hmem
  · exact ofChar?_of_class (by decide) (by decide) hdigit
  · have hall : ∀ d ∈ ['.', 'e', 'E', '+', '-'], ofChar? d = none := by simp [ofChar?]
    exact hall c hmem

end Parenthesis

namespace Token

theorem fractionPart_isPrefix (cs : List Char) : fractionPart cs <+: cs := by
  unfold fractionPart
  split
  · exact (List.cons_prefix_cons ..).mpr ⟨rfl, List.takeWhile_prefix _⟩
  · exact List.nil_prefix

theorem exponentPart_isPrefix (cs : List Char) : exponentPart cs <+: cs := by
  unfold exponentPart
  split
  · split
    · split
      · split
        · exact (List.cons_prefix_cons ..).mpr ⟨rfl, (List.cons_prefix_cons ..).mpr ⟨rfl, List.takeWhile_prefix _⟩⟩
        split
        · exact (List.cons_prefix_cons ..).mpr ⟨rfl, List.takeWhile_prefix _⟩
        · exact List.nil_prefix
      · exact List.nil_prefix
    · exact List.nil_prefix
  · exact List.nil_prefix

theorem isPrefix_append {as bs cs : List Char} (has : as <+: cs) (hbs : bs <+: cs.drop as.length) : as ++ bs <+: cs := by
  obtain ⟨rest, rfl⟩ := has
  rw [List.drop_left] at hbs
  exact (List.prefix_append_right_inj as).mpr hbs

/-- A numeral is cut off from the head of the text. -/
theorem numeral_isPrefix (cs : List Char) : numeral cs <+: cs := by
  unfold numeral
  refine isPrefix_append (isPrefix_append (List.takeWhile_prefix _) (fractionPart_isPrefix _)) ?_
  rw [List.length_append]
  exact exponentPart_isPrefix _

theorem kind_ofName (functions : List String) (name : String) (position : Nat) :
    (ofName functions name position).kind = .function ∨ (ofName functions name position).kind = .constant ∨
      (ofName functions name position).kind = .variableName := by
  unfold ofName
  split
  · exact .inl rfl
  split
  · exact .inl rfl
  split
  · exact .inr (.inl rfl)
  · exact .inr (.inr rfl)

end Token

namespace Parenthesis

/-- What a token takes from the text besides its first character is found in front of what is left. -/
theorem ofChars_drop {cs taken : List Char} (htaken : taken <+: cs) (h : ∀ c ∈ taken, ofChar? c = none) :
    ofChars (cs.drop taken.length) = ofChars cs := by
  obtain ⟨rest, rfl⟩ := htaken
  rw [List.drop_left, ofChars_of_prefix h]

/-- The tokens have the parentheses of the text. -/
theorem ofTokens_scan (functions : List String) (position : Nat) (cs : List Char) :
    ofTokens (Token.scan functions position cs) = ofChars cs := by
  fun_induction Token.scan functions position cs with
  | case1 => rfl
  | case2 position c cs hblank ih =>
    rw [ih, ofChars_cons_of_none (ofChar?_of_class (by decide) (by decide) hblank)]
  | case3 position c cs hblank hnumeral text ih =>
    have hchars := ofChar?_of_numeral (Token.numeral_numeral hnumeral)
    have hgrown := Token.numeral_isPrefix (c :: cs)
    rw [← Token.numeral_cons hnumeral] at hchars hgrown
    obtain ⟨hc, htail⟩ := List.forall_mem_cons.mp hchars
    rw [ofTokens_cons_of_none rfl, ih, ofChars_cons_of_none hc]
    exact ofChars_drop (List.cons_prefix_cons.mp hgrown).2 htail
  | case4 position c cs hblank hnumeral hname text ih =>
    have hkind : ofKind? (Token.ofName functions (String.ofList text) position).kind = none := by
      rcases Token.kind_ofName functions (String.ofList text) position with h | h | h <;> rw [h] <;> rfl
    have htail : ∀ d ∈ cs.takeWhile Token.continuesName, ofChar? d = none := fun d hd =>
      ofChar?_of_class (by decide) (by decide) (List.all_eq_true.mp List.all_takeWhile d hd)
    rw [ofTokens_cons_of_none hkind, ih, ofChars_cons_of_none (ofChar?_of_class (by decide) (by decide) hname)]
    exact ofChars_drop (List.takeWhile_prefix _) htail
  | case5 position c cs hblank hnumeral hname kind hkind ih =>
    have hsymbol := ofKind?_kindOfChar? c
    rw [hkind, Option.bind_some] at hsymbol
    rw [ofTokens, List.filterMap_cons, ofChars, List.filterMap_cons, hsymbol]
    cases ofChar? c with
    | none => exact ih
    | some side => exact congrArg (side :: ·) ih
  | case6 position c cs hblank hnumeral hname hkind ih =>
    have hsymbol := ofKind?_kindOfChar? c
    rw [hkind, Option.bind_none] at hsymbol
    rw [ih, ofChars_cons_of_none hsymbol.symm]

/-- Products that are not written have no parentheses. -/
theorem ofTokens_withProducts (ts : List Token) : ofTokens (Token.withProducts ts) = ofTokens ts := by
  fun_induction Token.withProducts ts with
  | case1 => rfl
  | case2 => rfl
  | case3 t u rest h ih =>
    rw [ofTokens, List.filterMap_cons, ← ofTokens, ofTokens_cons_of_none rfl, ih]
    rfl
  | case4 t u rest h ih =>
    rw [ofTokens, List.filterMap_cons, ← ofTokens, ih]
    rfl

/-! ### Derivations -/

/-- The parentheses pair up: behind them as many are open as before. -/
def Paired (ps : List Parenthesis) : Prop := ∀ depth rest, depthAfter depth (ps ++ rest) = depthAfter depth rest

theorem paired_nil : Paired [] := fun _ _ => rfl

theorem Paired.append {ps qs : List Parenthesis} (hps : Paired ps) (hqs : Paired qs) : Paired (ps ++ qs) := by
  intro depth rest
  rw [List.append_assoc, hps, hqs]

theorem Paired.around {ps : List Parenthesis} (h : Paired ps) : Paired (.opening :: (ps ++ [.closing])) := by
  intro depth rest
  rw [List.cons_append, depthAfter, List.append_assoc, h]
  rfl

theorem paired_single {t : Token} (h : ofKind? t.kind = none) : Paired (ofTokens [t]) := by
  rw [ofTokens_cons_of_none h]
  exact paired_nil

/-- Tokens that pair up, around one that is not a parenthesis. -/
theorem paired_around {t : Token} {ts us : List Token} (h : ofKind? t.kind = none) (hts : Paired (ofTokens ts))
    (hus : Paired (ofTokens us)) : Paired (ofTokens (ts ++ t :: us)) := by
  rw [ofTokens_append, ofTokens_cons_of_none h]
  exact hts.append hus

theorem paired_parenthesized {opening closing : Token} {ts : List Token} (hopen : opening.kind = .lparen)
    (hclose : closing.kind = .rparen) (h : Paired (ofTokens ts)) : Paired (ofTokens (opening :: (ts ++ [closing]))) := by
  have hvalue : ofTokens (opening :: (ts ++ [closing])) = .opening :: (ofTokens ts ++ [.closing]) := by
    rw [ofTokens, List.filterMap_cons, hopen, List.filterMap_append, List.filterMap_cons, hclose]
    rfl
  rw [hvalue]
  exact h.around

theorem paired_separated {args : List Expr.Grammar.Argument} {ts : List Token} (h : Expr.Grammar.Separated args ts)
    (hargs : ∀ a ∈ args, Paired (ofTokens a.tokens)) : Paired (ofTokens ts) := by
  induction h with
  | nil => exact paired_nil
  | single a => exact hargs a (List.mem_singleton_self a)
  | cons hcomma _ ih =>
    obtain ⟨ha, hrest⟩ := List.forall_mem_cons.mp hargs
    exact paired_around (by rw [hcomma]; rfl) ha (ih hrest)

theorem ofKind?_operator {t : Token} {c : Char} (h : t.isOperator c = true) : ofKind? t.kind = none := by
  rw [(Expr.Parser.isOperator_iff.mp h).1]
  rfl

/-- Parentheses pair up in what the grammar derives. -/
theorem paired_of_derives {phrase : Expr.Grammar.Phrase} {n : Nat} {ts : List Token} {e : Expr}
    (h : Expr.Grammar.Derives phrase n ts e) : Paired (ofTokens ts) := by
  induction h with
  | number hkind _ => exact paired_single (by rw [hkind]; rfl)
  | constant hkind _ => exact paired_single (by rw [hkind]; rfl)
  | free hkind => exact paired_single (by rw [hkind]; rfl)
  | call hname hopen hclose hts _ ih =>
    rw [ofTokens_cons_of_none (by rw [hname]; rfl)]
    exact paired_parenthesized hopen hclose (paired_separated hts ih)
  | parenthesized hopen hclose _ ih => exact paired_parenthesized hopen hclose ih
  | ofPrimary _ ih | ofPostfixed _ ih | ofUnary _ ih | ofFactor _ ih | ofTerm _ ih => exact ih
  | factorial _ hbang ih => exact paired_around (ofKind?_operator hbang) ih paired_nil
  | sign _ ht _ ih =>
    rw [ofTokens_cons_of_none (ofKind?_operator ht)]
    exact ih
  | power _ ht _ ihl ihr => exact paired_around (ofKind?_operator ht) ihl ihr
  | product _ _ ht _ ihl ihr => exact paired_around (ofKind?_operator ht) ihl ihr
  | sum _ _ ht _ ihl ihr => exact paired_around (ofKind?_operator ht) ihl ihr

end Parenthesis
end Calculator
