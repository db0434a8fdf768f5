import Calculator.Proofs.Grammar
import Calculator.Proofs.Printing.Unplaced
import Calculator.Proofs.Token.Words
/-!
The words of a printed tree. The scanner finds them again, one by one, and adds no product to them.
-/
namespace Calculator.Expr
open Token

/-- The word of an operator. -/
def operatorWord (symbol : Char) : Word := (.operator, String.singleton symbol)

/-- The words, in parentheses if they are needed. -/
def wordsInParens (needed : Bool) (words : List Word) : List Word :=
  if needed then (.lparen, "(") :: words ++ [(.rparen, ")")] else words

/-- The words with a comma between them. -/
def wordsSeparated (texts : List (List Word)) : List Word :=
  [(Kind.comma, ",")].intercalate texts

mutual
/-- The words of the tree, as it is printed. A reader builds neither matrices nor complex numbers. -/
def words : Expr → List Word
  | number _ raw _ => [(.number, raw)]
  | constant c _ => [(.constant, c.name)]
  | free name _ => [(.variableName, name)]
  | unary op e _ =>
    let operand := wordsInParens (needsUnaryParens op e) e.words
    if op.standsBehind then operand ++ [operatorWord op.symbol] else operatorWord op.symbol :: operand
  | binary op l r _ =>
    wordsInParens (needsParens op false l) l.words ++ operatorWord op.symbol ::
      wordsInParens (needsParens op true r) r.words
  | call name args _ => (.function, name) :: wordsInParens true (wordsSeparated (wordsList args))
  | matrix _ _ | complex _ _ _ => []
/-- The words of each tree. -/
def wordsList : List Expr → List (List Word)
  | [] => []
  | e :: es => e.words :: wordsList es
end

theorem wordsList_eq_map (es : List Expr) : wordsList es = es.map words := by
  induction es with
  | nil => rfl
  | cons e es ih => rw [wordsList, List.map_cons, ih]

/-- A tree whose names and literals the scanner can find again. -/
inductive Legible (functions : List String) : Expr → Prop
  | number {value : Float} {raw : String} {span : Span} (hraw : Spelled functions (.number, raw)) :
      Legible functions (.number value raw span)
  | constant {c : Constant} {span : Span} (hname : Spelled functions (.constant, c.name)) :
      Legible functions (.constant c span)
  | free {name : String} {span : Span} (hname : Spelled functions (.variableName, name)) :
      Legible functions (.free name span)
  | unary {op : UnaryOp} {e : Expr} {span : Span} (he : Legible functions e) : Legible functions (.unary op e span)
  | binary {op : BinaryOp} {l r : Expr} {span : Span} (hl : Legible functions l) (hr : Legible functions r) :
      Legible functions (.binary op l r span)
  | call {name : String} {args : List Expr} {span : Span} (hname : Spelled functions (.function, name))
      (hargs : ∀ e ∈ args, Legible functions e) : Legible functions (.call name args span)

/-- What is derived from tokens that the scanner spells is legible. -/
theorem Grammar.Derives.legible {functions : List String} (hfunctions : ∀ c : Constant, c.name ∉ functions)
    {p : Grammar.Phrase} {n : Nat} {ts : List Token} {e : Expr} (h : Grammar.Derives p n ts e)
    (hts : ∀ t ∈ ts, Spelled functions t.word) : Legible functions e := by
  induction h with
  | @number t _ hkind _ =>
    have hspelled := hts t List.mem_cons_self
    rw [word, hkind] at hspelled
    exact .number hspelled
  | constant => exact .constant (spelled_constant hfunctions _)
  | @free t hkind =>
    have hspelled := hts t List.mem_cons_self
    rw [word, hkind] at hspelled
    exact .free hspelled
  | @call name _ _ args ts hname _ _ hsep _ ih =>
    have hspelled := hts name List.mem_cons_self
    rw [word, hname] at hspelled
    refine .call hspelled fun e he => ?_
    obtain ⟨a, ha, rfl⟩ := List.mem_map.mp he
    refine ih a ha fun t ht => hts t ?_
    simp only [List.mem_cons, List.mem_append]
    exact .inr (.inr (.inl (hsep.mem ha ht)))
  | parenthesized _ _ _ ih => exact ih fun t ht => hts t (by simp [ht])
  | ofPrimary _ ih | ofPostfixed _ ih | ofUnary _ ih | ofFactor _ ih | ofTerm _ ih => exact ih hts
  | factorial _ _ ih => exact .unary (ih fun t ht => hts t (by simp [ht]))
  | sign _ _ _ ih => exact .unary (ih fun t ht => hts t (by simp [ht]))
  | power _ _ _ ihl ihr | product _ _ _ _ ihl ihr | sum _ _ _ _ ihl ihr =>
    exact .binary (ihl fun t ht => hts t (by simp [ht])) (ihr fun t ht => hts t (by simp [ht]))

/-! ### Scanning what is printed -/

theorem kindOfChar?_binary (op : BinaryOp) : kindOfChar? op.symbol = some .operator := by
  cases op <;> decide

theorem kindOfChar?_unary (op : UnaryOp) : kindOfChar? op.symbol = some .operator := by
  cases op <;> decide

section
variable {functions : List String}

/-- The scanner finds the words in the text, whatever delimits it. -/
def Scans (functions : List String) (text : List Char) (words : List Word) : Prop :=
  ∀ rest, Delimited rest → scanWords functions (text ++ rest) = words ++ scanWords functions rest

theorem Scans.inParens {text : List Char} {words : List Word} (h : Scans functions text words) (needed : Bool) :
    Scans functions (Expr.inParens needed text) (wordsInParens needed words) := by
  cases needed with
  | false => exact h
  | true =>
    intro rest _
    have hopen : kindOfChar? '(' = some .lparen := by decide
    have hclose : kindOfChar? ')' = some .rparen := by decide
    have hread := h (')' :: rest) (delimited_cons rest (by decide))
    simp only [Expr.inParens, wordsInParens, if_true, List.cons_append, List.append_assoc, List.nil_append]
    rw [scanWords_symbol functions hopen, hread, scanWords_symbol functions hclose]
    rfl

theorem scans_separated {es : List Expr} (h : ∀ e ∈ es, Scans functions e.chars e.words) :
    Scans functions (commaSeparated (charsList es)) (wordsSeparated (wordsList es)) := by
  induction es with
  | nil => exact fun rest _ => rfl
  | cons e es ih =>
    obtain ⟨he, hes⟩ := List.forall_mem_cons.mp h
    cases es with
    | nil =>
      simpa [commaSeparated, wordsSeparated, charsList, wordsList, List.intercalate] using he
    | cons f es =>
      intro rest hrest
      have hcomma : kindOfChar? ',' = some .comma := by decide
      have hread := ih hes rest hrest
      have hhead := he (',' :: ' ' :: (commaSeparated (charsList (f :: es)) ++ rest)) (delimited_cons _ (by decide))
      have hchars : commaSeparated (charsList (e :: f :: es)) ++ rest =
          e.chars ++ ',' :: ' ' :: (commaSeparated (charsList (f :: es)) ++ rest) := by
        simp [commaSeparated, charsList, List.intercalate]
      have hwords : wordsSeparated (wordsList (e :: f :: es)) =
          e.words ++ (.comma, ",") :: wordsSeparated (wordsList (f :: es)) := by
        simp [wordsSeparated, wordsList, List.intercalate]
      rw [hchars, hwords, hhead, scanWords_symbol functions hcomma, scanWords_blank functions (by decide), hread,
        List.append_assoc]
      rfl

theorem Legible.scans {e : Expr} (h : Legible functions e) : Scans functions e.chars e.words := by
  induction h with
  | @number value raw span hraw =>
    intro rest hrest
    rw [chars, words, scanWords_numeral functions hraw hrest, String.ofList_toList]
    rfl
  | @constant c span hname =>
    intro rest hrest
    rw [chars, words, scanWords_name functions hname.1 hrest, String.ofList_toList, hname.2]
    rfl
  | @free name span hname =>
    intro rest hrest
    rw [chars, words, scanWords_name functions hname.1 hrest, String.ofList_toList, hname.2]
    rfl
  | @unary op e span _ ih =>
    intro rest hrest
    have hoperand := ih.inParens (needsUnaryParens op e)
    have hsymbol := kindOfChar?_unary op
    rw [chars, words]
    cases hbehind : op.standsBehind with
    | true =>
      have hread := hoperand (op.symbol :: rest) (delimited_cons rest (by cases op <;> decide))
      simp only [if_true, List.append_assoc, List.cons_append, List.nil_append]
      rw [hread, scanWords_symbol functions hsymbol]
      rfl
    | false =>
      simp only [Bool.false_eq_true, if_false, List.cons_append]
      rw [scanWords_symbol functions hsymbol, hoperand rest hrest]
      rfl
  | @binary op l r span _ _ ihl ihr =>
    intro rest hrest
    have hspace : Text.isBlank ' ' = true := by decide
    have hleft := ihl.inParens (needsParens op false l)
      (' ' :: op.symbol :: ' ' :: (inParens (needsParens op true r) r.chars ++ rest)) (delimited_cons _ (by decide))
    have hright := ihr.inParens (needsParens op true r) rest hrest
    rw [chars, words]
    simp only [List.append_assoc, List.cons_append]
    rw [hleft, scanWords_blank functions hspace, scanWords_symbol functions (kindOfChar?_binary op),
      scanWords_blank functions hspace, hright]
    rfl
  | @call name args span hname _ ih =>
    intro rest hrest
    have hargs := (scans_separated ih).inParens true rest hrest
    have hdelimited : Delimited (inParens true (commaSeparated (charsList args)) ++ rest) :=
      delimited_cons _ (by decide)
    rw [chars, words, List.append_assoc, scanWords_name functions hname.1 hdelimited, String.ofList_toList, hname.2,
      hargs]
    rfl

/-! ### No product is added -/

theorem isChain_cons_apart {v : Word} {ws : List Word} (hv : v.1 ∉ [Kind.number, .rparen, .variableName, .constant])
    (hws : ws.IsChain Apart) : (v :: ws).IsChain Apart :=
  List.isChain_cons.mpr ⟨fun _ _ => .inl hv, hws⟩

theorem isChain_append_apart {vs ws : List Word} {w : Word}
    (hw : w.1 ∉ [Kind.lparen, .function, .variableName, .constant]) (hvs : vs.IsChain Apart)
    (hws : (w :: ws).IsChain Apart) : (vs ++ w :: ws).IsChain Apart := by
  refine List.isChain_append.mpr ⟨hvs, hws, fun _ _ u hu => ?_⟩
  cases hu
  exact .inr hw

theorem isChain_wordsInParens {ws : List Word} (needed : Bool) (h : ws.IsChain Apart) :
    (wordsInParens needed ws).IsChain Apart := by
  cases needed with
  | false => exact h
  | true => exact isChain_cons_apart (by decide) (isChain_append_apart (by decide) h (.singleton _))

theorem isChain_wordsSeparated {texts : List (List Word)} (h : ∀ ws ∈ texts, ws.IsChain Apart) :
    (wordsSeparated texts).IsChain Apart := by
  induction texts with
  | nil => exact .nil
  | cons ws texts ih =>
    obtain ⟨hws, htexts⟩ := List.forall_mem_cons.mp h
    cases texts with
    | nil => simpa [wordsSeparated, List.intercalate] using hws
    | cons vs texts =>
      have hsplit : wordsSeparated (ws :: vs :: texts) = ws ++ (.comma, ",") :: wordsSeparated (vs :: texts) := by
        simp [wordsSeparated, List.intercalate]
      rw [hsplit]
      exact isChain_append_apart (by decide) hws (isChain_cons_apart (by decide) (ih htexts))

theorem Legible.isChain_words {e : Expr} (h : Legible functions e) : e.words.IsChain Apart := by
  induction h with
  | number _ | constant _ | free _ =>
    rw [words]
    exact .singleton _
  | @unary op e span _ ih =>
    have hoperand := isChain_wordsInParens (needsUnaryParens op e) ih
    rw [words]
    cases op.standsBehind with
    | true => exact isChain_append_apart (by simp [operatorWord]) hoperand (.singleton _)
    | false => exact isChain_cons_apart (by simp [operatorWord]) hoperand
  | @binary op l r span _ _ ihl ihr =>
    have hleft := isChain_wordsInParens (needsParens op false l) ihl
    have hright := isChain_wordsInParens (needsParens op true r) ihr
    rw [words]
    exact isChain_append_apart (by simp [operatorWord]) hleft (isChain_cons_apart (by simp [operatorWord]) hright)
  | @call name args span _ _ ih =>
    rw [words]
    refine isChain_cons_apart (by simp) (isChain_wordsInParens true (isChain_wordsSeparated fun ws hws => ?_))
    rw [wordsList_eq_map] at hws
    obtain ⟨e, he, rfl⟩ := List.mem_map.mp hws
    exact ih e he

/-- The tokens of a printed tree are its words. -/
theorem Legible.tokenize_print {e : Expr} (h : Legible functions e) :
    (tokenize functions e.print).map word = e.words := by
  have hscan : (scan functions 0 e.chars).map word = e.words := by
    have hread := h.scans [] fun c hc => nomatch hc
    rw [List.append_nil, scanWords_nil, List.append_nil] at hread
    exact hread
  rw [tokenize, print, String.toList_ofList, withProducts_of_apart (hscan ▸ h.isChain_words), hscan]

end

end Calculator.Expr
