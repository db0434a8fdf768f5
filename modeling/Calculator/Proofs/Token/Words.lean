import Calculator.Proofs.Token.Numeral
import Mathlib.Data.List.Chain
import Mathlib.Tactic.SplitIfs
/-!
Texts as sequences of words: what the scanner finds, without the places. Each numeral and each name is found again
wherever it is delimited, and spelled as the scanner spells it, every word is found as itself.
-/
namespace Calculator.Token

/-- The class and the text of a token. -/
abbrev Word := Kind × String

/-- The token without its place. -/
def word (t : Token) : Word := (t.kind, t.text)

/-- The words that are written in the text. -/
def scanWords (functions : List String) (cs : List Char) : List Word :=
  (scan functions 0 cs).map word

/-- What a name is read as. The first of the tables decides that has it. -/
inductive ReadsAs (functions : List String) (name : String) : Word → Prop
  | builtin {b : Builtin} (hb : Builtin.ofName? name = some b) : ReadsAs functions name (.function, b.name)
  | function (hb : Builtin.ofName? name = none) (hf : name ∈ functions) : ReadsAs functions name (.function, name)
  | constant {c : Constant} (hb : Builtin.ofName? name = none) (hf : name ∉ functions)
      (hc : Constant.ofName? name = some c) : ReadsAs functions name (.constant, c.name)
  | variableName (hb : Builtin.ofName? name = none) (hf : name ∉ functions) (hc : Constant.ofName? name = none) :
      ReadsAs functions name (.variableName, name)

theorem ReadsAs.word_ofName {functions : List String} {name : String} {w : Word} (h : ReadsAs functions name w)
    (p : Nat) : (ofName functions name p).word = w := by
  cases h with
  | builtin hb => simp [ofName, word, hb]
  | function hb hf => simp [ofName, word, hb, hf]
  | constant hb hf hc => simp [ofName, word, hb, hf, hc]
  | variableName hb hf hc => simp [ofName, word, hb, hf, hc]

theorem readsAs_ofName (functions : List String) (name : String) (p : Nat) :
    ReadsAs functions name (ofName functions name p).word := by
  cases hb : Builtin.ofName? name with
  | some b =>
    have h : ReadsAs functions name (.function, b.name) := .builtin hb
    rwa [h.word_ofName p]
  | none =>
    by_cases hf : name ∈ functions
    · rw [(ReadsAs.function hb hf).word_ofName p]
      exact .function hb hf
    cases hc : Constant.ofName? name with
    | some c =>
      rw [(ReadsAs.constant hb hf hc).word_ofName p]
      exact .constant hb hf hc
    | none =>
      rw [(ReadsAs.variableName hb hf hc).word_ofName p]
      exact .variableName hb hf hc

theorem word_ofName (functions : List String) (name : String) (p q : Nat) :
    (ofName functions name p).word = (ofName functions name q).word :=
  (readsAs_ofName functions name q).word_ofName p

/-- Places do not change the words. -/
theorem map_word_scan (functions : List String) (p q : Nat) (cs : List Char) :
    (scan functions p cs).map word = (scan functions q cs).map word := by
  fun_induction scan functions p cs generalizing q with
  | case1 => rw [scan]
  | case2 p c cs hblank ih =>
    rw [scan, if_pos hblank]
    exact ih _
  | case3 p c cs hblank hnumeral text ih =>
    rw [scan, if_neg hblank, if_pos hnumeral, List.map_cons, List.map_cons]
    exact congrArg (_ :: ·) (ih _)
  | case4 p c cs hblank hnumeral hname text ih =>
    rw [scan, if_neg hblank, if_neg hnumeral, if_pos hname, List.map_cons, List.map_cons, word_ofName functions _ p q]
    exact congrArg (_ :: ·) (ih _)
  | case5 p c cs hblank hnumeral hname kind hkind ih =>
    rw [scan, if_neg hblank, if_neg hnumeral, if_neg hname, hkind, List.map_cons, List.map_cons]
    exact congrArg (_ :: ·) (ih _)
  | case6 p c cs hblank hnumeral hname hkind ih =>
    rw [scan, if_neg hblank, if_neg hnumeral, if_neg hname, hkind]
    exact ih _

/-! ### Characters -/

theorem isBlank_of_printable {c : Char} (hlow : 33 ≤ c.toNat) (hhigh : c.toNat ≤ 126) : Text.isBlank c = false := by
  have houtside : ∀ n ∈ Text.blankCodes, n ≤ 32 ∨ 127 ≤ n := by decide
  rw [Bool.eq_false_iff]
  intro hblank
  have := houtside _ (List.contains_iff_mem.mp hblank)
  omega

theorem toNat_of_startsName {c : Char} (h : startsName c = true) : 65 ≤ c.toNat ∧ c.toNat ≤ 122 := by
  change (decide (c.val ≥ 'A'.val ∧ c.val ≤ 'Z'.val) || decide (c.val ≥ 'a'.val) && decide (c.val ≤ 'z'.val) ||
    c == '_') = true at h
  simp only [Bool.or_eq_true, Bool.and_eq_true, decide_eq_true_eq, ge_iff_le, UInt32.le_iff_toNat_le, beq_iff_eq] at h
  rcases h with (⟨hlow, hhigh⟩ | ⟨hlow, hhigh⟩) | rfl
  · exact ⟨hlow, Nat.le_trans hhigh (by decide)⟩
  · exact ⟨Nat.le_trans (by decide) hlow, hhigh⟩
  · decide

theorem startsNumeral_of_startsName {c : Char} (h : startsName c = true) (cs : List Char) :
    startsNumeral c cs = false := by
  have hbounds := toNat_of_startsName h
  rw [Bool.eq_false_iff]
  intro hnumeral
  simp only [startsNumeral, Bool.or_eq_true, Bool.and_eq_true, beq_iff_eq] at hnumeral
  rcases hnumeral with hdigit | ⟨rfl, -⟩
  · have := toNat_of_isDigit hdigit
    omega
  · exact absurd hbounds.1 (by decide)

theorem isBlank_of_startsNumeral {c : Char} {cs : List Char} (h : startsNumeral c cs = true) :
    Text.isBlank c = false := by
  simp only [startsNumeral, Bool.or_eq_true, Bool.and_eq_true, beq_iff_eq] at h
  rcases h with hdigit | ⟨rfl, -⟩
  · have := toNat_of_isDigit hdigit
    exact isBlank_of_printable (by omega) (by omega)
  · decide

/-- The characters that are tokens by themselves. -/
def symbolChars : List Char := ['(', ')', ',', '+', '-', '*', '/', '%', '^', '!']

theorem mem_symbolChars {c : Char} {kind : Kind} (h : kindOfChar? c = some kind) : c ∈ symbolChars := by
  unfold symbolChars
  unfold kindOfChar? at h
  split at h
  · simp_all
  · split at h
    · simp_all
    · split at h
      · simp_all
      · split at h
        · rename_i hop
          have hmem := List.contains_iff_mem.mp hop
          simp only [operatorChars, List.mem_cons] at hmem ⊢
          exact .inr (.inr (.inr hmem))
        · cases h

/-- A character that is a token by itself is nothing else. -/
theorem symbol_of_kindOfChar? {c : Char} {kind : Kind} (h : kindOfChar? c = some kind) (cs : List Char) :
    Text.isBlank c = false ∧ startsNumeral c cs = false ∧ startsName c = false := by
  have hall : (symbolChars.all fun c => !Text.isBlank c && !c.isDigit && c != '.' && !startsName c) = true := by decide
  have hc := List.all_eq_true.mp hall c (mem_symbolChars h)
  simp only [Bool.and_eq_true, Bool.not_eq_true', bne_iff_ne] at hc
  obtain ⟨⟨⟨hblank, hdigit⟩, hpoint⟩, hname⟩ := hc
  refine ⟨hblank, ?_, hname⟩
  rw [startsNumeral, hdigit, beq_eq_false_iff_ne.mpr hpoint]
  rfl

/-! ### Words at the head of a text -/

/-- A name: a word of letters, digits and `_` that does not start with a digit. -/
inductive Name : List Char → Prop
  | intro {c : Char} {cs : List Char} (hstart : startsName c = true) (hrest : ∀ d ∈ cs, continuesName d = true) :
      Name (c :: cs)

section
variable (functions : List String)

theorem scanWords_nil : scanWords functions [] = [] := by
  rw [scanWords, scan]
  rfl

theorem scanWords_blank {c : Char} (h : Text.isBlank c = true) (rest : List Char) :
    scanWords functions (c :: rest) = scanWords functions rest := by
  rw [scanWords, scan, if_pos h]
  exact map_word_scan functions _ _ rest

theorem scanWords_symbol {c : Char} {kind : Kind} (h : kindOfChar? c = some kind) (rest : List Char) :
    scanWords functions (c :: rest) = (kind, String.singleton c) :: scanWords functions rest := by
  obtain ⟨hblank, hnumeral, hname⟩ := symbol_of_kindOfChar? h rest
  rw [scanWords, scan, hblank, if_neg Bool.false_ne_true, hnumeral, if_neg Bool.false_ne_true, hname,
    if_neg Bool.false_ne_true, h, List.map_cons]
  exact congrArg (_ :: ·) (map_word_scan functions _ _ rest)

theorem scanWords_numeral {cs rest : List Char} (h : Numeral cs) (hrest : Delimited rest) :
    scanWords functions (cs ++ rest) = (.number, String.ofList cs) :: scanWords functions rest := by
  obtain ⟨c, t, rfl, hstart⟩ := numeral_starts h
  have hstarts : startsNumeral c (t ++ rest) = true := hstart rest
  have hcut : c :: (numeral (c :: (t ++ rest))).tail = c :: t := by
    rw [numeral_cons hstarts, ← List.cons_append, numeral_append h hrest]
  rw [scanWords, List.cons_append, scan, isBlank_of_startsNumeral hstarts, if_neg Bool.false_ne_true, if_pos hstarts]
  dsimp only
  rw [hcut, List.map_cons, List.length_cons, Nat.add_sub_cancel, List.drop_left]
  exact congrArg (_ :: ·) (map_word_scan functions _ _ rest)

theorem scanWords_name {cs rest : List Char} (h : Name cs) (hrest : Delimited rest) :
    scanWords functions (cs ++ rest) =
      (ofName functions (String.ofList cs) 0).word :: scanWords functions rest := by
  obtain @⟨c, t, hstart, ht⟩ := h
  have hbounds := toNat_of_startsName hstart
  have hblank : Text.isBlank c = false := isBlank_of_printable (by omega) (by omega)
  have hcut : (t ++ rest).takeWhile continuesName = t := takeWhile_append_stop ht fun d hd => (hrest d hd).1
  rw [scanWords, List.cons_append, scan, hblank, if_neg Bool.false_ne_true, startsNumeral_of_startsName hstart,
    if_neg Bool.false_ne_true, if_pos hstart]
  dsimp only
  rw [hcut, List.map_cons, List.length_cons, Nat.add_sub_cancel, List.drop_left]
  exact congrArg (_ :: ·) (map_word_scan functions _ _ rest)

end

/-! ### Spelling -/

/-- The word is spelled as the scanner spells it: numerals are numerals, and names are read as themselves. -/
def Spelled (functions : List String) (w : Word) : Prop :=
  match w.1 with
  | .number => Numeral w.2.toList
  | .function | .constant | .variableName => Name w.2.toList ∧ (ofName functions w.2 0).word = w
  | .operator | .lparen | .rparen | .comma => True

theorem name_of_all {cs : List Char} (hstart : cs.head?.any startsName = true) (hall : cs.all continuesName = true) :
    Name cs := by
  cases cs with
  | nil => cases hstart
  | cons c cs =>
    rw [List.all_cons, Bool.and_eq_true] at hall
    exact .intro hstart (List.all_eq_true.mp hall.2)

theorem name_builtin (b : Builtin) : Name b.name.toList := by
  have hall : ∀ b ∈ Builtin.all,
      b.name.toList.head?.any startsName = true ∧ b.name.toList.all continuesName = true := by
    decide +kernel
  exact name_of_all (hall b b.mem_all).1 (hall b b.mem_all).2

theorem ofName?_builtin (b : Builtin) : Builtin.ofName? b.name = some b := by
  have hall : ∀ b ∈ Builtin.all, Builtin.ofName? b.name = some b := by decide +kernel
  exact hall b b.mem_all

theorem name_constant (c : Constant) : Name c.name.toList := by
  have hall : ∀ c ∈ Constant.all,
      c.name.toList.head?.any startsName = true ∧ c.name.toList.all continuesName = true := by
    decide +kernel
  have hc : c ∈ Constant.all := by cases c <;> decide
  exact name_of_all (hall c hc).1 (hall c hc).2

theorem ofName?_constant (c : Constant) :
    Builtin.ofName? c.name = none ∧ Constant.ofName? c.name = some c := by
  have hall : ∀ c ∈ Constant.all, Builtin.ofName? c.name = none ∧ Constant.ofName? c.name = some c := by
    decide +kernel
  exact hall c (by cases c <;> decide)

section
variable {functions : List String}

theorem readsAs_constant (c : Constant) (hfree : c.name ∉ functions) :
    ReadsAs functions c.name (.constant, c.name) :=
  .constant (ofName?_constant c).1 hfree (ofName?_constant c).2

theorem spelled_constant (hfunctions : ∀ c : Constant, c.name ∉ functions) (c : Constant) :
    Spelled functions (.constant, c.name) :=
  ⟨name_constant c, (readsAs_constant c (hfunctions c)).word_ofName 0⟩

/-- A name is read as a name. -/
theorem ReadsAs.name {name : String} {w : Word} (h : ReadsAs functions name w) (hname : Name name.toList) :
    Name w.2.toList := by
  cases h with
  | builtin hb => exact name_builtin _
  | function hb hf => exact hname
  | constant hb hf hc => exact name_constant _
  | variableName hb hf hc => exact hname

/-- The words that the scanner finds. -/
inductive Scanned (functions : List String) : Word → Prop
  | number {cs : List Char} (h : Numeral cs) : Scanned functions (.number, String.ofList cs)
  | name {cs : List Char} {w : Word} (h : Name cs) (hreads : ReadsAs functions (String.ofList cs) w) :
      Scanned functions w
  | symbol {c : Char} {kind : Kind} (h : kindOfChar? c = some kind) : Scanned functions (kind, String.singleton c)

theorem scanned_of_mem_scan {p : Nat} {cs : List Char} {t : Token} (h : t ∈ scan functions p cs) :
    Scanned functions t.word := by
  fun_induction scan functions p cs with
  | case1 => cases h
  | case2 p c cs hblank ih => exact ih h
  | case3 p c cs hblank hnumeral text ih =>
    rcases List.mem_cons.mp h with rfl | h
    · have hnumeral : Numeral text := by
        change Numeral (c :: (numeral (c :: cs)).tail)
        rw [numeral_cons hnumeral]
        exact numeral_numeral hnumeral
      exact .number hnumeral
    · exact ih h
  | case4 p c cs hblank hnumeral hname text ih =>
    rcases List.mem_cons.mp h with rfl | h
    · have hname : Name text := .intro hname fun d hd => List.all_eq_true.mp List.all_takeWhile d hd
      exact .name hname (readsAs_ofName functions (String.ofList text) p)
    · exact ih h
  | case5 p c cs hblank hnumeral hname kind hkind ih =>
    rcases List.mem_cons.mp h with rfl | h
    · exact .symbol hkind
    · exact ih h
  | case6 p c cs hblank hnumeral hname hkind ih => exact ih h

theorem kindOfChar?_eq_some {c : Char} {kind : Kind} (h : kindOfChar? c = some kind) :
    kind = .lparen ∨ kind = .rparen ∨ kind = .comma ∨ kind = .operator := by
  unfold kindOfChar? at h
  split_ifs at h <;> cases h <;> simp

/-- The scanner spells its words in one way. The name of a built-in is stored in lower case, and that of a constant too;
neither changes its class by that. -/
theorem Scanned.spelled (hfunctions : ∀ c : Constant, c.name ∉ functions) {w : Word} (h : Scanned functions w) :
    Spelled functions w := by
  cases h with
  | @number cs h =>
    change Numeral (String.ofList cs).toList
    rwa [String.toList_ofList]
  | @name cs w h hreads =>
    have hname : Name (String.ofList cs).toList := by rwa [String.toList_ofList]
    cases hreads with
    | builtin hb => exact ⟨name_builtin _, (ReadsAs.builtin (ofName?_builtin _)).word_ofName 0⟩
    | function hb hf => exact ⟨hname, (ReadsAs.function hb hf).word_ofName 0⟩
    | constant hb hf hc => exact spelled_constant hfunctions _
    | variableName hb hf hc => exact ⟨hname, (ReadsAs.variableName hb hf hc).word_ofName 0⟩
  | symbol h => rcases kindOfChar?_eq_some h with rfl | rfl | rfl | rfl <;> trivial

end

/-! ### Products that are not written -/

/-- No product is meant between the two words. -/
def Apart (v w : Word) : Prop :=
  v.1 ∉ [.number, .rparen, .variableName, .constant] ∨ w.1 ∉ [.lparen, .function, .variableName, .constant]

instance (v w : Word) : Decidable (Apart v w) := inferInstanceAs (Decidable (_ ∨ _))

/-- The product sign that is added between two neighbours, if one is: it stands where the right one starts. -/
def productBetween (t u : Token) : List Token :=
  if Apart t.word u.word then [] else [⟨.operator, "*", u.position, true⟩]

theorem product_iff {t u : Token} : (t.endsOperand && u.startsFactor) = true ↔ ¬Apart t.word u.word := by
  obtain ⟨k, _, _, _⟩ := t
  obtain ⟨l, _, _, _⟩ := u
  simp only [Apart, word, endsOperand, startsFactor]
  cases k <;> cases l <;> decide

theorem withProducts_cons_cons (t u : Token) (rest : List Token) :
    withProducts (t :: u :: rest) = t :: (productBetween t u ++ withProducts (u :: rest)) := by
  rw [withProducts, productBetween]
  by_cases h : Apart t.word u.word
  · rw [if_neg fun hproduct => product_iff.mp hproduct h, if_pos h]
    rfl
  · rw [if_pos (product_iff.mpr h), if_neg h]
    rfl

/-- Where every product is written, none is added. -/
theorem withProducts_of_apart {ts : List Token} (h : (ts.map word).IsChain Apart) : withProducts ts = ts := by
  induction ts with
  | nil => rfl
  | cons t ts ih =>
    cases ts with
    | nil => rfl
    | cons u rest =>
      rw [List.map_cons, List.map_cons, List.isChain_cons_cons] at h
      rw [withProducts_cons_cons, productBetween, if_pos h.1, ih h.2]
      rfl

theorem mem_productBetween {t u v : Token} (h : t ∈ productBetween u v) : t = unwrittenProduct v.position := by
  unfold productBetween at h
  split at h
  · cases h
  · exact List.mem_singleton.mp h

theorem mem_withProducts {t : Token} {ts : List Token} (h : t ∈ withProducts ts) :
    t ∈ ts ∨ ∃ position, t = unwrittenProduct position := by
  induction ts with
  | nil => cases h
  | cons u ts ih =>
    cases ts with
    | nil => exact .inl h
    | cons v rest =>
      rw [withProducts_cons_cons, List.mem_cons, List.mem_append] at h
      rcases h with rfl | h | h
      · exact .inl List.mem_cons_self
      · exact .inr ⟨_, mem_productBetween h⟩
      · exact (ih h).imp_left (List.mem_cons_of_mem u)

theorem scanned_of_mem_tokenize {functions : List String} {text : String} {t : Token}
    (h : t ∈ tokenize functions text) : Scanned functions t.word := by
  rcases mem_withProducts h with h | ⟨position, rfl⟩
  · exact scanned_of_mem_scan h
  · exact .symbol (c := '*') rfl

theorem spelled_of_mem_tokenize {functions : List String} (hfunctions : ∀ c : Constant, c.name ∉ functions)
    {text : String} {t : Token} (h : t ∈ tokenize functions text) : Spelled functions t.word :=
  (scanned_of_mem_tokenize h).spelled hfunctions

end Calculator.Token
