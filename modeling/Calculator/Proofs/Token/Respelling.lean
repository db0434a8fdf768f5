import Calculator.Proofs.Token.Coverage
/-!
Texts spelled anew. The tokens of a text, written one behind the other with a blank between each two, are read again as
they were read, but for a constant whose name in lower case is that of a function: the name of a function is looked up
in the case in which it is written, and before the constants.
-/
namespace Calculator.Token

/-- The texts of the tokens, with a blank between each two. -/
def respelled (ts : List Token) : String := " ".intercalate (ts.map (·.text))

/-- What a word of the scanner is read as, once it is spelled as the scanner spells it. -/
def reread (functions : List String) (w : Word) : Word :=
  if w.1 = .constant ∧ w.2 ∈ functions then (.function, w.2) else w

section
variable {functions : List String} {w : Word}

theorem reread_eq_self_iff : reread functions w = w ↔ (w.1 = .constant → w.2 ∉ functions) := by
  obtain ⟨kind, text⟩ := w
  by_cases h : kind = .constant ∧ text ∈ functions
  · obtain ⟨rfl, htext⟩ := h
    simp [reread, htext]
  · simp only [reread, if_neg h, true_iff]
    exact fun hkind htext => h ⟨hkind, htext⟩

theorem reread_of_ne (h : w.1 ≠ .constant) : reread functions w = w :=
  reread_eq_self_iff.mpr fun hkind => absurd hkind h

/-- Only the names of constants are read differently. -/
theorem ReadsAs.reread {name : String} (h : ReadsAs functions name w) : ReadsAs functions w.2 (reread functions w) := by
  cases h with
  | builtin hb =>
    rw [reread_of_ne (by simp)]
    exact .builtin (ofName?_builtin _)
  | function hb hf =>
    rw [reread_of_ne (by simp)]
    exact .function hb hf
  | variableName hb hf hc =>
    rw [reread_of_ne (by simp)]
    exact .variableName hb hf hc
  | @constant c hb hf hc =>
    by_cases hshadowed : c.name ∈ functions
    · rw [Token.reread, if_pos ⟨rfl, hshadowed⟩]
      exact .function (ofName?_constant c).1 hshadowed
    · rw [reread_eq_self_iff.mpr fun _ => hshadowed]
      exact readsAs_constant c hshadowed

/-- A word of the scanner is found again in front of any text that does not continue it. -/
theorem Scanned.scanWords (h : Scanned functions w) {rest : List Char} (hrest : Delimited rest) :
    scanWords functions (w.2.toList ++ rest) = Token.reread functions w :: Token.scanWords functions rest := by
  cases h with
  | @number cs hnumeral =>
    rw [String.toList_ofList, scanWords_numeral functions hnumeral hrest, reread_of_ne (by simp)]
  | @name cs _ hname hreads =>
    have hnames := hreads.name (by rwa [String.toList_ofList])
    rw [scanWords_name functions hnames hrest, String.ofList_toList, hreads.reread.word_ofName]
  | @symbol c kind hkind =>
    have hconstant : kind ≠ .constant := ne_constant_of_kindOfChar? hkind
    rw [String.toList_singleton, List.singleton_append, scanWords_symbol functions hkind, reread_of_ne hconstant]

theorem scanWords_intercalate {ws : List Word} (h : ∀ w ∈ ws, Scanned functions w) :
    scanWords functions ([' '].intercalate (ws.map (·.2.toList))) = ws.map (reread functions) := by
  have hblank : continuesName ' ' = false ∧ ' ' ≠ '.' := by decide
  induction ws with
  | nil => exact scanWords_nil functions
  | cons w ws ih =>
    obtain ⟨hw, hws⟩ := List.forall_mem_cons.mp h
    cases ws with
    | nil =>
      have hscan := hw.scanWords delimited_nil
      rw [List.append_nil, scanWords_nil] at hscan
      rw [List.map_singleton, List.intercalate_singleton]
      exact hscan
    | cons v ws =>
      have hscan := hw.scanWords (delimited_cons ([' '].intercalate ((v :: ws).map (·.2.toList))) hblank)
      rw [scanWords_blank functions (by decide), ih hws] at hscan
      rw [List.map_cons, List.map_cons, List.intercalate_cons_cons, List.append_assoc]
      exact hscan

/-! ### Products -/

/-- A constant that becomes a function starts a factor as before, and ends an operand no longer. -/
theorem Apart.reread {v : Word} (h : Apart v w) : Apart (reread functions v) (reread functions w) := by
  have hreread (u : Word) : (Token.reread functions u).1 = u.1 ∨
      u.1 = .constant ∧ (Token.reread functions u).1 = .function := by
    unfold Token.reread
    split
    · rename_i hu
      exact .inr ⟨hu.1, rfl⟩
    · exact .inl rfl
  rcases h with h | h
  · rcases hreread v with hv | ⟨-, hv⟩
    · exact .inl (by rwa [hv])
    · exact .inl (by rw [hv]; decide)
  · rcases hreread w with hw | ⟨hconstant, -⟩
    · exact .inr (by rwa [hw])
    · rw [hconstant] at h
      exact absurd h (by decide)

/-- Once the products are written, no more are meant. -/
theorem isChain_withProducts (ts : List Token) : ((withProducts ts).map word).IsChain Apart := by
  induction ts with
  | nil => exact .nil
  | cons t ts ih =>
    cases ts with
    | nil => exact .singleton _
    | cons u rest =>
      obtain ⟨back, hback⟩ := withProducts_cons u rest
      rw [hback] at ih
      rw [withProducts_cons_cons, hback, productBetween]
      by_cases hapart : Apart t.word u.word
      · rw [if_pos hapart]
        exact .cons_cons hapart ih
      · rw [if_neg hapart]
        have hleft : Apart t.word (.operator, "*") := .inr (by decide)
        have hright : Apart (.operator, "*") u.word := .inl (by decide)
        exact .cons_cons hleft (.cons_cons hright ih)

end

/-- Tokens that are spelled anew are read as before, and all products are written then; but where the lower-case name of
a constant is also that of a function, this function is read. -/
theorem tokenize_respelled (functions : List String) (text : String) :
    let ts := tokenize functions text
    let again := tokenize functions (respelled ts)
    again.map word = ts.map (fun t => reread functions t.word) ∧ (∀ t ∈ again, t.implicit = false) ∧
      (again.map word = ts.map word ↔ ∀ t ∈ ts, t.kind = .constant → t.text ∉ functions) := by
  intro ts again
  let found := scan functions 0 (respelled ts).toList
  have hwords : found.map word = (ts.map word).map (reread functions) := by
    have hscanned : ∀ w ∈ ts.map word, Scanned functions w :=
      List.forall_mem_map.mpr fun t ht => scanned_of_mem_tokenize ht
    have hchars : (respelled ts).toList = [' '].intercalate ((ts.map word).map (·.2.toList)) := by
      rw [respelled, String.toList_intercalate, List.map_map, List.map_map]
      rfl
    rw [← scanWords_intercalate hscanned, ← hchars]
    rfl
  have hchain : (found.map word).IsChain Apart := by
    rw [hwords, List.isChain_map]
    exact (isChain_withProducts _).imp fun _ _ => Apart.reread
  have hagain : again = found := withProducts_of_apart hchain
  have hmap : again.map word = ts.map (fun t => reread functions t.word) := by
    rw [hagain, hwords, List.map_map]
    rfl
  refine ⟨hmap, ?_, ?_⟩
  · rw [hagain]
    exact (tiles_scan functions 0 _).explicit
  · rw [hmap, List.map_inj_left]
    exact forall₂_congr fun t ht => reread_eq_self_iff

/-- The constant `PI` is stored as `pi`, which is read as a function where one has this name. -/
theorem tokenize_respelled_shadowed :
    (tokenize ["pi"] "PI").map word = [(.constant, "pi")] ∧
      (tokenize ["pi"] (respelled (tokenize ["pi"] "PI"))).map word = [(.function, "pi")] := by
  have hread : tokenize ["pi"] "PI" = [⟨.constant, "pi", 0, false⟩] := by decide +kernel
  constructor
  · rw [hread]
    rfl
  · rw [(tokenize_respelled ["pi"] "PI").1, hread]
    decide

end Calculator.Token
