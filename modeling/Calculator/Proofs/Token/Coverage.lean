import Calculator.Proofs.Token.Places
/-!
The tokens account for the whole text. Those that are written cover all of it but characters of no class, one behind the
other, and each is spelled by the characters it covers. Between two that are neighbours a product is added just where
the first may end an operand and the second may start a factor, and nowhere else.
-/
namespace Calculator.Token

/-- The characters that are part of tokens: letters, digits and `_`, and those that are tokens by themselves. A point is
one only inside of a numeral. -/
def significant (c : Char) : Bool := c.isAlphanum || c == '_' || symbolChars.contains c

/-- The word is written with these characters. They are its own; those of functions and constants may be in another
case. -/
def WrittenWith (w : Word) (written : List Char) : Prop :=
  w.2.toList = written ∨ (w.1 = .function ∨ w.1 = .constant) ∧ w.2.toList = written.map Char.toLower

/-- The tokens are those of the text, whose first character stands at the place. Each is written with the characters
that it takes from the text, and those that no token takes have no class. -/
inductive Tiles : Nat → List Char → List Token → Prop
  | nil (position : Nat) : Tiles position [] []
  | skip {position : Nat} {c : Char} {cs : List Char} {ts : List Token} (hc : significant c = false)
      (h : Tiles (position + 1) cs ts) : Tiles position (c :: cs) ts
  | token {t : Token} {written rest : List Char} {ts : List Token} (hexplicit : t.implicit = false)
      (hne : written ≠ []) (hwritten : WrittenWith t.word written)
      (h : Tiles (t.position + written.length) rest ts) : Tiles t.position (written ++ rest) (t :: ts)

/-! ### Characters -/

theorem significant_eq_false_of_isBlank {c : Char} (h : Text.isBlank c = true) : significant c = false := by
  rw [Bool.eq_false_iff]
  intro hc
  have hbounds : 33 ≤ c.toNat ∧ c.toNat ≤ 126 := by
    rw [significant, Char.isAlphanum, Bool.or_eq_true, Bool.or_eq_true, Bool.or_eq_true] at hc
    rcases hc with ((halpha | hdigit) | hline) | hsymbol
    · have := toNat_of_startsName (c := c) (by rw [startsName, halpha, Bool.true_or])
      omega
    · have := toNat_of_isDigit hdigit
      omega
    · rw [beq_iff_eq.mp hline]
      decide
    · have hall : ∀ d ∈ symbolChars, 33 ≤ d.toNat ∧ d.toNat ≤ 126 := by simp [symbolChars]
      exact hall c (List.contains_iff_mem.mp hsymbol)
  rw [isBlank_of_printable hbounds.1 hbounds.2] at h
  cases h

/-- A character that starts no token is part of none. -/
theorem significant_eq_false {c : Char} {cs : List Char} (hnumeral : startsNumeral c cs ≠ true)
    (hname : startsName c ≠ true) (hsymbol : kindOfChar? c = none) : significant c = false := by
  have hdigit : c.isDigit = false := by
    rw [Bool.eq_false_iff]
    intro h
    rw [startsNumeral, h, Bool.true_or] at hnumeral
    exact hnumeral rfl
  have hother : symbolChars.contains c = false := by
    rw [Bool.eq_false_iff]
    intro h
    have hall : ∀ d ∈ symbolChars, kindOfChar? d ≠ none := by simp [symbolChars, kindOfChar?, operatorChars]
    exact hall c (List.contains_iff_mem.mp h) hsymbol
  obtain ⟨halpha, hline⟩ := Bool.or_eq_false_iff.mp (Bool.eq_false_iff.mpr hname)
  rw [significant, Char.isAlphanum, halpha, hdigit, hline, hother]
  rfl

/-! ### From the text to the tokens that are written -/

theorem WrittenWith.length_eq {w : Word} {written : List Char} (h : WrittenWith w written) :
    w.2.length = written.length := by
  rcases h with h | ⟨-, h⟩
  · rw [← String.length_toList, h]
  · rw [← String.length_toList, h, List.length_map]

theorem ReadsAs.writtenWith {functions : List String} {name : String} {w : Word} (h : ReadsAs functions name w) :
    WrittenWith w name.toList := by
  cases h with
  | function hb hf => exact .inl rfl
  | variableName hb hf hc => exact .inl rfl
  | @builtin b hb =>
    unfold Builtin.ofName? at hb
    have hname : b.name = name.toLower := by simpa using List.find?_some hb
    exact .inr ⟨.inl rfl, by rw [hname, toList_toLower]⟩
  | @constant c hb hf hc =>
    unfold Constant.ofName? at hc
    have hname : c.name = name.toLower := by simpa using List.find?_some hc
    exact .inr ⟨.inr rfl, by rw [hname, toList_toLower]⟩

theorem implicit_ofName (functions : List String) (name : String) (position : Nat) :
    (ofName functions name position).implicit = false := by
  unfold ofName
  repeat' split
  all_goals rfl

theorem Tiles.cons {position : Nat} {t : Token} (written : List Char) {rest : List Char} {ts : List Token}
    (hplace : t.position = position) (hexplicit : t.implicit = false) (hne : written ≠ [])
    (hwritten : WrittenWith t.word written) (h : Tiles (position + written.length) rest ts) :
    Tiles position (written ++ rest) (t :: ts) := by
  subst hplace
  exact .token hexplicit hne hwritten h

/-- The scanner loses no character that is part of a token. -/
theorem tiles_scan (functions : List String) (position : Nat) (cs : List Char) :
    Tiles position cs (scan functions position cs) := by
  fun_induction scan functions position cs with
  | case1 position => exact .nil position
  | case2 position c cs hblank ih => exact .skip (significant_eq_false_of_isBlank hblank) ih
  | case3 position c cs hblank hnumeral written ih =>
    have hprefix : c :: (numeral (c :: cs)).tail <+: c :: cs := by
      rw [numeral_cons hnumeral]
      exact numeral_isPrefix (c :: cs)
    have hsplit := cons_eq_append_drop (c := c) (List.cons_prefix_cons.mp hprefix).2
    have hwritten : WrittenWith (.number, String.ofList written) written := .inl String.toList_ofList
    rw [hsplit]
    exact Tiles.cons written rfl rfl (List.cons_ne_nil _ _) hwritten ih
  | case4 position c cs hblank hnumeral hname written ih =>
    have hsplit := cons_eq_append_drop (c := c) (List.takeWhile_prefix continuesName (l := cs))
    have hwritten := (readsAs_ofName functions (String.ofList written) position).writtenWith
    rw [String.toList_ofList] at hwritten
    rw [hsplit]
    exact Tiles.cons written (position_ofName ..) (implicit_ofName ..) (List.cons_ne_nil _ _) hwritten ih
  | case5 position c cs hblank hnumeral hname kind hkind ih =>
    have hwritten : WrittenWith (kind, String.singleton c) [c] := .inl (String.toList_singleton c)
    exact Tiles.cons [c] rfl rfl (List.cons_ne_nil _ _) hwritten ih
  | case6 position c cs hblank hnumeral hname hkind ih =>
    exact .skip (significant_eq_false hnumeral hname hkind) ih

/-- The tokens cover the text from the place `start` on. -/
structure Covers (text : List Char) (start : Nat) (ts : List Token) : Prop where
  nonempty : ∀ t ∈ ts, t.position < t.stop
  inside : ∀ t ∈ ts, start ≤ t.position ∧ t.stop ≤ text.length
  ordered : ts.Pairwise fun t u => t.stop ≤ u.position
  spelled : ∀ t ∈ ts, WrittenWith t.word (t.span.chars text)
  covered : ∀ i c, start ≤ i → text[i]? = some c → significant c = true → ∃ t ∈ ts, t.position ≤ i ∧ i < t.stop

/-- A token that is written at the place, and those that cover the text behind it. -/
theorem Covers.cons {text written rest : List Char} {t : Token} {ts : List Token} (hexplicit : t.implicit = false)
    (hne : written ≠ []) (hwritten : WrittenWith t.word written) (hrest : text.drop t.position = written ++ rest)
    (h : Covers text (t.position + written.length) ts) : Covers text t.position (t :: ts) := by
  have hpos : 0 < written.length := List.length_pos_iff.mpr hne
  have hlength := congrArg List.length hrest
  rw [List.length_drop, List.length_append] at hlength
  have hstop : t.stop = t.position + written.length := by
    rw [stop, hexplicit, if_neg Bool.false_ne_true]
    exact congrArg (t.position + ·) hwritten.length_eq
  have hchars : t.span.chars text = written := by
    change (text.drop t.position).take (t.stop - t.position) = written
    rw [hrest, hstop, Nat.add_sub_cancel_left, List.take_left]
  constructor
  · exact List.forall_mem_cons.mpr ⟨by omega, h.nonempty⟩
  · refine List.forall_mem_cons.mpr ⟨⟨Nat.le_refl _, by omega⟩, fun u hu => ?_⟩
    have := h.inside u hu
    omega
  · refine List.pairwise_cons.mpr ⟨fun u hu => ?_, h.ordered⟩
    rw [hstop]
    exact (h.inside u hu).1
  · exact List.forall_mem_cons.mpr ⟨by rwa [hchars], h.spelled⟩
  · intro i c hi hc hsignificant
    rcases Nat.lt_or_ge i t.stop with hlt | hge
    · exact ⟨t, List.mem_cons_self, hi, hlt⟩
    · obtain ⟨u, hu, hin⟩ := h.covered i c (hstop ▸ hge) hc hsignificant
      exact ⟨u, List.mem_cons_of_mem t hu, hin⟩

/-- Each step of the scanner leaves a rest of the text that the other tokens cover. -/
theorem Tiles.covers {text cs : List Char} {position : Nat} {ts : List Token} (h : Tiles position cs ts)
    (hrest : text.drop position = cs) (hle : position ≤ text.length) : Covers text position ts := by
  induction h with
  | nil position =>
    refine ⟨List.forall_mem_nil _, List.forall_mem_nil _, .nil, List.forall_mem_nil _, fun i c hi hc _ => ?_⟩
    obtain ⟨hlt, -⟩ := List.getElem?_eq_some_iff.mp hc
    have hend : text.length ≤ position := List.drop_eq_nil_iff.mp hrest
    omega
  | @skip position c cs ts hplain h ih =>
    have hskip : text.drop position = [c] ++ cs := hrest
    obtain ⟨hdrop, hbound⟩ := drop_of_append hskip hle
    have hcovers := ih hdrop hbound
    refine ⟨hcovers.nonempty, fun t ht => ?_, hcovers.ordered, hcovers.spelled, fun i d hi hd hsignificant => ?_⟩
    · have := hcovers.inside t ht
      omega
    · rcases Nat.eq_or_lt_of_le hi with rfl | hlt
      · have hhead : text[position]? = some c := by rw [← List.head?_drop, hrest, List.head?_cons]
        obtain rfl : c = d := Option.some.inj (hhead.symm.trans hd)
        rw [hplain] at hsignificant
        cases hsignificant
      · exact hcovers.covered i d hlt hd hsignificant
  | token hexplicit hne hwritten h ih =>
    obtain ⟨hdrop, hbound⟩ := drop_of_append hrest hle
    exact .cons hexplicit hne hwritten hrest (ih hdrop hbound)

/-! ### The tokens that are not written -/

/-- The tokens that are written. -/
def written (ts : List Token) : List Token := ts.filter fun t => !t.implicit

/-- The token `p` is the product sign that is added between its neighbours, both of which are written. -/
def AddedBetween (before : List Token) (p : Token) (after : List Token) : Prop :=
  ∃ front t u back, before = front ++ [t] ∧ after = u :: back ∧ t.implicit = false ∧ u.implicit = false ∧
    p ∈ productBetween t u

/-- Product signs are added between neighbours, and nowhere else. -/
structure Multiplied (ts : List Token) : Prop where
  between : ∀ before t u after, written ts = before ++ t :: u :: after →
    ∃ front back, ts = front ++ t :: (productBetween t u ++ u :: back) ∧ written front = before ∧ written back = after
  nowhere : ∀ before p after, ts = before ++ p :: after → p.implicit = true → AddedBetween before p after

theorem withProducts_cons (t : Token) (rest : List Token) : ∃ back, withProducts (t :: rest) = t :: back := by
  cases rest with
  | nil => exact ⟨[], rfl⟩
  | cons u rest => exact ⟨_, withProducts_cons_cons t u rest⟩

theorem written_append (ts us : List Token) : written (ts ++ us) = written ts ++ written us := List.filter_append ..

theorem written_cons {t : Token} (h : t.implicit = false) (ts : List Token) : written (t :: ts) = t :: written ts := by
  simp [written, h]

theorem written_productBetween (t u : Token) : written (productBetween t u) = [] := by
  unfold productBetween
  split <;> rfl

section
variable {ts : List Token}

/-- What is added is not written. -/
theorem written_withProducts (h : ∀ t ∈ ts, t.implicit = false) : written (withProducts ts) = ts := by
  induction ts with
  | nil => rfl
  | cons t ts ih =>
    obtain ⟨ht, hts⟩ := List.forall_mem_cons.mp h
    cases ts with
    | nil => exact written_cons ht []
    | cons u rest =>
      rw [withProducts_cons_cons, written_cons ht, written_append, written_productBetween, ih hts]
      rfl

/-- Tokens in front of others do not change what is added to these. -/
theorem exists_withProducts_append {before : List Token} (h : ∀ b ∈ before, b.implicit = false) (t : Token)
    (rest : List Token) :
    ∃ front, withProducts (before ++ t :: rest) = front ++ withProducts (t :: rest) ∧ written front = before := by
  induction before with
  | nil => exact ⟨[], rfl, rfl⟩
  | cons b before ih =>
    obtain ⟨hb, hbefore⟩ := List.forall_mem_cons.mp h
    obtain ⟨front, hfront, hwritten⟩ := ih hbefore
    obtain ⟨u, us, hus⟩ : ∃ u us, before ++ t :: rest = u :: us := List.exists_cons_of_ne_nil (by simp)
    refine ⟨b :: (productBetween b u ++ front), ?_, ?_⟩
    · rw [List.cons_append, hus, withProducts_cons_cons, ← hus, hfront]
      simp only [List.cons_append, List.append_assoc]
    · rw [written_cons hb, written_append, written_productBetween, hwritten]
      rfl

theorem withProducts_between (h : ∀ t ∈ ts, t.implicit = false) {before after : List Token} {t u : Token}
    (hts : ts = before ++ t :: u :: after) :
    ∃ front back, withProducts ts = front ++ t :: (productBetween t u ++ u :: back) ∧
      written front = before ∧ written back = after := by
  subst hts
  obtain ⟨hbefore, hrest⟩ := List.forall_mem_append.mp h
  obtain ⟨-, hrest⟩ := List.forall_mem_cons.mp hrest
  obtain ⟨front, hfront, hwritten⟩ := exists_withProducts_append hbefore t (u :: after)
  obtain ⟨back, hback⟩ := withProducts_cons u after
  have hafter : written (u :: back) = u :: after := by rw [← hback, written_withProducts hrest]
  rw [written_cons (hrest u List.mem_cons_self)] at hafter
  refine ⟨front, back, ?_, hwritten, List.tail_eq_of_cons_eq hafter⟩
  rw [hfront, withProducts_cons_cons, hback]

theorem AddedBetween.append {before after : List Token} {p : Token} (h : AddedBetween before p after)
    (more : List Token) : AddedBetween (more ++ before) p after := by
  obtain ⟨front, t, u, back, rfl, hback⟩ := h
  exact ⟨more ++ front, t, u, back, (List.append_assoc ..).symm, hback⟩

theorem withProducts_nowhere (h : ∀ t ∈ ts, t.implicit = false) {before after : List Token} {p : Token}
    (hts : withProducts ts = before ++ p :: after) (hp : p.implicit = true) : AddedBetween before p after := by
  induction ts generalizing before with
  | nil =>
    rw [withProducts] at hts
    simp at hts
  | cons t ts ih =>
    obtain ⟨ht, hrest⟩ := List.forall_mem_cons.mp h
    obtain ⟨back, hback⟩ := withProducts_cons t ts
    cases before with
    | nil =>
      -- The first token is written.
      obtain rfl : t = p := List.head_eq_of_cons_eq (hback.symm.trans hts)
      rw [ht] at hp
      cases hp
    | cons b before =>
    cases ts with
    | nil =>
      rw [withProducts, List.cons_append, List.cons.injEq] at hts
      simp at hts
    | cons u rest =>
      rw [withProducts_cons_cons, List.cons_append, List.cons.injEq, productBetween] at hts
      obtain ⟨rfl, hts⟩ := hts
      by_cases hapart : Apart t.word u.word
      · rw [if_pos hapart, List.nil_append] at hts
        exact (ih hrest hts).append [t]
      · rw [if_neg hapart, List.singleton_append] at hts
        cases before with
        | nil =>
          obtain ⟨rfl, hafter⟩ := List.cons.inj hts
          obtain ⟨back, hback⟩ := withProducts_cons u rest
          have hadded : ⟨.operator, "*", u.position, true⟩ ∈ productBetween t u := by simp [productBetween, hapart]
          exact ⟨[], t, u, back, rfl, hafter.symm.trans hback, ht, hrest u List.mem_cons_self, hadded⟩
        | cons c before =>
          rw [List.cons_append, List.cons.injEq] at hts
          exact (ih hrest hts.2).append [t, c]

theorem multiplied_withProducts (h : ∀ t ∈ ts, t.implicit = false) : Multiplied (withProducts ts) where
  between before t u after hwritten := by
    rw [written_withProducts h] at hwritten
    exact withProducts_between h hwritten
  nowhere before p after hsplit hp := withProducts_nowhere h hsplit hp

end

theorem Tiles.explicit {position : Nat} {cs : List Char} {ts : List Token} (h : Tiles position cs ts) :
    ∀ t ∈ ts, t.implicit = false := by
  induction h with
  | nil => exact List.forall_mem_nil _
  | skip hc h ih => exact ih
  | token hexplicit hne hwritten h ih => exact List.forall_mem_cons.mpr ⟨hexplicit, ih⟩

/-- The tokens of a text account for all of it: those that are written cover it, and the others are the products that
are meant between them. -/
theorem tokenize_accounts (functions : List String) (text : String) :
    Covers text.toList 0 (written (tokenize functions text)) ∧ Multiplied (tokenize functions text) := by
  have htiles := tiles_scan functions 0 text.toList
  rw [tokenize, written_withProducts htiles.explicit]
  exact ⟨htiles.covers rfl (Nat.zero_le _), multiplied_withProducts htiles.explicit⟩

end Calculator.Token
