import Calculator.Proofs.Validation
import Mathlib.Order.Lattice.Nat
/-!
The parentheses that a text leaves without a partner, and what the scan finds of them. Which ones pair up is said
without the scan: one that closes belongs to the nearest one before it that is still open. The scan's stack holds those
that are still open, the last one on top; so it finds the first that closes none and the last that stays open, and finds
nothing exactly in balanced texts.
-/
namespace Calculator.Validation

variable {cs : List Char}

/-! ### Balanced texts -/

/-- A text in which every parenthesis that opens is closed behind a balanced text. -/
inductive Balanced : List Char → Prop
  | nil : Balanced []
  | other {c : Char} {rest : List Char} (hopen : c ≠ '(') (hclose : c ≠ ')') (hrest : Balanced rest) :
      Balanced (c :: rest)
  | group {inner rest : List Char} (hinner : Balanced inner) (hrest : Balanced rest) :
      Balanced ('(' :: (inner ++ ')' :: rest))

/-- A text that closes so many parentheses which were open before it, and is balanced between them. -/
def Closes : ℕ → List Char → Prop
  | 0, cs => Balanced cs
  | n + 1, cs => ∃ inner rest, cs = inner ++ ')' :: rest ∧ Balanced inner ∧ Closes n rest

theorem Closes.other {n : ℕ} {c : Char} (hopen : c ≠ '(') (hclose : c ≠ ')') (h : Closes n cs) :
    Closes n (c :: cs) := by
  cases n with
  | zero => exact Balanced.other hopen hclose h
  | succ n =>
    obtain ⟨inner, rest, rfl, hinner, hrest⟩ := h
    exact ⟨c :: inner, rest, rfl, hinner.other hopen hclose, hrest⟩

/-- A parenthesis that opens in front of the text is the first one that is closed. -/
theorem Closes.opened {n : ℕ} (h : Closes (n + 1) cs) : Closes n ('(' :: cs) := by
  obtain ⟨inner, rest, rfl, hinner, hrest⟩ := h
  cases n with
  | zero => exact Balanced.group hinner hrest
  | succ n =>
    obtain ⟨between, last, rfl, hbetween, hlast⟩ := hrest
    have hsplit : '(' :: (inner ++ ')' :: (between ++ ')' :: last)) =
        '(' :: (inner ++ ')' :: between) ++ ')' :: last := by
      rw [List.cons_append, List.append_assoc, List.cons_append]
    exact ⟨_, last, hsplit, hinner.group hbetween, hlast⟩

/-- A balanced text leaves the stack as it was. -/
theorem unpaired_of_balanced (h : Balanced cs) (position : ℕ) (opened : List ℕ) (rest : List Char) :
    unpaired position opened (cs ++ rest) = unpaired (position + cs.length) opened rest := by
  induction h generalizing position opened rest with
  | nil => rfl
  | other hopen hclose _ ih =>
    rw [List.cons_append, unpaired, ih, List.length_cons]
    · congr 1
      omega
    · exact hopen
    · exact hclose
  | group _ _ ihinner ihrest =>
    rw [List.cons_append, unpaired, List.append_assoc, ihinner, List.cons_append, unpaired, ihrest, List.length_cons,
      List.length_append, List.length_cons]
    congr 1
    omega

theorem closes_of_unpaired {position : ℕ} {opened : List ℕ} (hclosing : (unpaired position opened cs).closing = [])
    (hopening : (unpaired position opened cs).opening = []) : Closes opened.length cs := by
  fun_induction unpaired position opened cs with
  | case1 position opened =>
    have hempty : opened = [] := hopening
    rw [hempty]
    exact Balanced.nil
  | case2 position opened cs ih => exact (ih hclosing hopening).opened
  | case3 position cs head others ih => exact ⟨[], cs, rfl, Balanced.nil, ih hclosing hopening⟩
  | case4 position cs later ih => cases hclosing
  | case5 position opened c cs hopen hclose ih => exact (ih hclosing hopening).other hopen hclose

theorem balanced_iff : Balanced cs ↔ (unpaired 0 [] cs).closing = [] ∧ (unpaired 0 [] cs).opening = [] := by
  constructor
  · intro h
    have hnone := unpaired_of_balanced h 0 [] []
    rw [List.append_nil] at hnone
    rw [hnone]
    exact ⟨rfl, rfl⟩
  · rintro ⟨hclosing, hopening⟩
    exact closes_of_unpaired hclosing hopening

/-! ### Pairs -/

/-- The parenthesis at `j` closes, and the one at `i` is the nearest before it that opens and has no partner yet. -/
def Pairs (cs : List Char) (i j : ℕ) : Prop :=
  cs[j]? = some ')' ∧ IsGreatest {k | k < j ∧ cs[k]? = some '(' ∧ ∀ m, m < j → ¬Pairs cs k m} i
termination_by j

/-- The parenthesis at `i` opens, and has no partner before `stop`. -/
def OpenBefore (cs : List Char) (stop i : ℕ) : Prop :=
  i < stop ∧ cs[i]? = some '(' ∧ ∀ m, m < stop → ¬Pairs cs i m

/-- The parenthesis at `j` closes, and has no partner. -/
def ClosesNone (cs : List Char) (j : ℕ) : Prop := cs[j]? = some ')' ∧ ∀ i, ¬Pairs cs i j

/-- The parenthesis at `i` opens, and has no partner. -/
def StaysOpen (cs : List Char) (i : ℕ) : Prop := cs[i]? = some '(' ∧ ∀ j, ¬Pairs cs i j

section
variable {i j position : ℕ}

theorem pairs_iff : Pairs cs i j ↔ cs[j]? = some ')' ∧ IsGreatest {k | OpenBefore cs j k} i := by
  rw [Pairs]
  rfl

theorem Pairs.lt (h : Pairs cs i j) : i < j := (pairs_iff.mp h).2.1.1

theorem not_pairs (h : cs[j]? ≠ some ')') : ¬Pairs cs i j := fun hpairs => h (pairs_iff.mp hpairs).1

/-- What is open behind a character was open before it and is not its partner, or is the character itself. -/
theorem openBefore_succ : OpenBefore cs (position + 1) i ↔
    OpenBefore cs position i ∧ ¬Pairs cs i position ∨ i = position ∧ cs[position]? = some '(' := by
  constructor
  · rintro ⟨hi, hopen, hnone⟩
    rcases Nat.lt_succ_iff_lt_or_eq.mp hi with hlt | rfl
    · exact .inl ⟨⟨hlt, hopen, fun m hm => hnone m (Nat.lt_succ_of_lt hm)⟩, hnone position (Nat.lt_succ_self _)⟩
    · exact .inr ⟨rfl, hopen⟩
  · rintro (⟨⟨hi, hopen, hnone⟩, hpartner⟩ | ⟨rfl, hopen⟩)
    · refine ⟨Nat.lt_succ_of_lt hi, hopen, fun m hm => ?_⟩
      rcases Nat.lt_succ_iff_lt_or_eq.mp hm with hlt | rfl
      · exact hnone m hlt
      · exact hpartner
    · refine ⟨Nat.lt_succ_self _, hopen, fun m hm hpairs => ?_⟩
      have hlater := hpairs.lt
      omega

/-- Behind the end of the text no more partners come. -/
theorem openBefore_iff_staysOpen (h : cs.length ≤ position) : OpenBefore cs position i ↔ StaysOpen cs i := by
  constructor
  · rintro ⟨-, hopen, hnone⟩
    refine ⟨hopen, fun j => ?_⟩
    rcases Nat.lt_or_ge j position with hj | hj
    · exact hnone j hj
    · have hend : cs[j]? = none := List.getElem?_eq_none (h.trans hj)
      exact not_pairs (by rw [hend]; decide)
  · rintro ⟨hopen, hnone⟩
    obtain ⟨hi, -⟩ := List.getElem?_eq_some_iff.mp hopen
    exact ⟨hi.trans_le h, hopen, fun m _ => hnone m⟩

end

/-! ### The stack of the scan -/

theorem head?_eq_some_iff_isLeast {α : Type*} [PartialOrder α] {l : List α} (h : l.Pairwise (· < ·)) {a : α} :
    l.head? = some a ↔ IsLeast {k | k ∈ l} a := by
  cases l with
  | nil => exact iff_of_false (Option.some_ne_none a).symm fun hleast => List.not_mem_nil hleast.1
  | cons b l =>
    have hbound : ∀ k ∈ l, b ≤ k := fun k hk => (List.rel_of_pairwise_cons h hk).le
    have hleast : IsLeast {k | k ∈ b :: l} b :=
      ⟨List.mem_cons_self, List.forall_mem_cons.mpr ⟨le_rfl, hbound⟩⟩
    rw [List.head?_cons, Option.some_inj]
    constructor
    · rintro rfl
      exact hleast
    · exact hleast.unique

theorem head?_eq_some_iff_isGreatest {l : List ℕ} (h : l.Pairwise (· > ·)) {i : ℕ} :
    l.head? = some i ↔ IsGreatest {k | k ∈ l} i :=
  head?_eq_some_iff_isLeast (α := ℕᵒᵈ) h

/-- The stack holds the parentheses that are open before a place, the last one on top. -/
structure Tracks (cs : List Char) (position : ℕ) (opened : List ℕ) : Prop where
  sorted : opened.Pairwise (· > ·)
  mem_iff : ∀ i, i ∈ opened ↔ OpenBefore cs position i

section
variable {position : ℕ} {opened : List ℕ}

theorem tracks_nil (cs : List Char) : Tracks cs 0 [] :=
  ⟨List.Pairwise.nil, fun _ => iff_of_false List.not_mem_nil fun h => Nat.not_lt_zero _ h.1⟩

theorem Tracks.push (h : Tracks cs position opened) (hc : cs[position]? = some '(') :
    Tracks cs (position + 1) (position :: opened) := by
  have hbelow : ∀ i ∈ opened, i < position := fun i hi => ((h.mem_iff i).mp hi).1
  have hpartner : ∀ i, ¬Pairs cs i position := fun i => not_pairs (by rw [hc]; decide)
  refine ⟨List.pairwise_cons.mpr ⟨hbelow, h.sorted⟩, fun i => ?_⟩
  rw [List.mem_cons, h.mem_iff, openBefore_succ, and_iff_left (hpartner i), and_iff_left hc, or_comm]

theorem Tracks.keep (h : Tracks cs position opened) (hopen : cs[position]? ≠ some '(')
    (hclose : cs[position]? ≠ some ')') : Tracks cs (position + 1) opened := by
  refine ⟨h.sorted, fun i => ?_⟩
  have hself : ¬(i = position ∧ cs[position]? = some '(') := fun hi => hopen hi.2
  rw [h.mem_iff, openBefore_succ, and_iff_left (not_pairs hclose), or_iff_left hself]

/-- The partner of a parenthesis that closes is on top of the stack. -/
theorem Tracks.pairs_iff (h : Tracks cs position opened) (hc : cs[position]? = some ')') {i : ℕ} :
    Pairs cs i position ↔ opened.head? = some i := by
  have hopen : {k | OpenBefore cs position k} = {k | k ∈ opened} := Set.ext fun k => (h.mem_iff k).symm
  rw [Validation.pairs_iff, and_iff_right hc, hopen, head?_eq_some_iff_isGreatest h.sorted]

theorem Tracks.pop (h : Tracks cs position opened) (hc : cs[position]? = some ')') :
    Tracks cs (position + 1) opened.tail := by
  refine ⟨h.sorted.tail, fun i => ?_⟩
  have hself : ¬(i = position ∧ cs[position]? = some '(') := fun hi => absurd (hc.symm.trans hi.2) (by decide)
  rw [openBefore_succ, ← h.mem_iff, h.pairs_iff hc, or_iff_left hself]
  cases opened with
  | nil => exact iff_of_false List.not_mem_nil fun hi => List.not_mem_nil hi.1
  | cons top others =>
    have hbelow : ∀ k ∈ others, k < top := fun k hk => List.rel_of_pairwise_cons h.sorted hk
    rw [List.tail_cons, List.head?_cons, Option.some_inj, List.mem_cons]
    constructor
    · exact fun hi => ⟨.inr hi, (hbelow i hi).ne'⟩
    · exact fun ⟨hi, hne⟩ => hi.resolve_left (Ne.symm hne)

theorem Tracks.closesNone_iff (h : Tracks cs position opened) (hc : cs[position]? = some ')') :
    ClosesNone cs position ↔ opened = [] := by
  rw [ClosesNone, and_iff_right hc]
  cases opened with
  | nil => exact iff_of_true (fun i => mt (h.pairs_iff hc).mp (Option.some_ne_none i).symm) rfl
  | cons top others => exact iff_of_false (fun hnone => hnone top ((h.pairs_iff hc).mpr rfl)) (List.cons_ne_nil _ _)

end

/-! ### What the scan finds -/

/-- From a place on, all parentheses that close none, in order; and all that stay open, last first. -/
structure Finds (cs : List Char) (position : ℕ) (found : Unpaired) : Prop where
  closing_sorted : found.closing.Pairwise (· < ·)
  mem_closing : ∀ j, j ∈ found.closing ↔ position ≤ j ∧ ClosesNone cs j
  opening_sorted : found.opening.Pairwise (· > ·)
  mem_opening : ∀ i, i ∈ found.opening ↔ StaysOpen cs i

section
variable {position : ℕ} {found : Unpaired}

theorem finds_of_end {opened : List ℕ} (h : Tracks cs position opened) (hend : cs.length ≤ position) :
    Finds cs position ⟨[], opened⟩ where
  closing_sorted := List.Pairwise.nil
  mem_closing j := iff_of_false List.not_mem_nil fun hj => by
    have hnone := hj.2.1
    rw [List.getElem?_eq_none (hend.trans hj.1)] at hnone
    cases hnone
  opening_sorted := h.sorted
  mem_opening i := (h.mem_iff i).trans (openBefore_iff_staysOpen hend)

theorem Finds.skip (h : Finds cs (position + 1) found) (hc : ¬ClosesNone cs position) : Finds cs position found where
  closing_sorted := h.closing_sorted
  mem_closing j := by
    rw [h.mem_closing]
    refine and_congr_left fun hj => ⟨Nat.le_of_succ_le, fun hle => Nat.lt_of_le_of_ne hle ?_⟩
    rintro rfl
    exact hc hj
  opening_sorted := h.opening_sorted
  mem_opening := h.mem_opening

theorem Finds.report (h : Finds cs (position + 1) found) (hc : ClosesNone cs position) :
    Finds cs position ⟨position :: found.closing, found.opening⟩ where
  closing_sorted := List.pairwise_cons.mpr ⟨fun j hj => ((h.mem_closing j).mp hj).1, h.closing_sorted⟩
  mem_closing j := by
    rw [List.mem_cons, h.mem_closing]
    constructor
    · rintro (rfl | ⟨hle, hj⟩)
      · exact ⟨Nat.le_refl _, hc⟩
      · exact ⟨Nat.le_of_succ_le hle, hj⟩
    · rintro ⟨hle, hj⟩
      exact (Nat.eq_or_lt_of_le hle).imp Eq.symm fun hlt => ⟨hlt, hj⟩
  opening_sorted := h.opening_sorted
  mem_opening := h.mem_opening

end

theorem getElem?_of_drop {position : ℕ} {c : Char} {rest : List Char} (h : cs.drop position = c :: rest) :
    cs[position]? = some c := by
  rw [← List.head?_drop, h, List.head?_cons]

theorem drop_succ_of_drop {position : ℕ} {c : Char} {rest : List Char} (h : cs.drop position = c :: rest) :
    cs.drop (position + 1) = rest := by
  rw [← List.tail_drop, h, List.tail_cons]

/-- Each character moves the stack on, and the findings behind it back. -/
theorem finds_unpaired {position : ℕ} {opened : List ℕ} {rest : List Char} (h : Tracks cs position opened)
    (hrest : cs.drop position = rest) : Finds cs position (unpaired position opened rest) := by
  fun_induction unpaired position opened rest with
  | case1 position opened =>
    have hend : cs.length ≤ position := List.drop_eq_nil_iff.mp hrest
    exact finds_of_end h hend
  | case2 position opened rest ih =>
    have hc := getElem?_of_drop hrest
    have hlater := ih (h.push hc) (drop_succ_of_drop hrest)
    refine hlater.skip fun hclose => ?_
    exact absurd (hc.symm.trans hclose.1) (by decide)
  | case3 position rest top others ih =>
    have hc := getElem?_of_drop hrest
    have hlater := ih (h.pop hc) (drop_succ_of_drop hrest)
    refine hlater.skip fun hnone => ?_
    exact List.cons_ne_nil _ _ ((h.closesNone_iff hc).mp hnone)
  | case4 position rest later ih =>
    have hc := getElem?_of_drop hrest
    have hlater := ih (h.pop hc) (drop_succ_of_drop hrest)
    exact hlater.report ((h.closesNone_iff hc).mpr rfl)
  | case5 position opened c rest hopen hclose ih =>
    have hc := getElem?_of_drop hrest
    have hne : cs[position]? ≠ some '(' := fun hsame => hopen (Option.some.inj (hc.symm.trans hsame))
    have hne' : cs[position]? ≠ some ')' := fun hsame => hclose (Option.some.inj (hc.symm.trans hsame))
    have hlater := ih (h.keep hne hne') (drop_succ_of_drop hrest)
    exact hlater.skip fun hnone => hne' hnone.1

/-- What is found are the first parenthesis that closes none and the last that stays open, if there are any. -/
theorem mem_parenthesisFindings {f : Finding} : f ∈ parenthesisFindings cs ↔
    (∃ j, IsLeast {j | ClosesNone cs j} j ∧ f = ⟨.unmatchedClose, ⟨j, j + 1⟩⟩) ∨
      ∃ i, IsGreatest {i | StaysOpen cs i} i ∧ f = ⟨.unmatchedOpen, ⟨i, i + 1⟩⟩ := by
  have hfinds := finds_unpaired (tracks_nil cs) List.drop_zero
  have hclosing : {j | j ∈ (unpaired 0 [] cs).closing} = {j | ClosesNone cs j} :=
    Set.ext fun j => (hfinds.mem_closing j).trans (and_iff_right (Nat.zero_le j))
  have hopening : {i | i ∈ (unpaired 0 [] cs).opening} = {i | StaysOpen cs i} :=
    Set.ext fun i => hfinds.mem_opening i
  rw [parenthesisFindings, List.mem_append, Option.mem_toList, Option.mem_toList, ← hclosing, ← hopening]
  simp only [Option.map_eq_some_iff, head?_eq_some_iff_isLeast hfinds.closing_sorted,
    head?_eq_some_iff_isGreatest hfinds.opening_sorted, eq_comm (a := f)]

theorem mem_unmatchedClose {span : Span} : ⟨.unmatchedClose, span⟩ ∈ parenthesisFindings cs ↔
    ∃ j, IsLeast {j | ClosesNone cs j} j ∧ span = ⟨j, j + 1⟩ := by
  simp [mem_parenthesisFindings]

theorem mem_unmatchedOpen {span : Span} : ⟨.unmatchedOpen, span⟩ ∈ parenthesisFindings cs ↔
    ∃ i, IsGreatest {i | StaysOpen cs i} i ∧ span = ⟨i, i + 1⟩ := by
  simp [mem_parenthesisFindings]

theorem exists_isLeast_closesNone (h : ∃ j, ClosesNone cs j) : ∃ j, IsLeast {j | ClosesNone cs j} j :=
  ⟨_, Nat.sInf_mem h, fun _ hj => Nat.sInf_le hj⟩

theorem exists_isGreatest_staysOpen (h : ∃ i, StaysOpen cs i) : ∃ i, IsGreatest {i | StaysOpen cs i} i := by
  have hbound : BddAbove {i | StaysOpen cs i} := by
    refine ⟨cs.length, fun i hi => ?_⟩
    obtain ⟨hlt, -⟩ := List.getElem?_eq_some_iff.mp hi.1
    exact hlt.le
  exact ⟨_, Nat.sSup_mem h hbound, fun _ hi => le_csSup hbound hi⟩

theorem parenthesisFindings_eq_nil_iff : parenthesisFindings cs = [] ↔ Balanced cs := by
  simp [parenthesisFindings, balanced_iff]

/-- One finding of each kind at most, and a parenthesis that closes none first. -/
theorem problems_sublist (cs : List Char) :
    ((parenthesisFindings cs).map Finding.problem).Sublist [.unmatchedClose, .unmatchedOpen] := by
  unfold parenthesisFindings
  dsimp only
  cases (unpaired 0 [] cs).closing.head? <;> cases (unpaired 0 [] cs).opening.head? <;> simp

/-- A parenthesis is not blank, so that the whole check reports what the scan finds. -/
theorem findings_eq_parenthesisFindings {text : String} (h : parenthesisFindings text.toList ≠ []) :
    findings text = parenthesisFindings text.toList := by
  have hblank : (Text.trim text.toList).isEmpty = false := by
    rw [Bool.eq_false_iff]
    intro hempty
    have hall := isBlank_of_trim (List.isEmpty_iff.mp hempty)
    obtain ⟨f, hf⟩ := List.exists_mem_of_ne_nil _ h
    rcases mem_parenthesisFindings.mp hf with ⟨i, hi, -⟩ | ⟨i, hi, -⟩
    · exact absurd (hall _ (List.mem_of_getElem? hi.1.1)) (by decide)
    · exact absurd (hall _ (List.mem_of_getElem? hi.1.1)) (by decide)
  rw [findings, validate]
  rw [hblank, if_neg Bool.false_ne_true]
  split
  · rename_i hnone
    exact absurd hnone h
  · rfl

theorem exists_unmatchedClose_iff :
    (∃ span, ⟨.unmatchedClose, span⟩ ∈ parenthesisFindings cs) ↔ ∃ j, ClosesNone cs j := by
  simp only [mem_unmatchedClose]
  constructor
  · rintro ⟨span, j, hj, -⟩
    exact ⟨j, hj.1⟩
  · intro h
    obtain ⟨j, hj⟩ := exists_isLeast_closesNone h
    exact ⟨_, j, hj, rfl⟩

theorem exists_unmatchedOpen_iff :
    (∃ span, ⟨.unmatchedOpen, span⟩ ∈ parenthesisFindings cs) ↔ ∃ i, StaysOpen cs i := by
  simp only [mem_unmatchedOpen]
  constructor
  · rintro ⟨span, i, hi, -⟩
    exact ⟨i, hi.1⟩
  · intro h
    obtain ⟨i, hi⟩ := exists_isGreatest_staysOpen h
    exact ⟨_, i, hi, rfl⟩

/-- The scan finds nothing exactly in balanced texts. It reports a parenthesis that closes none exactly if there is one,
and then the first; it reports one that stays open exactly if there is one, and then the last. Of both reports the former
comes first, and the check of the whole text consists of them, if there are any. -/
theorem parenthesisFindings_exact (text : String) :
    (parenthesisFindings text.toList = [] ↔ Balanced text.toList) ∧
      ((∃ span, ⟨.unmatchedClose, span⟩ ∈ parenthesisFindings text.toList) ↔ ∃ j, ClosesNone text.toList j) ∧
      (∀ span, ⟨.unmatchedClose, span⟩ ∈ parenthesisFindings text.toList ↔
        ∃ j, IsLeast {j | ClosesNone text.toList j} j ∧ span = ⟨j, j + 1⟩) ∧
      ((∃ span, ⟨.unmatchedOpen, span⟩ ∈ parenthesisFindings text.toList) ↔ ∃ i, StaysOpen text.toList i) ∧
      (∀ span, ⟨.unmatchedOpen, span⟩ ∈ parenthesisFindings text.toList ↔
        ∃ i, IsGreatest {i | StaysOpen text.toList i} i ∧ span = ⟨i, i + 1⟩) ∧
      ((parenthesisFindings text.toList).map Finding.problem).Sublist [.unmatchedClose, .unmatchedOpen] ∧
      (parenthesisFindings text.toList = [] ∨ findings text = parenthesisFindings text.toList) :=
  ⟨parenthesisFindings_eq_nil_iff, exists_unmatchedClose_iff, fun _ => mem_unmatchedClose, exists_unmatchedOpen_iff,
    fun _ => mem_unmatchedOpen, problems_sublist _, or_iff_not_imp_left.mpr findings_eq_parenthesisFindings⟩

/-- Two parentheses that close none around a group, and two that stay open behind it. -/
example : parenthesisFindings "(a))b)((c)(".toList =
    [⟨.unmatchedClose, ⟨3, 4⟩⟩, ⟨.unmatchedOpen, ⟨10, 11⟩⟩] := by decide

end Calculator.Validation
