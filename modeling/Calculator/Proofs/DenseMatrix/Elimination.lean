import Calculator.DenseMatrix.Elimination
/-!
Elimination step by step. A step takes the pivot's row out of the system and leaves the other rows, one column narrower;
which rows it takes depends only on the columns that are eliminated, whatever stands behind them in the rows.
-/
namespace Calculator.DenseMatrix

variable {α : Type} [Scalar α] {first row pivotRow : List α} {rest rows rows' : List (List α)} {w : Nat}

/-! ### The pivot -/

theorem largestLead_cases (best : Nat × α) (place : Nat) (rows : List (List α)) :
    largestLead best place rows = best ∨
      ∃ i row, rows[i]? = some row ∧ largestLead best place rows = (place + i, lead row) := by
  induction rows generalizing best place with
  | nil => exact .inl rfl
  | cons row rows ih =>
    unfold largestLead
    rcases ih (if Scalar.compareAbs best.2 (lead row) = .gt then best else (place, lead row)) (place + 1) with
      hbest | ⟨i, row', hrow', hfound⟩
    · rw [hbest]
      split
      · exact .inl rfl
      · exact .inr ⟨0, row, rfl, rfl⟩
    · refine .inr ⟨i + 1, row', hrow', ?_⟩
      rw [hfound, Nat.add_right_comm, Nat.add_assoc]

/-- Only the first entries matter. -/
theorem largestLead_congr (best : Nat × α) (place : Nat) (hleads : rows'.map lead = rows.map lead) :
    largestLead best place rows' = largestLead best place rows := by
  induction rows generalizing rows' best place with
  | nil =>
    have hnil : rows' = [] := by simpa using hleads
    rw [hnil]
  | cons row rows ih =>
    cases rows' with
    | nil => simp at hleads
    | cons row' rows' =>
      obtain ⟨hlead, htail⟩ : lead row' = lead row ∧ rows'.map lead = rows.map lead := by simpa using hleads
      unfold largestLead
      rw [hlead]
      exact ih _ _ htail

theorem pivot_of_first (hplace : (largestLead (0, lead first) 1 rest).1 = 0) :
    pivot first rest = ⟨false, first, rest⟩ := by
  simp [pivot, hplace]

theorem pivot_of_other {i : Nat} (hplace : (largestLead (0, lead first) 1 rest).1 = i + 1)
    (hrow : rest[i]? = some row) : pivot first rest = ⟨true, row, rest.set i first⟩ := by
  simp [pivot, hplace, hrow]

/-- The pivot's row is the first one, or it changes places with the first one. -/
theorem pivot_cases (first : List α) (rest : List (List α)) :
    largestLead (0, lead first) 1 rest = (0, lead first) ∧ pivot first rest = ⟨false, first, rest⟩ ∨
      ∃ i row, rest[i]? = some row ∧ largestLead (0, lead first) 1 rest = (i + 1, lead row) ∧
        pivot first rest = ⟨true, row, rest.set i first⟩ := by
  rcases largestLead_cases (0, lead first) 1 rest with hfirst | ⟨i, row, hrow, hfound⟩
  · exact .inl ⟨hfirst, pivot_of_first (congrArg Prod.fst hfirst)⟩
  · have hplace : largestLead (0, lead first) 1 rest = (i + 1, lead row) := by rw [hfound, Nat.add_comm]
    exact .inr ⟨i, row, hrow, hplace, pivot_of_other (congrArg Prod.fst hplace) hrow⟩

@[simp]
theorem length_others_pivot (first : List α) (rest : List (List α)) :
    (pivot first rest).others.length = rest.length := by
  rcases pivot_cases first rest with ⟨-, hpivot⟩ | ⟨i, row, -, -, hpivot⟩ <;> simp [hpivot]

/-- The rows are the same after the exchange. -/
theorem mem_pivot_iff (first : List α) (rest : List (List α)) (row : List α) :
    row ∈ (pivot first rest).pivotRow :: (pivot first rest).others ↔ row ∈ first :: rest := by
  rcases pivot_cases first rest with ⟨-, hpivot⟩ | ⟨i, other, hother, -, hpivot⟩
  · rw [hpivot]
  · obtain ⟨hi, rfl⟩ := List.getElem?_eq_some_iff.mp hother
    have hset : rest.set i first = rest.take i ++ first :: rest.drop (i + 1) := by
      rw [List.set_eq_take_append_cons_drop, if_pos hi]
    have hsplit : row ∈ rest ↔ row ∈ rest.take i ∨ row = rest[i] ∨ row ∈ rest.drop (i + 1) := by
      have hmem : row ∈ rest.take i ++ rest[i] :: rest.drop (i + 1) ↔ row ∈ rest := by simp
      rw [← hmem, List.mem_append, List.mem_cons]
    rw [hpivot, List.mem_cons, List.mem_cons, hset, List.mem_append, List.mem_cons, hsplit]
    grind

/-! ### Widths -/

/-- All rows have this many entries. -/
def HasWidth (w : Nat) (rows : List (List α)) : Prop := ∀ row ∈ rows, row.length = w

omit [Scalar α] in
theorem isWellShaped_iff {m : DenseMatrix α} : m.isWellShaped ↔ m.data.length = m.rows ∧ HasWidth m.cols m.data := by
  simp [isWellShaped, HasWidth]

theorem HasWidth.pivoted (hwidth : HasWidth w (first :: rest)) :
    (pivot first rest).pivotRow.length = w ∧ HasWidth w (pivot first rest).others := by
  have hrows : HasWidth w ((pivot first rest).pivotRow :: (pivot first rest).others) :=
    fun row hrow => hwidth row ((mem_pivot_iff first rest row).mp hrow)
  exact List.forall_mem_cons.mp hrows

theorem HasWidth.eliminateLead (hpivot : pivotRow.length = w + 1) (hwidth : HasWidth (w + 1) rows) :
    HasWidth w (rows.map (eliminateLead pivotRow)) := by
  intro row hrow
  obtain ⟨before, hbefore, rfl⟩ := List.mem_map.mp hrow
  simp [DenseMatrix.eliminateLead, subtractScaled, hwidth before hbefore, hpivot]

theorem HasWidth.clearLead {pivotTail : List α} (hpivot : pivotTail.length = w) (hwidth : HasWidth (w + 1) rows) :
    HasWidth w (rows.map (clearLead pivotTail)) := by
  intro row hrow
  obtain ⟨before, hbefore, rfl⟩ := List.mem_map.mp hrow
  unfold DenseMatrix.clearLead
  split <;> simp [subtractScaled, hwidth before hbefore, hpivot]

omit [Scalar α] in
theorem hasWidth_append_cons {above below : List (List α)} :
    HasWidth w (above ++ row :: below) ↔ HasWidth w above ∧ row.length = w ∧ HasWidth w below := by
  simp only [HasWidth, List.forall_mem_append, List.forall_mem_cons]

omit [Scalar α] in
theorem HasWidth.append (hrows : HasWidth w rows) (hrows' : HasWidth w rows') : HasWidth w (rows ++ rows') :=
  fun row hrow => (List.mem_append.mp hrow).elim (hrows row) (hrows' row)

omit [Scalar α] in
theorem HasWidth.set {i : Nat} (hwidth : HasWidth w rows)
    (hrow : row.length = w) : HasWidth w (rows.set i row) := by
  intro row' hrow'
  rcases List.mem_or_eq_of_mem_set hrow' with hmem | rfl
  · exact hwidth row' hmem
  · exact hrow

/-! ### The steps -/

theorem eliminate_nil : eliminate ([] : List (List α)) = some [] := by
  rw [eliminate]

theorem clearColumns_nil (done : List (List α)) : clearColumns done [] = some done := by
  rw [clearColumns]

theorem eliminate_cons_of_tiny (htiny : Scalar.isTiny (lead (pivot first rest).pivotRow)) :
    eliminate (first :: rest) = none := by
  rw [eliminate, if_pos htiny]

theorem eliminate_cons_of_not_tiny (htiny : ¬Scalar.isTiny (lead (pivot first rest).pivotRow)) :
    eliminate (first :: rest) =
      (eliminate ((pivot first rest).others.map (eliminateLead (pivot first rest).pivotRow))).map
        (((pivot first rest).exchanged, (pivot first rest).pivotRow) :: ·) := by
  rw [eliminate, if_neg htiny, Option.map_eq_bind]
  rfl

theorem clearColumns_cons_of_tiny {done : List (List α)} (htiny : Scalar.isTiny (lead (pivot first rest).pivotRow)) :
    clearColumns done (first :: rest) = none := by
  rw [clearColumns, if_pos htiny]

/-- The pivot's row behind the pivot, after it has been divided by it. -/
def normalizedTail (pivotRow : List α) : List α := pivotRow.tail.map (· / lead pivotRow)

theorem clearColumns_cons_of_not_tiny {done : List (List α)}
    (htiny : ¬Scalar.isTiny (lead (pivot first rest).pivotRow)) :
    clearColumns done (first :: rest) =
      clearColumns
        (done.map (clearLead (normalizedTail (pivot first rest).pivotRow)) ++
          [normalizedTail (pivot first rest).pivotRow])
        ((pivot first rest).others.map (clearLead (normalizedTail (pivot first rest).pivotRow))) := by
  rw [clearColumns, if_neg htiny]
  rfl

/-- A property of systems follows from that of the smaller one, or the step's pivot is tiny. -/
theorem eliminate_induction {motive : List (List α) → Prop} (nil : motive [])
    (tiny : ∀ first rest, Scalar.isTiny (lead (pivot first rest).pivotRow) → motive (first :: rest))
    (step : ∀ first rest, ¬Scalar.isTiny (lead (pivot first rest).pivotRow) →
      motive ((pivot first rest).others.map (eliminateLead (pivot first rest).pivotRow)) → motive (first :: rest))
    (rows : List (List α)) : motive rows :=
  eliminate.induct motive nil tiny step rows

/-- There is one step for each row. -/
theorem length_of_eliminate {steps : List (Bool × List α)} (hsteps : eliminate rows = some steps) :
    steps.length = rows.length := by
  induction rows using eliminate_induction generalizing steps with
  | nil =>
    rw [eliminate_nil] at hsteps
    cases hsteps
    rfl
  | tiny first rest htiny =>
    rw [eliminate_cons_of_tiny htiny] at hsteps
    cases hsteps
  | step first rest htiny ih =>
    rw [eliminate_cons_of_not_tiny htiny] at hsteps
    obtain ⟨later, hlater, rfl⟩ := Option.map_eq_some_iff.mp hsteps
    rw [List.length_cons, ih hlater, List.length_map, length_others_pivot, List.length_cons]

theorem length_backSubstitute (rows : List (List α)) : (backSubstitute rows).length = rows.length := by
  induction rows with
  | nil => rfl
  | cons row rows ih =>
    unfold backSubstitute
    rw [List.length_cons, List.length_cons, ih]

/-- Each step takes a column away; all rows are kept. -/
theorem shape_of_clearColumns {done cleared : List (List α)} (hdone : HasWidth (w + rows.length) done)
    (hrows : HasWidth (w + rows.length) rows) (hcleared : clearColumns done rows = some cleared) :
    cleared.length = done.length + rows.length ∧ HasWidth w cleared := by
  induction hcount : rows.length generalizing done rows with
  | zero =>
    obtain rfl := List.eq_nil_of_length_eq_zero hcount
    rw [clearColumns_nil] at hcleared
    cases hcleared
    exact ⟨rfl, hdone⟩
  | succ n ih =>
    obtain ⟨first, rest, rfl⟩ := List.exists_cons_of_length_eq_add_one hcount
    rw [hcount] at hdone hrows
    obtain ⟨hpivot, hothers⟩ := hrows.pivoted
    by_cases htiny : Scalar.isTiny (lead (pivot first rest).pivotRow)
    · rw [clearColumns_cons_of_tiny htiny] at hcleared
      cases hcleared
    · rw [clearColumns_cons_of_not_tiny htiny] at hcleared
      have htail : (normalizedTail (pivot first rest).pivotRow).length = w + n := by
        simp only [normalizedTail, List.length_map, List.length_tail, hpivot]
        omega
      have hleft : ((pivot first rest).others.map (clearLead (normalizedTail (pivot first rest).pivotRow))).length =
          n := by simpa using hcount
      have hcleared' := ih (by
        rw [hleft]
        exact (hdone.clearLead htail).append (by simpa [HasWidth] using htail)) (by
        rw [hleft]
        exact hothers.clearLead htail) hcleared hleft
      refine ⟨?_, hcleared'.2⟩
      rw [hcleared'.1]
      simp only [List.length_append, List.length_map, List.length_singleton]
      omega

/-! ### What stands behind the columns -/

/-- The rows with something behind each. -/
def augment (rows tails : List (List α)) : List (List α) := List.zipWith (· ++ ·) rows tails

omit [Scalar α] in
theorem length_augment {n : Nat} {tails : List (List α)} (hrows : rows.length = n) (htails : tails.length = n) :
    (augment rows tails).length = n := by
  rw [augment, List.length_zipWith, hrows, htails, Nat.min_self]

omit [Scalar α] in
theorem HasWidth.augment {tails : List (List α)} {v : Nat} (hrows : HasWidth w rows) (htails : HasWidth v tails) :
    HasWidth (w + v) (augment rows tails) := by
  intro row hrow
  obtain ⟨i, hi⟩ := List.mem_iff_getElem?.mp hrow
  obtain ⟨front, back, hfront, hback, rfl⟩ := List.getElem?_zipWith_eq_some.mp hi
  rw [List.length_append, hrows front (List.mem_of_getElem? hfront), htails back (List.mem_of_getElem? hback)]

/-- The rows of a system with its constants. -/
def withConstants (rows : List (List α)) (constants : List α) : List (List α) :=
  List.zipWith (fun row c => row ++ [c]) rows constants

omit [Scalar α] in
theorem withConstants_eq (rows : List (List α)) (constants : List α) :
    withConstants rows constants = augment rows (constants.map fun c => [c]) :=
  List.zipWith_map_right.symm

omit [Scalar α] in
theorem length_withConstants {n : Nat} {constants : List α} (hrows : rows.length = n)
    (hconstants : constants.length = n) : (withConstants rows constants).length = n := by
  rw [withConstants, List.length_zipWith, hrows, hconstants, Nat.min_self]

omit [Scalar α] in
theorem HasWidth.withConstants (hrows : HasWidth w rows) (constants : List α) :
    HasWidth (w + 1) (withConstants rows constants) := by
  rw [withConstants_eq]
  refine hrows.augment ?_
  intro tail htail
  obtain ⟨c, -, rfl⟩ := List.mem_map.mp htail
  rfl

theorem length_identityRows (n : Nat) : (identityRows n : List (List α)).length = n := by simp [identityRows]

theorem hasWidth_identityRows (n : Nat) : HasWidth n (identityRows n : List (List α)) := by
  intro row hrow
  obtain ⟨i, -, rfl⟩ := List.mem_map.mp hrow
  simp

/-- Whether each step exchanged rows, and its pivot. -/
def pivots (steps : List (Bool × List α)) : List (Bool × α) := steps.map fun step => (step.1, lead step.2)

/-- The product of the pivots behind `det`, with the other sign for each exchange. -/
def signedProduct (det : α) (pivots : List (Bool × α)) : α :=
  pivots.foldl (fun det pivot => (if pivot.1 then -det else det) * pivot.2) det

theorem pivotProduct_eq (steps : List (Bool × List α)) :
    pivotProduct steps = signedProduct Scalar.one (pivots steps) := by
  unfold pivotProduct signedProduct pivots
  rw [List.foldl_map]

variable {tail : List α} {tails : List (List α)}

theorem lead_append (hrow : row ≠ []) (tail : List α) : lead (row ++ tail) = lead row := by
  cases row with
  | nil => exact absurd rfl hrow
  | cons => rfl

omit [Scalar α] in
theorem HasWidth.ne_nil (hwidth : HasWidth (w + 1) rows) (hrow : row ∈ rows) : row ≠ [] :=
  List.ne_nil_of_length_eq_add_one (hwidth row hrow)

theorem leads_augment (hwidth : HasWidth (w + 1) rows) (htails : tails.length = rows.length) :
    (augment rows tails).map lead = rows.map lead := by
  induction rows generalizing tails with
  | nil => rfl
  | cons row rows ih =>
    obtain ⟨tail, tails, rfl⟩ := List.exists_cons_of_length_eq_add_one htails
    have hlater : (augment rows tails).map lead = rows.map lead :=
      ih (fun row hrow => hwidth row (List.mem_cons_of_mem _ hrow)) (by simpa using htails)
    show lead (row ++ tail) :: (augment rows tails).map lead = lead row :: rows.map lead
    rw [lead_append (hwidth.ne_nil List.mem_cons_self), hlater]

/-- The pivot's row is found alike. -/
theorem pivot_augment (tail : List α) (hwidth : HasWidth (w + 1) (first :: rest))
    (htails : tails.length = rest.length) :
    ∃ tail' tails', tails'.length = rest.length ∧
      pivot (first ++ tail) (augment rest tails) =
        ⟨(pivot first rest).exchanged, (pivot first rest).pivotRow ++ tail',
          augment (pivot first rest).others tails'⟩ := by
  have hplace : (largestLead (0, lead (first ++ tail)) 1 (augment rest tails)).1 =
      (largestLead (0, lead first) 1 rest).1 := by
    rw [lead_append (hwidth.ne_nil List.mem_cons_self),
      largestLead_congr _ _ (leads_augment (fun row hrow => hwidth row (List.mem_cons_of_mem _ hrow)) htails)]
  rcases pivot_cases first rest with ⟨hfound, hpivot⟩ | ⟨i, row, hrow, hfound, hpivot⟩
  · rw [hfound] at hplace
    rw [hpivot, pivot_of_first hplace]
    exact ⟨tail, tails, htails, rfl⟩
  · rw [hfound] at hplace
    obtain ⟨hi, rfl⟩ := List.getElem?_eq_some_iff.mp hrow
    have hrow' : (augment rest tails)[i]? = some (rest[i] ++ tails[i]) := by
      simp [augment, hi, htails]
    rw [hpivot, pivot_of_other hplace hrow']
    refine ⟨tails[i], tails.set i tail, by simpa using htails, ?_⟩
    have hset : (augment rest tails).set i (first ++ tail) = augment (rest.set i first) (tails.set i tail) := by
      apply List.ext_getElem?
      intro k
      simp only [augment, List.getElem?_zipWith, List.getElem?_set, List.length_zipWith, htails, Nat.min_self]
      by_cases hk : i = k
      · subst hk
        simp [hi]
      · simp [hk]
    rw [hset]

theorem lead_pivot_augment (tail : List α) (hwidth : HasWidth (w + 1) (first :: rest))
    (htails : tails.length = rest.length) :
    lead (pivot (first ++ tail) (augment rest tails)).pivotRow = lead (pivot first rest).pivotRow := by
  obtain ⟨tail', tails', -, hpivot⟩ := pivot_augment tail hwidth htails
  rw [hpivot]
  exact lead_append (List.ne_nil_of_length_eq_add_one hwidth.pivoted.1) _

/-- A column is eliminated alike. -/
theorem eliminateLead_augment (tail : List α) (tails : List (List α)) (hpivot : pivotRow.length = w + 1)
    (hwidth : HasWidth (w + 1) rows) :
    (augment rows tails).map (eliminateLead (pivotRow ++ tail)) =
      augment (rows.map (eliminateLead pivotRow))
        (List.zipWith (fun row tail' => subtractScaled (lead row / lead pivotRow) tail' tail) rows tails) := by
  induction rows generalizing tails with
  | nil => rfl
  | cons row rows ih =>
    cases tails with
    | nil => rfl
    | cons tail' tails =>
      have hrow : row.length = w + 1 := hwidth row List.mem_cons_self
      have hlater := ih tails (fun row hrow => hwidth row (List.mem_cons_of_mem _ hrow))
      obtain ⟨x, xs, rfl⟩ := List.exists_cons_of_length_eq_add_one hrow
      obtain ⟨y, ys, rfl⟩ := List.exists_cons_of_length_eq_add_one hpivot
      have hlength : xs.length = ys.length := by simpa using hrow.trans hpivot.symm
      have hfirst : eliminateLead (y :: ys ++ tail) (x :: xs ++ tail') =
          eliminateLead (y :: ys) (x :: xs) ++ subtractScaled (lead (x :: xs) / lead (y :: ys)) tail' tail :=
        List.zipWith_append hlength
      show eliminateLead _ _ :: (augment rows tails).map _ = _ :: augment _ _
      rw [hfirst, hlater]

theorem map_pivots_cons (exchanged : Bool) (row : List α) (later : Option (List (Bool × List α))) :
    (later.map ((exchanged, row) :: ·)).map pivots = (later.map pivots).map ((exchanged, lead row) :: ·) := by
  cases later <;> rfl

/-- The exchanges and the pivots are those of the rows, whatever stands behind them. -/
theorem pivots_augment (hwidth : HasWidth w rows) (hrows : rows.length ≤ w) (htails : tails.length = rows.length) :
    (eliminate (augment rows tails)).map pivots = (eliminate rows).map pivots := by
  induction rows using eliminate_induction generalizing tails w with
  | nil => rfl
  | tiny first rest htiny =>
    obtain ⟨tail, tails, rfl⟩ := List.exists_cons_of_length_eq_add_one htails
    obtain ⟨w, rfl⟩ := Nat.exists_eq_add_one_of_ne_zero (Nat.ne_zero_of_lt hrows)
    show (eliminate ((first ++ tail) :: augment rest tails)).map pivots = _
    rw [eliminate_cons_of_tiny htiny, eliminate_cons_of_tiny]
    rwa [lead_pivot_augment tail hwidth (Nat.succ.inj htails)]
  | step first rest htiny ih =>
    obtain ⟨tail, tails, rfl⟩ := List.exists_cons_of_length_eq_add_one htails
    obtain ⟨w, rfl⟩ := Nat.exists_eq_add_one_of_ne_zero (Nat.ne_zero_of_lt hrows)
    obtain ⟨hpivot, hothers⟩ := hwidth.pivoted
    obtain ⟨tail', tails', htails', hpivot'⟩ := pivot_augment tail hwidth (Nat.succ.inj htails)
    have hlead := lead_pivot_augment tail hwidth (Nat.succ.inj htails)
    show (eliminate ((first ++ tail) :: augment rest tails)).map pivots = _
    rw [eliminate_cons_of_not_tiny htiny, eliminate_cons_of_not_tiny (by rwa [hlead])]
    have hcount :
        (List.zipWith (fun row tail => subtractScaled (lead row / lead (pivot first rest).pivotRow) tail tail')
          (pivot first rest).others tails').length =
        ((pivot first rest).others.map (eliminateLead (pivot first rest).pivotRow)).length := by simp [htails']
    have hlater := ih (hothers.eliminateLead hpivot) (by simpa using hrows) hcount
    rw [← eliminateLead_augment _ _ hpivot hothers] at hlater
    rw [map_pivots_cons, map_pivots_cons, hlead, hpivot', hlater]

end Calculator.DenseMatrix
