import Calculator.DenseMatrix.InPlace
import Calculator.Proofs.DenseMatrix.Elimination
/-!
The loops over a table do not leave it. When the columns before `col` are done, the rows from row `col` on, each from
that column on, are the smaller system that elimination goes on with.
-/
namespace Calculator.Table

open DenseMatrix

variable {α β : Type} {x y : β} {xs : List β} {i j : Nat}

/-! ### Reading and writing -/

theorem read_eq (hx : xs[i]? = some x) : read xs i = .ok x := by
  unfold read
  rw [hx]

theorem write_eq (hi : i < xs.length) : write xs i x = .ok (xs.set i x) := if_pos hi

theorem exchange_eq (hx : xs[i]? = some x) (hy : xs[j]? = some y) :
    exchange xs i j = .ok ((xs.set i y).set j x) := by
  obtain ⟨hi, -⟩ := List.getElem?_eq_some_iff.mp hx
  obtain ⟨hj, -⟩ := List.getElem?_eq_some_iff.mp hy
  unfold exchange
  rw [read_eq hx, read_eq hy]
  show (write xs i y >>= fun ys => write ys j x) = _
  rw [write_eq hi]
  exact write_eq (by simpa using hj)

theorem exchange_self (hx : xs[i]? = some x) : exchange xs i i = .ok xs := by
  obtain ⟨hi, rfl⟩ := List.getElem?_eq_some_iff.mp hx
  rw [exchange_eq hx hx]
  simp

variable {t above below : List (List α)} {row first : List α} {a : α} {w col n : Nat}

theorem entry_eq (hrow : t[i]? = some row) (ha : row[j]? = some a) : entry t i j = .ok a := by
  unfold entry
  rw [read_eq hrow]
  exact read_eq ha

theorem setEntry_eq (hrow : t[i]? = some row) (hj : j < row.length) :
    setEntry t i j a = .ok (t.set i (row.set j a)) := by
  obtain ⟨hi, -⟩ := List.getElem?_eq_some_iff.mp hrow
  unfold setEntry
  rw [read_eq hrow]
  show (write row j a >>= fun row' => write t i row') = _
  rw [write_eq hj]
  exact write_eq hi

theorem between_eq (low count : Nat) : between low (low + count) = List.range' low count := by
  unfold between
  rw [Nat.add_sub_cancel_left]

variable [Scalar α]

theorem lead_drop (hcol : row[col]? = some a) : lead (row.drop col) = a := by
  obtain ⟨hlt, rfl⟩ := List.getElem?_eq_some_iff.mp hcol
  rw [List.drop_eq_getElem_cons hlt]
  rfl

theorem entry_lead (hrow : t[i]? = some row) (hcol : col < row.length) :
    entry t i col = .ok (lead (row.drop col)) := by
  have hentry : row[col]? = some row[col] := List.getElem?_eq_getElem hcol
  rw [lead_drop hentry, entry_eq hrow hentry]

/-! ### Taking a multiple of a row from another row -/

/-- From column `low` on, the entries are those of `subtractScaled`. -/
theorem subtractRow_eq {pivotRow : List α} {factor : α} (low : Nat) (hne : i ≠ col) (hrow : t[i]? = some row)
    (hpivot : t[col]? = some pivotRow) (hlow : low ≤ row.length) (hlength : pivotRow.length = row.length) :
    subtractRow factor low row.length col t i =
      .ok (t.set i (row.take low ++ subtractScaled factor (row.drop low) (pivotRow.drop low))) := by
  obtain ⟨count, hcount⟩ := Nat.exists_eq_add_of_le hlow
  unfold subtractRow
  rw [hcount, between_eq]
  induction count generalizing low row t with
  | zero =>
    obtain ⟨hi, rfl⟩ := List.getElem?_eq_some_iff.mp hrow
    have hnil : (t[i]).drop low = [] := List.drop_eq_nil_of_le (by omega)
    have hall : (t[i]).take low = t[i] := List.take_of_length_le (by omega)
    rw [hnil, hall]
    simp [subtractScaled, pure, Except.pure]
  | succ count ih =>
    -- the entry that has been written stands in front of what the later turns look at
    have hrowlow : low < row.length := by omega
    have hpivotlow : low < pivotRow.length := by omega
    have hi : i < t.length := (List.getElem?_eq_some_iff.mp hrow).1
    have hx : entry t i low = .ok row[low] := entry_eq hrow (List.getElem?_eq_getElem hrowlow)
    have hy : entry t col low = .ok pivotRow[low] := entry_eq hpivot (List.getElem?_eq_getElem hpivotlow)
    let row' := row.set low (row[low] - factor * pivotRow[low])
    have hrow' : (t.set i row')[i]? = some row' := List.getElem?_set_self hi
    have hpivot' : (t.set i row')[col]? = some pivotRow := by
      rw [List.getElem?_set_ne hne, hpivot]
    have hlength' : row'.length = row.length := List.length_set
    have hlater := ih (low + 1) hrow' hpivot' (by omega) (by omega) (by omega)
    have htake : row'.take (low + 1) = row.take low ++ [row[low] - factor * pivotRow[low]] := by
      have hbefore : (row.take low).set low (row[low] - factor * pivotRow[low]) = row.take low :=
        List.set_eq_of_length_le (List.length_take_le low row)
      simp [row', List.take_add_one, List.take_set, hrowlow, hbefore]
    have hdrop : row'.drop (low + 1) = row.drop (low + 1) := List.drop_set_of_lt (Nat.lt_succ_self low)
    rw [List.range'_succ, List.foldlM_cons, hx, hy]
    show (setEntry t i low _ >>= fun t => _) = _
    rw [setEntry_eq hrow hrowlow]
    refine hlater.trans ?_
    rw [htake, hdrop, List.set_set, List.drop_eq_getElem_cons hrowlow, List.drop_eq_getElem_cons hpivotlow,
      List.append_assoc]
    rfl

omit [Scalar α] in
/-- A loop over rows that leaves the pivot's row alone, and changes each other row by itself. -/
theorem foldlM_rows {f : List (List α) → Nat → Except Stop (List (List α))} {g : List α → List α}
    {pivotRow : List α} {rows : List (List α)} (above below : List (List α))
    (hstep : ∀ t i row, i ≠ col → t[col]? = some pivotRow → t[i]? = some row → row.length = w →
      f t i = .ok (t.set i (g row)))
    (hwidth : HasWidth w rows) (hcol : col < above.length ∨ above.length + rows.length ≤ col)
    (hpivot : (above ++ rows ++ below)[col]? = some pivotRow) :
    (List.range' above.length rows.length).foldlM f (above ++ rows ++ below) =
      .ok (above ++ rows.map g ++ below) := by
  induction rows generalizing above with
  | nil => rfl
  | cons row rows ih =>
    have hne : above.length ≠ col := by
      rw [List.length_cons] at hcol
      omega
    have hrow : (above ++ row :: rows ++ below)[above.length]? = some row := by simp
    have hset : (above ++ row :: rows ++ below).set above.length (g row) = (above ++ [g row]) ++ rows ++ below := by
      simp
    rw [List.length_cons, List.range'_succ, List.foldlM_cons,
      hstep _ _ _ hne hpivot hrow (hwidth row List.mem_cons_self)]
    have hpivot' : ((above ++ [g row]) ++ rows ++ below)[col]? = some pivotRow := by
      rw [← hset, List.getElem?_set_ne hne, hpivot]
    have hlater := ih (above ++ [g row]) (fun row hrow => hwidth row (List.mem_cons_of_mem _ hrow))
      (by simp only [List.length_append, List.length_cons, List.length_nil] at hcol ⊢; omega) hpivot'
    rw [List.length_append, List.length_singleton] at hlater
    show (List.range' (above.length + 1) rows.length).foldlM f _ = _
    rw [hset, hlater]
    simp

/-! ### The pivot -/

/-- The loop over the rows from `place` on looks for the pivot as `largestLead` does. -/
theorem foldlM_largest (best : Nat × α) (place : Nat) {rows : List (List α)}
    (hbest : entry t (col + best.1) col = .ok best.2)
    (hrows : ∀ k row, rows[k]? = some row → entry t (col + (place + k)) col = .ok (lead (row.drop col))) :
    (List.range' (col + place) rows.length).foldlM (fun best i => do
        let x ← entry t best col
        let y ← entry t i col
        return if Scalar.compareAbs x y = .gt then best else i) (col + best.1) =
      (.ok (col + (largestLead best place (rows.map (List.drop col))).1) : Except Stop Nat) := by
  -- the loop keeps the place of the best row only, and reads its entry again in each turn
  induction rows generalizing best place with
  | nil => rfl
  | cons row rows ih =>
    have hfirst : entry t (col + place) col = .ok (lead (row.drop col)) := hrows 0 row rfl
    have hlater : ∀ k row, rows[k]? = some row → entry t (col + (place + 1 + k)) col = .ok (lead (row.drop col)) := by
      intro k row hrow
      rw [Nat.add_assoc place, Nat.add_comm 1]
      exact hrows (k + 1) row hrow
    rw [List.length_cons, List.range'_succ, List.foldlM_cons, hbest, hfirst]
    show (List.range' (col + place + 1) rows.length).foldlM _
      (if Scalar.compareAbs best.2 (lead (row.drop col)) = .gt then col + best.1 else col + place) = _
    rw [List.map_cons, largestLead]
    split
    · exact ih best (place + 1) hbest hlater
    · exact ih (place, lead (row.drop col)) (place + 1) hfirst hlater

variable {rest : List (List α)}

omit [Scalar α] in
theorem getElem?_below (k : Nat) : (above ++ below)[above.length + k]? = below[k]? := by
  rw [List.getElem?_append_right (Nat.le_add_right _ _), Nat.add_sub_cancel_left]

theorem entry_below {k : Nat} (hwidth : HasWidth w (above ++ below)) (hcol : above.length < w)
    (hrow : below[k]? = some row) :
    entry (above ++ below) (above.length + k) above.length = .ok (lead (row.drop above.length)) := by
  have hrow' : (above ++ below)[above.length + k]? = some row := (getElem?_below k).trans hrow
  exact entry_lead hrow' (by rwa [hwidth row (List.mem_of_getElem? hrow')])

theorem pivotPlace_eq (hwidth : HasWidth w (above ++ first :: rest)) (hcol : above.length < w) :
    pivotPlace (above ++ first :: rest) above.length =
      .ok (above.length +
        (largestLead (0, lead (first.drop above.length)) 1 (rest.map (List.drop above.length))).1) := by
  have hcount : (above ++ first :: rest).length = above.length + 1 + rest.length := by
    simp only [List.length_append, List.length_cons]
    omega
  have hfirst : (first :: rest)[0]? = some first := rfl
  unfold pivotPlace
  rw [hcount, between_eq]
  apply foldlM_largest (0, lead (first.drop above.length)) 1 (entry_below hwidth hcol hfirst)
  intro k row hrow
  rw [Nat.add_comm 1 k]
  exact entry_below hwidth hcol hrow

/-- The exchange in the smaller system behind the first columns. -/
abbrev pivotAt (col : Nat) (first : List α) (rest : List (List α)) : Pivoted α :=
  pivot (first.drop col) (rest.map (List.drop col))

/-- A step of elimination in the table: the place of its pivot, and the rows from the pivot's on after the exchange. -/
structure Exchanges (w : Nat) (above : List (List α)) (t : List (List α)) (step : Pivoted α) (place : Nat)
    (pivotRow : List α) (others : List (List α)) : Prop where
  usable : usablePivot t above.length = if Scalar.isTiny (lead step.pivotRow) then .error .tinyPivot else .ok place
  exchanged : step.exchanged ↔ place ≠ above.length
  table : exchange t place above.length = .ok (above ++ pivotRow :: others)
  first : pivotRow.drop above.length = step.pivotRow
  later : others.map (List.drop above.length) = step.others
  width : HasWidth w (above ++ pivotRow :: others)

theorem usablePivot_eq {place : Nat} (hplace : pivotPlace t col = .ok place) (hentry : entry t place col = .ok a) :
    usablePivot t col = if Scalar.isTiny a then .error .tinyPivot else .ok place := by
  unfold usablePivot
  rw [hplace]
  show (entry t place col >>= fun x => _) = _
  rw [hentry]
  show (if Scalar.isTiny a then _ else _) = _
  split <;> rfl

/-- The exchange in the table is that of the smaller system. -/
theorem exists_exchanges (hwidth : HasWidth w (above ++ first :: rest)) (hcol : above.length < w) :
    ∃ place pivotRow others, others.length = rest.length ∧
      Exchanges w above (above ++ first :: rest) (pivotAt above.length first rest) place pivotRow others := by
  have hplace := pivotPlace_eq hwidth hcol
  have hfirst : (first :: rest)[0]? = some first := rfl
  rcases pivot_cases (first.drop above.length) (rest.map (List.drop above.length)) with
    ⟨hfound, hpivot⟩ | ⟨i, row, hi, hfound, hpivot⟩
  · rw [hfound] at hplace
    rw [pivotAt, hpivot]
    exact ⟨above.length, first, rest, rfl, {
      usable := usablePivot_eq hplace (entry_below hwidth hcol hfirst)
      exchanged := by simp
      table := exchange_self ((getElem?_below 0).trans hfirst)
      first := rfl
      later := rfl
      width := hwidth }⟩
  · rw [hfound] at hplace
    rw [pivotAt, hpivot]
    obtain ⟨other, hother, rfl⟩ : ∃ other, rest[i]? = some other ∧ other.drop above.length = row := by
      simpa using hi
    have hset : ((above ++ first :: rest).set (above.length + (i + 1)) first).set above.length other =
        above ++ other :: rest.set i first := by simp
    obtain ⟨habove, hlength, hrest⟩ := hasWidth_append_cons.mp hwidth
    exact ⟨above.length + (i + 1), other, rest.set i first, List.length_set, {
      usable := usablePivot_eq hplace (entry_below hwidth hcol (k := i + 1) hother)
      exchanged := by simp
      table := (exchange_eq ((getElem?_below (i + 1)).trans hother) ((getElem?_below 0).trans hfirst)).trans
        (congrArg Except.ok hset)
      first := rfl
      later := List.map_set
      width := hasWidth_append_cons.mpr ⟨habove, hrest other (List.mem_of_getElem? hother), hrest.set hlength⟩ }⟩

/-! ### Elimination -/

/-- Below the pivot's row, the rows behind the column are those of the smaller system. -/
theorem eliminateBelow_eq (hwidth : HasWidth w (above ++ first :: rest)) (hcol : above.length < w)
    (hcount : (above ++ first :: rest).length = n) :
    ∃ rest', rest'.length = rest.length ∧ HasWidth w (above ++ first :: rest') ∧
      rest'.map (List.drop (above.length + 1)) =
        (rest.map (List.drop above.length)).map (eliminateLead (first.drop above.length)) ∧
      eliminateBelow n w (above ++ first :: rest) above.length = .ok (above ++ first :: rest') := by
  let g : List α → List α := fun row =>
    row.take above.length ++ subtractScaled (lead (row.drop above.length) / lead (first.drop above.length))
      (row.drop above.length) (first.drop above.length)
  obtain ⟨habove, hfirst, hrest⟩ := hasWidth_append_cons.mp hwidth
  have hgrest : HasWidth w (rest.map g) := by
    intro row hmem
    obtain ⟨row, hrow, rfl⟩ := List.mem_map.mp hmem
    simp only [g, subtractScaled, List.length_append, List.length_take, List.length_zipWith, List.length_drop, hfirst,
      hrest row hrow]
    omega
  refine ⟨rest.map g, List.length_map _, hasWidth_append_cons.mpr ⟨habove, hfirst, hgrest⟩, ?_, ?_⟩
  · rw [List.map_map, List.map_map]
    apply List.map_congr_left
    intro row hrow
    have htake : (row.take above.length).length = above.length := by
      rw [List.length_take, hrest row hrow]
      omega
    show (g row).drop (above.length + 1) = eliminateLead (first.drop above.length) (row.drop above.length)
    rw [← List.drop_drop, List.drop_left' htake, List.drop_one]
    exact List.tail_zipWith
  · have hrange : n = above.length + 1 + rest.length := by
      rw [← hcount, List.length_append, List.length_cons]
      omega
    have hstep : ∀ (t : List (List α)) (i : Nat) (row : List α), i ≠ above.length → t[above.length]? = some first →
        t[i]? = some row → row.length = w →
        (do
          let x ← entry t i above.length
          let pivot ← entry t above.length above.length
          subtractRow (x / pivot) above.length w above.length t i) = .ok (t.set i (g row)) := by
      intro t i row hne hpivot hrow hlength
      subst hlength
      rw [entry_lead hrow hcol, entry_lead hpivot (by rwa [hfirst])]
      exact subtractRow_eq _ hne hrow hpivot (Nat.le_of_lt hcol) hfirst
    have hloop := foldlM_rows (above ++ [first]) [] hstep hrest (.inl (by simp)) (by simp)
    unfold eliminateBelow
    rw [hrange, between_eq]
    simpa using hloop

/-- A table after a step: the pivot's row is kept, and the rows below it are the smaller system. -/
structure Eliminated (w : Nat) (above : List (List α)) (step : Pivoted α) (pivotRow : List α)
    (below : List (List α)) : Prop where
  width : HasWidth w (above ++ pivotRow :: below)
  first : pivotRow.drop above.length = step.pivotRow
  later : below.map (List.drop (above.length + 1)) = step.others.map (eliminateLead step.pivotRow)

/-- The exchange and the elimination in the table are those of the smaller system. -/
theorem exists_eliminated (hwidth : HasWidth w (above ++ first :: rest)) (hcol : above.length < w)
    (hcount : (above ++ first :: rest).length = n) :
    ∃ place t' pivotRow below,
      let step := pivotAt above.length first rest
      usablePivot (above ++ first :: rest) above.length =
          (if Scalar.isTiny (lead step.pivotRow) then .error .tinyPivot else .ok place) ∧
        (step.exchanged ↔ place ≠ above.length) ∧
        exchange (above ++ first :: rest) place above.length = .ok t' ∧
        entry t' above.length above.length = .ok (lead step.pivotRow) ∧
        eliminateBelow n w t' above.length = .ok (above ++ pivotRow :: below) ∧
        below.length = rest.length ∧ Eliminated w above step pivotRow below := by
  obtain ⟨place, pivotRow, others, hlength, hexchanges⟩ := exists_exchanges hwidth hcol
  have hcount' : (above ++ pivotRow :: others).length = n := by
    rw [← hcount]
    simp [hlength]
  obtain ⟨below, hbelow, hwidth', hlater, heliminate⟩ := eliminateBelow_eq hexchanges.width hcol hcount'
  have hpivotRow : pivotRow.length = w := hexchanges.width pivotRow (by simp)
  have hentry : entry (above ++ pivotRow :: others) above.length above.length =
      .ok (lead (pivotRow.drop above.length)) := entry_lead (by simp) (by rwa [hpivotRow])
  rw [hexchanges.first] at hentry
  rw [hexchanges.first, hexchanges.later] at hlater
  exact ⟨place, _, pivotRow, below, hexchanges.usable, hexchanges.exchanged, hexchanges.table, hentry, heliminate,
    hbelow.trans hlength, { width := hwidth', first := hexchanges.first, later := hlater }⟩

theorem solveStep_eq (hwidth : HasWidth (n + 1) (above ++ first :: rest))
    (hcount : (above ++ first :: rest).length = n) :
    ∃ place pivotRow below,
      let step := pivotAt above.length first rest
      usablePivot (above ++ first :: rest) above.length =
          (if Scalar.isTiny (lead step.pivotRow) then .error .tinyPivot else .ok place) ∧
        (step.exchanged ↔ place ≠ above.length) ∧
        solveStep n (above ++ first :: rest) above.length =
          (if Scalar.isTiny (lead step.pivotRow) then .error .tinyPivot else .ok (above ++ pivotRow :: below)) ∧
        below.length = rest.length ∧ Eliminated (n + 1) above step pivotRow below := by
  have hcol : above.length < n + 1 := by
    rw [← hcount, List.length_append]
    omega
  obtain ⟨place, t', pivotRow, below, husable, hexchanged, htable, -, heliminate, hbelow, heliminated⟩ :=
    exists_eliminated hwidth hcol hcount
  refine ⟨place, pivotRow, below, husable, hexchanged, ?_, hbelow, heliminated⟩
  unfold solveStep
  rw [husable]
  split
  · rfl
  · show (exchange _ place above.length >>= fun t => eliminateBelow n (n + 1) t above.length) = _
    rw [htable]
    exact heliminate

theorem determinantStep_eq (det : α) (hwidth : HasWidth n (above ++ first :: rest))
    (hcount : (above ++ first :: rest).length = n) :
    ∃ pivotRow below,
      let step := pivotAt above.length first rest
      determinantStep n (det, above ++ first :: rest) above.length =
          (if Scalar.isTiny (lead step.pivotRow) then .error .tinyPivot
            else .ok ((if step.exchanged then -det else det) * lead step.pivotRow, above ++ pivotRow :: below)) ∧
        below.length = rest.length ∧ Eliminated n above step pivotRow below := by
  have hcol : above.length < n := by
    rw [← hcount, List.length_append, List.length_cons]
    omega
  obtain ⟨place, t', pivotRow, below, husable, hexchanged, htable, hentry, heliminate, hbelow, heliminated⟩ :=
    exists_eliminated hwidth hcol hcount
  refine ⟨pivotRow, below, ?_, hbelow, heliminated⟩
  let step := pivotAt above.length first rest
  have hsigned : exchangeSigned (det, above ++ first :: rest) place above.length =
      .ok (if step.exchanged then -det else det, t') := by
    unfold exchangeSigned
    by_cases hplace : place = above.length
    · rw [hplace, exchange_self (x := first) (by simp)] at htable
      cases htable
      rw [if_pos hplace, if_neg fun h => hexchanged.mp h hplace]
      rfl
    · rw [if_neg hplace, if_pos (hexchanged.mpr hplace), htable]
      rfl
  unfold determinantStep
  rw [husable]
  split
  · rfl
  · show (exchangeSigned (det, above ++ first :: rest) place above.length >>= fun state => _) = _
    rw [hsigned]
    show (entry t' above.length above.length >>= fun pivot => _) = _
    rw [hentry]
    show (eliminateBelow n n t' above.length >>= fun t => _) = _
    rw [heliminate]
    rfl

/-! ### The loops over the columns -/

/-- A loop that stops at a tiny pivot where an operation finds none, and otherwise gives a table as `P` says. -/
inductive Follows {σ γ : Type} (P : σ → γ → Prop) : Option σ → Except Stop γ → Prop
  | tinyPivot : Follows P none (.error .tinyPivot)
  | done {s : σ} {result : γ} : P s result → Follows P (some s) (.ok result)

theorem Follows.exists_ok {σ γ : Type} {P : σ → γ → Prop} {s : σ} {run : Except Stop γ}
    (hfollows : Follows P (some s) run) : ∃ result, run = .ok result ∧ P s result := by
  cases hfollows with
  | done hP => exact ⟨_, rfl, hP⟩

theorem Follows.map {σ τ γ : Type} {P : σ → γ → Prop} {Q : τ → γ → Prop} {f : σ → τ} {outcome : Option σ}
    {run : Except Stop γ} (hfollows : Follows P outcome run) (hPQ : ∀ s result, P s result → Q (f s) result) :
    Follows Q (outcome.map f) run := by
  cases hfollows with
  | tinyPivot => exact .tinyPivot
  | done hP => exact .done (hPQ _ _ hP)

theorem Follows.imp {σ γ : Type} {P Q : σ → γ → Prop} {outcome : Option σ} {run : Except Stop γ}
    (hfollows : Follows P outcome run) (hPQ : ∀ s result, P s result → Q s result) : Follows Q outcome run := by
  cases hfollows with
  | tinyPivot => exact .tinyPivot
  | done hP => exact .done (hPQ _ _ hP)

/-- Each row from its diagonal on. -/
def staircase (col : Nat) : List (List α) → List (List α)
  | [] => []
  | row :: rows => row.drop col :: staircase (col + 1) rows

/-- The loop finds the pivot of a column in another row in exactly those turns whose steps exchange rows. -/
def ExchangesWith (n col : Nat) (t : List (List α)) (steps : List (Bool × List α)) : Prop :=
  ∀ (k : Nat) (exchanged : Bool) (row : List α), steps[k]? = some (exchanged, row) → ∃ t' place,
    (List.range' col k).foldlM (solveStep n) t = .ok t' ∧ usablePivot t' (col + k) = .ok place ∧
      (exchanged ↔ place ≠ col + k)

theorem foldlM_solveStep (hwidth : HasWidth (n + 1) (above ++ below)) (hcount : (above ++ below).length = n) :
    Follows (fun steps t => ∃ pivotRows, t = above ++ pivotRows ∧ HasWidth (n + 1) t ∧ t.length = n ∧
        staircase above.length pivotRows = steps.map Prod.snd ∧ ExchangesWith n above.length (above ++ below) steps)
      (eliminate (below.map (List.drop above.length)))
      ((List.range' above.length below.length).foldlM (solveStep n) (above ++ below)) := by
  -- the induction is on the rows that are left; the loop does not come back to the rows above them
  induction hlength : below.length generalizing above below with
  | zero =>
    obtain rfl := List.eq_nil_of_length_eq_zero hlength
    rw [List.map_nil, eliminate_nil]
    exact .done ⟨[], rfl, hwidth, hcount, rfl, fun _ _ _ h => by simp at h⟩
  | succ k ih =>
    obtain ⟨first, rest, rfl⟩ := List.exists_cons_of_length_eq_add_one hlength
    obtain ⟨place, pivotRow, later, husable, hexchanged, hstep, hlater, heliminated⟩ := solveStep_eq hwidth hcount
    rw [List.map_cons, List.range'_succ, List.foldlM_cons, hstep]
    by_cases htiny : Scalar.isTiny (lead (pivotAt above.length first rest).pivotRow)
    · rw [eliminate_cons_of_tiny htiny, if_pos htiny]
      exact .tinyPivot
    · rw [eliminate_cons_of_not_tiny htiny, if_neg htiny, ← heliminated.later]
      have hwidth' : HasWidth (n + 1) ((above ++ [pivotRow]) ++ later) := by simpa using heliminated.width
      have hcount' : ((above ++ [pivotRow]) ++ later).length = n := by
        rw [← hcount]
        simp [hlater]
      have hrun := ih hwidth' hcount' (by simpa [hlater] using hlength)
      rw [List.length_append, List.length_singleton, List.append_assoc] at hrun
      apply hrun.map
      rintro steps t ⟨pivotRows, rfl, hwidth', hcount', hstairs, hexchanges⟩
      refine ⟨pivotRow :: pivotRows, by simp, hwidth', hcount', ?_, ?_⟩
      · rw [staircase, hstairs, heliminated.first]
        rfl
      · rw [if_neg htiny] at hstep husable
        intro k exchanged row hk
        cases k with
        | zero =>
          cases hk
          exact ⟨_, place, rfl, husable, hexchanged⟩
        | succ k =>
          obtain ⟨t', place', hrun, husable', hexchanged'⟩ := hexchanges k exchanged row hk
          refine ⟨t', place', ?_, ?_, ?_⟩
          · rw [List.range'_succ, List.foldlM_cons, hstep]
            exact hrun
          · rw [← husable', Nat.add_assoc, Nat.add_comm 1]
          · rw [hexchanged', Nat.add_assoc, Nat.add_comm 1]

theorem foldlM_determinantStep (det : α) (hwidth : HasWidth n (above ++ below))
    (hcount : (above ++ below).length = n) :
    Follows (fun steps state => state.1 = signedProduct det (pivots steps))
      (eliminate (below.map (List.drop above.length)))
      ((List.range' above.length below.length).foldlM (determinantStep n) (det, above ++ below)) := by
  induction hlength : below.length generalizing above below det with
  | zero =>
    obtain rfl := List.eq_nil_of_length_eq_zero hlength
    rw [List.map_nil, eliminate_nil]
    exact .done rfl
  | succ k ih =>
    obtain ⟨first, rest, rfl⟩ := List.exists_cons_of_length_eq_add_one hlength
    obtain ⟨pivotRow, later, hstep, hlater, heliminated⟩ := determinantStep_eq det hwidth hcount
    rw [List.map_cons, List.range'_succ, List.foldlM_cons, hstep]
    by_cases htiny : Scalar.isTiny (lead (pivotAt above.length first rest).pivotRow)
    · rw [eliminate_cons_of_tiny htiny, if_pos htiny]
      exact .tinyPivot
    · rw [eliminate_cons_of_not_tiny htiny, if_neg htiny, ← heliminated.later]
      have hwidth' : HasWidth n ((above ++ [pivotRow]) ++ later) := by simpa using heliminated.width
      have hcount' : ((above ++ [pivotRow]) ++ later).length = n := by
        rw [← hcount]
        simp [hlater]
      have hrun := fun det => ih det hwidth' hcount' (by simpa [hlater] using hlength)
      rw [List.length_append, List.length_singleton, List.append_assoc] at hrun
      exact (hrun _).map fun steps state hstate => hstate

omit [Scalar α] in
theorem map_drop_zero (rows : List (List α)) : rows.map (List.drop 0) = rows := List.map_id'' (fun _ => rfl) rows

theorem solveLoop_follows {rows : List (List α)} (hwidth : HasWidth (n + 1) rows) (hcount : rows.length = n) :
    Follows (fun steps t => HasWidth (n + 1) t ∧ t.length = n ∧ staircase 0 t = steps.map Prod.snd ∧
        ExchangesWith n 0 rows steps)
      (eliminate rows) (solveLoop rows n) := by
  have hrun := foldlM_solveStep (show HasWidth (n + 1) ([] ++ rows) from hwidth) hcount
  rw [List.length_nil, List.nil_append, map_drop_zero, hcount, ← List.range_eq_range'] at hrun
  apply hrun.imp
  rintro steps _ ⟨pivotRows, rfl, hwidth', hcount', hstairs, hexchanges⟩
  exact ⟨hwidth', hcount', hstairs, hexchanges⟩

theorem determinantLoop_follows {rows : List (List α)} (hwidth : HasWidth n rows) (hcount : rows.length = n) :
    Follows (fun steps state => state.1 = pivotProduct steps) (eliminate rows) (determinantLoop rows n) := by
  have hrun := foldlM_determinantStep Scalar.one (show HasWidth n ([] ++ rows) from hwidth) hcount
  rw [List.length_nil, List.nil_append, map_drop_zero, hcount, ← List.range_eq_range'] at hrun
  simp only [pivotProduct_eq]
  exact hrun

/-! ### Clearing columns -/

/-- The row after its entry in column `col` has been cleared by a pivot's row. -/
def cleared (col : Nat) (pivotRow row : List α) : List α :=
  if Scalar.isZero (lead (row.drop col)) then row else subtractScaled (lead (row.drop col)) row pivotRow

omit [Scalar α] in
theorem getElem?_staircase (col : Nat) (rows : List (List α)) (i : Nat) :
    (staircase col rows)[i]? = rows[i]?.map (List.drop (col + i)) := by
  induction rows generalizing col i with
  | nil => rfl
  | cons row rows ih =>
    cases i with
    | zero => rfl
    | succ i =>
      rw [staircase, List.getElem?_cons_succ, List.getElem?_cons_succ, ih, Nat.add_right_comm, Nat.add_assoc]

end Calculator.Table
