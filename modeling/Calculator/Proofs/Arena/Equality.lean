import Calculator.Expr.Arena.Equivalent
import Calculator.Proofs.Arena.Store
import Calculator.Proofs.Binary64.Distance
/-!
Equality of what is stored is equality of whole trees. Two trees are equivalent if they have one outline, and numbers
that are pairwise near; the stores decide just that, however their nodes lie and whichever of them are shared.
-/
namespace Calculator

/-! ### Equality of trees -/

namespace Expr

mutual
/-- The shape of the tree with its operators, constants and names: without spans, and all numbers alike. -/
def outline : Expr → Expr
  | number _ _ _ => number 0 "" ⟨0, 0⟩
  | constant c _ => constant c ⟨0, 0⟩
  | free name _ => free name ⟨0, 0⟩
  | unary op e _ => unary op e.outline ⟨0, 0⟩
  | binary op l r _ => binary op l.outline r.outline ⟨0, 0⟩
  | call name args _ => call name (outlineList args) ⟨0, 0⟩
  | matrix rows _ => matrix (outlineRows rows) ⟨0, 0⟩
  | complex re im _ => complex re.outline im.outline ⟨0, 0⟩
/-- The outline of each tree. -/
def outlineList : List Expr → List Expr
  | [] => []
  | e :: es => e.outline :: outlineList es
/-- The outlines in each row. -/
def outlineRows : List (List Expr) → List (List Expr)
  | [] => []
  | row :: rows => outlineList row :: outlineRows rows
end

mutual
/-- The values of the numbers in the tree, from left to right. -/
def numbers : Expr → List Float
  | number value _ _ => [value]
  | constant .. | free .. => []
  | unary _ e _ => e.numbers
  | binary _ l r _ => l.numbers ++ r.numbers
  | call _ args _ => numbersList args
  | matrix rows _ => numbersRows rows
  | complex re im _ => re.numbers ++ im.numbers
/-- The values of the numbers in all trees. -/
def numbersList : List Expr → List Float
  | [] => []
  | e :: es => e.numbers ++ numbersList es
/-- The values of the numbers in all rows. -/
def numbersRows : List (List Expr) → List Float
  | [] => []
  | row :: rows => numbersList row ++ numbersRows rows
end

mutual
theorem length_numbers_outline : (e : Expr) → e.outline.numbers.length = e.numbers.length
  | number .. => rfl
  | constant .. | free .. => rfl
  | unary _ e _ => length_numbers_outline e
  | binary _ l r _ => by
    simp only [outline, numbers, List.length_append, length_numbers_outline l, length_numbers_outline r]
  | call _ args _ => length_numbersList_outline args
  | matrix rows _ => length_numbersRows_outline rows
  | complex re im _ => by
    simp only [outline, numbers, List.length_append, length_numbers_outline re, length_numbers_outline im]
theorem length_numbersList_outline : (es : List Expr) → (numbersList (outlineList es)).length = (numbersList es).length
  | [] => rfl
  | e :: es => by
    simp only [outlineList, numbersList, List.length_append, length_numbers_outline e, length_numbersList_outline es]
theorem length_numbersRows_outline :
    (rows : List (List Expr)) → (numbersRows (outlineRows rows)).length = (numbersRows rows).length
  | [] => rfl
  | row :: rows => by
    simp only [outlineRows, numbersRows, List.length_append, length_numbersList_outline row,
      length_numbersRows_outline rows]
end

theorem length_numbers_of_outline {e f : Expr} (h : e.outline = f.outline) : e.numbers.length = f.numbers.length := by
  rw [← length_numbers_outline e, h, length_numbers_outline]

theorem length_numbersList_of_outline {es fs : List Expr} (h : outlineList es = outlineList fs) :
    (numbersList es).length = (numbersList fs).length := by
  rw [← length_numbersList_outline es, h, length_numbersList_outline]

/-- Pairs in two parts, where the first parts are equally long. -/
theorem and_forall₂_append {α β : Type} {r : α → β → Prop} {P Q : Prop} {as bs : List α} {cs ds : List β}
    (h : P → as.length = cs.length) : (P ∧ List.Forall₂ r as cs) ∧ (Q ∧ List.Forall₂ r bs ds) ↔
      (P ∧ Q) ∧ List.Forall₂ r (as ++ bs) (cs ++ ds) := by
  constructor
  · rintro ⟨⟨hP, hfirst⟩, hQ, hrest⟩
    exact ⟨⟨hP, hQ⟩, List.rel_append hfirst hrest⟩
  · rintro ⟨⟨hP, hQ⟩, hall⟩
    have hfirst := List.forall₂_take_append _ _ _ hall
    have hrest := List.forall₂_drop_append _ _ _ hall
    rw [List.take_left' (h hP)] at hfirst
    rw [List.drop_left' (h hP)] at hrest
    exact ⟨⟨hP, hfirst⟩, hQ, hrest⟩

section
variable {tolerance : Float}

theorem near_comm (x y : Float) : near tolerance x y = near tolerance y x := by
  rw [near, near, Binary64.same_comm, Binary64.distance_comm]

theorem near_iff {x y : Float} : near tolerance x y = true ↔ x == y ∨ (x - y).abs ≤ tolerance := by
  rw [near, Bool.or_eq_true, decide_eq_true_iff]

mutual
theorem equivalent_iff : (e f : Expr) → (equivalent tolerance e f = true ↔
    e.outline = f.outline ∧ List.Forall₂ (fun x y => near tolerance x y = true) e.numbers f.numbers)
  | number x _ _, f => by
    cases f with
    | number y => simp [equivalent, outline, numbers]
    | _ => simp [equivalent, outline]
  | constant c _, f => by
    cases f with
    | constant d => simp [equivalent, outline, numbers]
    | _ => simp [equivalent, outline]
  | free x _, f => by
    cases f with
    | free y => simp [equivalent, outline, numbers]
    | _ => simp [equivalent, outline]
  | unary op e _, f => by
    cases f with
    | unary op' e' => simp [equivalent, outline, numbers, equivalent_iff e e', and_assoc]
    | _ => simp [equivalent, outline]
  | binary op l r _, f => by
    cases f with
    | binary op' l' r' =>
      rw [equivalent, Bool.and_eq_true, Bool.and_eq_true, and_assoc, equivalent_iff l l', equivalent_iff r r',
        and_forall₂_append length_numbers_of_outline]
      simp [outline, numbers, and_assoc]
    | _ => simp [equivalent, outline]
  | call f args _, g => by
    cases g with
    | call f' args' => simp [equivalent, outline, numbers, equivalentList_iff args args', and_assoc]
    | _ => simp [equivalent, outline]
  | matrix rows _, f => by
    cases f with
    | matrix rows' => simp [equivalent, outline, numbers, equivalentRows_iff rows rows']
    | _ => simp [equivalent, outline]
  | complex re im _, f => by
    cases f with
    | complex re' im' =>
      rw [equivalent, Bool.and_eq_true, equivalent_iff re re', equivalent_iff im im',
        and_forall₂_append length_numbers_of_outline]
      simp [outline, numbers]
    | _ => simp [equivalent, outline]
theorem equivalentList_iff : (es fs : List Expr) → (equivalentList tolerance es fs = true ↔
    outlineList es = outlineList fs ∧
      List.Forall₂ (fun x y => near tolerance x y = true) (numbersList es) (numbersList fs))
  | [], fs => by
    cases fs with
    | nil => simp [equivalentList, outlineList, numbersList]
    | cons => simp [equivalentList, outlineList]
  | e :: es, fs => by
    cases fs with
    | nil => simp [equivalentList, outlineList]
    | cons f fs =>
      rw [equivalentList, Bool.and_eq_true, equivalent_iff e f, equivalentList_iff es fs,
        and_forall₂_append length_numbers_of_outline]
      simp [outlineList, numbersList]
theorem equivalentRows_iff : (rows others : List (List Expr)) → (equivalentRows tolerance rows others = true ↔
    outlineRows rows = outlineRows others ∧
      List.Forall₂ (fun x y => near tolerance x y = true) (numbersRows rows) (numbersRows others))
  | [], others => by
    cases others with
    | nil => simp [equivalentRows, outlineRows, numbersRows]
    | cons => simp [equivalentRows, outlineRows]
  | row :: rows, others => by
    cases others with
    | nil => simp [equivalentRows, outlineRows]
    | cons other others =>
      rw [equivalentRows, Bool.and_eq_true, equivalentList_iff row other, equivalentRows_iff rows others,
        and_forall₂_append length_numbersList_of_outline]
      simp [outlineRows, numbersRows]
end

theorem equivalent_comm (e f : Expr) : equivalent tolerance e f = equivalent tolerance f e := by
  have hswap : ∀ e f : Expr, equivalent tolerance e f = true → equivalent tolerance f e = true := by
    intro e f h
    rw [equivalent_iff] at h ⊢
    exact ⟨h.1.symm, .flip (h.2.imp fun x y hnear => (near_comm y x).trans hnear)⟩
  exact Bool.eq_iff_iff.mpr ⟨hswap e f, hswap f e⟩

/-! ### Lists of trees -/

theorem length_eq_of_equivalentList {es fs : List Expr} (h : equivalentList tolerance es fs = true) :
    es.length = fs.length := by
  induction es generalizing fs with
  | nil =>
    cases fs with
    | nil => rfl
    | cons => simp [equivalentList] at h
  | cons e es ih =>
    cases fs with
    | nil => simp [equivalentList] at h
    | cons f fs =>
      rw [equivalentList, Bool.and_eq_true] at h
      exact congrArg (· + 1) (ih h.2)

/-- The lengths need no look where the members are compared. -/
theorem length_beq_and_equivalentList {es fs : List Expr} :
    (es.length == fs.length && equivalentList tolerance es fs) = equivalentList tolerance es fs := by
  rw [Bool.and_eq_right_iff_imp]
  exact fun h => beq_iff_eq.mpr (length_eq_of_equivalentList h)

theorem equivalentList_append {es fs : List Expr} (h : es.length = fs.length) (es' fs' : List Expr) :
    equivalentList tolerance (es ++ es') (fs ++ fs') =
      (equivalentList tolerance es fs && equivalentList tolerance es' fs') := by
  induction es generalizing fs with
  | nil =>
    obtain rfl := List.length_eq_zero_iff.mp h.symm
    simp [equivalentList]
  | cons e es ih =>
    cases fs with
    | nil => cases h
    | cons f fs => simp [equivalentList, ih (Nat.succ.inj h), Bool.and_assoc]

/-- Rows are equivalent if they are equally long and all their members are, read one row after the other. -/
theorem equivalentRows_eq (rows others : List (List Expr)) : equivalentRows tolerance rows others =
    (rows.map List.length == others.map List.length && equivalentList tolerance rows.flatten others.flatten) := by
  induction rows generalizing others with
  | nil =>
    cases others with
    | nil => simp [equivalentRows, equivalentList]
    | cons => simp [equivalentRows]
  | cons row rows ih =>
    cases others with
    | nil => simp [equivalentRows]
    | cons other others =>
      rw [equivalentRows, ih]
      by_cases hlength : row.length = other.length
      · simp [hlength, equivalentList_append hlength, Bool.and_left_comm]
      · rw [Bool.eq_false_iff.mpr (mt length_eq_of_equivalentList hlength)]
        simp [hlength]

end
end Expr

/-! ### Equality of what is stored -/

namespace Arena

variable {tolerance : Float} {a b : Arena} {i j : ℕ} {e f : Expr}

theorem map_length_eq_iff {α β : Type} {rows : List (List α)} {others : List (List β)} :
    (rows.length == others.length && (rows.zip others).all fun (row, other) => row.length == other.length) =
      (rows.map List.length == others.map List.length) := by
  induction rows generalizing others with
  | nil => cases others <;> simp
  | cons row rows ih =>
    cases others with
    | nil => simp
    | cons other others => simp [← ih, Bool.and_left_comm]

theorem map_length_of_forall₂ {α β : Type} {r : α → β → Prop} {rows : List (List α)} {others : List (List β)}
    (h : List.Forall₂ (List.Forall₂ r) rows others) : rows.map List.length = others.map List.length := by
  induction h with
  | nil => rfl
  | cons hrow _ ih => rw [List.map_cons, List.map_cons, hrow.length_eq, ih]

/-- Nodes that agree have equally many children, so that none is left out where the children are paired. -/
theorem length_children_of_sameShape {content content' : Content} (h : content.sameShape content' = true) :
    content.children.length = content'.children.length := by
  cases content with
  | call =>
    cases content' with
    | call => exact beq_iff_eq.mp (Bool.and_eq_true_iff.mp h).2
    | _ => cases h
  | matrix rows =>
    cases content' with
    | matrix rows' =>
      rw [Content.sameShape, map_length_eq_iff, beq_iff_eq] at h
      rw [Content.children, Content.children, List.length_flatten, h, List.length_flatten]
    | _ => cases h
  | number | constant | free => cases content' <;> cases h
  | unary =>
    cases content' with
    | unary => rfl
    | _ => cases h
  | binary =>
    cases content' with
    | binary => rfl
    | _ => cases h
  | complex =>
    cases content' with
    | complex => rfl
    | _ => cases h

theorem allM_zip {child child' : ℕ → Expr → Prop} {same : ℕ × ℕ → Option Bool} {cs ds : List ℕ} {es fs : List Expr}
    (hes : List.Forall₂ child cs es) (hfs : List.Forall₂ child' ds fs) (hlength : cs.length = ds.length)
    (h : ∀ c d e f, child c e → child' d f → same (c, d) = some (e.equivalent tolerance f)) :
    (cs.zip ds).allM same = some (Expr.equivalentList tolerance es fs) := by
  induction hes generalizing ds fs with
  | nil =>
    obtain rfl := List.length_eq_zero_iff.mp hlength.symm
    cases hfs
    rw [Expr.equivalentList]
    rfl
  | cons he _ ih =>
    cases hfs with
    | nil => cases hlength
    | cons hf hfs =>
      rw [List.zip_cons_cons, List.allM_cons, h _ _ _ _ he hf, Option.bind_eq_bind, Option.bind_some,
        ih hfs (Nat.succ.inj hlength), Expr.equivalentList]
      cases Expr.equivalent tolerance _ _ <;> rfl

/-- The stores are compared as the trees in them are. -/
theorem equivalentAt_eq (he : a.tree? i = some e) (hf : b.tree? j = some f) :
    a.equivalentAt tolerance i b j = some (e.equivalent tolerance f) := by
  induction i using Nat.strong_induction_on generalizing j e f with
  | _ i ih =>
    obtain ⟨⟨content, span, height⟩, hnode, hshows⟩ := tree?_eq_some_iff.mp he
    obtain ⟨⟨content', span', height'⟩, hother, hshows'⟩ := tree?_eq_some_iff.mp hf
    have hchildren : (if content.sameShape content' = true then
        (content.children.zip content'.children).allM fun pair =>
          if _h : pair.1 < i then a.equivalentAt tolerance pair.1 b pair.2 else none
      else pure false) =
        some (content.sameShape content' && Expr.equivalentList tolerance e.children f.children) := by
      cases hshape : content.sameShape content' with
      | true =>
        refine allM_zip hshows.children hshows'.children (length_children_of_sameShape hshape) ?_
        intro c d e f hc hd
        exact (dif_pos hc.1).trans (ih c hc.1 hc.2 hd.2)
      | false => rfl
    rw [equivalentAt, hnode, Option.bind_eq_bind, Option.bind_some, hother, Option.bind_some]
    dsimp only at hshows hshows' ⊢
    cases hshows with
    | number =>
      cases hshows' with
      | _ => rfl
    | constant =>
      cases hshows' with
      | _ => rfl
    | free =>
      cases hshows' with
      | _ => rfl
    | unary =>
      cases hshows' with
      | unary =>
        refine hchildren.trans (congrArg some ?_)
        simp [Content.sameShape, Expr.children, Expr.equivalent, Expr.equivalentList]
      | _ => rfl
    | binary =>
      cases hshows' with
      | binary =>
        refine hchildren.trans (congrArg some ?_)
        simp [Content.sameShape, Expr.children, Expr.equivalent, Expr.equivalentList, Bool.and_assoc]
      | _ => rfl
    | call name span hargs =>
      cases hshows' with
      | call name' span' hargs' =>
        refine hchildren.trans (congrArg some ?_)
        rw [Content.sameShape, hargs.length_eq, hargs'.length_eq, Bool.and_assoc]
        exact congrArg _ Expr.length_beq_and_equivalentList
      | _ => rfl
    | matrix span hrows =>
      cases hshows' with
      | matrix span' hrows' =>
        refine hchildren.trans (congrArg some ?_)
        rw [Content.sameShape, map_length_eq_iff, map_length_of_forall₂ hrows, map_length_of_forall₂ hrows']
        exact (Expr.equivalentRows_eq ..).symm
      | _ => rfl
    | complex =>
      cases hshows' with
      | complex =>
        refine hchildren.trans (congrArg some ?_)
        simp [Content.sameShape, Expr.children, Expr.equivalent, Expr.equivalentList]
      | _ => rfl

/-- For two places of stores that came about, the trees below them are compared whole: they have to be of one outline,
and the numbers at the same places equal or at most `tolerance` apart. Neither spans, nor spellings, nor the places of
the nodes count, nor which place is given first. -/
theorem equivalentAt_compares_trees (tolerance : Float) (ha : a.Built) (hb : b.Built) (hi : i < a.size)
    (hj : j < b.size) : ∃ e f same, a.tree? i = some e ∧ b.tree? j = some f ∧
      a.equivalentAt tolerance i b j = some same ∧ b.equivalentAt tolerance j a i = some same ∧
      (same = true ↔ e.outline = f.outline ∧
        List.Forall₂ (fun x y => x == y ∨ (x - y).abs ≤ tolerance) e.numbers f.numbers) ∧
      ∀ (a' b' : Arena) (i' j' : ℕ) (e' f' : Expr), a'.tree? i' = some e' → b'.tree? j' = some f' →
        e'.outline = e.outline → e'.numbers = e.numbers → f'.outline = f.outline → f'.numbers = f.numbers →
        a'.equivalentAt tolerance i' b' j' = some same := by
  obtain ⟨e, he⟩ := ha.exists_tree hi
  obtain ⟨f, hf⟩ := hb.exists_tree hj
  refine ⟨e, f, e.equivalent tolerance f, he, hf, equivalentAt_eq he hf, ?_, ?_, ?_⟩
  · rw [equivalentAt_eq hf he, Expr.equivalent_comm]
  · simp only [Expr.equivalent_iff, Expr.near_iff]
  · intro a' b' i' j' e' f' he' hf' heoutline henumbers hfoutline hfnumbers
    rw [equivalentAt_eq he' hf', Option.some.injEq, Bool.eq_iff_iff, Expr.equivalent_iff, Expr.equivalent_iff,
      heoutline, henumbers, hfoutline, hfnumbers]

/-- A sum whose operands are one node is the sum of two. -/
theorem shared_equivalent_to_plain :
    let shared := (empty.push (.number 1 "1") ⟨4, 5⟩).push (.binary .add 0 0) ⟨4, 5⟩
    let plain := ((empty.push (.number 1 "1e0") ⟨0, 3⟩).push (.number 1 "1.0") ⟨6, 9⟩).push (.binary .add 0 1) ⟨0, 9⟩
    shared.equivalentAt 0 1 plain 2 = some true ∧ plain.equivalentAt 0 2 shared 1 = some true := by
  intro shared plain
  have hshared : shared.Built := .push (.push .empty (by simp [Content.children]))
    (by simp [Content.children, size_push])
  have hplain : plain.Built := .push (.push (.push .empty (by simp [Content.children])) (by simp [Content.children]))
    (by simp [Content.children, size_push])
  have hleaf : shared.tree? 0 = some (.number 1 "1" ⟨4, 5⟩) := tree?_eq_some_iff.mpr ⟨_, rfl, .number ..⟩
  have hleft : plain.tree? 0 = some (.number 1 "1e0" ⟨0, 3⟩) := tree?_eq_some_iff.mpr ⟨_, rfl, .number ..⟩
  have hright : plain.tree? 1 = some (.number 1 "1.0" ⟨6, 9⟩) := tree?_eq_some_iff.mpr ⟨_, rfl, .number ..⟩
  have hsum : shared.tree? 1 = some _ :=
    tree?_eq_some_iff.mpr ⟨_, rfl, .binary .add ⟨4, 5⟩ ⟨by decide, hleaf⟩ ⟨by decide, hleaf⟩⟩
  have hsum' : plain.tree? 2 = some _ :=
    tree?_eq_some_iff.mpr ⟨_, rfl, .binary .add ⟨0, 9⟩ ⟨by decide, hleft⟩ ⟨by decide, hright⟩⟩
  obtain ⟨e, f, same, he, hf, hsame, hswapped, hiff, -⟩ := equivalentAt_compares_trees 0 hshared hplain
    (i := 1) (j := 2) (by decide) (by decide)
  obtain rfl := Option.some.inj (he.symm.trans hsum)
  obtain rfl := Option.some.inj (hf.symm.trans hsum')
  have hone : (1 : Float) == 1 := rfl
  obtain rfl := hiff.mpr ⟨rfl, .cons (.inl hone) (.cons (.inl hone) .nil)⟩
  exact ⟨hsame, hswapped⟩

end Arena
end Calculator
