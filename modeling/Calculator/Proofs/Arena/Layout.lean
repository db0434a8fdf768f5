import Calculator.Proofs.Arena.Store
import Mathlib.Algebra.BigOperators.Group.List.Basic
import Mathlib.Data.List.Nodup
import Mathlib.Data.Nat.Basic
import Mathlib.Logic.Relation
/-!
Trees laid out in a store. Storing a tree puts its nodes behind those that are there, in the order in which a walk in
post-order comes by, and each place but that of the root is named just once.
-/
namespace Calculator

/-! ### Numbers of nodes -/

namespace Expr

mutual
/-- The number of nodes. -/
def count : Expr → ℕ
  | number .. | constant .. | free .. => 1
  | unary _ e _ => e.count + 1
  | binary _ l r _ => l.count + r.count + 1
  | call _ args _ => countList args + 1
  | matrix rows _ => countRows rows + 1
  | complex re im _ => re.count + im.count + 1
def countList : List Expr → ℕ
  | [] => 0
  | e :: es => e.count + countList es
def countRows : List (List Expr) → ℕ
  | [] => 0
  | row :: rows => countList row + countRows rows
end

theorem countList_append (es fs : List Expr) : countList (es ++ fs) = countList es + countList fs := by
  induction es with
  | nil => rw [List.nil_append, countList, Nat.zero_add]
  | cons e es ih => rw [List.cons_append, countList, countList, ih, Nat.add_assoc]

theorem countRows_eq (rows : List (List Expr)) : countRows rows = countList rows.flatten := by
  induction rows with
  | nil => rfl
  | cons row rows ih => rw [countRows, List.flatten_cons, countList_append, ih]

theorem count_eq (e : Expr) : e.count = countList e.children + 1 := by
  cases e with
  | number | constant | free => rfl
  | unary => rfl
  | binary => rfl
  | call => rfl
  | matrix rows => rw [count, countRows_eq, children]
  | complex => rfl

end Expr

namespace Arena

variable {a b c : Arena} {i : ℕ} {content : Content} {span : Span}

/-! ### Ways through a store -/

/-- The places below a place in post-order: those below the children from left to right, then the place. -/
def postorder (a : Arena) (place : ℕ) : List ℕ :=
  match a.nodes[place]? with
  | some node => (node.content.children.flatMap fun c => if _h : c < place then a.postorder c else []) ++ [place]
  | none => []
termination_by place

/-- All children that the nodes name, node by node. -/
def references (a : Arena) : List ℕ := a.nodes.toList.flatMap (·.content.children)

theorem references_push : (a.push content span).references = a.references ++ content.children := by
  rw [references, push, Array.toList_push, List.flatMap_append, List.flatMap_singleton, references]

/-! ### What stays -/

/-- The nodes of one store are there in the other, at the same places. -/
def Keeps (a b : Arena) : Prop := ∀ i < a.size, b.nodes[i]? = a.nodes[i]?

theorem keeps_push : a.Keeps (a.push content span) := fun _ => nodes_push_of_lt

section
variable (h : a.Keeps b)
include h

theorem Keeps.tree? (hi : i < a.size) : b.tree? i = a.tree? i := by
  induction i using Nat.strong_induction_on with
  | _ i ih =>
    have hchild : (fun c e => c < i ∧ b.tree? c = some e) = fun c e => c < i ∧ a.tree? c = some e := by
      funext c e
      exact propext (and_congr_right fun hc => by rw [ih c hc (Nat.lt_trans hc hi)])
    ext e
    rw [tree?_eq_some_iff, tree?_eq_some_iff, h i hi, hchild]

theorem Keeps.postorder (hi : i < a.size) : b.postorder i = a.postorder i := by
  induction i using Nat.strong_induction_on with
  | _ i ih =>
    have hchild : (fun c => if _h : c < i then b.postorder c else []) =
        fun c => if _h : c < i then a.postorder c else [] := by
      funext c
      split
      · rename_i hc
        exact ih c hc (Nat.lt_trans hc hi)
      · rfl
    rw [Arena.postorder, h i hi, hchild, Arena.postorder]

end

/-! ### Trees behind a store -/

/-- The second store is the first one with trees behind it, one after the other. -/
structure Behind (a b : Arena) (trees : List Expr) (places : List ℕ) : Prop where
  built : b.Built
  keeps : a.Keeps b
  size : b.size = a.size + Expr.countList trees
  /-- The trees stand at the places. -/
  stored : List.Forall₂ (fun c e => c < b.size ∧ b.tree? c = some e) places trees
  /-- The new nodes lie in post-order. -/
  ordered : places.flatMap b.postorder = List.range' a.size (Expr.countList trees)
  /-- The new nodes are named once each, but for the roots. -/
  named : (b.references ++ places).Perm (a.references ++ List.range' a.size (Expr.countList trees))

theorem Behind.nil (ha : a.Built) : Behind a a [] [] where
  built := ha
  keeps _ _ := rfl
  size := rfl
  stored := .nil
  ordered := rfl
  named := .refl _

theorem Behind.places_lt {trees : List Expr} {places : List ℕ} (h : Behind a b trees places) :
    ∀ p ∈ places, p < b.size :=
  ((List.forall₂_and_left _ _).mp h.stored).1

theorem Behind.append {trees others : List Expr} {places more : List ℕ} (h : Behind a b trees places)
    (h' : Behind b c others more) : Behind a c (trees ++ others) (places ++ more) := by
  have hle : a.size ≤ b.size := h.size ▸ Nat.le_add_right ..
  have hle' : b.size ≤ c.size := h'.size ▸ Nat.le_add_right ..
  have hrange : List.range' a.size (Expr.countList (trees ++ others)) =
      List.range' a.size (Expr.countList trees) ++ List.range' b.size (Expr.countList others) := by
    rw [Expr.countList_append, h.size, List.range'_append_1]
  have hplaces := h.places_lt
  constructor
  · exact h'.built
  · exact fun i hi => (h'.keeps i (Nat.lt_of_lt_of_le hi hle)).trans (h.keeps i hi)
  · rw [h'.size, h.size, Expr.countList_append, Nat.add_assoc]
  · refine List.rel_append (h.stored.imp fun p e hp => ⟨Nat.lt_of_lt_of_le hp.1 hle', ?_⟩) h'.stored
    rw [h'.keeps.tree? hp.1, hp.2]
  · rw [List.flatMap_append, List.flatMap_congr fun p hp => h'.keeps.postorder (hplaces p hp), h.ordered, h'.ordered,
      hrange]
  · rw [hrange, List.perm_iff_count]
    intro p
    have hcount := h.named.count_eq p
    have hcount' := h'.named.count_eq p
    simp only [List.count_append] at hcount hcount' ⊢
    omega

theorem Behind.push {e : Expr} (h : Behind a b e.children content.children)
    (hshows : Shows (fun c e => c < b.size ∧ b.tree? c = some e) content span e) :
    Behind a (b.push content span) [e] [b.size] := by
  have hle : a.size ≤ b.size := h.size ▸ Nat.le_add_right ..
  have hplaces := h.places_lt
  have hcount : Expr.countList [e] = Expr.countList e.children + 1 := by
    rw [Expr.countList, Expr.countList, Expr.count_eq, Nat.add_zero]
  have hrange : List.range' a.size (Expr.countList [e]) =
      List.range' a.size (Expr.countList e.children) ++ [b.size] := by
    rw [hcount, List.range'_1_concat, h.size]
  have hchild : (fun c e => c < b.size ∧ (b.push content span).tree? c = some e) =
      fun c e => c < b.size ∧ b.tree? c = some e := by
    funext c e
    exact propext (and_congr_right fun hc => by rw [keeps_push.tree? hc])
  have htree : (b.push content span).tree? b.size = some e := by
    refine tree?_eq_some_iff.mpr ⟨_, nodes_push_size, ?_⟩
    rw [hchild]
    exact hshows
  constructor
  · exact h.built.push hplaces
  · exact fun i hi => (nodes_push_of_lt (Nat.lt_of_lt_of_le hi hle)).trans (h.keeps i hi)
  · rw [size_push, h.size, hcount, Nat.add_assoc]
  · exact .cons ⟨size_push ▸ Nat.lt_succ_self _, htree⟩ .nil
  · have hbelow : (content.children.flatMap fun c =>
        if _h : c < b.size then (b.push content span).postorder c else []) = content.children.flatMap b.postorder :=
      List.flatMap_congr fun c hc => (dif_pos (hplaces c hc)).trans (keeps_push.postorder (hplaces c hc))
    rw [List.flatMap_singleton, postorder, nodes_push_size]
    dsimp only
    rw [hbelow, h.ordered, hrange]
  · rw [references_push, hrange, ← List.append_assoc]
    exact h.named.append_right _

theorem Behind.shows {e : Expr} {p : ℕ} (h : Behind a b [e] [p]) : p < b.size ∧ b.tree? p = some e := by
  cases h.stored with
  | cons he _ => exact he

theorem Behind.shows_both {l r : Expr} {p q : ℕ} (h : Behind a b [l, r] [p, q]) :
    (p < b.size ∧ b.tree? p = some l) ∧ (q < b.size ∧ b.tree? q = some r) := by
  cases h.stored with
  | cons hl h =>
    cases h with
    | cons hr _ => exact ⟨hl, hr⟩

mutual
theorem behind_add : (e : Expr) → {a : Arena} → a.Built → Behind a (a.add e) [e] [(a.add e).last]
  | .number value raw span, a, ha => by
    rw [add, last_push]
    exact (Behind.nil ha).push (.number value raw span)
  | .constant c span, a, ha => by
    rw [add, last_push]
    exact (Behind.nil ha).push (.constant c span)
  | .free name span, a, ha => by
    rw [add, last_push]
    exact (Behind.nil ha).push (.free name span)
  | .unary op e span, a, ha => by
    have h := behind_add e ha
    rw [add, last_push]
    exact h.push (.unary op span h.shows)
  | .binary op l r span, a, ha => by
    have hl := behind_add l ha
    have h := hl.append (behind_add r hl.built)
    rw [add, last_push]
    exact h.push (.binary op span h.shows_both.1 h.shows_both.2)
  | .call name args span, a, ha => by
    have h := behind_addList args ha
    rw [add, last_push]
    exact h.push (.call name span h.stored)
  | .matrix rows span, a, ha => by
    have h := behind_addRows rows ha
    rw [add, last_push]
    exact h.1.push (.matrix span h.2)
  | .complex re im span, a, ha => by
    have hre := behind_add re ha
    have h := hre.append (behind_add im hre.built)
    rw [add, last_push]
    exact h.push (.complex span h.shows_both.1 h.shows_both.2)
theorem behind_addList : (es : List Expr) → {a : Arena} → a.Built → Behind a (a.addList es).1 es (a.addList es).2
  | [], a, ha => by
    rw [addList]
    exact .nil ha
  | e :: es, a, ha => by
    have he := behind_add e ha
    rw [addList]
    exact he.append (behind_addList es he.built)
theorem behind_addRows : (rows : List (List Expr)) → {a : Arena} → a.Built →
    Behind a (a.addRows rows).1 rows.flatten (a.addRows rows).2.flatten ∧
      List.Forall₂ (List.Forall₂ fun c e => c < (a.addRows rows).1.size ∧ (a.addRows rows).1.tree? c = some e)
        (a.addRows rows).2 rows
  | [], a, ha => by
    rw [addRows]
    exact ⟨.nil ha, .nil⟩
  | row :: rows, a, ha => by
    have hrow := behind_addList row ha
    obtain ⟨hrows, hstored⟩ := behind_addRows rows hrow.built
    rw [addRows]
    refine ⟨hrow.append hrows, .cons ?_ hstored⟩
    refine hrow.stored.imp fun c e hc => ⟨Nat.lt_of_lt_of_le hc.1 (hrows.size ▸ Nat.le_add_right ..), ?_⟩
    rw [hrows.keeps.tree? hc.1, hc.2]
end

/-! ### Trees in post-order -/

/-- What stands at a number among the children that a node names. -/
def child? (a : Arena) (place number : ℕ) : Option ℕ :=
  a.nodes[place]?.bind fun node => node.content.children[number]?

/-- A value for each node from the values of its children, if the way down from the place has at most so many nodes. -/
def walk {α : Type} (a : Arena) (visit : Content → Span → List α → α) : ℕ → ℕ → Option α
  | 0, _ => none
  | levels + 1, place => do
    let node ← a.nodes[place]?
    return visit node.content node.span (← node.content.children.mapM (a.walk visit levels))

/-- A store that holds one tree of at most `limit` levels, in post-order. -/
structure PostOrder (a : Arena) (root limit : ℕ) : Prop where
  ordered : a.postorder root = List.range a.size
  root_last : root + 1 = a.size
  child_lt : ∀ p k c, a.child? p k = some c → c < p
  /-- Each place but that of the root is named by one node, in one place. -/
  named_once : ∀ i < root, ∃! w : ℕ × ℕ, a.child? w.1 w.2 = some i
  reached : ∀ i < a.size, Relation.ReflTransGen (fun p c => ∃ k, a.child? p k = some c) root i
  /-- The heights that are recorded are those of the trees, and within the limit. -/
  height : ∀ i < a.size, ∃ e, a.tree? i = some e ∧ a.height i = e.height ∧ e.height ≤ limit
  /-- Nothing that goes down from node to child needs more levels. -/
  walks : ∀ (α : Type) (visit : Content → Span → List α → α), ∀ i < a.size, (a.walk visit limit i).isSome

section
variable {p q k l n levels limit : ℕ}

theorem child?_eq_some_iff : a.child? p k = some n ↔
    ∃ node, a.nodes[p]? = some node ∧ node.content.children[k]? = some n := Option.bind_eq_some_iff

theorem mem_references_iff : n ∈ a.references ↔ ∃ p k, a.child? p k = some n := by
  constructor
  · intro h
    obtain ⟨node, hnode, hn⟩ := List.mem_flatMap.mp h
    obtain ⟨p, hp⟩ := List.mem_iff_getElem?.mp hnode
    obtain ⟨k, hk⟩ := List.mem_iff_getElem?.mp hn
    exact ⟨p, k, child?_eq_some_iff.mpr ⟨node, Array.getElem?_toList ▸ hp, hk⟩⟩
  · rintro ⟨p, k, h⟩
    obtain ⟨node, hp, hk⟩ := child?_eq_some_iff.mp h
    have hnode : node ∈ a.nodes.toList := List.mem_iff_getElem?.mpr ⟨p, Array.getElem?_toList ▸ hp⟩
    exact List.mem_flatMap.mpr ⟨node, hnode, List.mem_iff_getElem?.mpr ⟨k, hk⟩⟩

/-- Where nothing is named twice, a child tells its parent and its number. -/
theorem child_unique (h : a.references.Nodup) (hp : a.child? p k = some n) (hq : a.child? q l = some n) :
    p = q ∧ k = l := by
  obtain ⟨node, hnode, hk⟩ := child?_eq_some_iff.mp hp
  obtain ⟨other, hother, hl⟩ := child?_eq_some_iff.mp hq
  obtain ⟨hsingle, hdisjoint⟩ := List.nodup_flatMap.mp h
  have hapart : ∀ {p q : ℕ} {node other : Node}, a.nodes[p]? = some node → a.nodes[q]? = some other →
      n ∈ node.content.children → n ∈ other.content.children → ¬p < q := by
    intro p q node other hnode hother hmem hmem' hlt
    obtain ⟨hp, rfl⟩ := Array.getElem?_eq_some_iff.mp hnode
    obtain ⟨hq, rfl⟩ := Array.getElem?_eq_some_iff.mp hother
    exact List.pairwise_iff_getElem.mp hdisjoint p q hp hq hlt hmem hmem'
  have hmem := List.mem_of_getElem? hk
  have hmem' := List.mem_of_getElem? hl
  obtain rfl : p = q :=
    Nat.le_antisymm (not_lt.mp (hapart hother hnode hmem' hmem)) (not_lt.mp (hapart hnode hother hmem hmem'))
  obtain rfl := Option.some.inj (hnode.symm.trans hother)
  obtain ⟨hklt, hkeq⟩ := List.getElem?_eq_some_iff.mp hk
  obtain ⟨hllt, hleq⟩ := List.getElem?_eq_some_iff.mp hl
  have hnodup := hsingle node (List.mem_iff_getElem?.mpr ⟨p, Array.getElem?_toList ▸ hnode⟩)
  exact ⟨rfl, (hnodup.getElem_inj_iff).mp (hkeq.trans hleq.symm)⟩

theorem le_foldl_max {xs : List ℕ} (h : n ∈ xs ∨ n ≤ k) : n ≤ xs.foldl max k := by
  induction xs generalizing k with
  | nil => exact h.resolve_left List.not_mem_nil
  | cons x xs ih =>
    refine ih ?_
    rcases h with h | h
    · rcases List.mem_cons.mp h with rfl | h
      · exact .inr (Nat.le_max_right ..)
      · exact .inl h
    · exact .inr (h.trans (Nat.le_max_left ..))

theorem Built.child_lt_of_child? (ha : a.Built) (h : a.child? p k = some n) : n < p := by
  obtain ⟨node, hnode, hk⟩ := child?_eq_some_iff.mp h
  exact ha.child_lt hnode n (List.mem_of_getElem? hk)

theorem Built.height_child_lt (ha : a.Built) {node : Node} (hnode : a.nodes[p]? = some node)
    (hn : n ∈ node.content.children) : a.height n < a.height p := by
  rw [height_of_nodes hnode, ha.height_node hnode]
  exact Nat.lt_succ_of_le (le_foldl_max (.inl (List.mem_map_of_mem hn)))

/-- The ways up end at the root, since parents lie above their children. -/
theorem Built.reached (ha : a.Built) {root : ℕ} (hroot : root + 1 = a.size)
    (hparent : ∀ i < root, ∃ p k, a.child? p k = some i) (hi : i < a.size) :
    Relation.ReflTransGen (fun p c => ∃ k, a.child? p k = some c) root i := by
  induction hdistance : root - i using Nat.strong_induction_on generalizing i with
  | _ distance ih =>
    rcases Nat.lt_or_eq_of_le (by omega : i ≤ root) with hlt | rfl
    · obtain ⟨p, k, hp⟩ := hparent i hlt
      obtain ⟨node, hnode, -⟩ := child?_eq_some_iff.mp hp
      have hup := ha.child_lt_of_child? hp
      have hsize := lt_size_of_nodes hnode
      exact .tail (ih (root - p) (by omega) hsize rfl) ⟨k, hp⟩
    · exact .refl

theorem Built.height_le_of_reached (ha : a.Built)
    (h : Relation.ReflTransGen (fun p c => ∃ k, a.child? p k = some c) p n) : a.height n ≤ a.height p := by
  induction h with
  | refl => exact Nat.le_refl _
  | tail _ hchild ih =>
    obtain ⟨k, hchild⟩ := hchild
    obtain ⟨node, hnode, hk⟩ := child?_eq_some_iff.mp hchild
    exact (ha.height_child_lt hnode (List.mem_of_getElem? hk)).le.trans ih

/-- A walk from a place needs as many levels as its height. -/
theorem Built.walk_isSome (ha : a.Built) {α : Type} (visit : Content → Span → List α → α) (hi : i < a.size)
    (hlevels : a.height i ≤ levels) : (a.walk visit levels i).isSome := by
  obtain ⟨node, hnode⟩ : ∃ node, a.nodes[i]? = some node := ⟨_, Array.getElem?_eq_getElem hi⟩
  induction levels generalizing i node with
  | zero =>
    rw [height_of_nodes hnode, ha.height_node hnode] at hlevels
    cases hlevels
  | succ levels ih =>
    have hbelow : ∀ c ∈ node.content.children, ∃ value, a.walk visit levels c = some value := by
      intro c hc
      have hlt := Nat.lt_trans (ha.child_lt hnode c hc) hi
      have hheight := ha.height_child_lt hnode hc
      exact Option.isSome_iff_exists.mp (ih hlt (by omega) _ (Array.getElem?_eq_getElem hlt))
    obtain ⟨values, hvalues⟩ := exists_forall₂ hbelow
    rw [walk, hnode, Option.bind_eq_bind, Option.bind_some, mapM_eq_some_iff.mpr hvalues]
    rfl

theorem postOrder_ofExpr {e : Expr} (he : e.height ≤ limit) : PostOrder (ofExpr e) (ofExpr e).last limit := by
  have h : Behind empty (ofExpr e) [e] [(ofExpr e).last] := behind_add e .empty
  have hbuilt := h.built
  have htree := h.shows
  generalize hroot : (ofExpr e).last = root at h htree ⊢
  have hlast : root + 1 = (ofExpr e).size := by
    rw [← hroot, last]
    exact Nat.sub_add_cancel (Nat.one_le_of_lt htree.1)
  have hrange : List.range' empty.size (Expr.countList [e]) = List.range (ofExpr e).size := by
    rw [h.size, List.range_eq_range']
    exact congrArg (List.range' 0) (Nat.zero_add _).symm
  have hnamed : ((ofExpr e).references ++ [root]).Perm (List.range (ofExpr e).size) := hrange ▸ h.named
  generalize ofExpr e = a at *
  have hnodup : a.references.Nodup := (hnamed.nodup_iff.mpr List.nodup_range).of_append_left
  have hparent : ∀ i < root, ∃ p k, a.child? p k = some i := by
    intro i hi
    have hmem := hnamed.mem_iff.mpr (List.mem_range.mpr (by omega : i < a.size))
    rcases List.mem_append.mp hmem with hmem | hmem
    · exact mem_references_iff.mp hmem
    · exact absurd (List.mem_singleton.mp hmem) hi.ne
  have hreached := fun i (hi : i < a.size) => hbuilt.reached hlast hparent hi
  have hheight : ∀ i < a.size, a.height i ≤ e.height := fun i hi =>
    (hbuilt.height_le_of_reached (hreached i hi)).trans_eq (hbuilt.height_eq htree.2)
  constructor
  · rw [← hrange, ← h.ordered, List.flatMap_singleton]
  · exact hlast
  · exact fun p k c => hbuilt.child_lt_of_child?
  · intro i hi
    obtain ⟨p, k, hp⟩ := hparent i hi
    refine ⟨(p, k), hp, fun w hw => ?_⟩
    obtain ⟨rfl, rfl⟩ := child_unique hnodup hw hp
    rfl
  · exact hreached
  · intro i hi
    obtain ⟨f, hf⟩ := hbuilt.exists_tree hi
    have hrecorded := hbuilt.height_eq hf
    exact ⟨f, hf, hrecorded, (hrecorded ▸ hheight i hi).trans he⟩
  · exact fun α visit i hi => hbuilt.walk_isSome visit hi ((hheight i hi).trans he)

end
end Arena
end Calculator
