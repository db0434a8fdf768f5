import Calculator.Expr.Arena
import Mathlib.Data.List.Forall2
import Mathlib.Data.Nat.Init
/-!
Stores of nodes. Where each node names children that come before it, there is a tree below every place. What is there
stays when more nodes are stored.
-/
namespace Calculator

/-! ### Heights of trees -/

namespace Expr

theorem heightList_append (es fs : List Expr) : heightList (es ++ fs) = max (heightList es) (heightList fs) := by
  induction es with
  | nil => rw [List.nil_append, heightList, Nat.zero_max]
  | cons e es ih => rw [List.cons_append, heightList, heightList, ih, Nat.max_assoc]

theorem heightRows_eq (rows : List (List Expr)) : heightRows rows = heightList rows.flatten := by
  induction rows with
  | nil => rfl
  | cons row rows ih => rw [heightRows, List.flatten_cons, heightList_append, ih]

theorem height_eq (e : Expr) : e.height = heightList e.children + 1 := by
  cases e with
  | number | constant | free => rfl
  | unary => simp [height, children, heightList]
  | binary => simp [height, children, heightList]
  | call => rfl
  | matrix rows => rw [height, heightRows_eq, children]
  | complex => simp [height, children, heightList]

theorem foldl_max_heights (es : List Expr) (n : ℕ) : (es.map height).foldl max n = max n (heightList es) := by
  induction es generalizing n with
  | nil => rw [heightList, Nat.max_zero, List.map_nil, List.foldl_nil]
  | cons e es ih => rw [List.map_cons, List.foldl_cons, ih, heightList, Nat.max_assoc]

end Expr

namespace Arena

/-! ### Lists with and without children -/

theorem mapM_eq_some_iff {α β : Type} {f : α → Option β} {xs : List α} {ys : List β} :
    xs.mapM f = some ys ↔ List.Forall₂ (fun x y => f x = some y) xs ys := by
  induction xs generalizing ys with
  | nil => simp [eq_comm]
  | cons x xs ih =>
    rw [List.mapM_cons, List.forall₂_cons_left_iff]
    constructor
    · intro h
      obtain ⟨y, hy, h⟩ := Option.bind_eq_some_iff.mp h
      obtain ⟨rest, hrest, h⟩ := Option.bind_eq_some_iff.mp h
      exact ⟨y, rest, hy, ih.mp hrest, (Option.some.inj h).symm⟩
    · rintro ⟨y, rest, hy, hrest, rfl⟩
      rw [hy, ih.mpr hrest]
      rfl

theorem exists_forall₂ {α β : Type} {r : α → β → Prop} {xs : List α} (h : ∀ x ∈ xs, ∃ y, r x y) :
    ∃ ys, List.Forall₂ r xs ys := by
  induction xs with
  | nil => exact ⟨[], .nil⟩
  | cons x xs ih =>
    obtain ⟨y, hy⟩ := h x (.head _)
    obtain ⟨ys, hys⟩ := ih fun z hz => h z (.tail _ hz)
    exact ⟨y :: ys, .cons hy hys⟩

variable {a b : Arena} {i : ℕ} {content : Content} {span : Span}

/-- A store as it comes about: whatever is stored names children that are there. -/
inductive Built : Arena → Prop
  | empty : Built empty
  | push {a : Arena} {content : Content} {span : Span} (before : Built a)
      (below : ∀ c ∈ content.children, c < a.size) : Built (a.push content span)

/-! ### Storing -/

theorem size_push : (a.push content span).size = a.size + 1 := Array.size_push _

theorem last_push : (a.push content span).last = a.size := by
  rw [last, size_push, Nat.add_sub_cancel]

theorem nodes_push_of_lt (hi : i < a.size) : (a.push content span).nodes[i]? = a.nodes[i]? := by
  rw [push, Array.getElem?_push_lt hi, Array.getElem?_eq_getElem hi]

theorem nodes_push_size : (a.push content span).nodes[a.size]? =
    some ⟨content, span, (content.children.map a.height).foldl max 0 + 1⟩ := Array.getElem?_push_size

theorem lt_size_of_nodes {node : Node} (h : a.nodes[i]? = some node) : i < a.size :=
  (Array.getElem?_eq_some_iff.mp h).1

theorem Built.child_lt (ha : Built a) {node : Node} (hnode : a.nodes[i]? = some node) :
    ∀ c ∈ node.content.children, c < i := by
  induction ha with
  | empty => exact absurd (lt_size_of_nodes hnode) (Nat.not_lt_zero i)
  | @push a content span before below ih =>
    rcases Nat.lt_or_eq_of_le (Nat.lt_succ_iff.mp (size_push ▸ lt_size_of_nodes hnode)) with hi | rfl
    · exact ih (nodes_push_of_lt hi ▸ hnode)
    · obtain rfl := Option.some.inj (nodes_push_size.symm.trans hnode)
      exact below

/-! ### Trees -/

/-- The tree of a node whose children have trees. -/
inductive Shows (child : ℕ → Expr → Prop) : Content → Span → Expr → Prop
  | number (value : Float) (raw : String) (span : Span) : Shows child (.number value raw) span (.number value raw span)
  | constant (c : Constant) (span : Span) : Shows child (.constant c) span (.constant c span)
  | free (name : String) (span : Span) : Shows child (.free name) span (.free name span)
  | unary (op : UnaryOp) (span : Span) {c e} : child c e → Shows child (.unary op c) span (.unary op e span)
  | binary (op : BinaryOp) (span : Span) {c d l r} : child c l → child d r →
      Shows child (.binary op c d) span (.binary op l r span)
  | call (name : String) (span : Span) {places args} : List.Forall₂ child places args →
      Shows child (.call name places) span (.call name args span)
  | matrix (span : Span) {places rows} : List.Forall₂ (List.Forall₂ child) places rows →
      Shows child (.matrix places) span (.matrix rows span)
  | complex (span : Span) {c d re im} : child c re → child d im →
      Shows child (.complex c d) span (.complex re im span)

theorem Shows.children {child : ℕ → Expr → Prop} {e : Expr} (h : Shows child content span e) :
    List.Forall₂ child content.children e.children := by
  cases h with
  | number | constant | free => exact .nil
  | unary op span he => exact .cons he .nil
  | binary op span hl hr => exact .cons hl (.cons hr .nil)
  | call name span hargs => exact hargs
  | matrix span hrows => exact List.rel_flatten hrows
  | complex span hre him => exact .cons hre (.cons him .nil)

theorem exists_shows {child : ℕ → Expr → Prop} (span : Span) (h : ∀ c ∈ content.children, ∃ e, child c e) :
    ∃ e, Shows child content span e := by
  cases content with
  | number value raw => exact ⟨_, .number value raw span⟩
  | constant c => exact ⟨_, .constant c span⟩
  | free name => exact ⟨_, .free name span⟩
  | unary op c =>
    obtain ⟨e, he⟩ := h c (by simp [Content.children])
    exact ⟨_, .unary op span he⟩
  | binary op c d =>
    obtain ⟨l, hl⟩ := h c (by simp [Content.children])
    obtain ⟨r, hr⟩ := h d (by simp [Content.children])
    exact ⟨_, .binary op span hl hr⟩
  | call name places =>
    obtain ⟨args, hargs⟩ := exists_forall₂ h
    exact ⟨_, .call name span hargs⟩
  | matrix places =>
    have hrows : ∀ row ∈ places, ∃ trees, List.Forall₂ child row trees := fun row hrow =>
      exists_forall₂ fun c hc => h c (List.mem_flatten.mpr ⟨row, hrow, hc⟩)
    obtain ⟨rows, hrows⟩ := exists_forall₂ hrows
    exact ⟨_, .matrix span hrows⟩
  | complex c d =>
    obtain ⟨re, hre⟩ := h c (by simp [Content.children])
    obtain ⟨im, him⟩ := h d (by simp [Content.children])
    exact ⟨_, .complex span hre him⟩

theorem tree?_eq_some_iff {e : Expr} : a.tree? i = some e ↔ ∃ node, a.nodes[i]? = some node ∧
    Shows (fun c e => c < i ∧ a.tree? c = some e) node.content node.span e := by
  have hchild (c : ℕ) (e : Expr) : (if _h : c < i then a.tree? c else none) = some e ↔ c < i ∧ a.tree? c = some e := by
    simp
  have hrow (row : List ℕ) (trees : List Expr) : row.mapM (fun c => if _h : c < i then a.tree? c else none) =
      some trees ↔ List.Forall₂ (fun c e => c < i ∧ a.tree? c = some e) row trees := by
    rw [mapM_eq_some_iff]
    simp only [hchild]
  have hrows (rows : List (List ℕ)) (trees : List (List Expr)) :
      (rows.mapM fun row => row.mapM fun c => if _h : c < i then a.tree? c else none) = some trees ↔
        List.Forall₂ (List.Forall₂ fun c e => c < i ∧ a.tree? c = some e) rows trees := by
    rw [mapM_eq_some_iff]
    simp only [hrow]
  rw [tree?]
  cases hnode : a.nodes[i]? with
  | none => simp
  | some node =>
    obtain ⟨content, span, height⟩ := node
    rw [Option.bind_eq_bind, Option.bind_some]
    dsimp only
    constructor
    · intro h
      refine ⟨_, rfl, ?_⟩
      cases content with
      | number value raw => exact Option.some.inj h ▸ .number value raw span
      | constant c => exact Option.some.inj h ▸ .constant c span
      | free name => exact Option.some.inj h ▸ .free name span
      | unary op c =>
        obtain ⟨e, he, h⟩ := Option.bind_eq_some_iff.mp h
        exact Option.some.inj h ▸ .unary op span ((hchild c e).mp he)
      | binary op c d =>
        obtain ⟨l, hl, h⟩ := Option.bind_eq_some_iff.mp h
        obtain ⟨r, hr, h⟩ := Option.bind_eq_some_iff.mp h
        exact Option.some.inj h ▸ .binary op span ((hchild c l).mp hl) ((hchild d r).mp hr)
      | call name places =>
        obtain ⟨args, hargs, h⟩ := Option.bind_eq_some_iff.mp h
        exact Option.some.inj h ▸ .call name span ((hrow places args).mp hargs)
      | matrix places =>
        obtain ⟨rows, htrees, h⟩ := Option.bind_eq_some_iff.mp h
        exact Option.some.inj h ▸ .matrix span ((hrows places rows).mp htrees)
      | complex c d =>
        obtain ⟨re, hre, h⟩ := Option.bind_eq_some_iff.mp h
        obtain ⟨im, him, h⟩ := Option.bind_eq_some_iff.mp h
        exact Option.some.inj h ▸ .complex span ((hchild c re).mp hre) ((hchild d im).mp him)
    · rintro ⟨node, hnode, h⟩
      obtain rfl := Option.some.inj hnode
      cases h with
      | number | constant | free => rfl
      | unary op span he => exact Option.bind_eq_some_iff.mpr ⟨_, (hchild _ _).mpr he, rfl⟩
      | binary op span hl hr =>
        exact Option.bind_eq_some_iff.mpr
          ⟨_, (hchild _ _).mpr hl, Option.bind_eq_some_iff.mpr ⟨_, (hchild _ _).mpr hr, rfl⟩⟩
      | call name span hargs => exact Option.bind_eq_some_iff.mpr ⟨_, (hrow _ _).mpr hargs, rfl⟩
      | matrix span htrees => exact Option.bind_eq_some_iff.mpr ⟨_, (hrows _ _).mpr htrees, rfl⟩
      | complex span hre him =>
        exact Option.bind_eq_some_iff.mpr
          ⟨_, (hchild _ _).mpr hre, Option.bind_eq_some_iff.mpr ⟨_, (hchild _ _).mpr him, rfl⟩⟩

/-- In a store that came about there is a tree below every place. -/
theorem Built.exists_tree (ha : Built a) (hi : i < a.size) : ∃ e, a.tree? i = some e := by
  induction i using Nat.strong_induction_on with
  | _ i ih =>
    obtain ⟨node, hnode⟩ : ∃ node, a.nodes[i]? = some node := ⟨_, Array.getElem?_eq_getElem hi⟩
    have hchildren : ∀ c ∈ node.content.children, ∃ e, c < i ∧ a.tree? c = some e := by
      intro c hc
      have hlt := ha.child_lt hnode c hc
      obtain ⟨e, he⟩ := ih c hlt (Nat.lt_trans hlt hi)
      exact ⟨e, hlt, he⟩
    obtain ⟨e, he⟩ := exists_shows node.span hchildren
    exact ⟨e, tree?_eq_some_iff.mpr ⟨node, hnode, he⟩⟩

theorem span?_of_tree? {e : Expr} (he : a.tree? i = some e) : a.span? i = some e.span := by
  obtain ⟨⟨content, span, height⟩, hnode, hshows⟩ := tree?_eq_some_iff.mp he
  rw [span?, hnode]
  cases hshows with
  | _ => rfl

/-! ### Recorded heights -/

theorem height_of_nodes {node : Node} (hnode : a.nodes[i]? = some node) : a.height i = node.height := by
  rw [height, hnode]
  rfl

theorem height_push_of_lt (hi : i < a.size) : (a.push content span).height i = a.height i := by
  rw [height, nodes_push_of_lt hi, height]

/-- Each node is recorded one higher than the highest of its children. -/
theorem Built.height_node (ha : Built a) {node : Node} (hnode : a.nodes[i]? = some node) :
    node.height = (node.content.children.map a.height).foldl max 0 + 1 := by
  induction ha with
  | empty => exact absurd (lt_size_of_nodes hnode) (Nat.not_lt_zero i)
  | @push a content span before below ih =>
    have hkept : ∀ children : List ℕ, (∀ c ∈ children, c < a.size) →
        children.map (a.push content span).height = children.map a.height := fun children hlt =>
      List.map_congr_left fun c hc => height_push_of_lt (hlt c hc)
    rcases Nat.lt_or_eq_of_le (Nat.lt_succ_iff.mp (size_push ▸ lt_size_of_nodes hnode)) with hi | rfl
    · rw [nodes_push_of_lt hi] at hnode
      rw [hkept _ fun c hc => Nat.lt_trans (before.child_lt hnode c hc) hi]
      exact ih hnode
    · obtain rfl := Option.some.inj (nodes_push_size.symm.trans hnode)
      rw [hkept _ below]

/-- The height that is recorded for a place is that of the tree below it. -/
theorem Built.height_eq (ha : Built a) {e : Expr} (he : a.tree? i = some e) : a.height i = e.height := by
  induction i using Nat.strong_induction_on generalizing e with
  | _ i ih =>
    obtain ⟨node, hnode, hshows⟩ := tree?_eq_some_iff.mp he
    have hchildren : node.content.children.map a.height = e.children.map Expr.height := by
      rw [← List.forall₂_eq_eq_eq, List.forall₂_map_left_iff, List.forall₂_map_right_iff]
      exact hshows.children.imp fun c e hc => ih c hc.1 hc.2
    rw [height_of_nodes hnode, ha.height_node hnode, hchildren, Expr.foldl_max_heights, Nat.zero_max, Expr.height_eq]

end Arena
end Calculator
