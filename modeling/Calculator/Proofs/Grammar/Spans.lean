import Calculator.Expr.Parser
import Calculator.Proofs.Grammar.Correctness
import Calculator.Proofs.Token.Places
/-!
Where the nodes of a parsed text stand in it. A node may leave out the parentheses around it, so its span is made of
the places of tokens and of operands, which stand in the text one behind the other.
-/
namespace Calculator.Expr
open Grammar Token

/-- The second tree is the first one or a part of it. -/
inductive HasNode : Expr → Expr → Prop
  | root (e : Expr) : HasNode e e
  | child {e c f : Expr} (hc : c ∈ e.children) (hf : HasNode c f) : HasNode e f

/-- The characters of a leaf's span are its own. A constant may be written in any case. -/
def WrittenIn (text : List Char) : Expr → Prop
  | number _ raw s => s.chars text = raw.toList
  | free name s => s.chars text = name.toList
  | constant c s => (s.chars text).map Char.toLower = c.name.toList
  | _ => True

/-- The node stands in the text, and its children in the node, from left to right. -/
structure Placed (text : List Char) (e : Expr) : Prop where
  nonempty : e.span.start < e.span.stop
  inside : e.span.stop ≤ text.length
  contains : ∀ c ∈ e.children, e.span.contains c.span = true
  ordered : e.children.Pairwise fun c d => c.span.stop ≤ d.span.start
  written : e.WrittenIn text

/-- The tree stands in the text between two places, with all of its nodes. -/
structure Within (text : List Char) (start : Nat) (e : Expr) (stop : Nat) : Prop where
  start_le : start ≤ e.span.start
  le_stop : e.span.stop ≤ stop
  nodes : ∀ f, e.HasNode f → f.Placed text

section
variable {text : List Char} {start stop : Nat}

theorem nodes_of_children {e : Expr} (he : e.Placed text)
    (hchildren : ∀ c ∈ e.children, ∀ f, c.HasNode f → f.Placed text) : ∀ f, e.HasNode f → f.Placed text := by
  intro f hf
  cases hf with
  | root => exact he
  | child hc hf => exact hchildren _ hc f hf

theorem Within.placed {e : Expr} (h : Within text start e stop) : e.Placed text := h.nodes e (.root e)

theorem Within.weaken {e : Expr} (h : Within text start e stop) {before behind : Nat} (hstart : before ≤ start)
    (hstop : stop ≤ behind) : Within text before e behind :=
  ⟨hstart.trans h.start_le, h.le_stop.trans hstop, h.nodes⟩

/-- A leaf stands where its token does. -/
theorem within_leaf {e : Expr} {t : Token} (hspan : e.span = t.span) (hleaf : e.children = [])
    (hkind : t.kind ≠ .operator) (hwritten : t.StandsIn text → e.WrittenIn text)
    (h : Between text start [t] stop) : Within text start e stop := by
  obtain ⟨hstart, ht, hstop⟩ := h
  have hplaced : e.Placed text := {
    nonempty := by rw [hspan]; exact ht.nonempty hkind
    inside := by rw [hspan]; exact ht.stop_le
    contains := by simp [hleaf]
    ordered := by simp [hleaf]
    written := hwritten ht }
  refine ⟨by rwa [hspan], by rwa [hspan], nodes_of_children hplaced ?_⟩
  simp [hleaf]

/-- A constant is written by its name. -/
theorem writtenIn_constant {t : Token} {c : Constant} (hkind : t.kind = .constant)
    (hname : Constant.ofName? t.text = some c) (h : t.StandsIn text) : (constant c t.span).WrittenIn text := by
  obtain ⟨named, htext, hchars⟩ := h.name hkind
  rw [htext, (ofName?_constant named).2] at hname
  cases hname
  exact hchars

/-- Operands on the two sides of an operator are joined. -/
theorem within_joined_of (op : BinaryOp) {t : Token} {ts us : List Token} {l r : Expr}
    (hl : ∀ {start stop : Nat}, Between text start ts stop → Within text start l stop)
    (hr : ∀ {start stop : Nat}, Between text start us stop → Within text start r stop)
    (h : Between text start (ts ++ t :: us) stop) : Within text start (joined op l r) stop := by
  obtain ⟨middle, hts, hmiddle, ht, hus⟩ := between_append.mp h
  have hleft := hl hts
  have hright := hr hus
  have horder : l.span.stop ≤ r.span.start :=
    (hleft.le_stop.trans (hmiddle.trans ht.start_le)).trans hright.start_le
  have hleftSpan := hleft.placed.nonempty
  have hrightSpan := hright.placed.nonempty
  have hspan : (joined op l r).span = ⟨l.span.start, r.span.stop⟩ := by
    change l.span.hull r.span = _
    rw [Span.hull, Nat.min_eq_left (by omega), Nat.max_eq_right (by omega)]
  have hplaced : (joined op l r).Placed text := {
    nonempty := by rw [hspan]; change l.span.start < r.span.stop; omega
    inside := by rw [hspan]; exact hright.placed.inside
    contains := List.forall_mem_cons.mpr
      ⟨Span.hull_contains_left .., List.forall_mem_singleton.mpr (Span.hull_contains_right ..)⟩
    ordered := List.pairwise_pair.mpr horder
    written := trivial }
  refine ⟨by rw [hspan]; exact hleft.start_le, by rw [hspan]; exact hright.le_stop, nodes_of_children hplaced ?_⟩
  exact List.forall_mem_cons.mpr ⟨hleft.nodes, List.forall_mem_singleton.mpr hright.nodes⟩

/-- A unary node stands over its operand and its operator. -/
theorem within_unary_of (op : UnaryOp) {e : Expr} {span : Span} (he : Within text e.span.start e e.span.stop)
    (hcontains : span.contains e.span = true) (hinside : span.stop ≤ text.length) (hstart : start ≤ span.start)
    (hstop : span.stop ≤ stop) : Within text start (unary op e span) stop := by
  have hplaced : (unary op e span).Placed text := {
    nonempty := by
      obtain ⟨hfrom, hto⟩ := Span.contains_iff.mp hcontains
      exact (hfrom.trans_lt he.placed.nonempty).trans_le hto
    inside := hinside
    contains := List.forall_mem_singleton.mpr hcontains
    ordered := List.pairwise_singleton _ _
    written := trivial }
  exact ⟨hstart, hstop, nodes_of_children hplaced (List.forall_mem_singleton.mpr he.nodes)⟩

/-- Arguments stand one behind the other, with a comma between each two. -/
theorem within_separated {args : List Argument} {ts : List Token} (hts : Separated args ts)
    (hargs : ∀ a ∈ args, ∀ {start stop : Nat}, Between text start a.tokens stop → Within text start a.tree stop)
    (h : Between text start ts stop) :
    (∀ a ∈ args, Within text start a.tree stop) ∧ args.Pairwise fun a b => a.tree.span.stop ≤ b.tree.span.start := by
  induction hts generalizing start with
  | nil => exact ⟨fun a ha => absurd ha List.not_mem_nil, List.Pairwise.nil⟩
  | single a => exact ⟨List.forall_mem_singleton.mpr (hargs a (.head _) h), List.pairwise_singleton _ _⟩
  | @cons a b rest comma ts hcomma hrest ih =>
    obtain ⟨middle, ha, hmiddle, ht, hts⟩ := between_append.mp h
    have hfirst := hargs a (.head _) ha
    obtain ⟨hwithin, hordered⟩ := ih (fun c hc => hargs c (.tail _ hc)) hts
    have hcommaStop : middle ≤ comma.stop := hmiddle.trans ht.start_le
    have hstart : start ≤ comma.stop := ha.start_le.trans hcommaStop
    refine ⟨?_, hordered.cons fun c hc => ?_⟩
    · rintro c (_ | ⟨_, hc⟩)
      · exact hfirst.weaken (Nat.le_refl start) (hcommaStop.trans hts.start_le)
      · exact (hwithin c hc).weaken hstart (Nat.le_refl stop)
    · exact (hfirst.le_stop.trans hcommaStop).trans (hwithin c hc).start_le

/-- A call stands from its name to the parenthesis that closes it. -/
theorem within_call_of {name opening closing : Token} {args : List Argument} {ts : List Token}
    (hname : name.kind = .function) (hts : Separated args ts)
    (hargs : ∀ a ∈ args, ∀ {start stop : Nat}, Between text start a.tokens stop → Within text start a.tree stop)
    (h : Between text start (name :: opening :: (ts ++ [closing])) stop) :
    Within text start (call name.text (args.map Argument.tree) ⟨name.position, closing.stop⟩) stop := by
  obtain ⟨hstart, hstands, hopening, hopens, h⟩ := h
  obtain ⟨middle, hbetween, hclosing, hcloses, hstop⟩ := between_append.mp h
  obtain ⟨hwithin, hordered⟩ := within_separated hts hargs hbetween
  have hnonempty : name.position < name.stop := hstands.nonempty (by simp [hname])
  have hopensStop := hopens.start_le
  have hclosesStop := hcloses.start_le
  have hmiddle := hbetween.start_le
  have hplaced : (call name.text (args.map Argument.tree) ⟨name.position, closing.stop⟩).Placed text := {
    nonempty := by change name.position < closing.stop; omega
    inside := hcloses.stop_le
    contains := by
      refine List.forall_mem_map.mpr fun a ha => Span.contains_iff.mpr ?_
      have hstartArg := (hwithin a ha).start_le
      have hstopArg := (hwithin a ha).le_stop
      constructor
      · change name.position ≤ a.tree.span.start; omega
      · change a.tree.span.stop ≤ closing.stop; omega
    ordered := List.pairwise_map.mpr hordered
    written := trivial }
  exact ⟨hstart, hstop, nodes_of_children hplaced (List.forall_mem_map.mpr fun a ha => (hwithin a ha).nodes)⟩

end

/-- What the grammar derives stands where its tokens do. -/
theorem Grammar.Derives.within {text : List Char} {phrase : Phrase} {n : Nat} {ts : List Token} {e : Expr}
    (he : Derives phrase n ts e) {start stop : Nat} (h : Between text start ts stop) : Within text start e stop := by
  induction he generalizing start stop with
  | number hkind _ => exact within_leaf rfl rfl (by simp [hkind]) (fun ht => ht.chars (.inl hkind)) h
  | constant hkind hname => exact within_leaf rfl rfl (by simp [hkind]) (writtenIn_constant hkind hname) h
  | free hkind => exact within_leaf rfl rfl (by simp [hkind]) (fun ht => ht.chars (.inr hkind)) h
  | call hname _ _ hts _ ih => exact within_call_of hname hts ih h
  | parenthesized _ _ _ ih =>
    obtain ⟨hstart, hopens, h⟩ := h
    obtain ⟨middle, hts, hclosing, hcloses, hstop⟩ := between_append.mp h
    exact (ih hts).weaken (hstart.trans hopens.start_le) ((hclosing.trans hcloses.start_le).trans hstop)
  | ofPrimary _ ih | ofPostfixed _ ih | ofUnary _ ih | ofFactor _ ih | ofTerm _ ih => exact ih h
  | factorial _ _ ih =>
    obtain ⟨middle, hts, hbang, ht, hstop⟩ := between_append.mp h
    have hoperand := ih hts
    have hcontains := hoperand.le_stop.trans (hbang.trans ht.start_le)
    exact within_unary_of _ ⟨Nat.le_refl _, Nat.le_refl _, hoperand.nodes⟩
      (Span.contains_iff.mpr ⟨Nat.le_refl _, hcontains⟩) ht.stop_le hoperand.start_le hstop
  | sign _ _ _ ih =>
    obtain ⟨hstart, ht, hts⟩ := h
    have hoperand := ih hts
    have hcontains := ht.start_le.trans hoperand.start_le
    exact within_unary_of _ ⟨Nat.le_refl _, Nat.le_refl _, hoperand.nodes⟩
      (Span.contains_iff.mpr ⟨hcontains, Nat.le_refl _⟩) hoperand.placed.inside hstart hoperand.le_stop
  | power _ _ _ ihl ihr => exact within_joined_of _ ihl ihr h
  | product _ _ _ _ ihl ihr => exact within_joined_of _ ihl ihr h
  | sum _ _ _ _ ihl ihr => exact within_joined_of _ ihl ihr h

/-- Every node of a parsed text has a span of its own inside the text and around its children, which stand in it from
left to right without sharing a character; the characters of a leaf are its literal or its name. -/
theorem spans_nest {functions : List String} {text : String} {e : Expr} (h : parse functions text = .ok e) :
    ∀ f, e.HasNode f → f.Placed text.toList := by
  obtain ⟨n, hderives⟩ := derives_of_ofTokens h
  exact (hderives.within (between_tokenize functions text)).nodes

theorem spans_nest_call :
    ∃ e, parse ["f"] "(2)\u2003PI - f(y, (3!))" = .ok e ∧ e.span = ⟨1, 19⟩ ∧
      ∀ f, e.HasNode f → f.Placed "(2)\u2003PI - f(y, (3!))".toList := by
  have hspan : (parse ["f"] "(2)\u2003PI - f(y, (3!))").toOption.map span = some ⟨1, 19⟩ := by
    rw [parse, tokenize]
    simp only [String.reduceToList]
    decide +kernel
  cases hread : parse ["f"] "(2)\u2003PI - f(y, (3!))" with
  | error err =>
    rw [hread] at hspan
    cases hspan
  | ok e =>
    rw [hread] at hspan
    exact ⟨e, rfl, Option.some.inj hspan, spans_nest hread⟩

end Calculator.Expr
