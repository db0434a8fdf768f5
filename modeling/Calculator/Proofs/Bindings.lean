import Calculator.Bindings
import Mathlib.Data.List.Induction
/-! What is found in bindings that are made from a list. -/
namespace Calculator.Bindings

variable {α : Type}

theorem ext {b b' : Bindings α} (h : b.entries = b'.entries) : b = b' := by
  cases b
  cases b'
  exact (mk.injEq ..).mpr h

theorem insertEntry_of_last {name : String} (value : α) {entries : List (String × α)}
    (hlast : ∀ e ∈ entries, e.1 < name) : insertEntry name value entries = entries ++ [(name, value)] := by
  induction entries with
  | nil => rfl
  | cons head rest ih =>
    obtain ⟨k, v⟩ := head
    have hlt : k < name := hlast (k, v) List.mem_cons_self
    have hrest := ih fun e he => hlast e (List.mem_cons_of_mem _ he)
    rw [insertEntry, if_neg (String.lt_asymm hlt), if_neg (String.ne_of_lt hlt).symm, hrest, List.cons_append]

theorem entries_foldl_set (pairs : List (String × α)) (b : Bindings α)
    (hincreasing : (b.entries ++ pairs).Pairwise fun a b => a.1 < b.1) :
    (pairs.foldl (fun b p => b.set p.1 p.2) b).entries = b.entries ++ pairs := by
  induction pairs generalizing b with
  | nil => exact (List.append_nil _).symm
  | cons p pairs ih =>
    have hlast : ∀ e ∈ b.entries, e.1 < p.1 := fun e he =>
      (List.pairwise_append.mp hincreasing).2.2 e he p List.mem_cons_self
    have hset : (b.set p.1 p.2).entries = b.entries ++ [p] := insertEntry_of_last p.2 hlast
    rw [List.append_cons, ← hset] at hincreasing
    rw [List.foldl_cons, ih _ hincreasing, hset, List.append_cons b.entries p pairs]

/-- Bindings are made again from their entries. -/
@[simp]
theorem ofList_entries (b : Bindings α) : ofList b.entries = b :=
  ext (entries_foldl_set b.entries empty b.increasing)

/-- Of pairs with one name the last counts. -/
theorem get?_ofList (pairs : List (String × α)) (name : String) :
    (ofList pairs).get? name = pairs.reverse.lookup name := by
  induction pairs using List.reverseRecOn with
  | nil => rfl
  | append_singleton pairs p ih =>
    obtain ⟨k, v⟩ := p
    have hlast : ofList (pairs ++ [(k, v)]) = (ofList pairs).set k v := by
      rw [ofList, List.foldl_append, ofList]
      rfl
    rw [hlast, List.reverse_append, List.reverse_singleton, List.singleton_append]
    by_cases hname : name = k
    · rw [hname, get?_set_self, List.lookup_cons_self]
    · rw [get?_set_of_ne _ v hname, List.lookup_cons, beq_eq_false_iff_ne.mpr hname, ih]

/-- Setting parameters gives a name the same value in all bindings, one of the arguments or the default, or in none. -/
theorem get?_setAll_cases (default : α) (params : List String) (args : List α) (name : String) :
    (∃ x ∈ default :: args, ∀ b : Bindings α, (b.setAll default params args).get? name = some x) ∨
      ∀ b : Bindings α, (b.setAll default params args).get? name = b.get? name := by
  induction params generalizing args with
  | nil => exact .inr fun b => rfl
  | cons param params ih =>
    -- The first parameter takes the first argument, or the default if there is none.
    obtain ⟨x, rest, hx, hrest, hset⟩ : ∃ x rest, x ∈ default :: args ∧ (∀ y ∈ default :: rest, y ∈ default :: args) ∧
        ∀ b : Bindings α, b.setAll default (param :: params) args = (b.set param x).setAll default params rest := by
      cases args with
      | nil => exact ⟨default, [], List.mem_cons_self, fun y hy => hy, fun b => rfl⟩
      | cons x args =>
        refine ⟨x, args, List.mem_cons_of_mem default List.mem_cons_self, fun y hy => ?_, fun b => rfl⟩
        rcases List.mem_cons.mp hy with rfl | hy
        · exact List.mem_cons_self
        · exact List.mem_cons_of_mem default (List.mem_cons_of_mem x hy)
    simp only [hset]
    -- A later parameter of the same name wins.
    rcases ih rest with ⟨y, hy, hlater⟩ | hlater
    · exact .inl ⟨y, hrest y hy, fun b => hlater _⟩
    rcases eq_or_ne name param with rfl | hname
    · exact .inl ⟨x, hx, fun b => (hlater _).trans (b.get?_set_self name x)⟩
    · exact .inr fun b => (hlater _).trans (b.get?_set_of_ne x hname)

/-- Where two bindings agree on a name, they do after both have set the same parameters. -/
theorem get?_setAll_congr {b b' : Bindings α} {name : String} (h : b.get? name = b'.get? name) (default : α)
    (params : List String) (args : List α) :
    (b.setAll default params args).get? name = (b'.setAll default params args).get? name := by
  rcases get?_setAll_cases default params args name with ⟨x, -, hset⟩ | hkept
  · rw [hset, hset]
  · rw [hkept, hkept, h]

end Calculator.Bindings
