/-! Values bound to names, in the order of the names, so that equal bindings have equal entries. -/
namespace Calculator

/-- Values by name. -/
structure Bindings (α : Type) where
  entries : List (String × α)
  /-- The names increase, so that none occurs twice. -/
  increasing : entries.Pairwise fun a b => a.1 < b.1

namespace Bindings

variable {α : Type}

def empty : Bindings α := ⟨[], .nil⟩

/-- The entries with the name's value set, in the place that its order gives it. -/
def insertEntry (name : String) (value : α) : List (String × α) → List (String × α)
  | [] => [(name, value)]
  | (k, v) :: rest =>
    if name < k then (name, value) :: (k, v) :: rest
    else if name = k then (name, value) :: rest
    else (k, v) :: insertEntry name value rest

theorem eq_or_mem_of_mem_insertEntry {name : String} {value : α} {entries : List (String × α)} {e : String × α}
    (h : e ∈ insertEntry name value entries) : e = (name, value) ∨ e ∈ entries := by
  induction entries with
  | nil => exact .inl (List.mem_singleton.mp h)
  | cons head rest ih =>
    obtain ⟨k, v⟩ := head
    unfold insertEntry at h
    split at h
    · exact List.mem_cons.mp h
    · split at h
      · exact (List.mem_cons.mp h).imp_right (List.mem_cons_of_mem _)
      · rcases List.mem_cons.mp h with rfl | h
        · exact .inr List.mem_cons_self
        · exact (ih h).imp_right (List.mem_cons_of_mem _)

theorem pairwise_insertEntry (name : String) (value : α) {entries : List (String × α)}
    (h : entries.Pairwise fun a b => a.1 < b.1) :
    (insertEntry name value entries).Pairwise fun a b => a.1 < b.1 := by
  induction entries with
  | nil => exact List.pairwise_singleton _ _
  | cons head rest ih =>
    obtain ⟨k, v⟩ := head
    rw [List.pairwise_cons] at h
    unfold insertEntry
    split
    · rename_i hlt
      refine List.pairwise_cons.mpr ⟨fun e he => ?_, List.pairwise_cons.mpr h⟩
      rcases List.mem_cons.mp he with rfl | he
      · exact hlt
      · exact String.lt_trans hlt (h.1 e he)
    · split
      · rename_i heq
        exact List.pairwise_cons.mpr ⟨fun e he => heq ▸ h.1 e he, h.2⟩
      · rename_i hlt hne
        refine List.pairwise_cons.mpr ⟨fun e he => ?_, ih h.2⟩
        rcases eq_or_mem_of_mem_insertEntry he with rfl | he
        · exact Decidable.byContradiction fun hge =>
            hne (String.le_antisymm (String.not_lt.mp hge) (String.not_lt.mp hlt))
        · exact h.1 e he

def get? (b : Bindings α) (name : String) : Option α := b.entries.lookup name

def set (b : Bindings α) (name : String) (value : α) : Bindings α :=
  ⟨insertEntry name value b.entries, pairwise_insertEntry name value b.increasing⟩

def filter (b : Bindings α) (keep : String → Bool) : Bindings α :=
  ⟨b.entries.filter fun e => keep e.1, b.increasing.filter _⟩

/-- The bindings with the name's value changed, if it has one. -/
def modify (b : Bindings α) (name : String) (f : α → α) : Bindings α :=
  match b.get? name with
  | some value => b.set name (f value)
  | none => b

def names (b : Bindings α) : List String := b.entries.map Prod.fst

/-- The bindings that these pairs set, from left to right. -/
def ofList (pairs : List (String × α)) : Bindings α :=
  pairs.foldl (fun b p => b.set p.1 p.2) empty

/-- Sets parameters to the arguments by position; a missing argument is `default`. -/
def setAll (b : Bindings α) (default : α) : List String → List α → Bindings α
  | [], _ => b
  | name :: names, [] => (b.set name default).setAll default names []
  | name :: names, value :: values => (b.set name value).setAll default names values

theorem lookup_insertEntry_self (name : String) (value : α) (entries : List (String × α)) :
    (insertEntry name value entries).lookup name = some value := by
  induction entries with
  | nil => exact List.lookup_cons_self
  | cons head rest ih =>
    obtain ⟨k, v⟩ := head
    unfold insertEntry
    split
    · exact List.lookup_cons_self
    · split
      · exact List.lookup_cons_self
      · rename_i hne
        rw [List.lookup_cons, beq_eq_false_iff_ne.mpr hne, ih]

theorem lookup_insertEntry_of_ne {name other : String} (value : α) (entries : List (String × α))
    (h : other ≠ name) : (insertEntry name value entries).lookup other = entries.lookup other := by
  have hbeq := beq_eq_false_iff_ne.mpr h
  induction entries with
  | nil => rw [insertEntry, List.lookup_cons, hbeq]
  | cons head rest ih =>
    obtain ⟨k, v⟩ := head
    unfold insertEntry
    split
    · rw [List.lookup_cons, hbeq]
    · split
      · rename_i heq
        subst heq
        rw [List.lookup_cons, List.lookup_cons, hbeq]
      · rw [List.lookup_cons, List.lookup_cons, ih]

@[simp]
theorem get?_set_self (b : Bindings α) (name : String) (value : α) :
    (b.set name value).get? name = some value :=
  lookup_insertEntry_self name value b.entries

theorem get?_set_of_ne (b : Bindings α) {name other : String} (value : α) (h : other ≠ name) :
    (b.set name value).get? other = b.get? other :=
  lookup_insertEntry_of_ne value b.entries h

theorem lookup_filter (keep : String → Bool) (name : String) (entries : List (String × α)) :
    (entries.filter fun e => keep e.1).lookup name = if keep name then entries.lookup name else none := by
  induction entries with
  | nil => exact (ite_self none).symm
  | cons head rest ih =>
    obtain ⟨k, v⟩ := head
    by_cases hk : k = name
    · subst hk
      cases hkeep : keep k with
      | true => rw [List.filter_cons, if_pos hkeep, List.lookup_cons_self, if_pos rfl, List.lookup_cons_self]
      | false =>
        rw [List.filter_cons, if_neg (by simp [hkeep]), ih, hkeep, if_neg Bool.false_ne_true]
        rfl
    · have hne : (name == k) = false := beq_eq_false_iff_ne.mpr (Ne.symm hk)
      rw [List.filter_cons, List.lookup_cons, hne]
      split
      · rw [List.lookup_cons, hne, ih]
      · exact ih

theorem get?_filter (b : Bindings α) (keep : String → Bool) (name : String) :
    (b.filter keep).get? name = if keep name then b.get? name else none :=
  lookup_filter keep name b.entries

theorem get?_modify (b : Bindings α) (name other : String) (f : α → α) :
    (b.modify name f).get? other = if other = name then (b.get? name).map f else b.get? other := by
  unfold modify
  by_cases h : other = name
  · subst h
    cases hvalue : b.get? other with
    | none => simp [hvalue]
    | some value => simp
  · rw [if_neg h]
    cases b.get? name with
    | none => rfl
    | some value => exact b.get?_set_of_ne (f value) h

theorem mem_entries_iff (b : Bindings α) {name : String} {value : α} :
    (name, value) ∈ b.entries ↔ b.get? name = some value := by
  unfold get?
  have hincreasing := b.increasing
  generalize b.entries = entries at hincreasing ⊢
  induction entries with
  | nil => simp
  | cons head rest ih =>
    obtain ⟨k, v⟩ := head
    rw [List.pairwise_cons] at hincreasing
    by_cases hk : name = k
    · subst hk
      rw [List.lookup_cons_self, List.mem_cons]
      constructor
      · rintro (h | h)
        · rw [(Prod.mk.inj h).2]
        · exact absurd (hincreasing.1 _ h) (String.lt_irrefl name)
      · intro h
        exact .inl (by rw [Option.some.inj h])
    · have hrest := ih hincreasing.2
      rw [List.lookup_cons, beq_eq_false_iff_ne.mpr hk, List.mem_cons]
      constructor
      · rintro (h | h)
        · exact absurd (Prod.mk.inj h).1 hk
        · exact hrest.mp h
      · intro h
        exact .inr (hrest.mpr h)

end Bindings
end Calculator
