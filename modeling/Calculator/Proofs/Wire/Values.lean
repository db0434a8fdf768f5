import Calculator.Proofs.Bindings
import Calculator.Wire
/-! Which values are read back as they were sent, from the plain ones to the fields of records. -/
namespace Calculator.Wire

/-- The value is read back as it was sent. -/
def Faithful {α : Type} [Wire α] (x : α) : Prop := decode? (encode x) = some x

/-! ### Plain values -/

theorem faithful_string (s : String) : Faithful s := rfl

theorem faithful_bool (b : Bool) : Faithful b := rfl

theorem encode_of_isFinite {x : Float} (hfinite : x.isFinite = true) : encode x = .float x := if_pos hfinite

theorem faithful_float {x : Float} (hfinite : x.isFinite = true) : Faithful x := by
  rw [Faithful, encode_of_isFinite hfinite]
  rfl

theorem natBelow?_ofNat {bound n : Nat} (hlt : n < bound) : natBelow? bound (encode n) = some n :=
  if_pos ⟨Int.natCast_nonneg n, hlt⟩

theorem faithful_nat {n : Nat} (hlt : n < countBound) : Faithful n := natBelow?_ofNat hlt

/-- Values with different names are told apart by them. -/
theorem ofNames?_name {α : Type} {values : List α} {name : α → String} (hnodup : (values.map name).Nodup) {x : α}
    (hx : x ∈ values) : ofNames? values name (.string (name x)) = some x := by
  have hfind : values.find? (fun y => name y == name x) = some x := by
    induction values with
    | nil => cases hx
    | cons y values ih =>
      rw [List.map_cons, List.nodup_cons] at hnodup
      rw [List.find?_cons]
      rcases List.mem_cons.mp hx with rfl | hx
      · rw [beq_self_eq_true]
      · have hne : name y ≠ name x := fun heq => hnodup.1 (heq ▸ List.mem_map_of_mem hx)
        rw [beq_eq_false_iff_ne.mpr hne]
        exact ih hnodup.2 hx
  exact hfind

/-! ### Lists, bindings and values that may be absent -/

theorem mapM_map_of_inverse {α β : Type} {f : α → β} {g : β → Option α} {l : List α}
    (hinverse : ∀ x ∈ l, g (f x) = some x) : (l.map f).mapM g = some l := by
  induction l with
  | nil => rfl
  | cons x l ih =>
    have hrest := ih fun y hy => hinverse y (List.mem_cons_of_mem _ hy)
    rw [List.map_cons, List.mapM_cons, hinverse x List.mem_cons_self, hrest]
    rfl

section
variable {α : Type} [Wire α]

theorem faithful_list {xs : List α} (hxs : ∀ x ∈ xs, Faithful x) : Faithful xs :=
  mapM_map_of_inverse hxs

theorem faithful_bindings {b : Bindings α} (hb : ∀ e ∈ b.entries, Faithful e.2) : Faithful b := by
  have hentries := mapM_map_of_inverse (f := fun e : String × α => (e.1, encode e.2))
    (g := fun e => (decode? e.2).map (e.1, ·)) (l := b.entries) fun e he => by rw [hb e he, Option.map_some]
  show (do
    let entries ← (b.entries.map fun e => (e.1, encode e.2)).mapM fun e => (decode? e.2).map (e.1, ·)
    return Bindings.ofList entries) = some b
  rw [hentries]
  exact congrArg some b.ofList_entries

theorem faithful_none : Faithful (none : Option α) := rfl

theorem decode?_of_ne_null {v : Json} (hnull : v ≠ .null) : (decode? v : Option (Option α)) = (decode? v).map some := by
  cases v with
  | null => exact absurd rfl hnull
  | _ => rfl

/-- A value is told apart from its absence, unless it travels as null itself. -/
theorem faithful_some {x : α} (hx : Faithful x) (hnull : encode x ≠ .null) : Faithful (some x) := by
  have hsome : encode (some x) = encode x := rfl
  rw [Faithful, hsome, decode?_of_ne_null hnull, hx, Option.map_some]

theorem faithful_option {x : Option α} (hx : ∀ y, x = some y → Faithful y ∧ encode y ≠ .null) : Faithful x := by
  cases x with
  | none => exact faithful_none
  | some y => exact faithful_some (hx y rfl).1 (hx y rfl).2

end

/-- Doubles that may be absent are told apart from null if they are finite. -/
theorem faithful_finite? {x : Option Float} (hfinite : ∀ y, x = some y → y.isFinite = true) : Faithful x := by
  refine faithful_option fun y hy => ⟨faithful_float (hfinite y hy), ?_⟩
  simp [encode_of_isFinite (hfinite y hy)]

/-- Values of variables, if there are any. -/
theorem faithful_variables {values : Option (Bindings Float)}
    (hfinite : ∀ b, values = some b → ∀ e ∈ b.entries, e.2.isFinite = true) : Faithful values := by
  refine faithful_option fun b hb => ⟨faithful_bindings fun e he => ?_, by simp [encode]⟩
  exact faithful_float (hfinite b hb e he)

/-! ### Doubles that are not finite -/

/-- The value is read back as it was sent if the condition holds, and is not read at all otherwise. -/
def FaithfulIf {α : Type} [Wire α] (finite : Bool) (x : α) : Prop :=
  decode? (encode x) = if finite then some x else none

theorem FaithfulIf.faithful {α : Type} [Wire α] {finite : Bool} {x : α} (hx : FaithfulIf finite x)
    (hfinite : finite = true) : Faithful x := by
  simpa [FaithfulIf, Faithful, hfinite] using hx

theorem faithfulIf_float (x : Float) : FaithfulIf x.isFinite x := by
  cases hfinite : x.isFinite with
  | true => exact faithful_float hfinite
  | false =>
    have hnull : encode x = .null := by simp [encode, Json.ofFloat, hfinite]
    rw [FaithfulIf, hnull]
    rfl

/-- A list is read if all of its items are. -/
theorem faithfulIf_list {α : Type} [Wire α] {finite : α → Bool} {xs : List α}
    (hitems : ∀ x ∈ xs, FaithfulIf (finite x) x) : FaithfulIf (xs.all finite) xs := by
  show (xs.map encode).mapM decode? = if xs.all finite then some xs else none
  induction xs with
  | nil => rfl
  | cons x xs ih =>
    have hx : decode? (encode x) = if finite x then some x else none := hitems x List.mem_cons_self
    have hxs := ih fun y hy => hitems y (List.mem_cons_of_mem _ hy)
    rw [List.map_cons, List.mapM_cons, hx, hxs]
    cases hfinite : finite x <;> cases hrest : xs.all finite <;> simp [hfinite, hrest]

theorem faithfulIf_floats (xs : List Float) : FaithfulIf (xs.all Float.isFinite) xs :=
  faithfulIf_list fun x _ => faithfulIf_float x

/-! ### Records -/

theorem get?_ofMembers (members : List (String × Json)) (key : String) :
    (Json.ofMembers members).get? key = members.reverse.lookup key :=
  Bindings.get?_ofList members key

section
variable {α : Type} [Wire α] (x : Option α) {name other : String} {members : List (String × Json)}

/-- The member that is sent if there is a value is found under its name. -/
@[simp]
theorem lookup_optionalMember (hnone : members.lookup name = none) :
    ((optionalMember name x).reverse ++ members).lookup name = x.map encode := by
  cases x <;> simp [optionalMember, hnone]

/-- Members with other names are found as if it were not there. -/
@[simp]
theorem lookup_optionalMember_of_ne (hne : other ≠ name) :
    ((optionalMember name x).reverse ++ members).lookup other = members.lookup other := by
  cases x <;> simp [optionalMember, List.lookup_cons, beq_eq_false_iff_ne.mpr hne]

end

namespace Fields
variable {α : Type} [Wire α] {fields : Fields} {place : Nat} {name : String} {x : α}

/-- The fields of a record that travels with these members. -/
def ofMembers (members : List (String × Json)) : Fields := named (Bindings.ofList members).entries

/-- An object is read field by field. -/
theorem bind_ofMembers {β : Type} (count : Nat) (members : List (String × Json)) (read : Fields → Option β) :
    (of? count (.ofMembers members) >>= read) = read (ofMembers members) := rfl

theorem at?_ofMembers (members : List (String × Json)) (place : Nat) (name : String) :
    (ofMembers members).at? place name = members.reverse.lookup name :=
  Bindings.get?_ofList members name

theorem required_of_at? (hat : fields.at? place name = some (encode x)) (hx : Faithful x) :
    fields.required place name = some x := by
  rw [required, hat]
  exact hx

theorem required_of_faithfulIf {finite : Bool} (hat : fields.at? place name = some (encode x))
    (hx : FaithfulIf finite x) : fields.required place name = if finite then some x else none := by
  rw [required, hat]
  exact hx

theorem withDefault_of_at? {default : α} (hat : fields.at? place name = some (encode x)) (hx : Faithful x) :
    fields.withDefault place name default = some x := by
  rw [withDefault, hat]
  exact hx

/-- A member that is sent only if there is a value. -/
theorem withDefault_of_optional {x : Option α} (hat : fields.at? place name = x.map encode) (hx : Faithful x) :
    fields.withDefault place name none = some x := by
  cases x with
  | none => rw [withDefault, hat, Option.map_none]
  | some x => exact withDefault_of_at? hat hx

theorem nullable_of_at? {x : Option α} (hat : fields.at? place name = some (encode x)) (hx : Faithful x) :
    (fields.nullable place name : Option (Option α)) = some x := by
  unfold nullable
  rw [hat]
  exact hx

end Fields
end Calculator.Wire
