/-! Half-open ranges of character positions in an expression's text. -/
namespace Calculator

/-- The characters from `start` up to, but not including, `stop`. -/
structure Span where
  start : Nat
  stop : Nat
deriving DecidableEq, Repr, Inhabited

namespace Span

def contains (s t : Span) : Bool :=
  decide (s.start ≤ t.start) && decide (t.stop ≤ s.stop)

def hull (s t : Span) : Span :=
  ⟨min s.start t.start, max s.stop t.stop⟩

theorem contains_iff {s t : Span} :
    s.contains t = true ↔ s.start ≤ t.start ∧ t.stop ≤ s.stop := by
  simp [contains]

theorem hull_contains_left (s t : Span) : (s.hull t).contains s = true := by
  rw [contains_iff, hull]
  exact ⟨Nat.min_le_left .., Nat.le_max_left ..⟩

theorem hull_contains_right (s t : Span) : (s.hull t).contains t = true := by
  rw [contains_iff, hull]
  exact ⟨Nat.min_le_right .., Nat.le_max_right ..⟩

end Span
end Calculator
