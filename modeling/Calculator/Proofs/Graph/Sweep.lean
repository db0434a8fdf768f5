import Calculator.Graph
import Mathlib.Data.List.Chain
/-!
The sweep over the samples of a curve: what it has made of the first of them, after each step. Its points are the samples,
in order, each behind a break if it lies too far from the sample before.
-/
namespace Calculator.Graph

/-- The curve has to be broken in front of the sample `i`: it and the one before have ordinates, which lie too far
apart. -/
def BreaksAt (ordinate : Nat → Option Float) (i : Nat) : Prop :=
  0 < i ∧ ∃ p ∈ ordinate (i - 1), ∃ y ∈ ordinate i, maxJump < (y - p).abs

instance (ordinate : Nat → Option Float) (i : Nat) : Decidable (BreaksAt ordinate i) :=
  inferInstanceAs (Decidable (0 < i ∧ ∃ p ∈ ordinate (i - 1), ∃ y ∈ ordinate i, maxJump < (y - p).abs))

/-- The points of a sample: itself, and a break in front of it if there has to be one. -/
def pointsAt (x : Nat → Float) (ordinate : Nat → Option Float) (i : Nat) : List Point :=
  (if BreaksAt ordinate i then [⟨x i, none⟩] else []) ++ [⟨x i, ordinate i⟩]

/-- Two neighbouring points are no jump: one of them has no ordinate, or the ordinates do not lie too far apart. -/
def Joined (p q : Point) : Prop := ∀ a b, p.y = some a → q.y = some b → ¬maxJump < (b - a).abs

/-- What the sweep has made of the first `n` samples. -/
structure Swept (x : Nat → Float) (ordinate : Nat → Option Float) (n : Nat) (sweep : Sweep) : Prop where
  points : sweep.points.toList = (List.range n).flatMap (pointsAt x ordinate)
  previous : sweep.previous = if n = 0 then none else ordinate (n - 1)
  last : ∀ p ∈ sweep.points.toList.getLast?, p.y = sweep.previous
  broken : sweep.hasDiscontinuities = true ↔ ∃ p ∈ sweep.points.toList, p.y = none
  joined : sweep.points.toList.IsChain Joined
  length_ge : n ≤ sweep.points.toList.length
  length_le : sweep.points.toList.length ≤ 2 * n - 1

variable {x : Nat → Float} {ordinate : Nat → Option Float} {n : Nat} {sweep : Sweep}

theorem mem_pointsAt {i : Nat} {p : Point} (hp : p ∈ pointsAt x ordinate i) :
    p = ⟨x i, ordinate i⟩ ∨ p = ⟨x i, none⟩ := by
  unfold pointsAt at hp
  split at hp
  · simpa [or_comm] using hp
  · exact .inl (by simpa using hp)

theorem mem_pointsAt_self (x : Nat → Float) (ordinate : Nat → Option Float) (i : Nat) :
    ⟨x i, ordinate i⟩ ∈ pointsAt x ordinate i := by
  simp [pointsAt]

theorem swept_start (x : Nat → Float) (ordinate : Nat → Option Float) : Swept x ordinate 0 .start where
  points := rfl
  previous := rfl
  last := by simp [Sweep.start]
  broken := by simp [Sweep.start]
  joined := .nil
  length_ge := Nat.le_refl _
  length_le := Nat.le_refl _

/-- The sweep finds a jump exactly where the curve has to be broken. -/
theorem Swept.jumps_iff (h : Swept x ordinate n sweep) {y : Float} (hy : ordinate n = some y) :
    sweep.jumps y = true ↔ BreaksAt ordinate n := by
  rw [Sweep.jumps, h.previous]
  cases n with
  | zero => simp [BreaksAt]
  | succ j => cases hp : ordinate j <;> simp [BreaksAt, hp, hy]

/-- A sample without ordinate is a break, which no other one has to precede. -/
theorem Swept.add_none (h : Swept x ordinate n sweep) (hy : ordinate n = none) :
    Swept x ordinate (n + 1) (sweep.add ⟨x n, ordinate n⟩) := by
  have hbreak : ¬BreaksAt ordinate n := by simp [BreaksAt, hy]
  have hadd : sweep.add ⟨x n, ordinate n⟩ = ⟨sweep.points.push ⟨x n, none⟩, none, true⟩ := by simp [Sweep.add, hy]
  rw [hadd]
  have hge := h.length_ge
  have hle := h.length_le
  exact {
    points := by simp [List.range_succ, h.points, pointsAt, hbreak, hy]
    previous := by simp [hy]
    last := by simp
    broken := by simp
    joined := by
      rw [Array.toList_push]
      exact h.joined.append (.singleton _) (by simp [Joined])
    length_ge := by simpa using hge
    length_le := by
      simp only [Array.toList_push, List.length_append, List.length_singleton]
      omega }

/-- A sample that lies too far from the one before comes behind a break. -/
theorem Swept.add_jump (h : Swept x ordinate n sweep) {y : Float} (hy : ordinate n = some y)
    (hbreak : BreaksAt ordinate n) : Swept x ordinate (n + 1) (sweep.add ⟨x n, ordinate n⟩) := by
  have hadd : sweep.add ⟨x n, ordinate n⟩ = ⟨(sweep.points.push ⟨x n, none⟩).push ⟨x n, some y⟩, some y, true⟩ := by
    simp [Sweep.add, hy, (h.jumps_iff hy).mpr hbreak]
  have hpos : 0 < n := hbreak.1
  rw [hadd]
  have hge := h.length_ge
  have hle := h.length_le
  exact {
    points := by simp [List.range_succ, h.points, pointsAt, hbreak, hy]
    previous := by simp [hy]
    last := by simp
    broken := ⟨fun _ => ⟨⟨x n, none⟩, by simp⟩, fun _ => rfl⟩
    joined := by
      rw [Array.toList_push, Array.toList_push]
      exact (h.joined.append (.singleton _) (by simp [Joined])).append (.singleton _) (by simp [Joined])
    length_ge := by
      simp only [Array.toList_push, List.length_append, List.length_singleton]
      omega
    length_le := by
      simp only [Array.toList_push, List.length_append, List.length_singleton]
      omega }

/-- A sample near the one before, or behind none, joins the curve. -/
theorem Swept.add_joined (h : Swept x ordinate n sweep) {y : Float} (hy : ordinate n = some y)
    (hbreak : ¬BreaksAt ordinate n) : Swept x ordinate (n + 1) (sweep.add ⟨x n, ordinate n⟩) := by
  have hadd : sweep.add ⟨x n, ordinate n⟩ =
      ⟨sweep.points.push ⟨x n, some y⟩, some y, sweep.hasDiscontinuities⟩ := by
    simp [Sweep.add, hy, mt (h.jumps_iff hy).mp hbreak]
  -- The last point so far is compared with the sample: it has the ordinate that the sweep remembers.
  have hnear : ∀ p ∈ sweep.points.toList.getLast?, Joined p ⟨x n, some y⟩ := by
    intro p hp a b ha hb
    rw [h.last p hp] at ha
    cases hb
    simpa [Sweep.jumps, ha] using mt (h.jumps_iff hy).mp hbreak
  rw [hadd]
  have hge := h.length_ge
  have hle := h.length_le
  exact {
    points := by simp [List.range_succ, h.points, pointsAt, hbreak, hy]
    previous := by simp [hy]
    last := by simp
    broken := by simp [h.broken, or_and_right, exists_or]
    joined := by
      rw [Array.toList_push]
      exact h.joined.append (.singleton _) (by simpa using hnear)
    length_ge := by simpa using hge
    length_le := by
      simp only [Array.toList_push, List.length_append, List.length_singleton]
      omega }

/-- One more sample. -/
theorem Swept.add (h : Swept x ordinate n sweep) : Swept x ordinate (n + 1) (sweep.add ⟨x n, ordinate n⟩) := by
  cases hy : ordinate n with
  | none => exact hy ▸ h.add_none hy
  | some y =>
    by_cases hbreak : BreaksAt ordinate n
    · exact hy ▸ h.add_jump hy hbreak
    · exact hy ▸ h.add_joined hy hbreak

/-- The sweep over all samples. -/
theorem swept_foldl (x : Nat → Float) (ordinate : Nat → Option Float) (n : Nat) :
    Swept x ordinate n (((List.range n).map fun i => ⟨x i, ordinate i⟩).foldl Sweep.add .start) := by
  induction n with
  | zero => exact swept_start x ordinate
  | succ n ih => simpa [List.range_succ] using ih.add

end Calculator.Graph
