/-!
# Ranges of bytes or addresses

* `ByteRange`: the positions from a start on, as many as a size tells; `p ∈ r` tells that position
  `p` is one of them;
* `ByteRange.ofSize?`: the range of a start and a size whose end is a 64-bit number;
* `ByteRange.Covers`, `ByteRange.Overlaps`: comparisons of end points, which tell whether a range
  holds all of another, and whether it shares a position with it.
-/

namespace MachO

/-- The positions `start`, `start + 1`, up to but not including `start + size`. -/
structure ByteRange where
  start : Nat
  size : Nat
  deriving DecidableEq, Repr

namespace ByteRange

/-- The first position behind the range. -/
def stop (r : ByteRange) : Nat := r.start + r.size

/-- The range of a start and a size; nothing when its end is no 64-bit number. -/
def ofSize? (start size : Nat) : Option ByteRange :=
  if start + size < UInt64.size then some ⟨start, size⟩ else none

/-- The range without a position at `start`. -/
def emptyAt (start : Nat) : ByteRange := ⟨start, 0⟩

instance : Membership Nat ByteRange where
  mem r p := r.start ≤ p ∧ p < r.stop

theorem mem_iff {r : ByteRange} {p : Nat} : p ∈ r ↔ r.start ≤ p ∧ p < r.stop := Iff.rfl

instance (p : Nat) (r : ByteRange) : Decidable (p ∈ r) :=
  inferInstanceAs (Decidable (r.start ≤ p ∧ p < r.stop))

/-- Whether the range has no position. -/
def IsEmpty (r : ByteRange) : Prop := r.size = 0

instance (r : ByteRange) : Decidable r.IsEmpty := inferInstanceAs (Decidable (r.size = 0))

/-- The range ends no earlier and starts no later than another, or the other is empty. -/
def Covers (r other : ByteRange) : Prop :=
  other.IsEmpty ∨ (r.start ≤ other.start ∧ other.stop ≤ r.stop)

instance (r other : ByteRange) : Decidable (r.Covers other) :=
  inferInstanceAs (Decidable (_ ∨ _))

/-- Neither range is empty, and each starts before the other ends. -/
def Overlaps (r other : ByteRange) : Prop :=
  ¬r.IsEmpty ∧ ¬other.IsEmpty ∧ r.start < other.stop ∧ other.start < r.stop

instance (r other : ByteRange) : Decidable (r.Overlaps other) :=
  inferInstanceAs (Decidable (_ ∧ _))

theorem ofSize?_eq_some_iff {start size : Nat} {r : ByteRange} :
    ofSize? start size = some r ↔ start + size < UInt64.size ∧ r = ⟨start, size⟩ := by
  unfold ofSize?
  split
  · rename_i h
    simp only [h, true_and, Option.some.injEq, eq_comm]
  · rename_i h
    simp only [h, false_and, reduceCtorEq]

end ByteRange

end MachO
