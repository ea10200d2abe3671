import Std.Data.HashSet
import MachO.Stream.Source

/-!
# Actions on distinct addresses

* `Addressed`: values that belong to an address;
* `Dedup`: draws from another source up to the first address that occurs a second time, which is a
  failure.
-/

namespace MachO

/-- Values that belong to an address. -/
class Addressed (α : Type) where
  address : α → Nat

/-- A source, with the addresses that were drawn from it. -/
structure Dedup (σ : Type) where
  inner : σ
  seen : Std.HashSet Nat
  /-- Whether a draw failed or yielded nothing. -/
  ended : Bool

namespace Dedup

variable {σ α : Type} [Source σ α] [Addressed α]

/-- A source of which nothing was drawn. -/
def ofSource (s : σ) : Dedup σ := ⟨s, ∅, false⟩

/-- The next item, which fails where an address occurs a second time. -/
def next (d : Dedup σ) : Option (Except DecodeError α) × Dedup σ :=
  if d.ended then (none, d)
  else
    match Source.next d.inner with
    | (none, inner) => (none, { d with inner, ended := true })
    | (some (.error e), inner) => (some (.error e), { d with inner, ended := true })
    | (some (.ok a), inner) =>
      let address := Addressed.address a
      if d.seen.contains address then
        (some (.error (.boundTwice address)), { d with inner, ended := true })
      else (some (.ok a), { d with inner, seen := d.seen.insert address })

/-- More than the number of items still to come. -/
def rank (d : Dedup σ) : Nat := if d.ended then 0 else Source.rank d.inner + 1

theorem rank_next_lt (d : Dedup σ) (h : (next d).1.isSome) : rank (next d).2 < rank d := by
  revert h
  unfold next
  split
  · simp
  · rename_i hended
    split
    · simp
    · simp [rank, hended]
    · rename_i a inner hnext
      have hlt := Source.rank_lt_of_next_eq hnext
      dsimp only
      split <;> simp [rank, hended, hlt]

instance : Source (Dedup σ) α where
  next := next
  rank := rank
  rank_next_lt := rank_next_lt

end Dedup

end MachO
