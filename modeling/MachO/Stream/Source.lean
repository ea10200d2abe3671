import MachO.Error

/-!
# Sources of items

The decoders of the streams of an image produce one item at a time, and may fail on the way.

* `Source`: a state from which items are drawn with `Source.next`.  The rank of a state bounds the
  number of items that are still to come;
* `Source.toList`, `Source.values`: all items, and the values among them;
* `Source.take`, `Source.calls`: the items of a number of draws;
* `Source.tally`: the number of items before the first failure, and that failure.
-/

namespace MachO

/-- States from which items are drawn, each a value or a failure.  There is a state after every draw,
also after one that yields nothing. -/
class Source (σ : Type) (α : outParam Type) where
  /-- The next item, and the state after it. -/
  next : σ → Option (Except DecodeError α) × σ
  /-- More than the number of items still to come. -/
  rank : σ → Nat
  rank_next_lt : ∀ s, (next s).1.isSome → rank (next s).2 < rank s

namespace Source

variable {σ α : Type} [Source σ α]

theorem rank_lt_of_next_eq {s s' : σ} {item : Except DecodeError α}
    (h : next s = (some item, s')) : rank s' < rank s := by
  have := rank_next_lt s (by rw [h]; rfl)
  rwa [h] at this

/-- All items. -/
def toList (s : σ) : List (Except DecodeError α) :=
  match _h : next s with
  | (none, _) => []
  | (some item, s') => item :: toList s'
termination_by rank s
decreasing_by exact rank_lt_of_next_eq _h

theorem toList_eq_nil {s s' : σ} (h : next s = (none, s')) : toList s = [] := by
  rw [toList]
  split
  · rfl
  · rename_i hnext
    rw [h] at hnext
    cases hnext

theorem toList_eq_cons {s s' : σ} {item : Except DecodeError α}
    (h : next s = (some item, s')) : toList s = item :: toList s' := by
  rw [toList]
  split
  · rename_i hnext
    rw [h] at hnext
    cases hnext
  · rename_i hnext
    rw [h] at hnext
    cases hnext
    rfl

/-- States with the same draw have the same items. -/
theorem toList_congr {s t : σ} (h : next s = next t) : toList s = toList t := by
  cases hdraw : next t with
  | mk item t' =>
    rw [hdraw] at h
    cases item with
    | none => rw [toList_eq_nil h, toList_eq_nil hdraw]
    | some item => rw [toList_eq_cons h, toList_eq_cons hdraw]

/-- The values among all items. -/
def values (s : σ) : List α := (toList s).filterMap Except.toOption

theorem values_eq_nil {s s' : σ} (h : next s = (none, s')) : values s = [] := by
  rw [values, toList_eq_nil h, List.filterMap_nil]

theorem values_eq_cons {s s' : σ} {a : α} (h : next s = (some (.ok a), s')) :
    values s = a :: values s' := by
  rw [values, toList_eq_cons h]
  rfl

theorem values_of_error {s s' : σ} {e : DecodeError} (h : next s = (some (.error e), s')) :
    values s = values s' := by
  rw [values, toList_eq_cons h]
  rfl

/-- The items of at most `count` draws up to the first that yields nothing, each with the state
after it. -/
def take : (count : Nat) → σ → List (Except DecodeError α × σ)
  | 0, _ => []
  | count + 1, s =>
    match next s with
    | (none, _) => []
    | (some item, s') => (item, s') :: take count s'

/-- What each of `count` draws yields, with the state after it. -/
def calls : (count : Nat) → σ → List (Option (Except DecodeError α) × σ)
  | 0, _ => []
  | count + 1, s =>
    let (item, s') := next s
    (item, s') :: calls count s'

/-- A number of values, and the failure after them. -/
structure Tally where
  count : Nat
  error : Option DecodeError
  deriving DecidableEq, Repr

/-- The tally of a state, after `count` values. -/
def tallyFrom (count : Nat) (s : σ) : Tally :=
  match _h : next s with
  | (none, _) => ⟨count, none⟩
  | (some (.error e), _) => ⟨count, some e⟩
  | (some (.ok _), s') => tallyFrom (count + 1) s'
termination_by rank s
decreasing_by exact rank_lt_of_next_eq _h

/-- The number of values before the first failure, and that failure. -/
def tally (s : σ) : Tally := tallyFrom 0 s

end Source

end MachO
