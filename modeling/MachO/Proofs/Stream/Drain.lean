import MachO.Stream.Source

/-!
# Drawing all items of a source

* `Source.drop`: the state after a number of draws;
* `Source.Fused`: sources that are at their end when a draw fails or yields nothing;
* `Source.Drains`: draws yield values, then at most one failure, and then nothing any more;
* `Source.exists_drains`: this is so for every state of a fused source;
* `Source.next_drop`: the draw that yields a given value;
* `Source.firstFailure?`, `Source.tally_eq`: a tally counts the values in front of the first failure.
-/

namespace MachO.Source

variable {σ α : Type} [Source σ α]

/-- The state after a number of draws. -/
def drop : (count : Nat) → σ → σ
  | 0, s => s
  | count + 1, s => drop count (next s).2

@[simp] theorem drop_zero (s : σ) : drop 0 s = s := rfl

theorem drop_succ (count : Nat) (s : σ) : drop (count + 1) s = drop count (next s).2 := rfl

/-- A draw that fails or yields nothing leaves a state without items. -/
class Fused (σ : Type) {α : Type} [Source σ α] : Prop where
  toList_of_none : ∀ {s s' : σ}, next s = (none, s') → toList s' = []
  toList_of_error : ∀ {s s' : σ} {e : DecodeError}, next s = (some (.error e), s') → toList s' = []

/-- Draws yield the values, then the failure if there is one, and then nothing any more, however
often items are drawn. -/
structure Drains (s : σ) (failure : Option DecodeError) : Prop where
  toList_eq : toList s = (values s).map .ok ++ (failure.map .error).toList
  draw_eq : ∀ k, (next (drop k s)).1 = (toList s)[k]?

theorem next_fst (s : σ) : (next s).1 = (toList s).head? := by
  cases hnext : next s with
  | mk item s' =>
    cases item with
    | none => rw [toList_eq_nil hnext, List.head?_nil]
    | some item => rw [toList_eq_cons hnext, List.head?_cons]

/-- The draw that yields the first item. -/
theorem exists_next_of_toList_eq_cons {s : σ} {item : Except DecodeError α}
    {items : List (Except DecodeError α)} (h : toList s = item :: items) :
    ∃ s', next s = (some item, s') ∧ toList s' = items := by
  cases hnext : next s with
  | mk item' s' =>
    cases item' with
    | none =>
      rw [toList_eq_nil hnext] at h
      cases h
    | some item' =>
      rw [toList_eq_cons hnext, List.cons.injEq] at h
      obtain ⟨rfl, hitems⟩ := h
      exact ⟨s', rfl, hitems⟩

theorem exists_next_of_toList_eq_nil {s : σ} (h : toList s = []) : ∃ s', next s = (none, s') := by
  have hfirst := next_fst s
  rw [h] at hfirst
  exact ⟨(next s).2, Prod.ext hfirst rfl⟩

/-- A value is among the items if it is among the values. -/
theorem mem_values_iff {s : σ} {a : α} : a ∈ values s ↔ .ok a ∈ toList s := by
  rw [values, List.mem_filterMap]
  constructor
  · rintro ⟨item, hitem, hvalue⟩
    cases item with
    | error e => cases hvalue
    | ok b =>
      cases hvalue
      exact hitem
  · exact fun h => ⟨.ok a, h, rfl⟩

/-- The values of given items. -/
theorem values_of_toList {s : σ} {as : List α} {failure : Option DecodeError}
    (h : toList s = as.map .ok ++ (failure.map .error).toList) : values s = as := by
  have hok : (as.map .ok : List (Except DecodeError α)).filterMap Except.toOption = as := by
    rw [List.filterMap_map]
    exact List.filterMap_some
  rw [values, h, List.filterMap_append, hok]
  cases failure <;> simp [Except.toOption]

/-! ### Tallies -/

/-- The first failure among items. -/
def firstFailure? (items : List (Except DecodeError α)) : Option DecodeError :=
  items.findSome? fun
    | .ok _ => none
    | .error e => some e

/-- The number of values in front of the first failure among items, and that failure. -/
def Tally.ofItems (items : List (Except DecodeError α)) : Tally where
  count := (items.takeWhile (·.isOk)).length
  error := firstFailure? items

theorem tallyFrom_eq (count : Nat) (s : σ) :
    tallyFrom count s =
      ⟨count + (Tally.ofItems (toList s)).count, (Tally.ofItems (toList s)).error⟩ := by
  fun_induction tallyFrom count s with
  | case1 count s s' hnext =>
    rw [toList_eq_nil hnext]
    rfl
  | case2 count s e s' hnext =>
    rw [toList_eq_cons hnext]
    rfl
  | case3 count s a s' hnext ih =>
    rw [ih, toList_eq_cons hnext]
    simp [Tally.ofItems, firstFailure?, Except.isOk, Except.toBool, Nat.add_assoc, Nat.add_comm]

/-- **A tally is one of all items**, although nothing is drawn behind the first failure. -/
theorem tally_eq (s : σ) : tally s = Tally.ofItems (toList s) := by
  rw [tally, tallyFrom_eq, Nat.zero_add]

/-! ### Fused sources -/

variable [Fused σ]

theorem toList_next (s : σ) : toList (next s).2 = (toList s).tail := by
  cases hnext : next s with
  | mk item s' =>
    cases item with
    | none => rw [toList_eq_nil hnext, Fused.toList_of_none hnext, List.tail_nil]
    | some item => rw [toList_eq_cons hnext, List.tail_cons]

/-- Each draw takes one item. -/
theorem toList_drop (count : Nat) (s : σ) : toList (drop count s) = (toList s).drop count := by
  induction count generalizing s with
  | zero => rfl
  | succ count ih => rw [drop_succ, ih, toList_next, List.drop_tail]

/-- Only the last item may be a failure. -/
theorem exists_toList_eq (s : σ) : ∃ failure : Option DecodeError,
    toList s = (values s).map .ok ++ (failure.map .error).toList := by
  cases hnext : next s with
  | mk item s' =>
    match item with
    | none =>
      refine ⟨none, ?_⟩
      rw [toList_eq_nil hnext, values_eq_nil hnext]
      rfl
    | some (.error e) =>
      have hnil := Fused.toList_of_error hnext
      refine ⟨some e, ?_⟩
      rw [values_of_error hnext, values, toList_eq_cons hnext, hnil]
      rfl
    | some (.ok a) =>
      obtain ⟨failure, htail⟩ := exists_toList_eq s'
      refine ⟨failure, ?_⟩
      rw [toList_eq_cons hnext, values_eq_cons hnext, htail]
      rfl
termination_by rank s
decreasing_by exact rank_lt_of_next_eq hnext

/-- **A fused source yields values, then at most one failure, and then nothing any more.** -/
theorem exists_drains (s : σ) : ∃ failure, Drains s failure := by
  obtain ⟨failure, htoList⟩ := exists_toList_eq s
  refine ⟨failure, htoList, fun k => ?_⟩
  rw [next_fst, toList_drop, List.head?_drop]

/-- A source with values yields the first of them. -/
theorem exists_next_of_length_pos {s : σ} (h : 0 < (values s).length) :
    ∃ a s', next s = (some (.ok a), s') ∧ values s = a :: values s' := by
  cases hnext : next s with
  | mk item s' =>
    match item with
    | none =>
      rw [values_eq_nil hnext] at h
      cases h
    | some (.error e) =>
      rw [values_of_error hnext, values, Fused.toList_of_error hnext] at h
      cases h
    | some (.ok a) => exact ⟨a, s', rfl, values_eq_cons hnext⟩

/-- As long as there are values, each draw yields the next of them. -/
theorem next_drop {k : Nat} {s : σ} (h : k < (values s).length) :
    ∃ a, (values s)[k]? = some a ∧ next (drop k s) = (some (.ok a), drop (k + 1) s) := by
  induction k generalizing s with
  | zero =>
    obtain ⟨a, s', hnext, hvalues⟩ := exists_next_of_length_pos h
    refine ⟨a, by rw [hvalues]; rfl, ?_⟩
    rw [drop_zero, drop_succ, hnext, drop_zero]
  | succ k ih =>
    obtain ⟨a, s', hnext, hvalues⟩ := exists_next_of_length_pos (Nat.zero_lt_of_lt h)
    rw [hvalues, List.length_cons, Nat.succ_lt_succ_iff] at h
    obtain ⟨b, hb, hdraw⟩ := ih h
    refine ⟨b, by rw [hvalues]; exact hb, ?_⟩
    rw [drop_succ, drop_succ, hnext]
    exact hdraw

end MachO.Source
