import Mathlib.Data.List.Induction
import Mathlib.Data.List.Nodup
import MachO.Proofs.Stream.Drain
import MachO.Stream.Dedup

/-!
# Values up to the first repeated address

* `FirstRepeat`: a value is the first one of a list whose key an earlier one has, and
  `nodup_or_exists_firstRepeat`: there is such a value, or all keys are different;
* `Dedup.Begun`: values with different addresses were drawn, and some items of the source are left;
* `Dedup.Begun.draw`, `Dedup.Begun.run`: one draw of a value with a new address, and any number of
  them;
* `Dedup.Begun.toList_of_repeat`, `Dedup.Begun.toList_of_ending`: how the draws end;
* `Dedup.StopsAtRepeat`: all values are drawn up to the first whose key is a repeated one, which
  `Dedup.stopsAtRepeat` tells of keys that are different just where addresses are.
-/

namespace MachO

/-! ### Repeats in a list -/

/-- The keys of the values in front are all different, and that of `a` is one of them. -/
structure FirstRepeat {α κ : Type} (key : α → κ) (front : List α) (a : α) : Prop where
  nodup : (front.map key).Nodup
  mem : key a ∈ front.map key

variable {α κ : Type}

/-- All keys are different, or there is a first repeat. -/
theorem nodup_or_exists_firstRepeat (key : α → κ) (as : List α) :
    (as.map key).Nodup ∨ ∃ front a rest, as = front ++ a :: rest ∧ FirstRepeat key front a := by
  induction as using List.reverseRecOn with
  | nil => exact .inl .nil
  | append_singleton as a ih =>
    rcases ih with hnodup | ⟨front, b, rest, rfl, hrepeat⟩
    · by_cases hmem : key a ∈ as.map key
      · exact .inr ⟨as, a, [], rfl, hnodup, hmem⟩
      · rw [List.map_append, List.map_singleton, ← List.concat_eq_append]
        exact .inl (hnodup.concat hmem)
    · exact .inr ⟨front, b, rest ++ [a], by rw [List.append_assoc, List.cons_append], hrepeat⟩

section Keys

variable {κ' : Type} {key : α → κ} {key' : α → κ'} {as : List α}
  (h : ∀ a ∈ as, ∀ b ∈ as, key a = key b ↔ key' a = key' b)
include h

/-- Keys that are different for the same values have no repeats or have both some. -/
theorem nodup_map_iff_nodup_map : (as.map key).Nodup ↔ (as.map key').Nodup := by
  rw [List.Nodup, List.Nodup, List.pairwise_map, List.pairwise_map]
  exact List.Pairwise.iff_of_mem fun ha hb => not_congr (h _ ha _ hb)

theorem FirstRepeat.of_iff {front rest : List α} {a : α} (has : as = front ++ a :: rest)
    (hrepeat : FirstRepeat key front a) : FirstRepeat key' front a := by
  subst has
  obtain ⟨hnodup, hmem⟩ := hrepeat
  constructor
  · refine (nodup_map_iff_nodup_map fun b hb c hc => ?_).1 hnodup
    exact h b (List.mem_append_left _ hb) c (List.mem_append_left _ hc)
  · obtain ⟨b, hb, heq⟩ := List.mem_map.1 hmem
    have hba := (h b (List.mem_append_left _ hb) a (List.mem_append_right _ List.mem_cons_self)).1 heq
    exact List.mem_map.2 ⟨b, hb, hba⟩

end Keys

namespace Dedup

open Source (toList values)

variable {σ : Type} [Source σ α] [Addressed α] {d d' : Dedup σ} {s : σ} {a : α}

/-! ### Single draws -/

theorem next_of_ended (h : d.ended = true) : next d = (none, d) := by
  rw [next, if_pos h]

/-- A draw that yields no value is the last one. -/
theorem next_ok_or_ended (d : Dedup σ) :
    (∃ a, (next d).1 = some (.ok a)) ∨ (next d).2.ended = true := by
  unfold next
  split
  · rename_i hended
    exact .inr hended
  · split
    · exact .inr rfl
    · exact .inr rfl
    · dsimp only
      split
      · exact .inr rfl
      · exact .inl ⟨_, rfl⟩

theorem toList_of_ended (h : d.ended = true) : toList d = [] :=
  Source.toList_eq_nil (next_of_ended h)

instance : Source.Fused (Dedup σ) where
  toList_of_none {d d'} h := by
    have hnext : next d = (none, d') := h
    have hended := d.next_ok_or_ended
    rw [hnext] at hended
    exact toList_of_ended (hended.resolve_left fun ⟨_, h⟩ => nomatch h)
  toList_of_error {d d' e} h := by
    have hnext : next d = (some (.error e), d') := h
    have hended := d.next_ok_or_ended
    rw [hnext] at hended
    exact toList_of_ended (hended.resolve_left fun ⟨_, h⟩ => nomatch h)

/-! ### Draws of values with different addresses -/

/-- The values in front were drawn, and the items are still to come from the source. -/
structure Begun (d : Dedup σ) (front : List α) (items : List (Except DecodeError α)) : Prop where
  ended_eq : d.ended = false
  mem_seen_iff : ∀ address, address ∈ d.seen ↔ address ∈ front.map Addressed.address
  toList_inner : toList d.inner = items

theorem begun_ofSource (s : σ) : Begun (ofSource s) [] (toList s) where
  ended_eq := rfl
  mem_seen_iff address := by simp [ofSource]
  toList_inner := rfl

variable {front more : List α} {items rest : List (Except DecodeError α)}

/-- A value with a new address is drawn. -/
theorem Begun.draw (h : d.Begun front (.ok a :: rest))
    (hnew : Addressed.address a ∉ front.map Addressed.address) :
    ∃ d' : Dedup σ, next d = (some (.ok a), d') ∧ d'.Begun (front ++ [a]) rest := by
  obtain ⟨hended, hseen, hinner⟩ := h
  obtain ⟨inner, hnext, hrest⟩ := Source.exists_next_of_toList_eq_cons hinner
  refine ⟨{ d with inner, seen := d.seen.insert (Addressed.address a) }, ?_, hended, ?_, hrest⟩
  · have hcontains : ¬d.seen.contains (Addressed.address a) = true := fun h => hnew ((hseen _).1 h)
    rw [next, hended, if_neg Bool.false_ne_true, hnext]
    exact if_neg hcontains
  · intro address
    rw [Std.HashSet.mem_insert, beq_iff_eq, hseen, List.map_append, List.mem_append,
      List.map_singleton, List.mem_singleton, or_comm, eq_comm]

/-- Values are drawn as long as their addresses are new. -/
theorem Begun.run (h : d.Begun front (more.map .ok ++ items))
    (hnodup : ((front ++ more).map Addressed.address).Nodup) :
    ∃ d' : Dedup σ, d'.Begun (front ++ more) items ∧ toList d = more.map .ok ++ toList d' := by
  induction more generalizing d front with
  | nil => exact ⟨d, by rwa [List.append_nil], rfl⟩
  | cons a more ih =>
    have hnew : Addressed.address a ∉ front.map Addressed.address := by
      rw [List.map_append, List.map_cons] at hnodup
      exact fun hmem => List.disjoint_of_nodup_append hnodup hmem List.mem_cons_self
    obtain ⟨d₁, hnext, hbegun⟩ := h.draw hnew
    rw [List.append_cons] at hnodup ⊢
    obtain ⟨d', hbegun', hlist⟩ := ih hbegun hnodup
    exact ⟨d', hbegun', (Source.toList_eq_cons hnext).trans (congrArg _ hlist)⟩

/-- A value with an address that was drawn is a failure, and the last item. -/
theorem Begun.toList_of_repeat (h : d.Begun front (.ok a :: rest))
    (hseen : Addressed.address a ∈ front.map Addressed.address) :
    toList d = [.error (.boundTwice (Addressed.address a))] := by
  obtain ⟨inner, hnext, -⟩ := Source.exists_next_of_toList_eq_cons h.toList_inner
  have hdraw : next d =
      (some (.error (.boundTwice (Addressed.address a))), { d with inner, ended := true }) := by
    rw [next, h.ended_eq, if_neg Bool.false_ne_true, hnext]
    exact if_pos ((h.mem_seen_iff _).2 hseen)
  rw [Source.toList_eq_cons hdraw, toList_of_ended rfl]

/-- The failure of the source, if there is one, is the last item. -/
theorem Begun.toList_of_ending {failure : Option DecodeError}
    (h : d.Begun front (failure.map .error).toList) : toList d = (failure.map .error).toList := by
  cases failure with
  | none =>
    obtain ⟨inner, hnext⟩ := Source.exists_next_of_toList_eq_nil h.toList_inner
    have hdraw : next d = (none, { d with inner, ended := true }) := by
      rw [next, h.ended_eq, if_neg Bool.false_ne_true, hnext]
    exact Source.toList_eq_nil hdraw
  | some e =>
    obtain ⟨inner, hnext, -⟩ := Source.exists_next_of_toList_eq_cons h.toList_inner
    have hdraw : next d = (some (.error e), { d with inner, ended := true }) := by
      rw [next, h.ended_eq, if_neg Bool.false_ne_true, hnext]
    rw [Source.toList_eq_cons hdraw, toList_of_ended rfl]
    rfl

/-! ### All draws -/

variable [Source.Fused σ]

/-- Without a repeated address, the items are those of the source. -/
theorem toList_ofSource_of_nodup (h : ((values s).map Addressed.address).Nodup) :
    toList (ofSource s) = toList s := by
  obtain ⟨failure, hlist⟩ := Source.exists_toList_eq s
  have hbegun := begun_ofSource s
  rw [hlist] at hbegun
  obtain ⟨d', hbegun', hrun⟩ := hbegun.run (by rwa [List.nil_append])
  rw [hrun, hbegun'.toList_of_ending, hlist]

/-- The first repeated address ends the draws. -/
theorem toList_ofSource_of_firstRepeat {rest : List α} (hvalues : values s = front ++ a :: rest)
    (h : FirstRepeat Addressed.address front a) :
    toList (ofSource s) = front.map .ok ++ [.error (.boundTwice (Addressed.address a))] := by
  obtain ⟨failure, hlist⟩ := Source.exists_toList_eq s
  have hbegun := begun_ofSource s
  rw [hlist, hvalues, List.map_append, List.map_cons, List.append_assoc, List.cons_append] at hbegun
  obtain ⟨d', hbegun', hrun⟩ := hbegun.run (by rw [List.nil_append]; exact h.nodup)
  rw [hrun, hbegun'.toList_of_repeat h.mem]

/-- No address is drawn twice. -/
theorem nodup_values_ofSource (s : σ) :
    ((values (ofSource s)).map Addressed.address).Nodup := by
  rcases nodup_or_exists_firstRepeat Addressed.address (values s) with
    hnodup | ⟨front, a, rest, hvalues, hrepeat⟩
  · rw [values, toList_ofSource_of_nodup hnodup]
    exact hnodup
  · have hlist := toList_ofSource_of_firstRepeat hvalues hrepeat
    have hfront : values (ofSource s) = front :=
      @Source.values_of_toList _ _ _ _ _ (some (.boundTwice (Addressed.address a))) hlist
    rw [hfront]
    exact hrepeat.nodup

/-- The values of a source are drawn up to the first whose key an earlier one has.  In its place there
is a failure with its address, and then nothing any more.  Two values have the same address if they
have the same key. -/
structure StopsAtRepeat (s : σ) (key : α → κ) : Prop where
  toList_of_nodup : ((values s).map key).Nodup → toList (ofSource s) = toList s
  toList_of_repeat : ∀ front a rest, values s = front ++ a :: rest → FirstRepeat key front a →
    toList (ofSource s) = front.map .ok ++ [.error (.boundTwice (Addressed.address a))]
  drains : ∃ failure, Source.Drains (ofSource s) failure
  nodup : ((values (ofSource s)).map Addressed.address).Nodup
  address_eq_iff : ∀ a ∈ values s, ∀ b ∈ values s,
    Addressed.address a = Addressed.address b ↔ key a = key b

/-- **The draws stop at the first repeat** of a key that two values share just when they share their
address. -/
theorem stopsAtRepeat {key : α → κ} (h : ∀ a ∈ values s, ∀ b ∈ values s,
    Addressed.address a = Addressed.address b ↔ key a = key b) : StopsAtRepeat s key where
  toList_of_nodup hnodup := toList_ofSource_of_nodup ((nodup_map_iff_nodup_map h).2 hnodup)
  toList_of_repeat front a rest hvalues hrepeat := by
    have hiff := fun a ha b hb => (h a ha b hb).symm
    exact toList_ofSource_of_firstRepeat hvalues (hrepeat.of_iff hiff hvalues)
  drains := Source.exists_drains _
  nodup := nodup_values_ofSource s
  address_eq_iff := h

end Dedup

end MachO
