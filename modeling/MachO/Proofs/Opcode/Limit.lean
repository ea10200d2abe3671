import MachO.Proofs.Opcode.Invariant

/-!
# Limits on the number of actions

* `OpcodeStream.withLimit`: a stream with a limit;
* `OpcodeStream.toList_withLimit_of_lt`, `OpcodeStream.toList_withLimit_of_le`: its items, when the
  stream has fewer actions than the limit, and when it has as many or more;
* `Emission`: where actions are, and how far the opcodes that emit them move behind them;
* `Emission.Tells`: the failure that is told behind an action is that of the move of its opcode;
* `OpcodeStream.MoveFails`, `OpcodeStream.FailsBehind`: the move behind an action of a stream fails,
  and that is told next;
* `OpcodeStream.Limits`: all that a limit changes, with `OpcodeStream.limits_withLimit`.
-/

namespace MachO

variable {Context Op State Action : Type}

namespace OpcodeStream

variable [Interpreter Context Op State Action] {st st' : OpcodeStream Context Op State}
  {n count : Nat}

/-- The stream with a limit on the number of its actions. -/
def withLimit (st : OpcodeStream Context Op State) (n : Nat) : OpcodeStream Context Op State :=
  { st with limit := some n }

theorem exhausted_withLimit_of_lt (h : st.emitted < n) : (st.withLimit n).exhausted = none := by
  show (some n).filter (· ≤ st.emitted) = none
  rw [Option.filter_some, if_neg (by simpa using h)]

theorem exhausted_withLimit_of_le (h : n ≤ st.emitted) : (st.withLimit n).exhausted = some n := by
  show (some n).filter (· ≤ st.emitted) = some n
  rw [Option.filter_some, if_pos (by simpa using h)]

/-- A draw does not look at a limit that leaves room for an action. -/
theorem next_withLimit (hlimit : st.limit = none) (hroom : st.emitted < n) :
    Source.next (st.withLimit n) = ((Source.next st).1, (Source.next st).2.withLimit n) := by
  cases hended : st.ended with
  | true =>
    rw [next_of_ended hended]
    have hlimited : (st.withLimit n).ended = true := hended
    exact next_of_ended hlimited
  | false =>
    cases hlate : st.late with
    | some e =>
      rw [next_of_late hended hlate]
      have hlimited : (st.withLimit n).late = some e := hlate
      exact next_of_late hended hlimited
    | none =>
      have hlimited : Source.next (st.withLimit n) = _ :=
        next_of_running hended hlate (exhausted_withLimit_of_lt hroom)
      have hrun : Opcode.execute (st.withLimit n).context (st.withLimit n).code
          (Interpreter.resume (st.withLimit n).context (st.withLimit n).state) =
          Opcode.execute st.context st.code (Interpreter.resume st.context st.state) := rfl
      rw [hlimited, hrun, next_of_running hended hlate (exhausted_of_limit_eq_none hlimit)]
      cases Opcode.execute st.context st.code (Interpreter.resume st.context st.state) with
      | mk code effect => cases effect <;> rfl

/-- What a stream that goes on is behind an action: it goes on, with one more action. -/
theorem next_ok_fields {a : Action} (h : Source.next st = (some (.ok a), st')) :
    st.ended = false ∧ st'.ended = false ∧ st'.limit = st.limit ∧ st'.emitted = st.emitted + 1 := by
  obtain ⟨hended, -, -, code, late, state, -, rfl⟩ := next_eq_ok_iff.1 h
  exact ⟨hended, hended, rfl, rfl⟩

/-- **A limit that is not reached changes nothing.** -/
theorem toList_withLimit_of_lt (hlimit : st.limit = none) (hcount : st.emitted + count = n)
    (h : (Source.values st).length < count) :
    Source.toList (st.withLimit n) = Source.toList st := by
  induction count generalizing st with
  | zero => cases h
  | succ count ih =>
    have hlimited := next_withLimit (n := n) hlimit (by omega)
    cases hnext : Source.next st with
    | mk item st' =>
      rw [hnext] at hlimited
      match item with
      | none => rw [Source.toList_eq_nil hlimited, Source.toList_eq_nil hnext]
      | some (.error e) =>
        have hended : st'.ended = true := ended_of_next_eq_error hnext
        rw [toList_of_next_eq_ended hlimited hended, toList_of_next_eq_ended hnext hended]
      | some (.ok a) =>
        obtain ⟨-, -, hlimit', hemitted⟩ := next_ok_fields hnext
        rw [Source.values_eq_cons hnext, List.length_cons] at h
        rw [Source.toList_eq_cons hlimited, Source.toList_eq_cons hnext]
        have hrest : Source.toList (st'.withLimit n) = Source.toList st' :=
          ih (hlimit'.trans hlimit) (by omega) (by omega)
        exact congrArg _ hrest

/-- **A limit that is reached ends the stream behind as many actions.**  If the move behind the last
of them failed, that is what is told. -/
theorem toList_withLimit_of_le (hended : st.ended = false) (hlimit : st.limit = none)
    (hcount : st.emitted + count = n) (h : count ≤ (Source.values st).length) :
    Source.toList (st.withLimit n) = ((Source.values st).take count).map .ok ++
      [.error ((Source.drop count st).late.getD (.tooManyActions n))] := by
  induction count generalizing st with
  | zero =>
    rw [Source.drop_zero]
    cases hlate : st.late with
    | some e =>
      have hlimited : (st.withLimit n).late = some e := hlate
      exact toList_of_late hended hlimited
    | none =>
      have hlimited : Source.next (st.withLimit n) = _ :=
        next_of_exhausted hended hlate (exhausted_withLimit_of_le (by omega))
      exact toList_of_next_eq_ended hlimited rfl
  | succ count ih =>
    obtain ⟨a, st', hnext, hvalues⟩ := Source.exists_next_of_length_pos (Nat.zero_lt_of_lt h)
    obtain ⟨-, hended', hlimit', hemitted⟩ := next_ok_fields hnext
    have hlimited := next_withLimit (n := n) hlimit (by omega)
    rw [hnext] at hlimited
    rw [hvalues, List.length_cons] at h
    have hrest := ih hended' (hlimit'.trans hlimit) (by omega) (by omega)
    rw [Source.toList_eq_cons hlimited, hrest, hvalues, Source.drop_succ, hnext]
    rfl

end OpcodeStream

/-! ### Moves behind actions -/

/-- Where actions are, and how far the opcodes that emit them move behind them. -/
structure Emission (Op Action : Type) where
  /-- The position of the opcode that emits an action. -/
  position : Action → Nat
  offset : Action → Nat
  address : Action → Nat
  /-- How far an opcode moves behind an action that it emits. -/
  distance? : Op → Action → Option Nat

namespace Emission

variable {space : AddressSpace} {code : List (Nat × Op)}

/-- The opcode of a program that emits the action moves by `delta` bytes behind it. -/
def MovesBy (m : Emission Op Action) (code : List (Nat × Op)) (a : Action) (delta : Nat) : Prop :=
  ∃ op, (m.position a, op) ∈ code ∧ m.distance? op a = some delta

/-- The place `delta` bytes behind an action has no 64-bit offset or lies behind the end of all
addresses. -/
def OutOfBounds (m : Emission Op Action) (space : AddressSpace) (a : Action) (delta : Nat) : Prop :=
  UInt64.size ≤ m.offset a + delta ∨ space.width.span < m.address a + delta

instance (m : Emission Op Action) (space : AddressSpace) (a : Action) (delta : Nat) :
    Decidable (m.OutOfBounds space a delta) := inferInstanceAs (Decidable (_ ∨ _))

/-- The failure that is told behind an action is that of the move of its opcode. -/
def Tells (m : Emission Op Action) (space : AddressSpace) (code : List (Nat × Op)) (a : Action)
    (late : Option DecodeError) : Prop :=
  ∃ delta, m.MovesBy code a delta ∧
    late = if m.OutOfBounds space a delta then some (.slotOutOfBounds (m.position a)) else none

/-- Behind an action at the place of the registers, the failure of their move is told. -/
theorem tells_of_movesBy {m : Emission Op Action} {a : Action} {r : Registers} {delta : Nat}
    (hmoves : m.MovesBy code a delta) (hoffset : m.offset a = r.offset)
    (haddress : m.address a = r.base space + r.offset) :
    m.Tells space code a (r.moveFailure? space delta (m.position a)) := by
  have hiff : r.CanAdvance space delta ↔ ¬m.OutOfBounds space a delta := by
    unfold Registers.CanAdvance OutOfBounds
    omega
  refine ⟨delta, hmoves, ?_⟩
  unfold Registers.moveFailure?
  by_cases h : m.OutOfBounds space a delta
  · rw [if_pos h, if_neg fun hmove => hiff.1 hmove h]
  · rw [if_neg h, if_pos (hiff.2 h)]

end Emission

namespace OpcodeStream

variable [Interpreter Context Op State Action]

/-- The opcode that emits the `n`-th action of a stream moves too far behind it. -/
structure MoveFails (st : OpcodeStream Context Op State) (space : AddressSpace)
    (m : Emission Op Action) (n : Nat) (a : Action) : Prop where
  pos : 0 < n
  action : (Source.values st)[n - 1]? = some a
  move : ∃ delta, m.MovesBy st.code a delta ∧ m.OutOfBounds space a delta

/-- The move behind the `n`-th action of a stream fails, and the draw behind the action tells it. -/
structure FailsBehind (st : OpcodeStream Context Op State) (space : AddressSpace)
    (m : Emission Op Action) (n : Nat) (e : DecodeError) : Prop where
  move : ∃ a, st.MoveFails space m n a ∧ e = .slotOutOfBounds (m.position a)
  late : (Source.drop n st).late = some e
  told : (Source.toList st)[n]? = some (.error e)

variable {space : AddressSpace} {m : Emission Op Action} {Inv : State → Prop}
  {st : OpcodeStream Context Op State}

/-- No two opcodes of a stream have one position. -/
def PositionsApart (st : OpcodeStream Context Op State) : Prop :=
  ∀ position op op', (position, op) ∈ st.code → (position, op') ∈ st.code → op = op'

/-- The failure of the move behind an action is found with the action. -/
theorem MoveFails.late_eq (h : Opcode.Invariant st.context st.code Inv (m.Tells space st.code))
    (hstate : st.late = none → Inv st.state) (hapart : st.PositionsApart) {n : Nat} {a : Action}
    (hfails : st.MoveFails space m (n + 1) a) :
    (Source.drop (n + 1) st).late = some (.slotOutOfBounds (m.position a)) := by
  obtain ⟨-, ha, delta, ⟨op, hop, hdelta⟩, hout⟩ := hfails
  rw [Nat.add_sub_cancel] at ha
  obtain ⟨delta', ⟨op', hop', hdelta'⟩, hlate⟩ := good_of_getElem?_values st h hstate ha
  -- The opcode that emitted the action is the one at its position.
  rw [hapart _ op op' hop hop', hdelta'] at hdelta
  cases hdelta
  rw [hlate, if_pos hout]

/-- No other failure is found with an action. -/
theorem late_of_not_moveFails
    (h : Opcode.Invariant st.context st.code Inv (m.Tells space st.code))
    (hstate : st.late = none → Inv st.state) {n : Nat} {a : Action}
    (ha : (Source.values st)[n]? = some a) (hmoves : ¬st.MoveFails space m (n + 1) a) :
    (Source.drop (n + 1) st).late = none := by
  obtain ⟨delta, hdelta, hlate⟩ := good_of_getElem?_values st h hstate ha
  rw [hlate, if_neg fun hout => hmoves ⟨Nat.succ_pos n, ha, delta, hdelta, hout⟩]

/-- A failure that was found with an action is told by the draw behind it. -/
theorem getElem?_toList_of_late {n : Nat} (hn : n < (Source.values st).length) {e : DecodeError}
    (hlate : (Source.drop (n + 1) st).late = some e) :
    (Source.toList st)[n + 1]? = some (.error e) := by
  obtain ⟨a, -, hnext⟩ := Source.next_drop hn
  have hended := (next_ok_fields hnext).2.1
  obtain ⟨failure, hdrains⟩ := Source.exists_drains st
  rw [← hdrains.draw_eq, next_of_late hended hlate]

/-- **All that a limit changes.**  A stream with fewer actions than the limit is the same with it.
Of any other one the limit leaves just as many actions, and one failure behind them, however often
items are drawn: that of the move behind the last action, if it fails, and else that of the
limit. -/
structure Limits (full limited : OpcodeStream Context Op State) (space : AddressSpace)
    (m : Emission Op Action) (n : Nat) : Prop where
  below : (Source.values full).length < n → Source.toList limited = Source.toList full
  reached : n ≤ (Source.values full).length → ∃ e,
    Source.toList limited = ((Source.values full).take n).map .ok ++ [.error e] ∧
    (∀ k, (Source.next (Source.drop k limited)).1 = (Source.toList limited)[k]?) ∧
    (full.FailsBehind space m n e ∨
      (¬∃ a, full.MoveFails space m n a) ∧ e = .tooManyActions n)

theorem limits_withLimit (h : Opcode.Invariant st.context st.code Inv (m.Tells space st.code))
    (hstate : Inv st.state) (hapart : st.PositionsApart) (hended : st.ended = false)
    (hlate : st.late = none) (hemitted : st.emitted = 0) (hlimit : st.limit = none) (n : Nat) :
    st.Limits (st.withLimit n) space m n where
  below hlt := toList_withLimit_of_lt hlimit (by rw [hemitted, Nat.zero_add]) hlt
  reached hle := by
    have hitems := toList_withLimit_of_le hended hlimit (by rw [hemitted, Nat.zero_add]) hle
    obtain ⟨failure, hdrains⟩ := Source.exists_drains (st.withLimit n)
    refine ⟨_, hitems, hdrains.draw_eq, ?_⟩
    cases n with
    | zero =>
      rw [Source.drop_zero, hlate]
      exact .inr ⟨fun ⟨a, hfails⟩ => absurd hfails.pos (Nat.lt_irrefl 0), rfl⟩
    | succ n =>
      have ha := List.getElem?_eq_getElem hle
      by_cases hfails : st.MoveFails space m (n + 1) (Source.values st)[n]
      · have hbehind := hfails.late_eq h (fun _ => hstate) hapart
        rw [hbehind]
        exact .inl ⟨⟨_, hfails, rfl⟩, hbehind, getElem?_toList_of_late hle hbehind⟩
      · rw [late_of_not_moveFails h (fun _ => hstate) ha hfails]
        refine .inr ⟨?_, rfl⟩
        rintro ⟨a, hfails'⟩
        cases ha.symm.trans hfails'.action
        exact hfails hfails'

end OpcodeStream

end MachO
