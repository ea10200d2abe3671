import MachO.Proofs.Opcode.Eager
import MachO.Proofs.Opcode.Expansion
import MachO.Proofs.Opcode.Invariant

/-!
# Places that a run reaches

A run reads its opcodes one behind the other, and comes to its end behind the last byte, at a DONE
that ends the stream, or with a failure.

* `Opcode.Reaches`: opcodes are run from a cursor to another one, and emit actions on the way;
* `Opcode.Reaches.interpret_eq`: the rest of the run is to come behind these actions;
* `Opcode.Reaches.exists_front`: opcodes that are run do not depend on what follows;
* `Opcode.EndsAt`, `Opcode.result_interpret_eq_ok_iff`: the ends of runs without a failure;
* `Opcode.ReachesBoundary`, `Opcode.ExecutesDone`: the positions that the run of a stream reaches;
* `OpcodeStream.toList_replace`: the items of a stream whose bytes are replaced from there on;
* `Program.withoutPosition_insert_done`: where DONE does nothing, it may as well be missing.
-/

namespace MachO

variable {Context Op State Action : Type}

theorem Outcome.forall_error_notMem_items {α : Type} {o : Outcome Action α} :
    (∀ e, .error e ∉ o.items) ↔ ∃ a, o.result = .ok a := by
  unfold items
  cases o.result with
  | ok a => simp
  | error e => simp

/-- DONE is one byte, whose high four bits are zero. -/
def OpcodeSet.DoneIsZero (ops : OpcodeSet Op) : Prop :=
  ∀ position byte rest c, ops.read ⟨position, byte :: rest⟩ = .ok none c ↔
    byte.toNat / 16 = 0 ∧ c = ⟨position + 1, rest⟩

namespace Opcode

variable [Interpreter Context Op State Action] {ops : OpcodeSet Op} {rule : DoneRule} {c : Context}
  {k k' : Cursor} {s s' : State} {actions : List Action}

/-- The outcome of an opcode that emits nothing. -/
theorem outcome_of_proceed {position : Nat} {op : Op}
    (h : Interpreter.act c position op s = .proceed s') :
    outcome c position op s = ⟨[], .ok s'⟩ := by
  rw [outcome, h, complete_proceed]
  rfl

/-- The outcome of an opcode that emits one action. -/
theorem outcome_of_emit {position : Nat} {op : Op} {a : Action}
    (h : Interpreter.act c position op s = .emit a none s') (hidle : Idle c s') :
    outcome c position op s = ⟨[a], .ok s'⟩ := by
  have hresume : Interpreter.resume c s' = .proceed s' := hidle
  rw [outcome, h, complete_emit, hresume, complete_proceed]
  rfl

/-! ### From one place to another -/

/-- Opcodes are run to completion one behind the other, from a cursor and a state to another cursor
and another state, and emit actions on the way. -/
inductive Reaches (ops : OpcodeSet Op) (rule : DoneRule) (c : Context) :
    Cursor → State → List Action → Cursor → State → Prop
  | refl (k : Cursor) (s : State) : Reaches ops rule c k s [] k s
  | op {k k₁ k' : Cursor} {s s₁ s' : State} {op : Op} {first later : List Action}
    (hread : ops.read k = .ok (some op) k₁) (hrun : outcome c k.pos op s = ⟨first, .ok s₁⟩)
    (hrest : Reaches ops rule c k₁ s₁ later k' s') :
    Reaches ops rule c k s (first ++ later) k' s'
  /-- Only a DONE that does nothing is left behind. -/
  | done {k k₁ k' : Cursor} {s s' : State} {actions : List Action} (hrule : rule = .ignored)
    (hread : ops.read k = .ok none k₁) (hrest : Reaches ops rule c k₁ s actions k' s') :
    Reaches ops rule c k s actions k' s'

/-- **What is to come of a run at some place is all that is to come behind the actions on the way to
this place.** -/
theorem Reaches.interpret_eq (h : Reaches ops rule c k s actions k' s') :
    Eager.interpret ops rule (outcome c) k s =
      (⟨actions, .ok s'⟩ : Outcome Action State) >>=
        Eager.interpret ops rule (outcome c) k' := by
  induction h with
  | refl k s => exact (pure_bind s _).symm
  | op hread hrun hrest ih =>
    rw [Eager.interpret_of_op (OpcodeSet.not_atEnd_of_read hread) hread, hrun, Outcome.bind_ok, ih,
      Outcome.bind_ok, Outcome.bind_ok, List.append_assoc]
  | done hrule hread hrest ih =>
    rw [Eager.interpret_of_done (OpcodeSet.not_atEnd_of_read hread) hread, if_pos hrule, ih]

/-- **Opcodes that are run do not depend on what follows them**, and are opcodes one behind the
other. -/
theorem Reaches.exists_front (hops : ops.Portable) (h : Reaches ops rule c k s actions k' s') :
    ∃ front fs, k.rest = front ++ k'.rest ∧ k'.pos = k.pos + front.length ∧
      ops.Spells fs front ∧
      ∀ more, Reaches ops rule c ⟨k.pos, front ++ more⟩ s actions ⟨k'.pos, more⟩ s' := by
  -- One more opcode in front, which is read in front of all other bytes as well.
  have hcons {k k₁ k' : Cursor} {op? : Option Op} {front : Bytes}
      (hread : ops.read k = .ok op? k₁) (hfront : k₁.rest = front ++ k'.rest)
      (hpos : k'.pos = k₁.pos + front.length) :
      ∃ bs, k.rest = bs ++ front ++ k'.rest ∧ k'.pos = k.pos + (bs ++ front).length ∧
        ReadM.ReadsBack ops.read op? bs ∧
        ∀ more, ops.read ⟨k.pos, bs ++ front ++ more⟩ = .ok op? ⟨k₁.pos, front ++ more⟩ := by
    obtain ⟨bs, hrest, hk₁, hback⟩ := hops.of_ok hread
    refine ⟨bs, ?_, ?_, hback, fun more => ?_⟩
    · rw [hrest, hfront, List.append_assoc]
    · rw [hpos, hk₁, List.length_append, Nat.add_assoc]
    · rw [List.append_assoc, hback, hk₁]
  induction h with
  | refl k s => exact ⟨[], [], rfl, rfl, .nil, fun more => .refl _ s⟩
  | op hread hrun hrest ih =>
    obtain ⟨front, fs, hfront, hpos, hspells, hreaches⟩ := ih
    obtain ⟨bs, hrest', hpos', hback, hread'⟩ := hcons hread hfront hpos
    exact ⟨bs ++ front, _, hrest', hpos', hspells.cons hback, fun more =>
      .op (hread' more) hrun (hreaches more)⟩
  | done hrule hread hrest ih =>
    obtain ⟨front, fs, hfront, hpos, hspells, hreaches⟩ := ih
    obtain ⟨bs, hrest', hpos', hback, hread'⟩ := hcons hread hfront hpos
    exact ⟨bs ++ front, _, hrest', hpos', hspells.cons hback, fun more =>
      .done hrule (hread' more) (hreaches more)⟩

/-! ### The end of a run -/

/-- The run ends between two opcodes: all bytes were read, or a DONE ends the stream.  This may be a
failure. -/
inductive EndsAt (ops : OpcodeSet Op) (rule : DoneRule) : Cursor → Option DecodeError → Prop
  | exhausted {k : Cursor} (hend : k.atEnd) : EndsAt ops rule k (Program.exhausted rule k.pos)
  | done {k k' : Cursor} (hrule : rule ≠ .ignored) (hread : ops.read k = .ok none k') :
    EndsAt ops rule k (Program.done rule k')

theorem EndsAt.interpret_eq {ending : Option DecodeError} (h : EndsAt ops rule k ending)
    (s : State) : Eager.interpret ops rule (outcome c) k s = .ofEnding ending := by
  cases h with
  | exhausted hend => exact Eager.interpret_of_atEnd hend s
  | done hrule hread =>
    rw [Eager.interpret_of_done (OpcodeSet.not_atEnd_of_read hread) hread, if_neg hrule]

/-- **A run without a failure reaches an end that is no failure.** -/
theorem result_interpret_eq_ok_iff :
    (Eager.interpret ops rule (outcome c) k s).result = .ok () ↔
      ∃ actions k' s', Reaches ops rule c k s actions k' s' ∧ EndsAt ops rule k' none := by
  constructor
  · intro h
    fun_induction Eager.interpret ops rule (outcome c) k s with
    | case1 k s hend =>
      refine ⟨[], k, s, .refl k s, ?_⟩
      have hends : EndsAt ops rule k _ := .exhausted hend
      cases hending : Program.exhausted rule k.pos with
      | none => rwa [hending] at hends
      | some e => rw [hending] at h; cases h
    | case2 k s hend e k₁ hread => cases h
    | case3 k s hend k₁ hread hrule hlt ih =>
      obtain ⟨actions, k', s', hreaches, hends⟩ := ih h
      exact ⟨actions, k', s', .done hrule hread hreaches, hends⟩
    | case4 k s hend k₁ hread hrule =>
      refine ⟨[], k, s, .refl k s, ?_⟩
      have hends := EndsAt.done hrule hread
      cases hending : Program.done rule k₁ with
      | none => rwa [hending] at hends
      | some e => rw [hending] at h; cases h
    | case5 k s hend op k₁ hread hlt ih =>
      cases hrun : outcome c k.pos op s with
      | mk first result =>
        rw [hrun] at h
        cases result with
        | error e => cases h
        | ok s₁ =>
          obtain ⟨later, k', s', hreaches, hends⟩ := ih s₁ h
          exact ⟨first ++ later, k', s', .op hread hrun hreaches, hends⟩
  · rintro ⟨actions, k', s', hreaches, hends⟩
    rw [hreaches.interpret_eq, Outcome.bind_ok, hends.interpret_eq]
    rfl

/-! ### Streams -/

/-- The run of a stream reaches the boundary of two opcodes at a position. -/
def ReachesBoundary (ops : OpcodeSet Op) (rule : DoneRule) (c : Context) (s : State) (bytes : Bytes)
    (k : Nat) : Prop :=
  ∃ actions s', Reaches ops rule c (Cursor.of bytes 0) s actions (Cursor.of bytes k) s'

/-- The run of a stream comes to a DONE at a position. -/
def ExecutesDone (ops : OpcodeSet Op) (rule : DoneRule) (c : Context) (s : State) (bytes : Bytes)
    (k : Nat) : Prop :=
  ReachesBoundary ops rule c s bytes k ∧ bytes.HoldsOpcode k [0]

end Opcode

/-- The byte of an opcode stands between those in front of it and those behind it. -/
theorem Bytes.HoldsOpcode.exists_byte {bytes : Bytes} {k : Nat} (h : bytes.HoldsOpcode k [0]) :
    ∃ byte : UInt8, byte.toNat / 16 = 0 ∧ bytes.take (k + 1) = bytes.take k ++ [byte] ∧
      bytes.drop k = byte :: bytes.drop (k + 1) := by
  obtain ⟨byte, hbyte, hmem⟩ := h
  obtain ⟨hlt, rfl⟩ := List.getElem?_eq_some_iff.1 hbyte
  refine ⟨bytes[k], List.mem_singleton.1 hmem, ?_, List.drop_eq_getElem_cons hlt⟩
  rw [List.take_add_one, hbyte]
  rfl

/-- Where DONE is read there is its byte. -/
theorem OpcodeSet.DoneIsZero.holdsOpcode_of_read {ops : OpcodeSet Op} (h : ops.DoneIsZero)
    {bytes : Bytes} {k : Nat} {k' : Cursor} (hread : ops.read (Cursor.of bytes k) = .ok none k') :
    bytes.HoldsOpcode k [0] ∧ k' = Cursor.of bytes (k + 1) := by
  have hend := not_atEnd_of_read hread
  rw [Cursor.of] at hread hend
  cases hdrop : bytes.drop k with
  | nil => exact absurd (congrArg List.isEmpty hdrop) hend
  | cons byte rest =>
    rw [hdrop] at hread
    obtain ⟨hbyte, rfl⟩ := (h k byte rest k').1 hread
    refine ⟨⟨byte, ?_, List.mem_singleton.2 hbyte⟩, Cursor.ext rfl ?_⟩
    · rw [← Nat.add_zero k, ← List.getElem?_drop, hdrop]
      rfl
    · show rest = bytes.drop (k + 1)
      rw [← List.drop_drop, hdrop]
      rfl

variable [Interpreter Context Op State Action] {ops : OpcodeSet Op} {rule : DoneRule} {c : Context}
  {s : State} {bytes : Bytes} {k : Nat}

/-- A run stays in its bytes.  Those in front of a place that it reaches are opcodes, and all that
the run up to this place depends on. -/
theorem Opcode.Reaches.of_bytes (hops : ops.Portable) {actions : List Action} {k' : Cursor}
    {s' : State} (h : Reaches ops rule c (Cursor.of bytes 0) s actions k' s') :
    k' = Cursor.of bytes k'.pos ∧ (∃ fs, ops.Spells fs (bytes.take k'.pos)) ∧
      ∀ more, Reaches ops rule c (Cursor.of (bytes.take k'.pos ++ more) 0) s actions
        ⟨k'.pos, more⟩ s' := by
  obtain ⟨front, fs, hrest, hpos, hspells, hreaches⟩ := h.exists_front hops
  have hbytes : bytes = front ++ k'.rest := hrest
  have hlength : k'.pos = front.length := hpos.trans (Nat.zero_add _)
  have htake : bytes.take k'.pos = front := by rw [hlength, hbytes, List.take_left]
  have hdrop : bytes.drop k'.pos = k'.rest := by rw [hlength, hbytes, List.drop_left]
  rw [htake]
  exact ⟨Cursor.ext rfl hdrop.symm, ⟨fs, hspells⟩, hreaches⟩

theorem Opcode.ReachesBoundary.exists_spells (h : ReachesBoundary ops rule c s bytes k)
    (hops : ops.Portable) : ∃ fs, ops.Spells fs (bytes.take k) := by
  obtain ⟨actions, s', h⟩ := h
  exact (h.of_bytes hops).2.1

namespace OpcodeStream

/-- The items of a stream without a limit are those of its run. -/
theorem toList_ofBytes (hidle : Opcode.Idle c s) (bytes : Bytes) :
    Source.toList (ofProgram c (Program.ofBytes ops rule bytes) s none) =
      (Eager.interpret ops rule (Opcode.outcome c) (Cursor.of bytes 0) s).items := by
  have hresume : Interpreter.resume c s = .proceed s := hidle
  rw [toList_eq_items _ rfl rfl rfl, Eager.interpret_eq_outcome]
  show (Opcode.complete c (Interpreter.resume c s) >>= _).items = _
  rw [hresume, Opcode.complete_proceed, pure_bind]
  rfl

/-- **Actions on the way to a place that a run reaches do not depend on the bytes from there
on.** -/
theorem toList_replace (h : Opcode.ReachesBoundary ops rule c s bytes k) (hops : ops.Portable)
    (hidle : Opcode.Idle c s) :
    ∃ (actions : List Action) (s' : State), ∀ more : Bytes,
      Source.toList (ofProgram c (Program.ofBytes ops rule (bytes.take k ++ more)) s none) =
        actions.map .ok ++ (Eager.interpret ops rule (Opcode.outcome c) ⟨k, more⟩ s').items := by
  obtain ⟨actions, s', h⟩ := h
  refine ⟨actions, s', fun more => ?_⟩
  have hreaches : Opcode.Reaches ops rule c (Cursor.of (bytes.take k ++ more) 0) s actions
      ⟨k, more⟩ s' := (h.of_bytes hops).2.2 more
  rw [toList_ofBytes hidle, hreaches.interpret_eq, Outcome.items_bind_ok]

/-- **What stands behind a DONE that ends the stream only decides on the failure**, and so does
whether the DONE is missing. -/
theorem toList_of_executesDone (h : Opcode.ExecutesDone ops rule c s bytes k) (hops : ops.Portable)
    (hzero : ops.DoneIsZero) (hidle : Opcode.Idle c s) (hrule : rule ≠ .ignored) :
    ∃ actions : List Action,
      (∀ more : Bytes,
        Source.toList (ofProgram c (Program.ofBytes ops rule (bytes.take (k + 1) ++ more)) s none) =
          actions.map .ok ++ ((Program.done rule ⟨k + 1, more⟩).map .error).toList) ∧
      Source.toList (ofProgram c (Program.ofBytes ops rule (bytes.take k)) s none) =
        actions.map .ok ++ ((Program.exhausted rule k).map .error).toList := by
  obtain ⟨actions, s', hitems⟩ := toList_replace h.1 hops hidle
  obtain ⟨byte, hbyte, htake, -⟩ := h.2.exists_byte
  refine ⟨actions, fun more => ?_, ?_⟩
  · have hread := (hzero k byte more _).2 ⟨hbyte, rfl⟩
    rw [htake, List.append_assoc, List.singleton_append, hitems,
      (Opcode.EndsAt.done hrule hread).interpret_eq, Outcome.items_ofEnding]
  · have hnil := hitems []
    rw [List.append_nil, (Opcode.EndsAt.exhausted rfl).interpret_eq, Outcome.items_ofEnding] at hnil
    exact hnil

/-- **Where DONE is required, a stream with bytes does without a failure if and only if its run
comes to a DONE in front of nothing but zeros.** -/
theorem forall_error_notMem_iff (hops : ops.Portable) (hzero : ops.DoneIsZero)
    (hidle : Opcode.Idle c s) (hbytes : bytes ≠ []) :
    (∀ e, .error e ∉ Source.toList (ofProgram c (Program.ofBytes ops .required bytes) s none)) ↔
      ∃ k, Opcode.ExecutesDone ops .required c s bytes k ∧ ∀ b ∈ bytes.drop (k + 1), b = 0 := by
  have hdone (k : Nat) (rest : Bytes) :
      Program.done .required ⟨k, rest⟩ = none ↔ ∀ b ∈ rest, b = 0 := by
    simp [Program.done]
  rw [toList_ofBytes hidle, Outcome.forall_error_notMem_items]
  constructor
  · rintro ⟨u, hresult⟩
    obtain ⟨actions, k', s', hreaches, hends⟩ := Opcode.result_interpret_eq_ok_iff.1 hresult
    have hk' := (hreaches.of_bytes hops).1
    generalize hending : none = ending at hends
    cases hends with
    | exhausted hend =>
      -- Only a stream without bytes is at its end before the first opcode.
      have hpos : k'.pos = 0 := by
        by_contra hne
        rw [Program.exhausted, if_neg hne] at hending
        cases hending
      rw [hpos] at hk'
      rw [hk'] at hend
      exact absurd (List.isEmpty_iff.1 hend) hbytes
    | done hrule hread =>
      rw [hk'] at hreaches hread
      obtain ⟨hholds, rfl⟩ := hzero.holdsOpcode_of_read hread
      exact ⟨k'.pos, ⟨⟨actions, s', hreaches⟩, hholds⟩, (hdone _ _).1 hending.symm⟩
  · rintro ⟨k, ⟨⟨actions, s', hreaches⟩, hholds⟩, hzeros⟩
    obtain ⟨byte, hbyte, -, hdrop⟩ := hholds.exists_byte
    have hread := (hzero k byte (bytes.drop (k + 1)) _).2 ⟨hbyte, rfl⟩
    have hends : Opcode.EndsAt ops .required ⟨k, byte :: bytes.drop (k + 1)⟩ _ :=
      .done nofun hread
    rw [(hdone _ _).2 hzeros, ← hdrop] at hends
    exact ⟨(), Opcode.result_interpret_eq_ok_iff.2 ⟨actions, _, s', hreaches, hends⟩⟩

end OpcodeStream

/-- **Where DONE does nothing, it may as well be missing.** -/
theorem Program.withoutPosition_insert_done (hops : ops.Portable) (hzero : ops.DoneIsZero)
    {fs : List (Option Op)} {front : Bytes} (hfront : ops.Spells fs front) {byte : UInt8}
    (hbyte : byte.toNat / 16 = 0) (rest : Bytes) :
    withoutPosition (ofBytes ops .ignored (front ++ byte :: rest)) =
      withoutPosition (ofBytes ops .ignored (front ++ rest)) := by
  have hread := (hzero (0 + front.length) byte rest _).2 ⟨hbyte, rfl⟩
  show withoutPosition (ofCursor ops .ignored ⟨0, front ++ byte :: rest⟩) =
    withoutPosition (ofCursor ops .ignored ⟨0, front ++ rest⟩)
  rw [withoutPosition_ofCursor_append hfront (fun _ => rfl),
    withoutPosition_ofCursor_append hfront (fun _ => rfl),
    ofCursor_of_done (OpcodeSet.not_atEnd_of_read hread) hread, if_pos rfl]
  exact congrArg (Program.behind · _)
    (withoutPosition_ofCursor hops ⟨0 + front.length, rest⟩ _ nofun)

end MachO
