import MachO.Proofs.Expansion
import MachO.Proofs.Opcode.Reached

/-!
# Ends of streams

A byte whose high four bits are zero is DONE only where an opcode is expected; it may also be part
of an operand.

* `Bind.doneIsZero`, `Rebase.doneIsZero`: where an opcode is expected, no other byte is DONE;
* `Bind.ReachesBoundary`, `Bind.ExecutesDone`, `Rebase.ExecutesDone`: the positions that the run of
  a stream reaches;
* `ends_of_streams`: what DONE does in the streams of an image.
-/

namespace MachO

/-! ### DONE -/

/-- What is read is not DONE. -/
def ReadM.NotDone {Op : Type} (r : ReadM (Option Op)) : Prop := ∀ c c', r c ≠ .ok none c'

open ReadM (NotDone)

section NotDone

variable {Op : Type}

theorem ReadM.NotDone.pure (op : Op) : NotDone (pure (some op) : ReadM (Option Op)) := nofun

theorem ReadM.NotDone.throw (e : DecodeError) : NotDone (throw e : ReadM (Option Op)) := nofun

theorem ReadM.NotDone.ite {p : Prop} [Decidable p] {r r' : ReadM (Option Op)} (hr : NotDone r)
    (hr' : NotDone r') : NotDone (if p then r else r') := by
  split
  · exact hr
  · exact hr'

/-- The last reader decides. -/
theorem ReadM.NotDone.of_bind {α : Type} {r : ReadM α} {f : α → ReadM (Option Op)}
    (hf : ∀ a, NotDone (f a)) : NotDone (r >>= f) := by
  intro c c' h
  obtain ⟨a, c₁, -, h⟩ := bind_eq_ok_iff.1 h
  exact hf a c₁ c' h

theorem OpcodeSet.doneIsZero_of_operands {ops : OpcodeSet Op}
    {operands : (position : Nat) → UInt8 → ReadM (Option Op)}
    (hread : ops.read = do
      let position ← ReadM.position
      let byte ← ReadM.u8
      operands position byte)
    (hzero : ∀ position byte, byte.toNat / 16 = 0 → operands position byte = pure none)
    (hother : ∀ position byte, byte.toNat / 16 ≠ 0 → NotDone (operands position byte)) :
    ops.DoneIsZero := by
  intro position byte rest c
  rw [hread]
  show operands position byte ⟨position + 1, rest⟩ = .ok none c ↔ _
  constructor
  · intro h
    by_cases hbyte : byte.toNat / 16 = 0
    · rw [hzero position byte hbyte] at h
      cases h
      exact ⟨hbyte, rfl⟩
    · exact absurd h (hother position byte hbyte _ c)
  · rintro ⟨hbyte, rfl⟩
    rw [hzero position byte hbyte]
    rfl

end NotDone

theorem Bind.Op.operands_of_zero (position : Nat) (byte : UInt8) (h : byte.toNat / 16 = 0) :
    Op.operands position byte = pure none := by
  unfold Op.operands
  dsimp only
  rw [h]
  rfl

theorem Bind.Op.notDone_operands (position : Nat) (byte : UInt8) (h : byte.toNat / 16 ≠ 0) :
    NotDone (Op.operands position byte) := by
  unfold Op.operands
  dsimp only
  -- One case for each opcode, in their order.
  match hbyte : byte.toNat / 16 with
  | 0x0 => exact absurd hbyte h
  | 0x1 => exact .pure _
  | 0x2 => exact .of_bind fun ordinal => .ite (.throw _) (.pure _)
  | 0x3 =>
    cases specialOrdinal? (byte &&& 0xf).toNat with
    | some ordinal => exact .pure _
    | none => exact .throw _
  | 0x4 => exact .of_bind fun symbol => .ite (.throw _) (.pure _)
  | 0x5 =>
    cases WriteKind.ofImmediate? (byte &&& 0xf) with
    | some kind => exact .pure _
    | none => exact .throw _
  | 0x6 => exact .of_bind fun addend => .pure _
  | 0x7 => exact .of_bind fun offset => .pure _
  | 0x8 => exact .of_bind fun delta => .pure _
  | 0x9 => exact .pure _
  | 0xa => exact .of_bind fun delta => .pure _
  | 0xb => exact .pure _
  | 0xc => exact .of_bind fun count => .of_bind fun skip => .pure _
  | 0xd => exact .ite (.of_bind fun size => .pure _) (.ite (.pure _) (.throw _))
  | _ + 0xe => exact .throw _

theorem Bind.doneIsZero : opcodes.DoneIsZero :=
  OpcodeSet.doneIsZero_of_operands rfl Op.operands_of_zero Op.notDone_operands

theorem Rebase.Op.operands_of_zero (position : Nat) (byte : UInt8) (h : byte.toNat / 16 = 0) :
    Op.operands position byte = pure none := by
  unfold Op.operands
  dsimp only
  rw [h]
  rfl

theorem Rebase.Op.notDone_operands (position : Nat) (byte : UInt8) (h : byte.toNat / 16 ≠ 0) :
    NotDone (Op.operands position byte) := by
  unfold Op.operands
  dsimp only
  -- One case for each opcode, in their order.
  match hbyte : byte.toNat / 16 with
  | 0x0 => exact absurd hbyte h
  | 0x1 =>
    cases WriteKind.ofImmediate? (byte &&& 0xf) with
    | some kind => exact .pure _
    | none => exact .throw _
  | 0x2 => exact .of_bind fun offset => .pure _
  | 0x3 => exact .of_bind fun delta => .pure _
  | 0x4 => exact .pure _
  | 0x5 => exact .pure _
  | 0x6 => exact .of_bind fun count => .pure _
  | 0x7 => exact .of_bind fun delta => .pure _
  | 0x8 => exact .of_bind fun count => .of_bind fun skip => .pure _
  | _ + 0x9 => exact .throw _

theorem Rebase.doneIsZero : opcodes.DoneIsZero :=
  OpcodeSet.doneIsZero_of_operands rfl Op.operands_of_zero Op.notDone_operands

/-! ### Positions that a run reaches -/

/-- The run of a bind stream reaches the boundary of two opcodes at a position. -/
def Bind.ReachesBoundary (kind : StreamKind) (c : Context) (bytes : Bytes) (k : Nat) : Prop :=
  Opcode.ReachesBoundary opcodes kind.doneRule c ⟨kind.registers, none, .nothing⟩ bytes k

/-- The run of a bind stream comes to a DONE at a position. -/
def Bind.ExecutesDone (kind : StreamKind) (c : Context) (bytes : Bytes) (k : Nat) : Prop :=
  Opcode.ExecutesDone opcodes kind.doneRule c ⟨kind.registers, none, .nothing⟩ bytes k

/-- The run of a rebase stream comes to a DONE at a position. -/
def Rebase.ExecutesDone (space : AddressSpace) (bytes : Bytes) (k : Nat) : Prop :=
  Opcode.ExecutesDone opcodes .optional (Context.mk space) ⟨Registers.initial, none⟩ bytes k

/-! ### Streams -/

/-- What stands behind a DONE that ends a rebase stream makes no difference. -/
theorem Rebase.toList_stream_of_executesDone {space : AddressSpace} {bytes : Bytes} {k : Nat}
    (h : ExecutesDone space bytes k) :
    ∃ actions : List Action, ∀ more : Bytes,
      Source.toList (stream (bytes.take (k + 1) ++ more) space none) = actions.map .ok := by
  obtain ⟨actions, hitems, -⟩ :=
    OpcodeStream.toList_of_executesDone h portable_opcodes doneIsZero (idle_iff.2 rfl) nofun
  exact ⟨actions, fun more => (hitems more).trans (List.append_nil _)⟩

namespace Bind

variable {kind : StreamKind} {c : Context} {bytes : Bytes} {k : Nat}

theorem doneRule_eq_required (hkind : kind ≠ .lazy) : kind.doneRule = .required := by
  cases kind with
  | normal => rfl
  | lazy => exact absurd rfl hkind
  | weak => rfl

/-- What stands behind a DONE that ends a bind stream, and whether there is a DONE, only decides on
the failure. -/
theorem toList_stream_of_executesDone (hkind : kind ≠ .lazy) (h : ExecutesDone kind c bytes k) :
    ∃ actions : List Action,
      (∀ more : Bytes, Source.toList (stream kind (bytes.take (k + 1) ++ more) c none) =
        actions.map .ok ++ ((Program.done .required ⟨k + 1, more⟩).map .error).toList) ∧
      Source.toList (stream kind (bytes.take k) c none) =
        actions.map .ok ++ ((Program.exhausted .required k).map .error).toList := by
  have hrule := doneRule_eq_required hkind
  have hignored : kind.doneRule ≠ .ignored := by
    rw [hrule]
    nofun
  rw [← hrule]
  exact OpcodeStream.toList_of_executesDone h portable_opcodes doneIsZero (idle_iff.2 rfl) hignored

/-- A DONE in front of other opcodes of a lazy bind stream only changes positions. -/
theorem map_toList_insert_done {fs : List (Option Op)} {front : Bytes}
    (hfront : opcodes.Spells fs front) {byte : UInt8} (hbyte : byte.toNat / 16 = 0)
    (rest : Bytes) :
    (Source.toList (stream .lazy (front ++ byte :: rest) c none)).map withoutPosition =
      (Source.toList (stream .lazy (front ++ rest) c none)).map withoutPosition := by
  have hitems (bytes : Bytes) :
      (Source.toList (stream .lazy bytes c none)).map withoutPosition = _ :=
    OpcodeStream.map_toList_ofProgram (forgets c) (Program.ofBytes opcodes .ignored bytes) rfl none
  rw [hitems, hitems,
    Program.withoutPosition_insert_done portable_opcodes doneIsZero hfront hbyte rest]

end Bind

/-- **What DONE does at the end of a stream.**  Behind the DONE of a rebase stream anything may
stand.  A normal or weak bind stream with bytes has to come to a DONE, and only zeros may stand
behind it; otherwise there is one failure behind the same actions.  In a lazy bind stream DONE does
nothing: one more or less of them only changes positions. -/
theorem ends_of_streams (bytes more : Bytes) (k : Nat) :
    (∀ space : AddressSpace, Rebase.ExecutesDone space bytes k →
      Source.toList (Rebase.stream (bytes.take (k + 1) ++ more) space none) =
        Source.toList (Rebase.stream bytes space none)) ∧
    (∀ (kind : Bind.StreamKind) (c : Bind.Context), kind ≠ .lazy →
      (bytes ≠ [] →
        ((∀ e, .error e ∉ Source.toList (Bind.stream kind bytes c none)) ↔
          ∃ k, Bind.ExecutesDone kind c bytes k ∧ ∀ b ∈ bytes.drop (k + 1), b = 0)) ∧
      (Bind.ExecutesDone kind c bytes k → (∃ b ∈ more, b ≠ 0) →
        Source.toList (Bind.stream kind (bytes.take (k + 1) ++ more) c none) =
          (Source.values (Bind.stream kind bytes c none)).map .ok ++
            [.error (.trailingBytes (k + 1))]) ∧
      (Bind.ExecutesDone kind c bytes k → 0 < k →
        Source.toList (Bind.stream kind (bytes.take k) c none) =
          (Source.values (Bind.stream kind bytes c none)).map .ok ++ [.error (.missingDone k)])) ∧
    ∀ c : Bind.Context,
      (Bind.ReachesBoundary .lazy c bytes k →
        (Source.toList (Bind.stream .lazy (bytes.take k ++ 0 :: bytes.drop k) c none)).map
            withoutPosition =
          (Source.toList (Bind.stream .lazy bytes c none)).map withoutPosition) ∧
      (Bind.ExecutesDone .lazy c bytes k →
        (Source.toList (Bind.stream .lazy (bytes.take k ++ bytes.drop (k + 1)) c none)).map
            withoutPosition =
          (Source.toList (Bind.stream .lazy bytes c none)).map withoutPosition) := by
  refine ⟨fun space h => ?_, fun kind c hkind => ?_, fun c => ⟨fun h => ?_, fun h => ?_⟩⟩
  · obtain ⟨actions, hitems⟩ := Rebase.toList_stream_of_executesDone h
    have hbytes := hitems (bytes.drop (k + 1))
    rw [List.take_append_drop] at hbytes
    rw [hitems, hbytes]
  · refine ⟨fun hbytes => ?_, fun h hmore => ?_, fun h hk => ?_⟩
    · have hiff := OpcodeStream.forall_error_notMem_iff Bind.portable_opcodes Bind.doneIsZero
        (Bind.idle_iff.2 rfl) hbytes (c := c) (s := ⟨kind.registers, none, .nothing⟩)
      rwa [← Bind.doneRule_eq_required hkind] at hiff
    · obtain ⟨actions, hitems, -⟩ := Bind.toList_stream_of_executesDone hkind h
      have hbytes := hitems (bytes.drop (k + 1))
      rw [List.take_append_drop] at hbytes
      rw [hitems, Source.values_of_toList hbytes, Program.done, if_neg (by simpa using hmore)]
      rfl
    · obtain ⟨actions, hitems, hcut⟩ := Bind.toList_stream_of_executesDone hkind h
      have hbytes := hitems (bytes.drop (k + 1))
      rw [List.take_append_drop] at hbytes
      rw [hcut, Source.values_of_toList hbytes, Program.exhausted, if_neg hk.ne']
      rfl
  · obtain ⟨fs, hfront⟩ := h.exists_spells Bind.portable_opcodes
    rw [Bind.map_toList_insert_done hfront rfl, List.take_append_drop]
  · obtain ⟨fs, hfront⟩ := h.1.exists_spells Bind.portable_opcodes
    obtain ⟨byte, hbyte, -, hdrop⟩ := h.2.exists_byte
    rw [← Bind.map_toList_insert_done hfront hbyte, ← hdrop, List.take_append_drop]

/-- One rebase and one bind in front of a DONE. -/
theorem ends_of_streams_example :
    let rebases : Bytes := [0x11, 0x20, 16, 0x51, 7, 0xff]
    let binds : Bytes := [0x11, 0x40, 95, 97, 0, 0x51, 0x70, 16, 0x90, 15, 0]
    let c : Bind.Context := ⟨exampleSpace, none⟩
    let items := fun kind bytes => Source.toList (Bind.stream kind bytes c none)
    let a : Bind.Action := ⟨0, 16, 0x1010, "_a", 1, .pointer, 0, 0, 8⟩
    Rebase.ExecutesDone exampleSpace rebases 4 ∧
      (∀ kind, Bind.ExecutesDone kind c binds 9) ∧ Bind.ReachesBoundary .lazy c binds 5 ∧
      Source.toList (Rebase.stream (rebases.take 5 ++ [1, 2]) exampleSpace none) =
        Source.toList (Rebase.stream rebases exampleSpace none) ∧
      (∀ e, .error e ∉ items .normal binds) ∧
      items .normal (binds.take 10 ++ [0, 3]) = [.ok a, .error (.trailingBytes 10)] ∧
      items .normal (binds.take 9) = [.ok a, .error (.missingDone 9)] ∧
      (items .lazy (binds.take 5 ++ 0 :: binds.drop 5)).map withoutPosition =
        (items .lazy binds).map withoutPosition ∧
      (items .lazy (binds.take 9 ++ binds.drop 10)).map withoutPosition =
        (items .lazy binds).map withoutPosition := by
  have hrebase : Rebase.ExecutesDone exampleSpace [0x11, 0x20, 16, 0x51, 7, 0xff] 4 := by
    let s : Nat → Rebase.State := fun offset =>
      ⟨⟨none, none, 0, some .pointer, 0, some 0, offset⟩, none⟩
    have hemit : Opcode.outcome (Rebase.Context.mk exampleSpace) 3 (.emitTimes 1) (s 16) =
        ⟨[⟨0, 16, 0x1010, .pointer, 3⟩], .ok (s 24)⟩ :=
      Opcode.outcome_of_emit rfl (Rebase.idle_iff.2 rfl)
    exact ⟨⟨_, s 24, .op rfl (Opcode.outcome_of_proceed rfl)
      (.op rfl (Opcode.outcome_of_proceed rfl) (.op rfl hemit (.refl _ _)))⟩, 7, rfl, by decide⟩
  have hbind (kind : Bind.StreamKind) : Bind.ExecutesDone kind ⟨exampleSpace, none⟩
      [0x11, 0x40, 95, 97, 0, 0x51, 0x70, 16, 0x90, 15, 0] 9 := by
    let s : Nat → Bind.State := fun offset =>
      ⟨⟨some 1, some "_a", 0, some .pointer, 0, some 0, offset⟩, none, .nothing⟩
    have hemit : Opcode.outcome (Bind.Context.mk exampleSpace none) 8 .emit (s 16) =
        ⟨[⟨0, 16, 0x1010, "_a", 1, .pointer, 0, 0, 8⟩], .ok (s 24)⟩ :=
      Opcode.outcome_of_emit rfl (Bind.idle_iff.2 rfl)
    cases kind <;>
      exact ⟨⟨_, s 24, .op rfl (Opcode.outcome_of_proceed rfl)
        (.op rfl (Opcode.outcome_of_proceed rfl) (.op rfl (Opcode.outcome_of_proceed rfl)
          (.op rfl (Opcode.outcome_of_proceed rfl) (.op rfl hemit (.refl _ _)))))⟩, 15, rfl,
        by decide⟩
  have hlazy : Bind.ReachesBoundary .lazy ⟨exampleSpace, none⟩
      [0x11, 0x40, 95, 97, 0, 0x51, 0x70, 16, 0x90, 15, 0] 5 :=
    ⟨_, _, .op rfl (Opcode.outcome_of_proceed rfl)
      (.op rfl (Opcode.outcome_of_proceed rfl) (.refl _ _))⟩
  intro rebases binds c items a
  have hvalues : Source.values (Bind.stream .normal binds c none) = [a] := by decide +kernel
  have hmore : ∃ b ∈ ([0, 3] : Bytes), b ≠ 0 := ⟨3, by decide, by decide⟩
  have hzeros : ∀ b ∈ binds.drop 10, b = 0 := fun b hb => List.mem_singleton.1 hb
  obtain ⟨hdrains, htrailing, hmissing⟩ :=
    (ends_of_streams binds [0, 3] 9).2.1 .normal c (by decide)
  have htrailing := htrailing (hbind .normal) hmore
  have hmissing := hmissing (hbind .normal) (by decide)
  rw [hvalues] at htrailing hmissing
  exact ⟨hrebase, hbind, hlazy, (ends_of_streams rebases [1, 2] 4).1 exampleSpace hrebase,
    (hdrains nofun).2 ⟨9, hbind .normal, hzeros⟩, htrailing, hmissing,
    ((ends_of_streams binds [] 5).2.2 c).1 hlazy,
    ((ends_of_streams binds [] 9).2.2 c).2 (hbind .lazy)⟩

end MachO
