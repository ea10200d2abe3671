import Mathlib.Data.List.ReduceOption
import MachO.Opcode.Emit
import MachO.Proofs.Opcode.Portable
import MachO.Proofs.Opcode.Truncation

/-!
# Streams without positions

* `Opcode.Forgets`: opcodes and suspended ones use positions only to tell them;
* `OpcodeStream.toList_withoutPosition`: then the items of a stream without positions are those of
  the stream, without positions;
* `OpcodeSet.Spells`: bytes that are opcodes one behind the other;
* `Program.exists_ofCursor_append`: their program, in front of that of other bytes;
* `Program.withoutPosition_ofCursor`, `Program.withoutPosition_ofCursor_append`: without positions,
  a program does not depend on the place of its bytes.
-/

namespace MachO

variable {Context Op State Action : Type}

/-! ### Runs of a program -/

instance [Positioned State] [Positioned Action] : Positioned (Effect State Action) where
  withoutPosition
    | .proceed s => .proceed (withoutPosition s)
    | .emit a late s => .emit (withoutPosition a) (late.map withoutPosition) (withoutPosition s)
    | .fail e s => .fail (withoutPosition e) (withoutPosition s)

/-- Opcodes without their positions. -/
def Opcode.unplaced (code : List (Nat × Op)) : List (Nat × Op) := code.map fun x => (0, x.2)

theorem Opcode.unplaced_append (code code' : List (Nat × Op)) :
    unplaced (code ++ code') = unplaced code ++ unplaced code' := List.map_append

instance : Positioned (Program Op) where
  withoutPosition p := ⟨Opcode.unplaced p.code, p.ending.map withoutPosition⟩

instance [Positioned State] : Positioned (OpcodeStream Context Op State) where
  withoutPosition st :=
    { st with
      code := Opcode.unplaced st.code
      ending := st.ending.map withoutPosition
      state := withoutPosition st.state
      late := st.late.map withoutPosition }

variable [Positioned State] [Positioned Action] [Interpreter Context Op State Action]

/-- Opcodes and suspended ones use positions only to tell them. -/
structure Opcode.Forgets (c : Context) : Prop where
  resume : ∀ s, Interpreter.resume c (withoutPosition s) =
    withoutPosition (Interpreter.resume c s)
  act : ∀ position op s, Interpreter.act c 0 op (withoutPosition s) =
    withoutPosition (Interpreter.act c position op s)

theorem Opcode.Forgets.execute {c : Context} (h : Forgets c) (code : List (Nat × Op))
    (effect : Effect State Action) :
    execute c (unplaced code) (withoutPosition effect) =
      (unplaced (execute c code effect).1, withoutPosition (execute c code effect).2) := by
  induction code generalizing effect with
  | nil => cases effect <;> rfl
  | cons head code ih =>
    cases effect with
    | proceed s =>
      have hact := h.act head.1 head.2 s
      show Opcode.execute c (unplaced code) (Interpreter.act c 0 head.2 (withoutPosition s)) = _
      rw [hact]
      exact ih _
    | emit a late s => rfl
    | fail e s => rfl

namespace OpcodeStream

/-- A draw from a stream without positions yields the item without positions. -/
theorem next_withoutPosition (st : OpcodeStream Context Op State)
    (h : Opcode.Forgets st.context) :
    Source.next (withoutPosition st) =
      ((Source.next st).1.map withoutPosition, withoutPosition (Source.next st).2) := by
  cases hended : st.ended with
  | true =>
    have hother : (withoutPosition st).ended = true := hended
    rw [next_of_ended hended, next_of_ended hother]
    rfl
  | false =>
    have hended' : (withoutPosition st).ended = false := hended
    cases hlate : st.late with
    | some e =>
      have hlate' : (withoutPosition st).late = some (withoutPosition e) :=
        congrArg (Option.map withoutPosition) hlate
      rw [next_of_late hended hlate, next_of_late hended' hlate']
      rfl
    | none =>
      have hlate' : (withoutPosition st).late = none :=
        congrArg (Option.map withoutPosition) hlate
      cases hroom : st.exhausted with
      | some limit =>
        have hroom' : (withoutPosition st).exhausted = some limit := hroom
        rw [next_of_exhausted hended hlate hroom, next_of_exhausted hended' hlate' hroom']
        rfl
      | none =>
        have hroom' : (withoutPosition st).exhausted = none := hroom
        have hrun := h.execute st.code (Interpreter.resume st.context st.state)
        rw [← h.resume] at hrun
        rw [next_of_running hended hlate hroom, next_of_running hended' hlate' hroom',
          show Opcode.execute (withoutPosition st).context (withoutPosition st).code
            (Interpreter.resume (withoutPosition st).context (withoutPosition st).state) = _
            from hrun]
        have hending : ((withoutPosition st).ending.map .error : Option (Except _ Action)) =
            (st.ending.map .error).map withoutPosition := by
          show (st.ending.map withoutPosition).map _ = _
          cases st.ending <;> rfl
        cases Opcode.execute st.context st.code (Interpreter.resume st.context st.state) with
        | mk code effect =>
          cases effect with
          | proceed s => exact Prod.ext hending rfl
          | emit a late s => rfl
          | fail e s => rfl

/-- **Positions are only told.**  The items of a stream without positions are those of the stream,
without positions. -/
theorem toList_withoutPosition (st : OpcodeStream Context Op State)
    (h : Opcode.Forgets st.context) :
    Source.toList (withoutPosition st) = (Source.toList st).map withoutPosition := by
  have hdraw := next_withoutPosition st h
  cases hnext : Source.next st with
  | mk item st' =>
    rw [hnext] at hdraw
    cases item with
    | none => rw [Source.toList_eq_nil hnext, Source.toList_eq_nil hdraw, List.map_nil]
    | some item =>
      have hcontext : st'.context = st.context := by
        rw [← context_next st, hnext]
      rw [Source.toList_eq_cons hnext, Source.toList_eq_cons hdraw, List.map_cons,
        toList_withoutPosition st' (hcontext ▸ h)]
termination_by Source.rank st
decreasing_by exact Source.rank_lt_of_next_eq hnext

theorem map_toList_ofProgram {c : Context} (h : Opcode.Forgets c) (p : Program Op) {s : State}
    (hs : withoutPosition s = s) (limit : Option Nat) :
    (Source.toList (ofProgram c p s limit)).map withoutPosition =
      Source.toList (ofProgram c (withoutPosition p) s limit) := by
  have hprogram : withoutPosition (ofProgram c p s limit) =
      ofProgram c (withoutPosition p) (withoutPosition s) limit := rfl
  rw [← toList_withoutPosition _ h, hprogram, hs]

end OpcodeStream

/-! ### Opcodes that move and emit -/

instance : Positioned (EStateM.Result DecodeError Registers Unit) where
  withoutPosition
    | .ok u r => .ok u r
    | .error e r => .error (withoutPosition e) r

instance : Positioned Run where
  withoutPosition run := { run with position := 0 }

theorem Registers.advance_withoutPosition (space : AddressSpace) (delta position : Nat)
    (r : Registers) :
    advance space delta 0 r = withoutPosition (advance space delta position r) := by
  unfold advance
  split <;> rfl

theorem Registers.setSegment_withoutPosition (space : AddressSpace) (index : UInt8)
    (offset position : Nat) (r : Registers) :
    setSegment space index offset 0 r =
      withoutPosition (setSegment space index offset position r) := by
  rcases Nat.lt_or_ge index.toNat space.segments.length with hlt | hle
  · rw [setSegment_of_lt hlt, setSegment_of_lt hlt]
    exact advance_withoutPosition space offset position _
  · rw [setSegment_of_le hle, setSegment_of_le hle]
    rfl

theorem Registers.target_withoutPosition (space : AddressSpace) (position : Nat) (r : Registers) :
    r.target space 0 = (r.target space position).mapError withoutPosition := by
  unfold target
  cases r.segment with
  | none => rfl
  | some index =>
    dsimp only
    cases space.resolve index r.offset <;> rfl

theorem Registers.writeKind_withoutPosition (position : Nat) (r : Registers) :
    r.writeKind 0 = (r.writeKind position).mapError withoutPosition := by
  unfold writeKind
  cases r.kind <;> rfl

section Emit

variable {space : AddressSpace} {position delta : Nat} {r : Registers}

theorem Effect.ofUpdate_withoutPosition {wrap wrap' : Registers → State}
    {update update' : Registers.Update Unit} (hwrap : ∀ r, wrap' r = withoutPosition (wrap r))
    (hupdate : update' r = withoutPosition (update r)) :
    (Effect.ofUpdate wrap' update' r : Effect State Action) =
      withoutPosition (Effect.ofUpdate wrap update r) := by
  unfold Effect.ofUpdate
  rw [hupdate]
  cases update r with
  | ok u r' => exact congrArg Effect.proceed (hwrap r')
  | error e r' => exact congrArg (Effect.fail (withoutPosition e)) (hwrap r')

theorem emitThenAdvance_withoutPosition {wrap wrap' : Registers → State}
    {action action' : Registers → Except DecodeError Action}
    (hwrap : ∀ r, wrap' r = withoutPosition (wrap r))
    (haction : action' r = withoutPosition (action r)) :
    emitThenAdvance space wrap' action' delta 0 r =
      withoutPosition (emitThenAdvance space wrap action delta position r) := by
  unfold emitThenAdvance
  rw [haction, Registers.advance_withoutPosition space delta position]
  cases action r with
  | error e => exact congrArg (Effect.fail (withoutPosition e)) (hwrap r)
  | ok a =>
    cases Registers.advance space delta position r with
    | ok u r' => exact congrArg (Effect.emit (withoutPosition a) none) (hwrap r')
    | error e r' =>
      exact congrArg (Effect.emit (withoutPosition a) (some (withoutPosition e))) (hwrap r')

variable {wrap wrap' : Option Run → Registers → State}
  {action : (position : Nat) → Registers → Except DecodeError Action}

theorem Run.tail?_withoutPosition (run : Run) :
    (withoutPosition run).tail? = run.tail?.map withoutPosition := by
  unfold Run.tail?
  show (if 1 < run.remaining then _ else _) = _
  split <;> rfl

theorem Run.next_withoutPosition
    (hwrap : ∀ run? r, wrap' (run?.map withoutPosition) r = withoutPosition (wrap run? r))
    (haction : ∀ position r, action 0 r = withoutPosition (action position r)) (run : Run) :
    (withoutPosition run).next space wrap' action r =
      withoutPosition (run.next space wrap action r) := by
  unfold Run.next
  rw [tail?_withoutPosition]
  exact emitThenAdvance_withoutPosition (hwrap run.tail?) (haction run.position r)

theorem Run.start_withoutPosition
    (hwrap : ∀ run? r, wrap' (run?.map withoutPosition) r = withoutPosition (wrap run? r))
    (haction : ∀ position r, action 0 r = withoutPosition (action position r)) (run : Run) :
    (withoutPosition run).start space wrap' action r =
      withoutPosition (run.start space wrap action r) := by
  unfold Run.start
  show (if _ ≤ run.stride space then _ else if run.remaining = 0 then _ else _) = _
  split
  · exact congrArg (Effect.fail _) (hwrap none r)
  · split
    · exact congrArg Effect.proceed (hwrap none r)
    · exact next_withoutPosition hwrap haction run

end Emit

/-! ### Programs -/

namespace OpcodeSet

variable {ops : OpcodeSet Op}

/-- Bytes are read as opcodes one behind the other; `none` stands for DONE. -/
def Spells (ops : OpcodeSet Op) (fs : List (Option Op)) (bytes : Bytes) : Prop :=
  ReadM.Row (ReadM.ReadsBack ops.read) fs bytes

theorem Spells.nil : ops.Spells [] [] := ⟨[], .nil, rfl⟩

theorem Spells.cons {op? : Option Op} {bs bytes : Bytes} {fs : List (Option Op)}
    (h : ReadM.ReadsBack ops.read op? bs) (hfs : ops.Spells fs bytes) :
    ops.Spells (op? :: fs) (bs ++ bytes) := by
  obtain ⟨chunks, hchunks, rfl⟩ := hfs
  exact ⟨bs :: chunks, .cons h hchunks, rfl⟩

theorem Spells.append {fs gs : List (Option Op)} {front bytes : Bytes} (hfs : ops.Spells fs front)
    (hgs : ops.Spells gs bytes) : ops.Spells (fs ++ gs) (front ++ bytes) := by
  obtain ⟨chunks, hchunks, rfl⟩ := hfs
  induction hchunks with
  | nil => exact hgs
  | cons hop _ ih =>
    rw [List.flatten_cons, List.append_assoc]
    exact ih.cons hop

theorem Spells.singleton {op? : Option Op} {bs : Bytes} (h : ReadM.ReadsBack ops.read op? bs) :
    ops.Spells [op?] bs := by
  have hcons := Spells.nil.cons h
  rwa [List.append_nil] at hcons

/-- Nothing is read behind the last byte. -/
theorem not_atEnd_of_read {k k' : Cursor} {op? : Option Op} (h : ops.read k = .ok op? k') :
    ¬k.atEnd := by
  have hlt := ops.moves_read.length_lt h
  cases hrest : k.rest with
  | nil =>
    rw [hrest] at hlt
    cases hlt
  | cons b rest => simp [Cursor.atEnd, hrest]

/-- An opcode has a byte. -/
theorem length_pos_of_readsBack {op? : Option Op} {bs : Bytes}
    (h : ReadM.ReadsBack ops.read op? bs) : 0 < bs.length := by
  obtain ⟨n, hn, hle, -⟩ := ops.moves_read (h 0 [])
  rw [List.append_nil] at hle
  exact Nat.lt_of_lt_of_le hn hle

end OpcodeSet

namespace Program

variable {ops : OpcodeSet Op} {rule : DoneRule}

/-- **Opcodes one behind the other are the first ones of a program**, whatever follows them.  In
front of others there is a DONE only where it does nothing. -/
theorem exists_ofCursor_append {fs : List (Option Op)} {front : Bytes}
    (h : ops.Spells fs front) (hdone : none ∈ fs → rule = .ignored) (pos : Nat) :
    ∃ code : List (Nat × Op), code.map Prod.snd = fs.reduceOption ∧ ∀ rest : Bytes,
      ofCursor ops rule ⟨pos, front ++ rest⟩ =
        ⟨code ++ (ofCursor ops rule ⟨pos + front.length, rest⟩).code,
          (ofCursor ops rule ⟨pos + front.length, rest⟩).ending⟩ := by
  obtain ⟨chunks, hchunks, rfl⟩ := h
  induction hchunks generalizing pos with
  | nil => exact ⟨[], rfl, fun rest => rfl⟩
  | @cons op? bs fs chunks hop hrest ih =>
    have hend (rest : Bytes) : ¬(Cursor.mk pos (bs ++ rest)).atEnd := by
      have hpos := OpcodeSet.length_pos_of_readsBack hop
      cases bs with
      | nil => cases hpos
      | cons b bs => simp [Cursor.atEnd]
    obtain ⟨code, hcode, hprogram⟩ :=
      ih (fun hmem => hdone (List.mem_cons_of_mem _ hmem)) (pos + bs.length)
    have hlength :
        pos + (bs :: chunks).flatten.length = pos + bs.length + chunks.flatten.length := by
      rw [List.flatten_cons, List.length_append, Nat.add_assoc]
    rw [hlength]
    cases op? with
    | none =>
      refine ⟨code, hcode, fun rest => ?_⟩
      rw [List.flatten_cons, List.append_assoc, ofCursor_of_done (hend _) (hop pos _),
        if_pos (hdone List.mem_cons_self), hprogram]
    | some op =>
      refine ⟨(pos, op) :: code, ?_, fun rest => ?_⟩
      · rw [List.map_cons, hcode, List.reduceOption_cons_of_some]
      · rw [List.flatten_cons, List.append_assoc, ofCursor_of_op (hend _) (hop pos _), hprogram]
        rfl

theorem ofCursor_of_atEnd {c : Cursor} (hend : c.atEnd) :
    ofCursor ops rule c = ⟨[], exhausted rule c.pos⟩ := by
  rw [ofCursor, if_pos hend]

theorem ofCursor_of_error {c c' : Cursor} (hend : ¬c.atEnd) {e : DecodeError}
    (hread : ops.read c = .error e c') : ofCursor ops rule c = ⟨[], some e⟩ := by
  rw [ofCursor, if_neg hend]
  split <;> rename_i h <;> cases hread.symm.trans h
  rfl

theorem withoutPosition_exhausted {p p' : Nat} (h : rule = .required → (p = 0 ↔ p' = 0)) :
    (exhausted rule p).map withoutPosition = (exhausted rule p').map withoutPosition := by
  cases rule with
  | optional => rfl
  | ignored => rfl
  | required =>
    unfold exhausted
    by_cases hp : p = 0
    · rw [if_pos hp, if_pos ((h rfl).1 hp)]
    · rw [if_neg hp, if_neg fun hp' => hp ((h rfl).2 hp')]
      rfl

theorem withoutPosition_done (rule : DoneRule) (p p' : Nat) (rest : Bytes) :
    (done rule ⟨p, rest⟩).map withoutPosition = (done rule ⟨p', rest⟩).map withoutPosition := by
  cases rule with
  | optional => rfl
  | ignored => rfl
  | required =>
    unfold done
    dsimp only
    split <;> rfl

/-- **Without positions, a program does not depend on the place of its bytes.**  Only where DONE is
required it makes a difference whether no bytes are all of a stream. -/
theorem withoutPosition_ofCursor (hops : ops.Portable) (c : Cursor) : ∀ pos : Nat,
    (rule = .required → c.rest = [] → (pos = 0 ↔ c.pos = 0)) →
      withoutPosition (ofCursor ops rule ⟨pos, c.rest⟩) =
        withoutPosition (ofCursor ops rule c) := by
  -- What follows an opcode is not all of a stream.
  have hnext {c c' : Cursor} {pos : Nat} {bs : Bytes} {op? : Option Op}
      (hpos : c'.pos = c.pos + bs.length) (hback : ReadM.ReadsBack ops.read op? bs) :
      rule = .required → c'.rest = [] → (pos + bs.length = 0 ↔ c'.pos = 0) := by
    have hlength := OpcodeSet.length_pos_of_readsBack hback
    omega
  induction c using ofCursor.induct ops rule with
  | case1 c hend =>
    intro pos h
    have hrest : c.rest = [] := List.isEmpty_iff.1 hend
    have hending := withoutPosition_exhausted fun hrule => h hrule hrest
    rw [ofCursor_of_atEnd (c := ⟨pos, c.rest⟩) hend, ofCursor_of_atEnd hend]
    exact congrArg (Program.mk []) hending
  | case2 c hend e c' hread =>
    intro pos h
    obtain ⟨e', c₁, hread', he⟩ := hops.of_error hend hread pos
    rw [ofCursor_of_error (c := ⟨pos, c.rest⟩) hend hread', ofCursor_of_error hend hread]
    exact congrArg (fun e => Program.mk [] (some e)) he
  | case3 c hend c' hread hrule _ ih =>
    intro pos h
    obtain ⟨bs, hrest, hpos, hback⟩ := hops.of_ok hread
    have hread' := hback pos c'.rest
    rw [← hrest] at hread'
    rw [ofCursor_of_done (c := ⟨pos, c.rest⟩) hend hread', if_pos hrule,
      ofCursor_of_done hend hread, if_pos hrule]
    exact ih (pos + bs.length) (hnext hpos hback)
  | case4 c hend c' hread hrule =>
    intro pos h
    obtain ⟨bs, hrest, hpos, hback⟩ := hops.of_ok hread
    have hread' := hback pos c'.rest
    rw [← hrest] at hread'
    rw [ofCursor_of_done (c := ⟨pos, c.rest⟩) hend hread', if_neg hrule,
      ofCursor_of_done hend hread, if_neg hrule]
    exact congrArg (Program.mk []) (withoutPosition_done rule _ _ c'.rest)
  | case5 c hend op c' hread _ ih =>
    intro pos h
    obtain ⟨bs, hrest, hpos, hback⟩ := hops.of_ok hread
    have hread' := hback pos c'.rest
    have htail := ih (pos + bs.length) (hnext hpos hback)
    rw [← hrest] at hread'
    rw [ofCursor_of_op (c := ⟨pos, c.rest⟩) hend hread', ofCursor_of_op hend hread]
    exact congrArg (fun p : Program Op => Program.mk ((0, op) :: p.code) p.ending) htail

/-- The program behind other opcodes. -/
def behind (p : Program Op) (code : List (Nat × Op)) : Program Op := ⟨code ++ p.code, p.ending⟩

/-- Without positions, opcodes one behind the other are the first ones of a program. -/
theorem withoutPosition_ofCursor_append {fs : List (Option Op)} {front : Bytes}
    (h : ops.Spells fs front) (hdone : none ∈ fs → rule = .ignored) (pos : Nat) (rest : Bytes) :
    withoutPosition (ofCursor ops rule ⟨pos, front ++ rest⟩) =
      (withoutPosition (ofCursor ops rule ⟨pos + front.length, rest⟩)).behind
        (fs.reduceOption.map (Prod.mk 0)) := by
  obtain ⟨code, hcode, hprogram⟩ := exists_ofCursor_append h hdone pos
  rw [hprogram, ← hcode, List.map_map]
  exact congrArg (Program.mk · _) (Opcode.unplaced_append code _)

end Program

end MachO
