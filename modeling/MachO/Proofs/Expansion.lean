import MachO.Proofs.Actions
import MachO.Proofs.Opcode.Expansion
import MachO.Proofs.Portable
import MachO.Proofs.Positions

/-!
# Opcodes that stand for others

* `Bind.Op.ExpandsTo`, `Rebase.Op.ExpandsTo`: opcodes that emit many actions or move by a number of
  pointers, and what they stand for;
* `Bind.interchangeable_of_expandsTo`, `Rebase.interchangeable_of_expandsTo`: they may be replaced;
* `expansions_agree`: this is so for the bytes of a stream.
-/

namespace MachO

/-! ### Bind opcodes -/

namespace Bind

/-- What an opcode stands for.  Where an action is told apart from the move behind it, there is no
limit on the number of actions. -/
inductive Op.ExpandsTo (width : Width) (limit : Option Nat) : Op → List Op → Prop
  | times (count skip : Nat) (hfits : skip + width.pointerSize < UInt64.size) :
    ExpandsTo width limit (.emitTimesSkipping count skip)
      (List.replicate count (.emitThenAdvance skip))
  | scaled (count : Nat) :
    ExpandsTo width limit (.emitThenAdvanceScaled count)
      [.emitThenAdvance (count * width.pointerSize)]
  | split (delta : Nat) (hlimit : limit = none) :
    ExpandsTo width limit (.emitThenAdvance delta) [.emit, .advance delta]
  | splitScaled (count : Nat) (hlimit : limit = none) :
    ExpandsTo width limit (.emitThenAdvanceScaled count)
      [.emit, .advance (count * width.pointerSize)]

variable {c : Context} {limit : Option Nat} {position : Nat}

theorem follow_proceedsTo {space : AddressSpace} (image : Bytes) (e : Endian) (s : State) :
    (follow space image e position s).ProceedsTo fun s => s.pending = .nothing := by
  fun_induction follow space image e position s with
  | case6 => rfl
  | case7 s segment address slot hslot delta hbinds hdelta u r hr _ ih => exact ih
  | _ => trivial

theorem followInContext_proceedsTo (s : State) :
    (c.follow position s).ProceedsTo fun s => s.pending = .nothing := by
  unfold Context.follow
  cases c.image with
  | none => trivial
  | some found => exact follow_proceedsTo found.1 found.2 s

theorem resume_proceedsTo (s : State) :
    (resume c s).ProceedsTo fun s => s.pending = .nothing := by
  unfold resume
  cases hpending : s.pending with
  | nothing => exact hpending
  | run run => exact emitThenAdvance_proceedsTo _
  | chain position => exact followInContext_proceedsTo s

theorem act_proceedsTo (op : Op) {s : State} (hs : s.pending = .nothing) :
    (act c position op s).ProceedsTo fun s => s.pending = .nothing := by
  cases op with
  | setOrdinal ordinal => exact hs
  | setSymbol symbol flags => exact hs
  | setKind kind => exact hs
  | setAddend addend => exact hs
  | setSegment index offset => exact Effect.ofUpdate_proceedsTo _ fun _ => rfl
  | advance delta => exact Effect.ofUpdate_proceedsTo _ fun _ => rfl
  | emit =>
    unfold act
    dsimp only
    split
    · exact emitThenAdvance_proceedsTo _
    · split
      · exact hs
      · trivial
  | emitThenAdvance delta => exact emitThenAdvance_proceedsTo _
  | emitThenAdvanceScaled count => exact emitThenAdvance_proceedsTo _
  | emitTimesSkipping count skip => exact Run.start_proceedsTo _ _ rfl
  | startTable size => exact hs
  | followChain => exact followInContext_proceedsTo _

theorem idle_iff {s : State} : Opcode.Idle c s ↔ s.pending = .nothing := by
  constructor
  · intro h
    have hproceeds := resume_proceedsTo (c := c) s
    rwa [show resume c s = .proceed s from h] at hproceeds
  · intro h
    show resume c s = .proceed s
    rw [resume, h]

theorem settles (c : Context) : Opcode.Settles c := by
  have hidle : Opcode.Idle c = fun s => s.pending = .nothing := funext fun s => propext idle_iff
  refine ⟨fun s => ?_, fun position op s hs => ?_⟩
  · rw [hidle]
    exact resume_proceedsTo s
  · rw [hidle] at hs ⊢
    exact act_proceedsTo op hs

/-! ### Outside of tables -/

/-- No table was begun. -/
def State.NoTable (s : State) : Prop := s.table = none

theorem follow_keeps_noTable {space : AddressSpace} (image : Bytes) (e : Endian) {s : State}
    (hs : s.NoTable) :
    (follow space image e position s).Keeps State.NoTable fun _ _ => True := by
  fun_induction follow space image e position s with
  | case3 => exact ⟨trivial, fun _ => hs⟩
  | case4 => exact ⟨trivial, fun _ => hs⟩
  | case5 => exact ⟨trivial, fun h => by cases h⟩
  | case6 => exact hs
  | case7 s segment address slot hslot delta hbinds hdelta u r hr _ ih => exact ih hs
  | _ => trivial

theorem followInContext_keeps_noTable {s : State} (hs : s.NoTable) :
    (c.follow position s).Keeps State.NoTable fun _ _ => True := by
  unfold Context.follow
  cases c.image with
  | none => trivial
  | some found => exact follow_keeps_noTable found.1 found.2 hs

/-- Only one opcode begins a table. -/
theorem invariant_noTable (c : Context) {code : List (Nat × Op)}
    (h : ∀ position size, (position, .startTable size) ∉ code) :
    Opcode.Invariant c code State.NoTable fun _ _ => True where
  resume s hs := by
    show (resume c s).Keeps _ _
    unfold resume
    cases s.pending with
    | nothing => exact hs
    | run run => exact Run.next_keeps (fun _ _ => trivial) fun _ _ _ _ => hs
    | chain position => exact followInContext_keeps_noTable hs
  act position op hop s hs := by
    have hemit {delta : Nat} :
        (emitThenAdvance c.space (s.of none) (actionAt c.space position) delta
        position s.registers).Keeps State.NoTable fun _ _ => True :=
      emitThenAdvance_keeps (fun _ _ => trivial) fun _ _ _ => hs
    show (act c position op s).Keeps _ _
    cases op with
    | setOrdinal ordinal => exact hs
    | setSymbol symbol flags => exact hs
    | setKind kind => exact hs
    | setAddend addend => exact hs
    | setSegment index offset => exact Effect.ofUpdate_keeps fun _ _ _ => hs
    | advance delta => exact Effect.ofUpdate_keeps fun _ _ _ => hs
    | emit =>
      have htable : s.table = none := hs
      unfold act
      rw [htable]
      exact hemit
    | emitThenAdvance delta => exact hemit
    | emitThenAdvanceScaled count => exact hemit
    | emitTimesSkipping count skip =>
      exact Run.start_keeps (fun _ _ _ => trivial) (fun _ _ _ _ _ => hs) hs
    | startTable size => exact absurd hop (h position size)
    | followChain => exact followInContext_keeps_noTable hs

/-- The states that a run goes through, with the same table. -/
theorem State.resumed (s : State) (c : Context) :
    Run.Resumed c c.space s.of (actionAt c.space) where
  idle _ := idle_iff.2 rfl
  resume _ _ := rfl

/-- **An opcode may be replaced by those that it stands for.**  One that may add to a table instead
of emitting only stands for it where no table was begun. -/
theorem interchangeable_of_expandsTo {op : Op} {ops : List Op} {Inv : State → Prop}
    (h : op.ExpandsTo c.space.width limit ops)
    (hinv : .emit ∈ ops → ∀ s, Inv s → s.table = none) (position : Nat) (rest : List (Nat × Op)) :
    Opcode.Interchangeable c limit Inv ((position, op) :: rest)
      (ops.map (Prod.mk position) ++ rest) := by
  rintro st s rfl hst - - hidle hs
  -- Apart from its table, the registers are all that the state holds.
  obtain ⟨r, hr⟩ : ∃ r, s.of none r = s := by
    refine ⟨s.registers, ?_⟩
    rw [State.of, Option.elim_none, ← idle_iff.1 hidle]
  have hresumed := s.resumed st.context
  have hscaled (count : Nat) : Source.toList
      (st.withRest ((position, .emitThenAdvanceScaled count) :: rest) (s.of none r)) =
        Source.toList (st.withRest
          ((position, .emitThenAdvance (count * st.context.space.width.pointerSize)) :: rest)
            (s.of none r)) := by
    apply OpcodeStream.toList_withRest_congr
    rw [(hresumed.idle r).execute_cons, (hresumed.idle r).execute_cons]
    rfl
  have hsplit (delta : Nat) (hlimit : limit = none) (hnone : s.table = none) : Source.toList
      (st.withRest ((position, .emitThenAdvance delta) :: rest) (s.of none r)) =
        Source.toList (st.withRest ((position, .emit) :: (position, .advance delta) :: rest)
          (s.of none r)) := by
    have hboth : act st.context position (.emitThenAdvance delta) (s.of none r) =
        emitThenAdvance st.context.space (s.of none) (actionAt st.context.space position)
          (st.context.space.width.pointerSize + delta) position r := by
      rw [Nat.add_comm]
      rfl
    have hfirst : act st.context position .emit (s.of none r) =
        emitThenAdvance st.context.space (s.of none) (actionAt st.context.space position)
          st.context.space.width.pointerSize position r := by
      unfold act
      rw [show (s.of none r).table = none from hnone]
      rfl
    exact OpcodeStream.toList_split hresumed.idle hboth hfirst (fun _ => rfl) rfl
      (hst.trans hlimit) rest
  rw [← hr]
  cases h with
  | times count skip hfits =>
    rw [List.map_replicate]
    exact hresumed.toList_times hfits (fun _ => rfl) rfl rfl rest
  | scaled count => exact hscaled count
  | split delta hlimit => exact hsplit delta hlimit (hinv List.mem_cons_self s hs)
  | splitScaled count hlimit =>
    exact (hscaled count).trans (hsplit _ hlimit (hinv List.mem_cons_self s hs))

end Bind

/-! ### Rebase opcodes -/

namespace Rebase

/-- What an opcode stands for.  Where an action is told apart from the move behind it, there is no
limit on the number of actions. -/
inductive Op.ExpandsTo (width : Width) (limit : Option Nat) : Op → List Op → Prop
  | times (count : Nat) :
    ExpandsTo width limit (.emitTimes count) (List.replicate count (.emitThenAdvance 0))
  | timesSkipping (count skip : Nat) (hfits : skip + width.pointerSize < UInt64.size) :
    ExpandsTo width limit (.emitTimesSkipping count skip)
      (List.replicate count (.emitThenAdvance skip))
  | scaled (count : Nat) :
    ExpandsTo width limit (.advanceScaled count) [.advance (count * width.pointerSize)]
  | split (delta : Nat) (hlimit : limit = none) :
    ExpandsTo width limit (.emitThenAdvance delta) [.emitTimes 1, .advance delta]

variable {c : Context} {limit : Option Nat}

theorem resume_proceedsTo (s : State) : (resume c.space s).ProceedsTo fun s => s.run = none := by
  unfold resume
  cases hrun : s.run with
  | none => exact hrun
  | some run => exact emitThenAdvance_proceedsTo _

theorem act_proceedsTo (position : Nat) (op : Op) {s : State} (hs : s.run = none) :
    (act c.space position op s).ProceedsTo fun s => s.run = none := by
  cases op with
  | setKind kind => exact hs
  | setSegment index offset => exact Effect.ofUpdate_proceedsTo _ fun _ => rfl
  | advance delta => exact Effect.ofUpdate_proceedsTo _ fun _ => rfl
  | advanceScaled count => exact Effect.ofUpdate_proceedsTo _ fun _ => rfl
  | emitTimes count => exact Run.start_proceedsTo _ _ rfl
  | emitThenAdvance delta => exact emitThenAdvance_proceedsTo _
  | emitTimesSkipping count skip => exact Run.start_proceedsTo _ _ rfl

theorem idle_iff {s : State} : Opcode.Idle c s ↔ s.run = none := by
  constructor
  · intro h
    have hproceeds := resume_proceedsTo (c := c) s
    rwa [show resume c.space s = .proceed s from h] at hproceeds
  · intro h
    show resume c.space s = .proceed s
    rw [resume, h]

theorem settles (c : Context) : Opcode.Settles c := by
  have hidle : Opcode.Idle c = fun s => s.run = none := funext fun s => propext idle_iff
  refine ⟨fun s => ?_, fun position op s hs => ?_⟩
  · rw [hidle]
    exact resume_proceedsTo s
  · rw [hidle] at hs ⊢
    exact act_proceedsTo position op hs

theorem resumed (c : Context) : Run.Resumed c c.space State.of (actionAt c.space) where
  idle _ := idle_iff.2 rfl
  resume _ _ := rfl

/-- **An opcode may be replaced by those that it stands for.** -/
theorem interchangeable_of_expandsTo {op : Op} {ops : List Op} {Inv : State → Prop}
    (h : op.ExpandsTo c.space.width limit ops) (position : Nat) (rest : List (Nat × Op)) :
    Opcode.Interchangeable c limit Inv ((position, op) :: rest)
      (ops.map (Prod.mk position) ++ rest) := by
  rintro st s rfl hst - - hidle -
  obtain ⟨r, run⟩ := s
  obtain rfl : run = none := idle_iff.1 hidle
  have hresumed := resumed st.context
  have hslot : 0 + st.context.space.width.pointerSize < UInt64.size := by
    rw [Nat.zero_add]
    exact Width.pointerSize_lt _
  cases h with
  | times count =>
    rw [List.map_replicate]
    exact hresumed.toList_times hslot (fun _ => rfl) rfl rfl rest
  | timesSkipping count skip hfits =>
    rw [List.map_replicate]
    exact hresumed.toList_times hfits (fun _ => rfl) rfl rfl rest
  | scaled count =>
    apply OpcodeStream.toList_withRest_congr
    exact (hidle.execute_cons _ _ rest).trans (hidle.execute_cons _ _ rest).symm
  | split delta hlimit =>
    have hboth : act st.context.space position (.emitThenAdvance delta) ⟨r, none⟩ =
        emitThenAdvance st.context.space (State.of none) (actionAt st.context.space position)
          (0 + st.context.space.width.pointerSize + delta) position r := by
      rw [Nat.zero_add, Nat.add_comm]
      rfl
    have hfirst : act st.context.space position (.emitTimes 1) ⟨r, none⟩ =
        emitThenAdvance st.context.space (State.of none) (actionAt st.context.space position)
          (0 + st.context.space.width.pointerSize) position r :=
      Run.start_of_fits Nat.one_ne_zero hslot
    exact OpcodeStream.toList_split hresumed.idle hboth hfirst (fun _ => rfl) rfl
      (hst.trans hlimit) rest

end Rebase

/-! ### Streams -/

/-- **Opcodes agree with what they stand for.**  When an opcode of a stream is replaced by those
that it stands for, however they are written, the items of the stream remain the same but for
positions.  Where DONE is required, something has to be left of the stream, since a stream without
bytes needs no DONE. -/
theorem expansions_agree (limit : Option Nat) (front opcode expansion rest : Bytes) :
    (∀ (kind : Bind.StreamKind) (c : Bind.Context) (fs : List (Option Bind.Op)) (op : Bind.Op)
        (ops : List Bind.Op),
      Bind.opcodes.Spells fs front → (none ∈ fs → kind = .lazy) →
      (.emit ∈ ops → ∀ size, some (.startTable size) ∉ fs) →
      ReadM.ReadsBack Bind.Op.read (some op) opcode →
      Bind.opcodes.Spells (ops.map some) expansion → op.ExpandsTo c.space.width limit ops →
      (front ++ (expansion ++ rest) = [] → kind = .lazy) →
        (Source.toList (Bind.stream kind (front ++ (opcode ++ rest)) c limit)).map withoutPosition =
          (Source.toList (Bind.stream kind (front ++ (expansion ++ rest)) c limit)).map
            withoutPosition) ∧
    ∀ (space : AddressSpace) (fs : List (Option Rebase.Op)) (op : Rebase.Op) (ops : List Rebase.Op),
      Rebase.opcodes.Spells fs front → none ∉ fs →
      ReadM.ReadsBack Rebase.Op.read (some op) opcode →
      Rebase.opcodes.Spells (ops.map some) expansion → op.ExpandsTo space.width limit ops →
        (Source.toList (Rebase.stream (front ++ (opcode ++ rest)) space limit)).map
            withoutPosition =
          (Source.toList (Rebase.stream (front ++ (expansion ++ rest)) space limit)).map
            withoutPosition := by
  constructor
  · intro kind c fs op ops hfront hdone htable hop hexpansion h hempty
    have hlazy : none ∈ fs → kind.doneRule = .ignored := fun hmem => by rw [hdone hmem]; rfl
    have hrequired : kind.doneRule = .required → front ++ (expansion ++ rest) ≠ [] := by
      rintro hrule hnil
      rw [hempty hnil] at hrule
      cases hrule
    by_cases hemit : .emit ∈ ops
    · have hnone : ∀ position size, (position, Bind.Op.startTable size) ∉
          fs.reduceOption.map (Prod.mk 0) := by
        intro position size hmem
        obtain ⟨_, hmem, hop⟩ := List.mem_map.1 hmem
        cases hop
        exact htable hemit size (List.reduceOption_mem_iff.1 hmem)
      have hstart : Bind.State.NoTable ⟨kind.registers, none, .nothing⟩ := rfl
      exact OpcodeStream.toList_expansion Bind.portable_opcodes (Bind.forgets c) (Bind.settles c)
        rfl hstart hfront hlazy (Bind.invariant_noTable c hnone) hop hexpansion
        (Bind.interchangeable_of_expandsTo h (fun _ _ hs => hs) 0) hrequired
    · exact OpcodeStream.toList_expansion Bind.portable_opcodes (Bind.forgets c) (Bind.settles c)
        rfl trivial hfront hlazy (Opcode.invariant_true _ _) hop hexpansion
        (Bind.interchangeable_of_expandsTo h (fun hmem => absurd hmem hemit) 0) hrequired
  · intro space fs op ops hfront hdone hop hexpansion h
    exact OpcodeStream.toList_expansion Rebase.portable_opcodes (Rebase.forgets ⟨space⟩)
      (Rebase.settles ⟨space⟩) rfl trivial hfront (fun hmem => absurd hmem hdone)
      (Opcode.invariant_true _ _) hop hexpansion (Rebase.interchangeable_of_expandsTo h 0) nofun

/-- Two binds by one opcode or by two, of which the second one is at the end of the segment, and two
rebases of which the second one is outside. -/
theorem expansions_agree_example :
    let bindFront : Bytes := [0x11, 0x40, 95, 97, 0, 0x51, 0x70, 16]
    let bind := fun bytes => Source.toList
      (Bind.stream .normal (bindFront ++ (bytes ++ [0])) ⟨exampleSpace, none⟩ none)
    let rebase := fun bytes => Source.toList
      (Rebase.stream ([0x11, 0x20, 16] ++ (bytes ++ [0])) exampleSpace none)
    (bind [0xc0, 2, 0]).map withoutPosition = (bind [0xa0, 0, 0xa0, 0]).map withoutPosition ∧
      bind [0xc0, 2, 0] = [.ok ⟨0, 16, 0x1010, "_a", 1, .pointer, 0, 0, 8⟩,
        .ok ⟨0, 24, 0x1018, "_a", 1, .pointer, 0, 0, 8⟩] ∧
      (rebase [0x80, 2, 8]).map withoutPosition = (rebase [0x70, 8, 0x70, 8]).map withoutPosition ∧
      rebase [0x80, 2, 8] =
        [.ok ⟨0, 16, 0x1010, .pointer, 3⟩, .error (.slotOutOfBounds 3)] := by
  intro bindFront bind rebase
  have hbind := Bind.portable_opcodes
  have hrebase := Rebase.portable_opcodes
  have hordinal : ReadM.ReadsBack Bind.opcodes.read (some (.setOrdinal 1)) [0x11] :=
    hbind.readsBack rfl
  have hsymbol : ReadM.ReadsBack Bind.opcodes.read (some (.setSymbol "_a" 0)) [0x40, 95, 97, 0] :=
    hbind.readsBack rfl
  have hkind : ReadM.ReadsBack Bind.opcodes.read (some (.setKind .pointer)) [0x51] :=
    hbind.readsBack rfl
  have hsegment : ReadM.ReadsBack Bind.opcodes.read (some (.setSegment 0 16)) [0x70, 16] :=
    hbind.readsBack rfl
  have hemit : ReadM.ReadsBack Bind.opcodes.read (some (.emitThenAdvance 0)) [0xa0, 0] :=
    hbind.readsBack rfl
  have hkind' : ReadM.ReadsBack Rebase.opcodes.read (some (.setKind .pointer)) [0x11] :=
    hrebase.readsBack rfl
  have hsegment' : ReadM.ReadsBack Rebase.opcodes.read (some (.setSegment 0 16)) [0x20, 16] :=
    hrebase.readsBack rfl
  have hemit' : ReadM.ReadsBack Rebase.opcodes.read (some (.emitThenAdvance 8)) [0x70, 8] :=
    hrebase.readsBack rfl
  have hfront := (((OpcodeSet.Spells.singleton hsegment).cons hkind).cons hsymbol).cons hordinal
  have hfront' := (OpcodeSet.Spells.singleton hsegment').cons hkind'
  refine ⟨?_, by decide +kernel, ?_, by decide +kernel⟩
  · exact (expansions_agree none bindFront [0xc0, 2, 0] [0xa0, 0, 0xa0, 0] [0]).1 .normal
      ⟨exampleSpace, none⟩ _ (.emitTimesSkipping 2 0) [.emitThenAdvance 0, .emitThenAdvance 0]
      hfront (by simp) (by simp) (hbind.readsBack rfl)
      ((OpcodeSet.Spells.singleton hemit).cons hemit) (.times 2 0 (by decide)) nofun
  · exact (expansions_agree none [0x11, 0x20, 16] [0x80, 2, 8] [0x70, 8, 0x70, 8] [0]).2
      exampleSpace _ (.emitTimesSkipping 2 8) [.emitThenAdvance 8, .emitThenAdvance 8] hfront'
      (by simp) (hrebase.readsBack rfl)
      ((OpcodeSet.Spells.singleton hemit').cons hemit') (.timesSkipping 2 8 (by decide))

/-- Where DONE is required, nothing is left in place of an opcode without an action if there is
nothing else in the stream, and a stream without bytes does not fail. -/
theorem expansion_to_nothing_differs :
    let bind := fun kind bytes => Source.toList
      (Bind.stream kind bytes ⟨exampleSpace, none⟩ none)
    ReadM.ReadsBack Bind.Op.read (some (.emitTimesSkipping 0 0)) [0xc0, 0, 0] ∧
      bind .normal [0xc0, 0, 0] = [.error (.missingDone 3)] ∧
      bind .weak [0xc0, 0, 0] = [.error (.missingDone 3)] ∧
      bind .normal (List.replicate 0 [0xa0, 0]).flatten = [] ∧
      bind .weak (List.replicate 0 [0xa0, 0]).flatten = [] := by
  refine ⟨Bind.portable_opcodes.readsBack rfl, ?_⟩
  decide +kernel

end MachO
