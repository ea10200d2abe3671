import MachO.Bind.Stream
import MachO.Proofs.AddressSpace.Resolve
import MachO.Proofs.Opcode.Invariant

/-!
# The actions of bind streams

* `Bind.Action.Sound`: what holds of every action;
* `Bind.Op.Sound`, `Bind.State.Sound`: what is known of opcodes and states on the way;
* `Bind.follow_keeps`: chains of slots;
* `Bind.invariant`: all this is kept by all opcodes of a stream.
-/

namespace MachO.Bind

/-- A symbol is not empty, and has no zero byte. -/
def IsName (symbol : String) : Prop := symbol ≠ "" ∧ 0 ∉ Text.Utf8.encode symbol

/-- The opcodes that emit at the current slot. -/
def EmitsAt (bytes : Bytes) (position : Nat) : Prop := bytes.HoldsOpcode position [9, 10, 11, 12]

/-- The opcode that follows a chain. -/
def FollowsAt (bytes : Bytes) (position : Nat) : Prop := bytes[position]? = some 0xd1

/-- The action binds a place in a segment to a symbol with a name and an ordinal, and one of the
opcodes that emit has its position.  Only chains hold pointers with an authentication code. -/
structure Action.Sound (space : AddressSpace) (bytes : Bytes) (a : Action) : Prop where
  slot : space.IsSlot a.segment a.offset a.address
  symbol : IsName a.symbol
  ordinal : -3 ≤ a.ordinal
  authenticated : a.kind = .authenticated → FollowsAt bytes a.position
  opcode : EmitsAt bytes a.position ∨ FollowsAt bytes a.position

/-- An opcode sets registers to what an action may have, and if it emits, its position holds its
byte. -/
def Op.Sound (bytes : Bytes) (position : Nat) : Op → Prop
  | .setOrdinal ordinal => -3 ≤ ordinal
  | .setSymbol symbol _ => IsName symbol
  | .setKind kind => kind ≠ .authenticated
  | .emit | .emitThenAdvance _ | .emitThenAdvanceScaled _ | .emitTimesSkipping _ _ =>
    EmitsAt bytes position
  | .followChain => FollowsAt bytes position
  | _ => True

/-- The registers hold what an action outside of chains may have. -/
structure RegistersSound (r : Registers) : Prop where
  ordinal : ∀ ordinal ∈ r.ordinal, -3 ≤ ordinal
  symbol : ∀ symbol ∈ r.symbol, IsName symbol
  kind : r.kind ≠ some .authenticated

/-- A symbol of the table is one that an action may have. -/
structure Entry.Sound (entry : Entry) : Prop where
  symbol : IsName entry.symbol
  ordinal : -3 ≤ entry.ordinal

/-- A suspended opcode is one that emits. -/
def Pending.Sound (bytes : Bytes) : Pending → Prop
  | .nothing => True
  | .run rest => EmitsAt bytes rest.position
  | .chain position => FollowsAt bytes position

/-- All that an action may be made of is sound. -/
structure State.Sound (bytes : Bytes) (s : State) : Prop where
  registers : RegistersSound s.registers
  entries : ∀ entry ∈ s.entries, entry.Sound
  pending : s.pending.Sound bytes

variable {space : AddressSpace} {bytes : Bytes} {position : Nat}

/-! ### Opcodes -/

theorem specialOrdinal?_ge {imm : Nat} {ordinal : Int} (h : specialOrdinal? imm = some ordinal) :
    -3 ≤ ordinal := by
  unfold specialOrdinal? at h
  split at h
  · cases h
    decide
  · split at h
    · cases h
      omega
    · cases h

theorem ofImmediate?_ne {imm : UInt8} {kind : WriteKind}
    (h : WriteKind.ofImmediate? imm = some kind) : kind ≠ .authenticated := by
  rintro rfl
  unfold WriteKind.ofImmediate? at h
  repeat' split at h
  all_goals cases h

/-- The opcode that follows a chain has one byte only. -/
theorem eq_of_nibbles {byte : UInt8} (hhigh : byte.toNat / 16 = 0xd) (hlow : byte &&& 0xf = 1) :
    byte = 0xd1 := by
  have hmod : byte.toNat % 16 = 1 := by
    have htoNat : byte.toNat &&& 15 = 1 := congrArg UInt8.toNat hlow
    exact (Nat.and_two_pow_sub_one_eq_mod byte.toNat 4).symm.trans htoNat
  apply UInt8.toNat_inj.1
  show byte.toNat = 209
  omega

theorem Op.sound_of_read {op : Op} {c : Cursor}
    (h : Op.read (Cursor.of bytes position) = .ok (some op) c) : op.Sound bytes position := by
  obtain ⟨byte, c₁, hbyte, h⟩ := ReadM.operands_of_read h
  have hemits (hnibble : byte.toNat / 16 ∈ [9, 10, 11, 12]) : EmitsAt bytes position :=
    ⟨byte, hbyte, hnibble⟩
  generalize hr : Op.operands position byte = r at h
  unfold Op.operands at hr
  dsimp only at hr
  -- One case for each opcode, in their order.
  split at hr
  all_goals
    rename_i hnibble
    subst hr
  · cases h
  · cases h
    show -3 ≤ (_ : Int)
    omega
  · obtain ⟨ordinal, _, -, h⟩ := ReadM.bind_eq_ok_iff.1 h
    split at h <;> cases h
    show -3 ≤ (_ : Int)
    omega
  · cases hordinal : specialOrdinal? (byte &&& 15).toNat <;> rw [hordinal] at h <;> cases h
    exact specialOrdinal?_ge hordinal
  · obtain ⟨symbol, _, hsymbol, h⟩ := ReadM.bind_eq_ok_iff.1 h
    obtain ⟨_, ⟨hzero, -⟩, -, -⟩ := (ReadM.reads_string _ _ _).1 hsymbol
    split at h
    · cases h
    · rename_i hempty
      cases h
      refine ⟨?_, hzero⟩
      rintro rfl
      exact hempty rfl
  · cases hkind : WriteKind.ofImmediate? (byte &&& 15) <;> rw [hkind] at h <;> cases h
    exact ofImmediate?_ne hkind
  · obtain ⟨addend, _, -, h⟩ := ReadM.bind_eq_ok_iff.1 h
    cases h
    trivial
  · obtain ⟨offset, _, -, h⟩ := ReadM.bind_eq_ok_iff.1 h
    cases h
    trivial
  · obtain ⟨delta, _, -, h⟩ := ReadM.bind_eq_ok_iff.1 h
    cases h
    trivial
  · cases h
    exact hemits (by simp [hnibble])
  · obtain ⟨delta, _, -, h⟩ := ReadM.bind_eq_ok_iff.1 h
    cases h
    exact hemits (by simp [hnibble])
  · cases h
    exact hemits (by simp [hnibble])
  · obtain ⟨count, _, -, h⟩ := ReadM.bind_eq_ok_iff.1 h
    obtain ⟨skip, _, -, h⟩ := ReadM.bind_eq_ok_iff.1 h
    cases h
    exact hemits (by simp [hnibble])
  · by_cases hzero : byte &&& 15 = 0
    · rw [if_pos hzero] at h
      obtain ⟨size, _, -, h⟩ := ReadM.bind_eq_ok_iff.1 h
      cases h
      trivial
    · by_cases hone : byte &&& 15 = 1
      · rw [if_neg hzero, if_pos hone] at h
        cases h
        show FollowsAt bytes position
        rw [FollowsAt, hbyte, eq_of_nibbles hnibble hone]
      · rw [if_neg hzero, if_neg hone] at h
        cases h
  · cases h

/-! ### States -/

theorem RegistersSound.of_sameSettings {r r' : Registers} (hr : RegistersSound r)
    (h : r.SameSettings r') : RegistersSound r' where
  ordinal := by
    rw [h.ordinal]
    exact hr.ordinal
  symbol := by
    rw [h.symbol]
    exact hr.symbol
  kind := by
    rw [h.kind]
    exact hr.kind

theorem State.Sound.of {s : State} (h : s.Sound bytes) {run : Option Run} {r : Registers}
    (hrun : ∀ rest ∈ run, EmitsAt bytes rest.position) (hr : RegistersSound r) :
    (s.of run r).Sound bytes where
  registers := hr
  entries := h.entries
  pending := by
    cases run with
    | none => trivial
    | some rest => exact hrun rest rfl

theorem State.Sound.of_tail? {s : State} (h : s.Sound bytes) {run : Run}
    (hposition : EmitsAt bytes run.position) {r : Registers} (hr : RegistersSound r) :
    (s.of run.tail? r).Sound bytes := by
  refine h.of (fun rest htail => ?_) hr
  rw [Run.tail?_position htail]
  exact hposition

theorem sound_of_actionAt (hapart : space.footprints.Pairwise Footprint.Apart)
    (hposition : EmitsAt bytes position) {r : Registers} (hr : RegistersSound r) {a : Action}
    (h : actionAt space position r = .ok a) : a.Sound space bytes := by
  unfold actionAt at h
  cases hordinal : r.ordinal with
  | none =>
    rw [hordinal] at h
    cases h
  | some ordinal =>
    rw [hordinal] at h
    obtain ⟨⟨segment, address⟩, htarget, h⟩ := bind_eq_ok.1 h
    obtain ⟨kind, hkind, h⟩ := bind_eq_ok.1 h
    cases hsymbol : r.symbol with
    | none =>
      rw [hsymbol] at h
      cases h
    | some symbol =>
      rw [hsymbol] at h
      cases h
      refine ⟨Registers.isSlot_of_target hapart htarget, hr.symbol symbol hsymbol,
        hr.ordinal ordinal hordinal, ?_, .inl hposition⟩
      rintro rfl
      exact absurd (Registers.writeKind_eq_ok_iff.1 hkind) hr.kind

theorem sound_of_entryAt {r : Registers} (hr : RegistersSound r) {entry : Entry}
    (h : entryAt position r = .ok entry) : entry.Sound := by
  unfold entryAt at h
  cases hsymbol : r.symbol with
  | none =>
    rw [hsymbol] at h
    cases h
  | some symbol =>
    cases hordinal : r.ordinal with
    | none =>
      rw [hsymbol, hordinal] at h
      cases h
    | some ordinal =>
      rw [hsymbol, hordinal] at h
      cases h
      exact ⟨hr.symbol symbol hsymbol, hr.ordinal ordinal hordinal⟩

/-! ### Chains -/

theorem target_of_slotAt {image : Bytes} {e : Endian} {r : Registers} {segment address : Nat}
    {slot : Slot} (h : slotAt space image e position r = .ok (segment, address, slot)) :
    r.target space position = .ok (segment, address) := by
  unfold slotAt at h
  obtain ⟨⟨segment', address'⟩, htarget, h⟩ := bind_eq_ok.1 h
  dsimp only at h
  split at h
  · cases h
  · obtain ⟨word, -, h⟩ := bind_eq_ok.1 h
    cases h
    exact htarget

/-- Along a chain, every action is made of the current place and of a symbol of the table. -/
theorem follow_keeps (hapart : space.footprints.Pairwise Footprint.Apart) (image : Bytes)
    (e : Endian) (hposition : FollowsAt bytes position) {s : State} (hs : s.Sound bytes) :
    (follow space image e position s).Keeps (State.Sound bytes)
      (fun a _ => a.Sound space bytes) := by
  have hadvance {delta : Nat} {s : State} {r : Registers} {u : Unit} (hs : s.Sound bytes)
      (h : Registers.advance space delta position s.registers = .ok u r) : RegistersSound r :=
    hs.registers.of_sameSettings (Registers.sameSettings_of_advance h)
  have hended {s : State} {r : Registers} (hs : s.Sound bytes) (hr : RegistersSound r) :
      State.Sound bytes { s with registers := r, pending := .nothing } :=
    ⟨hr, hs.entries, trivial⟩
  have haction {s : State} (hs : s.Sound bytes) {segment address : Nat} {slot : Slot}
      (hslot : slotAt space image e position s.registers = .ok (segment, address, slot))
      {entry : Entry} (hentry : s.entries[slot.index]? = some entry) :
      Action.Sound space bytes
        { segment, offset := s.registers.offset, address, symbol := entry.symbol
          ordinal := entry.ordinal, kind := slot.kind, addend := entry.addend
          flags := entry.flags, position } := by
    have hsound := hs.entries entry (Array.mem_of_getElem? hentry)
    exact ⟨Registers.isSlot_of_target hapart (target_of_slotAt hslot), hsound.symbol,
      hsound.ordinal, fun _ => hposition, .inr hposition⟩
  fun_induction follow space image e position s with
  | case1 => trivial
  | case2 => trivial
  | case3 s segment address slot hslot ended delta hbinds entry hentry action hlast =>
    exact ⟨haction hs hslot hentry, fun _ => hended hs hs.registers⟩
  | case4 s segment address slot hslot delta hbinds entry hentry action hdelta _ r hr =>
    exact ⟨haction hs hslot hentry, fun _ => ⟨hadvance hs hr, hs.entries, hposition⟩⟩
  | case5 s segment address slot hslot ended delta hbinds entry hentry action hdelta error r hr =>
    refine ⟨haction hs hslot hentry, fun hlate => ?_⟩
    cases hlate
  | case6 s segment address slot hslot ended delta hbinds hlast => exact hended hs hs.registers
  | case7 s segment address slot hslot delta hbinds hdelta _ r hr _ ih =>
    exact ih ⟨hadvance hs hr, hs.entries, hs.pending⟩
  | case8 => trivial

theorem followInContext_keeps (hapart : space.footprints.Pairwise Footprint.Apart)
    (image : Option (Bytes × Endian)) (hposition : FollowsAt bytes position) {s : State}
    (hs : s.Sound bytes) :
    (Context.follow ⟨space, image⟩ position s).Keeps (State.Sound bytes)
      (fun a _ => a.Sound space bytes) := by
  cases image with
  | none => trivial
  | some found => exact follow_keeps hapart found.1 found.2 hposition hs

/-! ### Streams -/

theorem resume_keeps (hapart : space.footprints.Pairwise Footprint.Apart)
    (image : Option (Bytes × Endian)) {s : State} (hs : s.Sound bytes) :
    (resume ⟨space, image⟩ s).Keeps (State.Sound bytes) (fun a _ => a.Sound space bytes) := by
  unfold resume
  have hpending := hs.pending
  cases hrest : s.pending with
  | nothing => exact hs
  | run run =>
    rw [hrest] at hpending
    exact Run.next_keeps (fun a ha => sound_of_actionAt hapart hpending hs.registers ha)
      fun delta u r' hr' => hs.of_tail? hpending
        (hs.registers.of_sameSettings (Registers.sameSettings_of_advance hr'))
  | chain position =>
    rw [hrest] at hpending
    exact followInContext_keeps hapart image hpending hs

theorem act_keeps (hapart : space.footprints.Pairwise Footprint.Apart)
    (image : Option (Bytes × Endian)) {op : Op} (hop : op.Sound bytes position) {s : State}
    (hs : s.Sound bytes) :
    (act ⟨space, image⟩ position op s).Keeps (State.Sound bytes)
      (fun a _ => a.Sound space bytes) := by
  have hof {r' : Registers} (h : s.registers.SameSettings r') : (s.of none r').Sound bytes :=
    hs.of nofun (hs.registers.of_sameSettings h)
  have hemit (hposition : EmitsAt bytes position) (delta : Nat) :
      (emitThenAdvance space (s.of none) (actionAt space position) delta position
        s.registers).Keeps (State.Sound bytes) (fun a _ => a.Sound space bytes) :=
    emitThenAdvance_keeps (fun a ha => sound_of_actionAt hapart hposition hs.registers ha)
      fun u r' hr' => hof (Registers.sameSettings_of_advance hr')
  have ⟨⟨hordinal, hsymbol, hkind⟩, hentries, hpending⟩ := hs
  cases op with
  | setOrdinal ordinal =>
    refine ⟨⟨?_, hsymbol, hkind⟩, hentries, hpending⟩
    rintro _ ⟨⟩
    exact hop
  | setSymbol symbol flags =>
    refine ⟨⟨hordinal, ?_, hkind⟩, hentries, hpending⟩
    rintro _ ⟨⟩
    exact hop
  | setKind kind =>
    refine ⟨⟨hordinal, hsymbol, ?_⟩, hentries, hpending⟩
    rintro ⟨⟩
    exact hop rfl
  | setAddend addend => exact ⟨⟨hordinal, hsymbol, hkind⟩, hentries, hpending⟩
  | setSegment index offset =>
    exact Effect.ofUpdate_keeps fun u r' hr' => hof (Registers.sameSettings_of_setSegment hr')
  | advance delta =>
    exact Effect.ofUpdate_keeps fun u r' hr' => hof (Registers.sameSettings_of_advance hr')
  | emit =>
    unfold act
    dsimp only
    cases htable : s.table with
    | none => exact hemit hop _
    | some table =>
      dsimp only
      cases hentry : entryAt position s.registers with
      | error e => trivial
      | ok entry =>
        refine ⟨⟨hordinal, hsymbol, hkind⟩, ?_, hpending⟩
        -- The table grows by the entry of the registers.
        intro entry' hmem
        rcases Array.mem_push.1 hmem with hmem | rfl
        · refine hentries entry' ?_
          rw [State.entries, htable]
          exact hmem
        · exact sound_of_entryAt ⟨hordinal, hsymbol, hkind⟩ hentry
  | emitThenAdvance delta => exact hemit hop _
  | emitThenAdvanceScaled count => exact hemit hop _
  | emitTimesSkipping count skip =>
    have hposition : EmitsAt bytes (Run.position ⟨count, skip, position⟩) := hop
    exact Run.start_keeps (fun _ a ha => sound_of_actionAt hapart hop hs.registers ha)
      (fun _ delta u r' hr' => hs.of_tail? hposition
        (hs.registers.of_sameSettings (Registers.sameSettings_of_advance hr')))
      (hof ⟨rfl, rfl, rfl⟩)
  | startTable size => exact ⟨⟨hordinal, hsymbol, hkind⟩, nofun, hpending⟩
  | followChain =>
    exact followInContext_keeps hapart image hop ⟨⟨hordinal, hsymbol, hkind⟩, hentries, hop⟩

/-- **All opcodes of a bind stream emit sound actions.** -/
theorem invariant (hapart : space.footprints.Pairwise Footprint.Apart)
    (image : Option (Bytes × Endian)) (rule : DoneRule) :
    Opcode.Invariant (⟨space, image⟩ : Context) (Program.ofBytes opcodes rule bytes).code
      (State.Sound bytes) (fun a _ => a.Sound space bytes) where
  resume s hs := resume_keeps hapart image hs
  act position op hop s hs := by
    obtain ⟨c, hread⟩ := Program.exists_read_of_mem hop
    exact act_keeps hapart image (Op.sound_of_read hread) hs

theorem StreamKind.registersSound (kind : StreamKind) : RegistersSound kind.registers := by
  -- Only a weak stream begins with an ordinal.
  cases kind <;> refine ⟨?_, nofun, nofun⟩
  · exact nofun
  · exact nofun
  · rintro _ ⟨⟩
    decide

/-- All actions of a bind stream are sound. -/
theorem sound_of_mem_toList (hapart : space.footprints.Pairwise Footprint.Apart) {kind : StreamKind}
    {image : Option (Bytes × Endian)} {limit : Option Nat} {a : Action}
    (ha : .ok a ∈ Source.toList (stream kind bytes ⟨space, image⟩ limit)) : a.Sound space bytes :=
  OpcodeStream.forall_ok_mem_toList _ (invariant hapart image kind.doneRule)
    (fun _ => ⟨kind.registersSound, nofun, trivial⟩) a ha

end MachO.Bind
