import MachO.Proofs.Bind.Links
import MachO.Proofs.Bind.Records

/-!
# Writing bind streams that follow a chain

Such a stream first lists the symbols that the slots of the chain name by their index.

* `Bind.Entry.Valid`: the entries of the table that can be written;
* `Bind.Entry.write`, `Bind.chainProgram`: the opcodes of one entry, and of a table and a chain;
* `Bind.Entry.Valid.interpret_write`: one entry is put behind those that the table has;
* `Bind.toList_stream_chainProgram`: what is read from such a stream are the slots of the chain that
  bind, each with its entry of the table.
-/

namespace MachO

namespace Bind

open MachO.Eager (interpret interpret_of_readsBack)

namespace Entry

/-- What can be written of an entry. -/
structure Valid (entry : Entry) : Prop where
  symbol : IsName entry.symbol
  flags_lt : entry.flags.toNat < 16
  ordinal_ge : -3 ≤ entry.ordinal
  ordinal_lt : entry.ordinal < 2 ^ 63
  addend_ge : -2 ^ 63 ≤ entry.addend
  addend_lt : entry.addend < 2 ^ 63

/-- A bind of the entry.  The table has neither its place nor its kind. -/
def record (entry : Entry) : Record where
  segment := 0
  offset := 0
  symbol := entry.symbol
  flags := entry.flags
  ordinal := entry.ordinal
  addend := entry.addend
  kind := .pointer

/-- The opcodes that set what an entry is made of. -/
def settings (entry : Entry) : Bytes :=
  entry.record.ordinalOpcode ++ entry.record.symbolOpcode ++
    (opcodeByte 6 0 :: Leb128.ofInt entry.addend)

/-- The registers behind the opcodes that set what an entry is made of. -/
def registers (entry : Entry) (r : Registers) : Registers :=
  { r with
    ordinal := some entry.ordinal
    symbol := some entry.symbol
    symbolFlags := entry.flags
    addend := entry.addend }

/-- The opcodes that put an entry into the table. -/
def write (entry : Entry) : Bytes := entry.settings ++ [opcodeByte 9 0]

section Interpret

variable {entry : Entry} (c : Context) (rule : DoneRule) (position : Nat) (rest : Bytes)
  (r : Registers)

/-- The opcodes that set what an entry is made of keep the other registers. -/
theorem Valid.interpret_settings (h : entry.Valid) (table : Option (Array Entry)) :
    interpret opcodes rule (Eager.denote c) ⟨position, entry.settings ++ rest⟩ ⟨r, table⟩ =
      interpret opcodes rule (Eager.denote c) ⟨position + entry.settings.length, rest⟩
        ⟨entry.registers r, table⟩ := by
  have hordinal :=
    (Record.ordinalOpcode_written (r := entry.record) h.ordinal_ge h.ordinal_lt).readsBack
  have hsymbol := (Op.Written.symbol h.flags_lt h.symbol).readsBack
  have haddend := (Op.Written.addend (Leb128.signed_ofInt h.addend_ge h.addend_lt)).readsBack
  unfold settings Record.symbolOpcode
  simp only [List.append_assoc, List.length_append, ← Nat.add_assoc]
  refine (interpret_of_readsBack hordinal _ _ _).trans ?_
  refine (interpret_of_readsBack hsymbol _ _ _).trans ?_
  exact (interpret_of_readsBack haddend _ _ _).trans rfl

/-- One entry is put behind those that the table has. -/
theorem Valid.interpret_write (h : entry.Valid) (table : Array Entry) :
    interpret opcodes rule (Eager.denote c) ⟨position, entry.write ++ rest⟩ ⟨r, some table⟩ =
      interpret opcodes rule (Eager.denote c) ⟨position + entry.write.length, rest⟩
        ⟨entry.registers r, some (table.push entry)⟩ := by
  rw [write, List.append_assoc, h.interpret_settings, List.length_append,
    interpret_of_readsBack Op.Written.emit.readsBack, ← Nat.add_assoc]
  rfl

/-- Entries that are written one behind the other make the table. -/
theorem interpret_flatMap_write {entries : List Entry} (h : ∀ entry ∈ entries, entry.Valid)
    (table : List Entry) :
    ∃ r', interpret opcodes rule (Eager.denote c) ⟨position, entries.flatMap write ++ rest⟩
        ⟨r, some table.toArray⟩ =
      interpret opcodes rule (Eager.denote c)
        ⟨position + (entries.flatMap write).length, rest⟩ ⟨r', some (table ++ entries).toArray⟩ := by
  induction entries generalizing position r table with
  | nil => exact ⟨r, by rw [List.append_nil]; rfl⟩
  | cons entry entries ih =>
    rw [List.forall_mem_cons] at h
    obtain ⟨r', hmore⟩ :=
      ih (position + entry.write.length) (entry.registers r) h.2 (table ++ [entry])
    refine ⟨r', ?_⟩
    rw [List.flatMap_cons, List.append_assoc, h.1.interpret_write, List.push_toArray, hmore,
      List.length_append, Nat.add_assoc, List.append_assoc, List.singleton_append]

end Interpret

end Entry

/-- The opcodes that begin and fill a table and set the place of the first slot. -/
def chainSettings (entries : List Entry) (index : UInt8) (offset : Nat) : Bytes :=
  (opcodeByte 13 0 :: Leb128.ofNat entries.length) ++ entries.flatMap Entry.write ++
    (opcodeByte 7 index :: Leb128.ofNat offset)

/-- The opcodes of a table and a chain, with DONE behind them. -/
def chainProgram (entries : List Entry) (index : UInt8) (offset : Nat) : Bytes :=
  chainSettings entries index offset ++ [opcodeByte 13 1] ++ [0]

section Build

variable {width : Width} {imageSize : Nat} {commands : List SegmentCommand} {space : AddressSpace}
  {entries : List Entry} {index : UInt8} {s : Segment}
  (h : AddressSpace.build width imageSize commands = .ok space)
  (hentries : ∀ entry ∈ entries, entry.Valid) (hcount : entries.length ≤ UInt16.size)
  (hindex : index.toNat < 16) (hs : space.segments[index.toNat]? = some s)
include h hentries hcount hindex hs

/-- The table is filled and the place of the first slot is set, whatever the registers were. -/
theorem interpret_chainSettings {offset : Nat} (hoffset : offset < s.memory.size)
    (image : Option (Bytes × Endian)) (rule : DoneRule) (rest : Bytes) (m : Machine) :
    ∃ r : Registers, r.segment = some index.toNat ∧ r.offset = offset ∧
      interpret opcodes rule (Eager.denote ⟨space, image⟩)
          ⟨0, chainSettings entries index offset ++ rest⟩ m =
        interpret opcodes rule (Eager.denote ⟨space, image⟩)
          ⟨(chainSettings entries index offset).length, rest⟩ ⟨r, some entries.toArray⟩ := by
  have hempty : ¬s.memory.IsEmpty := ByteRange.not_isEmpty_of_pos (by omega)
  have hroom := AddressSpace.room_of_build h hs hempty (Nat.le_of_lt hoffset)
  have hsize : entries.length < 2 ^ 64 := by
    unfold UInt16.size at hcount
    omega
  have hstart := (Op.Written.startTable (Leb128.unsigned_ofNat hsize)).readsBack
  have hsegment := (Op.Written.segment hindex (Leb128.unsigned_ofNat hroom.1)).readsBack
  obtain ⟨r, hfill⟩ := Entry.interpret_flatMap_write ⟨space, image⟩ rule
    (0 + (opcodeByte 13 0 :: Leb128.ofNat entries.length).length)
    ((opcodeByte 7 index :: Leb128.ofNat offset) ++ rest) m.registers hentries []
  refine ⟨{ r with segment := some index.toNat, offset }, rfl, rfl, ?_⟩
  unfold chainSettings
  simp only [List.append_assoc, List.length_append, ← Nat.add_assoc]
  refine (interpret_of_readsBack hstart _ _ _).trans ?_
  refine Eq.trans hfill ?_
  refine (interpret_of_readsBack hsegment _ _ _).trans ?_
  unfold Eager.denote
  dsimp only
  rw [Outcome.ofUpdate_of_ok (Registers.setSegment_inside h hs hempty (Nat.le_of_lt hoffset) _ _),
    Nat.zero_add]
  rfl

/-- **The slots of a chain are read from a stream that follows it**: those that bind, in the order
of the chain, each with its address and its entry of the table, and without a failure.  The slots are
written where their addresses have their bytes (`AddressSpace.fileOffset_of_filled`). -/
theorem toList_stream_chainProgram (hsections : s.sections = [])
    (hfilled : s.file.size = s.memory.size) {first : Link entries.length}
    {rest : List (Link entries.length)} (hchain : (first :: rest).IsChain Link.Precedes)
    (hfit : ∀ l ∈ first :: rest, l.offset + 8 ≤ s.memory.size) {image : Bytes}
    (himage : image.length = imageSize) (e : Endian) (kind : StreamKind) :
    Source.toList
        (stream kind (chainProgram entries index first.offset)
          ⟨space, some (writeLinks e s.file.start (first :: rest) image, e)⟩ none) =
      ((first :: rest).filterMap
        (Link.action? index.toNat s.memory.start
          (chainSettings entries index first.offset).length)).map .ok := by
  let written := writeLinks e s.file.start (first :: rest) image
  let position := (chainSettings entries index first.offset).length
  have hfile := (AddressSpace.file_stop_le_of_build h (List.mem_of_getElem? hs)).1
  have hholds : Holds e s.file.start written (first :: rest) := by
    refine holds_writeLinks hchain fun l hl => ?_
    have hslot := hfit l hl
    unfold ByteRange.stop at hfile
    omega
  have hfirst : first.offset < s.memory.size := by
    have hslot := hfit first List.mem_cons_self
    omega
  obtain ⟨r, hsegment, hoffset, hsettings⟩ := interpret_chainSettings h hentries hcount hindex hs
    hfirst (some (written, e)) kind.doneRule ([opcodeByte 13 1] ++ [0]) ⟨kind.registers, none⟩
  obtain ⟨r', hfollow⟩ :
      ∃ r', Eager.chain space written e entries.toArray position r =
        ⟨(first :: rest).filterMap (Link.action? index.toNat s.memory.start position), .ok r'⟩ :=
    chain_of_holds h hs hsections hfilled hcount hchain hfit hholds hsegment
      (congrArg some hoffset.symm)
  have hdenote : Eager.denote ⟨space, some (written, e)⟩ position .followChain
      ⟨r, some entries.toArray⟩ =
        ⟨(first :: rest).filterMap (Link.action? index.toNat s.memory.start position),
          .ok ⟨r', some entries.toArray⟩⟩ := by
    show (fun r => (⟨r, some entries.toArray⟩ : Machine)) <$>
      Eager.chain space written e entries.toArray position r = _
    rw [hfollow, Outcome.map_ok]
  rw [OpcodeStream.toList_eq_items _ rfl rfl rfl, outcome_stream]
  show (interpret opcodes kind.doneRule (Eager.denote ⟨space, some (written, e)⟩)
    ⟨0, chainProgram entries index first.offset⟩ ⟨kind.registers, none⟩).items = _
  rw [chainProgram, List.append_assoc, hsettings,
    interpret_of_readsBack Op.Written.followChain.readsBack, hdenote, Outcome.items_bind_ok,
    interpret_done]
  exact List.append_nil _

end Build

/-- A chain of three slots: the second symbol, a pointer that is moved with the image, and the first
symbol with an authentication code. -/
theorem toList_stream_chainProgram_three :
    let entries : List Entry := [⟨"_a", 1, 0, 0⟩, ⟨"_b", -2, 1, -8⟩]
    let first : Link 2 := ⟨0, .bind 1 5 false⟩
    let rest : List (Link 2) := [⟨8, .rebase 0x1234 true⟩, ⟨24, .bind 0 0 true⟩]
    let image := Endian.big.long 0 ++ Endian.big.long 0 ++ Endian.big.long 0 ++ Endian.big.long 0
    AddressSpace.build .bits64 32 [exampleCommand] = .ok exampleSpace ∧
      (∀ entry ∈ entries, entry.Valid) ∧ (first :: rest).IsChain Link.Precedes ∧
      (∀ l ∈ first :: rest, l.offset + 8 ≤ 32) ∧ image.length = 32 ∧
      Source.toList
          (stream .normal (chainProgram entries 0 0)
            ⟨exampleSpace, some (writeLinks .big 0 (first :: rest) image, .big)⟩ none) =
        [.ok ⟨0, 0, 0x1000, "_b", -2, .pointer, -8, 1, 21⟩,
          .ok ⟨0, 24, 0x1018, "_a", 1, .authenticated, 0, 0, 21⟩] := by
  intro entries first rest image
  have hbuild : AddressSpace.build .bits64 32 [exampleCommand] = .ok exampleSpace := rfl
  have hentries : ∀ entry ∈ entries, entry.Valid := by
    intro entry hentry
    rcases List.mem_pair.1 hentry with rfl | rfl
    · exact ⟨⟨by decide, by decide⟩, by decide, by decide, by decide, by decide, by decide⟩
    · exact ⟨⟨by decide, by decide⟩, by decide, by decide, by decide, by decide, by decide⟩
  have hs : exampleSpace.segments[(0 : UInt8).toNat]? = exampleSpace.segments.head? := rfl
  have hchain : (first :: rest).IsChain Link.Precedes := by decide
  have hfit : ∀ l ∈ first :: rest, l.offset + 8 ≤ 32 := by decide
  have hactions : ((first :: rest).filterMap
      (@Link.action? entries 0 0x1000 (chainSettings entries 0 0).length)).map Except.ok =
      ([.ok ⟨0, 0, 0x1000, "_b", -2, .pointer, -8, 1, 21⟩,
        .ok ⟨0, 24, 0x1018, "_a", 1, .authenticated, 0, 0, 21⟩] :
        List (Except DecodeError Action)) := by
    decide +kernel
  exact ⟨hbuild, hentries, hchain, hfit, rfl,
    (toList_stream_chainProgram hbuild hentries (by decide) (by decide) hs rfl rfl hchain hfit rfl
      .big .normal).trans hactions⟩

end Bind

end MachO
