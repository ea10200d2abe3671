import MachO.Proofs.Command.Written

/-!
# Writing load commands

* `CommandKind.codes`: the numbers of the load commands of each kind, with
  `CommandKind.ofCode_of_mem_codes` and `CommandKind.ofCode_eq_other_iff` for what they stand for;
* `LoadCommand`: a load command that is to be written, with `LoadCommand.Fits` for what can be
  written in an image of a pointer size;
* `LoadCommand.write`: its bytes, with its code and its size in front;
* `LoadCommand.command`: the command that it stands for;
* `LoadCommand.ofCursor_flatMap_write`, `Walk.decode_raws`: load commands that are written one behind
  the other are read back.
-/

namespace MachO

open ReadM (ReadsBack)

/-- What a load command says behind its code and its size. -/
inductive Content
  | fields (command : Command)
  /-- The bytes of a command of an unknown kind. -/
  | bytes (payload : Bytes)
  deriving DecidableEq, Repr

/-- A load command that is to be written. -/
structure LoadCommand where
  code : UInt32
  content : Content
  /-- The bytes at the end that say nothing. -/
  padding : Bytes
  deriving DecidableEq, Repr

/-- The bytes behind the code and the size. -/
def Content.write (w : Width) (e : Endian) : Content → Bytes
  | .fields command => command.fixed w e ++ command.tail
  | .bytes payload => payload

/-- The number of bytes of the fixed fields does not depend on the byte order. -/
theorem Command.length_fixed (w : Width) (e e' : Endian) (command : Command) :
    (command.fixed w e).length = (command.fixed w e').length := by
  have hreserved (e : Endian) : (w.reserved e).length = (w.reserved .little).length := by
    cases w <;> simp [Width.reserved]
  cases command <;>
    simp [fixed, SegmentCommand.write, SectionHeader.write, DyldInfo.write, Extent.write,
      List.length_flatMap, hreserved e, hreserved e']

theorem Content.length_write (w : Width) (e e' : Endian) (content : Content) :
    (content.write w e).length = (content.write w e').length := by
  cases content with
  | fields command =>
    rw [write, write, List.length_append, List.length_append, command.length_fixed w e e']
  | bytes payload => rfl

/-! ### Numbers -/

namespace CommandKind

/-- The numbers of the commands of a kind.  There are two for the tables of the dynamic loader, with
and without the bit of commands that a loader has to understand. -/
def codes : CommandKind → List UInt32
  | .segment .bits32 => [0x1]
  | .segment .bits64 => [0x19]
  | .symtab => [0x2]
  | .dysymtab => [0xb]
  | .dylib .load => [0xc]
  | .dylib .weak => [0x80000018]
  | .dylib .reexport => [0x8000001f]
  | .dylib .upward => [0x80000023]
  | .dylib .lazy => [0x20]
  | .dylib .id => [0xd]
  | .uuid => [0x1b]
  | .rpath => [0x8000001c]
  | .dyldInfo => [0x22, 0x80000022]
  | .main => [0x80000028]
  | .other => []

variable {kind : CommandKind} {code : UInt32}

/-- The numbers of a kind stand for it. -/
theorem ofCode_of_mem_codes (h : code ∈ kind.codes) : ofCode code = kind := by
  have hsingle {number : UInt32} (hnumber : ofCode number = kind) (h : code ∈ [number]) :
      ofCode code = kind := by
    rw [List.mem_singleton.1 h, hnumber]
  cases kind with
  | segment w => cases w <;> exact hsingle rfl h
  | dylib kind => cases kind <;> exact hsingle rfl h
  | dyldInfo =>
    rcases List.mem_cons.1 h with rfl | h
    · rfl
    · exact hsingle rfl h
  | other => exact absurd h List.not_mem_nil
  | _ => exact hsingle rfl h

theorem mem_codes_ofCode (h : ofCode code ≠ .other) : code ∈ (ofCode code).codes := by
  unfold ofCode at h ⊢
  -- One case for each number, and one for all others.
  split <;> simp_all [codes, ← UInt32.toNat_inj]

/-- All other numbers stand for no kind. -/
theorem ofCode_eq_other_iff : ofCode code = .other ↔ ∀ kind : CommandKind, code ∉ kind.codes := by
  constructor
  · intro h kind hmem
    rw [ofCode_of_mem_codes hmem] at h
    subst h
    cases hmem
  · intro h
    by_contra hother
    exact h _ (mem_codes_ofCode hother)

end CommandKind

namespace LoadCommand

/-- The number is one of those for the kind of the command, which an image of the given pointer size
can hold.  A command of an unknown kind has a number that stands for no kind. -/
def Fits (w : Width) (c : LoadCommand) : Prop :=
  match c.content with
  | .fields command => c.code ∈ (command.kind w).codes ∧ command.Fits w
  | .bytes _ => ∀ kind : CommandKind, c.code ∉ kind.codes

/-- The number of bytes, in each of the byte orders. -/
def size (w : Width) (c : LoadCommand) : Nat :=
  8 + (c.content.write w .little).length + c.padding.length

/-- The bytes of a load command. -/
def write (w : Width) (e : Endian) (c : LoadCommand) : Bytes :=
  e.word c.code ++ (e.word (UInt32.ofNat (c.size w)) ++ (c.content.write w e ++ c.padding))

/-- The command that is written.  Of a command of an unknown kind, all bytes are kept. -/
def command (w : Width) (e : Endian) (c : LoadCommand) : Command :=
  match c.content with
  | .fields command => command
  | .bytes _ => .other c.code (c.write w e)

/-- The load command as it lies in an image. -/
def raw (w : Width) (e : Endian) (offset : Nat) (c : LoadCommand) : RawCommand :=
  ⟨offset, c.code, c.write w e⟩

variable {w : Width} {e : Endian} {c : LoadCommand}

theorem length_write (w : Width) (e : Endian) (c : LoadCommand) :
    (c.write w e).length = c.size w := by
  simp only [write, size, List.length_append, Endian.length_word,
    c.content.length_write w e .little]
  omega

/-- The code and the size stand in front. -/
theorem peek_write (w : Width) (e : Endian) (c : LoadCommand) (offset : Nat) (rest : Bytes) :
    ReadM.peek (do return (← ReadM.u32 e, ← ReadM.u32 e)) ⟨offset, c.write w e ++ rest⟩ =
      .ok (c.code, UInt32.ofNat (c.size w)) ⟨offset, c.write w e ++ rest⟩ := by
  have hwords : ReadsBack (do return (← ReadM.u32 e, ← ReadM.u32 e))
      (c.code, UInt32.ofNat (c.size w)) (e.word c.code ++ e.word (UInt32.ofNat (c.size w))) :=
    (ReadM.readsBack_u32 e _).bind ((ReadM.readsBack_u32 e _).map fun size => (c.code, size))
  have hpeek := hwords.peek offset (c.content.write w e ++ c.padding ++ rest)
  simp only [List.append_assoc] at hpeek
  unfold write
  simp only [List.append_assoc]
  exact hpeek

/-- A load command is found where it is written. -/
theorem reader_eq (e : Endian) (hsize : c.size w < UInt32.size) {offset stop : Nat}
    (hstop : offset + c.size w ≤ stop) (rest : Bytes) :
    RawCommand.reader e stop ⟨offset, c.write w e ++ rest⟩ =
      .ok (c.raw w e offset) ⟨offset + c.size w, rest⟩ := by
  have hmin : 8 ≤ c.size w := by
    unfold size
    omega
  have hword : (UInt32.ofNat (c.size w)).toNat = c.size w := UInt32.toNat_ofNat_of_lt' hsize
  have htake : ReadM.take (UInt32.ofNat (c.size w)).toNat ⟨offset, c.write w e ++ rest⟩ =
      .ok (c.write w e) ⟨offset + c.size w, rest⟩ := by
    have hread := ReadM.readsBack_take (c.write w e) offset rest
    rw [length_write] at hread
    rwa [hword]
  refine ReadM.bind_eq_ok_iff.2 ⟨offset, _, rfl, ?_⟩
  refine ReadM.bind_eq_ok_iff.2 ⟨(), _, ReadM.require_eq_ok_iff.2 ⟨by omega, rfl⟩, ?_⟩
  refine ReadM.bind_eq_ok_iff.2 ⟨_, _, c.peek_write w e offset rest, ?_⟩
  refine ReadM.bind_eq_ok_iff.2 ⟨(), _, ReadM.require_eq_ok_iff.2 ⟨by omega, rfl⟩, ?_⟩
  refine ReadM.bind_eq_ok_iff.2 ⟨(), _, ReadM.require_eq_ok_iff.2 ⟨by omega, rfl⟩, ?_⟩
  exact ReadM.bind_eq_ok_iff.2 ⟨_, _, htake, rfl⟩

/-- What is found where a load command is written stands for that command. -/
theorem Fits.decode_raw (h : c.Fits w) (e : Endian) (offset : Nat) :
    (c.raw w e offset).decode e = .ok (c.command w e) := by
  obtain ⟨code, content, padding⟩ := c
  let c : LoadCommand := ⟨code, content, padding⟩
  have hfront : (e.word code ++ e.word (UInt32.ofNat (c.size w))).length = 8 := by simp
  unfold RawCommand.decode
  cases content with
  | fields command =>
    obtain ⟨hcode, hfits⟩ := h
    have hkind : (c.raw w e offset).kind = command.kind w := CommandKind.ofCode_of_mem_codes hcode
    have hdata : (c.raw w e offset).data = (e.word code ++ e.word (UInt32.ofNat (c.size w))) ++
        (command.fixed w e ++ (command.tail ++ padding)) := by
      simp [raw, write, Content.write, c]
    have hmin : (c.raw w e offset).kind.minSize ≤ (c.raw w e offset).data.length := by
      have hle := hfits.minSize_le e
      rw [hkind, hdata, List.length_append, hfront, List.length_append]
      omega
    rw [require_pos hmin, ok_bind]
    exact (hfits.readsBack_fields e hkind hfront hdata).runAt hdata hfront
  | bytes payload =>
    have hkind : (c.raw w e offset).kind = .other := CommandKind.ofCode_eq_other_iff.2 h
    have hfields : (c.raw w e offset).fields e =
        pure (.other code (c.write w e)) := by
      unfold RawCommand.fields
      rw [hkind]
      rfl
    rw [require_pos (by rw [hkind]; exact Nat.zero_le _), ok_bind, hfields]
    rfl

/-! ### Load commands one behind the other -/

/-- The load commands as they lie in an image, from an offset on. -/
def raws (w : Width) (e : Endian) : (offset : Nat) → List LoadCommand → List RawCommand
  | _, [] => []
  | offset, c :: cs => c.raw w e offset :: raws w e (offset + c.size w) cs

/-- The number of bytes of load commands. -/
def totalSize (w : Width) (cs : List LoadCommand) : Nat := (cs.map (·.size w)).sum

theorem totalSize_cons (w : Width) (c : LoadCommand) (cs : List LoadCommand) :
    totalSize w (c :: cs) = c.size w + totalSize w cs := List.sum_cons

theorem length_flatMap_write (w : Width) (e : Endian) (cs : List LoadCommand) :
    (cs.flatMap (·.write w e)).length = totalSize w cs := by
  simp only [List.length_flatMap, length_write, totalSize]

/-- A walk finds all load commands that are written one behind the other. -/
theorem ofCursor_flatMap_write (e : Endian) {cs : List LoadCommand}
    (hsize : totalSize w cs < UInt32.size) {offset stop : Nat}
    (hstop : offset + totalSize w cs ≤ stop) (rest : Bytes) :
    Walk.ofCursor e stop cs.length ⟨offset, cs.flatMap (·.write w e) ++ rest⟩ =
      ⟨raws w e offset cs, none⟩ := by
  induction cs generalizing offset with
  | nil => rfl
  | cons c cs ih =>
    rw [totalSize_cons] at hsize hstop
    have hread := reader_eq e (show c.size w < UInt32.size by omega)
      (show offset + c.size w ≤ stop by omega) (cs.flatMap (·.write w e) ++ rest)
    rw [List.length_cons, Walk.ofCursor, List.flatMap_cons, List.append_assoc, hread]
    dsimp only
    rw [ih (by omega) (by omega)]
    rfl

theorem mapM_decode_raws (e : Endian) {cs : List LoadCommand} (h : ∀ c ∈ cs, c.Fits w)
    (offset : Nat) :
    (raws w e offset cs).mapM (fun raw => raw.decode e) = .ok (cs.map (·.command w e)) := by
  induction cs generalizing offset with
  | nil => rfl
  | cons c cs ih =>
    rw [List.forall_mem_cons] at h
    rw [raws, List.mapM_cons, h.1.decode_raw, ok_bind, ih h.2]
    rfl

/-! ### Byte orders -/

/-- Behind its code and its size, a load command holds its content. -/
theorem drop_write (w : Width) (e : Endian) (c : LoadCommand) :
    (c.write w e).drop 8 = c.content.write w e ++ c.padding := by
  have hfront : (e.word c.code ++ e.word (UInt32.ofNat (c.size w))).length = 8 := by simp
  rw [write, ← List.append_assoc, ← hfront, List.drop_left]

end LoadCommand

/-- What a walk finds where load commands are written stands for those commands. -/
theorem Walk.decode_raws {w : Width} (e : Endian) {cs : List LoadCommand}
    (h : ∀ c ∈ cs, c.Fits w) (offset : Nat) :
    Walk.decode ⟨LoadCommand.raws w e offset cs, none⟩ e = .ok (cs.map (·.command w e)) := by
  unfold Walk.decode
  rw [LoadCommand.mapM_decode_raws e h, ok_bind]
  rfl

/-- Two commands are equal, or are of the same unknown kind and hold the same bytes behind their
code and size. -/
inductive Command.Alike : Command → Command → Prop
  | refl (command : Command) : Alike command command
  | other (code : UInt32) {data data' : Bytes} (h : data.drop 8 = data'.drop 8) :
    Alike (.other code data) (.other code data')

/-- In all byte orders the same commands are written. -/
theorem LoadCommand.alike (w : Width) (e e' : Endian) (c : LoadCommand) :
    (c.command w e).Alike (c.command w e') := by
  obtain ⟨code, content, padding⟩ := c
  cases content with
  | fields command => exact .refl command
  | bytes payload =>
    refine .other code ?_
    rw [drop_write, drop_write]
    rfl

theorem LoadCommand.forall₂_alike (w : Width) (e e' : Endian) (cs : List LoadCommand) :
    List.Forall₂ Command.Alike (cs.map (·.command w e)) (cs.map (·.command w e')) := by
  induction cs with
  | nil => exact .nil
  | cons c cs ih => exact .cons (c.alike w e e') ih

end MachO
