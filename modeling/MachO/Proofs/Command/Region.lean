import MachO.Proofs.AddressSpace.OfImage
import MachO.Proofs.Agreement

/-!
# The region of the load commands

The load commands of an image fill its region from the start on, one right behind the other.

* `RawCommand.at`, `RawCommand.defectAt?`: the load command at a position of a byte string, and what
  is wrong with it in a region;
* `RawCommand.reader_eq`: reading a load command, by these two;
* `RawCommand.LiesAt`, `Walk.Tiles`: a walk finds load commands one behind the other, and its failure
  is about the place behind the last of them;
* `Walk.ofImage_tiles`: this is so for the walk over every image;
* `Walk.ofImage_congr`: the walk depends on no byte outside the header and the region.
-/

namespace MachO

/-! ### Reading one load command -/

/-- The number of bytes that the load command at a position states as its size. -/
def RawCommand.sizeAt (e : Endian) (data : Bytes) (pos : Nat) : Nat :=
  (e.wordAt data (pos + 4)).toNat

/-- The load command at a position. -/
def RawCommand.at (e : Endian) (data : Bytes) (pos : Nat) : RawCommand where
  offset := pos
  code := e.wordAt data pos
  data := (data.drop pos).take (sizeAt e data pos)

/-- What is wrong with the load command at a position, in a region that ends at `stop`. -/
def RawCommand.defectAt? (e : Endian) (data : Bytes) (stop pos : Nat) : Option CommandDefect :=
  if stop < pos + 8 then some .headerPastCommands
  else if sizeAt e data pos < 8 then some .sizeBelowHeader
  else if stop < pos + sizeAt e data pos then some .sizePastCommands
  else none

namespace RawCommand

open ReadM (bind_of_ok bind_of_error require_of_pos require_of_neg)

variable {e : Endian} {data : Bytes} {pos stop : Nat}

theorem defectAt?_eq_none_iff :
    defectAt? e data stop pos = none ↔
      pos + 8 ≤ stop ∧ 8 ≤ sizeAt e data pos ∧ pos + sizeAt e data pos ≤ stop := by
  unfold defectAt?
  split_ifs <;> simp only [true_iff, false_iff] <;> omega

/-- **A load command is read if nothing is wrong with it**, and its failure tells what is. -/
theorem reader_eq (hstop : stop ≤ data.length) :
    reader e stop (Cursor.of data pos) =
      match defectAt? e data stop pos with
      | none => .ok (RawCommand.at e data pos) (Cursor.of data (pos + sizeAt e data pos))
      | some defect => .error (.badCommand pos defect) (Cursor.of data pos) := by
  have hword := ReadM.readsField_u32 e
  unfold reader defectAt? sizeAt
  rw [bind_of_ok (show ReadM.position (Cursor.of data pos) = .ok pos (Cursor.of data pos) from rfl)]
  by_cases hheader : stop < pos + 8
  · rw [if_pos hheader, bind_of_error (require_of_neg (by omega) _ _)]
  have hpeek : ReadM.peek (do return (← ReadM.u32 e, ← ReadM.u32 e)) (Cursor.of data pos) =
      .ok (e.wordAt data pos, e.wordAt data (pos + 4)) (Cursor.of data pos) := by
    unfold ReadM.peek
    rw [(hword.bind fun code => hword.map fun size => (code, size)).eq_ok (by omega)]
  rw [if_neg hheader, bind_of_ok (require_of_pos (by omega) _ _), bind_of_ok hpeek]
  dsimp only
  by_cases hsmall : (e.wordAt data (pos + 4)).toNat < 8
  · rw [if_pos hsmall, bind_of_error (require_of_neg (by omega) _ _)]
  rw [if_neg hsmall, bind_of_ok (require_of_pos (by omega) _ _)]
  by_cases hlarge : stop < pos + (e.wordAt data (pos + 4)).toNat
  · rw [if_pos hlarge, bind_of_error (require_of_neg (by omega) _ _)]
  rw [if_neg hlarge, bind_of_ok (require_of_pos (by omega) _ _),
    bind_of_ok ((ReadM.readsField_take _).eq_ok (by omega))]
  rfl

theorem defectAt?_congr {other : Bytes} (h : Bytes.AgreeOn ⟨0, stop⟩ data other) :
    defectAt? e other stop pos = defectAt? e data stop pos := by
  unfold defectAt? sizeAt
  by_cases hheader : stop < pos + 8
  · rw [if_pos hheader, if_pos hheader]
  · rw [h.wordAt_eq (by omega) (by omega)]

theorem at_congr {other : Bytes} (h : Bytes.AgreeOn ⟨0, stop⟩ data other)
    (hdefect : defectAt? e data stop pos = none) :
    sizeAt e other pos = sizeAt e data pos ∧
      RawCommand.at e other pos = RawCommand.at e data pos := by
  obtain ⟨hheader, -, hinside⟩ := defectAt?_eq_none_iff.1 hdefect
  have hcode : e.wordAt data pos = e.wordAt other pos := h.wordAt_eq (by omega) (by omega) e
  have hsize : sizeAt e other pos = sizeAt e data pos :=
    congrArg UInt32.toNat (h.wordAt_eq (by omega) (by omega) e).symm
  refine ⟨hsize, ?_⟩
  unfold RawCommand.at
  rw [hsize, hcode, (h.part (Nat.zero_le pos) (by omega)).take_drop_eq]

/-- A load command lies at a position of a byte string: its code and its size stand there, its bytes
are those from there on, as many as the size tells, and it ends in the region. -/
structure LiesAt (raw : RawCommand) (e : Endian) (data : Bytes) (stop pos : Nat) : Prop where
  offset_eq : raw.offset = pos
  code_eq : raw.code = e.wordAt data pos
  size_eq : (e.wordAt data (pos + 4)).toNat = raw.data.length
  size_ge : 8 ≤ raw.data.length
  data_eq : data.slice? pos raw.data.length = some raw.data
  stop_le : pos + raw.data.length ≤ stop

theorem length_data_at (hinside : pos + sizeAt e data pos ≤ data.length) :
    (RawCommand.at e data pos).data.length = sizeAt e data pos := by
  show ((data.drop pos).take (sizeAt e data pos)).length = _
  rw [List.length_take, List.length_drop]
  omega

theorem liesAt_at (hstop : stop ≤ data.length) (h : defectAt? e data stop pos = none) :
    (RawCommand.at e data pos).LiesAt e data stop pos := by
  obtain ⟨-, hsize, hinside⟩ := defectAt?_eq_none_iff.1 h
  have hlength := length_data_at (hinside.trans hstop)
  refine ⟨rfl, rfl, hlength.symm, hlength.symm ▸ hsize, ?_, hlength.symm ▸ hinside⟩
  rw [hlength]
  exact Bytes.slice?_eq_some_iff.2 ⟨hinside.trans hstop, rfl⟩

end RawCommand

/-! ### The walk -/

namespace Walk

variable {e : Endian} {data : Bytes} {start stop count : Nat}

/-- The number of bytes of the first `count` load commands. -/
def reach (walk : Walk) (count : Nat) : Nat :=
  ((walk.commands.take count).map fun raw => raw.data.length).sum

/-- The load commands of a walk lie one behind the other in a region.  There are as many as were to
be found, or fewer, and then the failure is that of the load command behind the last one. -/
structure Tiles (walk : Walk) (e : Endian) (data : Bytes) (start stop count : Nat) : Prop where
  liesAt : ∀ (k : Nat) (raw : RawCommand), walk.commands[k]? = some raw →
    raw.LiesAt e data stop (start + walk.reach k)
  length_le : start + 8 * walk.commands.length ≤ stop
  ending : (walk.commands.length = count ∧ walk.fault = none) ∨
    ∃ next defect, next = start + walk.reach walk.commands.length ∧
      walk.commands.length < count ∧ RawCommand.defectAt? e data stop next = some defect ∧
        walk.fault = some (.badCommand next defect)

theorem tiles_nil (hstart : start ≤ stop) : Tiles ⟨[], none⟩ e data start stop 0 where
  liesAt _ _ h := by cases h
  length_le := hstart
  ending := .inl ⟨rfl, rfl⟩

theorem tiles_of_defect {defect : CommandDefect} (hstart : start ≤ stop)
    (h : RawCommand.defectAt? e data stop start = some defect) :
    Tiles ⟨[], some (.badCommand start defect)⟩ e data start stop (count + 1) where
  liesAt _ _ h := by cases h
  length_le := hstart
  ending := .inr ⟨start, defect, rfl, Nat.succ_pos count, h, rfl⟩

theorem reach_cons (raw : RawCommand) (commands : List RawCommand) (fault : Option DecodeError)
    (k : Nat) : reach ⟨raw :: commands, fault⟩ (k + 1) =
      raw.data.length + reach ⟨commands, fault⟩ k := List.sum_cons

/-- A load command in front of those that lie where it ends. -/
theorem Tiles.cons {raw : RawCommand} {walk : Walk} (hraw : raw.LiesAt e data stop start)
    (h : walk.Tiles e data (start + raw.data.length) stop count) :
    Tiles ⟨raw :: walk.commands, walk.fault⟩ e data start stop (count + 1) where
  liesAt k raw' hk := by
    cases k with
    | zero =>
      cases hk
      exact hraw
    | succ k =>
      rw [reach_cons, ← Nat.add_assoc]
      exact h.liesAt k raw' hk
  length_le := by
    have hsize := hraw.size_ge
    have hrest := h.length_le
    rw [List.length_cons]
    omega
  ending := by
    rcases h.ending with ⟨hlength, hfault⟩ | ⟨next, defect, hnext, hlt, hdefect, hfault⟩
    · exact .inl ⟨congrArg Nat.succ hlength, hfault⟩
    · refine .inr ⟨next, defect, ?_, Nat.succ_lt_succ hlt, hdefect, hfault⟩
      rw [List.length_cons, reach_cons, ← Nat.add_assoc]
      exact hnext

/-- A walk over a region that is all there finds load commands one behind the other. -/
theorem ofCursor_tiles (hstop : stop ≤ data.length) (count : Nat) (hstart : start ≤ stop) :
    (ofCursor e stop count (Cursor.of data start)).Tiles e data start stop count := by
  induction count generalizing start with
  | zero => exact tiles_nil hstart
  | succ count ih =>
    rw [ofCursor, RawCommand.reader_eq hstop]
    cases hdefect : RawCommand.defectAt? e data stop start with
    | some defect => exact tiles_of_defect hstart hdefect
    | none =>
      have hraw := RawCommand.liesAt_at hstop hdefect
      have hnext : start + RawCommand.sizeAt e data start =
          start + (RawCommand.at e data start).data.length := congrArg _ hraw.size_eq
      refine Tiles.cons hraw (hnext ▸ ih ?_)
      rw [hnext]
      exact hraw.stop_le

/-- The walks over two byte strings that agree up to the end of the region find the same. -/
theorem ofCursor_congr {other : Bytes} (h : Bytes.AgreeOn ⟨0, stop⟩ data other)
    (hstop : stop ≤ data.length) (hother : stop ≤ other.length) (count start : Nat) :
    ofCursor e stop count (Cursor.of other start) =
      ofCursor e stop count (Cursor.of data start) := by
  induction count generalizing start with
  | zero => rfl
  | succ count ih =>
    rw [ofCursor, ofCursor, RawCommand.reader_eq hother, RawCommand.reader_eq hstop,
      RawCommand.defectAt?_congr h]
    cases hdefect : RawCommand.defectAt? e data stop start with
    | some defect => rfl
    | none =>
      obtain ⟨hsize, hat⟩ := RawCommand.at_congr h hdefect
      dsimp only
      rw [hsize, hat, ih]

theorem Tiles.length_le_div {walk : Walk} {size : Nat}
    (h : walk.Tiles e data start (start + size) count) : walk.commands.length ≤ size / 8 := by
  have := h.length_le
  omega

theorem length_eq_of_decode {walk : Walk} {commands : List Command}
    (h : walk.decode e = .ok commands) : commands.length = walk.commands.length := by
  have hmap := congrArg List.length (decode_eq_ok_iff.1 h).2
  rwa [List.length_map, List.length_map, eq_comm] at hmap

/-- The walk over an image looks at no byte behind its load commands. -/
theorem ofImage_congr {other : Bytes} {header : Header} (hlength : data.length = other.length)
    (h : Bytes.AgreeOn ⟨0, header.size + header.commandSize.toNat⟩ data other) :
    ofImage other header = ofImage data header := by
  unfold ofImage
  by_cases hinside : header.size + header.commandSize.toNat ≤ data.length
  · rw [if_pos (hlength ▸ hinside), if_pos hinside]
    exact congrArg Except.ok (ofCursor_congr h hinside (hlength ▸ hinside) _ _)
  · rw [if_neg (hlength ▸ hinside), if_neg hinside]

/-- **The load commands of an image tile their region**: each starts where the one before it ends,
the first behind the header, and holds the bytes from there on, as many as it states and at least
eight.  All that the header announces are found, or fewer and then the failure of the next one, but
never more than there is room for.  When an image is read, all of them are. -/
theorem ofImage_tiles (data : Bytes) (header : Header) :
    (data.length < header.size + header.commandSize.toNat →
      ofImage data header = .error (.truncated header.size header.commandSize.toNat)) ∧
    (header.size + header.commandSize.toNat ≤ data.length →
      ∃ walk, ofImage data header = .ok walk ∧
        walk.Tiles header.endian data header.size (header.size + header.commandSize.toNat)
          header.commandCount.toNat ∧
        walk.commands.length ≤ header.commandSize.toNat / 8) ∧
    ∀ budget image, Image.read data budget = .ok image →
      image.commands.length = image.header.commandCount.toNat := by
  have hwalk {header : Header} (hle : header.size + header.commandSize.toNat ≤ data.length) :
      ofImage data header = .ok (ofCursor header.endian
        (header.size + header.commandSize.toNat) header.commandCount.toNat
          (Cursor.of data header.size)) := if_pos hle
  have htiles {header : Header} (hle : header.size + header.commandSize.toNat ≤ data.length) :=
    ofCursor_tiles (e := header.endian) hle header.commandCount.toNat
      (Nat.le_add_right header.size header.commandSize.toNat)
  refine ⟨fun hlt => if_neg (Nat.not_le.2 hlt), fun hle => ?_, fun budget image hread => ?_⟩
  · exact ⟨_, hwalk hle, htiles hle, (htiles hle).length_le_div⟩
  · obtain ⟨walk, -, hfound, hdecode, -⟩ := Image.exists_of_read hread
    have hfault := (decode_eq_ok_iff.1 hdecode).1
    by_cases hle : image.header.size + image.header.commandSize.toNat ≤ data.length
    · cases (hwalk hle).symm.trans hfound
      rw [length_eq_of_decode hdecode]
      rcases (htiles hle).ending with ⟨hlength, -⟩ | ⟨next, defect, -, -, -, hsome⟩
      · exact hlength
      · cases hfault.symm.trans hsome
    · cases (if_neg hle).symm.trans hfound

/-- In a region with two load commands, no third one is found, whatever number the header announces.
An image whose header announces just these two is read, and a region of which a byte is missing is
not walked over. -/
theorem ofImage_tiles_two :
    let header (count size : UInt32) : Header :=
      ⟨Magic.of .little .bits32, 7, 3, 6, count, size, 0⟩
    let commands : Bytes := [0x1d, 0, 0, 0, 8, 0, 0, 0, 0x1d, 0, 0, 0, 12, 0, 0, 0, 5, 6, 7, 8]
    let data (count size : UInt32) : Bytes := (header count size).write ++ commands
    let walk : Walk := ⟨[⟨28, 0x1d, commands.take 8⟩, ⟨36, 0x1d, commands.drop 8⟩],
      some (.badCommand 48 .headerPastCommands)⟩
    Header.read (data 5 20) = .ok (header 5 20) ∧
      ofImage (data 5 20) (header 5 20) = .ok walk ∧ walk.Tiles .little (data 5 20) 28 48 5 ∧
      ofImage (data 2 21) (header 2 21) = .error (.truncated 28 21) ∧
      ∃ image, Image.read (data 2 20) {} = .ok image ∧ image.commands.length = 2 := by
  intro header commands data walk
  have hheader : Header.read (data 5 20) = .ok (header 5 20) := by decide +kernel
  have hwalk : ofImage (data 5 20) (header 5 20) = .ok walk := by decide +kernel
  have hinside : (header 5 20).size + (header 5 20).commandSize.toNat ≤ (data 5 20).length := by
    decide +kernel
  have houtside : (data 2 21).length < (header 2 21).size + (header 2 21).commandSize.toNat := by
    decide +kernel
  have himage : Image.read (data 2 20) {} =
      .ok ⟨data 2 20, header 2 20, [.other 0x1d (commands.take 8), .other 0x1d (commands.drop 8)],
        {}⟩ := by
    decide +kernel
  obtain ⟨_, hfound, htiles, -⟩ := (ofImage_tiles (data 5 20) (header 5 20)).2.1 hinside
  cases hwalk.symm.trans hfound
  exact ⟨hheader, hwalk, htiles, (ofImage_tiles (data 2 21) (header 2 21)).1 houtside, _, himage,
    (ofImage_tiles (data 2 20) (header 2 20)).2.2 {} _ himage⟩

end Walk

end MachO
