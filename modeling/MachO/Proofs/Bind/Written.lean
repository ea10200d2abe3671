import MachO.Bind.Op
import MachO.Proofs.Bind.Actions
import MachO.Proofs.Leb128
import MachO.Proofs.Writing

/-!
# How bind opcodes are written

* `opcodeByte`: the byte of an opcode and its immediate;
* `Bind.Op.Written`: the bytes of an opcode;
* `Bind.Op.Written.readsBack`: an opcode is read from its bytes.
-/

namespace MachO

/-- The byte of an opcode, with its immediate in the low four bits. -/
def opcodeByte (code : Nat) (imm : UInt8) : UInt8 := UInt8.ofNat (16 * code + imm.toNat)

theorem toNat_opcodeByte {code : Nat} {imm : UInt8} (hcode : code < 16) (himm : imm.toNat < 16) :
    (opcodeByte code imm).toNat = 16 * code + imm.toNat := Leb128.toNat_ofNat (by omega)

theorem opcodeByte_div {code : Nat} {imm : UInt8} (hcode : code < 16) (himm : imm.toNat < 16) :
    (opcodeByte code imm).toNat / 16 = code := by
  rw [toNat_opcodeByte hcode himm]
  omega

theorem opcodeByte_and {code : Nat} {imm : UInt8} (hcode : code < 16) (himm : imm.toNat < 16) :
    opcodeByte code imm &&& 0xf = imm := by
  apply UInt8.toNat_inj.1
  show (opcodeByte code imm).toNat &&& 15 = _
  have hmod := Nat.and_two_pow_sub_one_eq_mod (opcodeByte code imm).toNat 4
  rw [show (15 : Nat) = 2 ^ 4 - 1 from rfl, hmod, toNat_opcodeByte hcode himm]
  omega

namespace Bind

open Leb128 (Unsigned Signed)
open ReadM (ReadsBack)

/-- How an opcode is written.  The numbers behind it may have more digits than they need. -/
inductive Op.Written : Op → Bytes → Prop
  | ordinalImmediate {imm : UInt8} (himm : imm.toNat < 16) :
      Written (.setOrdinal imm.toNat) [opcodeByte 1 imm]
  | ordinal {n : Nat} {digits : Bytes} (hdigits : Unsigned n digits) (hn : n < 2 ^ 63) :
      Written (.setOrdinal n) (opcodeByte 2 0 :: digits)
  | specialOrdinal {imm : UInt8} {ordinal : Int} (himm : imm.toNat < 16)
      (hordinal : specialOrdinal? imm.toNat = some ordinal) :
      Written (.setOrdinal ordinal) [opcodeByte 3 imm]
  | symbol {symbol : String} {flags : UInt8} (hflags : flags.toNat < 16) (hsymbol : IsName symbol) :
      Written (.setSymbol symbol flags) (opcodeByte 4 flags :: (Text.Utf8.encode symbol ++ [0]))
  | kind {imm : UInt8} {kind : WriteKind} (himm : imm.toNat < 16)
      (hkind : WriteKind.ofImmediate? imm = some kind) : Written (.setKind kind) [opcodeByte 5 imm]
  | addend {addend : Int} {digits : Bytes} (hdigits : Signed addend digits) :
      Written (.setAddend addend) (opcodeByte 6 0 :: digits)
  | segment {index : UInt8} {offset : Nat} {digits : Bytes} (hindex : index.toNat < 16)
      (hdigits : Unsigned offset digits) :
      Written (.setSegment index offset) (opcodeByte 7 index :: digits)
  | advance {delta : Nat} {digits : Bytes} (hdigits : Unsigned delta digits) :
      Written (.advance delta) (opcodeByte 8 0 :: digits)
  | emit : Written .emit [opcodeByte 9 0]
  | emitThenAdvance {delta : Nat} {digits : Bytes} (hdigits : Unsigned delta digits) :
      Written (.emitThenAdvance delta) (opcodeByte 10 0 :: digits)
  | emitThenAdvanceScaled {imm : UInt8} (himm : imm.toNat < 16) :
      Written (.emitThenAdvanceScaled imm.toNat) [opcodeByte 11 imm]
  | emitTimesSkipping {count skip : Nat} {digits digits' : Bytes} (hcount : Unsigned count digits)
      (hskip : Unsigned skip digits') :
      Written (.emitTimesSkipping count skip) (opcodeByte 12 0 :: (digits ++ digits'))
  | startTable {size : Nat} {digits : Bytes} (hdigits : Unsigned size digits) :
      Written (.startTable size) (opcodeByte 13 0 :: digits)
  | followChain : Written .followChain [opcodeByte 13 1]

/-- An opcode is read once its operands are. -/
theorem Op.readsBack_read {op? : Option Op} {code : Nat} {imm : UInt8} {bs : Bytes}
    (h : ∀ position, ReadsBack (Op.operands position (opcodeByte code imm)) op? bs) :
    ReadsBack Op.read op? (opcodeByte code imm :: bs) :=
  ReadsBack.of_position fun position => (ReadM.reads_u8.readsBack rfl).bind (h position)

theorem Op.Written.readsBack {op : Op} {bs : Bytes} (h : op.Written bs) :
    ReadsBack Op.read (some op) bs := by
  have number {f : Nat → Op} {n : Nat} {digits : Bytes} (hdigits : Unsigned n digits) :
      ReadsBack (do return some (f (← ReadM.uleb))) (some (f n)) digits :=
    (ReadM.readsBack_uleb hdigits).map fun n => some (f n)
  have hzero : (0 : UInt8).toNat < 16 := by decide
  cases h with
  | ordinalImmediate himm =>
    refine readsBack_read fun position => ?_
    unfold operands
    rw [opcodeByte_div (by decide) himm, opcodeByte_and (by decide) himm]
    exact ReadM.readsBack_pure _
  | @ordinal n digits hdigits hn =>
    refine readsBack_read fun position => ?_
    unfold operands
    rw [opcodeByte_div (by decide) hzero]
    exact (ReadM.readsBack_uleb hdigits).bind_of_eq (if_neg (Nat.not_le.2 hn))
  | specialOrdinal himm hordinal =>
    refine readsBack_read fun position => ?_
    unfold operands
    rw [opcodeByte_div (by decide) himm, opcodeByte_and (by decide) himm]
    dsimp only
    rw [hordinal]
    exact ReadM.readsBack_pure _
  | symbol hflags hsymbol =>
    refine readsBack_read fun position => ?_
    unfold operands
    rw [opcodeByte_div (by decide) hflags, opcodeByte_and (by decide) hflags]
    exact (ReadM.readsBack_string hsymbol.2).bind_of_eq (if_neg (by simpa using hsymbol.1))
  | kind himm hkind =>
    refine readsBack_read fun position => ?_
    unfold operands
    rw [opcodeByte_div (by decide) himm, opcodeByte_and (by decide) himm]
    dsimp only
    rw [hkind]
    exact ReadM.readsBack_pure _
  | addend hdigits =>
    refine readsBack_read fun position => ?_
    unfold operands
    rw [opcodeByte_div (by decide) hzero]
    exact (ReadM.reads_sleb.readsBack hdigits).map fun addend => some (Op.setAddend addend)
  | segment hindex hdigits =>
    refine readsBack_read fun position => ?_
    unfold operands
    rw [opcodeByte_div (by decide) hindex, opcodeByte_and (by decide) hindex]
    exact number hdigits
  | advance hdigits =>
    refine readsBack_read fun position => ?_
    unfold operands
    rw [opcodeByte_div (by decide) hzero]
    exact number hdigits
  | emit => exact readsBack_read fun position => ReadM.readsBack_pure _
  | emitThenAdvance hdigits =>
    refine readsBack_read fun position => ?_
    unfold operands
    rw [opcodeByte_div (by decide) hzero]
    exact number hdigits
  | emitThenAdvanceScaled himm =>
    refine readsBack_read fun position => ?_
    unfold operands
    rw [opcodeByte_div (by decide) himm, opcodeByte_and (by decide) himm]
    exact ReadM.readsBack_pure _
  | emitTimesSkipping hcount hskip =>
    refine readsBack_read fun position => ?_
    unfold operands
    rw [opcodeByte_div (by decide) hzero]
    exact (ReadM.readsBack_uleb hcount).bind (number hskip)
  | startTable hdigits => exact readsBack_read fun position => number hdigits
  | followChain => exact readsBack_read fun position => ReadM.readsBack_pure _

end Bind

end MachO
