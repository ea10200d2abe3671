import MachO.Proofs.ByteRange
import MachO.Proofs.Fields

/-!
# Byte strings that agree on a range

What a decoder makes of a byte string depends on the bytes that it looks at, so it makes the same of
two byte strings that agree there.

* `Bytes.AgreeOn`, `Bytes.agreeOn_iff`: two byte strings hold the same bytes in a range;
* `Bytes.AgreeOn.slice?_eq`, `Bytes.AgreeOn.wordAt_eq`, `Bytes.AgreeOn.addressAt_eq`: slices and
  words in that range are the same.
-/

namespace MachO

namespace Bytes

/-- At every position of a range, two byte strings hold the same byte, or neither holds one. -/
def AgreeOn (r : ByteRange) (a b : Bytes) : Prop := ∀ p ∈ r, a[p]? = b[p]?

variable {a b : Bytes} {r s : ByteRange} {start size pos count : Nat}

theorem AgreeOn.mono (h : AgreeOn r a b) (hs : r.Covers s) : AgreeOn s a b :=
  fun p hp => h p (ByteRange.covers_iff.1 hs p hp)

/-- Byte strings agree on a part of a range on which they agree. -/
theorem AgreeOn.part (h : AgreeOn ⟨start, size⟩ a b) (hstart : start ≤ pos)
    (hstop : pos + count ≤ start + size) : AgreeOn ⟨pos, count⟩ a b := h.mono (.inr ⟨hstart, hstop⟩)

/-- Byte strings that agree on a range have the same part there. -/
theorem agreeOn_iff :
    AgreeOn r a b ↔ (a.drop r.start).take r.size = (b.drop r.start).take r.size := by
  constructor
  · intro h
    apply List.ext_getElem?
    intro i
    rw [List.getElem?_take, List.getElem?_take]
    split
    · rename_i hi
      rw [List.getElem?_drop, List.getElem?_drop]
      exact h (r.start + i) ⟨Nat.le_add_right _ i, Nat.add_lt_add_left hi _⟩
    · rfl
  · rintro h p ⟨hstart, hstop⟩
    obtain ⟨i, rfl⟩ := Nat.exists_eq_add_of_le hstart
    have hi : i < r.size := Nat.lt_of_add_lt_add_left hstop
    have hitem := congrArg (·[i]?) h
    simpa [List.getElem?_take, List.getElem?_drop, hi] using hitem

instance (r : ByteRange) (a b : Bytes) : Decidable (AgreeOn r a b) :=
  decidable_of_iff _ agreeOn_iff.symm

theorem AgreeOn.take_drop_eq (h : AgreeOn ⟨pos, size⟩ a b) :
    (a.drop pos).take size = (b.drop pos).take size := agreeOn_iff.1 h

theorem AgreeOn.slice?_eq (h : AgreeOn ⟨pos, size⟩ a b) (hlength : a.length = b.length) :
    a.slice? pos size = b.slice? pos size := by
  unfold slice?
  rw [hlength, h.take_drop_eq]

/-- Byte strings that agree on all their bytes are equal. -/
theorem AgreeOn.eq (h : AgreeOn ⟨0, size⟩ a b) (hlength : a.length = b.length)
    (hsize : a.length ≤ size) : a = b := by
  have htake := h.take_drop_eq
  rwa [List.drop_zero, List.drop_zero, List.take_of_length_le hsize,
    List.take_of_length_le (hlength ▸ hsize)] at htake

theorem AgreeOn.numberAt_eq (h : AgreeOn ⟨start, size⟩ a b) (hstart : start ≤ pos)
    (hstop : pos + count ≤ start + size) (e : Endian) :
    e.numberAt a pos count = e.numberAt b pos count := by
  unfold Endian.numberAt
  rw [(h.part hstart hstop).take_drop_eq]

theorem AgreeOn.wordAt_eq (h : AgreeOn ⟨start, size⟩ a b) (hstart : start ≤ pos)
    (hstop : pos + 4 ≤ start + size) (e : Endian) : e.wordAt a pos = e.wordAt b pos := by
  unfold Endian.wordAt
  rw [h.numberAt_eq hstart hstop]

theorem AgreeOn.addressAt_eq {w : Width} (h : AgreeOn ⟨start, size⟩ a b) (hstart : start ≤ pos)
    (hstop : pos + w.pointerSize ≤ start + size) (e : Endian) :
    e.addressAt a pos w = e.addressAt b pos w := by
  cases w with
  | bits32 => exact congrArg UInt32.toUInt64 (h.wordAt_eq hstart hstop e)
  | bits64 => exact congrArg UInt64.ofNat (h.numberAt_eq hstart hstop e)

theorem AgreeOn.runAt_u64_eq (h : AgreeOn ⟨pos, 8⟩ a b)
    (e : Endian) : (ReadM.u64 e).runAt b pos = (ReadM.u64 e).runAt a pos := by
  rw [ReadM.runAt_u64, ReadM.runAt_u64]
  unfold Endian.longAt Endian.numberAt
  rw [h.take_drop_eq]

end Bytes

end MachO
