import MachO.Proofs.AddressSpace.FileOffset
import MachO.Proofs.Agreement
import MachO.Proofs.Bind.Eager
import MachO.Proofs.Writing

/-!
# Writing chains of slots

* `Bytes.put`: other bytes in the place of some bytes of a byte string;
* `Bind.Link`, `Bind.Content.word`: a slot that is to be written, and its eight bytes;
* `Bind.Slot.ofWord_bits`: the parts of a slot are found in its eight bytes;
* `Bind.writeLinks`, `Bind.holds_writeLinks`: an image into which a chain is written holds it;
* `Bind.chain_of_holds`: what is followed in an image that holds a chain are the slots of the chain.
-/

namespace MachO

/-! ### Writing into a byte string -/

namespace Bytes

variable {data bs : Bytes} {pos : Nat}

/-- The byte string with other bytes from a position on. -/
def put (data : Bytes) (pos : Nat) (bs : Bytes) : Bytes :=
  data.take pos ++ (bs ++ data.drop (pos + bs.length))

@[simp] theorem length_put (h : pos + bs.length ≤ data.length) :
    (data.put pos bs).length = data.length := by
  unfold put
  simp only [List.length_append, List.length_take, List.length_drop]
  omega

/-- Only the bytes that are put there change. -/
theorem agreeOn_put (h : pos + bs.length ≤ data.length) {r : ByteRange}
    (hr : r.Apart ⟨pos, bs.length⟩) : AgreeOn r (data.put pos bs) data := by
  intro p hp
  have hside : p < pos ∨ pos + bs.length ≤ p := by
    by_contra hin
    rw [not_or, Nat.not_lt, Nat.not_le] at hin
    exact hr p hp hin
  have htake : (data.take pos).length = pos := by
    rw [List.length_take]
    omega
  unfold put
  rcases hside with hlt | hge
  · rw [List.getElem?_append_left (by omega), List.getElem?_take_of_lt hlt]
  · rw [List.getElem?_append_right (by omega), List.getElem?_append_right (by omega),
      List.getElem?_drop, htake]
    congr 1
    omega

end Bytes

/-- The bytes that are put somewhere are read from there. -/
theorem ReadM.ReadsBack.runAt_put {α : Type} {r : ReadM α} {a : α} {data bs : Bytes} {pos : Nat}
    (hr : ReadsBack r a bs) (h : pos ≤ data.length) : r.runAt (data.put pos bs) pos = .ok a :=
  hr.runAt rfl (by rw [List.length_take]; omega)

namespace Bind

/-! ### Slots of a chain -/

/-- The eight bytes of a slot as a number: the low 51 bits, the distance to the next slot in the
eleven bits above them, and the two top bits. -/
def Slot.bits (low distance : Nat) (binds top : Bool) : Nat :=
  low + 2 ^ 51 * distance + 2 ^ 62 * binds.toNat + 2 ^ 63 * top.toNat

/-- The parts of a slot are found in its eight bytes. -/
theorem Slot.ofWord_bits {low distance : Nat} (hlow : low < 2 ^ 51) (hdistance : distance < 2048)
    (binds top : Bool) :
    Slot.ofWord (UInt64.ofNat (bits low distance binds top)) =
      ⟨distance, binds, low % UInt16.size, top⟩ := by
  have hbinds := binds.toNat_le
  have htop := top.toNat_le
  have hword : (UInt64.ofNat (bits low distance binds top)).toNat = bits low distance binds top :=
    UInt64.toNat_ofNat_of_lt' (by unfold bits UInt64.size; omega)
  unfold ofWord
  rw [hword, Nat.shiftRight_eq_div_pow, Nat.testBit_eq_decide_div_mod_eq,
    Nat.testBit_eq_decide_div_mod_eq]
  -- Each part is a quotient by a power of two, in which the parts below it leave no trace.
  have hdiv : bits low distance binds top / 2 ^ 51 % 2048 = distance := by
    unfold bits
    omega
  have hdiv62 : bits low distance binds top / 2 ^ 62 % 2 = binds.toNat := by
    unfold bits
    omega
  have hdiv63 : bits low distance binds top / 2 ^ 63 % 2 = top.toNat := by
    unfold bits
    omega
  have hmod : bits low distance binds top % UInt16.size = low % UInt16.size := by
    unfold bits UInt16.size
    omega
  rw [hdiv, hdiv62, hdiv63, hmod]
  cases binds <;> cases top <;> rfl

/-- What a slot of a chain holds besides the distance to the next one, for a table of `count`
symbols. -/
inductive Content (count : Nat)
  /-- Binds a symbol of the table.  The bits between its index and the distance have no meaning. -/
  | bind (index : Fin count) (unused : BitVec 35) (authenticated : Bool)
  /-- Binds nothing.  The other bits are those of a pointer to be moved with the image. -/
  | rebase (low : BitVec 51) (top : Bool)
  deriving DecidableEq, Repr

/-- The eight bytes of a slot at a distance from the next one. -/
def Content.word {count : Nat} (distance : Nat) : Content count → UInt64
  | .bind index unused authenticated =>
    UInt64.ofNat (Slot.bits (index + 2 ^ 16 * unused.toNat) distance true authenticated)
  | .rebase low top => UInt64.ofNat (Slot.bits low.toNat distance false top)

/-- The slot that is read from these bytes. -/
def Content.slot {count : Nat} (distance : Nat) : Content count → Slot
  | .bind index _ authenticated => ⟨distance, true, index, authenticated⟩
  | .rebase low top => ⟨distance, false, low.toNat % UInt16.size, top⟩

theorem Content.ofWord_word {count distance : Nat} (hcount : count ≤ UInt16.size)
    (hdistance : distance < 2048) (content : Content count) :
    Slot.ofWord (content.word distance) = content.slot distance := by
  cases content with
  | bind index unused authenticated =>
    have hindex : index.val < UInt16.size := Nat.lt_of_lt_of_le index.isLt hcount
    have hunused := unused.isLt
    unfold UInt16.size at hindex
    have hlow : index.val + 2 ^ 16 * unused.toNat < 2 ^ 51 := by omega
    have hmod : (index.val + 2 ^ 16 * unused.toNat) % UInt16.size = index.val := by
      unfold UInt16.size
      omega
    have hslot := Slot.ofWord_bits hlow hdistance true authenticated
    rw [hmod] at hslot
    exact hslot
  | rebase low top => exact Slot.ofWord_bits low.isLt hdistance false top

@[simp] theorem Content.distance_slot {count : Nat} (distance : Nat) (content : Content count) :
    (content.slot distance).distance = distance := by
  cases content <;> rfl

/-- A slot that is to be written at an offset of a segment. -/
structure Link (count : Nat) where
  offset : Nat
  content : Content count
  deriving DecidableEq, Repr

namespace Link

variable {count : Nat}

/-- The distance to the next slot in units of eight bytes; zero if there is none. -/
def distance (l : Link count) (rest : List (Link count)) : Nat :=
  match rest with
  | [] => 0
  | next :: _ => (next.offset - l.offset) / 8

/-- The second slot follows the first one at a distance of 1 to 2047 units of eight bytes. -/
def Precedes (l next : Link count) : Prop :=
  ∃ gap, 1 ≤ gap ∧ gap ≤ 2047 ∧ next.offset = l.offset + 8 * gap

instance (l next : Link count) : Decidable (l.Precedes next) :=
  decidable_of_iff
    (l.offset + 8 ≤ next.offset ∧ next.offset ≤ l.offset + 8 * 2047 ∧
      (next.offset - l.offset) % 8 = 0) <| by
    constructor
    · rintro ⟨hle, hge, hmod⟩
      exact ⟨(next.offset - l.offset) / 8, by omega, by omega, by omega⟩
    · rintro ⟨gap, hpos, hle, hnext⟩
      omega

theorem Precedes.distance_eq {l next : Link count} (h : l.Precedes next)
    (rest : List (Link count)) :
    l.offset + l.distance (next :: rest) * 8 = next.offset ∧ 0 < l.distance (next :: rest) ∧
      l.distance (next :: rest) < 2048 := by
  obtain ⟨gap, hpos, hle, hnext⟩ := h
  unfold distance
  dsimp only
  omega

theorem distance_lt {l : Link count} {rest : List (Link count)}
    (h : (l :: rest).IsChain Precedes) : l.distance rest < 2048 := by
  cases rest with
  | nil => exact Nat.zero_lt_succ _
  | cons next rest => exact ((List.isChain_cons_cons.1 h).1.distance_eq rest).2.2

theorem Precedes.add_le {l next : Link count} (h : l.Precedes next) :
    l.offset + 8 ≤ next.offset := by
  obtain ⟨gap, hpos, -, hnext⟩ := h
  omega

end Link

/-- The image with the slots of a chain, in a segment whose bytes begin at `start`. -/
def writeLinks {count : Nat} (e : Endian) (start : Nat) : List (Link count) → Bytes → Bytes
  | [], image => image
  | l :: rest, image =>
    (writeLinks e start rest image).put (start + l.offset)
      (e.long (l.content.word (l.distance rest)))

/-- The image holds the slots of a chain. -/
inductive Holds {count : Nat} (e : Endian) (start : Nat) (image : Bytes) : List (Link count) → Prop
  | nil : Holds e start image []
  | cons {l : Link count} {rest : List (Link count)}
      (hfirst : (ReadM.u64 e).runAt image (start + l.offset) =
        .ok (l.content.word (l.distance rest)))
      (hrest : Holds e start image rest) : Holds e start image (l :: rest)

section Image

variable {count : Nat} {e : Endian} {start : Nat} {image image' : Bytes}
  {links : List (Link count)}

/-- Whether a chain is held depends on its slots only. -/
theorem Holds.congr (h : Holds e start image links)
    (hagree : ∀ l ∈ links, Bytes.AgreeOn ⟨start + l.offset, 8⟩ image image') :
    Holds e start image' links := by
  induction h with
  | nil => exact .nil
  | cons hfirst hrest ih =>
    rw [List.forall_mem_cons] at hagree
    refine .cons ?_ (ih hagree.2)
    rw [hagree.1.runAt_u64_eq]
    exact hfirst

theorem length_writeLinks (hfit : ∀ l ∈ links, start + l.offset + 8 ≤ image.length) :
    (writeLinks e start links image).length = image.length := by
  induction links with
  | nil => rfl
  | cons l rest ih =>
    rw [List.forall_mem_cons] at hfit
    have hrest := ih hfit.2
    rw [writeLinks, Bytes.length_put, hrest]
    rw [Endian.length_long, hrest]
    exact hfit.1

/-- Later slots of a chain are behind earlier ones. -/
theorem add_le_of_isChain {l : Link count} (h : (l :: links).IsChain Link.Precedes) :
    ∀ next ∈ links, l.offset + 8 ≤ next.offset := by
  have : IsTrans (Link count) fun l next => l.offset + 8 ≤ next.offset :=
    ⟨fun _ _ _ h h' => by omega⟩
  have hpairwise := (h.imp fun _ _ => Link.Precedes.add_le).pairwise
  exact (List.pairwise_cons.1 hpairwise).1

/-- **An image into which a chain is written holds the chain.** -/
theorem holds_writeLinks (h : links.IsChain Link.Precedes)
    (hfit : ∀ l ∈ links, start + l.offset + 8 ≤ image.length) :
    Holds e start (writeLinks e start links image) links := by
  induction links with
  | nil => exact .nil
  | cons l rest ih =>
    have hlater := add_le_of_isChain h
    rw [List.forall_mem_cons] at hfit
    have hlength := length_writeLinks (e := e) hfit.2
    have hroom : start + l.offset + (e.long (l.content.word (l.distance rest))).length ≤
        (writeLinks e start rest image).length := by
      rw [Endian.length_long, hlength]
      exact hfit.1
    refine .cons ((ReadM.readsBack_u64 e _).runAt_put (by omega)) ?_
    -- The first slot is written last, in front of all others.
    refine (ih h.of_cons hfit.2).congr fun next hnext p hp => ?_
    have happart : (ByteRange.mk (start + next.offset) 8).Apart
        ⟨start + l.offset, (e.long (l.content.word (l.distance rest))).length⟩ := by
      intro p hp hp'
      have hle := hlater next hnext
      have hstart := hp.1
      have hstop := hp'.2
      unfold ByteRange.stop at hstop
      rw [Endian.length_long] at hstop
      dsimp only at hstart hstop
      omega
    exact (Bytes.agreeOn_put hroom happart p hp).symm

end Image

/-! ### Following a chain -/

/-- The action of a slot, if it binds, in a segment that begins at the address `start`. -/
def Link.action? {entries : List Entry} (segment start position : Nat) (l : Link entries.length) :
    Option Action :=
  match l.content with
  | .bind index _ authenticated =>
    let entry := entries[index]
    some {
      segment, offset := l.offset, address := start + l.offset, symbol := entry.symbol
      ordinal := entry.ordinal, kind := if authenticated then .authenticated else .pointer
      addend := entry.addend, flags := entry.flags, position }
  | .rebase _ _ => none

section Segment

variable {width : Width} {imageSize : Nat} {commands : List SegmentCommand} {space : AddressSpace}
  {index position : Nat} {s : Segment} {image : Bytes} {e : Endian} {entries : List Entry}
  {r : Registers}

/-- A slot stands for its action. -/
theorem bindSlot_slot (l : Link entries.length) (hoffset : r.offset = l.offset)
    (distance start : Nat) :
    Eager.bindSlot entries.toArray position index (start + l.offset) (l.content.slot distance) r =
      ⟨(l.action? index start position).toList, .ok ()⟩ := by
  obtain ⟨offset, content⟩ := l
  unfold Eager.bindSlot Link.action?
  cases content with
  | bind entry unused authenticated =>
    have hentry : entries.toArray[(entry : Nat)]? = some entries[entry] := by simp
    refine (if_pos rfl).trans ?_
    dsimp only [Content.slot]
    rw [hentry, hoffset]
    rfl
  | rebase low top => rfl

variable (h : AddressSpace.build width imageSize commands = .ok space)
  (hs : space.segments[index]? = some s) (hsections : s.sections = [])
  (hfilled : s.file.size = s.memory.size)
include h hs hsections hfilled

/-- The slot at a place of the segment is the one whose bytes the image holds there. -/
theorem slotAt_of_runAt (hsegment : r.segment = some index) (hoffset : r.offset < s.memory.size)
    {word : UInt64} (hword : (ReadM.u64 e).runAt image (s.file.start + r.offset) = .ok word) :
    slotAt space image e position r = .ok (index, s.memory.start + r.offset, .ofWord word) := by
  have hmem := List.mem_of_getElem? hs
  have hspan := (AddressSpace.fitsWidth_of_build h).address_lt hmem hoffset
  have hresolve := AddressSpace.resolve_eq_ok_iff.2 ⟨s, hs, hoffset, hspan, rfl⟩
  have hbyte := AddressSpace.fileOffset_of_filled h hmem hsections hfilled hoffset
  unfold slotAt
  rw [Registers.target_eq_ok_iff.2 ⟨hsegment, hresolve⟩, ok_bind]
  dsimp only
  rw [hbyte]
  dsimp only
  rw [hword]
  rfl

/-- **What is followed in an image that holds a chain are its slots**, and those that bind emit their
actions. -/
theorem chain_of_holds (hcount : entries.length ≤ UInt16.size)
    {links : List (Link entries.length)} (hchain : links.IsChain Link.Precedes)
    (hfit : ∀ l ∈ links, l.offset + 8 ≤ s.memory.size)
    (hholds : Holds e s.file.start image links) (hsegment : r.segment = some index)
    (hoffset : links.head?.map Link.offset = some r.offset) :
    ∃ r', Eager.chain space image e entries.toArray position r =
      ⟨links.filterMap (Link.action? index s.memory.start position), .ok r'⟩ := by
  induction hholds generalizing r with
  | nil => cases hoffset
  | @cons l rest hword hrest ih =>
    have hoffset : r.offset = l.offset := (Option.some.inj hoffset).symm
    rw [List.forall_mem_cons] at hfit
    have hdistance := l.distance_lt hchain
    have hitems : (l :: rest).filterMap (Link.action? index s.memory.start position) =
        (l.action? index s.memory.start position).toList ++
          rest.filterMap (Link.action? index s.memory.start position) := by
      rw [List.filterMap_cons]
      cases l.action? index s.memory.start position <;> rfl
    rw [← hoffset] at hword
    have hslot : slotAt space image e position r =
        .ok (index, s.memory.start + r.offset, .ofWord (l.content.word (l.distance rest))) :=
      slotAt_of_runAt h hs hsections hfilled hsegment (by omega) hword
    rw [Content.ofWord_word hcount hdistance, hoffset] at hslot
    rw [Eager.chain_of_slotAt hslot, bindSlot_slot l hoffset, Outcome.bind_ok,
      Content.distance_slot, hitems]
    cases rest with
    | nil => exact ⟨r, rfl⟩
    | cons next rest =>
      -- The registers move to the next slot, which is in the segment as well.
      obtain ⟨hprecedes, hchain⟩ := List.isChain_cons_cons.1 hchain
      obtain ⟨hnext, hpos, -⟩ := hprecedes.distance_eq rest
      have hsize := hfit.2 next List.mem_cons_self
      have hempty : ¬s.memory.IsEmpty := ByteRange.not_isEmpty_of_pos (by omega)
      let r₁ : Registers := { r with offset := r.offset + l.distance (next :: rest) * 8 }
      have hadvance : Registers.advance space (l.distance (next :: rest) * 8) position r =
          .ok () r₁ := Registers.advance_of_le h hs hsegment hempty (by omega)
      have hoffset₁ : next.offset = r₁.offset := by
        show next.offset = r.offset + _
        omega
      obtain ⟨r', hr'⟩ := ih hchain hfit.2 (r := r₁) hsegment (congrArg some hoffset₁)
      refine ⟨r', ?_⟩
      rw [if_neg (Nat.ne_of_gt hpos), Outcome.ofUpdate_of_ok hadvance, pure_bind, hr']

end Segment

end Bind

end MachO
