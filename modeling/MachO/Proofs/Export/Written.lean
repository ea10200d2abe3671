import MachO.Export.Node
import MachO.Proofs.Reading

/-!
# How the nodes of a trie are written

* `Export.eq_code_add_bits_iff`: the word that stands for a kind and flags;
* `Export.Target.Written`, `Export.Terminal.Written`: the four shapes of terminal information;
* `Export.Edge.Written`, `Export.Node.Written`: nodes and the ways to their children;
* `Export.Node.read_eq_ok_iff`: a node is read where its bytes stand.
-/

namespace MachO.Export

open Leb128 (Unsigned)
open ReadM (Reads Row)

/-! ### Kinds and flags -/

theorem Kind.code_lt (kind : Kind) : kind.code < 4 := by
  cases kind <;> decide

theorem Kind.ofNat?_eq_some_iff {n : Nat} {kind : Kind} :
    Kind.ofNat? n = some kind ↔ n % 4 = kind.code := by
  unfold Kind.ofNat?
  split <;> cases kind <;> simp_all [Kind.code]

/-- The low two bits say nothing of the flags. -/
theorem Flags.ofNat?_eq_some_iff {n : Nat} {flags : Flags} :
    Flags.ofNat? n = some flags ↔ n = n % 4 + flags.bits := by
  unfold Flags.ofNat? Flags.bits
  constructor
  · intro h
    obtain ⟨hlt, hflags⟩ := Option.ite_none_right_eq_some.1 h
    cases hflags
    simp only [Nat.toNat_testBit]
    omega
  · intro h
    have hlow : n % 4 < 4 := Nat.mod_lt n (by decide)
    obtain ⟨weak, reexport, resolver, static⟩ := flags
    generalize n % 4 = low at h hlow
    subst h
    decide +revert

theorem Flags.bits_mod (flags : Flags) : flags.bits % 4 = 0 := by
  unfold bits
  omega

/-- **The kind and the flags of a word are those whose bits make it up.** -/
theorem eq_code_add_bits_iff {word : Nat} {kind : Kind} {flags : Flags} :
    word = kind.code + flags.bits ↔
      Flags.ofNat? word = some flags ∧ Kind.ofNat? word = some kind := by
  rw [Flags.ofNat?_eq_some_iff, Kind.ofNat?_eq_some_iff]
  have hcode := kind.code_lt
  have hbits := flags.bits_mod
  omega

/-! ### Terminal information -/

/-- How the target of a symbol with some flags and a kind is written. -/
inductive Target.Written (flags : Flags) (kind : Kind) : Target → Bytes → Prop
  | definition {offset : Nat} {digits : Bytes} (hreexport : flags.reexport = false)
      (hresolver : flags.stubAndResolver = false) (hoffset : Unsigned offset digits) :
      Written flags kind (.definition kind offset none) digits
  | resolved {offset resolver : Nat} {digits digits' : Bytes} (hreexport : flags.reexport = false)
      (hresolver : flags.stubAndResolver = true) (hoffset : Unsigned offset digits)
      (haddress : Unsigned resolver digits') :
      Written flags kind (.definition kind offset (some resolver)) (digits ++ digits')
  | sameName {ordinal : Nat} {digits : Bytes} (hreexport : flags.reexport = true)
      (hresolver : flags.stubAndResolver = false) (hordinal : Unsigned ordinal digits) :
      Written flags kind (.reexport ordinal none) (digits ++ [0])
  | otherName {ordinal : Nat} {digits name : Bytes} (hreexport : flags.reexport = true)
      (hresolver : flags.stubAndResolver = false) (hordinal : Unsigned ordinal digits)
      (hname : name ≠ []) (hzero : 0 ∉ name) :
      Written flags kind (.reexport ordinal (some (Text.Utf8.decodeLossy name)))
        (digits ++ (name ++ [0]))

/-- Terminal information is a word with the bits of the kind and of the flags, and the target behind
it.  The word of a re-exported symbol has a kind as well, which says nothing. -/
def Terminal.Written (terminal : Terminal) (bs : Bytes) : Prop :=
  ∃ (kind : Kind) (digits target : Bytes), Unsigned (kind.code + terminal.flags.bits) digits ∧
    terminal.target.Written terminal.flags kind target ∧ bs = digits ++ target

theorem Terminal.Written.ne_nil {terminal : Terminal} {bs : Bytes} (h : terminal.Written bs) :
    bs ≠ [] := by
  obtain ⟨kind, digits, target, hword, -, rfl⟩ := h
  exact List.append_ne_nil_of_left_ne_nil hword.ne_nil target

theorem Target.Written.ne_nil {flags : Flags} {kind : Kind} {target : Target} {bs : Bytes}
    (h : target.Written flags kind bs) : bs ≠ [] := by
  cases h with
  | definition _ _ hoffset => exact hoffset.ne_nil
  | resolved _ _ hoffset _ => exact List.append_ne_nil_of_left_ne_nil hoffset.ne_nil _
  | sameName _ _ hordinal => exact List.append_ne_nil_of_left_ne_nil hordinal.ne_nil _
  | otherName _ _ hordinal _ _ => exact List.append_ne_nil_of_left_ne_nil hordinal.ne_nil _

/-- Terminal information takes a byte for the flags and one for the target. -/
theorem Terminal.Written.two_le {terminal : Terminal} {bs : Bytes} (h : terminal.Written bs) :
    2 ≤ bs.length := by
  obtain ⟨kind, digits, target, hword, htarget, rfl⟩ := h
  have hdigits := List.length_pos_iff.2 hword.ne_nil
  have htarget := List.length_pos_iff.2 htarget.ne_nil
  rw [List.length_append]
  omega

/-- No symbol is a re-export with a resolver. -/
theorem Target.Written.not_reexport_and_resolver {flags : Flags} {kind : Kind} {target : Target}
    {bs : Bytes} (h : target.Written flags kind bs) :
    ¬(flags.reexport ∧ flags.stubAndResolver) := by
  rintro ⟨hreexport, hresolver⟩
  cases h <;> simp_all

theorem Target.reads_definitionReader {flags : Flags} {kind : Kind}
    (hreexport : flags.reexport = false) :
    Reads (Target.definitionReader kind flags.stubAndResolver) (Target.Written flags kind) := by
  unfold Target.definitionReader
  cases hresolver : flags.stubAndResolver with
  | false =>
    refine (ReadM.reads_uleb.map fun offset => Target.definition kind offset none).congr ?_
    intro target bs
    constructor
    · rintro ⟨offset, hoffset, rfl⟩
      exact .definition hreexport hresolver hoffset
    · intro h
      cases h with
      | definition _ _ hoffset => exact ⟨_, hoffset, rfl⟩
      | resolved _ h => exact absurd (hresolver.symm.trans h) (by decide)
      | sameName h => exact absurd (hreexport.symm.trans h) (by decide)
      | otherName h => exact absurd (hreexport.symm.trans h) (by decide)
  | true =>
    refine (ReadM.reads_uleb.bind fun offset =>
      ReadM.reads_uleb.map fun resolver => Target.definition kind offset (some resolver)).congr ?_
    intro target bs
    constructor
    · rintro ⟨offset, digits, digits', hoffset, ⟨resolver, haddress, rfl⟩, rfl⟩
      exact .resolved hreexport hresolver hoffset haddress
    · intro h
      cases h with
      | definition _ h => exact absurd (hresolver.symm.trans h) (by decide)
      | resolved _ _ hoffset haddress => exact ⟨_, _, _, hoffset, ⟨_, haddress, rfl⟩, rfl⟩
      | sameName h => exact absurd (hreexport.symm.trans h) (by decide)
      | otherName h => exact absurd (hreexport.symm.trans h) (by decide)

theorem Target.reads_reexportReader {flags : Flags} {kind : Kind}
    (hreexport : flags.reexport = true) (hresolver : flags.stubAndResolver = false) :
    Reads Target.reexportReader (Target.Written flags kind) := by
  refine (ReadM.reads_uleb.bind fun ordinal => ReadM.reads_terminated.map fun name =>
    Target.reexport ordinal
      (if name.isEmpty then none else some (Text.Utf8.decodeLossy name))).congr ?_
  intro target bs
  constructor
  · rintro ⟨ordinal, digits, _, hordinal, ⟨name, ⟨hzero, rfl⟩, rfl⟩, rfl⟩
    cases name with
    | nil => exact .sameName hreexport hresolver hordinal
    | cons b name => exact .otherName hreexport hresolver hordinal (List.cons_ne_nil b name) hzero
  · intro h
    cases h with
    | definition h => exact absurd (hreexport.symm.trans h) (by decide)
    | resolved h => exact absurd (hreexport.symm.trans h) (by decide)
    | sameName _ _ hordinal =>
      exact ⟨_, _, _, hordinal, ⟨[], ⟨List.not_mem_nil, rfl⟩, rfl⟩, rfl⟩
    | @otherName _ _ name _ _ hordinal hname hzero =>
      refine ⟨_, _, _, hordinal, ⟨name, ⟨hzero, rfl⟩, ?_⟩, rfl⟩
      rw [List.isEmpty_eq_false_iff.2 hname]
      rfl

theorem Target.reads {flags : Flags} {kind : Kind}
    (h : ¬(flags.reexport ∧ flags.stubAndResolver)) :
    Reads (if flags.reexport then Target.reexportReader
      else Target.definitionReader kind flags.stubAndResolver) (Target.Written flags kind) := by
  by_cases hreexport : flags.reexport = true
  · rw [if_pos hreexport]
    rw [not_and, Bool.not_eq_true] at h
    exact Target.reads_reexportReader hreexport (h hreexport)
  · rw [if_neg hreexport]
    rw [Bool.not_eq_true] at hreexport
    exact Target.reads_definitionReader hreexport

/-- Terminal information takes all bytes that are left. -/
theorem Terminal.reader_eq_ok_iff {position : Nat} {terminal : Terminal} {c c' : Cursor} :
    Terminal.reader position c = .ok terminal c' ↔
      terminal.Written c.rest ∧ c' = ⟨c.pos + c.rest.length, []⟩ := by
  unfold Terminal.reader
  rw [ReadM.bind_eq_ok_iff]
  constructor
  · rintro ⟨word, c₁, hword, h⟩
    obtain ⟨digits, hdigits, hrest, hpos⟩ := (ReadM.reads_uleb _ _ _).1 hword
    cases hflags : Flags.ofNat? word with
    | none =>
      rw [hflags] at h
      cases h
    | some flags =>
      cases hkind : Kind.ofNat? word with
      | none =>
        rw [hflags, hkind] at h
        cases h
      | some kind =>
        rw [hflags, hkind] at h
        obtain ⟨_, _, hrequire, h⟩ := ReadM.bind_eq_ok_iff.1 h
        obtain ⟨hvalid, rfl⟩ := ReadM.require_eq_ok_iff.1 hrequire
        rw [ReadM.ite_bind] at h
        obtain ⟨target, c₂, htarget, h⟩ := ReadM.bind_eq_ok_iff.1 h
        obtain ⟨bs, hbs, hrest₁, hpos₁⟩ := (Target.reads hvalid _ _ _).1 htarget
        obtain ⟨complete, _, hcomplete, h⟩ := ReadM.bind_eq_ok_iff.1 h
        cases hcomplete
        obtain ⟨_, _, hrequire, h⟩ := ReadM.bind_eq_ok_iff.1 h
        obtain ⟨hend, rfl⟩ := ReadM.require_eq_ok_iff.1 hrequire
        cases h
        -- No byte is left, so the bytes of the word and of the target are all there were.
        have hnil : c'.rest = [] := List.isEmpty_iff.1 hend
        rw [hnil, List.append_nil] at hrest₁
        rw [hrest₁] at hrest
        rw [eq_code_add_bits_iff.2 ⟨hflags, hkind⟩] at hdigits
        refine ⟨⟨kind, digits, bs, hdigits, hbs, hrest⟩, Cursor.ext ?_ hnil⟩
        rw [hrest, List.length_append, hpos₁, hpos, Nat.add_assoc]
  · rintro ⟨⟨kind, digits, bs, hdigits, hbs, hrest⟩, rfl⟩
    have hvalid := hbs.not_reexport_and_resolver
    obtain ⟨hflags, hkind⟩ := eq_code_add_bits_iff.1 (Eq.refl (kind.code + terminal.flags.bits))
    refine ⟨_, ⟨c.pos + digits.length, bs⟩,
      (ReadM.reads_uleb _ _ _).2 ⟨digits, hdigits, hrest, rfl⟩, ?_⟩
    simp only [hflags, hkind]
    refine ReadM.bind_eq_ok_iff.2 ⟨(), _, ReadM.require_eq_ok_iff.2 ⟨hvalid, rfl⟩, ?_⟩
    rw [ReadM.ite_bind]
    refine ReadM.bind_eq_ok_iff.2 ⟨terminal.target, ⟨c.pos + c.rest.length, []⟩,
      (Target.reads hvalid ⟨c.pos + digits.length, bs⟩ _ _).2
        ⟨bs, hbs, (List.append_nil bs).symm, ?_⟩, ?_⟩
    · rw [hrest, List.length_append, Nat.add_assoc]
    · rfl

/-- The bytes of a node's terminal information; there are none when no symbol ends at the node. -/
def Node.TerminalWritten : Option Terminal → Bytes → Prop
  | none, bs => bs = []
  | some terminal, bs => terminal.Written bs

/-- A terminal is read in a window of just its size, and only behind a name. -/
theorem Terminal.reads_inNode (start size : Nat) (name : Bytes) :
    Reads (Terminal.inNode start size name) fun terminal bs =>
      bs.length = size ∧ Node.TerminalWritten terminal bs ∧ (terminal.isSome → name ≠ []) := by
  intro c terminal c'
  unfold Terminal.inNode
  by_cases hsize : size = 0
  · subst hsize
    rw [if_pos rfl, ReadM.reads_pure none c terminal c']
    refine exists_congr fun bs => and_congr_left fun _ => ?_
    show _ ∧ _ ↔ bs.length = 0 ∧ _
    rw [List.length_eq_zero_iff]
    constructor
    · rintro ⟨rfl, rfl⟩
      exact ⟨rfl, rfl, by simp⟩
    · rintro ⟨rfl, hwritten, -⟩
      cases terminal with
      | none => exact ⟨rfl, rfl⟩
      | some terminal => exact absurd rfl hwritten.ne_nil
  · rw [if_neg hsize]
    constructor
    · intro h
      obtain ⟨_, _, hposition, h⟩ := ReadM.bind_eq_ok_iff.1 h
      cases hposition
      obtain ⟨_, _, hremaining, h⟩ := ReadM.bind_eq_ok_iff.1 h
      cases hremaining
      obtain ⟨_, _, hrequire, h⟩ := ReadM.bind_eq_ok_iff.1 h
      obtain ⟨hfits, rfl⟩ := ReadM.require_eq_ok_iff.1 hrequire
      obtain ⟨_, _, hrequire, h⟩ := ReadM.bind_eq_ok_iff.1 h
      obtain ⟨hname, rfl⟩ := ReadM.require_eq_ok_iff.1 hrequire
      obtain ⟨t, c₁, hwindow, h⟩ := ReadM.bind_eq_ok_iff.1 h
      cases h
      obtain ⟨bs, hlength, ⟨c₂, hread⟩, hrest, hpos⟩ := (ReadM.window_eq_ok_iff hfits).1 hwindow
      exact ⟨bs, ⟨hlength, (Terminal.reader_eq_ok_iff.1 hread).1, fun _ => hname⟩, hrest, hpos⟩
    · rintro ⟨bs, ⟨hlength, hwritten, hname⟩, hrest, hpos⟩
      cases terminal with
      | none =>
        rw [show bs = [] from hwritten] at hlength
        exact absurd hlength.symm hsize
      | some t =>
        have hfits : size ≤ c.rest.length := by
          rw [hrest, List.length_append, hlength]
          exact Nat.le_add_right _ _
        refine ReadM.bind_eq_ok_iff.2 ⟨c.pos, c, rfl, ?_⟩
        refine ReadM.bind_eq_ok_iff.2 ⟨c.rest.length, c, rfl, ?_⟩
        refine ReadM.bind_eq_ok_iff.2 ⟨(), c, ReadM.require_eq_ok_iff.2 ⟨hfits, rfl⟩, ?_⟩
        refine ReadM.bind_eq_ok_iff.2 ⟨(), c, ReadM.require_eq_ok_iff.2 ⟨hname rfl, rfl⟩, ?_⟩
        refine ReadM.bind_eq_ok_iff.2 ⟨t, c', ?_, rfl⟩
        exact (ReadM.window_eq_ok_iff hfits).2
          ⟨bs, hlength, ⟨_, Terminal.reader_eq_ok_iff.2 ⟨hwritten, rfl⟩⟩, hrest, hpos⟩

/-! ### Nodes -/

/-- The way to a child is a label that a zero byte ends, and the place of the child. -/
def Edge.Written (edge : Edge) (bs : Bytes) : Prop :=
  ∃ digits, 0 ∉ edge.label ∧ Unsigned edge.child digits ∧ bs = edge.label ++ 0 :: digits

/-- A node is the size of its terminal information and that information, the number of its children
and the ways to them. -/
def Node.Written (node : Node) (bs : Bytes) : Prop :=
  ∃ (size terminal edges : Bytes) (count : UInt8),
    Unsigned terminal.length size ∧ Node.TerminalWritten node.terminal terminal ∧
      node.edges.length = count.toNat ∧ Row Edge.Written node.edges edges ∧
        bs = size ++ (terminal ++ count :: edges)

theorem Edge.reads_reader : Reads Edge.reader Edge.Written := by
  refine (ReadM.reads_terminated.bind fun label => ReadM.reads_uleb.map (Edge.mk label)).congr ?_
  intro edge bs
  constructor
  · rintro ⟨label, _, digits, ⟨hzero, rfl⟩, ⟨child, hchild, rfl⟩, rfl⟩
    exact ⟨digits, hzero, hchild, List.append_assoc label [0] digits⟩
  · rintro ⟨digits, hzero, hchild, rfl⟩
    exact ⟨edge.label, _, digits, ⟨hzero, rfl⟩, ⟨edge.child, hchild, rfl⟩,
      (List.append_assoc edge.label [0] digits).symm⟩

theorem Node.reads_reader (name : Bytes) :
    Reads (Node.reader name) fun node bs =>
      node.Written bs ∧ (node.terminal.isSome → name ≠ []) := by
  refine ReadM.Reads.of_position fun start => ?_
  refine (ReadM.reads_uleb.bind fun size => (Terminal.reads_inNode start size name).bind
    fun terminal => ReadM.reads_u8.bind fun count =>
      (Edge.reads_reader.times count.toNat).map (Node.mk terminal)).congr ?_
  intro node bs
  constructor
  · rintro ⟨_, size, _, hsize, ⟨terminal, ts, _, ⟨rfl, hterminal, hname⟩,
      ⟨count, _, es, rfl, ⟨edges, ⟨hcount, hedges⟩, rfl⟩, rfl⟩, rfl⟩, rfl⟩
    exact ⟨⟨size, ts, es, count, hsize, hterminal, hcount, hedges, rfl⟩, hname⟩
  · rintro ⟨⟨size, ts, es, count, hsize, hterminal, hcount, hedges, rfl⟩, hname⟩
    exact ⟨ts.length, size, _, hsize, ⟨node.terminal, ts, _, ⟨rfl, hterminal, hname⟩,
      ⟨count, [count], es, rfl, ⟨node.edges, ⟨hcount, hedges⟩, rfl⟩, rfl⟩, rfl⟩, rfl⟩

theorem Node.Written.length_pos {node : Node} {bs : Bytes} (h : node.Written bs) :
    0 < bs.length := by
  obtain ⟨size, terminal, edges, count, hsize, -, -, -, rfl⟩ := h
  rw [List.length_pos_iff]
  exact List.append_ne_nil_of_left_ne_nil hsize.ne_nil _

/-- A node takes a byte for the size of its terminal information, that information, and a byte for
the number of its children. -/
theorem Node.Written.two_add_le {node : Node} {bs : Bytes} (h : node.Written bs) :
    2 + (if node.terminal.isSome then 2 else 0) ≤ bs.length := by
  obtain ⟨size, terminal, edges, count, hsize, hterminal, -, -, rfl⟩ := h
  have hsize := List.length_pos_iff.2 hsize.ne_nil
  rw [List.length_append, List.length_append, List.length_cons]
  split
  · rename_i hsome
    obtain ⟨t, ht⟩ := Option.isSome_iff_exists.1 hsome
    rw [ht] at hterminal
    have := Terminal.Written.two_le hterminal
    omega
  · omega

/-- **What is read at a position is the node whose bytes stand there.** -/
theorem Node.read_eq_ok_iff {data name : Bytes} {start stop : Nat} {node : Node} :
    Node.read data start name = .ok (node, stop) ↔
      ∃ bs, data.slice? start bs.length = some bs ∧ node.Written bs ∧
        (node.terminal.isSome → name ≠ []) ∧ stop = start + bs.length := by
  have hread : Node.read data start name = .ok (node, stop) ↔
      ∃ rest, Node.reader name (Cursor.of data start) = .ok node ⟨stop, rest⟩ := by
    unfold Node.read
    cases h : Node.reader name (Cursor.of data start) with
    | ok node' c =>
      obtain ⟨pos, rest⟩ := c
      simp [and_comm]
    | error e c => simp
  rw [hread]
  constructor
  · rintro ⟨rest, h⟩
    obtain ⟨bs, ⟨hwritten, hname⟩, hrest, hpos⟩ := (Node.reads_reader name _ _ _).1 h
    refine ⟨bs, Bytes.slice?_eq_some_iff.2 ⟨?_, ?_⟩, hwritten, hname, hpos⟩
    · have hlength := congrArg List.length hrest
      have := hwritten.length_pos
      rw [Cursor.of, List.length_drop, List.length_append] at hlength
      omega
    · rw [show data.drop start = bs ++ rest from hrest, List.take_left]
  · rintro ⟨bs, hslice, hwritten, hname, rfl⟩
    obtain ⟨hle, htake⟩ := Bytes.slice?_eq_some_iff.1 hslice
    refine ⟨data.drop (start + bs.length), (Node.reads_reader name _ _ _).2
      ⟨bs, ⟨hwritten, hname⟩, ?_, rfl⟩⟩
    show data.drop start = bs ++ data.drop (start + bs.length)
    have hsplit := List.take_append_drop bs.length (data.drop start)
    rw [htake, List.drop_drop] at hsplit
    exact hsplit.symm

end MachO.Export
