/-!
# The tokens of JSON text

* `Json.Token`: punctuation, literals, numbers and strings;
* `Json.pieces`: the characters and escapes of a string;
* `Json.number`: a number;
* `Json.tokens`: the tokens of a text, between which blanks may stand.

Of a number, only the value of a plain natural number is kept.  A string may hold an escape for half
of a surrogate pair, in which case it has no text.
-/

namespace MachO.Json

/-- The tokens. -/
inductive Token
  | openBrace
  | closeBrace
  | openBracket
  | closeBracket
  | colon
  | comma
  | null
  | bool (value : Bool)
  /-- A number, with its value if it is written in digits alone. -/
  | number (value : Option Nat)
  /-- A string, with its text if it has one. -/
  | text (value : Option String)
  deriving DecidableEq, Repr

/-- A part of a string: a character, or the escape of a 16-bit unit. -/
inductive Piece
  | char (c : Char)
  | unit (n : Nat)
  deriving DecidableEq, Repr

/-- The value of a digit in base 16. -/
def hexValue? (c : Char) : Option Nat :=
  if '0' ≤ c ∧ c ≤ '9' then some (c.toNat - '0'.toNat)
  else if 'a' ≤ c ∧ c ≤ 'f' then some (c.toNat - 'a'.toNat + 10)
  else if 'A' ≤ c ∧ c ≤ 'F' then some (c.toNat - 'A'.toNat + 10)
  else none

/-- The value of four digits in base 16. -/
def hexUnit? (a b c d : Char) : Option Nat := do
  return (← hexValue? a) * 4096 + (← hexValue? b) * 256 + (← hexValue? c) * 16 + (← hexValue? d)

/-- The character that a letter behind a backslash stands for. -/
def escaped? (c : Char) : Option Char :=
  if c = '\x22' ∨ c = '\x5c' ∨ c = '/' then some c
  else if c = 'b' then some '\x08'
  else if c = 'f' then some '\x0c'
  else if c = 'n' then some '\x0a'
  else if c = 'r' then some '\x0d'
  else if c = 't' then some '\x09'
  else none

/-- The parts of a string up to the quote that ends it, and what follows the quote. -/
def pieces : List Char → Option (List Piece × List Char)
  | [] => none
  | '\x22' :: rest => some ([], rest)
  | '\x5c' :: 'u' :: a :: b :: c :: d :: rest => do
    let n ← hexUnit? a b c d
    let (more, rest) ← pieces rest
    return (.unit n :: more, rest)
  | '\x5c' :: c :: rest => do
    let c ← escaped? c
    let (more, rest) ← pieces rest
    return (.char c :: more, rest)
  | c :: rest =>
    if c.toNat < 0x20 then none
    else do
      let (more, rest) ← pieces rest
      return (.char c :: more, rest)

/-- The characters of a string.  An escape for the first half of a surrogate pair has to stand
before one for the second half. -/
def characters? : List Piece → Option (List Char)
  | [] => some []
  | .char c :: rest => (characters? rest).map (c :: ·)
  | .unit n :: rest =>
    if n < 0xd800 ∨ 0xe000 ≤ n then (characters? rest).map (Char.ofNat n :: ·)
    else
      match rest with
      | .unit m :: rest =>
        if n < 0xdc00 ∧ 0xdc00 ≤ m ∧ m < 0xe000 then
          let c := Char.ofNat (0x10000 + (n - 0xd800) * 1024 + (m - 0xdc00))
          (characters? rest).map (c :: ·)
        else none
      | _ => none

/-- What follows at least one digit. -/
def digits (cs : List Char) : Option (List Char) :=
  match cs with
  | c :: rest => if c.isDigit then some (rest.dropWhile (·.isDigit)) else none
  | [] => none

/-- What follows the digits before the point of a number.  Only zero itself begins with a zero. -/
def integer (cs : List Char) : Option (List Char) :=
  match cs with
  | '0' :: rest => some rest
  | _ => digits cs

/-- What follows a point and the digits behind it, if there is one. -/
def fraction (cs : List Char) : Option (List Char) :=
  match cs with
  | '.' :: rest => digits rest
  | _ => some cs

/-- What follows an exponent, if there is one. -/
def exponent (cs : List Char) : Option (List Char) :=
  match cs with
  | c :: rest =>
    if c = 'e' ∨ c = 'E' then
      match rest with
      | s :: rest' => if s = '+' ∨ s = '-' then digits rest' else digits rest
      | [] => none
    else some cs
  | [] => some cs

/-- A number, and what follows it. -/
def number (cs : List Char) : Option (Token × List Char) :=
  match cs with
  | '-' :: rest => do
    let rest ← exponent (← fraction (← integer rest))
    return (.number none, rest)
  | _ => do
    let whole ← integer cs
    let rest ← exponent (← fraction whole)
    if rest.length = whole.length then
      let value := String.ofList (cs.take (cs.length - whole.length))
      return (.number value.toNat?, rest)
    else return (.number none, rest)

/-- The token at the start of a text, and what follows it. -/
def token (cs : List Char) : Option (Token × List Char) :=
  match cs with
  | '\x7b' :: rest => some (.openBrace, rest)
  | '\x7d' :: rest => some (.closeBrace, rest)
  | '[' :: rest => some (.openBracket, rest)
  | ']' :: rest => some (.closeBracket, rest)
  | ':' :: rest => some (.colon, rest)
  | ',' :: rest => some (.comma, rest)
  | 'n' :: 'u' :: 'l' :: 'l' :: rest => some (.null, rest)
  | 't' :: 'r' :: 'u' :: 'e' :: rest => some (.bool true, rest)
  | 'f' :: 'a' :: 'l' :: 's' :: 'e' :: rest => some (.bool false, rest)
  | '\x22' :: rest => do
    let (parts, rest) ← pieces rest
    return (.text ((characters? parts).map String.ofList), rest)
  | _ => number cs

/-- The blanks that may stand between tokens. -/
def isBlank (c : Char) : Bool := c = ' ' ∨ c = '\x0a' ∨ c = '\x0d' ∨ c = '\x09'

theorem length_lt_of_pieces {cs rest : List Char} {parts : List Piece}
    (h : pieces cs = some (parts, rest)) : rest.length < cs.length := by
  fun_induction pieces cs generalizing parts with
  | case1 => cases h
  | case2 =>
    cases h
    simp
  | case3 a b c d rest' ih =>
    simp only [Option.bind_eq_bind, Option.bind_eq_some_iff] at h
    obtain ⟨n, -, ⟨more, rest''⟩, hmore, h⟩ := h
    cases h
    have : rest''.length < _ := ih hmore
    simp only [List.length_cons]
    omega
  | case4 c rest' _ ih =>
    simp only [Option.bind_eq_bind, Option.bind_eq_some_iff] at h
    obtain ⟨c', -, ⟨more, rest''⟩, hmore, h⟩ := h
    cases h
    have : rest''.length < _ := ih hmore
    simp only [List.length_cons]
    omega
  | case5 => cases h
  | case6 c rest' _ _ _ _ ih =>
    simp only [Option.bind_eq_bind, Option.bind_eq_some_iff] at h
    obtain ⟨⟨more, rest''⟩, hmore, h⟩ := h
    cases h
    have : rest''.length < _ := ih hmore
    simp only [List.length_cons]
    omega

theorem length_dropWhile_le (p : Char → Bool) (cs : List Char) :
    (cs.dropWhile p).length ≤ cs.length := (List.dropWhile_sublist p).length_le

theorem length_lt_of_digits {cs rest : List Char} (h : digits cs = some rest) :
    rest.length < cs.length := by
  unfold digits at h
  split at h
  · split at h
    · cases h
      exact Nat.lt_succ_of_le (length_dropWhile_le _ _)
    · cases h
  · cases h

theorem length_lt_of_integer {cs rest : List Char} (h : integer cs = some rest) :
    rest.length < cs.length := by
  unfold integer at h
  split at h
  · cases h
    simp
  · exact length_lt_of_digits h

theorem length_le_of_fraction {cs rest : List Char} (h : fraction cs = some rest) :
    rest.length ≤ cs.length := by
  unfold fraction at h
  split at h
  · have := length_lt_of_digits h
    simp only [List.length_cons]
    omega
  · cases h
    exact Nat.le_refl _

theorem length_le_of_exponent {cs rest : List Char} (h : exponent cs = some rest) :
    rest.length ≤ cs.length := by
  unfold exponent at h
  split at h
  · split at h
    · split at h
      · split at h
        · have := length_lt_of_digits h
          simp only [List.length_cons]
          omega
        · have := length_lt_of_digits h
          simp only [List.length_cons] at this ⊢
          omega
      · cases h
    · cases h
      exact Nat.le_refl _
  · cases h
    exact Nat.le_refl _

theorem length_lt_of_number {cs rest : List Char} {t : Token} (h : number cs = some (t, rest)) :
    rest.length < cs.length := by
  unfold number at h
  split at h
  · simp only [Option.bind_eq_bind, Option.bind_eq_some_iff] at h
    obtain ⟨a, ha, b, hb, c, hc, h⟩ := h
    cases h
    have := length_lt_of_integer ha
    have := length_le_of_fraction hb
    have := length_le_of_exponent hc
    simp only [List.length_cons]
    omega
  · simp only [Option.bind_eq_bind, Option.bind_eq_some_iff] at h
    obtain ⟨a, ha, b, hb, c, hc, h⟩ := h
    have := length_lt_of_integer ha
    have := length_le_of_fraction hb
    have := length_le_of_exponent hc
    split at h <;> cases h <;> omega

theorem length_lt_of_token {cs rest : List Char} {t : Token} (h : token cs = some (t, rest)) :
    rest.length < cs.length := by
  unfold token at h
  split at h
  case h_11 => exact length_lt_of_number h
  case h_10 =>
    simp only [Option.bind_eq_bind, Option.bind_eq_some_iff] at h
    obtain ⟨⟨parts, rest'⟩, hparts, h⟩ := h
    cases h
    exact Nat.lt_succ_of_lt (length_lt_of_pieces hparts)
  all_goals
    cases h
    simp only [List.length_cons]
    omega

/-- The tokens of a text, if all of it is made of tokens. -/
def tokens (cs : List Char) : Option (List Token) :=
  match hcs : cs.dropWhile isBlank with
  | [] => some []
  | c :: rest =>
    match htoken : token (c :: rest) with
    | none => none
    | some (t, rest') =>
      have : rest'.length < cs.length := by
        have := length_lt_of_token htoken
        have := length_dropWhile_le isBlank cs
        rw [hcs] at this
        omega
      (tokens rest').map (t :: ·)
termination_by cs.length

end MachO.Json
