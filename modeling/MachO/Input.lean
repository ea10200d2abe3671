import MachO.Summary

/-!
# Inputs

An input is an image or a fat archive of images.

* `InputError`: why an input cannot be summarized;
* `InputSummary.read`: the summary of a byte string;
* `File.load`, `InputSummary.ofFile`: the bytes of a file within a size limit, and their summary.
-/

namespace MachO

/-- A size beyond a limit. -/
structure Excess where
  limit : Nat
  found : Nat
  deriving DecidableEq, Repr

/-- The wording of an excess. -/
def Excess.message (e : Excess) : String :=
  s!"File size of {e.found} bytes exceeds the maximum allowed size of {e.limit} bytes."

/-- Why an input cannot be summarized. -/
inductive InputError
  | malformed (error : DecodeError)
  | tooLarge (excess : Excess)
  /-- There is no such file. -/
  | missing
  | badConfig (error : ConfigError)
  /-- The first word is the magic number of neither an image nor an archive. -/
  | unrecognized (magic : UInt32)
  deriving DecidableEq, Repr

/-- The wording of a failure. -/
def InputError.message : InputError → String
  | .malformed error => s!"Mach-O error: {error.message}"
  | .tooLarge excess => s!"I/O error: {excess.message}"
  | .missing => "I/O error: no such file"
  | .badConfig error => error.message
  | .unrecognized magic =>
    s!"Unrecognized input format (magic {Text.hexPadded 8 (magic.toNat)})"

/-- What is told of an input. -/
inductive InputSummary
  | image (summary : ImageSummary)
  | archive (slices : List SliceSummary)

/-- Whether a byte string begins like an image. -/
def Magic.begins (data : Bytes) : Bool :=
  match Magic.read data with
  | .ok _ => true
  | .error _ => false

/-- The bytes of a file, which may be no more than a limit. -/
def File.load (limit : Nat) (content : Bytes) : Except Excess Bytes :=
  if content.length ≤ limit then .ok content else .error ⟨limit, content.length⟩

namespace InputSummary

/-- The summary of a byte string.  A byte string of fewer than four bytes counts as one whose first
word is zero. -/
def read (data : Bytes) (config : Config) : Except InputError InputSummary :=
  if FatArchive.isFat data then do
    let archive ← (FatArchive.read data).mapError .malformed
    return .archive (archive.summaries config.budget)
  else if Magic.begins data then do
    let summary ← (ImageSummary.read data config.budget).mapError .malformed
    return .image summary
  else
    match FatArchive.magic data with
    | .ok magic => .error (.unrecognized magic)
    | .error _ => .error (.unrecognized 0)

/-- The summary of a file, whose content is missing if there is no such file. -/
def ofFile (content : Option Bytes) (config : Config) : Except InputError InputSummary := do
  config.validate.mapError .badConfig
  match content with
  | none => throw .missing
  | some content => do
    let data ← (File.load config.maxFileSize content).mapError .tooLarge
    read data config

end InputSummary

end MachO
