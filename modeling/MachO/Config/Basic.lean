/-!
# Limits

* `Budget`: limits on the work that is spent on one image;
* `Config`: a budget, and a limit on the size of an input;
* `Setting`: the limits by name, and `Config.validate`, which refuses a limit of zero;
* `Budget.text`, `Config.text`: how limits are shown.
-/

namespace MachO

/-- Limits on the work that is spent on one image. -/
structure Budget where
  /-- The greatest depth of an export trie. -/
  maxTrieDepth : Nat := 128
  /-- The greatest number of actions of one opcode stream. -/
  maxActions : Nat := 10000000
  /-- The greatest number of load commands. -/
  maxLoadCommands : Nat := 65536
  deriving DecidableEq, Repr, Inhabited

/-- The limits in one line. -/
def Budget.text (b : Budget) : String :=
  s!"Budget: trie depth {b.maxTrieDepth}, {b.maxActions} actions, " ++
    s!"{b.maxLoadCommands} load commands"

/-- All limits. -/
structure Config where
  /-- The greatest number of bytes of an input. -/
  maxFileSize : Nat := 536870912
  budget : Budget := {}
  deriving DecidableEq, Repr, Inhabited

/-- The names of the limits. -/
inductive Setting
  | maxFileSize
  | maxTrieDepth
  | maxActions
  | maxLoadCommands
  deriving DecidableEq, Repr

namespace Setting

/-- All limits, in the order in which they are checked. -/
def all : List Setting := [.maxFileSize, .maxTrieDepth, .maxActions, .maxLoadCommands]

/-- The limit as it is written, behind the name of its group. -/
def name : Setting → String
  | .maxFileSize => "io.max_file_size"
  | .maxTrieDepth => "decode.max_trie_depth"
  | .maxActions => "decode.max_actions"
  | .maxLoadCommands => "decode.max_load_commands"

/-- The value of a limit. -/
def value (c : Config) : Setting → Nat
  | .maxFileSize => c.maxFileSize
  | .maxTrieDepth => c.budget.maxTrieDepth
  | .maxActions => c.budget.maxActions
  | .maxLoadCommands => c.budget.maxLoadCommands

end Setting

/-- Why limits are refused. -/
inductive ConfigError
  /-- The text does not describe limits. -/
  | unreadable
  /-- With a limit of zero nothing could be decoded. -/
  | zero (setting : Setting)
  deriving DecidableEq, Repr

/-- The wording of a refusal. -/
def ConfigError.message : ConfigError → String
  | .unreadable => "Serialization error"
  | .zero setting => s!"Invalid configuration: {setting.name} must be non-zero"

namespace Config

/-- Refuses the first limit that is zero. -/
def validate (c : Config) : Except ConfigError Unit :=
  match Setting.all.find? fun setting => setting.value c == 0 with
  | some setting => .error (.zero setting)
  | none => .ok ()

theorem validate_eq_ok_iff {c : Config} {u : Unit} :
    c.validate = .ok u ↔ ∀ setting, Setting.value c setting ≠ 0 := by
  unfold validate
  split
  · rename_i setting h
    simp only [reduceCtorEq, false_iff]
    intro hall
    have := List.find?_some h
    exact hall setting (by simpa using this)
  · rename_i h
    simp only [true_iff]
    intro setting
    have := List.find?_eq_none.1 h setting (by cases setting <;> decide)
    simpa using this

/-- The limits as JSON, with a line for each limit. -/
def text (c : Config) : String :=
  "\n".intercalate [
    "\x7b",
    "  \"io\": \x7b",
    s!"    \"max_file_size\": {c.maxFileSize}",
    "  \x7d,",
    "  \"decode\": \x7b",
    s!"    \"max_trie_depth\": {c.budget.maxTrieDepth},",
    s!"    \"max_actions\": {c.budget.maxActions},",
    s!"    \"max_load_commands\": {c.budget.maxLoadCommands}",
    "  \x7d",
    "\x7d"]

end Config

end MachO
