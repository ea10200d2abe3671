import MachO.Config.Basic
import MachO.Json.Value

/-!
# Reading limits

Limits are read from JSON.  A group of limits is an object, or an array with the limits in order;
limits that are not named keep their default.

* `Json.Value.fields?`: the values of named fields;
* `Budget.ofJson?`, `Config.ofJson?`: groups of limits;
* `Config.read`: limits from a text.
-/

namespace MachO

namespace Json.Value

/-- The values of the fields of an object, or of an array that has no more items than there are
fields.  In an object, every key has a text, and no field occurs twice; other keys are ignored. -/
def fields? (keys : List String) : Value → Option (List (Option Value))
  | .object members => do
    let members ← members.mapM fun (key, value) => key.map fun key => (key, value)
    keys.mapM fun key =>
      match members.filter (·.1 == key) with
      | [] => some none
      | [(_, value)] => some (some value)
      | _ => none
  | .array items =>
    if items.length ≤ keys.length then some ((List.range keys.length).map (items[·]?)) else none
  | _ => none

/-- A number below a bound that is written in digits alone. -/
def natBelow? (bound : Nat) : Value → Option Nat
  | .number (some n) => if n < bound then some n else none
  | _ => none

/-- What is made of the value of a field, or a default where the field is missing. -/
def orDefault {α : Type} (read : Value → Option α) (default : α) : Option Value → Option α
  | none => some default
  | some value => read value

end Json.Value

open Json (Value)

/-- The limits on the work that is spent on one image. -/
def Budget.ofJson? (value : Value) : Option Budget :=
  let default : Budget := {}
  match value.fields? ["max_trie_depth", "max_actions", "max_load_commands"] with
  | some [depth, actions, commands] => do
    return {
      maxTrieDepth := ← Value.orDefault (Value.natBelow? UInt64.size) default.maxTrieDepth depth
      maxActions := ← Value.orDefault (Value.natBelow? UInt64.size) default.maxActions actions
      maxLoadCommands :=
        ← Value.orDefault (Value.natBelow? UInt32.size) default.maxLoadCommands commands }
  | _ => none

namespace Config

/-- The limit on the size of an input, in a group of its own. -/
def fileSize? (value : Value) : Option Nat :=
  match value.fields? ["max_file_size"] with
  | some [size] => Value.orDefault (Value.natBelow? UInt64.size) ({} : Config).maxFileSize size
  | _ => none

/-- All limits. -/
def ofJson? (value : Value) : Option Config :=
  match value.fields? ["io", "decode"] with
  | some [io, decode] => do
    return {
      maxFileSize := ← Value.orDefault fileSize? ({} : Config).maxFileSize io
      budget := ← Value.orDefault Budget.ofJson? {} decode }
  | _ => none

/-- The limits that a text describes, none of which may be zero. -/
def read (text : String) : Except ConfigError Config :=
  match (Json.parse? text).bind ofJson? with
  | none => .error .unreadable
  | some config => do
    config.validate
    return config

end Config

end MachO
