import MachO.Json.Token

/-!
# JSON values

* `Json.Value`: what a JSON text stands for.  The members of an object keep their order, and a key
  may occur more than once;
* `Json.step`: reads one token.  The arrays and objects that are open are kept in a list, so that
  they may be nested to any depth;
* `Json.parse?`: the value of a text.
-/

namespace MachO.Json

/-- A value. -/
inductive Value
  | null
  | bool (value : Bool)
  /-- A number, with its value if it is written in digits alone. -/
  | number (value : Option Nat)
  /-- A string, with its text if it has one. -/
  | text (value : Option String)
  | array (items : List Value)
  | object (members : List (Option String × Value))

/-- An array or object that is open, with its last part in front. -/
inductive Frame
  | array (items : List Value)
  /-- The value of the last key is still to come. -/
  | object (members : List (Option String × Value)) (key : Option String)

/-- What is expected next, inside of the arrays and objects that are open. -/
inductive State
  | value (stack : List Frame)
  /-- The first item of an array, or its end. -/
  | item (stack : List Frame)
  /-- A key, or in an object without members its end. -/
  | key (members : List (Option String × Value)) (stack : List Frame)
  /-- The colon behind a key. -/
  | colon (members : List (Option String × Value)) (key : Option String) (stack : List Frame)
  /-- What follows a value. -/
  | behind (value : Value) (stack : List Frame)

/-- Reads a token where a value is expected. -/
def stepValue (stack : List Frame) : Token → Option State
  | .null => some (.behind .null stack)
  | .bool b => some (.behind (.bool b) stack)
  | .number n => some (.behind (.number n) stack)
  | .text s => some (.behind (.text s) stack)
  | .openBracket => some (.item stack)
  | .openBrace => some (.key [] stack)
  | _ => none

/-- Reads one token. -/
def step : State → Token → Option State
  | .value stack, t => stepValue stack t
  | .item stack, .closeBracket => some (.behind (.array []) stack)
  | .item stack, t => stepValue (.array [] :: stack) t
  | .key members stack, .text key => some (.colon members key stack)
  | .key [] stack, .closeBrace => some (.behind (.object []) stack)
  | .colon members key stack, .colon => some (.value (.object members key :: stack))
  | .behind v (.array items :: stack), .comma => some (.value (.array (v :: items) :: stack))
  | .behind v (.array items :: stack), .closeBracket =>
    some (.behind (.array (v :: items).reverse) stack)
  | .behind v (.object members key :: stack), .comma => some (.key ((key, v) :: members) stack)
  | .behind v (.object members key :: stack), .closeBrace =>
    some (.behind (.object ((key, v) :: members).reverse) stack)
  | _, _ => none

/-- The value of a text. -/
def parse? (text : String) : Option Value := do
  match ← (← tokens text.toList).foldlM step (.value []) with
  | .behind v [] => some v
  | _ => none

end MachO.Json
