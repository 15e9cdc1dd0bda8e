import SelectiveDisclosure.Json.Value

/-!
# Members of a record

A record names its members. One that it names stands at most once, and where it may be absent it
may also be `null`.
-/

set_option autoImplicit false

namespace SelectiveDisclosure.Json

namespace Value

def string? : Value → Option String
  | .string s => some s
  | _ => none

def strings? : Value → Option (List String)
  | .array items => items.mapM string?
  | _ => none

def object? : Value → Option Members
  | .object members => some members
  | _ => none

end Value

namespace Members
variable {α : Type}

def named (ms : Members) (name : String) : List Value :=
  ms.filterMap fun m => if m.1 = name then some m.2 else none

def required? (ms : Members) (name : String) (read : Value → Option α) : Option α :=
  match named ms name with
  | [v] => read v
  | _ => none

def optional? (ms : Members) (name : String) (read : Value → Option α) : Option (Option α) :=
  match named ms name with
  | [] => some none
  | [.null] => some none
  | [v] => (read v).map some
  | _ => none

def optional (name : String) (write : α → Value) (value : Option α) : Members :=
  match value with
  | some a => [(name, write a)]
  | none => []

end Members

def Value.ofStrings (ss : List String) : Value :=
  .array (ss.map .string)

end SelectiveDisclosure.Json
