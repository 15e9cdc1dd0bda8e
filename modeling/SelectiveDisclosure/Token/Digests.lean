import SelectiveDisclosure.Json.Value

/-!
# Where digests stand

The digests of the concealed members of an object stand in an array, its member `_sd`. The digest
of a concealed item stands in a placeholder: an object with nothing but a text under `...`.
-/

set_option autoImplicit false

namespace SelectiveDisclosure.Digests

open Json

def membersName : String := "_sd"

def placeholderName : String := "..."

def placeholder (digest : String) : Value :=
  .object [(placeholderName, .string digest)]

def placeholder? : Value → Option String
  | .object [(name, .string digest)] => if name = placeholderName then some digest else none
  | _ => none

/-- The texts of an array; anything else counts for nothing. -/
def textsOf : Value → List String
  | .array items => items.filterMap fun
    | .string s => some s
    | _ => none
  | _ => []

mutual

def inValue : Value → List String
  | .array items => inItems items
  | .object members => inMembers members
  | _ => []

def inItems : List Value → List String
  | [] => []
  | v :: r =>
    match placeholder? v with
    | some digest => digest :: inItems r
    | none => inValue v ++ inItems r

def inMembers : List (String × Value) → List String
  | [] => []
  | (k, v) :: r => (if k = membersName then textsOf v else inValue v) ++ inMembers r

end

/-- The first text that stands earlier in the list as well. -/
def firstRepeated? (met : List String) : List String → Option String
  | [] => none
  | s :: r => if s ∈ met then some s else firstRepeated? (s :: met) r

end SelectiveDisclosure.Digests
