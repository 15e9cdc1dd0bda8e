import SelectiveDisclosure.Json.Members
import SelectiveDisclosure.Curve.Basic

/-!
# Signature algorithms

Each algorithm but `none` belongs to one curve.
-/

set_option autoImplicit false

namespace SelectiveDisclosure

inductive Algorithm where
  | es256
  | es384
  | es512
  | none
  deriving DecidableEq, Repr

namespace Algorithm

def name : Algorithm → String
  | .es256 => "ES256"
  | .es384 => "ES384"
  | .es512 => "ES512"
  | .none => "none"

def ofName? (s : String) : Option Algorithm :=
  if s = "ES256" then some .es256
  else if s = "ES384" then some .es384
  else if s = "ES512" then some .es512
  else if s = "none" then some .none
  else Option.none

def unsupportedMessage (name : String) : String :=
  s!"unsupported algorithm `{name}`"

def curveName? : Algorithm → Option String
  | .es256 => some "P-256"
  | .es384 => some "P-384"
  | .es512 => some "P-521"
  | .none => Option.none

def ofCurveName? (s : String) : Option Algorithm :=
  if s = "P-256" then some .es256
  else if s = "P-384" then some .es384
  else if s = "P-521" then some .es512
  else Option.none

def curve? : Algorithm → Option Curve
  | .es256 => some .p256
  | .es384 => some .p384
  | _ => Option.none

/-- In JSON a capital letter may begin the name of `none`. -/
def ofJsonName? (s : String) : Option Algorithm :=
  if s = "None" then some .none else ofName? s

/-- The name, or an object whose only member has the name and is `null`. -/
def ofJson? : Json.Value → Option Algorithm
  | .string s => ofJsonName? s
  | .object [(s, .null)] => ofJsonName? s
  | _ => Option.none

def toJson (a : Algorithm) : Json.Value :=
  .string a.name

end Algorithm
end SelectiveDisclosure
