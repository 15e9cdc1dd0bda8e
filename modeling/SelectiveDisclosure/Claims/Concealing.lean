import SelectiveDisclosure.Token.Digests
import SelectiveDisclosure.Token.Payload
import SelectiveDisclosure.Pointer

/-!
# Concealing claims

Each value to conceal is taken out of the claims into a disclosure, and its digest is put where it
stood. Places are visited in descending order, so that what lies inside a value is concealed
before the value itself.
-/

set_option autoImplicit false

namespace SelectiveDisclosure

open Json

inductive ConcealError where
  | notAnObject
  | cannotConcealRoot
  | notFound (place : Pointer)
  | reservedName (name : String)
  | duplicateDigest (digest : String)

namespace ConcealError

def message : ConcealError → String
  | .notAnObject => "concealed JSON value is not an object"
  | .cannotConcealRoot => "cannot conceal root"
  | .notFound place => s!"value not found at `{place.text}`"
  | .reservedName name => s!"reserved claim name `{name}`"
  | .duplicateDigest digest => s!"duplicate digest `{digest}`"

end ConcealError

/-- Sixteen random octets for each draw, the draws being counted from zero. -/
abbrev RandomSource := Nat → Octets

structure Concealer where
  digest : Octets → String
  decoys : Nat
  random : RandomSource

namespace Concealer

def salt (c : Concealer) (draw : Nat) : String :=
  Base64Url.encodeText (c.random draw)

/-- The digest of a salt, behind which there is no disclosure. -/
def decoy (c : Concealer) (draw : Nat) : Value :=
  .string (c.digest (Octets.ofText (c.salt draw)))

def insertDigest (digest : String) : List Value → List Value
  | [] => [.string digest]
  | v :: r =>
    match v with
    | .string s => if s < digest then v :: insertDigest digest r else .string digest :: v :: r
    | _ => v :: insertDigest digest r

def sortedDigests (digests : List Value) : List Value :=
  digests.foldr (fun v sorted => match v with
    | .string s => insertDigest s sorted
    | _ => v :: sorted) []

/-- Adds a digest to an object. Its first one brings the decoys, for which the draws from the
given one on are used. -/
def addDigest (c : Concealer) (digest : String) (members : Members) (draw : Nat) :
    Members × Nat :=
  match Members.get? members Digests.membersName with
  | some (.array ds) =>
    (Members.insert Digests.membersName (.array (sortedDigests (ds ++ [.string digest]))) members,
      draw)
  | some _ => (members, draw)
  | none =>
    let decoys := (List.range c.decoys).map fun i => c.decoy (draw + i)
    (Members.insert Digests.membersName
      (.array (sortedDigests (decoys ++ [.string digest]))) members, draw + c.decoys)

structure Step where
  disclosure : Disclosure
  value : Value
  draw : Nat

def concealMember (c : Concealer) (name : String) (members : Members) (draw : Nat) :
    Option Step := do
  let v ← Members.get? members name
  let d := Disclosure.ofParts (c.salt draw) (.member name v)
  let (members, draw) := c.addDigest (c.digest d.encoded) (Members.erase members name) (draw + 1)
  return ⟨d, .object members, draw⟩

def concealItem (c : Concealer) (i : Nat) (items : List Value) (draw : Nat) : Option Step := do
  let v ← items[i]?
  let d := Disclosure.ofParts (c.salt draw) (.item v)
  return ⟨d, .array (items.set i (Digests.placeholder (c.digest d.encoded))), draw + 1⟩

def concealAt (c : Concealer) : List Pointer.Token → Value → Nat → Option Step
  | [t], .object members, draw => c.concealMember t.toDecoded members draw
  | [t], .array items, draw => do c.concealItem (← t.index?) items draw
  | t :: rest, .object members, draw => do
    let v ← Members.get? members t.toDecoded
    let step ← c.concealAt rest v draw
    return { step with value := .object (Members.insert t.toDecoded step.value members) }
  | t :: rest, .array items, draw => do
    let i ← t.index?
    let v ← items[i]?
    let step ← c.concealAt rest v draw
    return { step with value := .array (items.set i step.value) }
  | _, _, _ => none

def concealAll (c : Concealer) :
    List Pointer → Members → Nat → Except ConcealError (Members × List Disclosure)
  | [], claims, _ => .ok (claims, [])
  | p :: ps, claims, draw =>
    if p.isRoot then .error .cannotConcealRoot
    else
      match c.concealAt p.tokens (.object claims) draw with
      | some ⟨d, .object claims, draw⟩ => do
        let (claims, ds) ← c.concealAll ps claims draw
        return (claims, d :: ds)
      | _ => .error (.notFound p)

end Concealer

namespace Conceal

mutual

/-- The first reserved name in a value, in the order of the text. -/
def reservedIn? : Value → Option String
  | .array items => reservedInItems? items
  | .object members => reservedInMembers? members
  | _ => none

def reservedInItems? : List Value → Option String
  | [] => none
  | v :: r => (reservedIn? v).or (reservedInItems? r)

def reservedInMembers? : List (String × Value) → Option String
  | [] => none
  | (k, v) :: r => if isReserved k then some k else (reservedIn? v).or (reservedInMembers? r)

end

/-- No claim and no token has a reserved name. The names in the claims come first. -/
def checkNames (claims : Members) (ps : List Pointer) : Except ConcealError Unit :=
  match (reservedInMembers? claims).or ((ps.flatMap Pointer.decoded).find? isReserved) with
  | some name => .error (.reservedName name)
  | none => .ok ()

def checkDigests (claims : Members) (ds : List Disclosure) : Except ConcealError Unit :=
  let all := Digests.inMembers claims ++ ds.flatMap fun d => Digests.inValue d.concealed.value
  match Digests.firstRepeated? [] all with
  | some digest => .error (.duplicateDigest digest)
  | none => .ok ()

end Conceal

structure Concealment where
  algorithm : HashAlgorithm
  decoys : Nat
  random : RandomSource

namespace Payload

/-- Conceals the values at the given places. The disclosures come in descending order of their
places. -/
def conceal (f : DigestFunction) (how : Concealment) (claims : Members) (places : List Pointer) :
    Except ConcealError (Payload × List Disclosure) := do
  let places := Pointer.ascending places
  Conceal.checkNames claims places
  let c : Concealer := ⟨f how.algorithm, how.decoys, how.random⟩
  let (claims, ds) ← c.concealAll places.reverse claims 0
  Conceal.checkDigests claims ds
  return (⟨if ds.isEmpty then none else some how.algorithm, claims⟩, ds)

def concealValue (f : DigestFunction) (how : Concealment) (claims : Value)
    (places : List Pointer) : Except ConcealError (Payload × List Disclosure) :=
  match claims with
  | .object claims => conceal f how claims places
  | _ => .error .notAnObject

end Payload
end SelectiveDisclosure
