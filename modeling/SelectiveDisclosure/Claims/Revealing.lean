import SelectiveDisclosure.Token.Digests
import SelectiveDisclosure.Token.Payload
import SelectiveDisclosure.Pointer

/-!
# Revealing claims

A walk through the claims of a payload puts the value of a disclosure wherever its digest stands,
and walks on through that value. It meets every digest at most once, and every disclosure has to
be met. Digests without a disclosure, placeholders and the member `_sd` are left out.
-/

set_option autoImplicit false

namespace SelectiveDisclosure

open Json

inductive RevealError where
  | decode (e : Token.DecodeError)
  | missingAlgorithm
  | unresolvedDisclosure (encoded : String)
  | duplicateDigest (digest : String)
  | nameCollision (name : String)
  | digestsNotArray
  | digestNotText
  | expectedMember (digest : String)
  | expectedItem (digest : String)
  deriving DecidableEq

namespace RevealError

def message : RevealError → String
  | .decode e => e.message
  | .missingAlgorithm => "missing `_sd_alg` claim"
  | .unresolvedDisclosure encoded => s!"unresolved disclosure `{encoded}`"
  | .duplicateDigest digest => s!"duplicate digest `{digest}`"
  | .nameCollision name => s!"claim collision on `{name}`"
  | .digestsNotArray => "`_sd` claim value is not an array"
  | .digestNotText => "invalid disclosure hash value"
  | .expectedMember digest =>
    s!"expected object entry disclosure, found array item disclosure for digest `{digest}`"
  | .expectedItem digest =>
    s!"expected array item disclosure, found object entry disclosure for digest `{digest}`"

end RevealError

namespace Reveal

structure Table where
  algorithm : Option HashAlgorithm
  entries : List (String × Disclosure)

/-- What a walk has met: all digests, and the places of those with a disclosure. -/
structure Walk where
  met : List String
  placed : List (String × Pointer)

def Walk.start : Walk := ⟨[], []⟩

def Walk.place (w : Walk) (digest : String) (place : Pointer) : Walk :=
  { w with placed := (digest, place) :: w.placed }

abbrev Visit := Pointer → Walk → Except RevealError (Value × Walk)

namespace Table

def find? (t : Table) (digest : String) : Option Concealed :=
  (Members.get? t.entries digest).map Disclosure.concealed

/-- A digest stands for something only in a payload that names its algorithm. -/
def meet (t : Table) (digest : String) (w : Walk) : Except RevealError Walk :=
  if t.algorithm.isNone then .error .missingAlgorithm
  else if digest ∈ w.met then .error (.duplicateDigest digest)
  else .ok { w with met := digest :: w.met }

def findMembers (t : Table) (place : Pointer) :
    List (String × Value) → List Value → Walk → Except RevealError (List (String × Value) × Walk)
  | found, [], w => .ok (found, w)
  | found, .string digest :: r, w => do
    let w ← t.meet digest w
    match t.find? digest with
    | none => t.findMembers place found r w
    | some (.item _) => .error (.expectedMember digest)
    | some (.member name value) =>
      if name ∈ Members.names found then .error (.nameCollision name)
      else t.findMembers place (found ++ [(name, value)]) r (w.place digest (place.push name))
  | _, _ :: _, _ => .error .digestNotText

def disclosedMembers (t : Table) (place : Pointer) (digests : Option Value) (w : Walk) :
    Except RevealError (List (String × Value) × Walk) :=
  match digests with
  | none => .ok ([], w)
  | some (.array items) => t.findMembers place [] items w
  | some _ => .error .digestsNotArray

end Table

/-- Puts members among others of which none has their names. -/
def insertMembers {α : Type} :
    List (String × α) → List (String × α) → Except RevealError (List (String × α))
  | all, [] => .ok all
  | all, (name, a) :: r =>
    if name ∈ Members.names all then .error (.nameCollision name)
    else insertMembers (Members.insert name a all) r

def visitMembers (place : Pointer) :
    List (String × Visit) → Walk → Except RevealError (List (String × Value) × Walk)
  | [], w => .ok ([], w)
  | (name, visit) :: r, w => do
    let (v, w) ← visit (place.push name) w
    let (ms, w) ← visitMembers place r w
    return ((name, v) :: ms, w)

def ownMembers (members : List (String × Value × Visit)) : List (String × Visit) :=
  (Members.erase (Members.erase members Payload.algorithmName) Digests.membersName).map
    fun m => (m.1, m.2.2)

/-- An object: first all its digests, then its members in order, the disclosed ones among them.
`below` visits a disclosed value. -/
def visitObject (t : Table) (below : Value → Visit) (members : List (String × Value × Visit))
    (place : Pointer) (w : Walk) : Except RevealError (List (String × Value) × Walk) := do
  let digests := (Members.get? members Digests.membersName).map Prod.fst
  let (found, w) ← t.disclosedMembers place digests w
  let all ← insertMembers (ownMembers members) (found.map fun m => (m.1, below m.2))
  visitMembers place all w

def visitItems (t : Table) (below : Value → Visit) (place : Pointer) :
    Nat → List (Value × Visit) → Walk → Except RevealError (List Value × Walk)
  | _, [], w => .ok ([], w)
  | i, (item, visit) :: r, w =>
    match Digests.placeholder? item with
    | none => do
      let (v, w) ← visit (place.pushIndex i) w
      let (vs, w) ← visitItems t below place (i + 1) r w
      return (v :: vs, w)
    | some digest => do
      let w ← t.meet digest w
      match t.find? digest with
      | none => visitItems t below place i r w
      | some (.member _ _) => .error (.expectedItem digest)
      | some (.item value) =>
        let (v, w) ← below value (place.pushIndex i) (w.place digest (place.pushIndex i))
        let (vs, w) ← visitItems t below place (i + 1) r w
        return (v :: vs, w)

mutual

def visit (t : Table) (below : Value → Visit) : Value → Visit
  | .array items => fun place w => do
    let (vs, w) ← visitItems t below place 0 (itemVisits t below items) w
    return (.array vs, w)
  | .object members => fun place w => do
    let (ms, w) ← visitObject t below (memberVisits t below members) place w
    return (.object ms, w)
  | v => fun _ w => .ok (v, w)

def itemVisits (t : Table) (below : Value → Visit) : List Value → List (Value × Visit)
  | [] => []
  | v :: r => (v, visit t below v) :: itemVisits t below r

def memberVisits (t : Table) (below : Value → Visit) :
    List (String × Value) → List (String × Value × Visit)
  | [] => []
  | (k, v) :: r => (k, v, visit t below v) :: memberVisits t below r

end

/-- Visits a value below so many others that were disclosed. Disclosures that lie inside each
other have different digests, so their number bounds this depth. -/
def visitBelow (t : Table) : Nat → Value → Visit
  | 0, v => fun _ w => .ok (v, w)
  | k+1, v => visit t (visitBelow t k) v

/-- The digest of each disclosure, of which no two may be equal. -/
def tableEntries (digest : Disclosure → String) :
    List (String × Disclosure) → List Disclosure → Except RevealError (List (String × Disclosure))
  | entries, [] => .ok entries
  | entries, d :: r =>
    if digest d ∈ Members.names entries then .error (.duplicateDigest (digest d))
    else tableEntries digest (entries ++ [(digest d, d)]) r

def table (f : DigestFunction) (algorithm : Option HashAlgorithm) (ds : List Disclosure) :
    Except RevealError Table :=
  match algorithm, ds with
  | _, [] => .ok ⟨algorithm, []⟩
  | none, _ :: _ => .error .missingAlgorithm
  | some a, ds => do
    let entries ← tableEntries (Disclosure.digest f a) [] ds
    return ⟨algorithm, entries⟩

def places (w : Walk) : List (String × Disclosure) → Except RevealError (List Pointer)
  | [] => .ok []
  | (digest, d) :: r =>
    match Members.get? w.placed digest with
    | none => .error (.unresolvedDisclosure d.text)
    | some place => do
      let ps ← places w r
      return place :: ps

end Reveal

namespace Payload

def reveal (f : DigestFunction) (p : Payload) (ds : List Disclosure) :
    Except RevealError (Members × List Pointer) := do
  let t ← Reveal.table f p.algorithm ds
  let below := Reveal.visitBelow t ds.length
  let (claims, w) ←
    Reveal.visitObject t below (Reveal.memberVisits t below p.claims) .root .start
  let ps ← Reveal.places w t.entries
  return (claims, ps)

end Payload
end SelectiveDisclosure
