import SelectiveDisclosure.Claims.Revealing

/-!
# Revealed tokens

A revealed token has its disclosures by the places of their values, in ascending order of the
places. Disclosures can be withheld from it before it is encoded again.
-/

set_option autoImplicit false

namespace SelectiveDisclosure

abbrev DisclosureMap := List (Pointer × Disclosure)

namespace DisclosureMap

def insert (place : Pointer) (d : Disclosure) : DisclosureMap → DisclosureMap
  | [] => [(place, d)]
  | (q, e) :: r =>
    if place < q then (place, d) :: (q, e) :: r
    else if place = q then (place, d) :: r
    else (q, e) :: insert place d r

def ofList (entries : List (Pointer × Disclosure)) : DisclosureMap :=
  entries.foldl (fun m e => insert e.1 e.2 m) []

def remove? (place : Pointer) : DisclosureMap → Option (Disclosure × DisclosureMap)
  | [] => none
  | (q, e) :: r =>
    if place = q then some (e, r)
    else (remove? place r).map fun (d, rest) => (d, (q, e) :: rest)

/-- Moves the entries at the given places out of a map: those moved, and those left. -/
def take : List Pointer → DisclosureMap → DisclosureMap × DisclosureMap
  | [], m => ([], m)
  | p :: ps, m =>
    match remove? p m with
    | none => take ps m
    | some (d, rest) =>
      let (taken, left) := take ps rest
      (insert p d taken, left)

def places (m : DisclosureMap) : List Pointer :=
  m.map Prod.fst

end DisclosureMap

structure Revealed where
  jwt : Jws.Decoded Json.Members
  algorithm : Option HashAlgorithm
  disclosures : DisclosureMap

namespace Revealed

def claims (r : Revealed) : Json.Members :=
  r.jwt.payload

/-- Keeps the disclosures at the given places; the others are the second result. -/
def retain (r : Revealed) (ps : List Pointer) : Revealed × DisclosureMap :=
  let (taken, left) := DisclosureMap.take ps r.disclosures
  ({ r with disclosures := taken }, left)

def reject (r : Revealed) (ps : List Pointer) : Revealed × DisclosureMap :=
  let (taken, left) := DisclosureMap.take ps r.disclosures
  ({ r with disclosures := left }, taken)

def clear (r : Revealed) : Revealed :=
  { r with disclosures := [] }

def encode (r : Revealed) : Octets :=
  r.jwt.signingOctets ++ Jws.point :: Base64Url.encode r.jwt.signature ++
    tilde :: Parts.withTildes (r.disclosures.map fun e => e.2.encoded)

end Revealed

namespace Token

def Decoded.reveal (f : DigestFunction) (t : Decoded) : Except RevealError Revealed := do
  let payload := t.jwt.payload
  let (claims, places) ← payload.reveal f t.disclosures
  return ⟨t.jwt.withPayload claims, payload.algorithm, .ofList (places.zip t.disclosures)⟩

end Token

namespace Parts

def reveal (f : DigestFunction) (p : Parts) : Except RevealError Revealed := do
  let t ← p.decode.mapError .decode
  t.reveal f

end Parts

namespace Token

def reveal (f : DigestFunction) (t : Token) : Except RevealError Revealed :=
  t.parts.reveal f

end Token
end SelectiveDisclosure
