/-!
# Nonce registries

A registry holds the nonces that were consumed; each can be consumed once.
-/

set_option autoImplicit false

namespace SelectiveDisclosure

structure NonceRegistry where
  consumed : List String

namespace NonceRegistry

def empty : NonceRegistry := ⟨[]⟩

/-- The registry with the nonce, or nothing if it was consumed before. -/
def consume? (r : NonceRegistry) (nonce : String) : Option NonceRegistry :=
  if nonce ∈ r.consumed then none else some ⟨nonce :: r.consumed⟩

end NonceRegistry
end SelectiveDisclosure
