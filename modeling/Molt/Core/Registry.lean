/-
Which cell answers for a kind of service (`sys/core/src/registry.rs`).

A provider publishes an endpoint under a scheme, and a lease on it is the
publication's own name in a capability table: withdrawing the publication
leaves every lease stale.
-/
import Molt.Core.Capability

namespace Molt.Core

inductive RegistryError where
  | unavailable
  | full
  deriving DecidableEq

/-- An endpoint and the core it is served on. -/
structure Published (ε : Type) where
  cpu : Nat
  endpoint : ε
  deriving DecidableEq

/-- The published endpoints of one scheme. -/
structure Registry (ε : Type) where
  mask : Rights
  published : CapabilityTable (Published ε)
  deriving DecidableEq

namespace Registry

variable {ε : Type}

def new (mask : Rights) (n : Nat) : Registry ε := ⟨mask, .new n⟩

/-- Withdraws what `provider` published, leaving every lease on it stale. -/
def withdraw (r : Registry ε) (provider : CellId) : Nat × Registry ε :=
  let (withdrawn, published) := r.published.revokeOwner provider
  (withdrawn, { r with published })

end Registry

end Molt.Core
