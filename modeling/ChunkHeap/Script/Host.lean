import ChunkHeap.Platform.AddressSpace
import ChunkHeap.Platform.Arena

/-!
# Hosts

Where the heaps of a script get their memory: from one arena, of which each is
a tenant, or from the pages of the system, which has no tenants.
-/

set_option autoImplicit false

namespace ChunkHeap.Script

inductive Host where
  | arena (a : Arena)
  | system (p : Pages AddressSpace)

namespace Host

def reserve (tenant : Tenant) (len : Nat) : Host → Option Grant × Host × Tenant
  | .arena a =>
      let (grant, a, tenant) := a.reserve tenant len
      (grant, .arena a, tenant)
  | .system p =>
      let (grant, p) := p.reserve len
      (grant, .system p, tenant)

def release (tenant : Tenant) (addr len : Nat) : Host → Receipt (Host × Tenant)
  | .arena a =>
      let receipt := Platform.release (a, tenant) addr len
      ⟨receipt.accepted, receipt.events, .arena receipt.platform.1, receipt.platform.2⟩
  | .system p =>
      let receipt := p.release addr len
      ⟨receipt.accepted, receipt.events, .system receipt.platform, tenant⟩

instance : Platform (Host × Tenant) where
  reserve := fun (host, tenant) len => host.reserve tenant len
  release := fun (host, tenant) addr len => host.release tenant addr len

/-- Whether a script may touch the range. Only an arena tells what is held. -/
def holds (addr : Int) (n : Nat) : Host → Bool
  | .arena a => a.holds addr n
  | .system _ => true

end Host

end ChunkHeap.Script
