import ChunkHeap.Proofs.Representation
import ChunkHeap.Script.Bucket
import ChunkHeap.Script.Heaps
import ChunkHeap.Script.Probe
import ChunkHeap.Script.Region
import ChunkHeap.Text.Utf16
import ChunkHeap.Proofs.Supply
import ChunkHeap.Proofs.Journal
import ChunkHeap.Proofs.Lending
import ChunkHeap.Proofs.Returning
import ChunkHeap.Proofs.Simulation
import ChunkHeap.Proofs.Safety
import ChunkHeap.Proofs.FreeLists
import ChunkHeap.Proofs.Recovery
import ChunkHeap.Proofs.Refinement
import ChunkHeap.Proofs.Moves
import ChunkHeap.Proofs.Ledger
import ChunkHeap.Proofs.Conservation
import ChunkHeap.Proofs.Corruption
import ChunkHeap.Proofs.Calls
import ChunkHeap.Proofs.Footprint
import ChunkHeap.Proofs.Preservation
import ChunkHeap.Proofs.Reuse
import ChunkHeap.Proofs.Peak
import ChunkHeap.Proofs.Faults
import ChunkHeap.Proofs.Refusals
import ChunkHeap.Proofs.Independence
import ChunkHeap.Proofs.Placement
import ChunkHeap.Proofs.Outcomes
import ChunkHeap.Proofs.Recycling
import ChunkHeap.Proofs.Carving
import ChunkHeap.Proofs.Provenance
import ChunkHeap.Proofs.Tuning
import ChunkHeap.Proofs.Oversized
import ChunkHeap.Proofs.Commuting
import ChunkHeap.Proofs.Bookkeeping
import ChunkHeap.Proofs.Zeroing
import ChunkHeap.Proofs.Space
import ChunkHeap.Proofs.Scalars
import ChunkHeap.Proofs.Copying
import ChunkHeap.Proofs.Mapping
import ChunkHeap.Proofs.Harmless
import ChunkHeap.Proofs.Elements
import ChunkHeap.Proofs.Pointers
import ChunkHeap.Proofs.Environment
import ChunkHeap.Proofs.DataModels
import ChunkHeap.Proofs.Multiples
import ChunkHeap.Proofs.HeaderWalk
