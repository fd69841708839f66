import HeapStore.Main
import HeapStore.Session
import HeapStore.Proofs.Frames
import HeapStore.Proofs.Locking
import HeapStore.Proofs.Granting
import HeapStore.Proofs.Endings
import HeapStore.Proofs.Fetching
import HeapStore.Proofs.Isolation
import HeapStore.Proofs.Recovery
import HeapStore.Proofs.Transparency
import HeapStore.Proofs.Browsing
import HeapStore.Proofs.Durability
import HeapStore.Proofs.Forgetting
import HeapStore.Proofs.Undoing
import HeapStore.Proofs.Repeating
import HeapStore.Proofs.Mirroring
import HeapStore.Proofs.Replaying
import HeapStore.Proofs.Serializing
import HeapStore.Proofs.Listing
import HeapStore.Proofs.Ascending
import HeapStore.Proofs.Persisting
import HeapStore.Proofs.Identity
import HeapStore.Proofs.Visiting
import HeapStore.Proofs.Serving
import HeapStore.Proofs.Counting
import HeapStore.Proofs.Sweeping
import HeapStore.Proofs.Straying
import HeapStore.Proofs.Handling
import HeapStore.Proofs.Passing
import HeapStore.Proofs.Coding
import HeapStore.Proofs.Slotting
import HeapStore.Proofs.Sizing
import HeapStore.Proofs.Aborting
import HeapStore.Proofs.Lengthening
import HeapStore.Proofs.Obtaining
import HeapStore.Proofs.Choosing
import HeapStore.Proofs.Imaging
import HeapStore.Proofs.Registering
import HeapStore.Proofs.Trailing
import HeapStore.Proofs.Waiting
import HeapStore.Proofs.Awaiting
import HeapStore.Proofs.Joining
import HeapStore.Proofs.Rereading
