import SparseLayout.Profile
import SparseLayout.Proofs.Store.Session
import SparseLayout.Scatter
import SparseLayout.Proofs.Contents.Activity
import SparseLayout.Proofs.Layout.BitSlot
import SparseLayout.Proofs.Store.Accounts
import SparseLayout.Proofs.Store.Reactivation
import SparseLayout.Proofs.Store.Separation
import SparseLayout.Proofs.Draft.Additions
import SparseLayout.Proofs.Draft.Structured
import SparseLayout.Proofs.Draft.Measured
import SparseLayout.Proofs.Draft.LaidOut
import SparseLayout.Proofs.Draft.Overflow
import SparseLayout.Proofs.Encoding
import SparseLayout.Proofs.Reference
import SparseLayout.Proofs.Layout.Cell
import SparseLayout.Proofs.Reference.Mirrors
import SparseLayout.Proofs.Reference.Forget
import SparseLayout.Proofs.Store.Refinement
import SparseLayout.Proofs.Draft.Outline
import SparseLayout.Proofs.Draft.Twins
import SparseLayout.Proofs.Store.Packing
import SparseLayout.Proofs.Reference.Nested
import SparseLayout.Proofs.Store.Deactivation
import SparseLayout.Proofs.Store.Clearing
import SparseLayout.Proofs.Store.Failure
import SparseLayout.Proofs.Layout.Bounds
import SparseLayout.Proofs.Nursery.History
import SparseLayout.Proofs.Store.Commute
import SparseLayout.Proofs.Store.Growth
import SparseLayout.Proofs.Store.Append
import SparseLayout.Proofs.Draft.BitArray
import SparseLayout.Proofs.Draft.BitStruct
import SparseLayout.Proofs.Store.Rescale
import SparseLayout.Proofs.Integers
import SparseLayout.Proofs.Store.Conversion
import SparseLayout.Proofs.Gradients
import SparseLayout.Proofs.Reservations
import SparseLayout.Proofs.Quarry
import SparseLayout.Proofs.Scatter
import SparseLayout.Proofs.Addresses
import SparseLayout.Proofs.Levels
