import MemIndex.Decimal.Positional
import MemIndex.Guard
import MemIndex.HashedIndex.Bulk
import MemIndex.HashedIndex.Keyed
import MemIndex.HashedIndex.Listing
import MemIndex.HashedIndex.Recorder
import MemIndex.HashedIndex.Shelf
import MemIndex.HashedIndex.Slot
import MemIndex.OrderedIndex.Comparator
import MemIndex.OrderedIndex.Roster
import MemIndex.Proofs.HashedIndex.Failures
import MemIndex.Proofs.HashedIndex.Ledger
import MemIndex.Proofs.HashedIndex.Likeness
import MemIndex.Proofs.HashedIndex.LoadBounds
import MemIndex.Proofs.HashedIndex.Searches
import MemIndex.Proofs.OrderedIndex.Handles
import MemIndex.Proofs.OrderedIndex.Costs
import MemIndex.Proofs.OrderedIndex.Lookups
import MemIndex.Proofs.OrderedIndex.Tours
import MemIndex.Walk.Numbered
import MemIndex.Proofs.Chains.Settling
import MemIndex.Proofs.HashedIndex.Settling
import MemIndex.Proofs.HashedIndex.Visits
import MemIndex.Proofs.Chains.Draining
import MemIndex.Proofs.HashedIndex.Draining
import MemIndex.Proofs.HashedIndex.TwoWays
import MemIndex.Proofs.Chains.Filling
import MemIndex.Proofs.Chains.Redealing
import MemIndex.Proofs.HashedIndex.Resizes
import MemIndex.Proofs.Chains.Landings
import MemIndex.Proofs.HashedIndex.Batches
import MemIndex.Proofs.Walk.Sequences
import MemIndex.Proofs.Walk.Room
import MemIndex.Proofs.Walk.Chronicle
import MemIndex.Proofs.Walk.Refusals
import MemIndex.Proofs.Walk.Waiting
import MemIndex.Proofs.OrderedIndex.Waiting
import MemIndex.Proofs.Chains.Rising
import MemIndex.Proofs.HashedIndex.Rising
import MemIndex.Proofs.HashedIndex.WordKeys
import MemIndex.Proofs.Arena.Heights
import MemIndex.Proofs.Walk.QueueRuns
import MemIndex.Proofs.OrderedIndex.Regular
