import UniCache.Base.Exec
import UniCache.Base.LossyMap
import UniCache.Base.Trace
import UniCache.Base.Buffer
import UniCache.Mcd.Types
import UniCache.Mcd.Hash
import UniCache.Mcd.Memory
import UniCache.Mcd.Outsource
import UniCache.Mcd.Remove
import UniCache.Mcd.SharedReclaim
import UniCache.Mcd.PartitionReclaim
import UniCache.Mcd.Create
import UniCache.Mcd.Operations
import UniCache.Mcd.Control
import UniCache.Mcd.Tiers
import UniCache.Mcd.Refine
import UniCache.Mcd.RefineReclaim
import UniCache.Mcd.RefinePartition
import UniCache.Mcd.RefineCreate
import UniCache.Mcd.RefineOps
import UniCache.Mcd.RefineFlush
import UniCache.Mcd.RefineControl
import UniCache.Mcd.Coherence
import UniCache.Mcd.CoherentRuns
import UniCache.Transfer.Protocol
import UniCache.Transfer.Chunks
import UniCache.Transfer.Exchange
import UniCache.Transfer.RoundTrip
import UniCache.Transfer.Interleave
import UniCache.Mcd.Lookup
import UniCache.Mcd.Alias
import UniCache.Mcd.Race
import UniCache.Base.Ledger
import UniCache.Mcd.Acts
import UniCache.Mcd.Accounting
import UniCache.Mcd.Cap
import UniCache.Mcd.PageContract
import UniCache.Mcd.Destroy
import UniCache.Base.Slab
import UniCache.Mcd.Reclaim
import UniCache.Mcd.HeaderPool
import UniCache.Transfer.Ring
import UniCache.Transfer.SharedPages
import UniCache.Mcd.ModeSwitch
import UniCache.Base.Chaining
import UniCache.Mcd.Placement
import UniCache.Mcd.Deletion
import UniCache.Mcd.FailedPut
import UniCache.Base.Progress
import UniCache.Mcd.Supply
import UniCache.Mcd.SharedContract
import UniCache.Mcd.WeightReclaim
import UniCache.Base.Shares
import UniCache.Mcd.Weights
import UniCache.Base.Parts
import UniCache.Transfer.Fragments
import UniCache.Mcd.Provenance
import UniCache.Mcd.GuestCopy
import UniCache.Mcd.Classify
import UniCache.Base.FileTree
import UniCache.Transfer.FileStore
import UniCache.Base.TwoScan
import UniCache.Mcd.Passes
import UniCache.Mcd.Lfru
import UniCache.Mcd.Stripping
import UniCache.Mcd.Bookings
import UniCache.Mcd.Books
import UniCache.Mcd.Histogram
import UniCache.Mcd.KeyCount
import UniCache.Mcd.RecCost
import UniCache.Mcd.Score
import UniCache.Mcd.HitRate
import UniCache.Mcd.Adaptive
import UniCache.Mcd.FairShare
import UniCache.Mcd.UnknownDomain
import UniCache.Base.Printer
import UniCache.Base.Fitting
import UniCache.Mcd.Display
import UniCache.Base.Spread
import UniCache.Mcd.Filling
import UniCache.Mcd.DisplayBounds
import UniCache.Base.KeyedList
import UniCache.Base.Mealy
import UniCache.Mcd.Ideal
import UniCache.Mcd.Exact
import UniCache.Mcd.ExactRuns
import UniCache.Mcd.Isolation
import UniCache.Mcd.Returning
import UniCache.Mcd.Sanity
import UniCache.Mcd.Safety
import UniCache.Base.Turnstile
import UniCache.Transfer.Handshake
import UniCache.Transfer.Serial
import UniCache.Mcd.Lossless
import UniCache.Mcd.Restart
