import Computantis.Schemes.Digraph
import Computantis.Schemes.Enumeration
import Computantis.Schemes.Machine
import Computantis.Model.Spice
import Computantis.Model.Vertex
import Computantis.Model.Wallet
import Computantis.Model.Wire
import Computantis.Model.Book
import Computantis.Model.Ledger
import Computantis.Model.Truncate
import Computantis.Model.Stream
import Computantis.Model.Node
import Computantis.Model.Cache
import Computantis.Model.Notary
import Computantis.Laws.Funds
import Computantis.Laws.Cut
import Computantis.Laws.Moves
import Computantis.Laws.Assumptions
import Computantis.Laws.Messages
import Computantis.Laws.Closure
import Computantis.Laws.Validated
import Computantis.Laws.Weights
import Computantis.Laws.Spending
import Computantis.Laws.History
import Computantis.Laws.Admission
import Computantis.Laws.Index
import Computantis.Laws.Growth
import Computantis.Laws.Loading
import Computantis.Laws.Retry
import Computantis.Laws.Shelf
import Computantis.Laws.Streaming
import Computantis.Laws.Uniqueness
import Computantis.Laws.Reading
import Computantis.Laws.Keeping
import Computantis.Laws.Signals
import Computantis.Laws.Retention
import Computantis.Laws.Joining
import Computantis.Laws.Intake
import Computantis.Laws.Authenticity
import Computantis.Schemes.RetryQueue
import Computantis.Laws.Delivery
import Computantis.Laws.Settling
import Computantis.Laws.Awaiting
import Computantis.Laws.Overlap
import Computantis.Model.Service
import Computantis.Laws.Throttling
import Computantis.Laws.Staleness
import Computantis.Laws.Failing
import Computantis.Laws.Rejecting
import Computantis.Model.Gossip
import Computantis.Laws.Gossiping
import Computantis.Model.Network
import Computantis.Laws.Forwarding
import Computantis.Laws.Exactness
import Computantis.Schemes.Base58
import Computantis.Schemes.CString
import Computantis.Model.Client
import Computantis.Laws.Addresses
import Computantis.Laws.Signing
import Computantis.Laws.Replaying
import Computantis.Laws.Peering
import Computantis.Laws.Starting
import Computantis.Laws.Returning
import Computantis.Laws.Robustness
import Computantis.Model.Mesh
import Computantis.Schemes.Flooding
import Computantis.Laws.Spreading
import Computantis.Model.SpiceText
import Computantis.Laws.Numerals
import Computantis.Laws.Tips
import Computantis.Laws.Totals
import Computantis.Laws.Picking
import Computantis.Laws.Queueing
import Computantis.Laws.Verifying
import Computantis.Laws.Normality
import Computantis.Laws.Accepting
import Computantis.Laws.Entries
import Computantis.Model.LocalCache
import Computantis.Laws.LocalCaching
import Computantis.Laws.Retrying
import Computantis.Laws.Spacing
import Computantis.Laws.Encoding
import Computantis.Laws.Agreement
import Computantis.Laws.Conservation
import Computantis.Laws.Acquaintance
import Computantis.Laws.Waiting
import Computantis.Laws.Fading
import Computantis.Laws.Challenges
import Computantis.Laws.Configuring
import Computantis.Laws.Piping
