import PoolMarket.Amount
import PoolMarket.Asset.Denom
import PoolMarket.Asset.DenomPair
import PoolMarket.BasisPoints
import PoolMarket.Chain.Answer
import PoolMarket.Chain.Ledger
import PoolMarket.Chain.Pool
import PoolMarket.Config.Settings
import PoolMarket.Config.Token
import PoolMarket.Double.Rounded
import PoolMarket.Double.Shortest
import PoolMarket.Fault
import PoolMarket.Fees
import PoolMarket.Inquiry
import PoolMarket.Json.Basic
import PoolMarket.Json.Reader
import PoolMarket.Json.Record
import PoolMarket.Json.Writer
import PoolMarket.Market.Basic
import PoolMarket.Market.Reading
import PoolMarket.Market.Refresh
import PoolMarket.Market.Registry
import PoolMarket.Market.Trade
import PoolMarket.Node
import PoolMarket.Pool.Pair
import PoolMarket.Pool.Snapshot
import PoolMarket.Proofs.Amount.Decimal
import PoolMarket.Proofs.Amount.Exact
import PoolMarket.Proofs.Amount.Parts
import PoolMarket.Proofs.Amount.Ratio
import PoolMarket.Proofs.Amount.Words
import PoolMarket.Proofs.Asset.Keys
import PoolMarket.Proofs.Asset.Validated
import PoolMarket.Proofs.BasisPoints
import PoolMarket.Proofs.Chain.Accounting
import PoolMarket.Proofs.Chain.Coherence
import PoolMarket.Proofs.Chain.Deposits
import PoolMarket.Proofs.Chain.Estimate
import PoolMarket.Proofs.Chain.Minting
import PoolMarket.Proofs.Chain.Monotone
import PoolMarket.Proofs.Chain.Pages
import PoolMarket.Proofs.Chain.PoolHistory
import PoolMarket.Proofs.Chain.Pricing
import PoolMarket.Proofs.Chain.Product
import PoolMarket.Proofs.Chain.Replies
import PoolMarket.Proofs.Chain.Routing
import PoolMarket.Proofs.Chain.Shares
import PoolMarket.Proofs.Chain.Splitting
import PoolMarket.Proofs.Chain.Transactions
import PoolMarket.Proofs.Config.Display
import PoolMarket.Proofs.Config.Validity
import PoolMarket.Proofs.Fees
import PoolMarket.Proofs.Fees.Charges
import PoolMarket.Proofs.Json.FreeForm
import PoolMarket.Proofs.Json.Text
import PoolMarket.Proofs.Market.Alike
import PoolMarket.Proofs.Market.Cells
import PoolMarket.Proofs.Market.Execution
import PoolMarket.Proofs.Market.Failure
import PoolMarket.Proofs.Market.GivingUp
import PoolMarket.Proofs.Market.Hearing
import PoolMarket.Proofs.Market.Idle
import PoolMarket.Proofs.Market.Interleaving
import PoolMarket.Proofs.Market.Knowledge
import PoolMarket.Proofs.Market.Listing
import PoolMarket.Proofs.Market.Mirror
import PoolMarket.Proofs.Market.Moments
import PoolMarket.Proofs.Market.Names
import PoolMarket.Proofs.Market.PoolReading
import PoolMarket.Proofs.Market.Routes
import PoolMarket.Proofs.Market.SameTrade
import PoolMarket.Proofs.Market.Settling
import PoolMarket.Proofs.Market.Shown
import PoolMarket.Proofs.Market.SingleFlight
import PoolMarket.Proofs.Market.Swaps
import PoolMarket.Proofs.Market.ThereAndBack
import PoolMarket.Proofs.Market.TradeGraph
import PoolMarket.Proofs.Market.Undisturbed
import PoolMarket.Proofs.Market.Verdict
import PoolMarket.Proofs.Market.Visits
import PoolMarket.Proofs.Market.Watch
import PoolMarket.Proofs.Market.Worth
import PoolMarket.Proofs.Pool.DepositCalls
import PoolMarket.Proofs.Pool.Holders
import PoolMarket.Proofs.Pool.Minting
import PoolMarket.Proofs.Pool.WithdrawCalls
import PoolMarket.Proofs.Pool.Worth
import PoolMarket.Proofs.Quote.Callers
import PoolMarket.Proofs.Quote.Newest
import PoolMarket.Proofs.Quote.OneRoute
import PoolMarket.Proofs.Quote.Standing
import PoolMarket.Proofs.Quote.Turns
import PoolMarket.Proofs.Quote.Warning
import PoolMarket.Proofs.Route.InOrder
import PoolMarket.Proofs.Route.Shortest
import PoolMarket.Proofs.Route.Walk
import PoolMarket.Proofs.Text
import PoolMarket.Proofs.Wire.HandOver
import PoolMarket.Proofs.Wire.Messages
import PoolMarket.Proofs.Wire.RoundTrip
import PoolMarket.Quote.Basic
import PoolMarket.Quote.Debounce
import PoolMarket.Quote.Timeline
import PoolMarket.Route
import PoolMarket.Side
import PoolMarket.Text
import PoolMarket.Wire.Factory
import PoolMarket.Wire.Instruction
import PoolMarket.Wire.PairContract
import PoolMarket.Wire.Router
import PoolMarket.Wire.Scalar
import PoolMarket.Wire.Token
import PoolMarket.World
