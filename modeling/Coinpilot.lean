import Coinpilot.Lib.Program
import Coinpilot.Lib.Replay
import Coinpilot.Lib.Decimal
import Coinpilot.Lib.Dict
import Coinpilot.Exchange.Json
import Coinpilot.Exchange.Orders
import Coinpilot.Exchange.Precision
import Coinpilot.Engine.Reconcile
import Coinpilot.Engine.OnTarget
import Coinpilot.Core.Portfolio
import Coinpilot.Core.Db.Orders
import Coinpilot.Core.Db.Proposals
import Coinpilot.Core.Db.Telemetry
import Coinpilot.Core.ProposalPlan
import Coinpilot.Core.Settle
import Coinpilot.Core.Decide
import Coinpilot.Core.Transactions
import Coinpilot.Core.Failures
import Coinpilot.Exchange.Remote
import Coinpilot.Exchange.Reads
import Coinpilot.Core.System
import Coinpilot.Core.Reading
import Coinpilot.Core.Rebalance
import Coinpilot.Core.Footprint
import Coinpilot.Safety.History
import Coinpilot.Safety.Replay
import Coinpilot.Safety.Authority
import Coinpilot.Safety.Calls
import Coinpilot.Safety.Ledger
import Coinpilot.Safety.Holder
import Coinpilot.Safety.Lookups
import Coinpilot.Safety.Resolving
import Coinpilot.Safety.Sending
import Coinpilot.Safety.Placing
import Coinpilot.Safety.Evaluations
import Coinpilot.Safety.WriteAhead
import Coinpilot.Safety.Status
import Coinpilot.Safety.Sells
import Coinpilot.Safety.Proposals
import Coinpilot.Lib.Trace
import Coinpilot.Safety.Placements
import Coinpilot.Engine.Allocation
import Coinpilot.Core.FreeCash
import Coinpilot.Safety.Preview
import Coinpilot.Safety.Budget
import Coinpilot.Lib.Calendar
import Coinpilot.Lib.Binary64
import Coinpilot.Core.Cadence
import Coinpilot.Scheduling.Slots
import Coinpilot.Lib.ReadCommitted
import Coinpilot.Core.Schedule
import Coinpilot.Core.Db.Settings
import Coinpilot.Api.Config
import Coinpilot.Scheduling.Patches
import Coinpilot.Scheduling.Accepted
import Coinpilot.Core.Scheduler
import Coinpilot.Lib.Recurrence
import Coinpilot.Scheduling.LeastSlot
import Coinpilot.Scheduling.Ticks
import Coinpilot.Scheduling.Runs
import Coinpilot.Lib.RowLocks
import Coinpilot.Scheduling.NextRuns
import Coinpilot.Api.Assets
import Coinpilot.Records.Weights
import Coinpilot.Core.Db.Snapshots
import Coinpilot.Records.DailyPoints
import Coinpilot.Api.Portfolio
import Coinpilot.Lib.Handler
import Coinpilot.Records.Pins
import Coinpilot.Lib.Greedy
import Coinpilot.Engine.Shortfalls
import Coinpilot.Engine.Divisions
import Coinpilot.Engine.Invested
import Coinpilot.Engine.Funding
import Coinpilot.Core.Funding
import Coinpilot.Core.Balances
import Coinpilot.Core.Sizing
import Coinpilot.Core.Evidence
import Coinpilot.Core.Orderable
import Coinpilot.Core.Spellings
import Coinpilot.Lib.GoodRows
import Coinpilot.Records.Traded
import Coinpilot.Lib.Keyset
import Coinpilot.Core.Db.Sessions
import Coinpilot.Records.Pages
import Coinpilot.Lib.ReadThrough
import Coinpilot.Core.PublicMarket
import Coinpilot.Scheduling.Prices
import Coinpilot.Lib.Streak
import Coinpilot.Scheduling.Alerts
import Coinpilot.Lib.Batch
import Coinpilot.Core.Startup
import Coinpilot.Scheduling.Isolation
import Coinpilot.Lib.Ascending
import Coinpilot.Lib.Sequential
import Coinpilot.Web.SaveOrder
import Coinpilot.Records.Saving
import Coinpilot.Lib.Shares
import Coinpilot.Web.Prefill
import Coinpilot.Lib.Rounding
import Coinpilot.Api.Snapshots
import Coinpilot.Web.Allocation
import Coinpilot.Web.Drifted
import Coinpilot.Safety.Nonces
import Coinpilot.Lib.PlainText
import Coinpilot.Lib.Context
import Coinpilot.Core.StoredPlan
import Coinpilot.Records.Families
import Coinpilot.Safety.Spending
import Coinpilot.Lib.Commits
import Coinpilot.Core.Db.ProposalRow
import Coinpilot.Records.Withdrawals
import Coinpilot.Records.OnRecord
import Coinpilot.Records.BeforeOrders
import Coinpilot.Exchange.Keys
import Coinpilot.Core.Crypto
import Coinpilot.Core.Rotation
import Coinpilot.Records.Credentials
import Coinpilot.Core.Db.RefreshTokens
import Coinpilot.Records.SignIns
import Coinpilot.Api.Evaluation
import Coinpilot.Safety.Answered
import Coinpilot.Web.SignedIn
import Coinpilot.Scheduling.Fairness
import Coinpilot.Core.Resolved
import Coinpilot.Lib.Pacing
import Coinpilot.Safety.Pace
import Coinpilot.Lib.Replace
import Coinpilot.Exchange.Logged
