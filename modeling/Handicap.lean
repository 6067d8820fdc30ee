import Handicap.Library.Word
import Handicap.Library.Tiling
import Handicap.Library.Apportionment
import Handicap.Library.Guard
import Handicap.Library.Serial
import Handicap.Library.Trace
import Handicap.Library.Tasks
import Handicap.Library.Table
import Handicap.Library.SortedTable
import Handicap.Shard.Basic
import Handicap.Shard.Theorems
import Handicap.Store.Profile
import Handicap.Api.Validate
import Handicap.Pb
import Handicap.Coordinator.Run
import Handicap.Coordinator.Pool
import Handicap.Coordinator.Calls
import Handicap.Coordinator.Theorems.Run
import Handicap.Coordinator.Theorems.Calls
import Handicap.Coordinator.Theorems.Slots
import Handicap.Coordinator.Theorems.Pool
import Handicap.Coordinator.Theorems.Admission
import Handicap.Coordinator.Theorems.Reduce
import Handicap.Coordinator.Theorems.Sharding
import Handicap.Coordinator.Theorems.Completion
import Handicap.Coordinator.Theorems.Teardown
import Handicap.Engine.Rate
import Handicap.Engine.Dataset
import Handicap.Engine.Aggregator
import Handicap.Engine.Flush
import Handicap.Engine.Theorems.Aggregator
import Handicap.Engine.Theorems.Flush
import Handicap.Engine.OpenLoop
import Handicap.Engine.Curve
import Handicap.Engine.Theorems.Curve
import Handicap.Engine.Theorems.Retirement
import Handicap.Engine.Vu
import Handicap.Engine.Closed
import Handicap.Engine.Theorems.Vu
import Handicap.Engine.Theorems.Closed
import Handicap.Engine.Theorems.Lockstep
import Handicap.Engine.Theorems.OpenLoop
import Handicap.Worker.Load
import Handicap.Coordinator.Stream
import Handicap.Coordinator.Theorems.Stream
import Handicap.Worker.Theorems.Load
import Handicap.Worker.Theorems.Draws
import Handicap.Coordinator.Theorems.Unique
import Handicap.Store.Runs
import Handicap.Api.Launch
import Handicap.Controller.State
import Handicap.Controller.Step
import Handicap.Controller.Theorems.Step
import Handicap.Controller.Theorems.Follows
import Handicap.Controller.Theorems.Launching
import Handicap.Controller.Theorems.Reservations
import Handicap.Controller.Theorems.Sharing
import Handicap.Controller.Theorems.Abort
import Handicap.Controller.Theorems.Status
import Handicap.Api.Theorems.Validate
import Handicap.Api.Theorems.Launch
import Handicap.Api.Theorems.Conservation
import Handicap.Report.Basic
import Handicap.Report.Theorems
import Handicap.Worker.Forward
import Handicap.Store.Metrics
import Handicap.Controller.Delivery
import Handicap.Store.Theorems.Metrics
import Handicap.Worker.Theorems.Forward
import Handicap.Controller.Theorems.Pipeline
import Handicap.Controller.Theorems.Delivery
import Handicap.Engine.Collecting
import Handicap.Engine.Theorems.Collecting
import Handicap.Schedule.Trigger
import Handicap.Store.Schedules
import Handicap.Schedule.Runner
import Handicap.Schedule.Theorems.Runner
import Handicap.Settings.Basic
import Handicap.Settings.Requests
import Handicap.Settings.Theorems.Requests
import Handicap.Ui.Store
import Handicap.Ui.Theorems.Store
import Handicap.Library.Contiguous
import Handicap.Library.Text
import Handicap.Monitor.JsonPath
import Handicap.Monitor.Config
import Handicap.Monitor.Record
import Handicap.Monitor.Theorems.Record
import Handicap.Ui.Groups
import Handicap.Monitor.Theorems.Config
import Handicap.Ui.Theorems.Groups
import Handicap.Library.Rounding
import Handicap.Engine.Yaml
import Handicap.Engine.GenVars
import Handicap.Ui.GenVars
import Handicap.Ui.PickArray
import Handicap.Ui.Theorems.PickArray
import Handicap.Engine.Theorems.GenVars
import Handicap.Ui.Theorems.GenVars
import Handicap.Monitor.Supervisor
import Handicap.Monitor.Theorems.Supervisor
import Handicap.Monitor.Theorems.StopAll
import Handicap.Report.Criteria
import Handicap.Report.Theorems.Criteria
import Handicap.Engine.Theorems.RampUp
import Handicap.Engine.Arrivals
import Handicap.Engine.Theorems.Cumulative
import Handicap.Library.Crossing
import Handicap.Engine.Theorems.Arrivals
import Handicap.Library.Utf8
import Handicap.Engine.Template
import Handicap.Engine.Theorems.Template
import Handicap.Engine.Cast
import Handicap.Engine.Render
import Handicap.Engine.Theorems.Render
import Handicap.Engine.Scenario
import Handicap.Engine.Condition
import Handicap.Engine.Extract
import Handicap.Engine.Executor
import Handicap.Engine.ReqGen
import Handicap.Engine.Runner
import Handicap.Engine.Theorems.Executor
import Handicap.Engine.Theorems.Refresh
import Handicap.Engine.Theorems.Runner
import Handicap.Engine.ArrivalLoop
import Handicap.Ui.OpenLoopChecks
import Handicap.Ui.Theorems.IterationTime
import Handicap.Ui.Theorems.SlowRun
import Handicap.Ui.Theorems.OpenLoopChecks
import Handicap.Engine.Theorems.ArrivalLoop
import Handicap.Worker.Theorems.Loading
import Handicap.Engine.Theorems.FlowRefs
import Handicap.Engine.Explain
import Handicap.Engine.Theorems.Explain
import Handicap.Ui.Sizing
import Handicap.Ui.Theorems.Sizing
import Handicap.Engine.Trace
import Handicap.Engine.Theorems.Trace
import Handicap.Engine.Theorems.Parallel
import Handicap.Library.Regex
import Handicap.Library.Decimal
import Handicap.Ui.Conditions
import Handicap.Ui.Theorems.Conditions
import Handicap.Ui.Cast
import Handicap.Engine.Theorems.Cast
import Handicap.Ui.Theorems.Cast
import Handicap.Ui.ScanVars
import Handicap.Engine.Theorems.Variables
import Handicap.Ui.Theorems.ScanVars
import Handicap.Controller.PoolLaunch
import Handicap.Controller.Theorems.PoolLaunch
import Handicap.Shard.Checked
import Handicap.Shard.Theorems.Fairness
import Handicap.Library.Renaming
import Handicap.Store.Theorems.Upload
import Handicap.Api.Theorems.Grace
import Handicap.Engine.Generate
import Handicap.Engine.Theorems.Generate
import Handicap.Library.JsonPath
import Handicap.Library.JsonPathText
import Handicap.Monitor.Theorems.JsonPath
import Handicap.Ui.JsonPath
import Handicap.Ui.Theorems.JsonPath
import Handicap.Library.Base64
import Handicap.Engine.Theorems.Extract
import Handicap.Library.KeyOrder
import Handicap.Engine.Serde
import Handicap.Engine.Theorems.Fields
import Handicap.Engine.Theorems.Serde
import Handicap.Api.StripThink
import Handicap.Engine.Theorems.Declarations
import Handicap.Engine.Theorems.RoundTrip
import Handicap.Api.Theorems.StripThink
import Handicap.Engine.Theorems.YamlText
import Handicap.Library.Pieces
import Handicap.Ui.KvBulk
import Handicap.Ui.Theorems.KvBulk
import Handicap.Ui.ThinkTime
import Handicap.Ui.Theorems.ThinkTime
import Handicap.Engine.JsonPath
import Handicap.Ui.Theorems.JsonValueTree
import Handicap.Library.Binary64
import Handicap.Engine.Theorems.Windows
import Handicap.Controller.Collection
import Handicap.Controller.Theorems.Collection
import Handicap.Controller.Theorems.Counts
import Handicap.Engine.Theorems.Agreement
import Handicap.Ui.PickText
import Handicap.Ui.Theorems.PickText
import Handicap.Library.Filling
import Handicap.Monitor.Check
import Handicap.Monitor.StepJudge
import Handicap.Monitor.Theorems.StepJudge
import Handicap.Monitor.Theorems.Secrets
import Handicap.Monitor.Theorems.Transfer
import Handicap.Monitor.Theorems.Imports
