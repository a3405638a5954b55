import RigVeh.Json.Form
import RigVeh.Identity.Tamper
import RigVeh.Identity.Wire
import RigVeh.Identity.Bundle
import RigVeh.Runner.Gate
import RigVeh.Runner.Selection
import RigVeh.Runner.Driver
import RigVeh.Runner.Weighted
import RigVeh.Runner.Ensemble
import RigVeh.Runner.Export
import RigVeh.Runner.Descent
import RigVeh.Runner.Parent
import RigVeh.Runner.Head
import RigVeh.Runner.Lineage
import RigVeh.Runner.Based
import RigVeh.Runner.Improvement
import RigVeh.Runner.Regression
import RigVeh.Ledger.Restart
import RigVeh.Ledger.Torn
import RigVeh.Ledger.Log
import RigVeh.Ledger.Dot
import RigVeh.Runner.Audit
import RigVeh.Runner.Depth
import RigVeh.Runner.Staged
import RigVeh.Runner.Stages
import RigVeh.Runner.Nested
import RigVeh.Runner.Bracket
import RigVeh.Runner.Restore
import RigVeh.Runner.Independent
import RigVeh.Ledger.Replay
import RigVeh.Runner.Linear
import RigVeh.Runner.Account
import RigVeh.Runner.Session
import RigVeh.Runner.Ancestry
import RigVeh.Runner.Retry
import RigVeh.Runner.Crash
import RigVeh.Runner.Supply
import RigVeh.Identity.Record
import RigVeh.Ledger.Handles
import RigVeh.Runner.Provenance
import RigVeh.Runner.Capped
import RigVeh.Runner.Line
import RigVeh.Runner.Climb
import RigVeh.Runner.Tighten
import RigVeh.Runner.Duties
import RigVeh.Runner.Standings
import RigVeh.Runner.Pipeline
import RigVeh.Runner.Uniform
import RigVeh.Runner.Reopen
import RigVeh.Runner.Saturate
