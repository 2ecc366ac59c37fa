import Locron.Core.Duration
import Locron.Daemon.CatchUp
import Locron.Daemon.Disabling
import Locron.Daemon.Orphans
import Locron.Daemon.Outages
import Locron.Daemon.Retries
import Locron.Daemon.Workers
import Locron.Engine.Redirects
import Locron.Engine.Termination
import Locron.Front.DryRun
import Locron.Front.Prune
import Locron.Front.Selectors
import Locron.Front.SelfUpdate
import Locron.Output.Stream
import Locron.Schedule.DayMatch
import Locron.Schedule.Preview
import Locron.Server.Router
import Locron.Store.Fairness
import Locron.Store.Idempotence
import Locron.Store.Limits
import Locron.Store.Removal
import Locron.Store.Replay
import Locron.Store.Retention
import Locron.Windows.Forward
import Locron.Windows.UserPath
import Locron.Daemon.Isolation
import Locron.Daemon.Loop
