import Goz.Bootstrap.LayoutOrder
import Goz.Usn.Buffers
import Goz.Cli.Reply
import Goz.Daemon.Deadlock
import Goz.Daemon.InTurn
import Goz.Daemon.LinkWalks
import Goz.Daemon.Refunds
import Goz.Daemon.Revival
import Goz.Daemon.ScanLoop
import Goz.Daemon.ScopeCache
import Goz.Index.FrnBacking
import Goz.Index.NameCounts
import Goz.Index.NameRanks
import Goz.Layout.Buffers
import Goz.Query.Dates
import Goz.Query.Maintenance
import Goz.Output.Plain
import Goz.Proto.Wire
import Goz.Winfs.Links
