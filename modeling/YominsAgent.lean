import YominsAgent.Collector.Answered
import YominsAgent.Collector.Certs
import YominsAgent.Events.AuthLog
import YominsAgent.Events.FailedLogin
import YominsAgent.Events.Pipeline
import YominsAgent.Events.ProcNet
import YominsAgent.Events.ProcStat
import YominsAgent.Events.Spike
import YominsAgent.Events.Sudo
import YominsAgent.Events.Threats
import YominsAgent.Events.WtmpAlign
import YominsAgent.Integrations.FastCGI
import YominsAgent.Integrations.Scrape
import YominsAgent.Logs.AccessCounters
import YominsAgent.Logs.AccessOrder
import YominsAgent.Logs.CardLine
import YominsAgent.Logs.Deliver
import YominsAgent.Logs.Hints
import YominsAgent.Logs.HostGlob
import YominsAgent.Logs.Journal
import YominsAgent.Logs.JsonLine
import YominsAgent.Logs.LongLine
import YominsAgent.Logs.Rotation
import YominsAgent.Logs.Rsyslog
import YominsAgent.Logs.Vanished
import YominsAgent.Logs.Waiting
import YominsAgent.Remote.Fetch
import YominsAgent.Remote.Trust
import YominsAgent.StateFiles
import YominsAgent.Transport.LastFlush
import YominsAgent.Transport.Overlap
import YominsAgent.Upgrade.Checksum
import YominsAgent.Upgrade.Provenance
