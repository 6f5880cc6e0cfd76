import FioRelic.Names
import FioRelic.TokenLedger
import FioRelic.Supply
import FioRelic.RequestRollback
import FioRelic.SignatureRollback
import FioRelic.ForkReturns
import FioRelic.Bootstrap
import FioRelic.HandleMutators
import FioRelic.Prototype.Steps
import FioRelic.Prototype.Checkpoint
import FioRelic.Prototype.Chain
import FioRelic.Prototype.Master
import FioRelic.Prototype.Backup
import FioRelic.Prototype.Failover
import FioRelic.Relational.Maxima
import FioRelic.Prototype.Demotion
import FioRelic.Prototype.Sequences
import FioRelic.Prototype.Cleaner
import FioRelic.Prototype.Retention
import FioRelic.Relational.Matching
import FioRelic.Relational.Rank
import FioRelic.Renumbering
import FioRelic.ProcedureTwins
import FioRelic.Reorganisation
import FioRelic.AuditOrder
import FioRelic.Prototype.Chunks
import FioRelic.Provenance
import FioRelic.Identifiers
import FioRelic.AddressBook
import FioRelic.Lasting
import FioRelic.AsOf
import FioRelic.RepeatedForks
import FioRelic.Repeats
import FioRelic.Relational.Frames
import FioRelic.Footprints
import FioRelic.Journal
import FioRelic.Relational.Agree
import FioRelic.Choices
import FioRelic.Prototype.Restarts
import FioRelic.Prototype.OnePass
import FioRelic.Relational.Locality
import FioRelic.Independence
import FioRelic.Prototype.Site
import FioRelic.Finality
