import Noria.Ffi.Lookup
import Noria.Server.Aggregator
import Noria.Server.BaseColumns
import Noria.Server.Domain.Closure
import Noria.Server.Domain.Budget
import Noria.Server.Domain.EvictReader
import Noria.Server.Domain.Limit
import Noria.Server.Domain.Progress
import Noria.Server.Domain.Waiting
import Noria.Server.Extremum
import Noria.Server.FullReplay
import Noria.Server.Injection
import Noria.Server.KeyPieces
import Noria.Server.Partial
import Noria.Server.Project
import Noria.Server.Readers
import Noria.Server.Sharding
import Noria.Server.Sql.Implication
import Noria.Sqlite.Extremum
import Noria.Sqlite.Groups
import Noria.Sqlite.Ingest
import Noria.Sqlite.Literals
import Noria.Sqlite.OuterJoin
import Noria.Sqlite.Resolve
import Noria.Sqlite.Simulation
import Noria.Sqlite.Supported
import Noria.Sqlite.Upquery
import Noria.Sqlite.ViewKeys
