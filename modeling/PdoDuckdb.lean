import PdoDuckdb.Sql.Expansion
import PdoDuckdb.Transaction.Agreement
import PdoDuckdb.Transaction.Statements
import PdoDuckdb.Transaction.FastPath
import PdoDuckdb.Filesystem.Canonical
import PdoDuckdb.Driver.Instances
import PdoDuckdb.Appenders.Durability
import PdoDuckdb.Appenders.Links
import PdoDuckdb.Appenders.Rows
import PdoDuckdb.Statement.Ownership
import PdoDuckdb.Statement.Cursor
import PdoDuckdb.Statement.Rounds
import PdoDuckdb.Value.JsonReading
import PdoDuckdb.Nested.Vectors
import PdoDuckdb.Nested.Distinctness
import PdoDuckdb.Cells.Shapes
import PdoDuckdb.Structures.ColumnReadback
import PdoDuckdb.Decimals.Routes
import PdoDuckdb.Structures.Probes
import PdoDuckdb.Driver.Basedirs
import PdoDuckdb.Driver.Sandbox
import PdoDuckdb.Driver.TableNames
import PdoDuckdb.Bridge.Annotations
import PdoDuckdb.Bridge.ObjectOrder
import PdoDuckdb.Bridge.Spans
import PdoDuckdb.Bridge.GeometryValues
import PdoDuckdb.Entries.Balance
import PdoDuckdb.Texts.Hugeint
import PdoDuckdb.Texts.Words
