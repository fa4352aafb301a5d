import Reaming.Main
import Reaming.PathData.Printer
import Reaming.Toolpath.Ring
import Reaming.Proofs.PathData.Chained
import Reaming.Proofs.Decimal.Order
import Reaming.Proofs.Ordered
import Reaming.Proofs.Area.Climbs
import Reaming.Proofs.Area.Nesting
import Reaming.Proofs.Exact
import Reaming.Proofs.Geometry.Box
import Reaming.Proofs.Geometry.Flat
import Reaming.Proofs.Area.Alternating
import Reaming.Proofs.Area.NetArea
import Reaming.Proofs.Area.Outline
import Reaming.Proofs.Area.Partition
import Reaming.Proofs.Decimal.Nearest
import Reaming.Proofs.Decimal.Thousandths
import Reaming.Proofs.Decimal.Digits
import Reaming.Proofs.Decimal.Reread
import Reaming.Proofs.PathData.RoundTrip
import Reaming.Proofs.Decimal.Addition
import Reaming.Proofs.Decimal.Monotone
import Reaming.Proofs.Toolpath.Machine
import Reaming.Proofs.PathData.Runs
import Reaming.Proofs.PathData.Sketch
import Reaming.Proofs.PathData.Drawn
import Reaming.Proofs.Decimal.Zero
import Reaming.Proofs.Decimal.Literal
import Reaming.Proofs.PathData.Expansion
import Reaming.Proofs.Toolpath.Ring
import Reaming.Proofs.PathData.BareLetter
import Reaming.Proofs.Geometry.Bench
import Reaming.Proofs.Drawing.LoadedArea
import Reaming.Proofs.Area.Closest
import Reaming.Proofs.PathData.Scan
import Reaming.Proofs.PathData.Seam
import Reaming.Proofs.Decimal.Difference
import Reaming.Proofs.Geometry.Corner
import Reaming.Proofs.Drawing.Reload
import Reaming.Proofs.Decimal.Shortest
import Reaming.Proofs.Json.Strings
import Reaming.Proofs.Json.Numbers
import Reaming.Proofs.Json.RoundTrip
import Reaming.Proofs.Json.Record
import Reaming.Proofs.Decimal.Rounded
import Reaming.Proofs.Decimal.Quotient
import Reaming.Proofs.Json.Exact
import Reaming.Proofs.Settings.FileText
import Reaming.Proofs.Files.Kept
import Reaming.Proofs.Settings.Persist
import Reaming.Proofs.Area.Renamed
import Reaming.Proofs.Area.OpenPaths
import Reaming.Proofs.Decimal.EqualDoubles
import Reaming.Proofs.Area.Reordered
import Reaming.Proofs.Toolpath.Turning
import Reaming.Proofs.Drawing.Number
import Reaming.Proofs.Drawing.Dimension
import Reaming.Proofs.Drawing.Declared
import Reaming.Proofs.Toolpath.Listing
import Reaming.Proofs.Toolpath.Borders
import Reaming.Proofs.Toolpath.PathEnd
import Reaming.Proofs.Geometry.Edges
import Reaming.Proofs.PathData.Canonical
import Reaming.Proofs.PathData.Respaced
import Reaming.Proofs.Decimal.Distance
import Reaming.Proofs.PathData.Snap
import Reaming.Proofs.Geometry.Tight
import Reaming.Proofs.Geometry.Canvas
import Reaming.Proofs.Settings.Omitted
import Reaming.Proofs.CommandLine.Groups
import Reaming.Proofs.PathData.Emission
import Reaming.Proofs.Area.Calls
