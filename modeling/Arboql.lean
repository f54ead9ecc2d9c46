import Arboql.Lib.Loops
import Arboql.Lib.Enumeration
import Arboql.Lib.Ledger
import Arboql.Lib.Slots
import Arboql.Lib.Reading
import Arboql.Lib.Simulation
import Arboql.Lib.LexTuples
import Arboql.Lib.Arrangements
import Arboql.Lib.Odometer
import Arboql.Lib.OrderedDict
import Arboql.Lib.PreorderTree
import Arboql.Lib.CLayout
import Arboql.Ast.AstUtils
import Arboql.Ast.Visits
import Arboql.Ast.Listing
import Arboql.Ast.Interning
import Arboql.Ast.RootedTree
import Arboql.Ast.ParentLinks
import Arboql.Ast.AstDict
import Arboql.Ast.ClassTags
import Arboql.Ast.Faithful
import Arboql.Ast.Collisions
import Arboql.Ast.ShortLists
import Arboql.Ast.LeafLabels
import Arboql.Ast.Occurrences
import Arboql.Generators.CMem
import Arboql.Generators.InjectiveMappings
import Arboql.Generators.InjSearch
import Arboql.Generators.InjEnumeration
import Arboql.Generators.Resume
import Arboql.Generators.SearchTree
import Arboql.Generators.Positions
import Arboql.Generators.Images
import Arboql.Generators.CartesianProduct
import Arboql.Generators.CpEnumeration
import Arboql.Generators.Carries
import Arboql.Generators.Agreement
import Arboql.Generators.FailedInit
import Arboql.Generators.Lifetime
import Arboql.Graph.CtypeBindings
import Arboql.Graph.GraphMemory
import Arboql.Graph.RoundTrip
import Arboql.Graph.World
import Arboql.Graph.Contents
import Arboql.Graph.GraphBuilder
import Arboql.Graph.Filling
import Arboql.Graph.Calls
import Arboql.Graph.Store
import Arboql.Graph.Sessions
import Arboql.Graph.Dangling
import Arboql.Graph.Output
import Arboql.Graph.Client
import Arboql.Graph.Refused
import Arboql.Graph.Record
import Arboql.Graph.Log
