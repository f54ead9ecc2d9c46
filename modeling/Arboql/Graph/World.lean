import Arboql.Graph.CtypeBindings
import Arboql.Lib.Ledger
import Arboql.Lib.Loops

/-!
# Graphs, the logger and the output

The rest of `graph.c`, with `logger.c`, `pattern_matching.c` and the functions of
`ctype_bindings.py` around them. These functions write to streams, so the state is
a `World`: memory, and what has been written to which stream, one entry for each
call of the standard library that writes.

The struct `static_logger` lies in memory like every other object, and Python
reaches it through its address. What the machine gives (the allocator, the address
of `static_logger`, the standard streams, the file names that the compiler puts in
for `__FILE__`) is a `Host`.

Where C leaves a run undefined, at an invalid access or where an `int` overflows, the model
ends with an `Abort`, and nothing is said of what a machine does: compiled code may stop
there, or go on and return. The memory is that of the package: what the standard library
allocates for itself, such as the buffers of the streams, is not in it.
-/

namespace Arboql

open CLayout Loops

/-! ### `logger.h` -/

namespace LoggerH

/-- `enum LOG_LEVEL`, without negative members. -/
def LOG_LEVEL : CType := .int 4 false

def ERROR : ℕ := 0

def INFO : ℕ := 1

def DEBUG : ℕ := 2

def Logger : CType :=
  .struct [("log_level", LOG_LEVEL), ("print_location", .int 4 true),
    ("info_output", GraphH.pointer), ("debug_output", GraphH.pointer),
    ("error_output", GraphH.pointer)]

end LoggerH

/-- The struct `Logger` as `ctype_bindings.py` declares it, without the streams. -/
def Bindings.Logger : CType :=
  .struct [("log_level", Bindings.cInt), ("print_location", Bindings.cInt)]

/-! ### The world -/

/-- What the machine and the compiler give. -/
structure Host where
  alloc : HeapAllocator
  /-- The address of `static_logger`. -/
  staticLogger : ℕ
  stdout : ℕ
  stderr : ℕ
  staticLogger_ne : staticLogger ≠ 0
  stdout_ne : stdout ≠ 0
  stderr_ne : stderr ≠ 0
  /-- Pointers have eight bytes. -/
  streams_lt : stdout < 2 ^ 64 ∧ stderr < 2 ^ 64
  /-- `__FILE__` in `graph.c` and in `logger.c`. -/
  graphFile : String
  loggerFile : String

/-- Memory, and the texts written, each with its stream. -/
structure World where
  mem : Memory
  written : List (ℕ × String)

/-- Why a program with output does not go on in a way that is defined: an exception, or
something that C does not define. -/
inductive Abort where
  | py (e : Bindings.PyError)
  /-- The increment of an `int` that is at its maximum. -/
  | signedOverflow
  deriving DecidableEq

/-- **A run that is defined**: it makes no invalid access, no `int` overflows, and no
exception ends it. -/
def Defined {β : Type} (r : Except Abort β) : Prop := ∃ x, r = .ok x

/-- An access to memory. -/
def access {β : Type} (r : Except MemFault β) : Except Abort β :=
  r.mapError fun f => .py (.fault f)

/-- A text written to a stream. A null stream is an invalid access. -/
def World.put (w : World) (stream : ℕ) (text : String) : Except Abort World :=
  if stream = 0 then .error (.py (.fault .nullDeref))
  else .ok { w with written := w.written ++ [(stream, text)] }

/-- `%d` of an `unsigned`, which is read as an `int`. -/
def formatD (v : ℕ) : String := toString (decode 4 true v)

/-- `%u`. -/
def formatU (v : ℕ) : String := toString v

/-! ### `logger.c` -/

/-- `vlog_impl`. -/
def vlogImpl (pre : String) (w : World) (out : ℕ) (message : String) : Except Abort World := do
  let w ← w.put out pre
  let w ← w.put out message
  w.put out "\n"

def logInfo : World → ℕ → String → Except Abort World := vlogImpl "[INFO]  "

def logDebug : World → ℕ → String → Except Abort World := vlogImpl "[DEBUG] "

def logError : World → ℕ → String → Except Abort World := vlogImpl "[ERROR] "

/-- The three macros, with the severity, the member that holds the stream, and the
function that writes. -/
def logAt (severity : ℕ) (member : String) (log : World → ℕ → String → Except Abort World)
    (w : World) (logger : ℕ) (file : String) (line : ℕ) (message : String) :
    Except Abort World := do
  let level ← access (w.mem.load LoggerH.Logger logger ["log_level"])
  -- below the level the other members are not read
  if level ≥ (severity : ℤ) then
    let location ← access (w.mem.load LoggerH.Logger logger ["print_location"])
    let out ← access (w.mem.load LoggerH.Logger logger [member])
    if location = 1 then log w out.toNat (file ++ ":" ++ toString line ++ ": " ++ message)
    else log w out.toNat message
  else return w

/-- `LOG_DEBUG`. -/
def LOG_DEBUG := logAt LoggerH.DEBUG "debug_output" logDebug

/-- `LOG_INFO`. -/
def LOG_INFO := logAt LoggerH.INFO "info_output" logInfo

/-- `LOG_ERROR`. -/
def LOG_ERROR := logAt LoggerH.ERROR "error_output" logError

/-- An assignment to a member of the logger. -/
def World.setLogger (w : World) (logger : ℕ) (member : String) (v : ℕ) :
    Except Abort World := do
  let mem ← access (w.mem.store LoggerH.Logger logger [member] v)
  return { w with mem }

/-- `set_log_level`. -/
def setLogLevel (w : World) (logger logLevel : ℕ) : Except Abort World :=
  w.setLogger logger "log_level" logLevel

/-- `init_logger`. -/
def initLogger (h : Host) (w : World) (logger : ℕ) : Except Abort World :=
  -- a null pointer is let through
  if logger = 0 then .ok w
  else do
    let w ← w.setLogger logger "print_location" 1
    let w ← w.setLogger logger "log_level" LoggerH.INFO
    let w ← w.setLogger logger "info_output" h.stdout
    let w ← w.setLogger logger "debug_output" h.stdout
    let w ← w.setLogger logger "error_output" h.stderr
    LOG_INFO w logger h.loggerFile 49 "Logger initialized with INFO log level"

/-- One iteration of the loop of `print_graph`, with the `int` counter `i`. -/
def printBody (h : Host) (graph : ℕ) (s : World × ℕ) :
    Except Abort (Flow (World × ℕ) World) := do
  let (w, i) := s
  -- the count is read again in every iteration, and the array only if there is an edge
  let edgesN ← access (w.mem.load GraphH.Graph graph ["edges_n"])
  if (i : ℤ) < edgesN then
    let edges ← access (w.mem.load GraphH.Graph graph ["edges"])
    let edge := elemAddr GraphH.Edge edges.toNat i
    let source ← access (w.mem.load GraphH.Edge edge ["source"])
    let target ← access (w.mem.load GraphH.Edge edge ["target"])
    let w ← w.put h.stdout (formatU source.toNat ++ " " ++ formatU target.toNat ++ "\n")
    if i + 1 = 2 ^ 31 then .error .signedOverflow else return .again (w, i + 1)
  else return .leave w

/-- `print_graph`, whose two other parameters are not used. The counter overflows
before the loop has run `2 ^ 31` times. -/
def printGraph (h : Host) (w : World) (graph : ℕ) : Except Abort World := do
  let w ← w.put h.stdout "\nTree\n"
  forever .signedOverflow (printBody h graph) (2 ^ 31) (w, 0)

/-! ### `graph.c` -/

/-- The message about a graph, with its counts. -/
def countsMessage (what : String) (nodesN edgesN : ℕ) : String :=
  what ++ " graph (" ++ formatD nodesN ++ " nodes and " ++ formatD edgesN ++ " edges)"

/-- `malloc_graph` with its message. -/
def mallocGraphLogged (h : Host) (w : World) (nodesN edgesN : ℕ) :
    Except Abort (World × ℕ) := do
  let (mem, graph) ← access (mallocGraph w.mem h.alloc.toAllocator nodesN edgesN)
  let w ← LOG_DEBUG { w with mem } h.staticLogger h.graphFile 14
    (countsMessage "Allocated new" nodesN edgesN)
  return (w, graph)

/-- `free_graph`. The counts are read before the graph is freed. -/
def freeGraph (h : Host) (w : World) (graph : ℕ) : Except Abort World := do
  let edgesN ← access (w.mem.load GraphH.Graph graph ["edges_n"])
  let nodesN ← access (w.mem.load GraphH.Graph graph ["nodes_n"])
  let edges ← access (w.mem.load GraphH.Graph graph ["edges"])
  let mem ← access (w.mem.free edges.toNat)
  -- the header is still there
  let nodes ← access (mem.load GraphH.Graph graph ["nodes"])
  let mem ← access (mem.free nodes.toNat)
  let mem ← access (mem.free graph)
  LOG_DEBUG { w with mem } h.staticLogger h.graphFile 24
    (countsMessage "Freed" nodesN.toNat edgesN.toNat)

/-! ### `pattern_matching.c` -/

/-- `match`, which prints both graphs. -/
def matchGraphs (h : Host) (w : World) (ast pattern : ℕ) : Except Abort (World × ℕ) := do
  let w ← printGraph h w ast
  let w ← printGraph h w pattern
  return (w, 42)

/-! ### `ctype_bindings.py` -/

namespace Bindings

/-- An argument of a call. -/
def argument (a : PyArg) : Except Abort ℕ := (convert a).mapError .py

/-- A call that writes to memory only. -/
def onMemory (w : World) (r : Except PyError Memory) : Except Abort World :=
  (r.mapError .py).map fun mem => { w with mem }

/-- `malloc_graph`. -/
def mallocGraphLogged (h : Host) (w : World) (nodesN edgesN : PyArg) :
    Except Abort (World × ℕ) := do
  let nodesN ← argument nodesN
  let edgesN ← argument edgesN
  Arboql.mallocGraphLogged h w nodesN edgesN

/-- `print_graph`. -/
def printGraph (h : Host) (w : World) (graph : ℕ) (current indent : PyArg) :
    Except Abort World := do
  -- converted, and not used by the C function
  let _ ← argument current
  let _ ← argument indent
  Arboql.printGraph h w graph

/-- `set_log_level`. -/
def setLogLevel (w : World) (logger : ℕ) (logLevel : PyArg) : Except Abort World := do
  let logLevel ← argument logLevel
  Arboql.setLogLevel w logger logLevel

/-- `logger.contents.log_level`. -/
def logLevel (m : Memory) (logger : ℕ) : Except MemFault ℤ := m.load Logger logger ["log_level"]

end Bindings

/-- Loading the package into a process whose memory is `m`. -/
def importArboql (h : Host) (m : Memory) : Except Abort World :=
  initLogger h ⟨m, []⟩ h.staticLogger

/-! ### The calls of a client -/

/-- A call of the package. The logger is always `get_static_logger()`. -/
inductive ApiCall where
  | mallocGraph (nodesN edgesN : Bindings.PyArg)
  | freeGraph (graph : ℕ)
  | addEdge (graph : ℕ) (edgeId source target attributeType attributeValue : Bindings.PyArg)
  | addNode (graph : ℕ) (nodeId attributeType attributeValue : Bindings.PyArg)
  | printGraph (graph : ℕ) (current indent : Bindings.PyArg)
  | matchGraphs (graph pattern : ℕ)
  | setLogLevel (logLevel : Bindings.PyArg)
  deriving DecidableEq

/-- What a call gives back. -/
inductive ApiResult where
  | none
  /-- The pointer that `malloc_graph` returns. -/
  | handle (graph : ℕ)
  | status (n : ℕ)
  /-- `ctypes.ArgumentError` is raised. -/
  | argumentError
  deriving DecidableEq

/-- A call, without the handling of exceptions. -/
def World.perform (h : Host) (w : World) : ApiCall → Except Abort (World × ApiResult)
  | .mallocGraph nodesN edgesN => do
    let (w, graph) ← Bindings.mallocGraphLogged h w nodesN edgesN
    return (w, .handle graph)
  | .freeGraph graph => do
    let w ← Arboql.freeGraph h w graph
    return (w, .none)
  | .addEdge graph edgeId source target attributeType attributeValue => do
    let w ← Bindings.onMemory w
      (Bindings.addEdge w.mem graph edgeId source target attributeType attributeValue)
    return (w, .none)
  | .addNode graph nodeId attributeType attributeValue => do
    let w ← Bindings.onMemory w (Bindings.addNode w.mem graph nodeId attributeType attributeValue)
    return (w, .none)
  | .printGraph graph current indent => do
    let w ← Bindings.printGraph h w graph current indent
    return (w, .none)
  | .matchGraphs graph pattern => do
    let (w, n) ← Arboql.matchGraphs h w graph pattern
    return (w, .status n)
  | .setLogLevel logLevel => do
    let w ← Bindings.setLogLevel w h.staticLogger logLevel
    return (w, .none)

/-- **One call of the client.** An exception leaves the client running; it is raised
before the C function is called. -/
def World.call (h : Host) (w : World) (c : ApiCall) : Except Abort (World × ApiResult) :=
  match w.perform h c with
  | .error (.py .argumentError) => .ok (w, .argumentError)
  | r => r

end Arboql
