import Arboql.Graph.Refused

/-!
# What the log says

`graph.c` writes a debug message whenever a graph is allocated or freed, if the log level
is `DEBUG` or more at that moment. The counts in a message about a free are read from the
header of the graph. In every session the messages are those that a client expects from
its own calls and their results (`logAfter`, `Session.log_messages`); nothing is written to
`stderr`, and the texts that `print_graph` writes are no messages. A message can be read
back (`readMessage_text`).

So with the log level at `DEBUG` the log that is read from the messages is an account of
memory: the graphs that were allocated according to it are those that were freed, and
those that are there (`Session.log_accounts`).
-/

namespace Arboql

open CLayout OrderedDict Simulation Reading Loops
open Bindings (PyArg typeWord)

/-! ### Messages -/

/-- The texts of the debug messages among what is written. -/
def messages : List (ℕ × String) → List String
  | (_, pre) :: (stream, text) :: rest =>
    if pre = "[DEBUG] " then text :: messages rest else messages ((stream, text) :: rest)
  | _ => []

/-- Messages are not split at the end of `lines`. -/
def Whole (lines : List (ℕ × String)) : Prop :=
  ∀ rest, messages (lines ++ rest) = messages lines ++ messages rest

/-- Texts that are not the beginning of a message. -/
theorem messages_append_of_plain {lines : List (ℕ × String)}
    (hplain : ∀ line ∈ lines, line.2 ≠ "[DEBUG] ") (rest : List (ℕ × String)) :
    messages (lines ++ rest) = messages rest := by
  induction lines with
  | nil => rfl
  | cons line lines ih =>
    have hline := hplain line List.mem_cons_self
    rw [← ih fun line hmem => hplain line (List.mem_cons_of_mem _ hmem), List.cons_append]
    cases lines ++ rest with
    | nil => rfl
    | cons next lines => exact if_neg hline

theorem messages_of_plain {lines : List (ℕ × String)}
    (hplain : ∀ line ∈ lines, line.2 ≠ "[DEBUG] ") : messages lines = [] := by
  have hnil := messages_append_of_plain hplain []
  rwa [List.append_nil] at hnil

theorem whole_of_plain {lines : List (ℕ × String)}
    (hplain : ∀ line ∈ lines, line.2 ≠ "[DEBUG] ") : Whole lines := by
  intro rest
  rw [messages_append_of_plain hplain, messages_of_plain hplain, List.nil_append]

theorem Whole.append {lines lines' : List (ℕ × String)} (hw : Whole lines)
    (hw' : Whole lines') : Whole (lines ++ lines') := by
  intro rest
  rw [List.append_assoc, hw, hw', hw, List.append_assoc]

/-- A character tells two texts apart. -/
theorem ne_of_mem_toList {s t : String} {c : Char} (hs : c ∈ s.toList) (ht : c ∉ t.toList) :
    s ≠ t := by
  rintro rfl
  exact ht hs

/-- What `print_graph` writes are no messages. -/
theorem printedLines_plain {h : Host} {v : GraphVal} :
    ∀ line ∈ printedLines h v, line.2 ≠ "[DEBUG] " := by
  intro line hline
  rcases List.mem_cons.mp hline with rfl | hline
  · show ("\nTree\n" : String) ≠ "[DEBUG] "
    decide
  · obtain ⟨e, -, rfl⟩ := List.mem_map.mp hline
    -- a line ends with the end of the line
    refine ne_of_mem_toList (c := '\n') ?_ (by decide)
    rw [toList_edgeLine, lineText]
    simp

/-! ### What a client expects -/

/-- What a message is about: a graph with its counts of nodes and edges. -/
inductive LogEntry where
  | allocated (counts : ℕ × ℕ)
  | freed (counts : ℕ × ℕ)
  deriving DecidableEq

/-- The text of the message. -/
def LogEntry.text (h : Host) : LogEntry → String
  | .allocated counts =>
    h.graphFile ++ ":" ++ toString 14 ++ ": " ++ countsMessage "Allocated new" counts.1 counts.2
  | .freed counts =>
    h.graphFile ++ ":" ++ toString 24 ++ ": " ++ countsMessage "Freed" counts.1 counts.2

/-- The counts that the message names. -/
def LogEntry.counts : LogEntry → ℕ × ℕ
  | .allocated counts => counts
  | .freed counts => counts

/-- Counts of four bytes. -/
def AreWords (counts : ℕ × ℕ) : Prop := counts.1 < 2 ^ 32 ∧ counts.2 < 2 ^ 32

/-- What a call gives rise to, when the client holds `held`. -/
def Held.entries (held : Held) : ApiCall × ApiResult → List LogEntry
  | (.mallocGraph nodesN edgesN, .handle _) => [.allocated (wordOf nodesN, wordOf edgesN)]
  | (.freeGraph p, .none) => (held p).toList.map .freed
  | _ => []

/-- The log level after a call. -/
def nextLevel (level : ℕ) : ApiCall × ApiResult → ℕ
  | (.setLogLevel logLevel, .none) => wordOf logLevel
  | _ => level

/-- The log level after some calls. -/
def levelAfter (es : List (ApiCall × ApiResult)) : ℕ := es.foldl nextLevel LoggerH.INFO

theorem levelAfter_snoc (es : List (ApiCall × ApiResult)) (e : ApiCall × ApiResult) :
    levelAfter (es ++ [e]) = nextLevel (levelAfter es) e := by
  unfold levelAfter
  rw [List.foldl_append]
  rfl

/-- What is logged of some calls. -/
def logFrom (held : Held) (level : ℕ) : List (ApiCall × ApiResult) → List LogEntry
  | [] => []
  | e :: es => (if LoggerH.DEBUG ≤ level then held.entries e else [])
      ++ logFrom (held.next e) (nextLevel level e) es

/-- **The log that a client expects** after some calls. -/
def logAfter (es : List (ApiCall × ApiResult)) : List LogEntry :=
  logFrom (fun _ => none) LoggerH.INFO es

theorem logAfter_snoc (es : List (ApiCall × ApiResult)) (e : ApiCall × ApiResult) :
    logAfter (es ++ [e])
      = logAfter es ++ if LoggerH.DEBUG ≤ levelAfter es then (heldAfter es).entries e else [] := by
  -- from whatever the client holds and has set
  have hfrom : ∀ (es : List (ApiCall × ApiResult)) (held : Held) (level : ℕ),
      logFrom held level (es ++ [e]) = logFrom held level es
        ++ if LoggerH.DEBUG ≤ es.foldl nextLevel level then (es.foldl Held.next held).entries e
          else [] := by
    intro es
    induction es with
    | nil => exact fun held level => List.append_nil _
    | cons e' es ih =>
      intro held level
      rw [List.cons_append, logFrom, ih, logFrom, List.append_assoc]
      rfl
  exact hfrom es _ _

theorem wordOf_lt (a : PyArg) : wordOf a < 2 ^ 32 := by
  cases a with
  | int z => exact typeWord_lt z
  | tuple elems => exact Nat.two_pow_pos 32

/-- What a client holds has counts of four bytes. -/
theorem Held.areWords_next {held : Held}
    (hheld : ∀ p counts, held p = some counts → AreWords counts) (e : ApiCall × ApiResult)
    {p : ℕ} {counts : ℕ × ℕ} (hp : held.next e p = some counts) : AreWords counts := by
  unfold Held.next at hp
  split at hp
  · next nodesN edgesN q =>
    by_cases hq : p = q
    · rw [hq, Function.update_self] at hp
      obtain rfl := Option.some.inj hp
      exact ⟨wordOf_lt nodesN, wordOf_lt edgesN⟩
    · rw [Function.update_of_ne hq] at hp
      exact hheld p counts hp
  · next q =>
    by_cases hq : p = q
    · rw [hq, Function.update_self] at hp
      cases hp
    · rw [Function.update_of_ne hq] at hp
      exact hheld p counts hp
  · exact hheld p counts hp

theorem Held.areWords_entries {held : Held}
    (hheld : ∀ p counts, held p = some counts → AreWords counts) {e : ApiCall × ApiResult}
    {entry : LogEntry} (hentry : entry ∈ held.entries e) : AreWords entry.counts := by
  unfold Held.entries at hentry
  split at hentry
  · next nodesN edgesN q =>
    obtain rfl := List.mem_singleton.mp hentry
    exact ⟨wordOf_lt nodesN, wordOf_lt edgesN⟩
  · next q =>
    obtain ⟨counts, hcounts, rfl⟩ := List.mem_map.mp hentry
    exact hheld q counts (Option.mem_toList.mp hcounts)
  · exact absurd hentry List.not_mem_nil

/-- So have the entries of a log. -/
theorem areWords_of_mem_logFrom {es : List (ApiCall × ApiResult)} {held : Held} {level : ℕ}
    (hheld : ∀ p counts, held p = some counts → AreWords counts) {entry : LogEntry}
    (hentry : entry ∈ logFrom held level es) : AreWords entry.counts := by
  induction es generalizing held level with
  | nil => exact absurd hentry List.not_mem_nil
  | cons e es ih =>
    rcases List.mem_append.mp hentry with hnow | hlater
    · split at hnow
      · exact Held.areWords_entries hheld hnow
      · exact absurd hnow List.not_mem_nil
    · exact ih (fun p counts => Held.areWords_next hheld e) hlater

theorem areWords_of_mem_logAfter {es : List (ApiCall × ApiResult)} {entry : LogEntry}
    (hentry : entry ∈ logAfter es) : AreWords entry.counts :=
  areWords_of_mem_logFrom (fun _ _ hnone => absurd hnone (Option.some_ne_none _).symm) hentry

/-! ### Reading a message -/

/-- Reads the counts in a message. They are printed with a sign. -/
def readCounts (what : String) (cs : List Char) : Option (ℕ × ℕ) := do
  let cs ← expect (": " ++ what ++ " graph (").toList cs
  let (nodesN, cs) ← readInt cs
  let cs ← expect " nodes and ".toList cs
  let (edgesN, cs) ← readInt cs
  let cs ← expect " edges)".toList cs
  if cs = [] then some (typeWord nodesN, typeWord edgesN) else none

/-- Reads a message, by the line of `graph.c` that it names. -/
def readMessage (h : Host) (text : String) : Option LogEntry := do
  let cs ← expect (h.graphFile ++ ":").toList text.toList
  let (line, cs) ← readNat cs
  if line = 14 then (readCounts "Allocated new" cs).map .allocated
  else if line = 24 then (readCounts "Freed" cs).map .freed
  else none

/-- A word that is printed as signed is the number printed, modulo `2 ^ 32`. -/
theorem typeWord_decode {v : ℕ} (hv : v < 2 ^ 32) : typeWord (decode 4 true v) = v := by
  unfold typeWord decode
  split <;> omega

theorem readCounts_text {what : String} {counts : ℕ × ℕ} (hc : AreWords counts) :
    readCounts what (": " ++ countsMessage what counts.1 counts.2).toList = some counts := by
  have htext : (": " ++ countsMessage what counts.1 counts.2).toList
      = (": " ++ what ++ " graph (").toList ++ ((formatD counts.1).toList
        ++ (" nodes and ".toList ++ ((formatD counts.2).toList ++ " edges)".toList))) := by
    unfold countsMessage
    simp only [String.toList_append, List.append_assoc]
  -- a space follows each number
  have hnodes : ∀ cs c, (" nodes and ".toList ++ cs).head? = some c → c.isDigit = false := by
    intro cs c hc
    obtain rfl : ' ' = c := Option.some.inj hc
    rfl
  have hedges : ∀ c, " edges)".toList.head? = some c → c.isDigit = false := by
    intro c hc
    obtain rfl : ' ' = c := Option.some.inj hc
    rfl
  have hend : expect " edges)".toList " edges)".toList = some [] := by
    decide
  unfold readCounts
  rw [htext]
  simp only [expect_append, bind, Option.bind, formatD, readInt_append _ (hnodes _),
    readInt_append _ hedges, hend, typeWord_decode hc.1, typeWord_decode hc.2]
  rfl

/-- **A message is read back.** -/
theorem readMessage_text {h : Host} {entry : LogEntry} (hentry : AreWords entry.counts) :
    readMessage h (entry.text h) = some entry := by
  -- the number of the line ends at the colon
  have hcolon : ∀ text c, (": " ++ text : String).toList.head? = some c → c.isDigit = false := by
    intro text c hc
    rw [String.toList_append] at hc
    obtain rfl : ':' = c := Option.some.inj hc
    rfl
  have hline : ∀ (line : ℕ) (message : String),
      (h.graphFile ++ ":" ++ toString line ++ ": " ++ message).toList
        = (h.graphFile ++ ":").toList ++ ((toString line).toList ++ (": " ++ message).toList) := by
    intro line message
    simp only [String.toList_append, List.append_assoc]
  unfold readMessage
  cases entry with
  | allocated counts =>
    have hwords : AreWords counts := hentry
    rw [LogEntry.text, hline]
    simp only [expect_append, bind, Option.bind, readNat_append _ (hcolon _)]
    rw [if_pos trivial, readCounts_text hwords]
    rfl
  | freed counts =>
    have hwords : AreWords counts := hentry
    rw [LogEntry.text, hline]
    simp only [expect_append, bind, Option.bind, readNat_append _ (hcolon _)]
    rw [if_neg (by decide), if_pos trivial, readCounts_text hwords]
    rfl

/-- A log is read back from its messages. -/
theorem mapM_readMessage {h : Host} {log : List LogEntry}
    (hlog : ∀ entry ∈ log, AreWords entry.counts) :
    (log.map (LogEntry.text h)).mapM (readMessage h) = some log := by
  induction log with
  | nil => rfl
  | cons entry log ih =>
    obtain ⟨hentry, hlog⟩ := List.forall_mem_cons.mp hlog
    rw [List.map_cons, List.mapM_cons, readMessage_text hentry, ih hlog]
    rfl

/-! ### The store -/

section Store

variable {h : Host} {s s' : Store} {e : ApiCall × ApiResult}

/-- A message that is written if the level allows it. -/
theorem messages_debugLines (level : ℕ) (entry : LogEntry) {line : ℕ} {message : String}
    (htext : entry.text h = h.graphFile ++ ":" ++ toString line ++ ": " ++ message) :
    Whole (debugLines h level line message)
      ∧ messages (debugLines h level line message)
        = (if LoggerH.DEBUG ≤ level then [entry] else []).map (LogEntry.text h) := by
  unfold debugLines messageLines
  by_cases hlevel : LoggerH.DEBUG ≤ level
  · rw [if_pos hlevel, if_pos hlevel, List.map_singleton, htext]
    refine ⟨fun rest => ?_, rfl⟩
    -- the end of the line is no message
    have hne : ("\n" : String) ≠ "[DEBUG] " := by decide
    have hend : messages ((h.stdout, "\n") :: rest) = messages rest :=
      messages_append_of_plain (List.forall_mem_singleton.mpr hne) rest
    exact congrArg (_ :: ·) hend
  · rw [if_neg hlevel, if_neg hlevel]
    exact ⟨fun rest => rfl, rfl⟩

/-- The three parts of a message. -/
theorem forall_mem_messageLines {stream line : ℕ} {pre file message : String}
    {P : ℕ × String → Prop} :
    (∀ x ∈ messageLines stream pre file line message, P x)
      ↔ P (stream, pre) ∧ P (stream, file ++ ":" ++ toString line ++ ": " ++ message)
        ∧ P (stream, "\n") := by
  unfold messageLines
  simp

theorem debugLines_stdout {level line : ℕ} {message : String} :
    ∀ x ∈ debugLines h level line message, x.1 = h.stdout := by
  unfold debugLines
  split
  · exact forall_mem_messageLines.mpr ⟨rfl, rfl, rfl⟩
  · exact List.forall_mem_nil _

/-- The call writes `lines`, in which the messages are those expected. -/
structure Logs (h : Host) (held : Held) (level : ℕ) (e : ApiCall × ApiResult)
    (lines : List (ℕ × String)) : Prop where
  whole : Whole lines
  messages_eq : messages lines
    = (if LoggerH.DEBUG ≤ level then held.entries e else []).map (LogEntry.text h)
  stdout : ∀ line ∈ lines, line.1 = h.stdout

/-- A call without messages. -/
theorem Logs.of_plain {held : Held} {level : ℕ} {lines : List (ℕ × String)}
    (hplain : ∀ line ∈ lines, line.2 ≠ "[DEBUG] ") (hentries : held.entries e = [])
    (hstdout : ∀ line ∈ lines, line.1 = h.stdout) : Logs h held level e lines where
  whole := whole_of_plain hplain
  messages_eq := by rw [messages_of_plain hplain, hentries, ite_self, List.map_nil]
  stdout := hstdout

/-- **What a step writes.** -/
theorem Store.Step.logs (hstep : Store.Step h s e s') :
    s'.level = nextLevel s.level e
      ∧ ∃ lines, s'.written = s.written ++ lines ∧ Logs h s.held s.level e lines := by
  -- a call that writes nothing
  have hnothing : s.held.entries e = [] → ∃ lines, s.written = s.written ++ lines
      ∧ Logs h s.held s.level e lines := by
    intro hentries
    exact ⟨[], (List.append_nil _).symm,
      .of_plain (List.forall_mem_nil _) hentries (List.forall_mem_nil _)⟩
  cases hstep with
  | argumentError hc =>
    refine ⟨by cases ‹ApiCall› <;> rfl, hnothing ?_⟩
    cases ‹ApiCall› <;> rfl
  | @mallocGraph nodesN edgesN p v hp hfresh hn he =>
    refine ⟨rfl, _, rfl, ?_⟩
    obtain ⟨hwhole, hmessages⟩ := messages_debugLines (h := h) s.level
      (.allocated (v.nodesN, v.edgesN)) rfl
    refine ⟨hwhole, hmessages.trans ?_, debugLines_stdout⟩
    -- the counts of the graph are those that were passed
    rw [hn, he]
    rfl
  | @freeGraph p v hv =>
    refine ⟨rfl, _, rfl, ?_⟩
    obtain ⟨hwhole, hmessages⟩ := messages_debugLines (h := h) s.level
      (.freed (v.nodesN, v.edgesN)) rfl
    refine ⟨hwhole, hmessages.trans ?_, debugLines_stdout⟩
    -- the counts of the graph are those that are held
    rw [Held.entries, Store.held_eq hv]
    rfl
  | addEdge hv hi hedges => exact ⟨rfl, hnothing rfl⟩
  | addNode hv hj hnodes => exact ⟨rfl, hnothing rfl⟩
  | printGraph hv hprint =>
    exact ⟨rfl, _, rfl, .of_plain printedLines_plain rfl fun line => printedLines_stdout⟩
  | matchGraphs hv hu hprint hprint' =>
    refine ⟨rfl, _, rfl, .of_plain ?_ rfl ?_⟩
    · exact List.forall_mem_append.mpr ⟨printedLines_plain, printedLines_plain⟩
    · exact List.forall_mem_append.mpr
        ⟨fun line => printedLines_stdout, fun line => printedLines_stdout⟩
  | setLogLevel => exact ⟨rfl, hnothing rfl⟩

/-- The message of `init_logger` is not a debug message. -/
theorem init_plain : ∀ line ∈ (Store.init h).written, line.2 ≠ "[DEBUG] " := by
  refine forall_mem_messageLines.mpr ⟨?_, ?_, ?_⟩
  · show ("[INFO]  " : String) ≠ "[DEBUG] "
    decide
  · -- whatever `__FILE__` is, the message has a letter that the prefix lacks
    refine ne_of_mem_toList (c := 'z') ?_ (by decide)
    simp [String.toList_append]
  · show ("\n" : String) ≠ "[DEBUG] "
    decide

/-- **What a run keeps**: the level, the handles and the messages are those that are
expected after the calls `es`. -/
structure Store.HasLogged (h : Host) (es : List (ApiCall × ApiResult)) (s : Store) : Prop where
  level_eq : s.level = levelAfter es
  held_eq : s.held = heldAfter es
  whole : Whole s.written
  messages_eq : messages s.written = (logAfter es).map (LogEntry.text h)
  stdout : ∀ line ∈ s.written, line.1 = h.stdout

theorem Store.HasLogged.init : Store.HasLogged h [] (Store.init h) where
  level_eq := rfl
  held_eq := rfl
  whole := whole_of_plain init_plain
  messages_eq := messages_of_plain init_plain
  stdout := forall_mem_messageLines.mpr ⟨rfl, rfl, rfl⟩

/-- One step more. -/
theorem Store.HasLogged.step {es : List (ApiCall × ApiResult)} (hs : s.HasLogged h es)
    (hstep : Store.Step h s e s') : s'.HasLogged h (es ++ [e]) := by
  obtain ⟨hlevel, lines, hwritten, hlogs⟩ := hstep.logs
  constructor
  case level_eq => rw [hlevel, hs.level_eq, levelAfter_snoc]
  case held_eq => rw [hstep.held_eq, hs.held_eq, heldAfter_snoc]
  case whole =>
    rw [hwritten]
    exact hs.whole.append hlogs.whole
  case messages_eq =>
    rw [hwritten, hs.whole, hs.messages_eq, hlogs.messages_eq, hs.level_eq, hs.held_eq,
      logAfter_snoc, List.map_append]
  case stdout =>
    rw [hwritten]
    exact List.forall_mem_append.mpr ⟨hs.stdout, hlogs.stdout⟩

/-- **What a run writes.** -/
theorem Store.logs_of_run {es : List (ApiCall × ApiResult)}
    (hrun : Run (Store.Step h) (Store.init h) es s) : s.HasLogged h es :=
  hrun.invariant (fun _ _ _ _ hs => hs.step) .init

end Store

/-! ### Sessions -/

section Sessions

variable {h : Host} {m : Memory} {es : List (ApiCall × ApiResult)} {w : World}

/-- Two graphs are allocated with the level at `DEBUG`, and one of them is freed. -/
def twoLogged : List (ApiCall × ApiResult) :=
  [(.setLogLevel (.int 2), .none),
    (.mallocGraph (.int 2) (.int 1), .handle 4129),
    (.mallocGraph (.int 1) (.int 0), .handle 4188),
    (.freeGraph 4129, .none)]

theorem session_twoLogged : ∃ w, Session .bump freshProcess twoLogged w :=
  @Session.of_callAll _ _ (twoLogged.map Prod.fst) _ loadable_freshProcess (by decide +kernel)
    (by decide +kernel)

/-- The graphs that were allocated according to a log. -/
def allocatedIn (log : List LogEntry) : List (ℕ × ℕ) :=
  log.filterMap fun entry => match entry with
    | .allocated counts => some counts
    | .freed _ => none

/-- The graphs that were freed according to a log. -/
def freedIn (log : List LogEntry) : List (ℕ × ℕ) :=
  log.filterMap fun entry => match entry with
    | .allocated _ => none
    | .freed counts => some counts

/-- An allocation is logged. -/
theorem account_allocated (log : List LogEntry) (counts : ℕ × ℕ) :
    allocatedIn (log ++ [.allocated counts]) = allocatedIn log ++ [counts]
      ∧ freedIn (log ++ [.allocated counts]) = freedIn log :=
  ⟨List.filterMap_append, List.filterMap_append.trans (List.append_nil _)⟩

/-- A free is logged. -/
theorem account_freed (log : List LogEntry) (counts : ℕ × ℕ) :
    allocatedIn (log ++ [.freed counts]) = allocatedIn log
      ∧ freedIn (log ++ [.freed counts]) = freedIn log ++ [counts] :=
  ⟨List.filterMap_append.trans (List.append_nil _), List.filterMap_append⟩

/-- Every call that allocates or frees is made at the level `DEBUG`. -/
def Logged (es : List (ApiCall × ApiResult)) : Prop :=
  Obeys (fun pre e => (heldAfter pre).entries e = [] ∨ LoggerH.DEBUG ≤ levelAfter pre) es

instance decidableLogged : DecidablePred Logged :=
  inferInstanceAs (DecidablePred
    (Obeys fun pre e => (heldAfter pre).entries e = [] ∨ LoggerH.DEBUG ≤ levelAfter pre))

/-- **What a step logs** is what it does to the handles. -/
theorem Store.Step.entries_cases {s s' : Store} {e : ApiCall × ApiResult}
    (hstep : Store.Step h s e s') :
    (s.held.entries e = [] ∧ s'.held = s.held)
      ∨ (∃ p counts, s.held p = none ∧ s.held.entries e = [.allocated counts]
        ∧ s'.held = Function.update s.held p (some counts))
      ∨ ∃ p counts, s.held p = some counts ∧ s.held.entries e = [.freed counts]
        ∧ s'.held = Function.update s.held p none := by
  have hheld := hstep.held_eq
  cases hstep with
  | argumentError hc =>
    refine .inl ⟨?_, rfl⟩
    cases ‹ApiCall› <;> rfl
  | mallocGraph hp hfresh hn he =>
    refine .inr (.inl ⟨_, _, ?_, rfl, hheld⟩)
    rw [Store.held, hfresh, Option.map_none]
  | freeGraph hv =>
    refine .inr (.inr ⟨_, _, Store.held_eq hv, ?_, hheld⟩)
    rw [Held.entries, Store.held_eq hv]
    rfl
  | addEdge hv hi hedges => exact .inl ⟨rfl, hheld⟩
  | addNode hv hj hnodes => exact .inl ⟨rfl, hheld⟩
  | printGraph hv hprint => exact .inl ⟨rfl, rfl⟩
  | matchGraphs hv hu hprint hprint' => exact .inl ⟨rfl, rfl⟩
  | setLogLevel => exact .inl ⟨rfl, rfl⟩

/-- **What a run keeps of the account**: if everything is logged, what was allocated is
what was freed and what is held. -/
structure Store.Accounts (es : List (ApiCall × ApiResult)) (s : Store) : Prop where
  held_eq : s.held = heldAfter es
  account : Logged es → ∃ d : OrderedDict ℕ (ℕ × ℕ), s.held = d.get?
    ∧ (allocatedIn (logAfter es)).Perm (freedIn (logAfter es) ++ d.items.map Prod.snd)

/-- One step more. -/
theorem Store.Accounts.step {s s' : Store} {e : ApiCall × ApiResult} (hs : s.Accounts es)
    (hstep : Store.Step h s e s') : s'.Accounts (es ++ [e]) := by
  refine ⟨by rw [hstep.held_eq, hs.held_eq, heldAfter_snoc], fun hlogged => ?_⟩
  obtain ⟨hbefore, hnow⟩ := obeys_snoc.mp hlogged
  obtain ⟨d, hd, hperm⟩ := hs.account hbefore
  -- whatever there is to log is logged
  have hlog : logAfter (es ++ [e]) = logAfter es ++ s.held.entries e := by
    rw [logAfter_snoc, hs.held_eq]
    rcases hnow with hnone | hlevel
    · rw [hnone, ite_self]
    · rw [if_pos hlevel]
  rcases hstep.entries_cases with
    ⟨hentries, hsame⟩ | ⟨p, counts, hfresh, hentries, hsame⟩ | ⟨p, counts, hp, hentries, hsame⟩
  · refine ⟨d, hsame.trans hd, ?_⟩
    rwa [hlog, hentries, List.append_nil]
  · -- one graph more on either side
    have hnew : p ∉ d.keys := get?_eq_none_iff.mp (hd ▸ hfresh)
    refine ⟨d.set p counts, by rw [hsame, hd, get?_set_eq_update], ?_⟩
    obtain ⟨hallocated, hfreed⟩ := account_allocated (logAfter es) counts
    rw [hlog, hentries, hallocated, hfreed, items_set_of_notMem hnew, List.map_append,
      ← List.append_assoc]
    exact hperm.append_right [counts]
  · -- the graph passes from those that are held to those that were freed
    refine ⟨d.filterKeys (· ≠ p), by rw [hsame, hd, get?_remove_eq_update], ?_⟩
    have hitems := (items_perm_remove (hd ▸ hp)).map Prod.snd
    obtain ⟨hallocated, hfreed⟩ := account_freed (logAfter es) counts
    rw [hlog, hentries, hallocated, hfreed, List.append_assoc]
    exact hperm.trans (hitems.append_left _)

/-- **The account of a run.** -/
theorem Store.account_of_run {s : Store} (hrun : Run (Store.Step h) (Store.init h) es s) :
    s.Accounts es :=
  hrun.invariant (fun _ _ _ _ hs => hs.step) ⟨rfl, fun _ => ⟨empty, rfl, .refl _⟩⟩

/-- **The log accounts for memory.** From the messages of a session a log is read back,
which is the one that the client expects. If the session allocates and frees at the level
`DEBUG` only, the graphs that were allocated according to it are those that were freed
according to it and those that the client holds, whose blocks are there besides the blocks
from before. -/
theorem Session.log_accounts (hs : Session h m es w) (hlogged : Logged es) :
    (messages w.written).mapM (readMessage h) = some (logAfter es)
      ∧ ∃ live : List LiveGraph,
        (∀ p counts, heldAfter es p = some counts
          ↔ ∃ g ∈ live, g.addr = p ∧ (g.val.nodesN, g.val.edgesN) = counts)
        ∧ (live.map LiveGraph.addr).Nodup
        ∧ w.mem.blocks.Perm (m.blocks ++ live.flatMap LiveGraph.blocks)
        ∧ (allocatedIn (logAfter es)).Perm
          (freedIn (logAfter es) ++ live.map fun g => (g.val.nodesN, g.val.edgesN)) := by
  obtain ⟨s, graphs, hrun, hr, hheld⟩ := hs.represents
  obtain ⟨d, hd, hperm⟩ := (Store.account_of_run hrun).account hlogged
  obtain ⟨live, hblocks, hitems⟩ := hs.blocks_of_held (hheld.symm.trans hd)
  refine ⟨?_, live, fun p counts => ?_, ?_, hblocks, hperm.trans ?_⟩
  · rw [hr.written_eq, (Store.logs_of_run hrun).messages_eq]
    exact mapM_readMessage fun entry => areWords_of_mem_logAfter
  · rw [← hheld, hd, get?_eq_some_iff, ← hitems.mem_iff, List.mem_map]
    refine exists_congr fun g => and_congr_right fun _ => ?_
    exact Prod.mk.injEq .. ▸ Iff.rfl
  · -- the addresses are the keys of the dictionary
    have hkeys := hitems.map Prod.fst
    rw [List.map_map] at hkeys
    exact hkeys.nodup_iff.mpr d.nodup
  · have hcounts := hitems.symm.map Prod.snd
    rw [List.map_map] at hcounts
    exact hcounts.append_left _

/-- Of the two graphs the one that was not freed is there. -/
theorem Session.log_accounts_twoLogged :
    ∃ w, Session .bump freshProcess twoLogged w
      ∧ (messages w.written).mapM (readMessage .bump)
        = some [.allocated (2, 1), .allocated (1, 0), .freed (2, 1)]
      ∧ ∃ live : List LiveGraph, live.map (fun g => (g.val.nodesN, g.val.edgesN)) = [(1, 0)]
        ∧ w.mem.blocks.Perm (freshProcess.blocks ++ live.flatMap LiveGraph.blocks) := by
  obtain ⟨w, hs⟩ := session_twoLogged
  obtain ⟨hlog, live, -, -, hblocks, hperm⟩ := Session.log_accounts hs (by decide +kernel)
  have hexpected : logAfter twoLogged = [.allocated (2, 1), .allocated (1, 0), .freed (2, 1)] := by
    decide +kernel
  rw [hexpected] at hlog hperm
  -- the graph that was freed is on both sides of the account
  have hleft : [(1, 0)].Perm (live.map fun g => (g.val.nodesN, g.val.edgesN)) := hperm.cons_inv
  exact ⟨w, hs, hlog, live, List.singleton_perm.mp hleft |>.symm, hblocks⟩

end Sessions

end Arboql
