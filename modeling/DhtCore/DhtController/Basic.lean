import DhtCore.NodeList.Basic

/-!
# The controller and its engine

The controller has the thread of the user interface, its engine one of its own. The controller
posts calls to the engine, the engine answers with signals, and either thread takes what was
posted to it in order (`World`). Of an engine that was torn down, signals may still be on the
way: they carry its generation.

Modelled are the node list, of which one page is asked for at a time, and the export of all
that matches, which a thread of its own writes. What the engine reads to answer changes all
the time, and comes with the event (`EngineView`), as do how a start and a file turn out. The
reading of a query from its form, and how long a query took, are left out.
-/

namespace Dht

/-- What the engine answers from: `m_catalog`, `m_labels`, the time, and what its crawler has
    found out about addresses. -/
structure EngineView where
  catalog : NodeCatalog
  labels : ℕ → ClientLabels
  nowMs : ℤ
  suspicion : Option AddressSignals

/-- An engine that knows no nodes. -/
def emptyView : EngineView := ⟨NodeCatalog.new 10 0, fun _ => ⟨"", "", ""⟩, 0, none⟩

/-- What is shown about the list. -/
structure NodeListInfo where
  matchedNodes : ℤ := 0
  matchedAddresses : ℤ := 0
  offset : ℤ := 0
  limit : ℤ
  loaded : Bool := false
  error : String := ""

/-- What is shown of an export. -/
structure ExportStatus where
  busy : Bool
  message : String
  error : Bool
  deriving DecidableEq

/-- What the controller holds of the list and of exports. -/
structure DhtController where
  /-- Whether there is an engine. -/
  engine : Bool := false
  running : Bool := false
  generation : ℕ := 0
  nodeList : List NodeListRow := []
  nodeListInfo : NodeListInfo := { limit := 100 }
  nodeQuery : NodeQuery := {}
  nodeRequestId : ℕ := 0
  nodeQueryInFlight : Bool := false
  nodeQueryAgain : Bool := false
  exportStatus : ExportStatus := ⟨false, "", false⟩
  exportPath : String := ""
  exportRequestId : ℕ := 0

namespace DhtController

/-- Forgets the list, and what is in flight for it. -/
def resetNodeList (c : DhtController) : DhtController :=
  { c with
    nodeList := []
    nodeQueryInFlight := false
    nodeQueryAgain := false
    nodeListInfo := { limit := c.nodeQuery.limit } }

/-- What the controller posts to its engine. -/
inductive Call
  | queryNodes (query : NodeQuery) (requestId : ℕ)
  | exportNodes (query : NodeQuery) (requestId : ℕ)

/-- What is posted to the controller: by an engine, of the generation given, or by the thread
    of an export, with what went wrong. -/
inductive Signal
  | nodePageReady (generation : ℕ) (page : NodeListPage) (requestId : ℕ)
  | nodeExportReady (generation requestId : ℕ) (nodes : NodeExport)
  | exportWritten (requestId rows : ℕ) (path : String) (error : Option String)

/-- What the thread of an export is given. -/
structure Export where
  nodes : NodeExport
  path : String
  requestId : ℕ

/-- The controller, what was posted to either side, and the threads of exports: the one that
    writes, and what was written before. -/
structure World extends DhtController where
  calls : List Call := []
  signals : List Signal := []
  writing : Option Export := none
  written : List Export := []

/-- How a start turns out: the identifiers may be refused, and the engine may fail. -/
inductive StartOutcome
  | Refused
  | Failed
  | Started
  deriving DecidableEq

/-- What may happen to the controller and its engines. -/
inductive Event
  /-- The query that was asked for, or what is wrong with it. -/
  | setNodeQuery (query : Except String NodeQuery)
  | showNodePage (offset : ℤ)
  | refreshNodeList
  | exportNodes (path : String)
  | exportSummary (path : String) (error : Option String)
  | startEngine (outcome : StartOutcome)
  /-- What was posted to the engine is answered first, from the views. -/
  | stopEngine (views : ℕ → EngineView)
  /-- The engine takes a call. -/
  | engine (view : EngineView)
  /-- The controller takes a signal; if it waits for a file to be written, this may fail. -/
  | deliver (error : Option String)
  /-- The thread that writes has ended. -/
  | exportEnds (error : Option String)

variable (compareText : String → String → Ordering) (sorting : Sorting.Algorithm ℕ)
  (number : ℕ → String)

namespace World

/-! ## The node list -/

/-- Asks the engine for the page held, under the next number. -/
def sendNodeQuery (w : World) : World :=
  { w with
    nodeQueryInFlight := true
    nodeQueryAgain := false
    nodeRequestId := w.nodeRequestId + 1
    calls := w.calls ++ [.queryNodes w.nodeQuery (w.nodeRequestId + 1)] }

/-- Asks for the list again, now or once what is in flight is answered. -/
def refreshNodeList (w : World) : World :=
  if !w.engine then w
  else if w.nodeQueryInFlight then { w with nodeQueryAgain := true }
  else w.sendNodeQuery

/-- Takes over another query, or shows what is wrong with it. -/
def setNodeQuery (w : World) : Except String NodeQuery → World
  | .error error => { w with nodeListInfo.error := error }
  | .ok query =>
    refreshNodeList { w with nodeListInfo.error := "", nodeQuery := query }

/-- Moves on to the page from an offset. -/
def showNodePage (w : World) (offset : ℤ) : World :=
  refreshNodeList { w with nodeQuery.offset := max 0 offset }

/-- Takes over a page that an engine answered, if it is the one asked for last. -/
def applyNodePage (w : World) (page : NodeListPage) (requestId : ℕ) : World :=
  let w := { w with nodeQueryInFlight := false }
  let w :=
    if requestId = w.nodeRequestId then
      { w with
        nodeQuery.offset := page.offset
        nodeList := page.rows
        nodeListInfo := {
          matchedNodes := page.matchedNodes
          matchedAddresses := page.matchedAddresses
          offset := page.offset
          limit := w.nodeQuery.limit
          loaded := true
          error := w.nodeListInfo.error } }
    else w
  if w.nodeQueryAgain && w.engine then w.sendNodeQuery else w

/-! ## Exports -/

/-- Shows what becomes of an export. -/
def setExportStatus (w : World) (busy : Bool) (message : String) (error : Bool) : World :=
  { w with exportStatus := ⟨busy, message, error⟩ }

/-- Asks the engine to collect the nodes for an export, unless one is under way. -/
def exportNodes (w : World) (path : String) : World :=
  if !w.engine || w.exportStatus.busy then w
  else
    let w := { w with exportPath := path }.setExportStatus true "Collecting nodes…" false
    { w with
      exportRequestId := w.exportRequestId + 1
      calls := w.calls ++ [.exportNodes w.nodeQuery (w.exportRequestId + 1)] }

/-- The thread that writes ends, if there is one, and posts how it went. -/
def exportEnds (w : World) (error : Option String) : World :=
  match w.writing with
  | none => w
  | some e =>
    { w with
      writing := none
      written := w.written ++ [e]
      signals := w.signals ++
        [.exportWritten e.requestId e.nodes.entries.length e.path error] }

/-- The thread of the export before is waited for. -/
def writeExport (w : World) (nodes : NodeExport) (error : Option String) : World :=
  let w := (w.exportEnds error).setExportStatus true
    ("Writing " ++ number nodes.entries.length ++ " nodes…") false
  { w with writing := some ⟨nodes, w.exportPath, w.exportRequestId⟩ }

/-- The file of an export was written, or not. -/
def exportWritten (w : World) (requestId rows : ℕ) (path : String) (error : Option String) :
    World :=
  if requestId ≠ w.exportRequestId then w
  else match error with
    | none => w.setExportStatus false ("Wrote " ++ number rows ++ " nodes to " ++ path) false
    | some error => w.setExportStatus false ("Could not write " ++ path ++ ": " ++ error) true

/-- A summary was exported, or not. -/
def exportSummary (w : World) (path : String) : Option String → World
  | none => w.setExportStatus false ("Wrote the summary to " ++ path) false
  | some error => w.setExportStatus false ("Could not write " ++ path ++ ": " ++ error) true

/-! ## The engine -/

/-- What the engine answers a call with. -/
def answer (generation : ℕ) (view : EngineView) : Call → Signal
  | .queryNodes query requestId =>
    .nodePageReady generation
      (Dht.queryNodes view.labels view.catalog query compareText sorting view.nowMs view.suspicion)
      requestId
  | .exportNodes query requestId =>
    .nodeExportReady generation requestId
      (collectNodes view.labels view.catalog query compareText sorting view.nowMs view.suspicion)

/-- The engine takes its next call. -/
def runEngine (w : World) (view : EngineView) : World :=
  match w.calls with
  | [] => w
  | call :: calls =>
    { w with
      calls
      signals := w.signals ++ [answer compareText sorting w.generation view call] }

/-- The engine takes the calls that are left, and its signals count no more. -/
def destroyEngine (w : World) (views : ℕ → EngineView) : World :=
  if !w.engine then w
  else
    { w with
      engine := false
      generation := w.generation + 1
      calls := []
      signals := w.signals ++
        w.calls.mapIdx fun i call => answer compareText sorting w.generation (views i) call }

/-- An engine that fails to start is torn down at once, before anything is posted to it. -/
def startEngine (w : World) (outcome : StartOutcome) : World :=
  if w.engine then w
  else match outcome with
    | .Refused => w
    | .Failed => { w with generation := w.generation + 2 }
    | .Started => { w with engine := true, running := true, generation := w.generation + 1 }

/-- Stops the engine, and forgets the list. -/
def stopEngine (w : World) (views : ℕ → EngineView) : World :=
  let w := { w.destroyEngine compareText sorting views with running := false }
  { w with toDhtController := w.toDhtController.resetNodeList }

/-! ## Runs -/

/-- What the controller does with a signal. -/
def receive (w : World) (error : Option String) : Signal → World
  | .nodePageReady generation page requestId =>
    if generation = w.generation ∧ w.running then w.applyNodePage page requestId else w
  | .nodeExportReady generation requestId nodes =>
    if generation = w.generation ∧ requestId = w.exportRequestId then
      w.writeExport number nodes error
    else w
  | .exportWritten requestId rows path error => w.exportWritten number requestId rows path error

/-- The controller takes the next signal. -/
def deliver (w : World) (error : Option String) : World :=
  match w.signals with
  | [] => w
  | signal :: signals => { w with signals }.receive number error signal

/-- Something happens. -/
def apply (w : World) : Event → World
  | .setNodeQuery query => w.setNodeQuery query
  | .showNodePage offset => w.showNodePage offset
  | .refreshNodeList => w.refreshNodeList
  | .exportNodes path => w.exportNodes path
  | .exportSummary path error => w.exportSummary path error
  | .startEngine outcome => w.startEngine outcome
  | .stopEngine views => w.stopEngine compareText sorting views
  | .engine view => w.runEngine compareText sorting view
  | .deliver error => w.deliver number error
  | .exportEnds error => w.exportEnds error

/-- What comes of some events. -/
def run (w : World) (events : List Event) : World :=
  events.foldl (apply compareText sorting number) w

end World

/-! ## Generations -/

/-- The generation of the engine that a signal is from. -/
def Signal.generation? : Signal → Option ℕ
  | .nodePageReady generation .. | .nodeExportReady generation .. => some generation
  | .exportWritten .. => none

namespace World

variable {w : World}

/-- Signals are from the engine there is, or from one before it. -/
structure Dated (w : World) : Prop where
  running : w.running = w.engine
  calls : w.engine = false → w.calls = []
  signals : ∀ signal ∈ w.signals, ∀ g ∈ signal.generation?,
    g ≤ w.generation ∧ (w.engine = false → g < w.generation)

theorem dated_init : Dated {} := ⟨rfl, fun _ => rfl, by simp⟩

theorem generation_answer (g : ℕ) (view : EngineView) (call : Call) :
    (answer compareText sorting g view call).generation? = some g := by
  cases call <;> rfl

/-- Signals of the engine, or that an export is written, keep signals dated. -/
theorem Dated.of_signals (h : w.Dated) {w' : World} (hrunning : w'.running = w.running)
    (hengine : w'.engine = w.engine) (hgeneration : w'.generation = w.generation)
    (hcalls : w.engine = false → w'.calls = w.calls)
    (hsignals : ∀ signal ∈ w'.signals, signal ∈ w.signals ∨ signal.generation? = none ∨
      w.engine = true ∧ signal.generation? = some w.generation) : w'.Dated := by
  refine ⟨by rw [hrunning, hengine, h.running], fun hoff => ?_, fun signal hs g hg => ?_⟩
  · rw [hengine] at hoff
    rw [hcalls hoff, h.calls hoff]
  · rw [hgeneration, hengine]
    rcases hsignals signal hs with hs | hnone | ⟨hon, hsome⟩
    · exact h.signals signal hs g hg
    · simp [hnone] at hg
    · rw [hsome, Option.mem_some_iff] at hg
      simp [hon, hg]

theorem Dated.refreshNodeList (h : w.Dated) : w.refreshNodeList.Dated := by
  cases hengine : w.engine with
  | false => simpa [World.refreshNodeList, hengine] using h
  | true =>
    cases hflight : w.nodeQueryInFlight <;> refine h.of_signals ?_ ?_ ?_ ?_ ?_ <;>
      simp +contextual [World.refreshNodeList, sendNodeQuery, hengine, hflight]

theorem Dated.applyNodePage (h : w.Dated) (page : NodeListPage) (n : ℕ) :
    (w.applyNodePage page n).Dated := by
  by_cases hn : n = w.nodeRequestId <;> cases hagain : w.nodeQueryAgain <;>
    cases hengine : w.engine <;> refine h.of_signals ?_ ?_ ?_ ?_ ?_ <;>
    simp +contextual [World.applyNodePage, sendNodeQuery, hn, hagain, hengine]

theorem Dated.exportEnds (h : w.Dated) (error : Option String) : (w.exportEnds error).Dated := by
  cases hwriting : w.writing with
  | none => simpa [World.exportEnds, hwriting] using h
  | some e =>
    refine h.of_signals ?_ ?_ ?_ ?_ ?_ <;>
      simp +contextual [World.exportEnds, hwriting, or_imp, Signal.generation?]

theorem Dated.receive (h : w.Dated) (error : Option String) (signal : Signal) :
    (w.receive number error signal).Dated := by
  cases signal with
  | nodePageReady g page n =>
    rw [World.receive]
    split_ifs
    · exact h.applyNodePage page n
    · exact h
  | nodeExportReady g n nodes =>
    rw [World.receive]
    split_ifs
    · have hends := h.exportEnds error
      exact ⟨hends.running, hends.calls, hends.signals⟩
    · exact h
  | exportWritten n rows path failure =>
    by_cases hn : n = w.exportRequestId <;> cases failure <;>
      simpa [World.receive, World.exportWritten, hn] using ⟨h.running, h.calls, h.signals⟩

/-- An engine that starts has a generation that nothing on its way has. -/
theorem Dated.startEngine (h : w.Dated) (outcome : StartOutcome) :
    (w.startEngine outcome).Dated := by
  cases hengine : w.engine with
  | true => simpa [World.startEngine, hengine] using h
  | false =>
    have hlt := fun signal hs g hg => (h.signals signal hs g hg).2 hengine
    cases outcome with
    | Refused => simpa [World.startEngine, hengine] using h
    | Failed =>
      simp only [World.startEngine, hengine, Bool.false_eq_true, if_false]
      refine ⟨h.running.trans hengine, fun _ => h.calls hengine, fun signal hs g hg => ?_⟩
      exact ⟨(hlt signal hs g hg).le.trans (Nat.le_add_right _ 2),
        fun _ => (hlt signal hs g hg).trans_le (Nat.le_add_right _ 2)⟩
    | Started =>
      simp only [World.startEngine, hengine, Bool.false_eq_true, if_false]
      refine ⟨rfl, by simp, fun signal hs g hg => ?_⟩
      exact ⟨(hlt signal hs g hg).le.trans (Nat.le_add_right _ 1), by simp⟩

/-- What an engine that is stopped still answers is of a generation that is past. -/
theorem Dated.stopEngine (h : w.Dated) (views : ℕ → EngineView) :
    (w.stopEngine compareText sorting views).Dated := by
  cases hengine : w.engine with
  | false =>
    simp only [World.stopEngine, destroyEngine, hengine, Bool.not_false, if_true, resetNodeList]
    exact ⟨rfl, fun _ => h.calls hengine, fun signal hs g hg =>
      ⟨(h.signals signal hs g hg).1, fun _ => (h.signals signal hs g hg).2 hengine⟩⟩
  | true =>
    simp only [World.stopEngine, destroyEngine, hengine, Bool.not_true, Bool.false_eq_true,
      if_false, resetNodeList]
    refine ⟨rfl, fun _ => rfl, fun signal hs g hg => ?_⟩
    rcases List.mem_append.1 hs with hs | hs
    · have := (h.signals signal hs g hg).1
      simp only
      omega
    · obtain ⟨i, hi, rfl⟩ := List.mem_mapIdx.1 hs
      rw [generation_answer, Option.mem_some_iff] at hg
      simp only
      omega

theorem Dated.apply (h : w.Dated) (e : Event) : (w.apply compareText sorting number e).Dated := by
  cases e with
  | setNodeQuery query =>
    cases query with
    | error error => exact ⟨h.running, h.calls, h.signals⟩
    | ok query => exact Dated.refreshNodeList ⟨h.running, h.calls, h.signals⟩
  | showNodePage offset => exact Dated.refreshNodeList ⟨h.running, h.calls, h.signals⟩
  | refreshNodeList => exact h.refreshNodeList
  | exportNodes path =>
    cases hengine : w.engine with
    | false => simpa [World.apply, exportNodes, hengine] using h
    | true =>
      cases hbusy : w.exportStatus.busy with
      | true => simpa [World.apply, exportNodes, hbusy] using h
      | false =>
        refine h.of_signals ?_ ?_ ?_ ?_ ?_ <;>
          simp +contextual [World.apply, exportNodes, hbusy, setExportStatus, hengine]
  | exportSummary path error => cases error <;> exact ⟨h.running, h.calls, h.signals⟩
  | startEngine outcome => exact h.startEngine outcome
  | stopEngine views => exact h.stopEngine compareText sorting views
  | engine view =>
    cases hcalls : w.calls with
    | nil => simpa [World.apply, runEngine, hcalls] using h
    | cons call calls =>
      have hengine : w.engine = true := by
        by_contra hoff
        simp [h.calls (by simpa using hoff)] at hcalls
      refine h.of_signals ?_ ?_ ?_ ?_ ?_ <;>
        simp +contextual [World.apply, runEngine, hcalls, hengine, or_imp, generation_answer]
  | deliver error =>
    cases hsignals : w.signals with
    | nil => simpa [World.apply, deliver, hsignals] using h
    | cons signal signals =>
      simp only [World.apply, deliver, hsignals]
      have hrest : Dated { w with signals } := ⟨h.running, h.calls, fun signal' hs =>
        h.signals signal' (by rw [hsignals]; exact List.mem_cons_of_mem _ hs)⟩
      exact hrest.receive number error signal
  | exportEnds error => exact h.exportEnds error

theorem Dated.run (h : w.Dated) (events : List Event) :
    (w.run compareText sorting number events).Dated := by
  induction events generalizing w with
  | nil => exact h
  | cons e events ih => exact ih (h.apply compareText sorting number e)

end World

end DhtController

end Dht
