import DhtCore.DhtController.Basic
import DhtCore.Lib.Progress
import DhtCore.Lib.SingleFlight
import DhtCore.NodeList.Paging

/-!
# Pages of the node list

The controller asks its engine for one page of the node list at a time: as far as the list
goes, a run of the two is one of `SingleFlight` (`client_run`), what else they post apart. So
at rest the list shows the engine's answer to the query held, from after it was last asked for
(`shown_at_rest`), whatever was stopped and started in between; and it comes to rest, if both
threads go on (`comes_to_rest`). But a page that is asked for while a query is in flight is not
shown: the offset is that of the page that comes next (`page_lost`).
-/

namespace Dht.DhtController

open SingleFlight

variable (compareText : String → String → Ordering) (sorting : Sorting.Algorithm ℕ)
  (number : ℕ → String)

/-! ## The page asked for -/

section

variable {labels : ℕ → ClientLabels} {c : NodeCatalog} {q : NodeQuery}
  {suspicion : Option AddressSignals}

theorem filterNodes_offset (o : ℤ) (counts : Option AddressCounts) :
    filterNodes labels c { q with offset := o } counts suspicion =
      filterNodes labels c q counts suspicion := rfl

theorem slotOrder_offset (o : ℤ) (counts : Option AddressCounts) :
    slotOrder labels c { q with offset := o } compareText counts =
      slotOrder labels c q compareText counts := rfl

theorem pageStart_pageStart (q : NodeQuery) {matched : ℤ} (h : 0 ≤ matched) :
    pageStart { q with offset := pageStart q matched } matched = pageStart q matched := by
  have hbounds := pageStart_bounds q matched h
  have hpast : ∀ o, pageStart { q with offset := o } matched = if max 0 o ≥ matched then
    if matched > 0 then (matched - 1) / pageSize q * pageSize q else 0 else max 0 o := fun _ => rfl
  rw [hpast, max_eq_right hbounds.1]
  split_ifs with hge hpos
  · have hlt : (matched - 1) / pageSize q * pageSize q < matched :=
      (Int.ediv_mul_le _ (by have := one_le_pageSize q; omega)).trans_lt (by omega)
    rw [pageStart] at hge ⊢
    split_ifs at hge ⊢ <;> first | rfl | omega
  · omega
  · rfl

/-- A page is that of its own offset, too. -/
theorem queryNodes_adopted (nowMs : ℤ) :
    queryNodes labels c
      { q with offset := (queryNodes labels c q compareText sorting nowMs suspicion).offset }
      compareText sorting nowMs suspicion =
    queryNodes labels c q compareText sorting nowMs suspicion := by
  have hoffset : (queryNodes labels c q compareText sorting nowMs suspicion).offset =
    pageStart q (queryNodes labels c q compareText sorting nowMs suspicion).matchedNodes := rfl
  have hnonneg : 0 ≤ (queryNodes labels c q compareText sorting nowMs suspicion).matchedNodes :=
    Int.natCast_nonneg _
  have hstart := pageStart_pageStart q hnonneg
  rw [← hoffset] at hstart
  generalize (queryNodes labels c q compareText sorting nowMs suspicion).offset = o at *
  simp only [pageStart, pageSize, queryNodes] at hstart hoffset
  simp only [queryNodes, filterNodes_offset, slotOrder_offset]
  erw [hstart, ← hoffset]

end

/-! ## What is on its way -/

/-- The query that a call is for, and its number. -/
def Call.nodeQuery? : Call → Option (NodeQuery × ℕ)
  | .queryNodes query requestId => some (query, requestId)
  | .exportNodes .. => none

/-- A page from the engine of a generation. -/
def Signal.nodePage? (generation : ℕ) : Signal → Option (NodeListPage × ℕ)
  | .nodePageReady g page requestId => if g = generation then some (page, requestId) else none
  | .nodeExportReady .. | .exportWritten .. => none

/-- What is shown, once a page has come. -/
structure Shown where
  rows : List NodeListRow
  matchedNodes : ℤ
  matchedAddresses : ℤ
  offset : ℤ
  limit : ℤ

/-- The engine, as what answers the queries of the list. -/
def pages : Service NodeQuery EngineView NodeListPage Shown where
  answer view query :=
    queryNodes view.labels view.catalog query compareText sorting view.nowMs view.suspicion
  adopt query page := { query with offset := page.offset }
  display query page :=
    ⟨page.rows, page.matchedNodes, page.matchedAddresses, page.offset, query.limit⟩

/-- The list is asked for. -/
def Event.isRequest : Event → Bool
  | .setNodeQuery (.ok _) | .showNodePage _ | .refreshNodeList => true
  | .setNodeQuery (.error _) | .exportNodes _ | .exportSummary .. | .startEngine _ | .stopEngine _
  | .engine _ | .deliver _ | .exportEnds _ => false

/-- The threads go on. -/
def Event.isTurn : Event → Bool
  | .engine _ | .deliver _ | .exportEnds _ => true
  | .setNodeQuery _ | .showNodePage _ | .refreshNodeList | .exportNodes _ | .exportSummary ..
  | .startEngine _ | .stopEngine _ => false

namespace World

variable {w : World}

/-- The world, as far as the list goes. -/
def client (w : World) : Client NodeQuery NodeListPage Shown where
  on := w.engine
  held := w.nodeQuery
  requestId := w.nodeRequestId
  inFlight := w.nodeQueryInFlight
  again := w.nodeQueryAgain
  shown :=
    if w.nodeListInfo.loaded then
      some ⟨w.nodeList, w.nodeListInfo.matchedNodes, w.nodeListInfo.matchedAddresses,
        w.nodeListInfo.offset, w.nodeListInfo.limit⟩
    else none
  asked := w.calls.filterMap Call.nodeQuery?
  answered := w.signals.filterMap (Signal.nodePage? w.generation)

/-- What an event does to the list. -/
def steps (w : World) : Event → List (SingleFlight.Event NodeQuery EngineView)
  | .setNodeQuery (.ok query) => [.hold query]
  | .showNodePage offset => [.hold { w.nodeQuery with offset := max 0 offset }]
  | .refreshNodeList => [.hold w.nodeQuery]
  | .startEngine .Started => [.start]
  | .stopEngine _ => [.stop]
  | .engine view => if (w.calls.head?.bind Call.nodeQuery?).isSome then [.answer view] else []
  | .deliver _ =>
    if (w.signals.head?.bind (Signal.nodePage? w.generation)).isSome then [.receive] else []
  | .setNodeQuery (.error _) | .startEngine .Refused | .startEngine .Failed | .exportNodes _
  | .exportSummary .. | .exportEnds _ => []

/-! ## One step -/

theorem client_refreshNodeList :
    w.refreshNodeList.client = w.client.hold w.nodeQuery := by
  cases hengine : w.engine <;> cases hflight : w.nodeQueryInFlight <;>
    simp [refreshNodeList, sendNodeQuery, client, Client.hold, Client.send, hengine, hflight,
      Call.nodeQuery?]

theorem client_applyNodePage {page : NodeListPage} {n : ℕ} {signals : List Signal}
    (hsignals : w.signals = .nodePageReady w.generation page n :: signals) :
    (applyNodePage { w with signals } page n).client =
      w.client.receive (pages compareText sorting) := by
  by_cases hn : n = w.nodeRequestId <;> cases hagain : w.nodeQueryAgain && w.engine <;>
    simp [applyNodePage, sendNodeQuery, client, Client.receive, Client.send, pages, hsignals,
      Signal.nodePage?, hn, hagain, Call.nodeQuery?]

theorem client_runEngine (view : EngineView) :
    (w.runEngine compareText sorting view).client =
      w.client.run (pages compareText sorting) (w.steps (.engine view)) := by
  cases hcalls : w.calls with
  | nil => simp [runEngine, steps, hcalls, Client.run]
  | cons call calls =>
    cases call <;>
      simp [runEngine, steps, hcalls, Client.run, Client.apply, Client.answer, client,
        Call.nodeQuery?, World.answer, Signal.nodePage?, pages, List.filterMap_cons]

theorem client_exportEnds (error : Option String) : (w.exportEnds error).client = w.client := by
  cases hwriting : w.writing <;> simp [exportEnds, hwriting, client, Signal.nodePage?]

theorem client_receive_other {signal : Signal} (h : signal.nodePage? w.generation = none)
    (error : Option String) : (w.receive number error signal).client = w.client := by
  cases signal with
  | nodePageReady g page n => simp_all [receive, Signal.nodePage?]
  | nodeExportReady g n nodes =>
    rw [receive]
    split_ifs
    · exact client_exportEnds error
    · rfl
  | exportWritten n rows path failure =>
    by_cases hn : n = w.exportRequestId <;> cases failure <;>
      simp [receive, World.exportWritten, hn, setExportStatus, client]

theorem client_deliver (h : w.Dated) (error : Option String) :
    (w.deliver number error).client =
      w.client.run (pages compareText sorting) (w.steps (.deliver error)) := by
  cases hsignals : w.signals with
  | nil => simp [deliver, steps, hsignals, Client.run]
  | cons signal signals =>
    have hother : signal.nodePage? w.generation = none →
        (w.deliver number error).client =
          w.client.run (pages compareText sorting) (w.steps (.deliver error)) := fun hnone => by
      simp only [deliver, steps, hsignals, Client.run, List.head?_cons, Option.bind_some, hnone,
        Option.isSome_none, Bool.false_eq_true, if_false, List.foldl_nil]
      refine (client_receive_other (w := { w with signals }) number hnone error).trans ?_
      simp [client, hsignals, hnone]
    cases signal with
    | nodePageReady g page n =>
      by_cases hg : g = w.generation
      · subst hg
        have hengine : w.engine = true := by
          by_contra hoff
          have hpast := (h.signals (.nodePageReady w.generation page n) (by simp [hsignals])
            w.generation rfl).2 (by simpa using hoff)
          exact absurd hpast (lt_irrefl _)
        simp only [deliver, steps, hsignals, Client.run, List.head?_cons, Option.bind_some,
          Signal.nodePage?, if_true, Option.isSome_some, List.foldl_cons, List.foldl_nil,
          Client.apply, receive, h.running, hengine, and_self]
        exact client_applyNodePage compareText sorting hsignals
      · exact hother (if_neg hg)
    | nodeExportReady g n nodes => exact hother rfl
    | exportWritten n rows path error => exact hother rfl

/-- Signals from before are not from the next engine. -/
theorem filterMap_nodePage_of_lt {signals : List Signal} {generation : ℕ}
    (h : ∀ signal ∈ signals, ∀ g ∈ signal.generation?, g < generation) :
    signals.filterMap (Signal.nodePage? generation) = [] := by
  refine List.filterMap_eq_nil_iff.2 fun signal hmem => ?_
  cases signal with
  | nodePageReady g page n => exact if_neg (h _ hmem g rfl).ne
  | nodeExportReady g n nodes => rfl
  | exportWritten n rows path error => rfl

theorem client_startEngine (h : w.Dated) (outcome : StartOutcome) :
    (w.startEngine outcome).client =
      w.client.run (pages compareText sorting) (w.steps (.startEngine outcome)) := by
  cases hengine : w.engine with
  | true => cases outcome <;> simp [startEngine, hengine, steps, Client.run, Client.apply, client]
  | false =>
    have hlt : ∀ n, w.signals.filterMap (Signal.nodePage? (w.generation + n)) = [] := fun n =>
      filterMap_nodePage_of_lt fun signal hs g hg =>
        ((h.signals signal hs g hg).2 hengine).trans_le (Nat.le_add_right _ n)
    have hnow := hlt 0
    rw [add_zero] at hnow
    cases outcome <;>
      simp [startEngine, hengine, steps, Client.run, Client.apply, client, hlt, hnow]

theorem client_stopEngine (h : w.Dated) (views : ℕ → EngineView) :
    (w.stopEngine compareText sorting views).client =
      w.client.run (pages compareText sorting) (w.steps (.stopEngine views)) := by
  cases hengine : w.engine with
  | false =>
    have hnow : w.signals.filterMap (Signal.nodePage? w.generation) = [] :=
      filterMap_nodePage_of_lt fun signal hs g hg => (h.signals signal hs g hg).2 hengine
    simp [stopEngine, destroyEngine, resetNodeList, hengine, steps, Client.run, Client.apply,
      Client.stop, client, h.calls hengine, hnow]
  | true =>
    have hpast : ∀ signal ∈ w.signals ++ w.calls.mapIdx (fun i call =>
        answer compareText sorting w.generation (views i) call), ∀ g ∈ signal.generation?,
        g < w.generation + 1 := by
      intro signal hs g hg
      rcases List.mem_append.1 hs with hs | hs
      · exact Nat.lt_succ_of_le (h.signals signal hs g hg).1
      · obtain ⟨i, hi, rfl⟩ := List.mem_mapIdx.1 hs
        rw [generation_answer, Option.mem_some_iff] at hg
        omega
    have hnone := filterMap_nodePage_of_lt hpast
    simp only [stopEngine, destroyEngine, hengine, Bool.not_true, Bool.false_eq_true, if_false,
      resetNodeList, client, hnone, steps, Client.run, List.foldl_cons, List.foldl_nil,
      Client.apply, Client.stop, List.filterMap_nil]

/-- Every event is, as far as the list goes, one of the client or none. -/
theorem client_apply (h : w.Dated) (e : Event) :
    (w.apply compareText sorting number e).client =
      w.client.run (pages compareText sorting) (w.steps e) := by
  cases e with
  | setNodeQuery query =>
    cases query with
    | error error => rfl
    | ok query => exact client_refreshNodeList
  | showNodePage offset => exact client_refreshNodeList
  | refreshNodeList => exact client_refreshNodeList
  | exportNodes path =>
    by_cases hbusy : !w.engine || w.exportStatus.busy <;>
      simp [apply, exportNodes, hbusy, setExportStatus, steps, Client.run, client, Call.nodeQuery?]
  | exportSummary path error => cases error <;> rfl
  | startEngine outcome => exact client_startEngine compareText sorting h outcome
  | stopEngine views => exact client_stopEngine compareText sorting h views
  | engine view => exact client_runEngine compareText sorting view
  | deliver error => exact client_deliver compareText sorting number h error
  | exportEnds error => exact client_exportEnds error

/-! ## Runs -/

/-- What a run does to the list. -/
def trace (w : World) : List Event → List (SingleFlight.Event NodeQuery EngineView)
  | [] => []
  | e :: events => w.steps e ++ trace (w.apply compareText sorting number e) events

theorem client_run (h : w.Dated) (events : List Event) :
    (w.run compareText sorting number events).client =
      w.client.run (pages compareText sorting) (w.trace compareText sorting number events) := by
  induction events generalizing w with
  | nil => rfl
  | cons e events ih =>
    rw [run, List.foldl_cons, ← run, ih (h.apply compareText sorting number e),
      client_apply compareText sorting number h, trace, Client.run, Client.run, Client.run,
      List.foldl_append]

theorem run_append_cons (before after : List Event) (e : Event) :
    run compareText sorting number {} (before ++ e :: after) = run compareText sorting number
      (apply compareText sorting number (run compareText sorting number {} before) e) after := by
  rw [run, List.foldl_append, List.foldl_cons]
  rfl

theorem hold_notMem_steps {e : Event} (he : e.isRequest = false) (q : NodeQuery) :
    .hold q ∉ w.steps e := by
  cases e with
  | setNodeQuery query => cases query <;> simp_all [steps, Event.isRequest]
  | startEngine outcome => cases outcome <;> simp [steps]
  | engine view => rw [steps]; split_ifs <;> simp
  | deliver error => rw [steps]; split_ifs <;> simp
  | showNodePage _ | refreshNodeList => simp [Event.isRequest] at he
  | exportNodes _ | exportSummary _ _ | stopEngine _ | exportEnds _ => simp [steps]

theorem answer_mem_steps {e : Event} {view : EngineView} (h : .answer view ∈ w.steps e) :
    e = .engine view := by
  cases e with
  | setNodeQuery query => cases query <;> simp [steps] at h
  | startEngine outcome => cases outcome <;> simp [steps] at h
  | engine view' =>
    rw [steps] at h
    split_ifs at h
    · simp_all
    · simp at h
  | deliver error => rw [steps] at h; split_ifs at h <;> simp at h
  | showNodePage _ | refreshNodeList | exportNodes _ | exportSummary _ _ | stopEngine _
  | exportEnds _ => simp [steps] at h

theorem steps_of_isRequest {e : Event} (he : e.isRequest = true) :
    ∃ q, w.steps e = [.hold q] := by
  cases e with
  | setNodeQuery query =>
    cases query with
    | error error => simp [Event.isRequest] at he
    | ok query => exact ⟨query, rfl⟩
  | showNodePage offset => exact ⟨_, rfl⟩
  | refreshNodeList => exact ⟨_, rfl⟩
  | _ => simp [Event.isRequest] at he

theorem hold_notMem_trace {events : List Event} (h : ∀ e ∈ events, e.isRequest = false)
    (q : NodeQuery) : .hold q ∉ w.trace compareText sorting number events := by
  induction events generalizing w with
  | nil => simp [trace]
  | cons e events ih =>
    rw [List.forall_mem_cons] at h
    rw [trace, List.mem_append, not_or]
    exact ⟨hold_notMem_steps h.1 q, ih h.2⟩

theorem answer_mem_trace {events : List Event} {view : EngineView}
    (h : .answer view ∈ w.trace compareText sorting number events) : .engine view ∈ events := by
  induction events generalizing w with
  | nil => simp [trace] at h
  | cons e events ih =>
    rcases List.mem_append.1 h with h | h
    · exact List.mem_cons.2 (.inl (answer_mem_steps h).symm)
    · exact List.mem_cons_of_mem _ (ih h)

theorem out_run (events : List Event) :
    Out (run compareText sorting number {} events).client := by
  rw [client_run compareText sorting number dated_init]
  exact Out.run (.idle rfl rfl rfl rfl fun _ => rfl) _

/-- One query or page is on its way while one is in flight, and none else: neither from an
    engine that was stopped, nor with a number other than that of the latest. -/
theorem one_in_flight (events : List Event) :
    ((run compareText sorting number {} events).calls.filterMap Call.nodeQuery?).length +
        ((run compareText sorting number {} events).signals.filterMap
          (Signal.nodePage? (run compareText sorting number {} events).generation)).length =
      (if (run compareText sorting number {} events).nodeQueryInFlight then 1 else 0) ∧
    ∀ page n, .nodePageReady (run compareText sorting number {} events).generation page n ∈
        (run compareText sorting number {} events).signals →
      n = (run compareText sorting number {} events).nodeRequestId := by
  have hout := out_run compareText sorting number events
  generalize run compareText sorting number {} events = w at hout
  exact ⟨hout.length, fun page n hmem =>
    hout.requestId (a := page) (List.mem_filterMap.2 ⟨_, hmem, if_pos rfl⟩)⟩

/-! ## At rest -/

/-- What is shown is the engine's answer to the query held, and its page the one held. -/
def Shows (w : World) (view : EngineView) : Prop :=
  let page :=
    queryNodes view.labels view.catalog w.nodeQuery compareText sorting view.nowMs view.suspicion
  w.nodeList = page.rows ∧ w.nodeListInfo.matchedNodes = page.matchedNodes ∧
    w.nodeListInfo.matchedAddresses = page.matchedAddresses ∧
    w.nodeListInfo.offset = page.offset ∧ w.nodeListInfo.limit = w.nodeQuery.limit

theorem adopts_pages : (pages compareText sorting).Adopts := fun view _ =>
  queryNodes_adopted compareText sorting view.nowMs

/-- At rest, the list shows what the engine answers to the query held, and has answered since
    it was last asked for. -/
theorem shown_at_rest (before after : List Event) (request : Event)
    (hrequest : request.isRequest = true) (hafter : ∀ e ∈ after, e.isRequest = false)
    (hrest : (run compareText sorting number {} (before ++ request :: after)).nodeQueryInFlight =
      false)
    (hloaded :
      (run compareText sorting number {} (before ++ request :: after)).nodeListInfo.loaded = true) :
    ∃ view, .engine view ∈ after ∧
      (run compareText sorting number {} (before ++ request :: after)).Shows compareText sorting
        view := by
  have hdated := dated_init.run compareText sorting number before
  have hout := out_run compareText sorting number before
  rw [run_append_cons] at hrest hloaded ⊢
  generalize run compareText sorting number {} before = w at *
  obtain ⟨q, hsteps⟩ := steps_of_isRequest (w := w) hrequest
  have hclient := client_run compareText sorting number
    (hdated.apply compareText sorting number request) after
  rw [client_apply compareText sorting number hdated, hsteps] at hclient
  have hnone := hold_notMem_trace (w := w.apply compareText sorting number request) compareText
    sorting number hafter
  generalize run compareText sorting number (apply compareText sorting number w request) after =
    w' at *
  obtain ⟨view, hview, hshown⟩ := SingleFlight.shown_of_run (adopts_pages compareText sorting)
    hout q hnone (congrArg Client.inFlight hclient.symm |>.trans hrest)
    ((congrArg Client.shown hclient.symm).trans (if_pos hloaded))
  refine ⟨view, answer_mem_trace compareText sorting number hview, ?_⟩
  rw [show (w.client.hold q).run (pages compareText sorting) _ = w'.client from hclient.symm,
    Shown.mk.injEq] at hshown
  exact hshown

/-- An engine that has learnt of two nodes. -/
def twoNodes : EngineView where
  catalog := ([1, 2].foldlM (fun (c : NodeCatalog) (port : UInt16) =>
    c.apply (fun key => key.port.toNat) (.upsert id ⟨.ipv4 (HostAddress.dotted 8 8 8 8), port⟩ 0))
    (NodeCatalog.new 10 0)).getD (NodeCatalog.new 10 0)
  labels _ := ⟨"", "", ""⟩
  nowMs := 0
  suspicion := none

/-- Both threads take a turn, twice. -/
def twoTurns : List Event := [.engine twoNodes, .deliver none, .engine twoNodes, .deliver none]

/-- The second of two pages is shown, and refreshed while it is on its way. -/
theorem shown_at_rest_second : ∃ view,
    let w := run compare (Sorting.insertionSort ℕ) toString {}
      ([.startEngine .Started, .setNodeQuery (.ok { limit := 1 }), .engine twoNodes, .deliver none,
        .showNodePage 1] ++ .refreshNodeList :: twoTurns)
    .engine view ∈ twoTurns ∧ w.Shows compare (Sorting.insertionSort ℕ) view ∧
      w.nodeList.map (·.endpoint.port) = [2] ∧ w.nodeListInfo.matchedNodes = 2 := by
  obtain ⟨view, hview, hshows⟩ := shown_at_rest compare (Sorting.insertionSort ℕ) toString
    [.startEngine .Started, .setNodeQuery (.ok { limit := 1 }), .engine twoNodes, .deliver none,
      .showNodePage 1] twoTurns .refreshNodeList rfl (by decide) (by decide +kernel)
    (by decide +kernel)
  exact ⟨view, hview, hshows, by decide +kernel, by decide +kernel⟩

/-! ## Coming to rest -/

/-- What is ahead of the query or the page that is on its way. -/
def ahead (w : World) : ℕ :=
  if w.client.asked = [] then w.signals.findIdx fun s => (s.nodePage? w.generation).isSome
  else w.calls.findIdx fun c => c.nodeQuery?.isSome

/-- What is left to do: asking again, asking, and what is ahead. -/
def rank (w : World) : ℕ ×ₗ ℕ ×ₗ ℕ :=
  toLex (if w.nodeQueryAgain then 1 else 0, toLex (w.client.asked.length, w.ahead))

theorem findIdx_append_of_mem {α : Type*} {p : α → Bool} {l : List α} (l' : List α)
    (h : ∃ x ∈ l, p x = true) : (l ++ l').findIdx p = l.findIdx p := by
  rw [List.findIdx_append, if_pos (List.findIdx_lt_length.2 h)]

theorem rank_lt_of_ahead {w' : World} (hclient : w'.client = w.client)
    (h : w'.ahead < w.ahead) : w'.rank < w.rank := by
  have hagain : w'.nodeQueryAgain = w.nodeQueryAgain := congrArg Client.again hclient
  rw [rank, rank, hclient, hagain]
  exact Prod.Lex.toLex_lt_toLex.2 (.inr ⟨rfl, Prod.Lex.toLex_lt_toLex.2 (.inr ⟨rfl, h⟩)⟩)

theorem rank_le_of_ahead {w' : World} (hclient : w'.client = w.client)
    (h : w'.ahead ≤ w.ahead) : w'.rank ≤ w.rank := by
  rcases h.lt_or_eq with h | h
  · exact (rank_lt_of_ahead hclient h).le
  · have hagain : w'.nodeQueryAgain = w.nodeQueryAgain := congrArg Client.again hclient
    rw [rank, rank, hclient, hagain, h]

/-- What is in flight is with the engine, or on its way back. -/
theorem exists_ahead (hout : Out w.client) (hflight : w.nodeQueryInFlight = true) :
    if w.client.asked = [] then ∃ s ∈ w.signals, (s.nodePage? w.generation).isSome = true
    else ∃ c ∈ w.calls, c.nodeQuery?.isSome = true := by
  cases hout with
  | idle hidle => exact absurd (hidle.symm.trans hflight) (by decide)
  | asked q _ _ hasked hanswered =>
    rw [hasked, if_neg (List.cons_ne_nil _ _)]
    obtain ⟨c, hc, heq⟩ := List.mem_filterMap.1 (hasked ▸ List.mem_singleton_self _)
    exact ⟨c, hc, by rw [heq]; rfl⟩
  | answered a _ _ hasked hanswered =>
    rw [hasked, if_pos rfl]
    obtain ⟨s, hs, heq⟩ := List.mem_filterMap.1 (hanswered ▸ List.mem_singleton_self _)
    exact ⟨s, hs, by rw [heq]; rfl⟩

/-- What is posted behind does not matter. -/
theorem ahead_append (hout : Out w.client) (hflight : w.nodeQueryInFlight = true) {w' : World}
    (hclient : w'.client = w.client) (hgeneration : w'.generation = w.generation)
    (calls : List Call) (signals : List Signal) (hcalls : w'.calls = w.calls ++ calls)
    (hsignals : w'.signals = w.signals ++ signals) : w'.ahead = w.ahead := by
  have hexists := exists_ahead hout hflight
  rw [ahead, ahead, hclient, hcalls, hsignals, hgeneration]
  split_ifs at hexists ⊢ with hasked
  · exact findIdx_append_of_mem signals hexists
  · exact findIdx_append_of_mem calls hexists

/-- The engine takes a call: if the query is with it, less is left to do. -/
theorem rank_runEngine (hout : Out w.client) (hflight : w.nodeQueryInFlight = true)
    (view : EngineView) : (w.runEngine compareText sorting view).rank ≤ w.rank ∧
      (w.client.asked ≠ [] → (w.runEngine compareText sorting view).rank < w.rank) := by
  have hexists := exists_ahead hout hflight
  have hclient := client_runEngine compareText sorting (w := w) view
  cases hcalls : w.calls with
  | nil => simp [runEngine, hcalls, client]
  | cons call calls =>
    cases call with
    | queryNodes query n =>
      have hlt : (w.runEngine compareText sorting view).rank < w.rank := by
        refine Prod.Lex.toLex_lt_toLex.2 (.inr ⟨by simp [runEngine, hcalls], ?_⟩)
        exact Prod.Lex.toLex_lt_toLex.2
          (.inl (by simp [runEngine, hcalls, client, Call.nodeQuery?, List.filterMap_cons]))
      exact ⟨hlt.le, fun _ => hlt⟩
    | exportNodes query n =>
      simp only [steps, hcalls, List.head?_cons, Option.bind_some, Call.nodeQuery?,
        Option.isSome_none, Bool.false_eq_true, if_false, Client.run, List.foldl_nil] at hclient
      by_cases hasked : w.client.asked = []
      · rw [if_pos hasked] at hexists
        refine ⟨rank_le_of_ahead hclient (le_of_eq ?_), fun hne => absurd hasked hne⟩
        rw [ahead, ahead, hclient, if_pos hasked, if_pos hasked]
        simp only [runEngine, hcalls]
        exact findIdx_append_of_mem _ hexists
      · have hlt : (w.runEngine compareText sorting view).rank < w.rank := by
          refine rank_lt_of_ahead hclient ?_
          rw [ahead, ahead, hclient, if_neg hasked, if_neg hasked]
          simp [runEngine, hcalls, List.findIdx_cons, Call.nodeQuery?]
        exact ⟨hlt.le, fun _ => hlt⟩

/-- A signal that is no page only has the end of an export posted. -/
theorem receive_other {signal : Signal} (h : signal.nodePage? w.generation = none)
    (error : Option String) : (w.receive number error signal).calls = w.calls ∧
      (w.receive number error signal).generation = w.generation ∧
      ∃ posted, (w.receive number error signal).signals = w.signals ++ posted := by
  cases signal with
  | nodePageReady g page n => simp_all [receive, Signal.nodePage?]
  | nodeExportReady g n nodes =>
    rw [receive]
    split_ifs
    · cases hwriting : w.writing <;> simp [writeExport, exportEnds, setExportStatus, hwriting]
    · exact ⟨rfl, rfl, [], (List.append_nil _).symm⟩
  | exportWritten n rows path failure =>
    by_cases hn : n = w.exportRequestId <;> cases failure <;>
      simp [receive, World.exportWritten, hn, setExportStatus]

include compareText sorting in
/-- The controller takes a signal: if the page is on its way, less is left to do. -/
theorem rank_deliver (h : w.Dated) (hout : Out w.client) (hflight : w.nodeQueryInFlight = true)
    (error : Option String) (hbusy : (w.deliver number error).nodeQueryInFlight = true) :
    (w.deliver number error).rank ≤ w.rank ∧
      (w.client.asked = [] → (w.deliver number error).rank < w.rank) := by
  have hexists := exists_ahead hout hflight
  have hclient := client_deliver compareText sorting number h error
  cases hsignals : w.signals with
  | nil =>
    rw [deliver, hsignals]
    refine ⟨le_rfl, fun hasked => ?_⟩
    simp [hasked, hsignals] at hexists
  | cons signal signals =>
    cases hpage : signal.nodePage? w.generation with
    | some page =>
      simp only [steps, hsignals, List.head?_cons, Option.bind_some, hpage, Option.isSome_some,
        if_true, Client.run, List.foldl_cons, List.foldl_nil, Client.apply] at hclient
      have hanswered : w.client.answered ≠ [] := by simp [client, hsignals, hpage]
      cases hout with
      | idle _ _ _ hnone => exact absurd hnone hanswered
      | asked _ _ _ _ hnone => exact absurd hnone hanswered
      | answered a _ hon hasked hone =>
        rw [receive_answered hone hon] at hclient
        -- The page was the last, if it is not asked for again.
        have hagain : w.client.again = true := by
          by_contra hlast
          rw [if_neg hlast] at hclient
          exact Bool.false_ne_true ((congrArg Client.inFlight hclient).symm.trans hbusy)
        rw [if_pos hagain] at hclient
        have hagain' : (w.deliver number error).nodeQueryAgain = false :=
          congrArg Client.again hclient
        have hlt : (w.deliver number error).rank < w.rank :=
          Prod.Lex.toLex_lt_toLex.2
            (.inl (by simp [show w.nodeQueryAgain = true from hagain, hagain']))
        exact ⟨hlt.le, fun _ => hlt⟩
    | none =>
      simp only [steps, hsignals, List.head?_cons, Option.bind_some, hpage, Option.isSome_none,
        Bool.false_eq_true, if_false, Client.run, List.foldl_nil] at hclient
      obtain ⟨hcalls, hgeneration, posted, hposted⟩ :=
        receive_other number (w := { w with signals }) hpage error
      have hdeliver : w.deliver number error = receive number { w with signals } error signal := by
        rw [deliver, hsignals]
      by_cases hasked : w.client.asked = []
      · have hlt : (w.deliver number error).rank < w.rank := by
          refine rank_lt_of_ahead hclient ?_
          rw [if_pos hasked, hsignals] at hexists
          rw [ahead, ahead, hclient, if_pos hasked, if_pos hasked, hdeliver, hposted, hgeneration,
            hsignals, findIdx_append_of_mem posted (by simpa [hpage] using hexists),
            List.findIdx_cons, hpage]
          exact Nat.lt_succ_self _
        exact ⟨hlt.le, fun _ => hlt⟩
      · refine ⟨rank_le_of_ahead hclient (le_of_eq ?_), fun heq => absurd heq hasked⟩
        rw [ahead, ahead, hclient, if_neg hasked, if_neg hasked, hdeliver, hcalls]

/-- Nothing but a request leaves more to do. -/
theorem rank_apply (h : w.Dated) (hout : Out w.client) (hflight : w.nodeQueryInFlight = true)
    {e : Event} (he : e.isRequest = false)
    (hbusy : (w.apply compareText sorting number e).nodeQueryInFlight = true) :
    (w.apply compareText sorting number e).rank ≤ w.rank := by
  have hon : w.engine = true := hout.on hflight
  cases e with
  | setNodeQuery query =>
    cases query with
    | error error => exact le_rfl
    | ok query => simp [Event.isRequest] at he
  | exportNodes path =>
    cases hexport : w.exportStatus.busy with
    | true => simp [apply, exportNodes, hexport]
    | false =>
      have hclient := client_apply compareText sorting number h (.exportNodes path)
      refine rank_le_of_ahead hclient (ahead_append hout hflight hclient ?_
        [.exportNodes w.nodeQuery (w.exportRequestId + 1)] [] ?_ ?_).le <;>
        simp [apply, exportNodes, setExportStatus, hexport, hon]
  | exportSummary path error => cases error <;> exact le_rfl
  | startEngine outcome => simp [apply, startEngine, hon]
  | stopEngine views => simp [apply, stopEngine, resetNodeList] at hbusy
  | engine view => exact (rank_runEngine compareText sorting hout hflight view).1
  | deliver error => exact (rank_deliver compareText sorting number h hout hflight error hbusy).1
  | exportEnds error =>
    have hclient : (w.exportEnds error).client = w.client := client_exportEnds error
    cases hwriting : w.writing with
    | none => simp [apply, exportEnds, hwriting]
    | some e =>
      refine rank_le_of_ahead hclient (ahead_append hout hflight hclient ?_ []
        [.exportWritten e.requestId e.nodes.entries.length e.path error] ?_ ?_).le <;>
        simp [exportEnds, hwriting]
  | showNodePage _ | refreshNodeList => simp [Event.isRequest] at he

/-- Unless it is asked for again and again, the list comes to rest, if the engine goes on to
    take calls and the controller to take signals, and stays at rest. -/
theorem comes_to_rest (before : List Event) (events : ℕ → Event)
    (hquiet : ∀ n, (events n).isRequest = false)
    (hengine : ∀ n, ∃ m ≥ n, ∃ view, events m = .engine view)
    (hdeliver : ∀ n, ∃ m ≥ n, ∃ error, events m = .deliver error) :
    ∃ n, ∀ m ≥ n, (Progress.states (apply compareText sorting number)
      (run compareText sorting number {} before) events m).nodeQueryInFlight = false := by
  generalize hstates : Progress.states (apply compareText sorting number)
    (run compareText sorting number {} before) events = states
  have hsucc : ∀ n, states (n + 1) = (states n).apply compareText sorting number (events n) :=
    fun n => by rw [← hstates]; rfl
  have hreach : ∀ n, (states n).Dated ∧ Out (states n).client := by
    rw [← hstates]
    refine Progress.states_induction (p := fun w : World => w.Dated ∧ Out w.client)
      ⟨dated_init.run compareText sorting number before,
        out_run compareText sorting number before⟩
      fun n w hw => ⟨hw.1.apply compareText sorting number _, ?_⟩
    rw [client_apply compareText sorting number hw.1]
    exact hw.2.run _
  have hstep : ∀ n, (states n).nodeQueryInFlight = true →
      (states (n + 1)).nodeQueryInFlight = true →
      (states (n + 1)).rank < (states n).rank ∨ (states (n + 1)).rank ≤ (states n).rank ∧
        (states (n + 1)).rank = (states n).rank := fun n hbusy hbusy' => by
    rw [hsucc] at hbusy' ⊢
    have hle := rank_apply compareText sorting number (hreach n).1 (hreach n).2 hbusy (hquiet n)
      hbusy'
    exact hle.lt_or_eq.imp_right fun heq => ⟨heq.le, heq⟩
  have hfair : ∀ n, ¬∀ m ≥ n, (states m).nodeQueryInFlight = true ∧
      (states (m + 1)).rank = (states m).rank := fun n hwaits => by
    have hrank : ∀ m ≥ n, (states m).rank = (states n).rank := fun m hm => by
      induction m, hm using Nat.le_induction with
      | base => rfl
      | succ m hm ih => exact (hwaits m hm).2.trans ih
    have hasked : ∀ m ≥ n, (states m).client.asked.length = (states n).client.asked.length :=
      fun m hm => congrArg (fun r => (ofLex (ofLex r).2).1) (hrank m hm)
    -- Whoever has the query, or the page, takes what is posted to it at some point.
    cases hn : (states n).client.asked with
    | nil =>
      obtain ⟨m, hm, error, hevent⟩ := hdeliver n
      have hsame := (hwaits m hm).2
      have hbusy := (hwaits (m + 1) (hm.trans (Nat.le_succ m))).1
      rw [hsucc, hevent] at hsame hbusy
      have hnil : (states m).client.asked = [] := by
        rw [← List.length_eq_zero_iff, hasked m hm, hn, List.length_nil]
      exact absurd hsame ((rank_deliver compareText sorting number (hreach m).1 (hreach m).2
        (hwaits m hm).1 error hbusy).2 hnil).ne
    | cons q l =>
      obtain ⟨m, hm, view, hevent⟩ := hengine n
      have hsame := (hwaits m hm).2
      rw [hsucc, hevent] at hsame
      have hcons : (states m).client.asked ≠ [] := by
        rw [← List.length_pos_iff, hasked m hm, hn]
        exact Nat.succ_pos _
      exact absurd hsame ((rank_runEngine compareText sorting (hreach m).2 (hwaits m hm).1
        view).2 hcons).ne
  obtain ⟨n, -, hrest⟩ := Progress.exists_done states (fun w => w.nodeQueryInFlight = true)
    (fun w w' => w'.rank = w.rank) rank hstep hfair 0
  refine ⟨n, fun m hm => ?_⟩
  induction m, hm using Nat.le_induction with
  | base => simpa using hrest
  | succ m hm ih =>
    have hclient := client_apply compareText sorting number (hreach m).1 (events m)
    rw [← hsucc] at hclient
    rw [show (states (m + 1)).nodeQueryInFlight = _ from congrArg Client.inFlight hclient]
    exact (hreach m).2.rest ih fun q => hold_notMem_steps (hquiet m) q

/-- Both threads take their turns, while a page is on its way that is to be refreshed. -/
theorem comes_to_rest_turns : ∃ n, ∀ m ≥ n,
    (Progress.states (apply compare (Sorting.insertionSort ℕ) toString)
      (run compare (Sorting.insertionSort ℕ) toString {} [.startEngine .Started,
        .setNodeQuery (.ok { limit := 1 }), .refreshNodeList, .showNodePage 1])
      (fun n => if n % 2 = 0 then .engine twoNodes else .deliver none) m).nodeQueryInFlight =
        false := by
  refine comes_to_rest compare (Sorting.insertionSort ℕ) toString _ _ (fun n => ?_) (fun n => ?_)
    fun n => ?_
  · split_ifs <;> rfl
  · exact ⟨2 * n, by omega, twoNodes, if_pos (by omega)⟩
  · exact ⟨2 * n + 1, by omega, none, if_neg (by omega)⟩

/-! ## What is lost -/

/-- While a query is in flight, the list was asked for again. -/
structure Waiting (w : World) : Prop where
  inFlight : w.nodeQueryInFlight = true
  again : w.nodeQueryAgain = true

/-- The world, with another page asked for. -/
def withOffset (w : World) (offset : ℤ) : World := { w with nodeQuery.offset := offset }

theorem Waiting.exportEnds (h : w.Waiting) (offset : ℤ) (error : Option String) :
    (w.exportEnds error).Waiting ∧
      (w.withOffset offset).exportEnds error = (w.exportEnds error).withOffset offset := by
  cases hwriting : w.writing with
  | none => simpa [World.exportEnds, withOffset, hwriting] using h
  | some e => simpa [World.exportEnds, withOffset, hwriting] using ⟨h.inFlight, h.again⟩

theorem Waiting.runEngine (h : w.Waiting) (offset : ℤ) (view : EngineView) :
    (w.runEngine compareText sorting view).Waiting ∧
      (w.withOffset offset).runEngine compareText sorting view =
        (w.runEngine compareText sorting view).withOffset offset := by
  cases hcalls : w.calls with
  | nil => simpa [World.runEngine, withOffset, hcalls] using h
  | cons call calls => simpa [World.runEngine, withOffset, hcalls] using ⟨h.inFlight, h.again⟩

/-- With the page that comes, its offset does. -/
theorem Waiting.deliver (h : w.Waiting) (hdated : w.Dated) (hout : Out w.client) (offset : ℤ)
    (error : Option String) :
    ((w.deliver number error).Waiting ∧ (w.withOffset offset).deliver number error =
      (w.deliver number error).withOffset offset) ∨
    (w.withOffset offset).deliver number error = w.deliver number error := by
  cases hsignals : w.signals with
  | nil => simpa [World.deliver, withOffset, hsignals] using .inl h
  | cons signal signals =>
    have hrest : World.Waiting { w with signals } := ⟨h.inFlight, h.again⟩
    simp only [World.deliver, withOffset, hsignals]
    cases signal with
    | nodePageReady g page n =>
      simp only [receive]
      split_ifs with hg
      · right
        have hn : n = w.nodeRequestId :=
          hout.requestId (a := page) (by simp [client, hsignals, Signal.nodePage?, hg.1])
        simp [applyNodePage, hn, h.again, ← hdated.running, hg.2, sendNodeQuery]
      · exact .inl ⟨hrest, rfl⟩
    | nodeExportReady g n nodes =>
      simp only [receive]
      split_ifs with hg
      · obtain ⟨hends, heq⟩ := hrest.exportEnds offset error
        simp only [withOffset] at heq
        simp only [writeExport, heq]
        exact .inl ⟨⟨hends.inFlight, hends.again⟩, rfl⟩
      · exact .inl ⟨hrest, rfl⟩
    | exportWritten n rows path failure =>
      left
      by_cases hn : n = w.exportRequestId <;> cases failure <;>
        simpa [receive, World.exportWritten, hn, setExportStatus] using ⟨h.inFlight, h.again⟩

theorem Waiting.run (h : w.Waiting) (hdated : w.Dated) (hout : Out w.client) (offset : ℤ)
    {events : List Event} (hevents : ∀ e ∈ events, e.isTurn = true) :
    ((w.run compareText sorting number events).Waiting ∧
      (w.withOffset offset).run compareText sorting number events =
        (w.run compareText sorting number events).withOffset offset) ∨
    (w.withOffset offset).run compareText sorting number events =
      w.run compareText sorting number events := by
  induction events generalizing w with
  | nil => exact .inl ⟨h, rfl⟩
  | cons e events ih =>
    rw [List.forall_mem_cons] at hevents
    have hdated' := hdated.apply compareText sorting number e
    have hout' : Out (w.apply compareText sorting number e).client := by
      rw [client_apply compareText sorting number hdated]
      exact hout.run _
    rw [World.run, World.run, List.foldl_cons, List.foldl_cons, ← World.run, ← World.run]
    cases e with
    | engine view =>
      obtain ⟨hwaiting, heq⟩ := h.runEngine compareText sorting offset view
      rw [apply, apply, heq]
      exact ih hwaiting hdated' hout' hevents.2
    | deliver error =>
      rcases h.deliver number hdated hout offset error with ⟨hwaiting, heq⟩ | heq
      · rw [apply, apply, heq]
        exact ih hwaiting hdated' hout' hevents.2
      · rw [apply, apply, heq]
        exact .inr rfl
    | exportEnds error =>
      obtain ⟨hwaiting, heq⟩ := h.exportEnds offset error
      rw [apply, apply, heq]
      exact ih hwaiting hdated' hout' hevents.2
    | _ => simp [Event.isTurn] at hevents

theorem run_withOffset (h : w.Waiting) (hdated : w.Dated) (hout : Out w.client) (offset : ℤ)
    {events : List Event} (hevents : ∀ e ∈ events, e.isTurn = true)
    (hrest : (w.run compareText sorting number events).nodeQueryInFlight = false) :
    (w.withOffset offset).run compareText sorting number events =
      w.run compareText sorting number events := by
  rcases h.run compareText sorting number hdated hout offset hevents with ⟨hstill, -⟩ | heq
  · simp [hstill.inFlight] at hrest
  · exact heq

/-- While a query is in flight, it makes no difference which page is asked for: the list comes
    to rest as if it had only been refreshed, or as with the other page. -/
theorem page_lost (before after : List Event) (offset : ℤ) (query : NodeQuery)
    (hflight : (run compareText sorting number {} before).nodeQueryInFlight = true)
    (hafter : ∀ e ∈ after, e.isTurn = true)
    (hrest : (run compareText sorting number {}
      (before ++ .refreshNodeList :: after)).nodeQueryInFlight = false)
    (hquery : (run compareText sorting number {}
      (before ++ .setNodeQuery (.ok query) :: after)).nodeQueryInFlight = false) :
    run compareText sorting number {} (before ++ .showNodePage offset :: after) =
        run compareText sorting number {} (before ++ .refreshNodeList :: after) ∧
      run compareText sorting number {}
          (before ++ .setNodeQuery (.ok { query with offset }) :: after) =
        run compareText sorting number {} (before ++ .setNodeQuery (.ok query) :: after) := by
  have hdated := dated_init.run compareText sorting number before
  have hout := out_run compareText sorting number before
  simp only [run_append_cons] at *
  generalize run compareText sorting number {} before = w at *
  have hon : w.engine = true := hout.on hflight
  have hafter' : ∀ e, Out (w.apply compareText sorting number e).client := fun e => by
    rw [client_apply compareText sorting number hdated]
    exact hout.run _
  have hrefresh : w.refreshNodeList = { w with nodeQueryAgain := true } := by
    simp [World.refreshNodeList, hon, hflight]
  have hset : ∀ query, w.setNodeQuery (.ok query) = { w with
      nodeListInfo.error := "", nodeQuery := query, nodeQueryAgain := true } := fun query => by
    simp [setNodeQuery, World.refreshNodeList, hon, hflight]
  constructor
  · have hshow : w.showNodePage offset = w.refreshNodeList.withOffset (max 0 offset) := by
      rw [hrefresh]
      simp [showNodePage, World.refreshNodeList, hon, hflight, withOffset]
    rw [apply, hshow]
    refine run_withOffset compareText sorting number ?_ (hdated.apply _ _ number .refreshNodeList)
      (hafter' .refreshNodeList) _ hafter hrest
    rw [apply, hrefresh]
    exact ⟨hflight, rfl⟩
  · have hother : w.setNodeQuery (.ok { query with offset }) =
        (w.setNodeQuery (.ok query)).withOffset offset := by
      rw [hset, hset]
      rfl
    rw [apply, hother]
    refine run_withOffset compareText sorting number ?_
      (hdated.apply _ _ number (.setNodeQuery (.ok query))) (hafter' (.setNodeQuery (.ok query))) _
      hafter hquery
    rw [apply, hset]
    exact ⟨hflight, rfl⟩

/-- The second of two pages is asked for while the first one is on its way, which is shown. -/
theorem page_lost_second :
    let before : List Event := [.startEngine .Started, .setNodeQuery (.ok { limit := 1 })]
    let w := run compare (Sorting.insertionSort ℕ) toString {}
      (before ++ .showNodePage 1 :: twoTurns)
    w = run compare (Sorting.insertionSort ℕ) toString {} (before ++ .refreshNodeList :: twoTurns) ∧
      w.nodeList.map (·.endpoint.port) = [1] ∧ w.nodeListInfo.matchedNodes = 2 :=
  ⟨(page_lost compare (Sorting.insertionSort ℕ) toString _ _ 1 {} rfl (by decide)
    (by decide +kernel) (by decide +kernel)).1, by decide +kernel, by decide +kernel⟩

end World

end Dht.DhtController
