import DhtCore.DhtController.Basic

/-!
# Exports

An export goes from the controller to its engine, back with what was collected, and on to a
thread that writes it. Each has a number, and is in one place at most (`Exporting.once`). So a
file holds what the engine collected for the query that was held when the file was asked for,
after that (`written_asked`), whatever was stopped, started or asked for in between.

What the engine had collected when it is stopped is ignored, though, and the controller stays
busy: no export is taken on any more, until a summary is exported (`export_stuck`).
-/

namespace Dht.DhtController

variable (compareText : String → String → Ordering) (sorting : Sorting.Algorithm ℕ)
  (number : ℕ → String)

/-- The number of the export that a call is for. -/
def Call.exportId? : Call → Option ℕ
  | .exportNodes _ requestId => some requestId
  | .queryNodes .. => none

/-- What was collected by the engine of a generation. -/
def Signal.exportId? (generation : ℕ) : Signal → Option ℕ
  | .nodeExportReady g requestId _ => if g = generation then some requestId else none
  | .nodePageReady .. | .exportWritten .. => none

namespace World

variable {w : World} {events : List Event}

/-- The numbers of the exports that are with the engine, on their way back, and with threads. -/
def exportIds (w : World) : List ℕ :=
  w.calls.filterMap Call.exportId? ++ (w.signals.filterMap (Signal.exportId? w.generation) ++
    (w.writing.toList ++ w.written).map Export.requestId)

/-- What an export that has ended is known by. -/
def Ended (w : World) : Prop :=
  ∀ n rows path error, .exportWritten n rows path error ∈ w.signals →
    n ∈ w.written.map Export.requestId

/-- Each export is in one place, at most. -/
structure Numbered (w : World) : Prop where
  once : w.exportIds.Nodup
  le : ∀ n ∈ w.exportIds, n ≤ w.exportRequestId
  ended : w.Ended

theorem numbered_init : Numbered {} :=
  ⟨List.nodup_nil, by simp [exportIds], fun _ _ _ _ hmem => absurd hmem List.not_mem_nil⟩

/-- Exports go on their way, or get lost, and none is taken on. -/
structure Carried (w w' : World) : Prop where
  ids : w'.exportIds.Subperm w.exportIds
  number_eq : w'.exportRequestId = w.exportRequestId
  ended : w.Ended → w'.Ended

theorem Carried.refl (w : World) : Carried w w := ⟨List.Subperm.refl _, rfl, id⟩

theorem Carried.trans {w' w'' : World} (h : Carried w w') (h' : Carried w' w'') :
    Carried w w'' :=
  ⟨h'.ids.trans h.ids, h'.number_eq.trans h.number_eq, h'.ended ∘ h.ended⟩

theorem Numbered.carried (h : w.Numbered) {w' : World} (hcarried : Carried w w') :
    w'.Numbered := by
  obtain ⟨⟨ids, hperm, hsub⟩, hnumber, hended⟩ := hcarried
  exact ⟨hperm.nodup_iff.1 (h.once.sublist hsub),
    fun n hn => hnumber ▸ h.le n (hsub.subset (hperm.mem_iff.2 hn)), hended h.ended⟩

/-! ## One step -/

@[simp]
theorem exportEnds_writing (error : Option String) : (w.exportEnds error).writing = none := by
  cases hwriting : w.writing <;> simp [exportEnds, hwriting]

theorem carried_exportEnds (error : Option String) : Carried w (w.exportEnds error) := by
  cases hwriting : w.writing with
  | none =>
    rw [exportEnds, hwriting]
    exact .refl w
  | some e =>
    refine ⟨List.Perm.subperm ?_, by simp [exportEnds, hwriting], fun h n rows path failure => ?_⟩
    · simp only [exportEnds, hwriting, exportIds, List.filterMap_append, List.filterMap_cons,
        Signal.exportId?, List.filterMap_nil, List.append_nil, Option.toList_none,
        Option.toList_some, List.nil_append]
      exact ((List.perm_append_comm.map _).append_left _).append_left _
    · simp only [exportEnds, hwriting, List.mem_append, List.mem_singleton, List.map_append,
        List.map_cons, List.map_nil, Signal.exportWritten.injEq]
      exact Or.imp (h n rows path failure) And.left

theorem carried_sendNodeQuery : Carried w w.sendNodeQuery :=
  ⟨List.Perm.subperm
    (by simp [exportIds, sendNodeQuery, Call.exportId?, List.filterMap_cons]), rfl, id⟩

theorem carried_refreshNodeList : Carried w w.refreshNodeList := by
  rw [refreshNodeList]
  split_ifs
  · exact .refl w
  · exact ⟨List.Subperm.refl _, rfl, id⟩
  · exact carried_sendNodeQuery

theorem carried_of_eq {w' : World} (hcalls : w'.calls = w.calls) (hsignals : w'.signals = w.signals)
    (hgeneration : w'.generation = w.generation) (hwriting : w'.writing = w.writing)
    (hwritten : w'.written = w.written) (hnumber : w'.exportRequestId = w.exportRequestId) :
    Carried w w' := by
  refine ⟨List.Perm.subperm (.of_eq ?_), hnumber, fun h => ?_⟩
  · rw [exportIds, exportIds, hcalls, hsignals, hgeneration, hwriting, hwritten]
  · rw [Ended, hsignals, hwritten]
    exact h

theorem carried_applyNodePage (page : NodeListPage) (n : ℕ) :
    Carried w (w.applyNodePage page n) := by
  simp only [applyNodePage]
  generalize hshown : (if n = w.nodeRequestId then _ else _ : World) = w'
  have hcarried : Carried w w' := by
    rw [← hshown]
    split_ifs <;> exact carried_of_eq rfl rfl rfl rfl rfl rfl
  split_ifs
  · exact hcarried.trans carried_sendNodeQuery
  · exact hcarried

/-- What the engine collects goes on its way. -/
theorem carried_runEngine (view : EngineView) :
    Carried w (w.runEngine compareText sorting view) := by
  cases hcalls : w.calls with
  | nil =>
    rw [runEngine, hcalls]
    exact .refl w
  | cons call calls =>
    rw [runEngine, hcalls]
    refine ⟨List.Perm.subperm ?_, rfl, fun h n rows path error hmem => ?_⟩
    · cases call with
      | queryNodes query n =>
        simp [exportIds, hcalls, answer, Call.exportId?, Signal.exportId?, List.filterMap_cons]
      | exportNodes query n =>
        simp only [exportIds, hcalls, answer, Call.exportId?, Signal.exportId?,
          List.filterMap_append, List.filterMap_cons, List.filterMap_nil, if_true,
          List.append_assoc, List.singleton_append]
        rw [← List.append_assoc, List.cons_append, ← List.append_assoc]
        exact List.perm_middle
    · rcases List.mem_append.1 hmem with hmem | hmem
      · exact h n rows path error hmem
      · cases call <;> simp [answer] at hmem

theorem carried_receive {signal : Signal} {signals : List Signal}
    (hsignals : w.signals = signal :: signals) (error : Option String) :
    Carried w (receive number { w with signals } error signal) := by
  -- Without the signal, what it carried is in no place.
  have hrest : Carried w { w with signals } := by
    refine ⟨List.Sublist.subperm ?_, rfl, fun h n rows path error hmem =>
      h n rows path error (hsignals ▸ List.mem_cons_of_mem _ hmem)⟩
    rw [exportIds, exportIds, hsignals]
    exact ((((List.sublist_cons_self _ _).filterMap _).append_right _).append_left _)
  cases signal with
  | nodePageReady g page n =>
    rw [receive]
    split_ifs
    · exact hrest.trans (carried_applyNodePage page n)
    · exact hrest
  | nodeExportReady g n nodes =>
    rw [receive]
    split_ifs with hg
    · obtain ⟨hg, rfl⟩ := hg
      have hends := carried_exportEnds (w := { w with signals }) error
      have hids : w.exportIds.Perm (w.exportRequestId :: exportIds { w with signals }) := by
        simp only [exportIds, hsignals, List.filterMap_cons, Signal.exportId?, hg, if_true]
        exact List.perm_middle
      refine ⟨?_, hends.number_eq, hends.ended ∘ hrest.ended⟩
      refine List.Subperm.trans ?_ (((List.subperm_cons _).2 hends.ids).trans hids.symm.subperm)
      refine List.Perm.subperm ?_
      simp only [writeExport, setExportStatus, exportIds, exportEnds_writing, Option.toList_some,
        Option.toList_none, List.nil_append, List.singleton_append, List.map_cons, hends.number_eq]
      rw [← List.append_assoc, ← List.append_assoc]
      exact List.perm_middle
    · exact hrest
  | exportWritten n rows path failure =>
    by_cases hn : n = w.exportRequestId <;> cases failure <;>
      simpa [receive, World.exportWritten, hn, setExportStatus] using
        ⟨hrest.ids, hrest.number_eq, hrest.ended⟩

/-- Of an engine that is gone, nothing is taken any more. -/
theorem filterMap_exportId_of_lt {signals : List Signal} {generation : ℕ}
    (h : ∀ signal ∈ signals, ∀ g ∈ signal.generation?, g < generation) :
    signals.filterMap (Signal.exportId? generation) = [] := by
  refine List.filterMap_eq_nil_iff.2 fun signal hmem => ?_
  cases signal with
  | nodeExportReady g n nodes => exact if_neg (h _ hmem g rfl).ne
  | nodePageReady g page n => rfl
  | exportWritten n rows path error => rfl

theorem carried_startEngine (hdated : w.Dated) (outcome : StartOutcome) :
    Carried w (w.startEngine outcome) := by
  cases hengine : w.engine with
  | true =>
    simp only [startEngine, hengine, if_true]
    exact .refl w
  | false =>
    have hnone : ∀ n, w.signals.filterMap (Signal.exportId? (w.generation + n)) = [] := fun n =>
      filterMap_exportId_of_lt fun signal hs g hg =>
        ((hdated.signals signal hs g hg).2 hengine).trans_le (Nat.le_add_right _ n)
    have hids : ∀ n engine running,
        exportIds { w with engine, running, generation := w.generation + n } = w.exportIds :=
      fun n engine running => by
        rw [exportIds, exportIds, show w.signals.filterMap (Signal.exportId? w.generation) = [] from
          hnone 0]
        exact congrArg (fun l => w.calls.filterMap Call.exportId? ++ (l ++ _)) (hnone n)
    simp only [startEngine, hengine, Bool.false_eq_true, if_false]
    cases outcome with
    | Refused => exact .refl w
    | Failed => exact ⟨List.Perm.subperm (.of_eq (hids 2 w.engine w.running)), rfl, id⟩
    | Started => exact ⟨List.Perm.subperm (.of_eq (hids 1 true true)), rfl, id⟩

theorem stopEngine_engine (views : ℕ → EngineView) :
    (w.stopEngine compareText sorting views).engine = false := by
  cases hengine : w.engine <;> simp [stopEngine, destroyEngine, resetNodeList, hengine]

/-- What the engine had is lost. -/
theorem exportIds_stopEngine (hdated : w.Dated) (views : ℕ → EngineView) :
    (w.stopEngine compareText sorting views).exportIds =
      (w.writing.toList ++ w.written).map Export.requestId := by
  have hdated' : (w.stopEngine compareText sorting views).Dated :=
    hdated.apply compareText sorting toString (.stopEngine views)
  have hoff := stopEngine_engine compareText sorting (w := w) views
  rw [exportIds, hdated'.calls hoff, filterMap_exportId_of_lt fun signal hs g hg =>
    (hdated'.signals signal hs g hg).2 hoff, List.filterMap_nil, List.nil_append, List.nil_append]
  cases hengine : w.engine <;> simp [stopEngine, destroyEngine, resetNodeList, hengine]

theorem carried_stopEngine (hdated : w.Dated) (views : ℕ → EngineView) :
    Carried w (w.stopEngine compareText sorting views) := by
  refine ⟨List.Sublist.subperm ?_, ?_, fun h n rows path error hmem => ?_⟩
  · rw [exportIds_stopEngine compareText sorting hdated, exportIds]
    exact (List.sublist_append_right _ _).trans (List.sublist_append_right _ _)
  · cases hengine : w.engine <;> simp [stopEngine, destroyEngine, resetNodeList, hengine]
  · cases hengine : w.engine with
    | false =>
      simp only [stopEngine, destroyEngine, resetNodeList, hengine] at hmem ⊢
      exact h n rows path error hmem
    | true =>
      simp only [stopEngine, destroyEngine, resetNodeList, hengine] at hmem ⊢
      rcases List.mem_append.1 hmem with hmem | hmem
      · exact h n rows path error hmem
      · obtain ⟨i, hi, heq⟩ := List.mem_mapIdx.1 hmem
        cases hcall : w.calls[i] <;> simp [hcall, answer] at heq

/-- No event but an export takes one on. -/
theorem carried_apply (hdated : w.Dated) {e : Event} (he : ∀ path, e ≠ .exportNodes path) :
    Carried w (w.apply compareText sorting number e) := by
  cases e with
  | setNodeQuery query =>
    cases query with
    | error error => exact ⟨List.Subperm.refl _, rfl, id⟩
    | ok query =>
      have hheld : Carried w { w with nodeListInfo.error := "", nodeQuery := query } :=
        ⟨List.Subperm.refl _, rfl, id⟩
      exact hheld.trans carried_refreshNodeList
  | showNodePage offset =>
    have hheld : Carried w { w with nodeQuery.offset := max 0 offset } :=
      ⟨List.Subperm.refl _, rfl, id⟩
    exact hheld.trans carried_refreshNodeList
  | refreshNodeList => exact carried_refreshNodeList
  | exportNodes path => exact absurd rfl (he path)
  | exportSummary path error => cases error <;> exact ⟨List.Subperm.refl _, rfl, id⟩
  | startEngine outcome => exact carried_startEngine hdated outcome
  | stopEngine views => exact carried_stopEngine compareText sorting hdated views
  | engine view => exact carried_runEngine compareText sorting view
  | deliver error =>
    cases hsignals : w.signals with
    | nil =>
      rw [apply, deliver, hsignals]
      exact .refl w
    | cons signal signals =>
      rw [apply, deliver, hsignals]
      exact carried_receive number hsignals error
  | exportEnds error => exact carried_exportEnds error

/-- An export is taken on with a number of its own. -/
theorem Numbered.exportNodes (h : w.Numbered) (path : String) : (w.exportNodes path).Numbered := by
  rw [World.exportNodes]
  split_ifs
  · exact h
  · have hids : List.Perm (exportIds { w with
        exportStatus := ⟨true, "Collecting nodes…", false⟩
        exportPath := path
        exportRequestId := w.exportRequestId + 1
        calls := w.calls ++ [.exportNodes w.nodeQuery (w.exportRequestId + 1)] })
        ((w.exportRequestId + 1) :: w.exportIds) := by
      simp only [exportIds, List.filterMap_append, List.filterMap_cons, Call.exportId?,
        List.filterMap_nil, List.append_assoc, List.singleton_append]
      exact List.perm_middle
    refine ⟨hids.nodup_iff.2 (List.nodup_cons.2 ⟨fun hmem => ?_, h.once⟩), fun n hn => ?_, h.ended⟩
    · exact absurd (h.le _ hmem) (by omega)
    · rcases List.mem_cons.1 (hids.mem_iff.1 hn) with rfl | hn
      · exact le_rfl
      · exact (h.le n hn).trans (Nat.le_succ _)

theorem Numbered.apply (h : w.Numbered) (hdated : w.Dated) (e : Event) :
    (w.apply compareText sorting number e).Numbered := by
  by_cases he : ∃ path, e = .exportNodes path
  · obtain ⟨path, rfl⟩ := he
    exact h.exportNodes path
  · exact h.carried (carried_apply compareText sorting number hdated
      fun path heq => he ⟨path, heq⟩)

theorem numbered_run (events : List Event) :
    (run compareText sorting number {} events).Numbered := by
  induction events using List.reverseRecOn with
  | nil => exact numbered_init
  | append_singleton events e ih =>
    rw [run, List.foldl_append]
    exact ih.apply compareText sorting number (dated_init.run compareText sorting number events) e

/-! ## What is written -/

/-- The export of the number was taken on, between these events. -/
structure Asked (events before after : List Event) (n : ℕ) (path : String) : Prop where
  split : events = before ++ .exportNodes path :: after
  engine : (run compareText sorting number {} before).engine = true
  idle : (run compareText sorting number {} before).exportStatus.busy = false
  number_eq : (run compareText sorting number {} before).exportRequestId + 1 = n

/-- What the engine collected for the query that was held when the export was taken on. -/
def Collected (events : List Event) (n : ℕ) (path : String) (nodes : NodeExport) : Prop :=
  ∃ before after view, Asked compareText sorting number events before after n path ∧
    .engine view ∈ after ∧
    nodes = collectNodes view.labels view.catalog
      (run compareText sorting number {} before).nodeQuery compareText sorting view.nowMs
      view.suspicion

/-- What is on its way was asked for, and the latest to be written to the path given last. -/
structure Exporting (events : List Event) (w : World) : Prop where
  calls : ∀ query n, .exportNodes query n ∈ w.calls → ∃ before after path,
    Asked compareText sorting number events before after n path ∧
      query = (run compareText sorting number {} before).nodeQuery ∧
      (n = w.exportRequestId → path = w.exportPath)
  signals : ∀ n nodes, .nodeExportReady w.generation n nodes ∈ w.signals → ∃ path,
    Collected compareText sorting number events n path nodes ∧
      (n = w.exportRequestId → path = w.exportPath)
  threads : ∀ e ∈ w.writing.toList ++ w.written,
    Collected compareText sorting number events e.requestId e.path e.nodes

variable {compareText sorting number}

theorem Asked.snoc {before after : List Event} {n : ℕ} {path : String}
    (h : Asked compareText sorting number events before after n path) (e : Event) :
    Asked compareText sorting number (events ++ [e]) before (after ++ [e]) n path :=
  ⟨by rw [h.split, List.append_assoc, List.cons_append], h.engine, h.idle, h.number_eq⟩

theorem Collected.snoc {n : ℕ} {path : String} {nodes : NodeExport}
    (h : Collected compareText sorting number events n path nodes) (e : Event) :
    Collected compareText sorting number (events ++ [e]) n path nodes := by
  obtain ⟨before, after, view, hasked, hview, hnodes⟩ := h
  exact ⟨before, after ++ [e], view, hasked.snoc e, List.mem_append_left _ hview, hnodes⟩

theorem Exporting.snoc (h : Exporting compareText sorting number events w) (e : Event) :
    Exporting compareText sorting number (events ++ [e]) w where
  calls query n hmem := by
    obtain ⟨before, after, path, hasked, hrest⟩ := h.calls query n hmem
    exact ⟨before, after ++ [e], path, hasked.snoc e, hrest⟩
  signals n nodes hmem := (h.signals n nodes hmem).imp fun _ hpath => hpath.imp_left (·.snoc e)
  threads job hjob := (h.threads job hjob).snoc e

/-- Of what is on its way, anything may get lost. -/
theorem Exporting.of_subset (h : Exporting compareText sorting number events w) {w' : World}
    (hcalls : ∀ query n, .exportNodes query n ∈ w'.calls → .exportNodes query n ∈ w.calls)
    (hsignals : ∀ n nodes, .nodeExportReady w'.generation n nodes ∈ w'.signals →
      .nodeExportReady w.generation n nodes ∈ w.signals)
    (hthreads : ∀ e ∈ w'.writing.toList ++ w'.written, e ∈ w.writing.toList ++ w.written)
    (hnumber : w'.exportRequestId = w.exportRequestId) (hpath : w'.exportPath = w.exportPath) :
    Exporting compareText sorting number events w' := by
  refine ⟨fun query n hmem => ?_, fun n nodes hmem => ?_, fun e he => h.threads e (hthreads e he)⟩
  · rw [hnumber, hpath]
    exact h.calls query n (hcalls query n hmem)
  · rw [hnumber, hpath]
    exact h.signals n nodes (hsignals n nodes hmem)

theorem Exporting.refreshNodeList (h : Exporting compareText sorting number events w) :
    Exporting compareText sorting number events w.refreshNodeList := by
  rw [World.refreshNodeList]
  split_ifs
  · exact h
  · exact ⟨h.calls, h.signals, h.threads⟩
  · refine h.of_subset (fun query n hmem => ?_) (fun _ _ => id) (fun _ => id) rfl rfl
    simpa [sendNodeQuery] using hmem

theorem Exporting.applyNodePage (h : Exporting compareText sorting number events w)
    (page : NodeListPage) (n : ℕ) :
    Exporting compareText sorting number events (w.applyNodePage page n) := by
  simp only [World.applyNodePage]
  generalize hshown : (if n = w.nodeRequestId then _ else _ : World) = w'
  have hw' : Exporting compareText sorting number events w' := by
    rw [← hshown]
    split_ifs <;> exact ⟨h.calls, h.signals, h.threads⟩
  split_ifs
  · refine hw'.of_subset (fun query n hmem => ?_) (fun _ _ => id) (fun _ => id) rfl rfl
    simpa [sendNodeQuery] using hmem
  · exact hw'

theorem Exporting.exportEnds (h : Exporting compareText sorting number events w)
    (error : Option String) : Exporting compareText sorting number events (w.exportEnds error) := by
  cases hwriting : w.writing with
  | none => simpa [World.exportEnds, hwriting] using h
  | some e =>
    rw [World.exportEnds, hwriting]
    refine h.of_subset (fun _ _ => id) (fun n nodes hmem => ?_) (fun job hjob => ?_) rfl rfl
    · simpa using hmem
    · simpa [hwriting, or_comm] using hjob

theorem Exporting.receive (h : Exporting compareText sorting number events w) {signal : Signal}
    {signals : List Signal} (hsignals : w.signals = signal :: signals) (error : Option String) :
    Exporting compareText sorting number events
      (World.receive number { w with signals } error signal) := by
  have hrest : Exporting compareText sorting number events { w with signals } :=
    h.of_subset (fun _ _ => id) (fun n nodes hmem => hsignals ▸ List.mem_cons_of_mem _ hmem)
      (fun _ => id) rfl rfl
  cases signal with
  | nodePageReady g page n =>
    rw [World.receive]
    split_ifs
    · exact hrest.applyNodePage page n
    · exact hrest
  | nodeExportReady g n nodes =>
    rw [World.receive]
    split_ifs with hg
    · obtain ⟨rfl, rfl⟩ := hg
      obtain ⟨path, hcollected, hpath⟩ := h.signals w.exportRequestId nodes
        (by rw [hsignals]; exact List.mem_cons_self)
      obtain rfl := hpath rfl
      have hends := hrest.exportEnds error
      refine ⟨hends.calls, hends.signals, fun job hjob => ?_⟩
      rcases List.mem_cons.1 hjob with rfl | hjob
      · cases hwriting : w.writing <;> simpa [World.exportEnds, hwriting, setExportStatus]
          using hcollected
      · exact hends.threads job (List.mem_append_right _ hjob)
    · exact hrest
  | exportWritten n rows path failure =>
    by_cases hn : n = w.exportRequestId <;> cases failure <;>
      simpa [World.receive, World.exportWritten, hn, setExportStatus] using
        ⟨hrest.calls, hrest.signals, hrest.threads⟩

theorem Exporting.runEngine {view : EngineView} (h : Exporting compareText sorting number
    (events ++ [.engine view]) w)
    (hasked : ∀ query n, .exportNodes query n ∈ w.calls → ∃ before after path,
      Asked compareText sorting number events before after n path ∧
        query = (run compareText sorting number {} before).nodeQuery ∧
        (n = w.exportRequestId → path = w.exportPath)) :
    Exporting compareText sorting number (events ++ [.engine view])
      (w.runEngine compareText sorting view) := by
  cases hcalls : w.calls with
  | nil => simpa [World.runEngine, hcalls] using h
  | cons call calls =>
    rw [World.runEngine, hcalls]
    refine ⟨fun query n hmem => h.calls query n (hcalls ▸ List.mem_cons_of_mem _ hmem),
      fun n nodes hmem => ?_, h.threads⟩
    rcases List.mem_append.1 hmem with hmem | hmem
    · exact h.signals n nodes hmem
    · cases call with
      | queryNodes query m => simp [answer] at hmem
      | exportNodes query m =>
        simp only [answer, List.mem_singleton, Signal.nodeExportReady.injEq] at hmem
        obtain ⟨-, rfl, rfl⟩ := hmem
        obtain ⟨before, after, path, hbefore, rfl, hpath⟩ :=
          hasked query n (by rw [hcalls]; exact List.mem_cons_self)
        exact ⟨path, ⟨before, after ++ [.engine view], view, hbefore.snoc _, by simp, rfl⟩, hpath⟩

/-- An export is taken on with a number of its own, so that those before keep their paths. -/
theorem Exporting.exportNodes {path : String}
    (h : Exporting compareText sorting number (events ++ [.exportNodes path]) w)
    (hnumbered : w.Numbered) (hw : run compareText sorting number {} events = w) :
    Exporting compareText sorting number (events ++ [.exportNodes path]) (w.exportNodes path) := by
  rw [World.exportNodes]
  split_ifs with hbusy
  · exact h
  · -- The numbers of the exports before are lower.
    have hlt : ∀ n ∈ w.exportIds, n ≠ w.exportRequestId + 1 := fun n hn =>
      (Nat.lt_succ_of_le (hnumbered.le n hn)).ne
    simp only [Bool.or_eq_true, Bool.not_eq_true', not_or, Bool.not_eq_false,
      Bool.not_eq_true] at hbusy
    refine ⟨fun query n hmem => ?_, fun n nodes hmem => ?_, h.threads⟩
    · rcases List.mem_append.1 hmem with hmem | hmem
      · obtain ⟨before, after, path', hasked, hquery, -⟩ := h.calls query n hmem
        refine ⟨before, after, path', hasked, hquery, fun heq => absurd heq (hlt n ?_)⟩
        exact List.mem_append_left _ (List.mem_filterMap.2 ⟨_, hmem, rfl⟩)
      · simp only [List.mem_singleton, Call.exportNodes.injEq] at hmem
        obtain ⟨rfl, rfl⟩ := hmem
        exact ⟨events, [], path, ⟨rfl, by rw [hw]; exact hbusy.1, by rw [hw]; exact hbusy.2,
          by rw [hw]; rfl⟩, by rw [hw]; rfl, fun _ => rfl⟩
    · obtain ⟨path', hcollected, -⟩ := h.signals n nodes hmem
      refine ⟨path', hcollected, fun heq => absurd heq (hlt n ?_)⟩
      exact List.mem_append_right _ (List.mem_append_left _
        (List.mem_filterMap.2 ⟨_, hmem, if_pos rfl⟩))

/-- Nothing that is on its way is of the engine that starts. -/
theorem Exporting.startEngine (h : Exporting compareText sorting number events w)
    (hdated : w.Dated) (outcome : StartOutcome) :
    Exporting compareText sorting number events (w.startEngine outcome) := by
  cases hengine : w.engine with
  | true =>
    simp only [World.startEngine, hengine, if_true]
    exact h
  | false =>
    have hnone : ∀ k n nodes, .nodeExportReady (w.generation + k) n nodes ∉ w.signals :=
      fun k n nodes hmem => by
        have hlt := (hdated.signals _ hmem (w.generation + k) rfl).2 hengine
        omega
    simp only [World.startEngine, hengine, Bool.false_eq_true, if_false]
    cases outcome with
    | Refused => exact h
    | Failed =>
      exact h.of_subset (fun _ _ => id) (fun n nodes hmem => absurd hmem (hnone 2 n nodes))
        (fun _ => id) rfl rfl
    | Started =>
      exact h.of_subset (fun _ _ => id) (fun n nodes hmem => absurd hmem (hnone 1 n nodes))
        (fun _ => id) rfl rfl

/-- The engine that is stopped takes with it what it was to collect and what it collected. -/
theorem Exporting.stopEngine (h : Exporting compareText sorting number events w)
    (hdated : w.Dated) (views : ℕ → EngineView) :
    Exporting compareText sorting number events (w.stopEngine compareText sorting views) := by
  have hdated' := hdated.apply compareText sorting number (.stopEngine views)
  have hoff := stopEngine_engine compareText sorting (w := w) views
  rw [World.apply] at hdated'
  refine h.of_subset (fun query n hmem => ?_) (fun n nodes hmem => ?_) (fun job hjob => ?_) ?_ ?_
  · rw [hdated'.calls hoff] at hmem
    exact absurd hmem List.not_mem_nil
  · exact absurd ((hdated'.signals _ hmem _ rfl).2 hoff) (lt_irrefl _)
  · cases hengine : w.engine <;>
      simpa [World.stopEngine, destroyEngine, resetNodeList, hengine] using hjob
  · exact (carried_stopEngine compareText sorting hdated views).number_eq
  · cases hengine : w.engine <;> simp [World.stopEngine, destroyEngine, resetNodeList, hengine]

variable (compareText sorting number) in
theorem exporting_run (events : List Event) : Exporting compareText sorting number events
    (run compareText sorting number {} events) := by
  induction events using List.reverseRecOn with
  | nil => exact ⟨by simp [run], by simp [run], by simp [run]⟩
  | append_singleton events e ih =>
    have hdated := dated_init.run compareText sorting number events
    have hnumbered := numbered_run compareText sorting number events
    have hsnoc := ih.snoc e
    have hrun : run compareText sorting number {} (events ++ [e]) =
        apply compareText sorting number (run compareText sorting number {} events) e := by
      rw [run, List.foldl_append]
      rfl
    rw [hrun]
    generalize hw : run compareText sorting number {} events = w at *
    cases e with
    | setNodeQuery query =>
      cases query with
      | error error => exact ⟨hsnoc.calls, hsnoc.signals, hsnoc.threads⟩
      | ok query =>
        exact Exporting.refreshNodeList ⟨hsnoc.calls, hsnoc.signals, hsnoc.threads⟩
    | showNodePage offset =>
      exact Exporting.refreshNodeList ⟨hsnoc.calls, hsnoc.signals, hsnoc.threads⟩
    | refreshNodeList => exact hsnoc.refreshNodeList
    | exportNodes path => exact hsnoc.exportNodes hnumbered hw
    | exportSummary path error =>
      cases error <;> exact ⟨hsnoc.calls, hsnoc.signals, hsnoc.threads⟩
    | startEngine outcome => exact hsnoc.startEngine hdated outcome
    | stopEngine views => exact hsnoc.stopEngine hdated views
    | engine view => exact hsnoc.runEngine ih.calls
    | deliver error =>
      cases hsignals : w.signals with
      | nil => simpa [apply, deliver, hsignals] using hsnoc
      | cons signal signals =>
        rw [apply, deliver, hsignals]
        exact hsnoc.receive hsignals error
    | exportEnds error => exact hsnoc.exportEnds error

variable (compareText sorting number) in
/-- No export is written twice, and each to the path that it was asked for, with what the engine
    has collected since for the query that was held then. -/
theorem written_asked (events : List Event) :
    ((run compareText sorting number {} events).written.map Export.requestId).Nodup ∧
      ∀ e ∈ (run compareText sorting number {} events).written,
        Collected compareText sorting number events e.requestId e.path e.nodes := by
  refine ⟨(numbered_run compareText sorting number events).once.sublist ?_, fun e he =>
    (exporting_run compareText sorting number events).threads e (List.mem_append_right _ he)⟩
  exact (((List.sublist_append_right _ _).map _).trans (List.sublist_append_right _ _)).trans
    (List.sublist_append_right _ _)

/-! ## What is not -/

/-- The controller is busy with an export that is in no place. -/
structure Stuck (w : World) (status : ExportStatus) (n : ℕ) : Prop where
  status_eq : w.exportStatus = status
  busy : status.busy = true
  number_eq : w.exportRequestId = n
  nowhere : n ∉ w.exportIds

variable {status : ExportStatus} {n : ℕ}

theorem Stuck.exportNodes (h : w.Stuck status n) (path : String) : w.exportNodes path = w := by
  rw [World.exportNodes, h.status_eq, h.busy, Bool.or_true, if_pos rfl]

theorem exportStatus_refreshNodeList : w.refreshNodeList.exportStatus = w.exportStatus := by
  rw [refreshNodeList]
  split_ifs <;> rfl

theorem exportStatus_exportEnds (error : Option String) :
    (w.exportEnds error).exportStatus = w.exportStatus := by
  cases hwriting : w.writing <;> simp [exportEnds, hwriting]

/-- No signal is about an export that is in no place. -/
theorem Stuck.receive (h : w.Stuck status n) (hnumbered : w.Numbered) {signal : Signal}
    {signals : List Signal} (hsignals : w.signals = signal :: signals) (error : Option String) :
    (World.receive number { w with signals } error signal).exportStatus = status := by
  have hmem : signal ∈ w.signals := by rw [hsignals]; exact List.mem_cons_self
  cases signal with
  | nodePageReady g page m =>
    simp only [World.receive, applyNodePage, sendNodeQuery]
    split_ifs <;> exact h.status_eq
  | nodeExportReady g m nodes =>
    rw [World.receive, if_neg]
    · exact h.status_eq
    · rintro ⟨hg, hm⟩
      refine h.nowhere (List.mem_append_right _ (List.mem_append_left _ ?_))
      refine List.mem_filterMap.2 ⟨_, hmem, ?_⟩
      rw [Signal.exportId?, if_pos hg, hm]
      exact congrArg some h.number_eq
  | exportWritten m rows path failure =>
    simp only [World.receive]
    rw [World.exportWritten.eq_def, if_pos]
    · exact h.status_eq
    · rintro rfl
      have hwritten := hnumbered.ended _ _ _ _ hmem
      refine h.nowhere (h.number_eq ▸ List.mem_append_right _ (List.mem_append_right _ ?_))
      rw [List.map_append]
      exact List.mem_append_right _ hwritten

theorem Stuck.apply (h : w.Stuck status n) (hdated : w.Dated) (hnumbered : w.Numbered) {e : Event}
    (he : ∀ path error, e ≠ .exportSummary path error) :
    (w.apply compareText sorting number e).Stuck status n := by
  by_cases hexport : ∃ path, e = .exportNodes path
  · obtain ⟨path, rfl⟩ := hexport
    rw [World.apply, h.exportNodes]
    exact h
  have hcarried := carried_apply compareText sorting number hdated
    fun path heq => hexport ⟨path, heq⟩
  refine ⟨?_, h.busy, hcarried.number_eq.trans h.number_eq, fun hmem =>
    h.nowhere (hcarried.ids.subset hmem)⟩
  cases e with
  | setNodeQuery query =>
    cases query with
    | error error => exact h.status_eq
    | ok query => exact exportStatus_refreshNodeList.trans h.status_eq
  | showNodePage offset => exact exportStatus_refreshNodeList.trans h.status_eq
  | refreshNodeList => exact exportStatus_refreshNodeList.trans h.status_eq
  | exportNodes path => exact absurd ⟨path, rfl⟩ hexport
  | exportSummary path error => exact absurd rfl (he path error)
  | startEngine outcome =>
    cases hengine : w.engine <;> cases outcome <;>
      simp [World.apply, startEngine, hengine, h.status_eq]
  | stopEngine views =>
    cases hengine : w.engine <;>
      simp [World.apply, stopEngine, destroyEngine, resetNodeList, hengine, h.status_eq]
  | engine view =>
    cases hcalls : w.calls <;> simp [World.apply, runEngine, hcalls, h.status_eq]
  | deliver error =>
    cases hsignals : w.signals with
    | nil => simp [World.apply, deliver, hsignals, h.status_eq]
    | cons signal signals =>
      rw [World.apply, deliver, hsignals]
      exact h.receive hnumbered hsignals error
  | exportEnds error => exact (exportStatus_exportEnds error).trans h.status_eq

variable (compareText sorting number) in
/-- An engine that is stopped while it collects leaves the controller busy: until a summary is
    exported, no export is taken on, and this one is not written. -/
theorem export_stuck (before after : List Event) (views : ℕ → EngineView)
    (hbusy : (run compareText sorting number {} before).exportStatus.busy = true)
    (hcollecting : (run compareText sorting number {} before).exportRequestId ∈
      (run compareText sorting number {} before).calls.filterMap Call.exportId? ++
        (run compareText sorting number {} before).signals.filterMap
          (Signal.exportId? (run compareText sorting number {} before).generation))
    (hafter : ∀ path error, .exportSummary path error ∉ after) :
    (run compareText sorting number {} (before ++ .stopEngine views :: after)).exportStatus =
        (run compareText sorting number {} before).exportStatus ∧
      (∀ path,
        (run compareText sorting number {}
          (before ++ .stopEngine views :: after)).exportNodes path =
        run compareText sorting number {} (before ++ .stopEngine views :: after)) ∧
      ∀ e ∈ (run compareText sorting number {} (before ++ .stopEngine views :: after)).written,
        e.requestId ≠ (run compareText sorting number {} before).exportRequestId := by
  have hdated := dated_init.run compareText sorting number before
  have hnumbered := numbered_run compareText sorting number before
  have hrun : run compareText sorting number {} (before ++ .stopEngine views :: after) =
      run compareText sorting number (apply compareText sorting number
        (run compareText sorting number {} before) (.stopEngine views)) after := by
    rw [run, List.foldl_append, List.foldl_cons]
    rfl
  rw [hrun]
  generalize run compareText sorting number {} before = w at *
  -- The engine had it, so that no thread has.
  have hstop : (w.apply compareText sorting number (.stopEngine views)).Stuck w.exportStatus
      w.exportRequestId := by
    have hcarried := carried_stopEngine compareText sorting hdated views
    refine ⟨?_, hbusy, hcarried.number_eq, fun hmem => ?_⟩
    · cases hengine : w.engine <;>
        simp [World.apply, stopEngine, destroyEngine, resetNodeList, hengine]
    · rw [apply, exportIds_stopEngine compareText sorting hdated] at hmem
      have honce := hnumbered.once
      rw [exportIds, ← List.append_assoc] at honce
      exact (List.disjoint_of_nodup_append honce) hcollecting hmem
  have hstuck : (run compareText sorting number
      (w.apply compareText sorting number (.stopEngine views)) after).Stuck w.exportStatus
      w.exportRequestId := by
    have hdated' := hdated.apply compareText sorting number (.stopEngine views)
    have hnumbered' := hnumbered.apply compareText sorting number hdated (.stopEngine views)
    generalize w.apply compareText sorting number (.stopEngine views) = w' at *
    clear hrun
    induction after generalizing w' with
    | nil => exact hstop
    | cons e after ih =>
      simp only [List.mem_cons, not_or] at hafter
      exact ih (fun path error => (hafter path error).2) _
        (hstop.apply hdated' hnumbered' fun path error => Ne.symm (hafter path error).1)
        (hdated'.apply compareText sorting number e)
        (hnumbered'.apply compareText sorting number hdated' e)
  refine ⟨hstuck.status_eq, hstuck.exportNodes, fun e he heq => hstuck.nowhere ?_⟩
  refine List.mem_append_right _ (List.mem_append_right _ (List.mem_map.2 ⟨e, ?_, heq⟩))
  exact List.mem_append_right _ he

/-- It does not help to start again. -/
theorem export_stuck_restart : (run compare (Sorting.mergeSort ℕ) toString {}
    ([.startEngine .Started, .exportNodes "nodes.csv"] ++ .stopEngine (fun _ => emptyView) ::
      [.deliver none, .startEngine .Started, .exportNodes "nodes.csv"])).exportStatus =
    ⟨true, "Collecting nodes…", false⟩ :=
  (export_stuck compare (Sorting.mergeSort ℕ) toString
    [.startEngine .Started, .exportNodes "nodes.csv"]
    [.deliver none, .startEngine .Started, .exportNodes "nodes.csv"] (fun _ => emptyView) rfl
    (by decide) (by simp)).1

end World

end Dht.DhtController
