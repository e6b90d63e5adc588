import DhtCore.RpcManager.Outcome

/-!
# The order in which a host is sent queries

The queries to an address are handed to the operating system in the order in which they
were made: at any time, those that were handed over and after them those that wait are, in
this order, among those made (`inOrder_run`). A query is sent at once only if none waits for
its host, and waits behind the others otherwise.
-/

namespace Dht

namespace RpcManager

/-- The queries made to an address, by their numbers. -/
def calledTo (log : List Output) (address : HostAddress) : List ℕ :=
  log.filterMap fun
    | .called q => if q.dest.address = address then some q.serial else none
    | _ => none

/-- The queries to an address of which a datagram was handed to the operating system. -/
def handedTo (log : List Output) (address : HostAddress) : List ℕ :=
  log.filterMap fun
    | .handed serial _ _ dest _ _ _ => if dest.address = address then some serial else none
    | _ => none

/-- The queries that wait for an address, the next one first. -/
def waitingFor (m : RpcManager) (address : HostAddress) : List ℕ :=
  ((m.queues.lookup address).getD []).map (·.serial)

variable {m m' : RpcManager} {o : Outside} {q : Queued} {log outputs : List Output}
  {host address : HostAddress}

/-- What is done other than to make queries and to hand them over. -/
def Unordered : Output → Prop
  | .called _ | .handed .. => False
  | _ => True

theorem of_unordered (address : HostAddress) (h : ∀ x ∈ outputs, Unordered x) :
    calledTo outputs address = [] ∧ handedTo outputs address = [] := by
  constructor <;>
  · refine List.filterMap_eq_nil_iff.2 fun x hx => ?_
    have := h x hx
    cases x with
    | called => exact this.elim
    | handed => exact this.elim
    | _ => rfl

/-- The number of a query, at its address. -/
def numberAt (q : Queued) (address : HostAddress) : List ℕ :=
  if q.dest.address = address then [q.serial] else []

/-- The queries handed over, and more to come, are in the order in which they were made. -/
def InOrder (log : List Output) (coming : HostAddress → List ℕ) : Prop :=
  ∀ address, (handedTo log address ++ coming address).Sublist (calledTo log address)

variable {coming coming' : HostAddress → List ℕ}

theorem InOrder.append (h : InOrder log coming) (houtputs : ∀ x ∈ outputs, Unordered x) :
    InOrder (log ++ outputs) coming := by
  intro address
  obtain ⟨hcalled, hhanded⟩ := of_unordered address houtputs
  rw [handedTo, calledTo, List.filterMap_append, List.filterMap_append, ← handedTo, ← handedTo,
    ← calledTo, ← calledTo, hcalled, hhanded, List.append_nil, List.append_nil]
  exact h address

theorem InOrder.mono (h : InOrder log coming)
    (hcoming : ∀ address, (coming' address).Sublist (coming address)) : InOrder log coming' :=
  fun address => ((List.Sublist.refl _).append (hcoming address)).trans (h address)

/-- A query that is made comes after those before it. -/
theorem InOrder.called (h : InOrder log coming) (q : Queued) :
    InOrder (log ++ [.called q]) fun address => coming address ++ numberAt q address := by
  intro address
  have hcalled : calledTo (log ++ [.called q]) address =
      calledTo log address ++ numberAt q address := by
    rw [calledTo, List.filterMap_append, ← calledTo, numberAt]
    split_ifs with heq <;> simp [heq]
  have hhanded : handedTo (log ++ [.called q]) address = handedTo log address := by
    simp [handedTo]
  rw [hcalled, hhanded, ← List.append_assoc]
  exact (h address).append (List.Sublist.refl _)

/-- Sending a query hands it over. -/
theorem send_handedTo (m : RpcManager) (o : Outside) (q : Queued) (address : HostAddress) :
    calledTo (m.send o q).log address = calledTo m.log address ∧
      handedTo (m.send o q).log address = handedTo m.log address ++ numberAt q address := by
  rw [send, numberAt]
  dsimp only
  split
  · by_cases heq : q.dest.address = address <;> cases q.onSent <;>
      simp [calledTo, handedTo, heq]
  · by_cases heq : q.dest.address = address <;>
      simp [reportNotSent, calledTo, handedTo, heq]

/-- The query that comes next may be sent. -/
theorem InOrder.send (h : InOrder m.log fun address => numberAt q address ++ coming address) :
    InOrder (m.send o q).log coming := by
  intro address
  obtain ⟨hcalled, hhanded⟩ := send_handedTo m o q address
  rw [hcalled, hhanded, List.append_assoc]
  exact h address

/-! ## The queues -/

theorem waitingFor_congr (h : m'.queues = m.queues) : m'.waitingFor = m.waitingFor := by
  funext address
  rw [waitingFor, waitingFor, h]

/-- A query waits behind the others for its host. -/
theorem waitingFor_enqueue (m : RpcManager) (q : Queued) (address : HostAddress) :
    (m.enqueue q).waitingFor address = m.waitingFor address ++ numberAt q address := by
  rw [waitingFor, enqueue, numberAt, waitingFor]
  dsimp only
  split_ifs with heq
  · subst heq
    rw [AList.lookup_insert, Option.getD_some, List.map_append]
    rfl
  · rw [AList.lookup_insert_ne (Ne.symm heq), List.append_nil]

/-- Only an empty queue is forgotten. -/
theorem waitingFor_rotate (m : RpcManager) (host : HostAddress) :
    (m.rotate host).waitingFor = m.waitingFor := by
  funext address
  rw [rotate]
  split_ifs with hempty
  · by_cases heq : address = host
    · subst heq
      rw [waitingFor, waitingFor, AList.lookup_erase, hempty]
      rfl
    · rw [waitingFor, waitingFor, AList.lookup_erase_ne heq]
  · rfl

/-- The first query of a host leaves its queue. -/
theorem waitingFor_served {rest : List Queued} (hlookup : m.queues.lookup host = some (q :: rest))
    (hdest : q.dest.address = host) (address : HostAddress) :
    m.waitingFor address = numberAt q address ++ (m.served o host q rest).waitingFor address := by
  rw [waitingFor, numberAt, hdest]
  split_ifs with heq
  · subst heq
    rw [hlookup, waitingFor]
    change _ = [q.serial] ++ (((m.queues.insert host rest).lookup host).getD []).map _
    rw [AList.lookup_insert]
    rfl
  · rw [waitingFor]
    change _ = [] ++ (((m.queues.insert host rest).lookup address).getD []).map _
    rw [AList.lookup_insert_ne (Ne.symm heq)]
    rfl

/-! ## Runs -/

/-- What is made is numbered as it comes, and what is handed over and then waits is in order. -/
structure Ordered (m : RpcManager) : Prop where
  numbered : (callsOf m.log).map (·.serial) = List.range m.calls
  inOrder : InOrder m.log m.waitingFor

theorem callsOf_of_unordered (h : ∀ x ∈ outputs, Unordered x) : callsOf outputs = [] := by
  refine List.filterMap_eq_nil_iff.2 fun x hx => ?_
  have := h x hx
  cases x with
  | called => exact this.elim
  | _ => rfl

theorem Ordered.congr (h : m.Ordered) (hqueues : m'.queues = m.queues) (hcalls : m'.calls = m.calls)
    (hlog : m'.log = m.log ++ outputs) (houtputs : ∀ x ∈ outputs, Unordered x) : m'.Ordered := by
  refine ⟨?_, ?_⟩
  · rw [hlog, callsOf_append, callsOf_of_unordered houtputs, List.append_nil, hcalls]
    exact h.numbered
  · rw [hlog, waitingFor_congr hqueues]
    exact h.inOrder.append houtputs

theorem send_calls_count (m : RpcManager) (o : Outside) (q : Queued) :
    callsOf (m.send o q).log = callsOf m.log ∧ (m.send o q).calls = m.calls := by
  rw [send]
  dsimp only
  split
  · cases q.onSent <;> simp [callsOf]
  · simp [reportNotSent, callsOf]

theorem Ordered.query (h : m.Ordered) (o : Outside) (q : Queued) : (m.query o q).Ordered := by
  set q' := { q with serial := m.calls } with hq'
  have hnumbered : (callsOf (m.call q).log).map (·.serial) = List.range (m.calls + 1) := by
    rw [RpcManager.call, note, callsOf_append, List.map_append, List.range_succ]
    exact congrArg (· ++ [m.calls]) h.numbered
  have hcalled : InOrder (m.call q).log fun address =>
      m.waitingFor address ++ numberAt q' address :=
    h.inOrder.called q'
  -- A query refused was made, and that is all; one that is queued waits behind the others.
  have hrefused : ∀ {m' : RpcManager}, m'.queues = m.queues → m'.calls = m.calls + 1 →
      (callsOf m'.log).map (·.serial) = List.range (m.calls + 1) →
      (InOrder m'.log fun address => m.waitingFor address ++ numberAt q' address) →
      (m'.refuse q' o.now).Ordered := by
    intro m' hqueues hcalls hnumbered hcalled
    refine Ordered.congr (m := m') ⟨hcalls ▸ hnumbered, ?_⟩ rfl rfl rfl (by simp [Unordered])
    rw [waitingFor_congr hqueues]
    exact hcalled.mono fun address => List.sublist_append_left ..
  have hqueued : ∀ {m' : RpcManager}, m'.queues = m.queues → m'.calls = m.calls + 1 →
      (callsOf m'.log).map (·.serial) = List.range (m.calls + 1) →
      (InOrder m'.log fun address => m.waitingFor address ++ numberAt q' address) →
      (m'.enqueue q').Ordered := by
    intro m' hqueues hcalls hnumbered hcalled
    refine ⟨hcalls ▸ hnumbered, fun address => ?_⟩
    rw [waitingFor_enqueue, waitingFor_congr hqueues]
    exact hcalled address
  obtain ⟨budget, limiter, hc⟩ := (m.call q).consider_fst q.dest o.now
  have hconsidering : ∃ outputs, (m.considering o q).log = (m.call q).log ++ outputs ∧
      (∀ x ∈ outputs, Unordered x) ∧ (m.considering o q).queues = m.queues ∧
      (m.considering o q).calls = m.calls + 1 := by
    rw [considering, hc]
    exact ⟨_, rfl, by simp [Unordered], rfl, rfl⟩
  obtain ⟨outputs, hlog, houtputs, hqueues, hcalls⟩ := hconsidering
  have hnumbered' : (callsOf (m.considering o q).log).map (·.serial) =
      List.range (m.calls + 1) := by
    rw [hlog, callsOf_append, callsOf_of_unordered houtputs, List.append_nil, hnumbered]
  have hcalled' : InOrder (m.considering o q).log fun address =>
      m.waitingFor address ++ numberAt q' address := by
    rw [hlog]
    exact hcalled.append houtputs
  apply query_cases (P := Ordered)
  case sent =>
    intro hnone _
    obtain ⟨hsendCalls, hsendCount⟩ := send_calls_count (m.considering o q) o q'
    refine ⟨by rw [hsendCalls, hsendCount, hcalls, hnumbered'], InOrder.send ?_⟩
    rw [waitingFor_congr (send_queues.trans hqueues)]
    -- Nothing waits for the host, so that to come last is to come first.
    refine hcalled'.mono fun address => ?_
    rw [numberAt]
    split_ifs with heq
    · subst heq
      rw [waitingFor, show m.queues.lookup q'.dest.address = none from hnone]
      exact List.Sublist.refl _
    · simp
  case full => exact fun _ _ _ => hrefused hqueues hcalls hnumbered' hcalled'
  case first => exact fun _ _ _ => hqueued hqueues hcalls hnumbered' hcalled'
  case refused => exact fun _ _ => hrefused rfl rfl hnumbered hcalled
  case queued => exact fun _ _ _ _ => hqueued rfl rfl hnumbered hcalled

theorem Ordered.rotate (h : m.Ordered) (host : HostAddress) : (m.rotate host).Ordered := by
  have hkeeps : (m.rotate host).log = m.log ∧ (m.rotate host).calls = m.calls := by
    rw [RpcManager.rotate]
    split_ifs <;> exact ⟨rfl, rfl⟩
  refine ⟨?_, ?_⟩
  · rw [hkeeps.1, hkeeps.2]
    exact h.numbered
  · rw [hkeeps.1, waitingFor_rotate]
    exact h.inOrder

theorem Ordered.turn (h : m.Ordered) (haddressed : m.Addressed) (o : Outside)
    (host : HostAddress) : (m.turn o host).1.Ordered := by
  apply turn_cases (P := fun r => r.1.Ordered)
  case gone => exact fun _ => h
  case empty => exact fun _ => h.rotate host
  case unaffordable =>
    refine fun q rest _ _ => Ordered.rotate ?_ host
    exact h.congr rfl rfl rfl (by simp [Unordered])
  case limited =>
    refine fun q rest _ _ _ => Ordered.rotate ?_ host
    exact h.congr rfl rfl rfl (by simp [Unordered])
  case sent =>
    intro q rest hlookup _ _
    obtain ⟨hsendCalls, hsendCount⟩ := send_calls_count (m.served o host q rest) o q
    refine Ordered.rotate ⟨?_, InOrder.send ?_⟩ host
    · rw [hsendCalls, hsendCount]
      refine (congrArg (List.map Queued.serial) ?_).trans h.numbered
      exact callsOf_append.trans (List.append_nil _)
    · rw [waitingFor_congr send_queues]
      have hdest := haddressed host q ⟨_, hlookup, List.mem_cons_self⟩
      have hserved : InOrder (m.served o host q rest).log m.waitingFor :=
        h.inOrder.append (by simp [Unordered])
      exact hserved.mono fun address => (waitingFor_served hlookup hdest address) ▸ .refl _

theorem Ordered.drain (h : m.Ordered) (haddressed : m.Addressed) (o : Outside) :
    (m.drain o).Ordered := by
  have hloop : (drainLoop o m.order.length m false).1.Ordered ∧
      (drainLoop o m.order.length m false).1.Addressed := by
    refine drainLoop_induction (P := fun m => m.Ordered ∧ m.Addressed) (fun m hosts h => ?_)
      (fun m host order _ _ h => ?_) ⟨h, haddressed⟩
    · refine ⟨h.1.congr rfl rfl rfl fun x hx => ?_, h.2⟩
      obtain ⟨_, -, rfl⟩ := List.mem_map.1 hx
      exact trivial
    · have hturn : ({ m with order } : RpcManager).Ordered :=
        h.1.congr rfl rfl (List.append_nil _).symm (by simp)
      refine ⟨hturn.turn h.2 o host, ?_⟩
      exact fun host q hq => h.2 host q (hq.of_turn.congr rfl)
  rw [RpcManager.drain]
  dsimp only
  split_ifs <;> exact hloop.1.congr rfl rfl (List.append_nil _).symm (by simp)

theorem Ordered.apply (h : m.Ordered) (haddressed : m.Addressed) (e : Event) :
    (m.apply e).Ordered := by
  have hsame : ∀ {m' : RpcManager}, m'.queues = m.queues → m'.calls = m.calls →
      m'.log = m.log → m'.Ordered := fun hqueues hcalls hlog =>
    h.congr hqueues hcalls (hlog.trans (List.append_nil _).symm) (by simp)
  have hconclude : ∀ {m' : RpcManager} {serial callback reply now}, m'.queues = m.queues →
      m'.calls = m.calls → m'.log = m.log → (m'.conclude serial callback reply now).Ordered := by
    intro m' serial callback reply now hqueues hcalls hlog
    refine (hsame hqueues hcalls hlog).congr rfl rfl rfl fun x hx => ?_
    cases callback <;> simp at hx
    · exact hx ▸ trivial
    · rcases hx with rfl | rfl <;> exact trivial
  cases e with
  | query o q => exact h.query o q
  | drain o => exact h.drain haddressed o
  | reply now message datagram sender =>
    simp only [RpcManager.apply, RpcManager.handleReply]
    split
    · exact h
    · split
      · exact h
      · exact hconclude rfl rfl rfl
  | expire now tids =>
    simp only [RpcManager.apply, RpcManager.expire]
    split_ifs <;> exact hsame rfl rfl rfl
  | resume =>
    simp only [RpcManager.apply, RpcManager.resume]
    split
    · exact h
    · exact hsame rfl rfl rfl
    · split
      · exact hsame rfl rfl rfl
      · exact hconclude rfl rfl rfl
  | deliver =>
    simp only [RpcManager.apply, RpcManager.deliver]
    split
    · exact h
    · exact h.congr rfl rfl rfl (by simp [Unordered])
  | setHostLimit _ | setMaxPending _ | setReadOnly _ | setBudget _ => exact hsame rfl rfl rfl
  | cancelAll =>
    refine ⟨h.numbered, h.inOrder.mono fun address => ?_⟩
    simp [RpcManager.apply, RpcManager.cancelAll, waitingFor]

/-- The queries made to an address are among all. -/
theorem calledTo_sublist (log : List Output) (address : HostAddress) :
    (calledTo log address).Sublist ((callsOf log).map (·.serial)) := by
  induction log with
  | nil => exact List.Sublist.refl _
  | cons x log ih =>
    cases x with
    | called q =>
      rw [calledTo, List.filterMap_cons, ← calledTo]
      dsimp only
      split_ifs
      · exact ih.cons_cons _
      · exact ih.cons _
    | _ => exact ih

/-- Per-host order: of the queries made to an address, which are numbered as they are made, those
    handed to the operating system are some, in the order in which they were made, and those that
    wait, in their order, come after them. -/
theorem inOrder_run (nextId : UInt16) (events : List Event) (address : HostAddress) :
    let m := (new nextId).run events
    (calledTo m.log address).Pairwise (· < ·) ∧
      (handedTo m.log address ++ m.waitingFor address).Sublist (calledTo m.log address) := by
  intro m
  have hrun : ∀ {events : List Event} {m : RpcManager}, m.Ordered → m.Addressed →
      (m.run events).Ordered := by
    intro events
    induction events with
    | nil => exact fun h _ => h
    | cons e events ih => exact fun h haddressed => ih (h.apply haddressed e) (haddressed.apply e)
  have hnew : (new nextId).Ordered := ⟨rfl, fun address => List.Sublist.refl _⟩
  have haddressed : (new nextId).Addressed := by
    intro host q ⟨queue, hlookup, _⟩
    simp [new] at hlookup
  have hm : m.Ordered := hrun hnew haddressed
  refine ⟨?_, hm.inOrder address⟩
  refine List.Pairwise.sublist (calledTo_sublist m.log address) ?_
  rw [hm.numbered]
  exact List.pairwise_lt_range

end RpcManager

end Dht
