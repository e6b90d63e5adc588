import DhtCore.RpcManager.Outcome
import DhtCore.RpcManager.Queues

/-!
# Newcomers

A host that comes to wait is put at the back of the order, and a pass of `drain`
takes the hosts from the front. So whatever happens, a query that is queued behind
a host that was held back is sent only once that host was considered again
(`Guarding.apply`).

But while a host is held back, a query to another one with no queue, which is charged to
the budget, is queued only if the last pass held a host back, or if it is itself held back
(`yields_iff`). A host that came to wait since that pass is overtaken
(`not_yields_overtaken`).
-/

namespace Dht

namespace RpcManager

/-! ## Hosts held back -/

/-- What was found when a host was considered, time after time. -/
def verdictsOf (log : List Output) (host : HostAddress) : List Verdict :=
  log.filterMap fun
    | .considered h verdict => if h = host then some verdict else none
    | _ => none

/-- A host has a query waiting that the budget, or the cap on pending queries, held
    back when it was last considered. -/
def HeldBack (m : RpcManager) (host : HostAddress) : Prop :=
  host ∈ m.queues ∧ ∃ verdict ∈ (verdictsOf m.log host).getLast?,
    verdict = .unaffordable ∨ verdict = .capped

/-- A host was considered, and its query not just left for being beyond the cap. -/
def Considered (log : List Output) (host : HostAddress) : Prop :=
  ∃ verdict, verdict ≠ .capped ∧ .considered host verdict ∈ log

/-- A datagram of a query was handed over. -/
def IsHanded (serial : ℕ) : Output → Prop
  | .handed k .. => k = serial
  | _ => False

/-- A query is handed over only after a host was considered. -/
def Guarded (log : List Output) (host : HostAddress) (serial : ℕ) : Prop :=
  ∀ before x after, log = before ++ x :: after → IsHanded serial x → Considered before host

/-- The query made is queued, and is sent only once each host held back was considered
    again. -/
def Yields (m : RpcManager) (o : Outside) (q : Queued) : Prop :=
  (m.query o q).Waits q.dest.address { q with serial := m.calls } ∧
    ∀ host, m.HeldBack host → ∀ after outputs,
      ((m.query o q).run after).log = (m.query o q).log ++ outputs → Guarded outputs host m.calls

variable {m m' : RpcManager} {o : Outside} {q : Queued} {host other newcomer : HostAddress}
  {log outputs : List Output} {serial : ℕ}

theorem Considered.append (h : Considered log host) : Considered (log ++ outputs) host := by
  obtain ⟨verdict, hne, hmem⟩ := h
  exact ⟨verdict, hne, List.mem_append_left _ hmem⟩

/-- What is done once the host was considered, or is not about the query, keeps it guarded. -/
theorem Guarded.append (h : Guarded log host serial)
    (hnew : Considered log host ∨ ∀ x ∈ outputs, ¬IsHanded serial x) :
    Guarded (log ++ outputs) host serial := by
  intro before x after heq hx
  rcases List.append_eq_append_iff.1 heq with ⟨rest, rfl, hrest⟩ | ⟨rest, hlog, hrest⟩
  · -- Handed over among what is new.
    rcases hnew with hconsidered | hnone
    · exact hconsidered.append
    · exact absurd hx (hnone x (by rw [hrest]; simp))
  · cases rest with
    | nil =>
      rw [List.append_nil] at hlog
      rcases hnew with hconsidered | hnone
      · exact hlog ▸ hconsidered
      · rw [List.nil_append] at hrest
        exact absurd hx (hnone x (by rw [← hrest]; exact List.mem_cons_self))
    | cons y rest =>
      rw [List.cons_append, List.cons.injEq] at hrest
      obtain ⟨rfl, -⟩ := hrest
      exact h before x rest hlog hx

/-! ## What is handed over, and who waits -/

/-- A query is handed over as itself. -/
theorem adds_send_handed : Adds (fun x => ∀ k, IsHanded k x → k = q.serial) m.log
    (m.send o q).log := by
  rw [send]
  dsimp only
  split
  · refine adds_append ?_
    cases q.onSent <;> simp [IsHanded]
  · exact (adds_append (by simp [IsHanded])).trans (adds_append (by simp [IsHanded]))

theorem adds_query_handed (m : RpcManager) (o : Outside) (q : Queued) :
    Adds (fun x => ∀ k, IsHanded k x → k = m.calls) m.log (m.query o q).log := by
  obtain ⟨budget, limiter, hc⟩ := (m.call q).consider_fst q.dest o.now
  have hcall : Adds (fun x => ∀ k, IsHanded k x → k = m.calls) m.log (m.call q).log :=
    adds_append (by simp [IsHanded])
  have hconsidering : Adds (fun x => ∀ k, IsHanded k x → k = m.calls) m.log
      (m.considering o q).log := by
    rw [considering, hc]
    exact hcall.trans (adds_append (by simp [IsHanded]))
  apply query_cases (P := fun m' => Adds (fun x => ∀ k, IsHanded k x → k = m.calls) m.log m'.log)
  case sent => exact fun _ _ => hconsidering.trans adds_send_handed
  case full => exact fun _ _ _ => hconsidering.trans (adds_append (by simp [IsHanded]))
  case first => exact fun _ _ _ => hconsidering
  case refused => exact fun _ _ => hcall.trans (adds_append (by simp [IsHanded]))
  case queued => exact fun _ _ _ _ => hcall

theorem send_calls : (m.send o q).calls = m.calls := by
  rw [send]
  dsimp only
  split <;> rfl

theorem query_calls : (m.query o q).calls = m.calls + 1 := by
  obtain ⟨budget, limiter, hc⟩ := (m.call q).consider_fst q.dest o.now
  have hconsidering : (m.considering o q).calls = m.calls + 1 := by rw [considering, hc]; rfl
  apply query_cases (P := fun m' => m'.calls = m.calls + 1)
  case sent => exact fun _ _ => send_calls.trans hconsidering
  case full => exact fun _ _ _ => hconsidering
  case first => exact fun _ _ _ => hconsidering
  case refused => exact fun _ _ => rfl
  case queued => exact fun _ _ _ _ => rfl

theorem turn_calls : (m.turn o host).1.calls = m.calls := by
  have hrotate : ∀ m' : RpcManager, (m'.rotate host).calls = m'.calls := fun m' => by
    rw [rotate]
    split_ifs <;> rfl
  apply turn_cases (P := fun r => r.1.calls = m.calls)
  case gone => exact fun _ => rfl
  case empty => exact fun _ => hrotate m
  case unaffordable => exact fun _ _ _ _ => hrotate _
  case limited => exact fun _ _ _ _ _ => hrotate _
  case sent => exact fun _ _ _ _ _ => (hrotate _).trans send_calls

theorem drain_calls : (m.drain o).calls = m.calls := by
  have hloop : (drainLoop o m.order.length m false).1.calls = m.calls :=
    drainLoop_induction (P := fun m' => m'.calls = m.calls) (fun _ _ h => h)
      (fun _ _ _ _ _ h => turn_calls.trans h) rfl
  rw [drain]
  dsimp only
  split_ifs <;> exact hloop

theorem calls_le_apply (m : RpcManager) (e : Event) : m.calls ≤ (m.apply e).calls := by
  cases e with
  | query o q => exact query_calls.symm ▸ Nat.le_succ _
  | drain o => exact drain_calls.ge
  | reply now message datagram sender =>
    simp only [apply, handleReply]
    split
    · exact le_rfl
    · split <;> exact le_rfl
  | expire now tids =>
    simp only [apply, expire]
    split_ifs <;> exact le_rfl
  | resume =>
    simp only [apply, resume]
    split
    · exact le_rfl
    · exact le_rfl
    · split <;> exact le_rfl
  | deliver =>
    simp only [apply, deliver]
    split <;> exact le_rfl
  | setHostLimit _ | setMaxPending _ | setReadOnly _ | setBudget _ | cancelAll => exact le_rfl

/-- The queries that wait are among those made. -/
def Numbered (m : RpcManager) : Prop := ∀ host q, m.Waits host q → q.serial < m.calls

theorem Numbered.apply (h : m.Numbered) (e : Event) : (m.apply e).Numbered := by
  intro host q hq
  rcases hq.of_apply with hq | ⟨o, q', rfl, rfl, -⟩
  · exact (h host q hq).trans_le (calls_le_apply m e)
  · exact query_calls.symm ▸ Nat.lt_succ_self _

theorem numbered_run : ∀ {events : List Event} {m : RpcManager}, m.Numbered →
    (m.run events).Numbered
  | [], _, h => h
  | e :: _, m, h => numbered_run (m := m.apply e) (h.apply e)

theorem numbered_new (nextId : UInt16) :
    (new nextId).Numbered := fun host q ⟨queue, hlookup, _⟩ => by
  simp [new] at hlookup

/-! ## Behind a host -/

/-- Since a query was queued behind a host, that host was considered, or it is still
    ahead of the query. -/
structure Guarding (m : RpcManager) (since : List Output) (host newcomer : HostAddress)
    (serial : ℕ) :
    Prop where
  lt : serial < m.calls
  only : ∀ h q, m.Waits h q → q.serial = serial → h = newcomer
  guarded : Guarded since host serial
  ahead : Considered since host ∨
    ∀ h q, m.Waits h q → q.serial = serial → [host, newcomer].Sublist m.order

/-- What is not about the query, and leaves the order of the hosts, keeps it guarded. -/
theorem Guarding.of_sublist (h : m.Guarding log host newcomer serial) (hcalls : m.calls ≤ m'.calls)
    (hwaits : ∀ h q, m'.Waits h q → q.serial = serial → m.Waits h q)
    (hnone : ∀ x ∈ outputs, ¬IsHanded serial x)
    (horder : ∀ h q, m'.Waits h q → q.serial = serial →
      [host, newcomer].Sublist m.order → [host, newcomer].Sublist m'.order) :
    m'.Guarding (log ++ outputs) host newcomer serial := by
  refine ⟨h.lt.trans_le hcalls, fun h' q hq hserial => h.only h' q (hwaits h' q hq hserial) hserial,
    h.guarded.append (.inr hnone), ?_⟩
  rcases h.ahead with hconsidered | hahead
  · exact .inl hconsidered.append
  · exact .inr fun h' q hq hserial =>
      horder h' q hq hserial (hahead h' q (hwaits h' q hq hserial) hserial)

theorem rotate_order (m : RpcManager) (host : HostAddress) :
    (m.rotate host).order = m.order ∨ (m.rotate host).order = m.order ++ [host] := by
  rw [rotate]
  split_ifs
  · exact .inl rfl
  · exact .inr rfl

theorem sublist_rotate {order : List HostAddress} (h : order.Sublist m.order) :
    order.Sublist (m.rotate host).order := by
  rcases m.rotate_order host with heq | heq
  · rwa [heq]
  · rw [heq]
    exact h.trans (List.sublist_append_left _ _)

/-- A turn leaves the other hosts in their order. -/
theorem turn_sublist : m.order.Sublist (m.turn o host).1.order := by
  apply turn_cases (P := fun r => m.order.Sublist r.1.order)
  case gone => exact fun _ => .refl _
  case empty => exact fun _ => sublist_rotate (.refl _)
  case unaffordable => exact fun _ _ _ _ => sublist_rotate (List.Sublist.refl m.order)
  case limited => exact fun _ _ _ _ _ => sublist_rotate (List.Sublist.refl m.order)
  case sent =>
    intro q rest _ _ _
    have hsend : ((m.served o host q rest).send o q).order = m.order :=
      (send_keeps (m := m.served o host q rest)).2.1
    exact sublist_rotate (by rw [hsend])

/-- In its turn, a host is considered before its query is handed over. -/
theorem considered_turn (m : RpcManager) (o : Outside) (host : HostAddress)
    (hnonempty : ∃ q rest, m.queues.lookup host = some (q :: rest)) :
    ∃ verdict, verdict ≠ .capped ∧ ∃ outputs,
      (m.turn o host).1.log = m.log ++ ([.considered host verdict] ++ outputs) := by
  obtain ⟨q', rest', hlookup⟩ := hnonempty
  apply turn_cases (P := fun r => ∃ verdict, verdict ≠ Verdict.capped ∧ ∃ outputs,
    r.1.log = m.log ++ ([Output.considered host verdict] ++ outputs))
  case gone =>
    intro hnone
    rw [hlookup] at hnone
    cases hnone
  case empty =>
    intro hempty
    rw [hlookup] at hempty
    cases hempty
  case unaffordable => exact fun _ _ _ _ => ⟨.unaffordable, by decide, [], rotate_log⟩
  case limited => exact fun _ _ _ _ _ => ⟨.limited, by decide, [], rotate_log⟩
  case sent =>
    intro q rest _ _ _
    obtain ⟨outputs, hlog, -⟩ := adds_send (m := m.served o host q rest) (o := o) (q := q)
    refine ⟨.sent, by decide, outputs, rotate_log.trans (hlog.trans ?_)⟩
    exact List.append_assoc ..

/-- In its turn, a host has its first query handed over, if any. -/
theorem turn_handed (m : RpcManager) (o : Outside) (host : HostAddress) :
    Adds (fun x => ∀ k, IsHanded k x → ∃ q, m.Waits host q ∧ q.serial = k)
    m.log (m.turn o host).1.log := by
  apply turn_cases (P := fun r => Adds (fun x => ∀ k, IsHanded k x →
    ∃ q, m.Waits host q ∧ q.serial = k)
    m.log r.1.log)
  case gone => exact fun _ => adds_refl
  case empty =>
    intro _
    rw [rotate_log]
    exact adds_refl
  case unaffordable =>
    intro _ _ _ _
    rw [rotate_log]
    exact adds_append (by simp [IsHanded])
  case limited =>
    intro _ _ _ _ _
    rw [rotate_log]
    exact adds_append (by simp [IsHanded])
  case sent =>
    intro q rest hlookup _ _
    rw [rotate_log]
    refine (adds_append (by simp [IsHanded]) : Adds _ m.log (m.served o host q rest).log).trans ?_
    exact adds_send_handed.imp fun x hx k hk =>
      ⟨q, ⟨_, hlookup, List.mem_cons_self⟩, (hx k hk).symm⟩

/-- Of two hosts in the order, the second one has no turn before the first. -/
theorem ne_of_ahead {order : List HostAddress} (hnodup : (host :: order).Nodup)
    (hne : other ≠ newcomer) (hahead : [other, newcomer].Sublist (host :: order)) :
    host ≠ newcomer := by
  rintro rfl
  rcases List.cons_sublist_cons'.1 hahead with h | ⟨heq, -⟩
  · exact (List.nodup_cons.1 hnodup).1 (h.subset (by simp))
  · exact hne heq

theorem Guarding.turn {order : List HostAddress} (h : m.Guarding log host newcomer serial)
    (hwaiting : m.Waiting none none) (horder : m.order = other :: order) (hne : host ≠ newcomer) :
    ∃ outputs, (RpcManager.turn { m with order } o other).1.log = m.log ++ outputs ∧
      (RpcManager.turn { m with order } o other).1.Guarding (log ++ outputs) host
      newcomer serial := by
  have hcalls : m.calls = (RpcManager.turn { m with order } o other).1.calls :=
    (turn_calls (m := { m with order })).symm
  have hwaits : ∀ h' q, (RpcManager.turn { m with order } o other).1.Waits h' q → m.Waits h' q :=
    fun h' q hq => hq.of_turn.congr rfl
  have hlt : serial < (RpcManager.turn { m with order } o other).1.calls := hcalls ▸ h.lt
  have honly : ∀ h' q, (RpcManager.turn { m with order } o other).1.Waits h' q → q.serial = serial →
      h' = newcomer := fun h' q hq => h.only h' q (hwaits h' q hq)
  rcases h.ahead with hconsidered | hahead
  · obtain ⟨outputs, hlog, -⟩ := turn_handed { m with order } o other
    exact ⟨outputs, hlog, hlt, honly, h.guarded.append (.inl hconsidered), .inl hconsidered.append⟩
  · by_cases hhost : other = host
    · -- It is the turn of the host.
      subst hhost
      obtain ⟨verdict, hverdict, outputs, hlog⟩ := considered_turn { m with order } o other
        (hwaiting.exists_front (by rw [horder]; exact List.mem_cons_self))
      have hnow : Considered (log ++ [.considered other verdict]) other :=
        ⟨verdict, hverdict, by simp⟩
      refine ⟨_, hlog, hlt, honly, ?_, ?_⟩
      · rw [← List.append_assoc]
        exact (h.guarded.append (.inr (by simp [IsHanded]))).append (.inl hnow)
      · rw [← List.append_assoc]
        exact .inl hnow.append
    · obtain ⟨outputs, hlog, hhanded⟩ := turn_handed { m with order } o other
      refine ⟨outputs, hlog, h.of_sublist hcalls.le (fun h' q hq _ => hwaits h' q hq)
        (fun x hx hserial => ?_)
        fun h' q hq hserial' hsublist => ?_⟩
      · -- The query does not wait for the host that has its turn, as that is not the newcomer.
        obtain ⟨q, hq, hqserial⟩ := hhanded x hx serial hserial
        have hq' : m.Waits other q := hq.congr rfl
        have hsublist := hahead other q hq' hqserial
        rw [horder] at hsublist
        exact ne_of_ahead (horder ▸ hwaiting.nodup) hne hsublist (h.only other q hq' hqserial)
      · rw [horder] at hsublist
        rcases List.cons_sublist_cons'.1 hsublist with hsublist | ⟨heq, -⟩
        · exact hsublist.trans (turn_sublist (m := { m with order }))
        · exact absurd heq.symm hhost

theorem Guarding.drain (h : m.Guarding log host newcomer serial) (hwaiting : m.Waiting none none)
    (hne : host ≠ newcomer) (o : Outside) :
    ∃ outputs, (m.drain o).log = m.log ++ outputs ∧
      (m.drain o).Guarding (log ++ outputs) host newcomer serial := by
  have hloop : ∃ outputs, (drainLoop o m.order.length m false).1.log = m.log ++ outputs ∧
      (drainLoop o m.order.length m false).1.Guarding (log ++ outputs) host newcomer serial := by
    refine (drainLoop_induction (P := fun m' => m'.Waiting none none ∧ ∃ outputs,
      m'.log = m.log ++ outputs ∧ m'.Guarding (log ++ outputs) host newcomer serial)
      (fun m' hosts h => ?_) (fun m' other order horder _ h => ?_)
      ⟨hwaiting, [], (List.append_nil _).symm, by simpa using h⟩).2
    · obtain ⟨hwaiting', outputs, hlog, hguarding⟩ := h
      refine ⟨hwaiting'.congr rfl rfl rfl rfl, _,
        (congrArg (· ++ _) hlog).trans (List.append_assoc ..), ?_⟩
      rw [← List.append_assoc]
      exact hguarding.of_sublist le_rfl (fun _ _ hq _ => hq.congr rfl) (by simp [IsHanded])
        fun _ _ _ _ hsublist => hsublist
    · obtain ⟨hwaiting', outputs, hlog, hguarding⟩ := h
      obtain ⟨outputs', hlog', hguarding'⟩ := hguarding.turn (o := o) hwaiting' horder hne
      refine ⟨hwaiting'.turn_fst horder, outputs ++ outputs', ?_, ?_⟩
      · rw [hlog', hlog, List.append_assoc]
      · rwa [← List.append_assoc]
  obtain ⟨outputs, hlog, hguarding⟩ := hloop
  have hsame : (m.drain o).log = (drainLoop o m.order.length m false).1.log ∧
      (m.drain o).order = (drainLoop o m.order.length m false).1.order ∧
      (m.drain o).queues = (drainLoop o m.order.length m false).1.queues ∧
      (m.drain o).calls = (drainLoop o m.order.length m false).1.calls := by
    rw [RpcManager.drain]
    dsimp only
    split_ifs <;> exact ⟨rfl, rfl, rfl, rfl⟩
  refine ⟨outputs, hsame.1.trans hlog, ?_⟩
  rw [← List.append_nil (log ++ outputs)]
  refine hguarding.of_sublist hsame.2.2.2.ge (fun _ _ hq _ => hq.congr hsame.2.2.1) (by simp)
    fun _ _ _ _ hsublist => ?_
  rwa [hsame.2.1]

/-- A query leaves the order as it is, but for a new host at the back. -/
theorem query_sublist : m.order.Sublist (m.query o q).order := by
  obtain ⟨-, horder, -⟩ := considering_keeps (m := m) (o := o) (q := q)
  apply query_cases (P := fun m' => m.order.Sublist m'.order)
  case sent =>
    intro _ _
    rw [send_keeps.2.1, horder]
  case full => exact fun _ _ _ => by rw [refuse, reportNotSent]; exact horder ▸ .refl _
  case first => exact fun _ _ _ => List.sublist_append_left _ _
  case refused => exact fun _ _ => .refl _
  case queued => exact fun _ _ _ _ => .refl _

/-- Apart from passes of `drain`, only a call of `query` hands a query over: its own. -/
theorem adds_apply_handed {e : Event} (hdrain : ∀ o, e ≠ .drain o) (hlt : serial < m.calls) :
    Adds (fun x => ¬IsHanded serial x) m.log (m.apply e).log := by
  cases e with
  | query o q => exact (adds_query_handed m o q).imp fun x hx hserial => hlt.ne (hx serial hserial)
  | drain o => exact absurd rfl (hdrain o)
  | _ =>
    refine (adds_apply m _).imp fun x hx hserial => ?_
    cases x <;> simp_all [MayDo, Concludes, IsHanded]

/-- Apart from passes of `drain`, the hosts keep their order while something waits. -/
theorem apply_sublist {e : Event} (hdrain : ∀ o, e ≠ .drain o) (hwaits : (m.apply e).Waits host q) :
    m.order.Sublist (m.apply e).order := by
  cases e with
  | query o q => exact query_sublist
  | drain o => exact absurd rfl (hdrain o)
  | reply now message datagram sender =>
    simp only [RpcManager.apply, RpcManager.handleReply]
    split
    · exact .refl _
    · split <;> exact .refl _
  | expire now tids =>
    simp only [RpcManager.apply, RpcManager.expire]
    split_ifs <;> exact .refl _
  | resume =>
    simp only [RpcManager.apply, RpcManager.resume]
    split
    · exact .refl _
    · exact .refl _
    · split <;> exact .refl _
  | deliver =>
    simp only [RpcManager.apply, RpcManager.deliver]
    split <;> exact .refl _
  | setHostLimit _ | setMaxPending _ | setReadOnly _ | setBudget _ => exact .refl _
  | cancelAll =>
    obtain ⟨queue, hlookup, -⟩ := hwaits
    simp [RpcManager.apply, RpcManager.cancelAll] at hlookup

/-- Whatever happens, the query stays behind the host until that is considered. -/
theorem Guarding.apply (h : m.Guarding log host newcomer serial) (hwaiting : m.Waiting none none)
    (hne : host ≠ newcomer) (e : Event) :
    ∃ outputs, (m.apply e).log = m.log ++ outputs ∧
      (m.apply e).Guarding (log ++ outputs) host newcomer serial := by
  by_cases hdrain : ∀ o, e ≠ .drain o
  · obtain ⟨outputs, hlog, hhanded⟩ := adds_apply_handed hdrain h.lt
    refine ⟨outputs, hlog, h.of_sublist (calls_le_apply m e) (fun h' q hq hserial => ?_) hhanded
      fun h' q hq _ hsublist => hsublist.trans (apply_sublist hdrain hq)⟩
    rcases hq.of_apply with hq | ⟨o, q', -, rfl, -⟩
    · exact hq
    · exact absurd hserial.symm h.lt.ne
  · push Not at hdrain
    obtain ⟨o, rfl⟩ := hdrain
    exact h.drain hwaiting hne o

theorem guarding_run (hne : host ≠ newcomer) : ∀ {events : List Event} {m : RpcManager}
    {log : List Output}, m.Guarding log host newcomer serial → m.Waiting none none →
      ∃ outputs, (m.run events).log = m.log ++ outputs ∧
        (m.run events).Guarding (log ++ outputs) host newcomer serial
  | [], _, _, h, _ => ⟨[], (List.append_nil _).symm, by rw [List.append_nil]; exact h⟩
  | e :: events, m, log, h, hwaiting => by
    obtain ⟨outputs, hlog, hguarding⟩ := h.apply hwaiting hne e
    obtain ⟨outputs', hlog', hguarding'⟩ := guarding_run (m := m.apply e) hne hguarding
      (hwaiting.apply (fun n hn => absurd hn (Option.not_mem_none n)) e)
    refine ⟨outputs ++ outputs', ?_, ?_⟩
    · rw [← List.append_assoc, ← hlog]
      exact hlog'
    · rw [← List.append_assoc]
      exact hguarding'

/-! ## Newcomers -/

/-- A query to a host with no queue is queued exactly if something holds it back and
    not too many are, and then its host is put at the back of the order. -/
theorem waits_query_iff (hlookup : m.queues.lookup q.dest.address = none) :
    ((m.query o q).Waits q.dest.address { q with serial := m.calls } ↔
      ((m.call q).consider q.dest o.now).2 ≠ .sent ∧ m.queuedTotal < MaxQueuedTotal) ∧
    ((m.query o q).Waits q.dest.address { q with serial := m.calls } →
      (m.query o q).order = m.order ++ [q.dest.address]) := by
  have hqueues : (m.considering o q).queues = m.queues := considering_keeps.1
  have hnone : ∀ m' : RpcManager, m'.queues = m.queues → ∀ q', ¬m'.Waits q.dest.address q' := by
    rintro m' hm' q' ⟨queue, hsome, -⟩
    rw [hm', hlookup] at hsome
    cases hsome
  apply query_cases (P := fun m' => (m'.Waits q.dest.address { q with serial := m.calls } ↔
    ((m.call q).consider q.dest o.now).2 ≠ .sent ∧ m.queuedTotal < MaxQueuedTotal) ∧
    (m'.Waits q.dest.address { q with serial := m.calls } → m'.order = m.order ++ [q.dest.address]))
  case sent =>
    intro _ hsent
    have hwaits := hnone _ (send_queues (m := m.considering o q) (o := o)
      (q := { q with serial := m.calls }) |>.trans hqueues) { q with serial := m.calls }
    exact ⟨iff_of_false hwaits fun h => h.1 hsent, fun h => absurd h hwaits⟩
  case full =>
    intro _ _ hmax
    have hwaits := hnone ((m.considering o q).refuse { q with serial := m.calls } o.now) hqueues
      { q with serial := m.calls }
    exact ⟨iff_of_false hwaits fun h => not_lt.2 hmax h.2, fun h => absurd h hwaits⟩
  case first =>
    intro _ hsent hmax
    refine ⟨iff_of_true ?_ ⟨hsent, hmax⟩, fun _ => rfl⟩
    exact ⟨_, AList.lookup_insert _, List.mem_append_right _ List.mem_cons_self⟩
  case refused =>
    intro queue hsome
    rw [hlookup] at hsome
    cases hsome
  case queued =>
    intro queue hsome
    rw [hlookup] at hsome
    cases hsome

/-- While a host is held back, a query to another one with no queue, which is charged to the
    budget, is queued, and sent only once each host held back was considered again, exactly if
    the last pass held a host back, or the query is itself held back, and the queues are not
    full. -/
theorem yields_iff (nextId : UInt16) (before : List Event) (o : Outside) (q : Queued)
    (hlookup : ((new nextId).run before).queues.lookup q.dest.address = none)
    (_hcharged : ((new nextId).run before).charges q.dest o.now)
    (_hback : ∃ host, ((new nextId).run before).HeldBack host) :
    let m := (new nextId).run before
    m.Yields o q ↔ (m.budgetExhausted ∨ ¬m.canSendNow ∨ ¬(m.affordable q.dest o.now).2 ∨
      ¬(m.limiter.allow q.dest.address o.now).2) ∧ m.queuedTotal < MaxQueuedTotal := by
  intro m
  have hwaiting : m.Waiting none none := waiting_run (waiting_new nextId)
  have hnumbered : m.Numbered := numbered_run (numbered_new nextId)
  obtain ⟨hiff, horder⟩ := waits_query_iff (o := o) hlookup
  have hsent : ((m.call q).consider q.dest o.now).2 = .sent ↔ m.budgetExhausted = false ∧
      m.canSendNow ∧ (m.affordable q.dest o.now).2 ∧ (m.limiter.allow q.dest.address o.now).2 :=
    consider_sent
  have hheld : ((m.call q).consider q.dest o.now).2 ≠ .sent ↔ m.budgetExhausted ∨ ¬m.canSendNow ∨
      ¬(m.affordable q.dest o.now).2 ∨ ¬(m.limiter.allow q.dest.address o.now).2 := by
    rw [ne_eq, hsent, not_and_or, not_and_or, not_and_or, Bool.not_eq_false]
  rw [← hheld, ← hiff]
  refine ⟨fun h => h.1, fun hwaits => ⟨hwaits, fun host hback after outputs hlog => ?_⟩⟩
  have hne : host ≠ q.dest.address := by
    rintro rfl
    exact AList.lookup_eq_none.1 hlookup hback.1
  have hguarding : (m.query o q).Guarding [] host q.dest.address m.calls := by
    refine ⟨query_calls.symm ▸ Nat.lt_succ_self _, fun h' q' hq' hserial => ?_, ?_,
      .inr fun _ _ _ _ => ?_⟩
    · rcases hq'.of_query with hq' | ⟨-, rfl⟩
      · exact absurd hserial (hnumbered h' q' hq').ne
      · rfl
    · intro before x after hnil
      simp at hnil
    · rw [horder hwaits]
      exact (List.singleton_sublist.2 ((hwaiting.mem_order host).2 hback.1)).append (.refl _)
  obtain ⟨outputs', hlog', hguarding'⟩ := guarding_run hne hguarding
    (hwaiting.query (fun n hn => absurd hn (Option.not_mem_none n)) o q)
  rw [hlog, List.append_cancel_left_eq] at hlog'
  rw [hlog', ← List.nil_append outputs']
  exact hguarding'.guarded

/-- Three queries to new endpoints of different hosts under a budget of one contact a
    second: one is sent, one finds no contact left, and one is made a moment later. -/
def overtaken : List Event :=
  [.setBudget (some (({} : ContactBudget).setLimit 1 0)),
    .query { now := 0 } { serial := 0, dest := ⟨.ipv4 1, 1⟩ },
    .query { now := 960 } { serial := 0, dest := ⟨.ipv4 2, 1⟩ }]

theorem heldBack_overtaken : ((new 0).run overtaken).HeldBack (.ipv4 2) := by
  have hverdict : (verdictsOf ((new 0).run overtaken).log (.ipv4 2)).getLast? =
      some .unaffordable := by decide +kernel
  exact ⟨by decide +kernel, .unaffordable, hverdict, .inl rfl⟩

/-- A query made just after, when there is still no contact left, is queued behind it. -/
theorem yields_iff_overtaken :
    ((new 0).run overtaken).Yields { now := 970 } { serial := 0, dest := ⟨.ipv4 3, 1⟩ } :=
  (yields_iff 0 overtaken { now := 970 } { serial := 0, dest := ⟨.ipv4 3, 1⟩ } (by decide +kernel)
    (by decide +kernel) ⟨_, heldBack_overtaken⟩).2
    ⟨.inr (.inr (.inl (by decide +kernel))), by decide +kernel⟩

/-- The query made last is sent at once, though a host is held back. -/
theorem not_yields_overtaken :
    let m := (new 0).run overtaken
    let q : Queued := { serial := 0, dest := ⟨.ipv4 3, 1⟩ }
    m.queues.lookup q.dest.address = none ∧ m.charges q.dest 1000 ∧ m.HeldBack (.ipv4 2) ∧
      ¬m.Yields { now := 1000 } q := by
  intro m q
  have hlookup : m.queues.lookup q.dest.address = none := by decide +kernel
  have hsent : ((m.call q).consider q.dest 1000).2 = .sent := by decide +kernel
  refine ⟨hlookup, by decide +kernel, heldBack_overtaken, fun h => ?_⟩
  exact ((waits_query_iff hlookup).1.1 h.1).1 hsent

end RpcManager

end Dht
