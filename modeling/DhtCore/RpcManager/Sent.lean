import DhtCore.RpcManager.Timeouts

/-!
# What is sent

Every datagram that is handed to the operating system is its query, encoded under a
transaction id of two bytes, whenever it leaves: at once, or after it has waited (`encodes_run`).
-/

namespace Dht

namespace RpcManager

variable {m m' : RpcManager} {o : Outside} {q : Queued} {host : HostAddress}
  {log outputs : List Output}

/-- A datagram that was handed over is the encoding of the query that was called for. -/
def AsCalled (log : List Output) : Output → Prop
  | .handed serial tid datagram dest _ _ _ => tid.length = 2 ∧ ∃ q readOnly,
      (callsOf log)[serial]? = some q ∧ dest = q.dest ∧
      datagram = Krpc.encodeQuery tid q.method q.arguments q.version readOnly
  | _ => True

/-- All datagrams that were handed over are. -/
def Encodes (m : RpcManager) : Prop := ∀ x ∈ m.log, AsCalled m.log x

theorem AsCalled.append {x : Output} (h : AsCalled log x) : AsCalled (log ++ outputs) x := by
  cases x with
  | handed serial tid datagram dest now accepted charged =>
    obtain ⟨htid, q, readOnly, hasked, hdest, hdatagram⟩ := h
    exact ⟨htid, q, readOnly, asked_append hasked, hdest, hdatagram⟩
  | _ => trivial

theorem Encodes.append (h : m.Encodes) (hlog : m'.log = m.log ++ outputs)
    (houtputs : ∀ x ∈ outputs, AsCalled m.log x) : m'.Encodes := by
  intro x hx
  rw [hlog] at hx ⊢
  exact ((List.mem_append.1 hx).elim (h x) (houtputs x)).append

theorem Encodes.congr (h : m.Encodes) (hlog : m'.log = m.log) : m'.Encodes := by
  rw [Encodes, hlog]
  exact h

theorem Encodes.adds {P : Output → Prop} (h : m.Encodes) (hadds : Adds P m.log m'.log)
    (hP : ∀ x, P x → AsCalled m.log x) : m'.Encodes := by
  obtain ⟨outputs, hlog, houtputs⟩ := hadds
  exact h.append hlog fun x hx => hP x (houtputs x hx)

theorem length_nextTransactionId (m : RpcManager) : m.nextTransactionId.1.length = 2 := by
  rw [nextTransactionId]
  cases hloop : m.nextIdLoop 65536 m.nextId with
  | some next =>
    have hlength : ∀ {fuel : ℕ} {n : UInt16}, m.nextIdLoop fuel n = some next →
        next.1.length = 2 := by
      intro fuel
      induction fuel with
      | zero => exact fun h => by simp [nextIdLoop] at h
      | succ fuel ih =>
        intro n h
        rw [nextIdLoop] at h
        split_ifs at h
        · exact ih h
        · rw [← Option.some.inj h, tidOf, List.length_cons, List.length_singleton]
    exact hlength hloop
  | none => rfl

theorem Encodes.reportNotSent (h : m.Encodes) (serial : ℕ) (callback : Bool) (dest : Endpoint)
    (now : ℤ) : (m.reportNotSent serial callback dest now).Encodes := by
  rw [RpcManager.reportNotSent]
  cases callback <;> exact h.append rfl (by simp [AsCalled])

theorem Encodes.refuse (h : m.Encodes) (q : Queued) (now : ℤ) : (m.refuse q now).Encodes :=
  Encodes.reportNotSent (m := { m with refused := m.refused + 1 }) (h.congr rfl) q.serial q.callback
    q.dest now

theorem Encodes.send (h : m.Encodes) (hasked : (callsOf m.log)[q.serial]? = some q) :
    (m.send o q).Encodes := by
  have hdatagram : ∀ accepted charged, AsCalled m.log (.handed q.serial m.nextTransactionId.1
      (Krpc.encodeQuery m.nextTransactionId.1 q.method q.arguments q.version m.readOnly) q.dest
      (o.sendNow q.serial) accepted charged) :=
    fun _ _ => ⟨length_nextTransactionId m, q, m.readOnly, hasked, rfl, rfl⟩
  rw [RpcManager.send]
  dsimp only
  split
  · refine h.append rfl fun x hx => ?_
    rcases List.mem_cons.1 hx with rfl | hx
    · exact hdatagram _ _
    · cases hsent : q.onSent <;> simp_all [AsCalled]
  · refine Encodes.reportNotSent (h.append rfl fun x hx => ?_) _ _ _ _
    rw [List.mem_singleton.1 hx]
    exact hdatagram _ _

/-- A query that is called for is on record. -/
theorem asked_query (hsound : m.Sound) (o : Outside) (q : Queued) :
    (callsOf (m.query o q).log)[m.calls]? = some { q with serial := m.calls } := by
  obtain ⟨budget, limiter, hc⟩ := (m.call q).consider_fst q.dest o.now
  have hconsidering : Adds (fun _ => True) (m.call q).log (m.considering o q).log := by
    rw [considering, hc]
    exact adds_append (by simp)
  have hadds : Adds (fun _ => True) (m.call q).log (m.query o q).log := by
    apply query_cases (P := fun m' => Adds (fun _ => True) (m.call q).log m'.log)
    case sent => exact fun _ _ => hconsidering.trans (adds_send.imp fun _ _ => trivial)
    case full => exact fun _ _ _ => hconsidering.trans (adds_append (by simp))
    case first => exact fun _ _ _ => hconsidering
    case refused => exact fun _ _ => adds_append (by simp)
    case queued => exact fun _ _ _ _ => adds_refl
  obtain ⟨outputs, hlog, -⟩ := hadds
  rw [hlog]
  exact asked_append ((hsound.accounted.call q).hand _ rfl)

/-- A query that nothing holds back is handed over at once, under the next id if that is free. -/
theorem handed_of_sent (hlookup : m.queues.lookup q.dest.address = none)
    (hsent : ((m.call q).consider q.dest o.now).2 = .sent) (haccepts : o.accepts m.calls)
    (hfree : tidOf m.nextId ∉ m.pending) :
    ∃ now charged, .handed m.calls (tidOf m.nextId)
      (Krpc.encodeQuery (tidOf m.nextId) q.method q.arguments q.version m.readOnly) q.dest
      now true charged ∈ (m.query o q).log := by
  obtain ⟨budget, limiter, hc⟩ := (m.call q).consider_fst q.dest o.now
  have htaken : (m.considering o q).send o { q with serial := m.calls } = _ :=
    send_of_accepts haccepts
  have hid : (m.considering o q).nextTransactionId = (tidOf m.nextId, m.nextId + 1) := by
    rw [considering, hc]
    exact nextTransactionId_of_free hfree
  have hreadOnly : (m.considering o q).readOnly = m.readOnly := by rw [considering, hc]; rfl
  rw [query_of_sent hlookup hsent, htaken, pendingFor, hid, hreadOnly]
  exact ⟨_, _, List.mem_append_right _ List.mem_cons_self⟩

theorem Encodes.query (h : m.Encodes) (hsound : m.Sound) : (m.query o q).Encodes := by
  obtain ⟨budget, limiter, hc⟩ := (m.call q).consider_fst q.dest o.now
  have hcall : (m.call q).Encodes := h.append rfl (by simp [AsCalled])
  have hconsidering : (m.considering o q).Encodes := by
    rw [considering, hc]
    exact hcall.append rfl (by simp [AsCalled])
  apply query_cases (P := Encodes)
  case sent =>
    intro _ _
    refine hconsidering.send ?_
    -- The query in hand is the one called last.
    rw [considering, hc]
    exact asked_append ((hsound.accounted.call q).hand _ rfl)
  case full => exact fun _ _ _ => hconsidering.refuse _ _
  case first => exact fun _ _ _ => hconsidering.congr rfl
  case refused => exact fun _ _ => hcall.refuse _ _
  case queued => exact fun _ _ _ _ => hcall.congr rfl

theorem Encodes.turn (h : m.Encodes) (hsound : m.Sound) : (m.turn o host).1.Encodes := by
  have hrotate : ∀ {m' : RpcManager}, m'.Encodes → (m'.rotate host).Encodes :=
    fun h => h.congr rotate_log
  apply turn_cases (P := fun r => r.1.Encodes)
  case gone => exact fun _ => h
  case empty => exact fun _ => hrotate h
  case unaffordable => exact fun _ _ _ _ => hrotate (h.append rfl (by simp [AsCalled]))
  case limited => exact fun _ _ _ _ _ => hrotate (h.append rfl (by simp [AsCalled]))
  case sent =>
    intro q rest hq _ _
    have hserved : (m.served o host q rest).Encodes := h.append rfl (by simp [AsCalled])
    refine hrotate (hserved.send ?_)
    exact asked_append (hsound.accounted.waits host q ⟨_, hq, List.mem_cons_self⟩)

theorem Encodes.drain (h : m.Encodes) (hsound : m.Sound) : (m.drain o).Encodes := by
  have hloop : (drainLoop o m.order.length m false).1.Encodes ∧
      (drainLoop o m.order.length m false).1.Sound := drainLoop_induction
    (P := fun m => m.Encodes ∧ m.Sound)
    (fun m hosts h => ⟨h.1.append rfl (by simp [AsCalled]),
      h.2.1.idle rfl rfl rfl rfl rfl (by simp [Idle]), h.2.2⟩)
    (fun m host order _ hcan h => by
      have hsound' : Sound { m with order } := ⟨h.2.1.congr rfl rfl rfl rfl rfl, h.2.2⟩
      exact ⟨Encodes.turn (m := { m with order }) (h.1.congr rfl) hsound', hsound'.turn hcan⟩)
    ⟨h, hsound⟩
  rw [RpcManager.drain]
  dsimp only
  split_ifs <;> exact hloop.1.congr rfl

theorem Encodes.apply (h : m.Encodes) (hsound : m.Sound) (e : Event) : (m.apply e).Encodes := by
  cases e with
  | query o q => exact h.query hsound
  | drain o => exact h.drain hsound
  | _ =>
    obtain ⟨outputs, hlog, hmay⟩ := adds_apply m _
    refine h.append hlog fun x hx => ?_
    have := hmay x hx
    cases x <;> simp_all [AsCalled, MayDo, Concludes]

theorem encodes_run : ∀ {events : List Event} {m : RpcManager}, m.Encodes → m.Sound →
    (∀ e ∈ events, e.KeepsQueries) → (m.run events).Encodes
  | [], _, h, _, _ => h
  | e :: _, m, h, hsound, hkeeps =>
    encodes_run (m := m.apply e) (h.apply hsound e) (hsound.apply (hkeeps e List.mem_cons_self))
      fun e' he' => hkeeps e' (List.mem_cons_of_mem _ he')

end RpcManager

end Dht
