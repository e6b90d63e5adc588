import DhtCore.RpcManager.Outcome

/-!
# Timeouts

If no transaction id that `expire` has still to come to is given out again, whatever awaits
its reply with such an id timed out (`Calm`), and no query times out too early
(`InTime.apply`).

Otherwise one may. Once all transaction ids were used, a query that the callbacks of
`expire` make takes the id of one that they had answered, and that `expire` is to
conclude (`not_inTime_wrapAround`).
-/

namespace Dht

namespace RpcManager

variable {m m' : RpcManager} {o : Outside} {q : Queued} {host : HostAddress}
  {log outputs : List Output} {now : ℤ}

/-! ## Calm runs -/

/-- No transaction id that a call of `expire` has still to come to is given out again. -/
def CalmRun : RpcManager → List Event → Prop
  | _, [] => True
  | m, e :: events =>
    (∀ frame ∈ m.expiring, ∀ tid ∈ frame.2, tid ∈ (m.apply e).pending → tid ∈ m.pending) ∧
      CalmRun (m.apply e) events

/-- What awaits its reply with an id that `expire` has still to come to timed out. -/
def Calm (m : RpcManager) : Prop :=
  ∀ frame ∈ m.expiring, ∀ tid ∈ frame.2, ∀ p, m.pending.lookup tid = some p → p.deadline ≤ frame.1

/-- A query was sent long enough ago to time out. -/
def Overdue (log : List Output) (serial : ℕ) (now : ℤ) : Prop :=
  ∃ q tid datagram sentAt charged, (callsOf log)[serial]? = some q ∧
    .handed serial tid datagram q.dest sentAt true charged ∈ log ∧ sentAt + q.timeoutMs ≤ now

/-- Queries time out no earlier than they may. -/
def InTime (log : List Output) : Prop :=
  ∀ serial reply now, .concluded serial reply now ∈ log → reply.status = .Timeout →
    Overdue log serial now

theorem InTime.append (h : InTime log) (hnew : ∀ serial reply now,
    .concluded serial reply now ∈ outputs → reply.status = .Timeout → Overdue log serial now) :
    InTime (log ++ outputs) := by
  intro serial reply now hmem hstatus
  obtain ⟨q, tid, datagram, sentAt, charged, hasked, hhanded, hle⟩ : Overdue log serial now :=
    (List.mem_append.1 hmem).elim (fun hmem => h serial reply now hmem hstatus)
      (fun hmem => hnew serial reply now hmem hstatus)
  exact ⟨q, tid, datagram, sentAt, charged, asked_append hasked,
    List.mem_append_left _ hhanded, hle⟩

/-- A query that awaits its reply past its deadline is overdue. -/
theorem SentAs.overdue {tid : Bytes} {p : Pending} (h : SentAs log tid p q)
    (hdeadline : p.deadline ≤ now) :
    Overdue log p.serial now := by
  obtain ⟨charged, hhanded⟩ := h.handed
  exact ⟨q, tid, p.request, p.sentAt, charged, h.asked, h.dest ▸ hhanded, h.deadline ▸ hdeadline⟩

/-- What awaits its reply goes on to do so. -/
structure Retains (m m' : RpcManager) : Prop where
  expiring : m'.expiring = m.expiring
  lookup : ∀ tid p, m.pending.lookup tid = some p → m'.pending.lookup tid = some p

theorem Retains.trans {m'' : RpcManager} (h : Retains m m') (h' : Retains m' m'') : Retains m m'' :=
  ⟨h'.expiring.trans h.expiring, fun tid p hp => h'.lookup tid p (h.lookup tid p hp)⟩

theorem retains_of_eq (hexpiring : m'.expiring = m.expiring) (hpending : m'.pending = m.pending) :
    Retains m m' :=
  ⟨hexpiring, fun _ _ hp => hpending ▸ hp⟩

theorem Calm.retain (h : m.Calm) (hretains : Retains m m')
    (hold : ∀ frame ∈ m.expiring, ∀ tid ∈ frame.2, tid ∈ m'.pending → tid ∈ m.pending) :
    m'.Calm := by
  intro frame hframe tid htid p hp
  rw [hretains.expiring] at hframe
  have hmem := hold frame hframe tid htid (AList.lookup_isSome.1 (Option.isSome_of_eq_some hp))
  obtain ⟨p', hp'⟩ := Option.isSome_iff_exists.1 (AList.lookup_isSome.2 hmem)
  obtain rfl := Option.some.inj ((hretains.lookup tid p' hp').symm.trans hp)
  exact h frame hframe tid htid p' hp'

/-- What stops awaiting its reply, or is no longer to be concluded, does not matter. -/
theorem Calm.mono (h : m.Calm)
    (hexpiring : ∀ frame ∈ m'.expiring, ∃ tids, (frame.1, tids) ∈ m.expiring ∧ frame.2 ⊆ tids)
    (hpending : ∀ tid p, m'.pending.lookup tid = some p → m.pending.lookup tid = some p) :
    m'.Calm := by
  intro frame hframe tid htid p hp
  obtain ⟨tids, hmem, hsub⟩ := hexpiring frame hframe
  exact h _ hmem tid (hsub htid) p (hpending tid p hp)

theorem lookup_of_lookup_erase {pending : AList fun _ : Bytes => Pending} {tid tid' : Bytes}
    {p : Pending} (h : (pending.erase tid').lookup tid = some p) :
    pending.lookup tid = some p := by
  by_cases heq : tid = tid'
  · rw [heq, AList.lookup_erase] at h
    cases h
  · rwa [AList.lookup_erase_ne heq] at h

theorem retains_send (hfree : m.nextTransactionId.1 ∉ m.pending) : Retains m (m.send o q) := by
  by_cases haccepts : o.accepts q.serial
  · rw [send_of_accepts haccepts]
    refine ⟨rfl, fun tid p hp => ?_⟩
    have hne : tid ≠ m.nextTransactionId.1 := by
      rintro rfl
      rw [AList.lookup_eq_none.2 hfree] at hp
      cases hp
    exact (AList.lookup_insert_ne hne).trans hp
  · rw [send_of_refuses (Bool.eq_false_iff.2 haccepts) hfree]
    exact retains_of_eq rfl rfl

theorem retains_query (hmax : m.maxPending ≤ 65536) : Retains m (m.query o q) := by
  obtain ⟨budget, limiter, hc⟩ := (m.call q).consider_fst q.dest o.now
  have hconsidering : Retains m (m.considering o q) := by
    rw [considering, hc]
    exact retains_of_eq rfl rfl
  apply query_cases (P := Retains m)
  case sent =>
    intro _ hsent
    have hcan : (m.considering o q).canSendNow := by
      rw [considering, hc]
      exact (consider_sent.1 hsent).2.1
    have hmax' : (m.considering o q).maxPending ≤ 65536 := by
      rw [considering, hc]
      exact hmax
    exact hconsidering.trans (retains_send (free_of_canSendNow hmax' hcan))
  case full => exact fun _ _ _ => hconsidering.trans (retains_of_eq rfl rfl)
  case first => exact fun _ _ _ => hconsidering.trans (retains_of_eq rfl rfl)
  case refused => exact fun _ _ => retains_of_eq rfl rfl
  case queued => exact fun _ _ _ _ => retains_of_eq rfl rfl

theorem Retains.rotate (h : Retains m m') : Retains m (m'.rotate host) := by
  rw [RpcManager.rotate]
  split_ifs <;> exact h.trans (retains_of_eq rfl rfl)

theorem retains_turn (hmax : m.maxPending ≤ 65536) (hcan : m.canSendNow) :
    Retains m (m.turn o host).1 := by
  apply turn_cases (P := fun r => Retains m r.1)
  case gone => exact fun _ => retains_of_eq rfl rfl
  case empty => exact fun _ => Retains.rotate (retains_of_eq rfl rfl)
  case unaffordable =>
    refine fun _ _ _ _ => Retains.rotate ?_
    exact retains_of_eq rfl rfl
  case limited =>
    refine fun _ _ _ _ _ => Retains.rotate ?_
    exact retains_of_eq rfl rfl
  case sent =>
    intro q rest _ _ _
    have hfree : (m.served o host q rest).nextTransactionId.1 ∉ (m.served o host q rest).pending :=
      free_of_canSendNow hmax hcan
    refine Retains.rotate (Retains.trans ?_ (retains_send hfree))
    exact retains_of_eq rfl rfl

theorem retains_drain (h : m.Sound) : Retains m (m.drain o) := by
  have hloop : Retains m (drainLoop o m.order.length m false).1 ∧
      (drainLoop o m.order.length m false).1.Sound := by
    refine drainLoop_induction (P := fun m' => Retains m m' ∧ m'.Sound)
      (fun m' hosts h => ⟨h.1.trans (retains_of_eq rfl rfl),
        h.2.1.idle rfl rfl rfl rfl rfl (by simp [Idle]), h.2.2⟩)
      (fun m' host order _ hcan h => ?_) ⟨retains_of_eq rfl rfl, h⟩
    have hsound : Sound { m' with order } := ⟨h.2.1.congr rfl rfl rfl rfl rfl, h.2.2⟩
    refine ⟨h.1.trans (Retains.trans (retains_of_eq rfl rfl : m'.Retains { m' with order }) ?_), ?_⟩
    · exact retains_turn h.2.2 hcan
    · exact hsound.turn hcan
  rw [RpcManager.drain]
  dsimp only
  split_ifs <;> exact hloop.1.trans (retains_of_eq rfl rfl)

theorem mem_pending_of_resume {tid : Bytes} (h : tid ∈ m.resume.pending) : tid ∈ m.pending := by
  simp only [RpcManager.resume] at h
  split at h
  · exact h
  · exact h
  · split at h
    · exact h
    · exact (AList.mem_erase.1 h).2

theorem Calm.apply (h : m.Calm) (hsound : m.Sound) {e : Event}
    (hcalm : ∀ frame ∈ m.expiring, ∀ tid ∈ frame.2, tid ∈ (m.apply e).pending → tid ∈ m.pending)
    (hkeeps : e.KeepsQueries) : (m.apply e).Calm := by
  -- Where no call begins or goes on, the calls under way are the same.
  have hsame : ∀ frame ∈ m.expiring, ∃ tids, (frame.1, tids) ∈ m.expiring ∧ frame.2 ⊆ tids :=
    fun frame hframe => ⟨frame.2, hframe, fun _ => id⟩
  cases e with
  | query o q => exact h.retain (retains_query hsound.maxPending_le) hcalm
  | drain o => exact h.retain (retains_drain hsound) hcalm
  | reply now message datagram sender =>
    simp only [RpcManager.apply, RpcManager.handleReply]
    split
    · exact h
    · split
      · exact h
      · exact h.mono hsame fun _ _ => lookup_of_lookup_erase
  | expire now tids =>
    have hexpiring : (m.apply (.expire now tids)).expiring = (now,
        tids.filter fun tid => (m.pending.lookup tid).any fun p => p.deadline ≤ now) ::
          m.expiring := by
      simp only [RpcManager.apply, RpcManager.expire]
      split_ifs <;> rfl
    have hpending : (m.apply (.expire now tids)).pending = m.pending := by
      simp only [RpcManager.apply, RpcManager.expire]
      split_ifs <;> rfl
    intro frame hframe tid htid p hp
    rw [hpending] at hp
    rcases List.mem_cons.1 (hexpiring ▸ hframe) with rfl | hframe
    · -- The call that begins collects what is due only.
      have hdue := (List.mem_filter.1 htid).2
      rwa [hp, Option.any_some, decide_eq_true_eq] at hdue
    · exact h frame hframe tid htid p hp
  | resume =>
    simp only [RpcManager.apply, RpcManager.resume]
    split
    next => exact h
    next now frames hexpiring =>
      exact h.mono (fun frame hframe => hsame frame (hexpiring ▸ .tail _ hframe)) fun _ _ => id
    next now tid tids frames hexpiring =>
      -- The call under way goes on with one id less.
      have hrest : ∀ frame ∈ (now, tids) :: frames,
          ∃ tids, (frame.1, tids) ∈ m.expiring ∧ frame.2 ⊆ tids := by
        intro frame hframe
        rcases List.mem_cons.1 hframe with rfl | hframe
        · exact ⟨tid :: tids, hexpiring ▸ List.mem_cons_self, List.subset_cons_self tid tids⟩
        · exact hsame frame (hexpiring ▸ .tail _ hframe)
      split
      next => exact h.mono hrest fun _ _ => id
      next => exact h.mono hrest fun _ _ => lookup_of_lookup_erase
  | deliver =>
    simp only [RpcManager.apply, RpcManager.deliver]
    split
    · exact h
    · exact h.mono hsame fun _ _ => id
  | setHostLimit _ | setMaxPending _ | setReadOnly _ | setBudget _ =>
    exact h.mono hsame fun _ _ => id
  | cancelAll => exact hkeeps.elim

theorem InTime.apply (h : InTime m.log) (hsound : m.Sound) (hcalm : m.Calm) (e : Event) :
    InTime (m.apply e).log := by
  by_cases hresume : e = .resume
  · subst hresume
    simp only [RpcManager.apply, RpcManager.resume]
    split
    next => exact h
    next => exact h
    next now tid tids frames hexpiring =>
      have hmem : (now, tid :: tids) ∈ m.expiring := hexpiring ▸ List.mem_cons_self
      cases hp : m.pending.lookup tid with
      | none => exact h
      | some p =>
        refine h.append fun serial reply now' hconcluded _ => ?_
        have hsame : serial = p.serial ∧ now' = now := by
          cases hcallback : p.callback <;> simp_all
        -- What expires was due when it was listed, and its id was not given out since.
        obtain ⟨q, hsent⟩ := hsound.accounted.pends tid p hp
        rw [hsame.1, hsame.2]
        exact hsent.overdue (hcalm _ hmem tid List.mem_cons_self p hp)
  · obtain ⟨outputs, hlog, hmay⟩ := adds_apply m e
    rw [hlog]
    refine h.append fun serial reply now hmem hstatus => ?_
    have := hmay _ hmem
    cases e <;> simp_all [MayDo, Sends, Concludes]

/-! ## Runs -/

theorem inTime_run : ∀ {events : List Event} {m : RpcManager}, m.Sound → m.Calm → InTime m.log →
    CalmRun m events → (∀ e ∈ events, e.KeepsQueries) → InTime (m.run events).log
  | [], _, _, _, h, _, _ => h
  | e :: _, m, hsound, hcalm, h, hcalmrun, hkeeps =>
    have hkeep := hkeeps e List.mem_cons_self
    inTime_run (m := m.apply e) (hsound.apply hkeep) (hcalm.apply hsound hcalmrun.1 hkeep)
      (h.apply hsound hcalm e) hcalmrun.2 fun e' he' => hkeeps e' (List.mem_cons_of_mem _ he')

/-- Every query has at most one outcome, and is somewhere until it has; and if no id that
    `expire` has still to come to is given out again, none times out too early. -/
theorem exactlyOnce_run (nextId : UInt16) (events : List Event)
    (hkeeps : ∀ e ∈ events, e.KeepsQueries) :
    ((new nextId).run events).ExactlyOnce ∧
      (CalmRun (new nextId) events → InTime ((new nextId).run events).log) :=
  ⟨(sound_run (sound_new nextId) hkeeps).exactlyOnce, fun hcalm =>
    inTime_run (sound_new nextId) (fun _ hframe => absurd hframe (by simp [new]))
      (fun _ _ _ hmem => absurd hmem (by simp [new])) hcalm hkeeps⟩

/-- A query is made, and times out after three seconds. -/
theorem exactlyOnce_run_query :
    let ask : Event := .query { now := 0 } { serial := 0, dest := default }
    let events := [ask, .expire 3000 ((new 0).apply ask).pending.keys, .resume]
    ((new 0).run events).ExactlyOnce ∧ InTime ((new 0).run events).log := by
  intro ask events
  obtain ⟨honce, hinTime⟩ := exactlyOnce_run 0 events (by simp [events, ask, Event.KeepsQueries])
  have hnone : ((new 0).apply ask).expiring = [] := (retains_query (by decide)).expiring
  refine ⟨honce, hinTime ⟨nofun, ?_, fun _ _ _ _ => mem_pending_of_resume, trivial⟩⟩
  exact fun frame hframe => absurd (hnone ▸ hframe) List.not_mem_nil

/-! ## A timeout that is too early -/

/-- The host limit is set afresh, and a query made, whose datagram the operating
    system takes or not. -/
def asks (now : ℤ) (accepted : Bool) : List Event :=
  [.setHostLimit {}, .query { now, accepts := fun _ => accepted } { serial := 0, dest := default }]

/-- A manager with nothing waiting and no budget, with so many ids used and some pending,
    and with some calls of `expire` under way. -/
structure Quiet (m : RpcManager) (used : ℕ) (pending : AList fun _ : Bytes => Pending)
    (frames : List (ℤ × List Bytes)) : Prop where
  queues : m.queues = ∅
  budget : m.budget = none
  budgetExhausted : m.budgetExhausted = false
  maxPending : m.maxPending = 60000
  nextId : m.nextId = UInt16.ofNat used
  pending : m.pending = pending
  expiring : m.expiring = frames

variable {used : ℕ} {pending : AList fun _ : Bytes => Pending} {frames : List (ℤ × List Bytes)}

theorem nextTransactionId_of_free (h : tidOf m.nextId ∉ m.pending) :
    m.nextTransactionId = (tidOf m.nextId, m.nextId + 1) := by
  have hloop : m.nextIdLoop (65535 + 1) m.nextId = some (tidOf m.nextId, m.nextId + 1) := by
    rw [nextIdLoop, if_neg h]
  rw [nextTransactionId, hloop, Option.getD_some]

/-- The query is sent at once. -/
theorem Quiet.run_asks (h : m.Quiet used pending frames) (hroom : pending.entries.length < 60000)
    (now : ℤ) (accepted : Bool) : ∃ limiter outputs, (∀ x ∈ outputs, Idle x) ∧
    m.run (asks now accepted) =
      send { m with
          hostLimit := {}, limiter, calls := m.calls + 1,
          log := m.log ++ .called { serial := m.calls, dest := default } :: outputs }
        { now, accepts := fun _ => accepted } { serial := m.calls, dest := default } := by
  set q : Queued := { serial := 0, dest := default }
  set m' := (m.setHostLimit {}).call q
  have hsent : (m'.consider q.dest now).2 = .sent := by
    refine consider_sent.2 ⟨h.budgetExhausted, ?_, ?_, ?_⟩
    · simpa [m', canSendNow, call, setHostLimit, note, h.pending, h.maxPending] using hroom
    · simp [m', affordable, call, setHostLimit, note, h.budget]
    · simp [m', RateLimiter.allow, call, setHostLimit, note]
  have hlookup : (m.setHostLimit {}).queues.lookup q.dest.address = none := by
    rw [show (m.setHostLimit {}).queues = ∅ from h.queues]
    rfl
  refine ⟨(m'.limiter.allow q.dest.address now).1,
    [.considered q.dest.address .sent], by simp [Idle], ?_⟩
  have hquery := query_of_sent (m := m.setHostLimit {}) (q := q)
    (o := { now, accepts := fun _ => accepted }) hlookup hsent
  refine Eq.trans hquery ?_
  rw [considering, consider_fst_of_sent hsent, hsent]
  simp only [m', q, call, note, setHostLimit, h.budget, Option.map_none, List.append_assoc,
    List.singleton_append]

/-- A datagram not taken uses an id up, and nothing else. -/
theorem Quiet.run_refused (h : m.Quiet used pending frames) (hroom : pending.entries.length < 60000)
    (hfree : tidOf (UInt16.ofNat used) ∉ pending) (now : ℤ) :
    (m.run (asks now false)).Quiet (used + 1) pending frames := by
  obtain ⟨limiter, outputs, -, hrun⟩ := h.run_asks hroom now false
  rw [← h.nextId, ← h.pending] at hfree
  set m' : RpcManager := { m with
    hostLimit := {}, limiter, calls := m.calls + 1,
    log := m.log ++ .called { serial := m.calls, dest := default } :: outputs }
  have hid : m'.nextTransactionId = (tidOf m.nextId, m.nextId + 1) :=
    nextTransactionId_of_free hfree
  have hfree' : m'.nextTransactionId.1 ∉ m'.pending := by
    rw [hid]
    exact hfree
  rw [hrun, send_of_refuses rfl hfree', hid, h.nextId]
  exact ⟨h.queues, h.budget, h.budgetExhausted, h.maxPending, (UInt16.ofNat_add ..).symm, h.pending,
    h.expiring⟩

/-- All ids but those pending may be used up. -/
theorem Quiet.run_replicate : ∀ {n : ℕ} {m : RpcManager} {used : ℕ}, m.Quiet used pending frames →
    pending.entries.length < 60000 → (∀ i < n, tidOf (UInt16.ofNat (used + i)) ∉ pending) →
      (m.run (List.replicate n (asks 0 false)).flatten).Quiet (used + n) pending frames
  | 0, _, _, h, _, _ => h
  | n + 1, m, used, h, hroom, hfree => by
    rw [List.replicate_succ, List.flatten_cons, run, List.foldl_append]
    have hnext := h.run_refused hroom (hfree 0 n.succ_pos) 0
    have := hnext.run_replicate (n := n) hroom fun i hi => by
      rw [Nat.add_right_comm]
      exact hfree (i + 1) (by omega)
    rwa [Nat.add_right_comm] at this

/-- A datagram taken awaits its reply. -/
theorem Quiet.run_accepted (h : m.Quiet used pending frames)
    (hroom : pending.entries.length < 60000) (hfree : tidOf (UInt16.ofNat used) ∉ pending)
    (now : ℤ) :
    ∃ p outputs, p.serial = m.calls ∧ p.dest = default ∧ p.deadline = now + 3000 ∧
      (m.run (asks now true)).Quiet (used + 1) (pending.insert (tidOf (UInt16.ofNat used)) p)
      frames ∧
      (m.run (asks now true)).log =
        m.log ++ .called { serial := m.calls, dest := default } :: outputs ∧
      (∀ serial tid datagram dest sentAt charged,
        .handed serial tid datagram dest sentAt true charged ∈ outputs → sentAt = now) ∧
      callsOf outputs = [] := by
  obtain ⟨limiter, outputs, hidle, hrun⟩ := h.run_asks hroom now true
  rw [← h.nextId, ← h.pending] at hfree
  set m' : RpcManager := { m with
    hostLimit := {}, limiter, calls := m.calls + 1,
    log := m.log ++ .called { serial := m.calls, dest := default } :: outputs }
  have hid : m'.nextTransactionId = (tidOf m.nextId, m.nextId + 1) :=
    nextTransactionId_of_free hfree
  set q : Queued := { serial := m.calls, dest := default }
  set o : Outside := { now, accepts := fun _ => true }
  refine ⟨m'.pendingFor o q, outputs ++ [.handed q.serial m'.nextTransactionId.1
    (m'.pendingFor o q).request q.dest now true (m'.charges q.dest now)], rfl, rfl,
    rfl, ?_, ?_, ?_, ?_⟩
  · rw [hrun, send_of_accepts rfl, hid, h.nextId]
    refine ⟨h.queues, ?_, h.budgetExhausted, h.maxPending, (UInt16.ofNat_add ..).symm, ?_,
      h.expiring⟩
    · simp [m', h.budget]
    · simp only [m', h.pending]
  · rw [hrun, send_of_accepts rfl]
    simp [m', q, o]
  · intro serial tid datagram dest sentAt charged hmem
    rcases List.mem_append.1 hmem with hmem | hmem
    · exact (hidle _ hmem).elim
    · simp at hmem
      exact hmem.2.2.2.2.1
  · rw [callsOf_append, (of_idle hidle).1]
    rfl

theorem legalRun_append : ∀ {events events' : List Event} {m : RpcManager}, LegalRun m events →
    LegalRun (m.run events) events' → LegalRun m (events ++ events')
  | [], _, _, _, h => h
  | _ :: _, _, _, h, h' => ⟨h.1, legalRun_append h.2 h'⟩

theorem legalRun_asks (now : ℤ) (accepted : Bool) : LegalRun m (asks now accepted) :=
  ⟨trivial, trivial, trivial⟩

theorem legalRun_replicate : ∀ {n : ℕ} {m : RpcManager},
    LegalRun m (List.replicate n (asks 0 false)).flatten
  | 0, _ => trivial
  | _ + 1, _ => legalRun_append (legalRun_asks 0 false) legalRun_replicate

theorem run_append (events events' : List Event) :
    m.run (events ++ events') = (m.run events).run events' :=
  List.foldl_append

theorem run_cons (e : Event) (events : List Event) :
    m.run (e :: events) = (m.apply e).run events := rfl

theorem run_nil : m.run [] = m := rfl

theorem apply_expire (now : ℤ) (tids : List Bytes) :
    m.apply (.expire now tids) = m.expire now tids := rfl

theorem apply_resume : m.apply .resume = m.resume := rfl

theorem apply_reply (now : ℤ) (message : Krpc.Message) (datagram : Bytes) (sender : Endpoint) :
    m.apply (.reply now message datagram sender) =
    (m.handleReply now message datagram sender).1 := rfl

/-- Two queries are sent, and all other ids used up. -/
def twoSent : List Event :=
  asks 0 true ++ (asks 0 true ++ (List.replicate 65534 (asks 0 false)).flatten)

/-- `expire` concludes one of the two, and the other is answered while it is under way. -/
def oneAnswered : List Event :=
  [.expire 3000 [tidOf 1, tidOf 0], .resume,
    .reply 3000 { type := .Response, transactionId := tidOf 0 } [] default]

/-- The query that is made then gets the id of the one answered, and is concluded by
    `expire` in its place. -/
def wrapAround : List Event := twoSent ++ (oneAnswered ++ (asks 3000 true ++ [.resume]))

theorem keepsQueries_wrapAround : ∀ e ∈ wrapAround, e.KeepsQueries := by
  have hasks : ∀ now accepted, ∀ e ∈ asks now accepted, e.KeepsQueries := by
    intro now accepted e he
    rcases List.mem_pair.1 he with rfl | rfl <;> trivial
  intro e he
  simp only [wrapAround, twoSent, oneAnswered, List.mem_append, List.mem_cons, List.not_mem_nil,
    or_false] at he
  rcases he with (he | he | he) | (rfl | rfl | rfl) | he | rfl
  · exact hasks _ _ e he
  · exact hasks _ _ e he
  · obtain ⟨events, hevents, he⟩ := List.mem_flatten.1 he
    exact hasks 0 false e (List.eq_of_mem_replicate hevents ▸ he)
  all_goals first | trivial | exact hasks _ _ e he

theorem tidOf_ofNat_ne {n k : ℕ} (hn : n < 65536) (hk : k < 65536) (hne : n ≠ k) :
    tidOf (UInt16.ofNat n) ≠ tidOf (UInt16.ofNat k) := by
  intro heq
  have := congrArg UInt16.toNat (tidOf_injective heq)
  rw [UInt16.toNat_ofNat', UInt16.toNat_ofNat'] at this
  omega

theorem run_twoSent : ∃ p p' : Pending, p.deadline = 3000 ∧ p'.deadline = 3000 ∧ p.dest = default ∧
    ((new 0).run twoSent).Quiet 65536 (((∅ : AList _).insert (tidOf 0) p).insert (tidOf 1) p')
    [] := by
  have hnew : (new 0).Quiet 0 ∅ [] := ⟨rfl, rfl, rfl, rfl, rfl, rfl, rfl⟩
  obtain ⟨p, -, -, hdest, hdeadline, hquiet, -⟩ := hnew.run_accepted (by simp) (by simp) 0
  have hfree : tidOf (UInt16.ofNat 1) ∉ (∅ : AList fun _ : Bytes => Pending).insert
      (tidOf 0) p := by
    rw [AList.mem_insert]
    rintro (heq | hmem)
    · exact tidOf_ofNat_ne (n := 1) (k := 0) (by norm_num) (by norm_num) one_ne_zero heq
    · exact AList.notMem_empty _ hmem
  obtain ⟨p', -, -, -, hdeadline', hquiet', -⟩ := hquiet.run_accepted (by simp) hfree 0
  refine ⟨p, p', hdeadline, hdeadline', hdest, ?_⟩
  rw [twoSent, run_append, run_append]
  -- The other identifiers are taken by queries that the socket refuses.
  refine hquiet'.run_replicate (n := 65534) ?_ fun i hi => ?_
  · change (((∅ : AList _).insert (tidOf 0) p).insert (tidOf (UInt16.ofNat 1))
      p').entries.length < 60000
    rw [AList.entries_insert_of_notMem hfree, AList.entries_insert_of_notMem (AList.notMem_empty _)]
    simp
  · rw [AList.mem_insert, AList.mem_insert]
    rintro (heq | heq | hmem)
    · exact tidOf_ofNat_ne (n := 0 + 1 + 1 + i) (k := 1) (by omega) (by norm_num) (by omega) heq
    · exact tidOf_ofNat_ne (n := 0 + 1 + 1 + i) (k := 0) (by omega) (by norm_num) (by omega) heq
    · exact AList.notMem_empty _ hmem

theorem Quiet.expire (h : m.Quiet used pending []) (now : ℤ) {tids : List Bytes}
    (hall : ∀ tid ∈ tids, (pending.lookup tid).any fun p => p.deadline ≤ now) :
    (m.expire now tids).Quiet used pending [(now, tids)] := by
  have hfilter : (tids.filter fun tid => (m.pending.lookup tid).any fun p => p.deadline ≤ now) =
      tids := by
    rw [List.filter_eq_self, h.pending]
    exact hall
  rw [RpcManager.expire]
  split_ifs <;>
  · refine ⟨h.queues, h.budget, h.budgetExhausted, h.maxPending, h.nextId, h.pending, ?_⟩
    simp only [hfilter, h.expiring]

theorem Quiet.resume {tid : Bytes} {tids : List Bytes} {p : Pending}
    (h : m.Quiet used pending ((now, tid :: tids) :: frames))
    (hlookup : pending.lookup tid = some p) :
    m.resume.Quiet used (pending.erase tid) ((now, tids) :: frames) ∧
      m.resume.log = m.log ++ .concluded p.serial
        { status := .Timeout, request := p.request, sender := p.dest } now ::
          if p.callback then [.ran p.serial
          { status := .Timeout, request := p.request, sender := p.dest }]
          else [] := by
  rw [RpcManager.resume, h.expiring]
  dsimp only
  rw [h.pending, hlookup]
  exact ⟨⟨h.queues, h.budget, h.budgetExhausted, h.maxPending, h.nextId, rfl, rfl⟩, rfl⟩

theorem Quiet.reply {p : Pending} (h : m.Quiet used pending frames) (message : Krpc.Message)
    (hlookup : pending.lookup message.transactionId = some p) (now : ℤ) (datagram : Bytes) :
    (m.handleReply now message datagram p.dest).1.Quiet used (pending.erase message.transactionId)
    frames := by
  rw [RpcManager.handleReply, h.pending, hlookup]
  dsimp only
  rw [if_neg (not_ne_iff.2 rfl)]
  exact ⟨h.queues, h.budget, h.budgetExhausted, h.maxPending, h.nextId, rfl, h.expiring⟩

theorem run_oneAnswered : ((new 0).run (twoSent ++ oneAnswered)).Quiet 65536 ∅
    [(3000, [tidOf 0])] := by
  obtain ⟨p, p', hdeadline, hdeadline', hdest, hquiet⟩ := run_twoSent
  rw [run_append]
  generalize (new 0).run twoSent = m at hquiet
  have hne : tidOf 0 ≠ tidOf 1 := tidOf_ofNat_ne (n := 0) (k := 1) (by norm_num)
      (by norm_num) zero_ne_one
  have hfree : tidOf 1 ∉ (∅ : AList fun _ : Bytes => Pending).insert (tidOf 0) p := by
    rw [AList.mem_insert, not_or]
    exact ⟨hne.symm, AList.notMem_empty _⟩
  -- Both are due; one is told, and the other is answered before its turn.
  have hexpired := hquiet.expire 3000 <| by
    intro tid (htid : tid ∈ [tidOf 1, tidOf 0])
    rcases List.mem_pair.1 htid with rfl | rfl
    · rw [AList.lookup_insert, Option.any_some, hdeadline', decide_eq_true_iff]
    · rw [AList.lookup_insert_ne hne, AList.lookup_insert, Option.any_some, hdeadline,
        decide_eq_true_iff]
  have hresumed := (hexpired.resume (AList.lookup_insert _)).1
  rw [Replacing.erase_insert hfree] at hresumed
  have hreplied := hresumed.reply { type := .Response, transactionId := tidOf 0 }
    (AList.lookup_insert _) 3000 []
  rw [Replacing.erase_insert (AList.notMem_empty _), hdest] at hreplied
  rw [oneAnswered, run_cons, run_cons, run_cons, run_nil, apply_expire, apply_resume, apply_reply]
  exact hreplied

theorem legalRun_wrapAround : LegalRun (new 0) wrapAround := by
  have hsent : LegalRun (new 0) twoSent :=
    legalRun_append (legalRun_asks _ _) (legalRun_append (legalRun_asks _ _) legalRun_replicate)
  obtain ⟨p, p', -, -, -, hquiet⟩ := run_twoSent
  refine legalRun_append hsent ?_
  generalize (new 0).run twoSent = m at hquiet
  have hkeys : [tidOf 1, tidOf 0].Perm m.pending.keys := by
    have hne : tidOf 1 ≠ tidOf 0 :=
      tidOf_ofNat_ne (n := 1) (k := 0) (by norm_num) (by norm_num) one_ne_zero
    rw [hquiet.pending, AList.keys_insert, AList.keys_insert]
    simp [hne.symm]
  exact legalRun_append ⟨hkeys, trivial, trivial, trivial⟩
    (legalRun_append (legalRun_asks _ _) ⟨trivial, trivial⟩)

/-- The query made last times out at the moment it is sent. -/
theorem not_inTime_wrapAround : LegalRun (new 0) wrapAround ∧ (∀ e ∈ wrapAround, e.KeepsQueries) ∧
    ¬InTime ((new 0).run wrapAround).log := by
  refine ⟨legalRun_wrapAround, keepsQueries_wrapAround, fun hin => ?_⟩
  have hquiet := run_oneAnswered
  have hsound : ((new 0).run (twoSent ++ oneAnswered)).Sound := by
    refine sound_run (sound_new 0) fun e he => keepsQueries_wrapAround e ?_
    rw [wrapAround, ← List.append_assoc]
    exact List.mem_append_left _ he
  rw [wrapAround, ← List.append_assoc, run_append, run_append] at hin
  generalize (new 0).run (twoSent ++ oneAnswered) = m at hquiet hsound hin
  obtain ⟨p, outputs, hserial, -, -, hquiet', hlog, hnow, hcallsOf⟩ :=
    hquiet.run_accepted (by simp) (by simp) 3000
  rw [run_cons, run_nil, apply_resume, (hquiet'.resume (AList.lookup_insert _)).2, hlog] at hin
  obtain ⟨q, tid, datagram, sentAt, charged, hasked, hhanded, hle⟩ :=
    hin p.serial _ 3000 (List.mem_append_right _ List.mem_cons_self) rfl
  -- The query is the one made last, and was sent when it was made.
  have hlength : (callsOf m.log).length = m.calls := by
    rw [← List.length_map, hsound.accounted.calls, List.length_range]
  have hq : q = { serial := m.calls, dest := default } := by
    have hcalls : callsOf (Output.called { serial := m.calls, dest := default } :: outputs) =
        [{ serial := m.calls, dest := default }] := congrArg (_ :: ·) hcallsOf
    rw [callsOf_append, callsOf_append, hcalls, hserial, List.append_assoc,
      List.getElem?_append_right hlength.le, hlength, Nat.sub_self] at hasked
    exact (Option.some.inj hasked).symm
  have hsentAt : sentAt = 3000 := by
    rw [List.mem_append, List.mem_append, hserial] at hhanded
    rcases hhanded with (hold | hmade) | hconcluded
    · have haccepted : m.calls ∈ acceptedOf m.log := List.mem_filterMap.2 ⟨_, hold, rfl⟩
      exact absurd (hsound.accepted_lt haccepted) (lt_irrefl _)
    · rcases List.mem_cons.1 hmade with heq | hmade
      · cases heq
      · exact hnow _ _ _ _ _ _ hmade
    · cases hcallback : p.callback <;> simp_all
  rw [hsentAt, hq] at hle
  norm_num at hle

end RpcManager

end Dht
