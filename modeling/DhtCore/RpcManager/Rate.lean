import DhtCore.RpcManager.Queues

/-!
# The rate at which a host is sent queries

With a fixed host limit, no address is handed more datagrams in any window of
time than its burst and what its allowance gains in the window
(`RpcManager.handed_window_le`).

The limiter meters what was handed over, address by address (`Metered`): queries
sent at once and queries sent in a pass both take from it first, and nothing else
does.
-/

namespace Dht

namespace RpcManager

/-! ## The clock of a run -/

/-- The time once an event has happened. -/
def Event.clock (clock : ℤ) : Event → ℤ
  | .query o _ | .drain o => o.now
  | .reply now _ _ _ | .expire now _ => now
  | _ => clock

/-- An event is not earlier than the time it happens at, which does not advance while
    it does. -/
def Event.Timely (clock : ℤ) (e : Event) : Prop :=
  clock ≤ e.clock clock ∧
    match e with
    | .query o _ | .drain o => ∀ serial, o.sendNow serial = o.now
    | _ => True

/-- Events one after another, from a time on. -/
def TimelyRun : ℤ → List Event → Prop
  | _, [] => True
  | clock, e :: events => e.Timely clock ∧ TimelyRun (e.clock clock) events

/-! ## What was handed over -/

/-- When datagrams to an address were handed to the operating system. -/
def handedTimes (log : List Output) (address : HostAddress) : List ℤ :=
  log.filterMap fun
    | .handed _ _ _ dest sentAt _ _ => if dest.address = address then some sentAt else none
    | _ => none

/-- The limiter is as what was handed over leaves it, for every address. -/
structure Metered (l : RateLimiter) (log : List Output) (limit : HostLimit) (clock : ℤ) : Prop where
  rate : l.rate = limit.ratePerSecond
  burst : l.burst = limit.burst
  meters : ∀ address, l.Meters address ((handedTimes log address).map (↑)) clock

variable {m : RpcManager} {o : Outside} {q : Queued} {l : RateLimiter} {log outputs : List Output}
  {limit : HostLimit} {clock now : ℤ} {host address : HostAddress}

/-- What the manager did, other than handing a datagram over. -/
def Silent : Output → Prop
  | .handed .. => False
  | _ => True

theorem handedTimes_append :
    handedTimes (log ++ outputs) address = handedTimes log address ++ handedTimes outputs address :=
  List.filterMap_append

theorem handedTimes_of_silent (h : ∀ x ∈ outputs, Silent x) : handedTimes outputs address = [] := by
  rw [handedTimes, List.filterMap_eq_nil_iff]
  intro x hx
  cases x with
  | handed => exact (h _ hx).elim
  | _ => rfl

/-- Whatever else is done does not matter. -/
theorem Metered.append (h : Metered l log limit clock) (hsilent : ∀ x ∈ outputs, Silent x) :
    Metered l (log ++ outputs) limit clock := by
  refine ⟨h.rate, h.burst, fun address => ?_⟩
  rw [handedTimes_append, handedTimes_of_silent hsilent, List.append_nil]
  exact h.meters address

theorem Metered.mono (h : Metered l log limit clock) (hrate : 0 < limit.ratePerSecond)
    (hle : clock ≤ now) : Metered l log limit now :=
  ⟨h.rate, h.burst, fun address => (h.meters address).mono (h.rate ▸ hrate.le) hle⟩

/-- A host that has no allowance is not charged. -/
theorem Metered.allow_of_not (h : Metered l log limit clock) (hrate : 0 < limit.ratePerSecond)
    (hle : clock ≤ now) (hallow : (l.allow host now).2 = false) :
    Metered (l.allow host now).1 log limit now := by
  refine ⟨by simpa using h.rate, by simpa using h.burst, fun address => ?_⟩
  have := (h.meters address).allow (h.rate ▸ hrate.le) hle
  by_cases hne : address = host
  · subst hne
    rwa [hallow, if_neg Bool.false_ne_true] at this
  · exact ((h.meters address).mono (h.rate ▸ hrate.le) hle).allow_of_ne hne now

/-- A datagram handed over is charged to its host. -/
theorem Metered.allow (h : Metered l log limit clock) (hrate : 0 < limit.ratePerSecond)
    (hle : clock ≤ now) (hallow : (l.allow host now).2)
    (hhanded : ∀ address, handedTimes outputs address = if host = address then [now] else []) :
    Metered (l.allow host now).1 (log ++ outputs) limit now := by
  refine ⟨by simpa using h.rate, by simpa using h.burst, fun address => ?_⟩
  have := (h.meters address).allow (h.rate ▸ hrate.le) hle
  rw [handedTimes_append, hhanded]
  by_cases heq : host = address
  · subst heq
    rw [hallow, if_pos rfl] at this
    rw [if_pos rfl, List.map_append]
    exact this
  · rw [if_neg heq, List.append_nil]
    exact ((h.meters address).mono (h.rate ▸ hrate.le) hle).allow_of_ne (Ne.symm heq) now

/-! ## Events -/

theorem send_limiter : (m.send o q).limiter = m.limiter := by
  rw [send]
  dsimp only
  split <;> rfl

/-- Sending a query hands one datagram over, to its endpoint. -/
theorem send_log : ∃ outputs, (m.send o q).log = m.log ++ outputs ∧
    ∀ address, handedTimes outputs address =
      if q.dest.address = address then [o.sendNow q.serial] else [] := by
  rw [send]
  dsimp only
  split
  · refine ⟨_, rfl, fun address => ?_⟩
    rw [handedTimes]
    by_cases heq : q.dest.address = address <;> cases q.onSent <;> simp [heq]
  · refine ⟨_, List.append_assoc .., fun address => ?_⟩
    rw [handedTimes]
    by_cases heq : q.dest.address = address <;> simp [heq]

/-- The limiter of a manager meters what it handed over. -/
abbrev MeteredAt (m : RpcManager) (limit : HostLimit) (clock : ℤ) : Prop :=
  Metered m.limiter m.log limit clock

/-- A query sent after its host was charged. -/
theorem MeteredAt.send (h : m.MeteredAt limit clock) (hrate : 0 < limit.ratePerSecond)
    (hle : clock ≤ now) (hnow : o.sendNow q.serial = now)
    (hallow : (m.limiter.allow q.dest.address now).2) {m' : RpcManager}
    (hlimiter : m'.limiter = (m.limiter.allow q.dest.address now).1)
    (hlog : ∃ noted, m'.log = m.log ++ noted ∧ ∀ x ∈ noted, Silent x) :
    (m'.send o q).MeteredAt limit now := by
  obtain ⟨outputs, hsend, hhanded⟩ := send_log (m := m') (o := o) (q := q)
  obtain ⟨noted, hnoted, hsilent⟩ := hlog
  rw [MeteredAt, send_limiter, hsend, hlimiter, hnoted]
  exact (h.append hsilent).allow hrate hle hallow (by simpa only [hnow] using hhanded)

/-- Considering a query that is not sent at once charges nobody. -/
theorem consider_limiter (h : (m.consider q.dest now).2 ≠ .sent) :
    (m.consider q.dest now).1.limiter = m.limiter ∨
      (m.limiter.allow q.dest.address now).2 = false ∧
        (m.consider q.dest now).1.limiter = (m.limiter.allow q.dest.address now).1 := by
  rw [consider] at h ⊢
  split_ifs at h ⊢ with hbehind hcap
  · exact .inl rfl
  · exact .inl rfl
  · dsimp only at h ⊢
    split_ifs at h ⊢ with hafford hallow
    · exact .inl rfl
    · exact absurd rfl h
    · exact .inr ⟨Bool.eq_false_iff.2 hallow, rfl⟩

theorem MeteredAt.query (h : m.MeteredAt limit clock) (hrate : 0 < limit.ratePerSecond)
    (hle : clock ≤ o.now) (hnow : ∀ serial, o.sendNow serial = o.now) (q : Queued) :
    (m.query o q).MeteredAt limit o.now := by
  have hcall : (m.call q).MeteredAt limit clock := h.append (by simp [Silent])
  obtain ⟨budget, limiter, hc⟩ := (m.call q).consider_fst q.dest o.now
  have hlog : ((m.call q).consider q.dest o.now).1.log = (m.call q).log := by rw [hc]
  -- A query that is not sent leaves the bucket as a refusal does, if it was asked at all.
  have hconsidering : ((m.call q).consider q.dest o.now).2 ≠ .sent →
      (m.considering o q).MeteredAt limit o.now := by
    intro hverdict
    refine Metered.append (l := ((m.call q).consider q.dest o.now).1.limiter) ?_ (by simp [Silent])
    rw [hlog]
    rcases consider_limiter hverdict with heq | ⟨hallow, heq⟩
    · rw [heq]
      exact hcall.mono hrate hle
    · rw [heq]
      exact hcall.allow_of_not hrate hle hallow
  apply query_cases (P := fun m => m.MeteredAt limit o.now)
  case sent =>
    intro _ hsent
    refine hcall.send (q := { q with serial := m.calls }) hrate hle (hnow _)
      (consider_sent.1 hsent).2.2.2 ?_ ⟨[.considered _ _], congrArg (· ++ _) hlog, by simp [Silent]⟩
    rw [considering, consider_fst_of_sent hsent]
    rfl
  case full => exact fun _ hsent _ => (hconsidering hsent).append (by simp [Silent])
  case first => exact fun _ hsent _ => hconsidering hsent
  case refused => exact fun _ _ => (hcall.mono hrate hle).append (by simp [Silent])
  case queued => exact fun _ _ _ _ => hcall.mono hrate hle

theorem rotate_limiter : (m.rotate host).limiter = m.limiter ∧ (m.rotate host).log = m.log := by
  rw [rotate]
  split_ifs <;> exact ⟨rfl, rfl⟩

theorem MeteredAt.rotate (h : m.MeteredAt limit clock) : (m.rotate host).MeteredAt limit clock := by
  rw [MeteredAt, rotate_limiter.1, rotate_limiter.2]
  exact h

theorem MeteredAt.turn (h : m.MeteredAt limit clock) (hrate : 0 < limit.ratePerSecond)
    (hle : clock ≤ o.now) (hnow : ∀ serial, o.sendNow serial = o.now)
    (hhost : ∀ queue, m.queues.lookup host = some queue → ∀ q ∈ queue, q.dest.address = host) :
    (m.turn o host).1.MeteredAt limit o.now := by
  apply turn_cases (P := fun r => r.1.MeteredAt limit o.now)
  case gone => exact fun _ => h.mono hrate hle
  case empty => exact fun _ => MeteredAt.rotate (h.mono hrate hle)
  case unaffordable =>
    exact fun q rest _ _ => MeteredAt.rotate ((h.mono hrate hle).append (by simp [Silent]))
  case limited =>
    exact fun q rest _ _ hallow =>
      MeteredAt.rotate ((h.allow_of_not hrate hle hallow).append (by simp [Silent]))
  case sent =>
    intro q rest hq _ hallow
    have haddress : q.dest.address = host := hhost _ hq q (by simp)
    refine MeteredAt.rotate (h.send hrate hle (hnow _) (haddress ▸ hallow) ?_ ⟨_, rfl, ?_⟩)
    · rw [haddress]
      rfl
    · simp [Silent]

theorem MeteredAt.drain (h : m.MeteredAt limit clock) (hrate : 0 < limit.ratePerSecond)
    (hle : clock ≤ o.now) (hnow : ∀ serial, o.sendNow serial = o.now) (haddressed : m.Addressed) :
    (m.drain o).MeteredAt limit o.now := by
  have hloop : (drainLoop o m.order.length m false).1.MeteredAt limit o.now := by
    refine (drainLoop_induction (P := fun m => m.MeteredAt limit o.now ∧ m.Addressed)
      (fun m hosts h => ⟨h.1.append (by simp [Silent]), fun host q hq => h.2 host q (hq.congr rfl)⟩)
      (fun m host order _ _ h => ⟨?_, ?_⟩) ⟨h.mono hrate hle, haddressed⟩).1
    · refine MeteredAt.turn (m := { m with order }) h.1 hrate le_rfl hnow
        fun queue hlookup q hq => ?_
      exact h.2 host q ⟨queue, hlookup, hq⟩
    · exact fun host' q hq => h.2 host' q (hq.of_turn.congr rfl)
  rw [RpcManager.drain]
  dsimp only
  split_ifs <;> exact hloop

theorem MeteredAt.conclude (h : m.MeteredAt limit clock) {serial : ℕ} {callback : Bool}
    {reply : RpcReply} : (m.conclude serial callback reply now).MeteredAt limit clock := by
  refine h.append ?_
  cases callback <;> simp [Silent]

/-- An event that does not change the host limit. -/
def Event.KeepsHostLimit : Event → Prop
  | .setHostLimit _ => False
  | _ => True

theorem MeteredAt.apply (h : m.MeteredAt limit clock) (hrate : 0 < limit.ratePerSecond)
    (hburst : 0 ≤ limit.burst) (haddressed : m.Addressed) {e : Event} (hkeeps : e.KeepsHostLimit)
    (htimely : e.Timely clock) : (m.apply e).MeteredAt limit (e.clock clock) := by
  obtain ⟨hle, hnow⟩ := htimely
  cases e with
  | query o q => exact h.query hrate hle hnow q
  | drain o => exact h.drain hrate hle hnow haddressed
  | reply now message datagram sender =>
    have h' : m.MeteredAt limit now := h.mono hrate hle
    simp only [RpcManager.apply, RpcManager.handleReply]
    split
    · exact h'
    · split
      · exact h'
      · exact h'.conclude
  | expire now tids =>
    have h' : m.MeteredAt limit now := h.mono hrate hle
    simp only [RpcManager.apply, RpcManager.expire]
    split_ifs
    · -- A bucket is pruned only once it is full again.
      exact ⟨h.rate, h.burst, fun address => (h.meters address).prune (h.rate ▸ hrate)
        (h.burst ▸ hburst) hle⟩
    · exact h'
  | resume =>
    simp only [RpcManager.apply, RpcManager.resume]
    split
    · exact h
    · exact h
    · split
      · exact h
      · exact MeteredAt.conclude h
  | deliver =>
    simp only [RpcManager.apply, RpcManager.deliver]
    split
    · exact h
    · exact h.append (by simp [Silent])
  | setHostLimit limit => exact hkeeps.elim
  | setMaxPending _ | setReadOnly _ | setBudget _ | cancelAll => exact h

/-! ## Runs -/

theorem meteredAt_run (hrate : 0 < limit.ratePerSecond) (hburst : 0 ≤ limit.burst) :
    ∀ {events : List Event} {m : RpcManager} {clock : ℤ}, m.MeteredAt limit clock → m.Addressed →
      (∀ e ∈ events, e.KeepsHostLimit) → TimelyRun clock events →
      ∃ clock', (m.run events).MeteredAt limit clock'
  | [], _, clock, h, _, _, _ => ⟨clock, h⟩
  | e :: _, m, _, h, haddressed, hkeeps, htimely =>
    meteredAt_run (m := m.apply e) hrate hburst
      (h.apply hrate hburst haddressed (hkeeps e List.mem_cons_self) htimely.1)
      (haddressed.apply e) (fun e' he' => hkeeps e' (List.mem_cons_of_mem _ he')) htimely.2

/-- In any window of time, no more datagrams to an address are handed over than the
    burst and what the allowance gains in the window. -/
theorem handed_window_le (nextId : UInt16) (limit : HostLimit) (hrate : 0 < limit.ratePerSecond)
    (hburst : 1 ≤ limit.burst) (start : ℤ) (events : List Event)
    (hkeeps : ∀ e ∈ events, e.KeepsHostLimit) (htimely : TimelyRun start events)
    (address : HostAddress) (t w : ℚ) (hw : 0 ≤ w) :
    ((handedTimes (((new nextId).setHostLimit limit).run events).log address).countP
      (fun at_ : ℤ => t ≤ at_ ∧ at_ ≤ t + w) : ℚ) ≤ limit.burst +
        limit.ratePerSecond * w / 1000 := by
  have hburst' : 0 ≤ limit.burst := zero_le_one.trans hburst
  have hnew : ((new nextId).setHostLimit limit).MeteredAt limit start :=
    ⟨rfl, rfl, fun address => RateLimiter.meters_nil rfl start⟩
  have haddressed : ((new nextId).setHostLimit limit).Addressed := by
    intro host q ⟨queue, hlookup, _⟩
    simp [new, setHostLimit] at hlookup
  obtain ⟨clock, h⟩ := meteredAt_run hrate hburst' hnew haddressed hkeeps htimely
  have := (h.meters address).paid.countP_window_le (by rw [h.rate]; positivity)
    (by rw [h.burst]; exact hburst') t hw
  rw [List.countP_map, h.burst, h.rate] at this
  calc _ ≤ limit.burst + w * (limit.ratePerSecond / 1000) := this
    _ = limit.burst + limit.ratePerSecond * w / 1000 := by ring

/-- Three queries to one host: the burst is sent at once, the third one later. -/
theorem handed_window_le_three :
    let ask (now : ℤ) := Event.query ⟨now, fun _ => now, fun _ => true⟩
      ⟨0, default, [], [], [], true, 3000, false⟩
    ((handedTimes (((new 0).setHostLimit {}).run
      [ask 0, ask 0, ask 0, .drain ⟨500, fun _ => 500, fun _ => true⟩]).log
      default).countP (fun at_ : ℤ => (0 : ℚ) ≤ at_ ∧ (at_ : ℚ) ≤ 0 + 1000) : ℚ) ≤
      2 + 2 * 1000 / 1000 :=
  handed_window_le 0 {} (by norm_num) (by norm_num) 0 _ (by simp [Event.KeepsHostLimit])
    (by simp [TimelyRun, Event.Timely, Event.clock]) default 0 1000 (by norm_num)

end RpcManager

end Dht
