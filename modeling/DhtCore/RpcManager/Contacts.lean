import DhtCore.RpcManager.Rate

/-!
# How many endpoints are contacted

Two managers, one for each family, share a contact budget (`SharedBudget`). In any
window of time they contact no more endpoints afresh than the limit and what the
budget gains in the window, and nothing else is charged to it
(`SharedBudget.contactsLimited_run`).

The budget meters the datagrams that the operating system took (`Contacting`),
whichever manager sent them.
-/

namespace Dht

open ContactBudget TokenBucket

namespace RpcManager

/-- The datagrams that the operating system took. -/
def sentTo (log : List Output) : List Sending :=
  log.filterMap fun
    | .handed _ _ _ dest sentAt true _ => some (dest, sentAt)
    | _ => none

/-- The datagrams that were charged to the budget. -/
def chargedTo (log : List Output) : List Sending :=
  log.filterMap fun
    | .handed _ _ _ dest sentAt _ true => some (dest, sentAt)
    | _ => none

/-- The budget is as the datagrams sent leave it, and charged with those to endpoints
    not written to within the window. -/
structure Contacting (budget : Option ContactBudget) (log : List Output) (limit : ℕ) (clock : ℤ) :
    Prop where
  budget : ∃ b, budget = some b ∧ b.limit = limit ∧ b.Meters (sentTo log) clock
  charged : chargedTo log = fresh (sentTo log)

/-- The budget of a manager is as what it did leaves it. -/
abbrev ContactingAt (m : RpcManager) (limit : ℕ) (clock : ℤ) : Prop :=
  Contacting m.budget m.log limit clock

variable {m : RpcManager} {o : Outside} {q : Queued} {budget : Option ContactBudget}
  {log outputs : List Output} {limit : ℕ} {clock now : ℤ} {host : HostAddress} {dest : Endpoint}

/-- Whatever else is done does not matter. -/
theorem sentTo_append_of_silent (log : List Output) (hsilent : ∀ x ∈ outputs, Silent x) :
    sentTo (log ++ outputs) = sentTo log ∧ chargedTo (log ++ outputs) = chargedTo log := by
  have hnone : sentTo outputs = [] ∧ chargedTo outputs = [] := by
    constructor <;>
    · refine List.filterMap_eq_nil_iff.2 fun x hx => ?_
      cases x with
      | handed => exact (hsilent _ hx).elim
      | _ => rfl
  rw [sentTo, chargedTo, List.filterMap_append, List.filterMap_append, ← sentTo, ← sentTo,
    ← chargedTo, ← chargedTo, hnone.1, hnone.2, List.append_nil, List.append_nil]
  exact ⟨rfl, rfl⟩

theorem Contacting.append (h : Contacting budget log limit clock)
    (hsilent : ∀ x ∈ outputs, Silent x) :
    Contacting budget (log ++ outputs) limit clock := by
  obtain ⟨hsent, hcharged⟩ := sentTo_append_of_silent log hsilent
  refine ⟨?_, ?_⟩
  · rw [hsent]
    exact h.budget
  · rw [hsent, hcharged]
    exact h.charged

theorem Contacting.mono (h : Contacting budget log limit clock) (hle : clock ≤ now) :
    Contacting budget log limit now := by
  obtain ⟨b, hb, hlimit, hmeters⟩ := h.budget
  exact ⟨⟨b, hb, hlimit, hmeters.mono hle⟩, h.charged⟩

/-- Looking at the budget does not change what it meters. -/
theorem Contacting.allows (h : Contacting budget log limit clock) (hle : clock ≤ now)
    (dest : Endpoint) :
    Contacting (budget.map fun b => (b.allows dest now).1) log limit now := by
  obtain ⟨b, rfl, hlimit, hmeters⟩ := h.budget
  obtain ⟨-, hmeters', hlimit'⟩ := hmeters.allows hle dest
  exact ⟨⟨_, rfl, hlimit'.trans hlimit, hmeters'⟩, h.charged⟩

/-! ## Events -/

/-- What sending a query does to the budget, and what it sends and charges. -/
theorem send_contacts :
    (m.send o q).budget = (if o.accepts q.serial then
      m.budget.map (·.record q.dest (o.sendNow q.serial)) else m.budget) ∧
    sentTo (m.send o q).log = sentTo m.log ++
      (if o.accepts q.serial then [(q.dest, o.sendNow q.serial)] else []) ∧
    chargedTo (m.send o q).log = chargedTo m.log ++
      (if o.accepts q.serial ∧ m.charges q.dest (o.sendNow q.serial) then
        [(q.dest, o.sendNow q.serial)] else []) := by
  rw [send]
  dsimp only
  by_cases haccepts : o.accepts q.serial
  · rw [if_pos haccepts, if_pos haccepts, if_pos haccepts]
    refine ⟨rfl, ?_, ?_⟩
    · cases q.onSent <;> simp [sentTo]
    · cases q.onSent <;> cases hcharges : m.charges q.dest (o.sendNow q.serial) <;>
        simp [chargedTo, haccepts]
  · rw [if_neg haccepts, if_neg haccepts, if_neg haccepts]
    refine ⟨rfl, ?_, ?_⟩
    · simp [reportNotSent, sentTo]
    · simp [reportNotSent, chargedTo, haccepts]

/-- A datagram within the budget is charged to it if the operating system takes it and
    its endpoint was not written to within the window. -/
theorem ContactingAt.send (h : m.ContactingAt limit now) (hnow : o.sendNow q.serial = now)
    (hwithin : Written (sentTo m.log) q.dest now ∨ 1 ≤ tokensAt (limit : ℚ) (limit / 1000)
      (after (limit : ℚ) (limit / 1000) (freshTimes (sentTo m.log))) now) :
    (m.send o q).ContactingAt limit now := by
  obtain ⟨hbudget, hsent, hcharged⟩ := send_contacts (m := m) (o := o) (q := q)
  obtain ⟨⟨b, hb, rfl, hmeters⟩, hfresh⟩ := h
  by_cases haccepts : o.accepts q.serial
  · obtain ⟨hrecord, hlimit'⟩ := hmeters.record hwithin
    have hcharges : m.charges q.dest now ↔ ¬Written (sentTo m.log) q.dest now := by
      have hlimited : b.isLimited := by simpa [isLimited] using hmeters.limited
      rw [charges, hb, Option.any_some, hlimited, ← hmeters.live q.dest now le_rfl]
      simp
    rw [if_pos haccepts, hnow] at hbudget hsent
    refine ⟨⟨b.record q.dest now, ?_, hlimit', ?_⟩, ?_⟩
    · rw [hbudget, hb, Option.map_some]
    · rw [hsent]
      exact hrecord
    · rw [hcharged, hsent, fresh_append, hfresh, hnow]
      by_cases hwritten : Written (sentTo m.log) q.dest now
      · rw [if_neg (fun hand => hcharges.1 hand.2 hwritten), if_pos hwritten]
      · rw [if_pos ⟨haccepts, hcharges.2 hwritten⟩, if_neg hwritten]
  · rw [if_neg haccepts] at hbudget hsent
    rw [if_neg (fun hand => haccepts hand.1), List.append_nil] at hcharged
    rw [List.append_nil] at hsent
    refine ⟨⟨b, hbudget.trans hb, rfl, ?_⟩, ?_⟩
    · rw [hsent]
      exact hmeters
    · rw [hcharged, hsent]
      exact hfresh

/-- A query sent after it was found to be within the budget. -/
theorem ContactingAt.send_of_affordable (h : m.ContactingAt limit clock) (hle : clock ≤ now)
    (hnow : o.sendNow q.serial = now) (haffordable : (m.affordable q.dest now).2) {m' : RpcManager}
    (hbudget : m'.budget = (m.affordable q.dest now).1.budget)
    (hlog : ∃ noted, m'.log = m.log ++ noted ∧ ∀ x ∈ noted, Silent x) :
    (m'.send o q).ContactingAt limit now := by
  obtain ⟨noted, hnoted, hsilent⟩ := hlog
  have h' : m'.ContactingAt limit now := by
    rw [ContactingAt, hbudget, hnoted]
    exact (h.allows hle q.dest).append hsilent
  refine h'.send hnow ?_
  obtain ⟨b, hb, rfl, hmeters⟩ := h.budget
  rw [hnoted, (sentTo_append_of_silent _ hsilent).1]
  exact (hmeters.allows hle q.dest).1.1 (by simpa [affordable, hb] using haffordable)

/-- Considering a query may have filled the budget up, and changed nothing else of it. -/
theorem consider_budget (m : RpcManager) (dest : Endpoint) (now : ℤ) :
    (m.consider dest now).1.budget = m.budget ∨
    (m.consider dest now).1.budget = m.budget.map fun b => (b.allows dest now).1 := by
  rw [consider]
  split_ifs
  · exact .inl rfl
  · exact .inl rfl
  · dsimp only
    split_ifs <;> exact .inr rfl

theorem ContactingAt.query (h : m.ContactingAt limit clock) (hle : clock ≤ o.now)
    (hnow : ∀ serial, o.sendNow serial = o.now) (q : Queued) :
    (m.query o q).ContactingAt limit o.now := by
  have hcall : (m.call q).ContactingAt limit clock := h.append (by simp [Silent])
  obtain ⟨budget, limiter, hc⟩ := (m.call q).consider_fst q.dest o.now
  have hlog : ((m.call q).consider q.dest o.now).1.log = (m.call q).log := by rw [hc]
  have hconsidering : (m.considering o q).ContactingAt limit o.now := by
    have hconsider : ((m.call q).consider q.dest o.now).1.ContactingAt limit o.now := by
      rw [ContactingAt, hlog]
      rcases (m.call q).consider_budget q.dest o.now with heq | heq
      · rw [heq]
        exact hcall.mono hle
      · rw [heq]
        exact hcall.allows hle q.dest
    exact hconsider.append (by simp [Silent])
  -- Asking the budget refills it only; it is charged when the query is sent.
  apply query_cases (P := fun m => m.ContactingAt limit o.now)
  case sent =>
    intro _ hsent
    refine hcall.send_of_affordable (q := { q with serial := m.calls }) hle (hnow _)
      (consider_sent.1 hsent).2.2.1
      ?_ ⟨[.considered _ _], congrArg (· ++ _) hlog, by simp [Silent]⟩
    rw [considering, consider_fst_of_sent hsent]
    rfl
  case full => exact fun _ _ _ => hconsidering.append (by simp [Silent])
  case first => exact fun _ _ _ => hconsidering
  case refused => exact fun _ _ => (hcall.mono hle).append (by simp [Silent])
  case queued => exact fun _ _ _ _ => hcall.mono hle

theorem ContactingAt.rotate (h : m.ContactingAt limit clock) :
    (m.rotate host).ContactingAt limit clock := by
  rw [RpcManager.rotate]
  split_ifs <;> exact h

theorem ContactingAt.turn (h : m.ContactingAt limit clock) (hle : clock ≤ o.now)
    (hnow : ∀ serial, o.sendNow serial = o.now) : (m.turn o host).1.ContactingAt limit o.now := by
  apply turn_cases (P := fun r => r.1.ContactingAt limit o.now)
  case gone => exact fun _ => h.mono hle
  case empty => exact fun _ => ContactingAt.rotate (h.mono hle)
  case unaffordable =>
    exact fun q rest _ _ => ContactingAt.rotate ((h.allows hle q.dest).append (by simp [Silent]))
  case limited =>
    exact fun q rest _ _ _ => ContactingAt.rotate ((h.allows hle q.dest).append (by simp [Silent]))
  case sent =>
    exact fun q rest _ haffordable _ =>
      ContactingAt.rotate
        (h.send_of_affordable hle (hnow _) haffordable rfl ⟨_, rfl, by simp [Silent]⟩)

theorem ContactingAt.drain (h : m.ContactingAt limit clock) (hle : clock ≤ o.now)
    (hnow : ∀ serial, o.sendNow serial = o.now) : (m.drain o).ContactingAt limit o.now := by
  have hloop : (drainLoop o m.order.length m false).1.ContactingAt limit o.now :=
    drainLoop_induction (P := fun m => m.ContactingAt limit o.now)
      (fun m hosts h => h.append (by simp [Silent]))
      (fun m host order _ _ h => ContactingAt.turn (m := { m with order }) h le_rfl hnow)
        (h.mono hle)
  rw [RpcManager.drain]
  dsimp only
  split_ifs <;> exact hloop

/-- An event that does not change the budget from outside. -/
def Event.KeepsBudget : Event → Prop
  | .setBudget _ => False
  | _ => True

theorem ContactingAt.conclude (h : m.ContactingAt limit clock) {serial : ℕ} {callback : Bool}
    {reply : RpcReply} : (m.conclude serial callback reply now).ContactingAt limit clock := by
  refine h.append ?_
  cases callback <;> simp [Silent]

theorem ContactingAt.apply (h : m.ContactingAt limit clock) {e : Event} (hkeeps : e.KeepsBudget)
    (htimely : e.Timely clock) : (m.apply e).ContactingAt limit (e.clock clock) := by
  obtain ⟨hle, hnow⟩ := htimely
  have h' : m.ContactingAt limit (e.clock clock) := h.mono hle
  cases e with
  | query o q => exact h.query hle hnow q
  | drain o => exact h.drain hle hnow
  | reply now message datagram sender =>
    simp only [RpcManager.apply, RpcManager.handleReply]
    split
    · exact h'
    · split
      · exact h'
      · exact h'.conclude
  | expire now tids =>
    simp only [RpcManager.apply, RpcManager.expire]
    split_ifs <;> exact h'
  | resume =>
    simp only [RpcManager.apply, RpcManager.resume]
    split
    · exact h
    · exact h
    · split
      · exact h
      · exact ContactingAt.conclude h
  | deliver =>
    simp only [RpcManager.apply, RpcManager.deliver]
    split
    · exact h
    · exact h.append (by simp [Silent])
  | setBudget budget => exact hkeeps.elim
  | setHostLimit _ | setMaxPending _ | setReadOnly _ | cancelAll => exact h

end RpcManager

/-! ## Two managers -/

/-- Two managers that share a contact budget, and what they did. -/
structure SharedBudget where
  v4 : RpcManager
  v6 : RpcManager
  budget : ContactBudget
  log : List Output := []

namespace SharedBudget

open RpcManager

/-- What may happen to the managers and the budget. -/
inductive Event
  | rpc (family : Family) (e : RpcManager.Event)
  | prune (now : ℤ)

variable (s : SharedBudget)

/-- The manager of a family, as its calls find it. -/
def rpc : Family → RpcManager
  | .IPv4 => { s.v4 with budget := some s.budget, log := s.log }
  | .IPv6 => { s.v6 with budget := some s.budget, log := s.log }

/-- The managers after an event. -/
def apply : Event → SharedBudget
  | .rpc family e =>
    let m := (s.rpc family).apply e
    let s := { s with budget := m.budget.getD s.budget, log := m.log }
    match family with
    | .IPv4 => { s with v4 := m }
    | .IPv6 => { s with v6 := m }
  | .prune now => { s with budget := s.budget.prune now }

/-- The managers after events. -/
def run (events : List Event) : SharedBudget := events.foldl apply s

/-- The time once an event has happened. -/
def Event.clock (clock : ℤ) : Event → ℤ
  | .rpc _ e => e.clock clock
  | .prune now => now

/-- An event is not earlier than the time it happens at, which does not advance while
    it does; the managers keep their budget. -/
def Event.Timely (clock : ℤ) : Event → Prop
  | .rpc _ e => e.Timely clock ∧ e.KeepsBudget
  | .prune now => clock ≤ now

/-- Events one after another, from a time on. -/
def TimelyRun : ℤ → List Event → Prop
  | _, [] => True
  | clock, e :: events => e.Timely clock ∧ TimelyRun (e.clock clock) events

variable {s} {limit : ℕ} {clock : ℤ}

theorem contacting_apply (h : Contacting (some s.budget) s.log limit clock) {e : Event}
    (htimely : e.Timely clock) :
    Contacting (some (s.apply e).budget) (s.apply e).log limit (e.clock clock) := by
  cases e with
  | rpc family e =>
    have hrpc : (s.rpc family).ContactingAt limit clock := by cases family <;> exact h
    have happly := hrpc.apply htimely.2 htimely.1
    obtain ⟨⟨b, hb, hlimit, hmeters⟩, hcharged⟩ := happly
    have hbudget : (s.apply (.rpc family e)).budget = b := by
      cases family <;> simp only [apply, hb, Option.getD_some]
    have hlog : (s.apply (.rpc family e)).log = ((s.rpc family).apply e).log := by
      cases family <;> rfl
    rw [hbudget, hlog]
    exact ⟨⟨b, rfl, hlimit, hmeters⟩, hcharged⟩
  | prune now =>
    obtain ⟨⟨b, hb, hlimit, hmeters⟩, hcharged⟩ := h
    cases hb
    obtain ⟨hmeters', hlimit'⟩ := hmeters.prune htimely
    exact ⟨⟨_, rfl, hlimit'.trans hlimit, hmeters'⟩, hcharged⟩

theorem contacting_run : ∀ {events : List Event} {s : SharedBudget} {clock : ℤ},
    Contacting (some s.budget) s.log limit clock → TimelyRun clock events →
      ∃ clock', Contacting (some (s.run events).budget) (s.run events).log limit clock'
  | [], _, clock, h, _ => ⟨clock, h⟩
  | e :: _, s, _, h, htimely =>
    contacting_run (s := s.apply e) (contacting_apply h htimely.1) htimely.2

/-- What is true of a contact budget with a limit and the datagrams sent under it. -/
structure ContactsLimited (b : ContactBudget) (log : List Output) (limit : ℚ) : Prop where
  /-- In any window of time, the endpoints contacted afresh are no more than the
      limit and what the budget gains in the window. -/
  window_le : ∀ t w : ℚ, 0 ≤ w →
    ((fresh (sentTo log)).countP (fun s => t ≤ s.2 ∧ s.2 ≤ t + w) : ℚ) ≤ limit + limit * w / 1000
  balance_nonneg : 0 ≤ b.balance
  balance_le : b.balance ≤ limit
  contacts : b.contacts = (fresh (sentTo log)).length
  /-- The balance is what these leave, and nothing else. -/
  balance : b.balance =
    tokensAt limit (limit / 1000) (after limit (limit / 1000) (freshTimes (sentTo log))) b.last
  charged : chargedTo log = fresh (sentTo log)

/-- Whatever two managers do that share a budget with a limit, their contacts are limited. -/
theorem contactsLimited_run (v4 v6 : RpcManager) (limit : ℤ) (hlimit : 0 < limit) (start : ℤ)
    (events : List Event) (htimely : TimelyRun start events) :
    let s := run { v4, v6, budget := ({} : ContactBudget).setLimit limit start } events
    ContactsLimited s.budget s.log limit := by
  have hset : (({} : ContactBudget).setLimit limit start).limit = limit.toNat := by
    rw [setLimit]
    dsimp only
    rw [if_neg (by omega)]
    exact congrArg Int.toNat (max_eq_right hlimit.le)
  have hcast : (limit.toNat : ℚ) = limit := by exact_mod_cast Int.toNat_of_nonneg hlimit.le
  obtain ⟨clock, ⟨b, hb, hlimit', hmeters⟩, hcharged⟩ := contacting_run
    (s := { v4, v6, budget := ({} : ContactBudget).setLimit limit start })
    ⟨⟨_, rfl, hset, meters_setLimit hlimit start⟩, rfl⟩ htimely
  have hnonneg : (0 : ℚ) ≤ limit := by exact_mod_cast hlimit.le
  have hlimit'' : (b.limit : ℚ) = limit := by rw [hlimit', hcast]
  dsimp only
  rw [Option.some.inj hb]
  refine ⟨fun t w hw => ?_, hmeters.balance_mem.1, hlimit'' ▸ hmeters.balance_mem.2,
    hmeters.contacts, hlimit'' ▸ hmeters.balance, hcharged⟩
  have hpaid : Paid (limit : ℚ) (limit / 1000) (freshTimes _) := hlimit'' ▸ hmeters.paid
  have hwindow := hpaid.countP_window_le (div_nonneg hnonneg (by norm_num)) hnonneg t hw
  rw [freshTimes, List.countP_map] at hwindow
  calc _ ≤ (limit : ℚ) + w * (limit / 1000) := hwindow
    _ = limit + limit * w / 1000 := by ring

/-- One contact a second, and two endpoints: the second waits. -/
theorem contactsLimited_run_two :
    let ask (now : ℤ) (port : UInt16) := Event.rpc .IPv4 (.query ⟨now, fun _ => now, fun _ => true⟩
      ⟨0, ⟨default, port⟩, [], [], [], true, 3000, false⟩)
    let s := run ⟨new 0, new 0, ({} : ContactBudget).setLimit 1 0, []⟩ [ask 0 1, ask 0 2, .prune 10]
    ContactsLimited s.budget s.log 1 := by
  simpa using contactsLimited_run (new 0) (new 0) 1 one_pos 0
    [.rpc .IPv4 (.query ⟨0, fun _ => 0, fun _ => true⟩
      ⟨0, ⟨default, 1⟩, [], [], [], true, 3000, false⟩),
      .rpc .IPv4 (.query ⟨0, fun _ => 0, fun _ => true⟩
      ⟨0, ⟨default, 2⟩, [], [], [], true, 3000, false⟩), .prune 10]
    (by simp [TimelyRun, Event.Timely, Event.clock, RpcManager.Event.Timely, RpcManager.Event.clock,
      RpcManager.Event.KeepsBudget])

end SharedBudget

end Dht
