import DhtCore.Lookup.Resources

/-!
# Lookups do not stall

A lookup goes on only when something happens to it, and so must always wait for a reply
until it is finished. With nothing outstanding all slots are free, so that `step` asks
somebody, unless there is nobody left to ask or `K` have responded, and then the lookup is
finished when that call of `step` returns (`Going`).

* `callsBackOnce` is what is asked of the query function: it calls back for a query once;
* `going_run` says that after every event the lookup is finished, or waits for a reply
  that has not come, which is so for fewer than `MaxQueries` replies.
-/

namespace Dht.Lookup

variable {crypto : Crypto} {l l' : Lookup}

/-! ## When nothing is outstanding -/

theorem choose_eq_of_nil (queries : ℕ) (budget : ℤ) (ahead : ℕ) (cs : List Candidate)
    (h : (choose queries budget ahead cs).2 = []) : (choose queries budget ahead cs).1 = cs := by
  induction cs generalizing ahead with
  | nil => rfl
  | cons c cs ih =>
    rw [choose] at h ⊢
    by_cases hbreak : budget ≤ 0 ∨ K ≤ ahead
    · rw [if_pos hbreak]
    · rw [if_neg hbreak] at h ⊢
      by_cases hresponded : c.state = .Responded
      · rw [if_pos hresponded] at h ⊢
        exact congrArg (c :: ·) (ih _ h)
      · rw [if_neg hresponded] at h ⊢
        by_cases hnew : c.state = .New ∧ queries < MaxQueries
        · rw [if_pos hnew] at h
          exact absurd h (List.cons_ne_nil _ _)
        · rw [if_neg hnew] at h ⊢
          exact congrArg (c :: ·) (ih _ h)

/-- If `step` asks nobody though nothing is waited for, there is nobody to ask, or `K` have
    responded. -/
theorem respondedFirst_of_choose_nil {queries : ℕ} {budget : ℤ} {ahead : ℕ} {cs : List Candidate}
    (hbudget : 0 < budget) (hawaited : ∀ c ∈ cs, c.isAwaited = false)
    (h : (choose queries budget ahead cs).2 = []) :
    ∃ responded, respondedFirst ahead cs = some responded ∧
    (K ≤ responded ∨ MaxQueries ≤ queries ∨ ∀ c ∈ cs, c.state ≠ .New) := by
  induction cs generalizing ahead with
  | nil => exact ⟨ahead, rfl, .inr (.inr fun _ hc => absurd hc List.not_mem_nil)⟩
  | cons c cs ih =>
    obtain ⟨hc, hcs⟩ := List.forall_mem_cons.1 hawaited
    rw [choose] at h
    rw [respondedFirst]
    by_cases hahead : K ≤ ahead
    · exact ⟨ahead, if_pos hahead, .inl hahead⟩
    · have hnot : ¬(c.state = .InFlight ∨ c.state = .Slow) := fun hstate => by
        rw [isAwaited_iff.2 hstate] at hc
        exact Bool.noConfusion hc
      rw [if_neg hahead]
      rw [if_neg (by omega)] at h
      by_cases hresponded : c.state = .Responded
      · rw [if_pos hresponded] at h ⊢
        obtain ⟨responded, hfirst, hrest⟩ := ih hcs h
        refine ⟨responded, hfirst, hrest.imp_right (Or.imp_right fun hrest => ?_)⟩
        exact List.forall_mem_cons.2 ⟨by rw [hresponded]; decide, hrest⟩
      · rw [if_neg hresponded] at h ⊢
        rw [if_neg hnot]
        by_cases hnew : c.state = .New ∧ queries < MaxQueries
        · rw [if_pos hnew] at h
          exact absurd h (List.cons_ne_nil _ _)
        · rw [if_neg hnew] at h
          obtain ⟨responded, hfirst, hrest⟩ := ih hcs h
          refine ⟨responded, hfirst, ?_⟩
          by_cases hqueries : MaxQueries ≤ queries
          · exact .inr (.inl hqueries)
          · refine hrest.imp_right (Or.imp_right fun hrest => List.forall_mem_cons.2 ⟨?_, hrest⟩)
            exact fun hstate => hnew ⟨hstate, not_le.1 hqueries⟩

variable {unsent : List Endpoint}

theorem Balanced.not_awaited (hl : Balanced l unsent) (h : ¬0 < l.outstanding) :
    ∀ c ∈ l.candidates, c.isAwaited = false := by
  intro c hc
  have hcount := hl.outstanding
  have hzero : l.candidates.countP Candidate.isAwaited = 0 := by omega
  simpa using List.countP_eq_zero.1 hzero c hc

/-! ## Going on -/

/-- A lookup that is not finished waits for a reply, or will be finished when a call of
    `step` returns. While a query may become slow the timer is running, or will be. -/
structure Going (l : Lookup) : Prop where
  reports : l.reports.length = if l.finished then 1 else 0
  waits : l.finished = false → l.started = true →
    0 < l.outstanding ∨ l.sending.head? = some [] ∧ l.canFinish = true
  timer : l.finished = false → 0 < l.inFlight → l.slowTimer = true ∨ l.sending ≠ []

/-- If `step` asks nobody though nothing is waited for, the lookup can be finished. -/
theorem canFinish_of_choose_nil (hl : Balanced l unsent) (hidle : ¬0 < l.outstanding)
    (h : (choose l.queries l.budget 0 l.candidates).2 = []) : l.canFinish = true := by
  have hawaited := hl.not_awaited hidle
  have hinFlight : l.inFlight = 0 := by
    rw [hl.inFlight, Nat.cast_eq_zero, List.countP_eq_zero]
    intro c hc hstate
    have hnot := hawaited c hc
    rw [isAwaited_iff.2 (.inl (of_decide_eq_true hstate))] at hnot
    exact Bool.noConfusion hnot
  have hbudget : 0 < l.budget := by
    rw [budget, hinFlight]
    refine lt_min (by decide) (sub_pos.2 ?_)
    exact (not_lt.1 hidle).trans_lt (by decide)
  obtain ⟨responded, hfirst, hrest⟩ := respondedFirst_of_choose_nil hbudget hawaited h
  rw [canFinish, hfirst]
  dsimp only
  split_ifs with hK hqueries
  · rfl
  · rfl
  · refine List.all_eq_true.2 fun c hc => decide_eq_true ?_
    exact (hrest.resolve_left hK).resolve_left hqueries c hc

theorem going_step (hl : Balanced l unsent)
    (hreports : l.reports.length = if l.finished then 1 else 0) : Going l.step := by
  by_cases hfinished : l.finished = true
  · rw [step, if_pos hfinished]
    exact ⟨hreports, fun h => absurd hfinished (by rw [h]; decide),
      fun h => absurd hfinished (by rw [h]; decide)⟩
  · have hfinish := canFinish_of_choose_nil hl
    have hsame := choose_eq_of_nil l.queries l.budget 0 l.candidates
    have hnonneg : 0 ≤ l.outstanding := hl.outstanding ▸ Nat.cast_nonneg _
    rw [step, if_neg hfinished]
    dsimp only
    generalize choose l.queries l.budget 0 l.candidates = chosen at hfinish hsame ⊢
    obtain ⟨candidates, toSend⟩ := chosen
    refine ⟨hreports, fun _ _ => ?_, fun _ _ => .inr (List.cons_ne_nil _ _)⟩
    cases toSend with
    | nil =>
      by_cases hidle : 0 < l.outstanding
      · exact .inl (by simpa using hidle)
      · refine .inr ⟨rfl, ?_⟩
        obtain rfl : candidates = l.candidates := hsame rfl
        have hcan := hfinish hidle rfl
        rw [canFinish] at hcan ⊢
        simpa using hcan
    | cons endpoint rest =>
      left
      show 0 < l.outstanding + ((endpoint :: rest).length : ℤ)
      rw [List.length_cons, Nat.cast_succ]
      omega

theorem Going.resume (h : Going l) (hl : Balanced l unsent) (now : ℤ) : Going (l.resume now) := by
  rw [Lookup.resume]
  split
  next => exact h
  next endpoints frames hsending =>
    by_cases hfinished : l.finished = true
    · rw [if_pos hfinished]
      exact ⟨h.reports, fun hnot => absurd hfinished (by rw [hnot]; decide),
        fun hnot => absurd hfinished (by rw [hnot]; decide)⟩
    · rw [if_neg hfinished]
      have hgoing := h.waits (by simpa using hfinished)
      cases endpoints with
      -- There is more to hand over, so that the call goes on.
      | cons endpoint rest =>
        refine ⟨h.reports, fun _ hstarted => .inl ?_, fun _ _ => .inr (List.cons_ne_nil _ _)⟩
        refine (hgoing hstarted).resolve_right fun hreturns => ?_
        rw [hsending] at hreturns
        exact List.cons_ne_nil _ _ (Option.some.inj hreturns.1)
      | nil =>
        dsimp only
        -- The call returns: the lookup is finished here, or waits.
        split_ifs with hfinish
        · refine ⟨?_, fun h => (by cases h), fun h => (by cases h)⟩
          have hreports := h.reports
          rw [if_neg hfinished] at hreports
          rw [finish, List.length_append, hreports]
          rfl
        · refine ⟨h.reports, fun _ hstarted => .inl ?_, fun _ hinFlight => .inl ?_⟩
          · exact (hgoing hstarted).resolve_right fun hreturns => hfinish hreturns.2
          · -- A query in flight is outstanding, so that the timer is started.
            have hle : l.candidates.countP (·.state = .InFlight) ≤
                l.candidates.countP Candidate.isAwaited :=
              List.countP_mono_left fun c _ hc => isAwaited_iff.2 (.inl (of_decide_eq_true hc))
            have hin := hl.inFlight
            have hout := hl.outstanding
            have hpos : 0 < l.outstanding := by
              have : 0 < l.inFlight := hinFlight
              omega
            show (l.slowTimer || decide (l.outstanding > 0)) = true
            rw [decide_eq_true hpos, Bool.or_true]

theorem updateFirst_eq_self {f : Candidate → Candidate} {cs : List Candidate}
    (h : ∀ c ∈ cs, f c = c) (endpoint : Endpoint) : updateFirst endpoint f cs = cs := by
  induction cs with
  | nil => rfl
  | cons c cs ih =>
    obtain ⟨hc, hcs⟩ := List.forall_mem_cons.1 h
    rw [updateFirst, hc, ih hcs, ite_self]

theorem Going.onSent (h : Going l) (hl : Balanced l unsent) (endpoint : Endpoint) (now : ℤ) :
    Going (l.onSent endpoint now) := by
  refine ⟨h.reports, fun hfinished hstarted => ?_, h.timer⟩
  by_cases hidle : 0 < l.outstanding
  · exact .inl hidle
  · -- None is in flight, so that nothing is noted.
    have hsame : l.onSent endpoint now = l := by
      rw [Lookup.onSent, updateFirst_eq_self fun c hc => if_neg fun hstate => ?_]
      have hnot := hl.not_awaited hidle c hc
      rw [isAwaited_iff.2 (.inl hstate)] at hnot
      exact Bool.noConfusion hnot
    rw [hsame]
    exact h.waits hfinished hstarted

/-- If no query is slow the timer may stop, and nothing else changes. -/
theorem markSlow_of_not_any {now : ℤ} (h : ¬l.candidates.any (l.isSlow now) = true) :
    l.markSlow now = { l with slowTimer := l.slowTimer && l.inFlight ≠ 0 } := by
  have hslow : ∀ c ∈ l.candidates, ¬l.isSlow now c = true := fun c hc hslow =>
    h (List.any_eq_true.2 ⟨c, hc, hslow⟩)
  have hcandidates : (l.candidates.map fun c =>
      if l.isSlow now c then { c with state := .Slow } else c) = l.candidates :=
    (List.map_congr_left fun c hc => if_neg (hslow c hc)).trans (List.map_id _)
  rw [markSlow, hcandidates, List.countP_eq_zero.2 hslow]
  simp only [Nat.cast_zero, sub_zero]

theorem Going.apply (h : Going l) (hl : Balanced l unsent) (e : Event) :
    Going (l.apply crypto e) := by
  have hstep {l' : Lookup} (hkeeps : Keeps l l') (hl' : Balanced l' unsent) : Going l'.step :=
    going_step hl' (by rw [hkeeps.reports, hkeeps.finished]; exact h.reports)
  cases e with
  | addCandidate id endpoint =>
    rw [Lookup.apply, addCandidate]
    split
    next => exact h
    next l' hadded =>
      have hkeeps := keeps_withCandidate hadded
      split_ifs with hstarted
      · exact hstep hkeeps (hl.withCandidate hadded)
      · obtain ⟨-, rfl⟩ := withCandidate_eq_some hadded
        exact ⟨h.reports, fun _ h' => absurd h' hstarted, h.timer⟩
  | start now => exact going_step (l := l.begin now) { hl with } h.reports
  | resume now => exact h.resume hl now
  | sent endpoint now => exact h.onSent hl endpoint now
  | checkSlow now =>
    rw [Lookup.apply, checkSlow]
    split_ifs with hfinished hslow
    · exact h
    · exact hstep (keeps_markSlow l now) (hl.markSlow now)
    · -- No query is slow, so that the timer goes on exactly if one is in flight.
      rw [markSlow_of_not_any hslow]
      refine ⟨h.reports, h.waits, fun hfinished hinFlight => ?_⟩
      refine (h.timer hfinished hinFlight).imp_left fun htimer => ?_
      have hpos : 0 < l.inFlight := hinFlight
      simpa [htimer] using hpos.ne'
  | reply endpoint reply =>
    rw [Lookup.apply, onReply]
    split
    next => exact h
    next l' hreply => exact hstep (keeps_withReply hreply).1 (hl.withReply hreply)

theorem going_run (h : Going l) (hl : Balanced l unsent) (events : List Event) :
    Going (l.run crypto events) := by
  induction events generalizing l unsent with
  | nil => exact h
  | cons e events ih => exact ih (h.apply hl e) (hl.apply e)

/-- The lookup is finished, and has reported its result once; or it waits for a reply, and the
    timer is running while a query may become slow. -/
def Unstalled (l : Lookup) : Prop :=
  l.finished = true ∧ l.reports.length = 1 ∨
    l.finished = false ∧ l.reports = [] ∧ 0 < l.outstanding ∧
      ((∃ c ∈ l.candidates, c.state = .InFlight) → l.slowTimer = true)

theorem Balanced.inFlight_pos (hl : Balanced l unsent)
    (h : ∃ c ∈ l.candidates, c.state = .InFlight) : 0 < l.inFlight := by
  obtain ⟨c, hc, hstate⟩ := h
  have hpos : 0 < l.candidates.countP (·.state = .InFlight) :=
    List.countP_pos_iff.2 ⟨c, hc, decide_eq_true hstate⟩
  rw [hl.inFlight]
  exact Int.natCast_pos.2 hpos

/-- Between the events nothing is under way. -/
theorem Going.unstalled (h : Going l) (hl : Balanced l unsent) (hstarted : l.started = true)
    (hsending : l.sending = []) : Unstalled l := by
  have hreports := h.reports
  cases hfinished : l.finished with
  | true => exact .inl ⟨hfinished, by rwa [hfinished, if_pos rfl] at hreports⟩
  | false =>
    rw [hfinished, if_neg Bool.false_ne_true] at hreports
    refine .inr ⟨hfinished, List.eq_nil_of_length_eq_zero hreports, ?_, fun hinFlight => ?_⟩
    · refine (h.waits hfinished hstarted).resolve_right fun hreturns => ?_
      rw [hsending] at hreturns
      exact nomatch hreturns.1
    · exact (h.timer hfinished (hl.inFlight_pos hinFlight)).resolve_right (not_not.2 hsending)

/-- When a call of `step` returns, which others may still be under way. -/
theorem Going.unstalled_resume (h : Going l) (hstarted : l.started = true)
    (hsending : l.sending.head? = some []) (now : ℤ) : Unstalled (l.resume now) := by
  obtain ⟨frames, hframes⟩ := List.head?_eq_some_iff.1 hsending
  have hreports := h.reports
  rw [Lookup.resume, hframes]
  dsimp only
  by_cases hfinished : l.finished = true
  · rw [if_pos hfinished] at hreports ⊢
    exact .inl ⟨hfinished, hreports⟩
  · have hnot : l.finished = false := by simpa using hfinished
    have hwaits := h.waits hnot hstarted
    rw [if_neg hfinished] at hreports ⊢
    split_ifs with hfinish
    · refine .inl ⟨rfl, ?_⟩
      rw [finish, List.length_append, hreports]
      rfl
    · have hpos : 0 < l.outstanding := hwaits.resolve_right fun hreturns => hfinish hreturns.2
      refine .inr ⟨hnot, List.eq_nil_of_length_eq_zero hreports, hpos, fun _ => ?_⟩
      show (l.slowTimer || decide (l.outstanding > 0)) = true
      rw [decide_eq_true hpos, Bool.or_true]

/-! ## Replies -/

/-- Whom an event is a reply of. -/
def Event.answers : Event → List Endpoint
  | .reply endpoint _ => [endpoint]
  | _ => []

/-- Whether each query that was handed over is called back for at most once, some having been
    called back for before. -/
def callsBackOnce (crypto : Crypto) (l : Lookup) (answered : List Endpoint) : List Event → Bool
  | [] => true
  | e :: events =>
    e.answers.all (fun endpoint => l.asked.any (·.dest = endpoint) && endpoint ∉ answered) &&
      callsBackOnce crypto (l.apply crypto e) (answered ++ e.answers) events

/-- Whether a query was answered, or failed. -/
def Candidate.hasEnded (c : Candidate) : Bool := c.state = .Responded || c.state = .Failed

/-- Those that have been called back for are the candidates whose queries ended. -/
def Ended (answered : List Endpoint) (candidates : List Candidate) : Prop :=
  ∀ c ∈ candidates, c.hasEnded = true ↔ c.endpoint ∈ answered

theorem Ended.of_map {answered : List Endpoint} {cs cs' : List Candidate} (h : Ended answered cs)
    (hmap : cs'.map (fun c => (c.endpoint, c.hasEnded)) =
      cs.map fun c => (c.endpoint, c.hasEnded)) : Ended answered cs' := by
  intro c' hc'
  have hmem : (c'.endpoint, c'.hasEnded) ∈ cs.map fun c => (c.endpoint, c.hasEnded) :=
    hmap ▸ List.mem_map_of_mem (f := fun c : Candidate => (c.endpoint, c.hasEnded)) hc'
  obtain ⟨c, hc, heq⟩ := List.mem_map.1 hmem
  obtain ⟨hendpoint, hended⟩ := Prod.mk.inj heq
  rw [← hendpoint, ← hended]
  exact h c hc

theorem Ended.choose {answered : List Endpoint} {cs : List Candidate} (h : Ended answered cs)
    (queries : ℕ) (budget : ℤ) (ahead : ℕ) :
    Ended answered (choose queries budget ahead cs).1 := by
  refine h.of_map ?_
  clear h
  induction cs generalizing queries budget ahead with
  | nil => rfl
  | cons c cs ih =>
    rw [Lookup.choose]
    split_ifs with hbreak hresponded hnew
    · rfl
    · exact congrArg (_ :: ·) (ih ..)
    · have hnot : c.hasEnded = false := by
        rw [Candidate.hasEnded, hnew.1]
        rfl
      exact congrArg₂ List.cons (congrArg (c.endpoint, ·) hnot.symm) (ih ..)
    · exact congrArg (_ :: ·) (ih ..)

theorem Ended.markSlow {answered : List Endpoint} (h : Ended answered l.candidates) (now : ℤ) :
    Ended answered (l.markSlow now).candidates := by
  refine h.of_map ?_
  rw [Lookup.markSlow, List.map_map]
  refine List.map_congr_left fun c _ => ?_
  dsimp only [Function.comp]
  split_ifs with hslow
  · rw [Candidate.hasEnded, Candidate.hasEnded, inFlight_of_isSlow hslow]
    rfl
  · rfl

theorem Ended.onSent {answered : List Endpoint} (h : Ended answered l.candidates)
    (endpoint : Endpoint) (now : ℤ) : Ended answered (l.onSent endpoint now).candidates := by
  refine h.of_map (map_updateFirst (fun c => ?_) endpoint _)
  split_ifs <;> rfl

theorem Ended.withCandidate {answered : List Endpoint} (h : Ended answered l.candidates)
    (hseen : ∀ endpoint ∈ answered, endpoint ∈ l.seen) {id : NodeId} {endpoint : Endpoint}
    {hops : ℤ} (hadded : l.withCandidate id endpoint hops = some l') :
    Ended answered l'.candidates ∧ ∀ endpoint ∈ answered, endpoint ∈ l'.seen := by
  have hfresh := not_mem_seen hadded
  obtain ⟨-, rfl⟩ := withCandidate_eq_some hadded
  refine ⟨fun c hc => ?_, fun e he => List.mem_cons_of_mem _ (hseen e he)⟩
  rcases mem_insertCandidate ((trim_sublist _).mem hc) with rfl | hc
  · exact iff_of_false Bool.false_ne_true fun hmem => hfresh (hseen _ hmem)
  · exact h c hc

theorem asked_withReply {endpoint : Endpoint} {reply : RpcReply}
    (h : l.withReply crypto endpoint reply = some l') : l'.asked = l.asked := by
  obtain ⟨-, c, hc, hawaited, rfl | ⟨token, rfl⟩⟩ := withReply_eq_some h
  · rfl
  · exact collect_induction (P := fun l' => l'.asked = l.asked)
      (fun _ _ _ _ h => h) (fun _ _ _ _ h => h) (fun _ _ h => h)
      (fun _ _ _ _ _ h hadded => (withCandidate_eq_some hadded).2 ▸ h) rfl

theorem asked_step (l : Lookup) : l.step.asked = l.asked := by
  rw [step]
  split_ifs <;> rfl

/-- No query is forgotten that was handed over. -/
theorem asked_apply (crypto : Crypto) (l : Lookup) (e : Event) :
    l.asked ⊆ (l.apply crypto e).asked := by
  cases e with
  | addCandidate id endpoint =>
    rw [apply, addCandidate]
    split
    next => exact List.Subset.refl _
    next l' h =>
      have hasked : l'.asked = l.asked := by
        obtain ⟨-, rfl⟩ := withCandidate_eq_some h
        rfl
      split_ifs
      · rw [asked_step, hasked]
        exact List.Subset.refl _
      · rw [hasked]
        exact List.Subset.refl _
  | start now =>
    rw [apply, start, asked_step]
    exact List.Subset.refl _
  | resume now =>
    rw [apply, Lookup.resume]
    split
    · exact List.Subset.refl _
    · split_ifs
      · exact List.Subset.refl _
      · split
        · exact List.subset_append_left _ _
        · dsimp only
          split_ifs <;> exact List.Subset.refl _
  | sent endpoint now => exact List.Subset.refl _
  | checkSlow now =>
    rw [apply, checkSlow]
    split_ifs
    · exact List.Subset.refl _
    · rw [asked_step]
      exact List.Subset.refl _
    · exact List.Subset.refl _
  | reply endpoint reply =>
    rw [apply, onReply]
    split
    next => exact List.Subset.refl _
    next l' h =>
      rw [asked_step, asked_withReply h]
      exact List.Subset.refl _

/-- What holds if queries are called back for at most once. -/
structure Answered (l : Lookup) (answered : List Endpoint) : Prop where
  nodup : answered.Nodup
  asked : ∀ endpoint ∈ answered, endpoint ∈ l.asked.map (·.dest)
  ended : l.finished = false → Ended answered l.candidates

/-- Whom a lookup has asked is a candidate. -/
theorem Balanced.mem_requested_of_asked (hl : Balanced l unsent) {endpoint : Endpoint}
    (h : endpoint ∈ l.asked.map (·.dest)) :
    ∃ c ∈ l.candidates, c.endpoint = endpoint ∧ c.state ≠ .New := by
  obtain ⟨node, hnode, rfl⟩ := List.mem_map.1
    (hl.requested.mem_iff.1 (List.mem_append_left _ h))
  obtain ⟨c, hc, rfl, hstate⟩ := mem_requested.1 hnode
  exact ⟨c, hc, rfl, hstate⟩

theorem Balanced.seen_of_asked (hl : Balanced l unsent) {endpoint : Endpoint}
    (h : endpoint ∈ l.asked.map (·.dest)) : endpoint ∈ l.seen := by
  obtain ⟨c, hc, rfl, -⟩ := hl.mem_requested_of_asked h
  exact hl.seen c hc

/-- A reply that was not given before ends the query of its candidate. -/
theorem Ended.conclude {answered : List Endpoint} (h : Ended answered l.candidates)
    (hl : Balanced l unsent) {endpoint : Endpoint} {c : Candidate}
    (hc : l.find endpoint = some c) {f : Candidate → Candidate} (hnode : (f c).node = c.node)
    (hended : (f c).hasEnded = true) :
    Ended (answered ++ [endpoint]) (l.conclude endpoint c f).candidates := by
  have hendpoint : c.endpoint = endpoint := by simpa using List.find?_some hc
  obtain ⟨front, back, hcandidates, hupdated⟩ := updateFirst_of_find hc f
  have hdistinct := hl.distinct
  rw [hcandidates, List.map_append, List.map_cons, List.nodup_middle, List.nodup_cons,
    hendpoint, ← List.map_append] at hdistinct
  intro d hd
  rw [Lookup.conclude, hupdated] at hd
  rw [List.mem_append, List.mem_singleton]
  rcases List.mem_cons.1 (List.perm_middle.mem_iff.1 hd) with rfl | hd
  · refine iff_of_true hended (.inr ?_)
    exact (congrArg Krpc.CompactNode.endpoint hnode).trans hendpoint
  · -- The others are those of other endpoints.
    have hne : d.endpoint ≠ endpoint := fun heq =>
      hdistinct.1 (heq ▸ List.mem_map_of_mem (f := fun c : Candidate => c.endpoint) hd)
    have hmem : d ∈ l.candidates := by
      rw [hcandidates]
      exact List.perm_middle.mem_iff.2 (List.mem_cons_of_mem _ hd)
    rw [h d hmem, or_iff_left hne]

theorem Ended.step {answered : List Endpoint} (h : Ended answered l.candidates) :
    Ended answered l.step.candidates := by
  rw [Lookup.step]
  split_ifs
  · exact h
  · exact h.choose l.queries l.budget 0

theorem Balanced.find_eq (hl : Balanced l unsent) {c : Candidate} (hc : c ∈ l.candidates)
    {endpoint : Endpoint} (hendpoint : c.endpoint = endpoint) : l.find endpoint = some c := by
  cases hfind : l.find endpoint with
  | none => exact absurd (decide_eq_true hendpoint) (List.find?_eq_none.1 hfind c hc)
  | some c' =>
    have hendpoint' : c'.endpoint = endpoint := by simpa using List.find?_some hfind
    rw [List.inj_on_of_nodup_map hl.distinct (List.mem_of_find?_eq_some hfind) hc
      (hendpoint'.trans hendpoint.symm)]

/-- A reply to a query that was handed over, and not called back for, is waited for. -/
theorem Answered.exists_withReply {answered : List Endpoint} (h : Answered l answered)
    (crypto : Crypto) (hl : Balanced l unsent) (hfinished : l.finished = false)
    {endpoint : Endpoint} (hasked : endpoint ∈ l.asked.map (·.dest)) (hfresh : endpoint ∉ answered)
    (reply : RpcReply) :
    ∃ l', l.withReply crypto endpoint reply = some l' := by
  obtain ⟨c, hc, hendpoint, hstate⟩ := hl.mem_requested_of_asked hasked
  have hnot : ¬c.hasEnded = true := fun hended =>
    hfresh (hendpoint ▸ (h.ended hfinished c hc).1 hended)
  have hawaited : ¬(c.state ≠ .InFlight ∧ c.state ≠ .Slow) := by
    simp only [Candidate.hasEnded, Bool.or_eq_true, decide_eq_true_eq] at hnot
    cases hcase : c.state <;> simp_all
  rw [withReply, hl.find_eq hc hendpoint, hfinished, if_neg Bool.false_ne_true]
  dsimp only
  rw [if_neg hawaited]
  split_ifs <;> exact ⟨_, rfl⟩

theorem Answered.reply {answered : List Endpoint} (h : Answered l answered)
    (hl : Balanced l unsent) (hfinished : l.finished = false) {endpoint : Endpoint}
    (hasked : endpoint ∈ l.asked.map (·.dest)) {reply : RpcReply}
    (hreply : l.withReply crypto endpoint reply = some l') :
    Ended (answered ++ [endpoint]) l'.candidates := by
  obtain ⟨-, c, hc, -, rfl | ⟨token, rfl⟩⟩ := withReply_eq_some hreply
  · exact (h.ended hfinished).conclude hl hc rfl rfl
  · have hseen : ∀ e ∈ answered ++ [endpoint], e ∈ l.seen := by
      intro e he
      rcases List.mem_append.1 he with he | he
      · exact hl.seen_of_asked (h.asked e he)
      · rw [List.mem_singleton.1 he]
        exact hl.seen_of_asked hasked
    have hconcluded : Ended (answered ++ [endpoint]) (l.noteResponse endpoint c token).candidates :=
      (h.ended hfinished).conclude hl hc rfl rfl
    exact (collect_induction (P := fun l' => Ended (answered ++ [endpoint]) l'.candidates ∧
        ∀ e ∈ answered ++ [endpoint], e ∈ l'.seen)
      (fun _ _ _ _ h => h) (fun _ _ _ _ h => h) (fun _ _ h => h)
      (fun _ _ _ _ _ h hadded => h.1.withCandidate h.2 hadded) ⟨hconcluded, hseen⟩).1

theorem finished_step (l : Lookup) : l.step.finished = l.finished := by
  rw [step]
  split_ifs <;> rfl

/-- A lookup that is finished stays so. -/
theorem finished_apply (crypto : Crypto) {e : Event} (h : (l.apply crypto e).finished = false) :
    l.finished = false := by
  cases e with
  | addCandidate id endpoint =>
    rw [apply, addCandidate] at h
    split at h
    next => exact h
    next l' hadded => exact (withCandidate_eq_some hadded).1
  | start now => exact (finished_step (l.begin now)).symm.trans h
  | resume now =>
    rw [apply, Lookup.resume] at h
    split at h
    · exact h
    · split_ifs at h with hfinished
      · exact h
      · simpa using hfinished
  | sent endpoint now => exact h
  | checkSlow now =>
    rw [apply, checkSlow] at h
    split_ifs at h with hfinished hslow
    · exact h
    · simpa using hfinished
    · exact h
  | reply endpoint reply =>
    rw [apply, onReply] at h
    split at h
    next => exact h
    next l' hreply => exact (withReply_eq_some hreply).1

/-- Whatever is not a reply leaves those as they are whose query has ended. -/
theorem Ended.apply {answered : List Endpoint} (h : Ended answered l.candidates)
    (hseen : ∀ endpoint ∈ answered, endpoint ∈ l.seen) {e : Event} (hnone : e.answers = []) :
    Ended answered (l.apply crypto e).candidates := by
  cases e with
  | addCandidate id endpoint =>
    rw [Lookup.apply, addCandidate]
    split
    next => exact h
    next l' hadded =>
      have hadded' := (h.withCandidate hseen hadded).1
      split_ifs
      · exact hadded'.step
      · exact hadded'
  | start now => exact Ended.step (l := l.begin now) h
  | resume now =>
    rw [Lookup.apply, Lookup.resume]
    split
    · exact h
    · split_ifs
      · exact h
      · split
        · exact h
        · dsimp only
          split_ifs <;> exact h
  | sent endpoint now => exact h.onSent endpoint now
  | checkSlow now =>
    rw [Lookup.apply, checkSlow]
    split_ifs
    · exact h
    · exact (h.markSlow now).step
    · exact h.markSlow now
  | reply endpoint reply => exact absurd hnone (List.cons_ne_nil _ _)

theorem Answered.apply {answered : List Endpoint} (h : Answered l answered)
    (hl : Balanced l unsent) {e : Event}
    (hanswers : e.answers.all (fun endpoint =>
      l.asked.any (·.dest = endpoint) && endpoint ∉ answered) = true) :
    Answered (l.apply crypto e) (answered ++ e.answers) := by
  have hanswered : ∀ endpoint ∈ e.answers,
      endpoint ∈ l.asked.map (·.dest) ∧ endpoint ∉ answered := by
    intro endpoint hendpoint
    have hboth := List.all_eq_true.1 hanswers endpoint hendpoint
    rw [Bool.and_eq_true, List.any_eq_true, decide_eq_true_eq] at hboth
    obtain ⟨⟨query, hquery, hdest⟩, hfresh⟩ := hboth
    exact ⟨List.mem_map.2 ⟨query, hquery, of_decide_eq_true hdest⟩, hfresh⟩
  refine ⟨?_, fun endpoint hendpoint => ?_, fun hunfinished => ?_⟩
  · refine List.nodup_append.2 ⟨h.nodup, ?_, fun a ha b hb hab => ?_⟩
    · cases e <;> simp [Event.answers]
    · exact (hanswered b hb).2 (hab ▸ ha)
  · refine List.map_subset _ (asked_apply crypto l e) ?_
    rcases List.mem_append.1 hendpoint with hendpoint | hendpoint
    · exact h.asked endpoint hendpoint
    · exact (hanswered endpoint hendpoint).1
  · have hfinished := finished_apply crypto hunfinished
    have hended := h.ended hfinished
    have hseen : ∀ endpoint ∈ answered, endpoint ∈ l.seen := fun endpoint hendpoint =>
      hl.seen_of_asked (h.asked endpoint hendpoint)
    cases e with
    | reply endpoint reply =>
      obtain ⟨hasked, hfresh⟩ := hanswered endpoint List.mem_cons_self
      obtain ⟨l', hreply⟩ := h.exists_withReply crypto hl hfinished hasked hfresh reply
      rw [Lookup.apply, onReply, hreply]
      exact (h.reply hl hfinished hasked hreply).step
    | _ =>
      show Ended (answered ++ []) _
      rw [List.append_nil]
      exact hended.apply hseen rfl

theorem Answered.run {answered : List Endpoint} {events : List Event} (h : Answered l answered)
    (hl : Balanced l unsent) (honce : callsBackOnce crypto l answered events = true) :
    Answered (l.run crypto events) (answered ++ events.flatMap Event.answers) := by
  induction events generalizing l unsent answered with
  | nil =>
    rw [List.flatMap_nil, List.append_nil]
    exact h
  | cons e events ih =>
    rw [callsBackOnce, Bool.and_eq_true] at honce
    rw [List.flatMap_cons, ← List.append_assoc]
    exact ih (h.apply hl honce.1) (hl.apply e) honce.2

/-! ## Runs -/

theorem finished_run (crypto : Crypto) {events : List Event}
    (h : (l.run crypto events).finished = false) : l.finished = false := by
  induction events generalizing l with
  | nil => exact h
  | cons e events ih => exact finished_apply crypto (ih h)

/-- A lookup that is not finished has asked whom it chose. -/
theorem givenUpIn_eq_nil {events : List Event} (h : (l.run crypto events).finished = false) :
    givenUpIn crypto l events = [] := by
  induction events generalizing l with
  | nil => rfl
  | cons e events ih =>
    have hfinished : l.finished = false := finished_apply crypto (finished_run crypto h)
    rw [givenUpIn, ih h, List.nil_append]
    cases e with
    | resume now => rw [givenUp, hfinished, if_neg Bool.false_ne_true]
    | addCandidate | start | sent | checkSlow | reply => rfl

/-- A lookup that is not finished waits for a reply that has not come, and the replies that
    have come are fewer than `MaxQueries`. -/
theorem Answered.exists_waiting {answered : List Endpoint} (h : Answered l answered)
    (hl : Balanced l []) (hfinished : l.finished = false) (hsending : l.sending = [])
    (hwaits : 0 < l.outstanding) :
    (∃ query ∈ l.asked, query.dest ∉ answered) ∧ answered.length < MaxQueries := by
  have hrequested := hl.requested
  rw [hsending, List.flatten_nil, List.append_nil, List.append_nil] at hrequested
  obtain ⟨c, hc, hawaited⟩ : ∃ c ∈ l.candidates, c.isAwaited = true := by
    have hcount := hl.outstanding
    exact List.countP_pos_iff.1 (by omega)
  obtain ⟨query, hquery, hdest⟩ : ∃ query ∈ l.asked, query.dest = c.endpoint := by
    refine List.mem_map.1 (hrequested.mem_iff.2 (List.mem_map.2 ⟨c.node, ?_, rfl⟩))
    exact mem_requested.2 ⟨c, hc, rfl, Candidate.ne_new_of_isAwaited hawaited⟩
  have hfresh : query.dest ∉ answered := by
    rw [hdest, ← h.ended hfinished c hc]
    rcases isAwaited_iff.1 hawaited with hstate | hstate <;> simp [Candidate.hasEnded, hstate]
  refine ⟨⟨query, hquery, hfresh⟩, ?_⟩
  have hsub : query.dest :: answered ⊆ l.asked.map (·.dest) :=
    List.cons_subset.2 ⟨List.mem_map_of_mem hquery, h.asked⟩
  calc answered.length < (query.dest :: answered).length := Nat.lt_succ_self _
    _ ≤ (l.asked.map (·.dest)).length :=
      ((List.nodup_cons.2 ⟨hfresh, h.nodup⟩).subperm hsub).length_le
    _ = (requested l.candidates).length := by rw [hrequested.length_eq, List.length_map]
    _ = l.queries := hl.queries.symm
    _ ≤ MaxQueries := hl.queries_le

/-- In every run a lookup that was started is finished, or waits for a reply, whenever no call
    of `step` is under way or one returns. If queries are called back for at most once, it is
    finished once all of them were, and once `MaxQueries` were. -/
theorem unstalled_run (crypto : Crypto) (kind : Kind) (target : NodeId) (family : Family)
    (self : NodeId) (allowLocal : Bool) (salt : Bytes) (slowAfterMs queryTimeoutMs : ℤ)
    (events : List Event) :
    let l₀ := ((new kind target family self allowLocal).setSalt salt).setTimeouts slowAfterMs
      queryTimeoutMs
    let l := l₀.run crypto events
    l.started = true →
    (l.sending = [] → Unstalled l) ∧
    (∀ now, l.sending.head? = some [] → Unstalled (l.resume now)) ∧
    (callsBackOnce crypto l₀ [] events = true →
      (events.flatMap Event.answers).length ≤ MaxQueries ∧
      (l.sending = [] → l.finished = false →
        (∃ query ∈ l.asked, query.dest ∉ events.flatMap Event.answers) ∧
        (events.flatMap Event.answers).length < MaxQueries)) := by
  intro l₀ l hstarted
  have hl₀ : Balanced l₀ [] :=
    balanced_new kind target family self allowLocal salt slowAfterMs queryTimeoutMs
  have hl : Balanced l (givenUpIn crypto l₀ events ++ []) := hl₀.run events
  have hgoing : Going l := going_run (l := l₀) ⟨rfl, nofun, nofun⟩ hl₀ events
  refine ⟨hgoing.unstalled hl hstarted,
    fun now hsending => hgoing.unstalled_resume hstarted hsending now, fun honce => ?_⟩
  have hanswered : Answered l (events.flatMap Event.answers) :=
    Answered.run (l := l₀) ⟨.nil, nofun, fun _ _ hc => absurd hc List.not_mem_nil⟩ hl₀ honce
  refine ⟨?_, fun hsending hfinished => ?_⟩
  · calc (events.flatMap Event.answers).length ≤ (l.asked.map (·.dest)).length :=
        (hanswered.nodup.subperm hanswered.asked).length_le
      _ ≤ (requested l.candidates).length := by
        rw [← List.length_map (f := Krpc.CompactNode.endpoint), ← hl.requested.length_eq,
          List.length_append]
        exact Nat.le_add_right _ _
      _ = l.queries := hl.queries.symm
      _ ≤ MaxQueries := hl.queries_le
  · rw [List.append_nil, givenUpIn_eq_nil hfinished] at hl
    rcases hgoing.unstalled hl hstarted hsending with ⟨hnot, -⟩ | ⟨-, -, hwaits, -⟩
    · exact absurd hnot (by rw [hfinished]; decide)
    · exact hanswered.exists_waiting hl hfinished hsending hwaits

/-- Of two nodes that are asked the first responds. -/
def firstResponds : List Event := [1, 2].map adds ++ [.start 1] ++ goesOn ++ responds 1

theorem unstalled_run_first :
    Unstalled (searcher.run noCrypto firstResponds) ∧
    ∃ query ∈ (searcher.run noCrypto firstResponds).asked,
      query.dest ∉ firstResponds.flatMap Event.answers := by
  obtain ⟨hbetween, -, hreplies⟩ := unstalled_run noCrypto .FindNode default .IPv4
    (nodeAt 255).id false [] 700 1500 firstResponds (by decide +kernel)
  refine ⟨hbetween (by decide +kernel), ?_⟩
  exact ((hreplies (by decide +kernel)).2 (by decide +kernel) (by decide +kernel)).1

end Dht.Lookup
