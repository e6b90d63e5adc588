import DhtCore.Lib.Leading
import DhtCore.Lookup.Steps

/-!
# Completeness of lookups

A lookup that reports `K` contacts should leave no candidate that is closer unasked or
unheard. `canFinish` looks only at those that are waited for, and so relies on `step`
having asked the closer ones. But `step` asks nobody when no slot is free, which is so
when a slow candidate answers while as many are in flight as may be: then the lookup is
finished though what it was just told of is closer (`exists_not_complete`).

* `starved` says when `step` is called so;
* in a run in which it never is (`fed`), every result is complete (`complete_run`), which
  is because between the events what is closer has been asked (`Settled`).
-/

namespace Dht.Lookup

open Leading

variable {crypto : Crypto} {l l' : Lookup}

/-! ## Results -/

/-- The last of the first `K` that responded, and the candidates before it. -/
def eighth (l : Lookup) : Option (List Candidate × Candidate) :=
  upTo (·.state = .Responded) (K - 1) l.candidates

/-- The result is the closest that responded, and nothing that did not fail is closer. -/
structure Complete (l : Lookup) (result : Result) : Prop where
  closest : result.closest = (l.responders.take K).map Candidate.toContact
  inOrder : result.closest.Pairwise fun a b => ¬NodeId.closer l.target b.id a.id
  others : ∀ c ∈ l.candidates, c.state = .Responded → c.toContact ∉ result.closest →
    ∀ contact ∈ result.closest, ¬NodeId.closer l.target c.id contact.id
  none_closer : ∀ c ∈ l.candidates, c.state = .New ∨ c.state = .InFlight ∨ c.state = .Slow →
    ∀ contact ∈ result.closest.getLast?, ¬NodeId.closer l.target c.id contact.id

/-! ## Conditions -/

/-- `step` is called with no slot free, though a candidate that is closer than the last of
    the first `K` that responded was not asked, and none is waited for before it. -/
def starved (l : Lookup) : Bool :=
  !l.finished && l.queries < MaxQueries && l.budget ≤ 0 && l.eighth.any fun (front, last) =>
    front.all (!·.isAwaited) && front.any fun c => c.state = .New &&
      NodeId.closer l.target c.id last.id

/-- A run in which `step` is never called starved. -/
def fed (crypto : Crypto) (l : Lookup) : List Event → Bool
  | [] => true
  | e :: events => (stepping crypto l e).all (!·.starved) && fed crypto (l.apply crypto e) events

/-! ## What stays when only times change -/

/-- A candidate without the time its query went out. -/
def Candidate.timeless (c : Candidate) : Candidate := { c with sentAtMs := 0 }

theorem Candidate.of_timeless {c c' : Candidate} (h : c.timeless = c'.timeless) :
    c.id = c'.id ∧ c.state = c'.state ∧ c.toContact = c'.toContact := by
  simp only [timeless, Candidate.mk.injEq] at h
  obtain ⟨hid, hendpoint, hstate, htoken, -⟩ := h
  exact ⟨hid, hstate, by rw [toContact, toContact, hid, hendpoint, htoken]⟩

/-- Two lookups are the same but for times, timers and what is under way. -/
structure Same (l l' : Lookup) : Prop where
  target : l'.target = l.target
  candidates : l'.candidates.map Candidate.timeless = l.candidates.map Candidate.timeless
  queries : l'.queries = l.queries
  finished : l'.finished = l.finished
  reports : l'.reports = l.reports

/-- A candidate was there before, but for the time. -/
theorem Same.exists_mem (h : Same l l') {c : Candidate} (hc : c ∈ l'.candidates) :
    ∃ c₀ ∈ l.candidates, c₀.timeless = c.timeless := by
  have hmem : c.timeless ∈ l.candidates.map Candidate.timeless :=
    h.candidates ▸ List.mem_map_of_mem hc
  exact List.mem_map.1 hmem

theorem map_toContact_of_timeless {cs cs' : List Candidate} (n : ℕ)
    (h : cs'.map Candidate.timeless = cs.map Candidate.timeless) :
    ((cs'.filter (·.state = .Responded)).take n).map Candidate.toContact =
      ((cs.filter (·.state = .Responded)).take n).map Candidate.toContact := by
  have hmap (cs : List Candidate) : ((cs.filter (·.state = .Responded)).take n).map
      Candidate.toContact = (((cs.map Candidate.timeless).filter (·.state = .Responded)).take n).map
      Candidate.toContact := by
    rw [List.filter_map, ← List.map_take, List.map_map]
    rfl
  rw [hmap cs', h, ← hmap cs]

theorem Complete.of_same {result : Result} (hc : Complete l result) (h : Same l l') :
    Complete l' result where
  closest := hc.closest.trans (map_toContact_of_timeless K h.candidates).symm
  inOrder := h.target ▸ hc.inOrder
  others c' hc' hstate hnot := by
    obtain ⟨c, hmem, heq⟩ := h.exists_mem hc'
    obtain ⟨hid, hcstate, hcontact⟩ := Candidate.of_timeless heq
    rw [h.target, ← hid]
    exact hc.others c hmem (hcstate.trans hstate) (hcontact ▸ hnot)
  none_closer c' hc' hstate := by
    obtain ⟨c, hmem, heq⟩ := h.exists_mem hc'
    obtain ⟨hid, hcstate, -⟩ := Candidate.of_timeless heq
    rw [h.target, ← hid]
    exact hc.none_closer c hmem (hcstate ▸ hstate)

/-- What is closer than the last of the first `K` that responded has been asked, if none
    before it is waited for. -/
def Settled (l : Lookup) : Prop :=
  l.queries < MaxQueries → ∀ front last, l.eighth = some (front, last) →
    (∀ c ∈ front, c.isAwaited = false) → ∀ c ∈ front, c.state = .New →
      ¬NodeId.closer l.target c.id last.id

theorem Settled.of_same (hl : Settled l) (h : Same l l') : Settled l' := by
  intro hqueries front' last' h' hawaited c' hc' hnew
  -- What `upTo` finds depends on no time, so that it found the same before.
  have hmap : l'.eighth.map (fun r => (r.1.map Candidate.timeless, r.2.timeless)) =
      l.eighth.map fun r => (r.1.map Candidate.timeless, r.2.timeless) := by
    rw [eighth, eighth, ← upTo_map Candidate.timeless (fun _ => rfl), h.candidates,
      upTo_map Candidate.timeless (fun _ => rfl)]
  rw [h', Option.map_some] at hmap
  obtain ⟨⟨front, last⟩, heighth, heq⟩ := Option.map_eq_some_iff.1 hmap.symm
  rw [Prod.mk.injEq] at heq
  obtain ⟨hfront, hlast⟩ := heq
  have hback : ∀ c ∈ front, c.isAwaited = false := by
    intro c hc
    obtain ⟨d, hd, hdc⟩ := List.mem_map.1
        (hfront ▸ List.mem_map_of_mem (f := Candidate.timeless) hc)
    rw [Candidate.isAwaited, ← (Candidate.of_timeless hdc).2.1]
    exact hawaited d hd
  obtain ⟨c, hc, hcc'⟩ := List.mem_map.1
      (hfront.symm ▸ List.mem_map_of_mem (f := Candidate.timeless) hc')
  obtain ⟨hid, hstate, -⟩ := Candidate.of_timeless hcc'
  have hclosed := hl (h.queries ▸ hqueries) front last heighth hback c hc (hstate.trans hnew)
  rwa [h.target, ← hid, ← (Candidate.of_timeless hlast).1]

/-! ## What `step` asks -/

/-- If a query may be sent, either it goes to a new candidate before the last of the first
    `K` that responded, which is waited for then, or there is none. -/
theorem not_new_of_choose {queries : ℕ} {budget : ℤ} {ahead : ℕ} {cs front : List Candidate}
    {last : Candidate} (hbudget : 0 < budget) (hqueries : queries < MaxQueries) (hahead : ahead < K)
    (hlast : upTo (·.state = .Responded) (K - 1 - ahead) (choose queries budget ahead cs).1 =
      some (front, last))
    (hawaited : ∀ c ∈ front, c.isAwaited = false) : ∀ c ∈ front, c.state ≠ .New := by
  induction cs generalizing ahead front with
  | nil => simp [choose, upTo] at hlast
  | cons c cs ih =>
    rw [choose, if_neg (by omega)] at hlast
    split_ifs at hlast with hresponded hnew
    · rcases upTo_cons_of_pos (by simpa using hresponded) hlast
        with ⟨-, rfl, -⟩ | ⟨m, rest, hm, rfl, hrest⟩
      · exact fun _ h => absurd h List.not_mem_nil
      · rw [List.forall_mem_cons] at hawaited ⊢
        obtain rfl : m = K - 1 - (ahead + 1) := by omega
        exact ⟨by simp [hresponded], ih (by omega) hrest hawaited.2⟩
    · -- A new candidate is asked, so that one before the last is waited for.
      obtain ⟨rest, rfl, -⟩ := upTo_cons_of_neg (by simp) hlast
      exact absurd (hawaited _ List.mem_cons_self) (by simp [Candidate.isAwaited])
    · obtain ⟨rest, rfl, hrest⟩ := upTo_cons_of_neg (by simpa using hresponded) hlast
      rw [List.forall_mem_cons] at hawaited ⊢
      exact ⟨fun h => hnew ⟨h, hqueries⟩, ih hahead hrest hawaited.2⟩

/-- After `step` was called, not starved, what is closer has been asked. -/
theorem settled_step (hfinished : l.finished = false) (hfed : l.starved = false) :
    l.step.Settled := by
  intro hqueries front last hlast hawaited c hc hnew
  rw [step, hfinished, if_neg Bool.false_ne_true] at hqueries hlast ⊢
  dsimp only [eighth] at hqueries hlast ⊢
  have hbefore : l.queries < MaxQueries := by omega
  -- With budget left the closest are asked; without, the lookup is not starved.
  by_cases hbudget : 0 < l.budget
  · exact absurd hnew (not_new_of_choose hbudget hbefore K_pos hlast hawaited c hc)
  · rw [choose_of_nonpos (not_lt.1 hbudget)] at hlast
    intro hcloser
    have hstarved : l.starved = true := by
      rw [starved, eighth, hlast, hfinished]
      simp only [Bool.not_false, Bool.true_and, Bool.and_eq_true, decide_eq_true_eq,
        Option.any_some, List.all_eq_true, Bool.not_eq_true', List.any_eq_true]
      exact ⟨⟨hbefore, not_lt.1 hbudget⟩, hawaited, c, hc, hnew, hcloser⟩
    rw [hfed] at hstarved
    exact Bool.false_ne_true hstarved

/-! ## What `finish` reports -/

/-- If `canFinish` saw none that is waited for, there is none before the last of the first
    `K` that responded. -/
theorem not_awaited_of_respondedFirst {responded n : ℕ} {cs front : List Candidate}
    {last : Candidate} (hresponded : responded < K)
    (hlast : upTo (·.state = .Responded) (K - 1 - responded) cs = some (front, last))
    (hfirst : respondedFirst responded cs = some n) : ∀ c ∈ front, c.isAwaited = false := by
  induction cs generalizing responded front with
  | nil => simp [upTo] at hlast
  | cons c cs ih =>
    rw [respondedFirst, if_neg (by omega)] at hfirst
    split_ifs at hfirst with hstate hawaited
    · rcases upTo_cons_of_pos (by simpa using hstate) hlast
        with ⟨-, rfl, -⟩ | ⟨m, rest, hm, rfl, hrest⟩
      · exact fun _ h => absurd h List.not_mem_nil
      · obtain rfl : m = K - 1 - (responded + 1) := by omega
        refine List.forall_mem_cons.2 ⟨by simp [Candidate.isAwaited, hstate], ?_⟩
        exact ih (by omega) hrest hfirst
    · obtain ⟨rest, rfl, hrest⟩ := upTo_cons_of_neg (by simpa using hstate) hlast
      refine List.forall_mem_cons.2 ⟨?_, ih hresponded hrest hfirst⟩
      rw [not_or] at hawaited
      simp [Candidate.isAwaited, hawaited.1, hawaited.2]

theorem not_awaited_of_canFinish {front : List Candidate} {last : Candidate}
    (hlast : l.eighth = some (front, last)) (h : l.canFinish = true) :
    ∀ c ∈ front, c.isAwaited = false := by
  rw [canFinish] at h
  split at h
  next => exact absurd h Bool.false_ne_true
  next hfirst => exact not_awaited_of_respondedFirst K_pos hlast hfirst

/-- A settled lookup that can finish is complete, if `K` responded. -/
theorem complete_of_settled {result : Result} (hl : InOrder l.target l.candidates)
    (hsettled : l.Settled) (hfinish : l.canFinish = true) (hqueries : l.queries < MaxQueries)
    (hclosest : result.closest = (l.responders.take K).map Candidate.toContact)
    (hK : result.closest.length = K) : Complete l result := by
  have hcount : K ≤ l.candidates.countP (·.state = .Responded) := by
    rw [hclosest, List.length_map, List.length_take, responders,
      ← List.countP_eq_length_filter] at hK
    omega
  -- `last` is the `K`th that responded, and `front` is all that comes before it.
  obtain ⟨front, last, hlast⟩ : ∃ front last, l.eighth = some (front, last) :=
    exists_upTo (lt_of_lt_of_le (by decide) hcount)
  have htake : l.responders.take K = front.filter (·.state = .Responded) ++ [last] :=
    filter_take hlast
  obtain ⟨-, -, rest, hsplit⟩ := upTo_eq_some hlast
  have hfront : ∀ c ∈ l.candidates, NodeId.closer l.target c.id last.id → c ∈ front :=
    fun c hc hcloser => mem_front hl hlast hc (NodeId.closer_iff.1 hcloser)
  have hsublist : (l.responders.take K).Sublist l.candidates :=
    (List.take_sublist _ _).trans List.filter_sublist
  constructor
  case closest => exact hclosest
  case inOrder =>
    rw [hclosest, List.pairwise_map]
    exact (hl.sublist hsublist).imp fun hle hcloser =>
      absurd (NodeId.closer_iff.1 hcloser) (not_lt.2 hle)
  case others =>
    intro c hc hstate hnot contact hcontact hcloser
    rw [hclosest, htake] at hnot hcontact
    obtain ⟨d, hd, rfl⟩ := List.mem_map.1 hcontact
    -- One closer than a contact of the result stands before `last`, as they are in order.
    have hdlast : NodeId.distance l.target d.id ≤ NodeId.distance l.target last.id := by
      rcases List.mem_append.1 hd with hd | hd
      · rw [hsplit] at hl
        exact (List.pairwise_append.1 hl).2.2 d (List.mem_of_mem_filter hd) last List.mem_cons_self
      · rw [List.mem_singleton.1 hd]
    have hcfront : c ∈ front := mem_front hl hlast hc
        ((NodeId.closer_iff.1 hcloser).trans_le hdlast)
    exact hnot (List.mem_map_of_mem (List.mem_append_left
      _ (List.mem_filter.2 ⟨hcfront, by simpa using hstate⟩)))
  case none_closer =>
    intro c hc hstate contact hcontact hcloser
    rw [hclosest, htake, List.map_append, List.map_singleton, List.getLast?_concat] at hcontact
    obtain rfl := Option.some.inj hcontact
    have hcfront := hfront c hc hcloser
    -- None before `last` is waited for, and none is new as the lookup is settled.
    have hawaited := not_awaited_of_canFinish hlast hfinish
    rcases hstate with hnew | hstate
    · exact hsettled hqueries front last hlast hawaited c hcfront hnew hcloser
    · have hnot := hawaited c hcfront
      rcases hstate with hstate | hstate <;> simp [Candidate.isAwaited, hstate] at hnot

/-! ## Runs -/

/-- What holds between events, if `step` was never called starved. -/
structure Inv (l : Lookup) : Prop where
  inOrder : InOrder l.target l.candidates
  /-- Before the start no candidate was asked. -/
  idle : l.started = false → ∀ c ∈ l.candidates, c.state = .New
  settled : l.finished = false → l.Settled
  unreported : l.finished = false → l.reports = []
  complete : ∀ result ∈ l.reports, result.queried < MaxQueries → result.closest.length = K →
    Complete l result

theorem Inv.of_same (hl : Inv l) (h : Same l l') (hstarted : l'.started = l.started) : Inv l' where
  inOrder := by
    have hids (cs : List Candidate) : cs.map (·.id) = (cs.map Candidate.timeless).map (·.id) := by
      rw [List.map_map]
      rfl
    rw [h.target]
    exact hl.inOrder.of_ids (by rw [hids, h.candidates, ← hids])
  idle h' c' hc' := by
    obtain ⟨c, hc, heq⟩ := h.exists_mem hc'
    exact (Candidate.of_timeless heq).2.1 ▸ hl.idle (hstarted ▸ h') c hc
  settled h' := (hl.settled (h.finished ▸ h')).of_same h
  unreported h' := h.reports.trans (hl.unreported (h.finished ▸ h'))
  complete result hresult hqueries hK :=
    (hl.complete result (h.reports ▸ hresult) hqueries hK).of_same h

theorem Inv.finish (hl : Inv l) (hfinished : l.finished = false) (hfinish : l.canFinish = true)
    (now : ℤ) :
    Inv (l.finish now) where
  inOrder := hl.inOrder
  idle := hl.idle
  settled h := nomatch h
  unreported h := nomatch h
  complete result hresult hqueries hK := by
    rw [Lookup.finish, hl.unreported hfinished, List.nil_append, List.mem_singleton] at hresult
    obtain rfl := hresult
    have hcomplete : Complete l _ :=
      complete_of_settled hl.inOrder (hl.settled hfinished) hfinish hqueries rfl hK
    exact ⟨hcomplete.closest, hcomplete.inOrder, hcomplete.others, hcomplete.none_closer⟩

theorem inv_step (hfinished : l.finished = false) (hstarted : l.started = true)
    (hreports : l.reports = []) (hl : InOrder l.target l.candidates) (hfed : l.starved = false) :
    Inv l.step where
  inOrder := by
    rw [step, hfinished, if_neg Bool.false_ne_true]
    exact hl.of_ids (ids_choose ..)
  idle h := by
    rw [step, hfinished, if_neg Bool.false_ne_true] at h
    exact absurd (hstarted.symm.trans h) Bool.noConfusion
  settled _ := settled_step hfinished hfed
  unreported _ := by
    rw [step, hfinished, if_neg Bool.false_ne_true]
    exact hreports
  complete result hresult := by
    rw [step, hfinished, if_neg Bool.false_ne_true] at hresult
    rw [hreports] at hresult
    exact absurd hresult List.not_mem_nil

theorem Inv.of_keeps (hl : Inv l) (h : Keeps l l') (hfinished : l.finished = false)
    (hstarted : l'.started = true) (hfed : l'.starved = false) : Inv l'.step :=
  inv_step (h.finished.trans hfinished) hstarted (h.reports.trans (hl.unreported hfinished))
    (h.target.symm ▸ h.inOrder hl.inOrder) hfed

/-- An event that calls `step`, which is not starved. -/
theorem Inv.of_stepping {e : Event} (hl : Inv l) (h : stepping crypto l e = some l')
    (hfed : l'.starved = false) : Inv l'.step := by
  cases e with
  | addCandidate id endpoint =>
    obtain ⟨hadded, hstarted⟩ := Option.filter_eq_some_iff.1 h
    exact hl.of_keeps (keeps_withCandidate hadded) (withCandidate_eq_some hadded).1 hstarted hfed
  | start now =>
    obtain rfl := Option.some.inj h
    by_cases hfinished : l.finished = true
    · have hstep : (l.begin now).step = l.begin now := if_pos hfinished
      rw [hstep]
      refine ⟨hl.inOrder, fun h => absurd h (by simp [begin]), hl.settled, hl.unreported,
        fun result hresult hqueries hK => ?_⟩
      exact (hl.complete result hresult hqueries hK).of_same ⟨rfl, rfl, rfl, rfl, rfl⟩
    · have hnot : l.finished = false := by simpa using hfinished
      exact inv_step hnot rfl (hl.unreported hnot) hl.inOrder hfed
  | checkSlow now =>
    rw [stepping] at h
    split_ifs at h with hslow
    obtain rfl := Option.some.inj h
    rw [Bool.and_eq_true, Bool.not_eq_true', List.any_eq_true] at hslow
    obtain ⟨hfinished, c, hc, hcslow⟩ := hslow
    refine hl.of_keeps (keeps_markSlow l now) hfinished ?_ hfed
    rw [(keeps_markSlow l now).started]
    -- A candidate that is slow was asked, so that the lookup has started.
    by_contra hstarted
    have hnew := hl.idle (by simpa using hstarted) c hc
    simp [isSlow, hnew] at hcslow
  | reply endpoint reply =>
    obtain ⟨hkeeps, hfinished, c, hc, hstate⟩ := keeps_withReply h
    refine hl.of_keeps hkeeps hfinished ?_ hfed
    rw [hkeeps.started]
    by_contra hstarted
    rw [hl.idle (by simpa using hstarted) c hc] at hstate
    simp at hstate
  | resume | sent => cases h

theorem Inv.resume (hl : Inv l) (now : ℤ) : Inv (l.resume now) := by
  rw [Lookup.resume]
  split
  next => exact hl
  next endpoints frames _ =>
    split
    next => exact hl.of_same ⟨rfl, rfl, rfl, rfl, rfl⟩ rfl
    next hfinished =>
      split
      next => exact hl.of_same ⟨rfl, rfl, rfl, rfl, rfl⟩ rfl
      next =>
        have hdone : Inv { l with sending := frames, slowTimer := l.slowTimer ||
            l.outstanding > 0 } :=
          hl.of_same ⟨rfl, rfl, rfl, rfl, rfl⟩ rfl
        dsimp only
        split
        next hfinish => exact hdone.finish (by simpa using hfinished) hfinish now
        next => exact hdone

theorem settled_of_new (h : ∀ c ∈ l.candidates, c.state = .New) : Settled l := by
  intro _ front last hlast
  obtain ⟨hresponded, -, rest, hsplit⟩ := upTo_eq_some hlast
  have hnew : last.state = .New := h last (hsplit ▸ List.mem_append_right _ List.mem_cons_self)
  simp [hnew] at hresponded

/-- A candidate is added before the lookup is started. -/
theorem Inv.withCandidate {id : NodeId} {endpoint : Endpoint} {hops : ℤ} (hl : Inv l)
    (h : l.withCandidate id endpoint hops = some l') (hstarted : l'.started = false) : Inv l' := by
  have hkeeps := keeps_withCandidate h
  obtain ⟨hfinished, heq⟩ := withCandidate_eq_some h
  have hnew : ∀ c ∈ l'.candidates, c.state = .New := by
    rw [heq]
    intro c hc
    rcases mem_insertCandidate ((trim_sublist _).mem hc) with rfl | hc
    · rfl
    · exact hl.idle (hkeeps.started ▸ hstarted) c hc
  have hreports : l'.reports = [] := hkeeps.reports.trans (hl.unreported hfinished)
  refine ⟨hkeeps.target.symm ▸ hkeeps.inOrder hl.inOrder, fun _ => hnew, fun _ =>
    settled_of_new hnew, fun _ => hreports, fun result hresult => ?_⟩
  rw [hreports] at hresult
  exact absurd hresult List.not_mem_nil

/-- An event that does not call `step`. -/
theorem Inv.of_not_stepping {e : Event} (hl : Inv l) (h : stepping crypto l e = none) :
    Inv (l.apply crypto e) := by
  cases e with
  | addCandidate id endpoint =>
    rw [apply, addCandidate]
    split
    next => exact hl
    next l' hadded =>
      have hstarted : l'.started = false := by
        simpa [stepping, hadded] using h
      rw [hstarted, if_neg Bool.false_ne_true]
      exact hl.withCandidate hadded hstarted
  | start now => cases h
  | checkSlow now =>
    rw [stepping] at h
    split_ifs at h with hslow
    rw [apply, checkSlow]
    split
    next => exact hl
    next hfinished =>
      have hany : ¬l.candidates.any (l.isSlow now) = true := fun hany =>
          hslow (by simp [hfinished, hany])
      rw [if_neg hany]
      -- No candidate is slow, so that none is marked.
      refine hl.of_same ⟨rfl, ?_, rfl, rfl, rfl⟩ rfl
      rw [List.any_eq_true] at hany
      rw [markSlow, List.map_map]
      refine List.map_congr_left fun c hc => ?_
      dsimp only [Function.comp]
      rw [if_neg fun hcslow => hany ⟨c, hc, hcslow⟩]
  | reply endpoint reply =>
    rw [stepping] at h
    rw [apply, onReply, h]
    exact hl
  | resume now => exact hl.resume now
  | sent endpoint now =>
    -- Only the time of sending is noted.
    refine hl.of_same ⟨rfl, map_updateFirst (fun c => ?_) endpoint _, rfl, rfl, rfl⟩ rfl
    split_ifs <;> rfl

theorem Inv.apply {e : Event} (hl : Inv l)
    (hfed : ((stepping crypto l e).all (!·.starved)) = true) :
    Inv (l.apply crypto e) := by
  cases h : stepping crypto l e with
  | none => exact hl.of_not_stepping h
  | some l' =>
    rw [h, Option.all_some, Bool.not_eq_true'] at hfed
    rw [apply_of_stepping h]
    exact hl.of_stepping h hfed

theorem Inv.run {events : List Event} (hl : Inv l) (hfed : fed crypto l events = true) :
    Inv (l.run crypto events) := by
  induction events generalizing l with
  | nil => exact hl
  | cons e events ih =>
    rw [fed, Bool.and_eq_true] at hfed
    exact ih (hl.apply hfed.1) hfed.2

theorem inv_new (kind : Kind) (target : NodeId) (family : Family) (self : NodeId)
    (allowLocal : Bool) (salt : Bytes) (slowAfterMs queryTimeoutMs : ℤ) :
    Inv (((new kind target family self allowLocal).setSalt salt).setTimeouts slowAfterMs
      queryTimeoutMs) where
  inOrder := List.Pairwise.nil
  idle _ _ hc := absurd hc List.not_mem_nil
  settled _ := settled_of_new fun _ hc => absurd hc List.not_mem_nil
  unreported _ := rfl
  complete _ hresult := absurd hresult List.not_mem_nil

/-- In every run in which `step` is never called starved, a result of `K` contacts for which
    fewer than `MaxQueries` queries were sent is complete. -/
theorem complete_run (crypto : Crypto) (kind : Kind) (target : NodeId)
    (family : Family) (self : NodeId) (allowLocal : Bool) (salt : Bytes)
    (slowAfterMs queryTimeoutMs : ℤ) (events : List Event) :
    let l := ((new kind target family self allowLocal).setSalt salt).setTimeouts
      slowAfterMs queryTimeoutMs
    l.fed crypto events = true →
    ∀ result ∈ (l.run crypto events).reports, result.closest.length = K →
    result.queried < MaxQueries →
      (l.run crypto events).Complete result := by
  intro l hfed result hresult hK hqueries
  exact ((inv_new kind target family self allowLocal salt slowAfterMs queryTimeoutMs).run
    hfed).complete
    result hresult hqueries hK

/-! ## Starved lookups -/

theorem respondedFirst_K (cs : List Candidate) : respondedFirst K cs = some K := by
  cases cs with
  | nil => rfl
  | cons c cs => rw [respondedFirst, if_pos le_rfl]

theorem respondedFirst_of_not_awaited {responded : ℕ} {cs front : List Candidate} {last : Candidate}
    (hresponded : responded < K)
    (hlast : upTo (·.state = .Responded) (K - 1 - responded) cs = some (front, last))
    (hawaited : ∀ c ∈ front, c.isAwaited = false) : respondedFirst responded cs = some K := by
  induction cs generalizing responded front with
  | nil => simp [upTo] at hlast
  | cons c cs ih =>
    rw [respondedFirst, if_neg (by omega)]
    by_cases hstate : c.state = .Responded
    · rw [if_pos hstate]
      rcases upTo_cons_of_pos (by simpa using hstate) hlast
        with ⟨hm, -, -⟩ | ⟨m, rest, hm, rfl, hrest⟩
      · rw [show responded + 1 = K by omega, respondedFirst_K]
      · obtain rfl : m = K - 1 - (responded + 1) := by omega
        exact ih (by omega) hrest (List.forall_mem_cons.1 hawaited).2
    · obtain ⟨rest, rfl, hrest⟩ := upTo_cons_of_neg (by simpa using hstate) hlast
      obtain ⟨hc, hrest'⟩ := List.forall_mem_cons.1 hawaited
      rw [if_neg hstate, if_neg (by simpa [Candidate.isAwaited] using hc)]
      exact ih hresponded hrest hrest'

theorem run_of_stepping {e : Event} (h : stepping crypto l e = some l') (now : ℤ) :
    l.run crypto [e, .resume now] = l'.step.resume now := by
  rw [run, List.foldl_cons, List.foldl_cons, List.foldl_nil, apply_of_stepping h, apply]

/-- A lookup for which `step` is called starved finishes when that returns, with a result
    that is not complete. -/
theorem not_complete_of_starved (h : l.starved = true) (now : ℤ) :
    ∃ result ∈ (l.step.resume now).reports, result.closest.length = K ∧
    result.queried < MaxQueries ∧
      ¬(l.step.resume now).Complete result := by
  rw [starved, Bool.and_eq_true, Bool.and_eq_true, Bool.and_eq_true, Bool.not_eq_true',
    decide_eq_true_eq, decide_eq_true_eq, Option.any_eq_true] at h
  obtain ⟨⟨⟨hfinished, hqueries⟩, hbudget⟩, ⟨front, last⟩, hlast, hstarved⟩ := h
  rw [Bool.and_eq_true, List.all_eq_true, List.any_eq_true] at hstarved
  obtain ⟨hawaited, c, hc, hcloser⟩ := hstarved
  rw [Bool.and_eq_true, decide_eq_true_eq] at hcloser
  have hnot : ∀ c ∈ front, c.isAwaited = false := fun c hc => by simpa using hawaited c hc
  have hfirst : respondedFirst 0 l.candidates = some K :=
    respondedFirst_of_not_awaited K_pos hlast hnot
  obtain ⟨-, hcount, rest, hsplit⟩ := upTo_eq_some hlast
  have hclosest : (l.responders.take K).map Candidate.toContact =
      (front.filter (·.state = .Responded)).map Candidate.toContact ++ [last.toContact] := by
    rw [← List.map_singleton, ← List.map_append]
    exact congrArg _ (filter_take hlast)
  -- Nobody is asked, and the lookup can be finished.
  have hfinish : (l.step.resume now) =
      { l with slowTimer := l.slowTimer || l.outstanding > 0 }.finish now := by
    rw [step, hfinished, if_neg Bool.false_ne_true, choose_of_nonpos hbudget]
    simp only [List.length_nil, Nat.cast_zero, add_zero, resume, Bool.false_eq_true, if_false,
      canFinish, hfirst, ge_iff_le, le_refl, if_true]
  rw [hfinish]
  refine ⟨_, List.mem_append_right _ List.mem_cons_self, ?_, hqueries, fun hcomplete => ?_⟩
  · show ((l.responders.take K).map Candidate.toContact).length = K
    rw [hclosest, List.length_append, List.length_map, ← List.countP_eq_length_filter, hcount]
    rfl
  · have hmem : c ∈ l.candidates := hsplit ▸ List.mem_append_left _ hc
    refine hcomplete.none_closer c hmem (.inl hcloser.1) last.toContact ?_ hcloser.2
    show last.toContact ∈ ((l.responders.take K).map Candidate.toContact).getLast?
    rw [hclosest, List.getLast?_concat]
    rfl

/-! ## A slow node that knows of a closer one -/

/-- The two closest nodes are slow. Of the others seven have responded and three are in flight
    when the second closest responds, and the closest is waited for. -/
def slowClosest : List Event :=
  [2, 3, 4, 5, 6, 7, 8, 9, 10, 11, 12, 13].map adds ++ [.start 1] ++ goesOn ++
    [.sent (nodeAt 2).endpoint 2, .sent (nodeAt 3).endpoint 2, .checkSlow 800] ++ goesOn ++
    [4, 5, 6, 7, 8, 9, 10, 3].flatMap responds

/-- If the closest then tells of a node that is closer still, that is not asked. -/
theorem exists_not_complete : ∃ (crypto : Crypto) (kind : Kind) (target : NodeId) (family : Family)
    (self : NodeId) (allowLocal : Bool) (salt : Bytes) (slowAfterMs queryTimeoutMs : ℤ)
    (events : List Event),
    let l := (((new kind target family self allowLocal).setSalt salt).setTimeouts slowAfterMs
      queryTimeoutMs).run crypto events
    ∃ result ∈ l.reports, result.closest.length = K ∧ result.queried < MaxQueries ∧
    ¬l.Complete result := by
  have hstarved : (stepping noCrypto (searcher.run noCrypto slowClosest)
      (.reply (nodeAt 2).endpoint (tells [1]))).any starved = true := by decide +kernel
  obtain ⟨l', hstepping, hl'⟩ := (Option.any_eq_true _ _).1 hstarved
  refine ⟨noCrypto, .FindNode, default, .IPv4, (nodeAt 255).id, false, [], 700, 1500,
    slowClosest ++ [.reply (nodeAt 2).endpoint (tells [1]), .resume 800], ?_⟩
  have hrun : searcher.run noCrypto (slowClosest ++
      [.reply (nodeAt 2).endpoint (tells [1]), .resume 800]) = l'.step.resume 800 := by
    rw [run_append, run_of_stepping hstepping]
  have hreported := not_complete_of_starved hl' 800
  rw [← hrun] at hreported
  exact hreported

/-- Eight nodes respond. -/
def eightRespond : List Event :=
  [1, 2, 3, 4, 5, 6, 7, 8].map adds ++ [.start 1] ++ goesOn ++
    [1, 2, 3, 4, 5, 6, 7, 8].flatMap responds

theorem complete_run_eight : ∃ result ∈ (searcher.run noCrypto eightRespond).reports,
    result.closest.length = K ∧ (searcher.run noCrypto eightRespond).Complete result := by
  have hreports : (searcher.run noCrypto eightRespond).reports.any fun result =>
      result.closest.length = K && result.queried < MaxQueries := by decide +kernel
  obtain ⟨result, hresult, h⟩ := List.any_eq_true.1 hreports
  rw [Bool.and_eq_true, decide_eq_true_eq, decide_eq_true_eq] at h
  exact ⟨result, hresult, h.1, complete_run noCrypto .FindNode default .IPv4 (nodeAt 255).id
    false [] 700 1500
    eightRespond (by decide +kernel) result hresult h.1 h.2⟩

end Dht.Lookup
