import DhtCore.Lookup.Resources

/-!
# What a lookup gives up

The list of candidates is trimmed at its far end, but only new candidates are dropped.
Once a lookup has asked `MaxCandidates` it drops whom it is told of, however close they
are, and keeps those that failed, however far (`exists_closer_discarded`).
-/

namespace Dht.Lookup

variable {crypto : Crypto} {l l' : Lookup}

/-! ## Who is discarded -/

/-- Whom adding a candidate discards. -/
def discardedBy (l : Lookup) (id : NodeId) (endpoint : Endpoint) (hops : ℤ) : List Candidate :=
  match l.withCandidate id endpoint hops with
  | none => []
  | some l' =>
    (insertCandidate l.target { id, endpoint, hops } l.candidates).filter fun c =>
      l'.candidates.all (·.endpoint ≠ c.endpoint)

/-- Whom adding candidates discards, with the lookups that they were added to. -/
def discardedAmong (hops : ℤ) : Lookup → List Krpc.CompactNode → List (Lookup × Candidate)
  | _, [] => []
  | l, node :: nodes =>
    (l.discardedBy node.id node.endpoint hops).map (l, ·) ++
      discardedAmong hops (l.addCandidate node.id node.endpoint hops) nodes

/-- Whom an event discards, with the lookups that the candidates were added to. -/
def discarded (crypto : Crypto) (l : Lookup) : Event → List (Lookup × Candidate)
  | .addCandidate id endpoint => (l.discardedBy id endpoint 0).map (l, ·)
  | .reply endpoint reply =>
    match l.find endpoint with
    | none => []
    | some c =>
      if l.finished ∨ ¬c.isAwaited ∨ reply.status ≠ .Response then []
      else
        let l := (l.noteResponse endpoint c (reply.message.body.stringAt (ascii "token"))).informed
          crypto endpoint reply
        discardedAmong (c.hops + 1) l (l.nodesIn reply.message.body)
  | _ => []

/-- Whom a run discards, with the lookups that the candidates were added to. -/
def discardedIn (crypto : Crypto) (l : Lookup) : List Event → List (Lookup × Candidate)
  | [] => []
  | e :: events => l.discarded crypto e ++ discardedIn crypto (l.apply crypto e) events

/-! ## What becomes of candidates -/

/-- What becomes of a candidate: it is asked, and then it may respond or fail. -/
structure Candidate.Aged (c c' : Candidate) : Prop where
  id : c'.id = c.id
  new : c'.state = .New → c.state = .New
  responded : c.state = .Responded → c'.state = .Responded
  failed : c.state = .Failed → c'.state = .Failed

theorem Candidate.Aged.refl (c : Candidate) : c.Aged c :=
  ⟨rfl, fun h => h, fun h => h, fun h => h⟩

theorem Candidate.Aged.of_isAwaited {c c' : Candidate} (hc : c.isAwaited = true)
    (hid : c'.id = c.id) (hnew : c'.state ≠ .New) : c.Aged c' := by
  refine ⟨hid, fun h => absurd h hnew, fun h => ?_, fun h => ?_⟩ <;>
    simp [Candidate.isAwaited, h] at hc

/-- What becomes of the candidates, but for those that are added or dropped. -/
def Aged : List Candidate → List Candidate → Prop := List.Forall₂ Candidate.Aged

theorem Aged.refl (cs : List Candidate) : Aged cs cs :=
  List.forall₂_same.2 fun c _ => .refl c

theorem aged_choose (queries : ℕ) (budget : ℤ) (ahead : ℕ) (cs : List Candidate) :
    Aged cs (choose queries budget ahead cs).1 := by
  induction cs generalizing queries budget ahead with
  | nil => exact .nil
  | cons c cs ih =>
    rw [choose]
    split_ifs with hbreak hresponded hnew
    · exact .refl _
    · exact .cons (.refl c) (ih ..)
    · refine .cons ⟨rfl, fun h => (by cases h), fun h => ?_, fun h => ?_⟩ (ih ..)
      · cases hnew.1.symm.trans h
      · cases hnew.1.symm.trans h
    · exact .cons (.refl c) (ih ..)

theorem aged_updateFirst {endpoint : Endpoint} {f : Candidate → Candidate} {cs : List Candidate}
    (h : ∀ c, cs.find? (·.endpoint = endpoint) = some c → c.Aged (f c)) :
    Aged cs (updateFirst endpoint f cs) := by
  induction cs with
  | nil => exact .nil
  | cons c cs ih =>
    rw [updateFirst]
    split_ifs with hc
    · exact .cons (h c (List.find?_cons_of_pos (by simpa using hc))) (Aged.refl cs)
    · refine .cons (.refl c) (ih fun d hd => h d ?_)
      rw [List.find?_cons_of_neg (by simpa using hc), hd]

theorem aged_markSlow (l : Lookup) (now : ℤ) : Aged l.candidates (l.markSlow now).candidates := by
  refine List.forall₂_map_right_iff.2 (List.forall₂_same.2 fun c _ => ?_)
  split_ifs with hslow
  · exact .of_isAwaited (isAwaited_iff.2 (.inl (inFlight_of_isSlow hslow))) rfl nofun
  · exact .refl c

/-- What stays true whatever becomes of the candidates, and whoever is added. -/
structure Stable (P : Lookup → Prop) : Prop where
  aged : ∀ {l l'}, P l → l'.target = l.target → Aged l.candidates l'.candidates → P l'
  added : ∀ {l l' id endpoint hops}, P l → withCandidate l id endpoint hops = some l' → P l'

section Stable

variable {P : Lookup → Prop} (hP : Stable P)

include hP

/-- The candidates stay the same. -/
theorem Stable.same (h : P l) (htarget : l'.target = l.target)
    (hcandidates : l'.candidates = l.candidates) : P l' :=
  hP.aged h htarget (hcandidates ▸ .refl _)

theorem Stable.step (h : P l) : P l.step := by
  rw [Lookup.step]
  split_ifs
  · exact h
  · exact hP.aged h rfl (aged_choose l.queries l.budget 0 l.candidates)

theorem Stable.addCandidate (h : P l) (id : NodeId) (endpoint : Endpoint) (hops : ℤ) :
    P (l.addCandidate id endpoint hops) := by
  rw [Lookup.addCandidate]
  split
  next => exact h
  next l' hadded =>
    split_ifs
    · exact hP.step (hP.added h hadded)
    · exact hP.added h hadded

theorem Stable.withReply {endpoint : Endpoint} {reply : RpcReply} (h : P l)
    (hreply : l.withReply crypto endpoint reply = some l') : P l' := by
  obtain ⟨-, c, hc, hawaited, rfl | ⟨token, rfl⟩⟩ := withReply_eq_some hreply
  · refine hP.aged h rfl (aged_updateFirst fun d hd => ?_)
    obtain rfl := Option.some.inj (hc.symm.trans hd)
    exact .of_isAwaited hawaited rfl nofun
  · refine collect_induction (P := P) (fun _ _ _ _ h => hP.same h rfl rfl)
      (fun _ _ _ _ h => hP.same h rfl rfl) (fun _ _ h => hP.same h rfl rfl)
      (fun _ _ _ _ _ h => hP.added h) (hP.aged h rfl (aged_updateFirst fun d hd => ?_))
    obtain rfl := Option.some.inj (hc.symm.trans hd)
    exact .of_isAwaited hawaited rfl nofun

theorem Stable.apply (h : P l) (e : Event) : P (l.apply crypto e) := by
  cases e with
  | addCandidate id endpoint => exact hP.addCandidate h id endpoint 0
  | start now =>
    have hbegun : P (l.begin now) := hP.same h rfl rfl
    exact hP.step hbegun
  | resume now =>
    rw [Lookup.apply, Lookup.resume]
    split
    · exact h
    · split_ifs
      · exact hP.same h rfl rfl
      · split
        · exact hP.same h rfl rfl
        · dsimp only
          split_ifs <;> exact hP.same h rfl rfl
  | sent endpoint now =>
    refine hP.aged h rfl (aged_updateFirst fun c _ => ?_)
    split_ifs
    · exact ⟨rfl, fun h => h, fun h => h, fun h => h⟩
    · exact .refl c
  | checkSlow now =>
    have hslow : P (l.markSlow now) := hP.aged h rfl (aged_markSlow l now)
    rw [Lookup.apply, checkSlow]
    split_ifs
    · exact h
    · exact hP.step hslow
    · exact hslow
  | reply endpoint reply =>
    rw [Lookup.apply, onReply]
    split
    next => exact h
    next l' hreply => exact hP.step (hP.withReply h hreply)

theorem Stable.run (h : P l) (events : List Event) : P (l.run crypto events) := by
  induction events generalizing l with
  | nil => exact h
  | cons e events ih => exact ih (hP.apply h e)

end Stable

/-! ## What trimming drops -/

/-- The first so many new candidates are dropped, or all of them. -/
theorem dropNew_eq (excess : ℕ) (cs : List Candidate) : ∃ front back, cs = front ++ back ∧
    dropNew excess cs = front.filter (·.state ≠ .New) ++ back ∧
    front.countP (·.state = .New) ≤ excess ∧
    (back = [] ∨ front.countP (·.state = .New) = excess) := by
  induction cs generalizing excess with
  | nil => exact ⟨[], [], rfl, by cases excess <;> rfl, Nat.zero_le _, .inl rfl⟩
  | cons c cs ih =>
    cases excess with
    | zero => exact ⟨[], c :: cs, rfl, rfl, le_rfl, .inr rfl⟩
    | succ excess =>
      rw [dropNew]
      by_cases hnew : c.state = .New
      · obtain ⟨front, back, rfl, hdropped, hle, hback⟩ := ih excess
        refine ⟨c :: front, back, rfl, ?_, ?_, ?_⟩
        · rw [if_pos hnew, hdropped, List.filter_cons_of_neg (by simpa using hnew)]
        · rw [List.countP_cons_of_pos (by simpa using hnew)]
          exact Nat.succ_le_succ hle
        · rw [List.countP_cons_of_pos (by simpa using hnew)]
          exact hback.imp_right (congrArg Nat.succ)
      · obtain ⟨front, back, rfl, hdropped, hle, hback⟩ := ih (excess + 1)
        refine ⟨c :: front, back, rfl, ?_, ?_, ?_⟩
        · rw [if_neg hnew, hdropped, List.filter_cons_of_pos (by simpa using hnew),
            List.cons_append]
        · rwa [List.countP_cons_of_neg (by simpa using hnew)]
        · rwa [List.countP_cons_of_neg (by simpa using hnew)]

/-- Of the far end the new candidates are dropped. -/
theorem trim_eq (cs : List Candidate) : ∃ near far, cs = near ++ far ∧
    trim cs = near ++ far.filter (·.state ≠ .New) ∧
    far.countP (·.state = .New) ≤ cs.length - MaxCandidates ∧
    (near = [] ∨ far.countP (·.state = .New) = cs.length - MaxCandidates) := by
  obtain ⟨front, back, hsplit, hdropped, hle, hback⟩ :=
    dropNew_eq (cs.length - MaxCandidates) cs.reverse
  refine ⟨back.reverse, front.reverse, ?_, ?_, ?_, ?_⟩
  · rw [← List.reverse_append, ← hsplit, List.reverse_reverse]
  · rw [trim, hdropped, List.reverse_append, List.filter_reverse]
  · rwa [List.countP_reverse]
  · rw [List.countP_reverse, List.reverse_eq_nil_iff]
    exact hback

theorem length_eq_filter_add_countP (cs : List Candidate) :
    cs.length = (cs.filter (·.state ≠ .New)).length + cs.countP (·.state = .New) := by
  rw [← List.countP_eq_length_filter, Nat.add_comm,
    List.length_eq_countP_add_countP (·.state = .New)]
  simp

/-- The list is not trimmed further than it must be. -/
theorem length_trim_le (cs : List Candidate) :
    min cs.length MaxCandidates ≤ (trim cs).length := by
  obtain ⟨near, far, hsplit, htrim, hle, -⟩ := trim_eq cs
  have hfar := length_eq_filter_add_countP far
  have hlength := congrArg List.length hsplit
  rw [List.length_append] at hlength
  rw [htrim, List.length_append]
  omega

/-- The list is longer than it should be only if all were asked. -/
theorem length_trim_le_or (cs : List Candidate) :
    (trim cs).length ≤ MaxCandidates ∨ ∀ c ∈ trim cs, c.state ≠ .New := by
  obtain ⟨near, far, hsplit, htrim, -, hnear⟩ := trim_eq cs
  rw [htrim]
  rcases hnear with rfl | hnear
  · refine .inr fun c hc => ?_
    rw [List.nil_append] at hc
    exact of_decide_eq_true (List.mem_filter.1 hc).2
  · have hfar := length_eq_filter_add_countP far
    have hlength := congrArg List.length hsplit
    rw [List.length_append] at hlength ⊢
    left
    omega

/-- A new candidate that stays is not farther than one that is dropped. -/
theorem distance_le_of_dropped {target : NodeId} {cs : List Candidate} (h : InOrder target cs)
    {c d : Candidate} (hc : c ∈ trim cs) (hnew : c.state = .New) (hd : d ∈ cs)
    (hdropped : d ∉ trim cs) :
    NodeId.distance target c.id ≤ NodeId.distance target d.id := by
  obtain ⟨near, far, rfl, htrim, -, -⟩ := trim_eq cs
  rw [htrim, List.mem_append, List.mem_filter] at hc hdropped
  have hnear : c ∈ near := hc.resolve_right fun hfar => of_decide_eq_true hfar.2 hnew
  have hfar : d ∈ far := (List.mem_append.1 hd).resolve_left fun hmem => hdropped (.inl hmem)
  exact (List.pairwise_append.1 h).2.2 c hnear d hfar

/-! ## Once somebody was given up -/

/-- Somebody at a distance was discarded: the list is full, and the new candidates in it are
    not farther. -/
structure Passed (distance : ℕ) (l : Lookup) : Prop where
  inOrder : InOrder l.target l.candidates
  full : MaxCandidates ≤ l.candidates.length
  new_le : ∀ c ∈ l.candidates, c.state = .New → NodeId.distance l.target c.id ≤ distance

/-- Who is added to a full list is dropped if the new candidates are all closer. -/
theorem Passed.new_le_trim {distance : ℕ} (h : Passed distance l) {candidate : Candidate}
    {c : Candidate} (hc : c ∈ trim (insertCandidate l.target candidate l.candidates))
    (hnew : c.state = .New) : NodeId.distance l.target c.id ≤ distance := by
  have hperm := perm_insertCandidate l.target candidate l.candidates
  have hinOrder := h.inOrder.insertCandidate candidate
  have hlength := hperm.length_eq
  rw [List.length_cons] at hlength
  rcases mem_insertCandidate ((trim_sublist _).mem hc) with rfl | hmem
  · obtain ⟨near, far, hsplit, htrim, -, hnear⟩ :=
      trim_eq (insertCandidate l.target c l.candidates)
    rw [htrim, List.mem_append, List.mem_filter] at hc
    have hcnear : c ∈ near := hc.resolve_right fun hfar => of_decide_eq_true hfar.2 hnew
    -- One at least is dropped, which is another, or was there twice.
    have hcount := hnear.resolve_left (List.ne_nil_of_mem hcnear)
    obtain ⟨d, hd, hdnew⟩ : ∃ d ∈ far, decide (d.state = .New) = true := by
      have hfull := h.full
      exact List.countP_pos_iff.1 (by omega)
    rw [hsplit] at hinOrder hperm
    have hle := (List.pairwise_append.1 hinOrder).2.2 c hcnear d hd
    rcases List.mem_cons.1 (hperm.mem_iff.1 (List.mem_append_right _ hd)) with rfl | hdmem
    · have htwice := hperm.count_eq d
      rw [List.count_append, List.count_cons_self] at htwice
      have hnear' := List.count_pos_iff.2 hcnear
      have hfar' := List.count_pos_iff.2 hd
      exact h.new_le d (List.count_pos_iff.1 (by omega)) hnew
    · exact hle.trans (h.new_le d hdmem (of_decide_eq_true hdnew))
  · exact h.new_le c hmem hnew

/-- Those that are farther than somebody who was discarded have failed, or `K` that are not
    farther have responded. -/
def Safe (distance : ℕ) (l : Lookup) : Prop :=
  (∀ c ∈ l.candidates, distance < NodeId.distance l.target c.id → c.state = .Failed) ∨
    K ≤ l.candidates.countP fun c =>
      c.state = .Responded && NodeId.distance l.target c.id ≤ distance

theorem Aged.exists_of_mem {cs cs' : List Candidate} (h : Aged cs cs') {c' : Candidate}
    (hc' : c' ∈ cs') : ∃ c ∈ cs, c.Aged c' := by
  induction h with
  | nil => exact absurd hc' List.not_mem_nil
  | cons hcc' _ ih =>
    rcases List.mem_cons.1 hc' with rfl | hc'
    · exact ⟨_, List.mem_cons_self, hcc'⟩
    · obtain ⟨c, hc, haged⟩ := ih hc'
      exact ⟨c, List.mem_cons_of_mem _ hc, haged⟩

theorem Aged.countP_le {cs cs' : List Candidate} (h : Aged cs cs') {p : Candidate → Bool}
    (hp : ∀ c c', c.Aged c' → p c = true → p c' = true) : cs.countP p ≤ cs'.countP p := by
  induction h with
  | nil => exact le_rfl
  | @cons c c' _ _ hcc' _ ih =>
    rw [List.countP_cons, List.countP_cons]
    refine Nat.add_le_add ih ?_
    by_cases hc : p c = true
    · rw [if_pos hc, if_pos (hp c c' hcc' hc)]
    · rw [if_neg hc]
      exact Nat.zero_le _

theorem Aged.ids {cs cs' : List Candidate} (h : Aged cs cs') :
    cs'.map (·.id) = cs.map (·.id) := by
  induction h with
  | nil => rfl
  | cons hcc' _ ih => rw [List.map_cons, List.map_cons, ih, hcc'.id]

theorem stable_passed (distance : ℕ) : Stable (Passed distance) where
  aged := by
    intro l l' h htarget haged
    refine ⟨?_, ?_, fun c' hc' hnew => ?_⟩
    · rw [htarget]
      exact h.inOrder.of_ids haged.ids
    · exact h.full.trans haged.length_eq.le
    · obtain ⟨c, hc, hcc'⟩ := haged.exists_of_mem hc'
      rw [htarget, hcc'.id]
      exact h.new_le c hc (hcc'.new hnew)
  added := by
    intro l l' id endpoint hops h hadded
    have hinOrder := (keeps_withCandidate hadded).inOrder h.inOrder
    obtain ⟨-, rfl⟩ := withCandidate_eq_some hadded
    refine ⟨hinOrder, ?_, fun c hc => h.new_le_trim hc⟩
    refine le_trans (le_min ?_ le_rfl) (length_trim_le _)
    rw [(perm_insertCandidate ..).length_eq, List.length_cons]
    exact h.full.trans (Nat.le_succ _)

/-- A candidate that is not new was there before another was added. -/
theorem mem_of_mem_added {id : NodeId} {endpoint : Endpoint} {hops : ℤ}
    (h : l.withCandidate id endpoint hops = some l') {c : Candidate} (hc : c ∈ l'.candidates)
    (hnew : c.state ≠ .New) : c ∈ l.candidates := by
  obtain ⟨-, rfl⟩ := withCandidate_eq_some h
  exact (mem_insertCandidate ((trim_sublist _).mem hc)).resolve_left fun heq =>
    hnew (congrArg Candidate.state heq)

theorem countP_withCandidate {id : NodeId} {endpoint : Endpoint} {hops : ℤ}
    (h : l.withCandidate id endpoint hops = some l') {p : Candidate → Bool}
    (hp : ∀ c, p c = true → c.state ≠ .New) : l'.candidates.countP p = l.candidates.countP p := by
  obtain ⟨-, rfl⟩ := withCandidate_eq_some h
  exact countP_of_filter hp ((filter_trim _).trans (filter_insertCandidate rfl _))

theorem stable_safe (distance : ℕ) : Stable fun l => Passed distance l ∧ Safe distance l where
  aged := by
    rintro l l' ⟨hpassed, hsafe⟩ htarget haged
    refine ⟨(stable_passed distance).aged hpassed htarget haged, hsafe.imp ?_ ?_⟩
    · intro hfailed c' hc' hfar
      obtain ⟨c, hc, hcc'⟩ := haged.exists_of_mem hc'
      rw [htarget, hcc'.id] at hfar
      exact hcc'.failed (hfailed c hc hfar)
    · intro hK
      refine hK.trans (htarget ▸ haged.countP_le fun c c' hcc' hc => ?_)
      rw [Bool.and_eq_true, decide_eq_true_eq, decide_eq_true_eq] at hc ⊢
      exact ⟨hcc'.responded hc.1, hcc'.id ▸ hc.2⟩
  added := by
    rintro l l' id endpoint hops ⟨hpassed, hsafe⟩ hadded
    have hpassed' := (stable_passed distance).added hpassed hadded
    have htarget := (keeps_withCandidate hadded).target
    refine ⟨hpassed', hsafe.imp ?_ ?_⟩
    · intro hfailed c hc hfar
      have hnew : c.state ≠ .New := fun hnew => not_lt.2 (hpassed'.new_le c hc hnew) hfar
      exact hfailed c (mem_of_mem_added hadded hc hnew) (htarget ▸ hfar)
    · intro hK
      rw [htarget, countP_withCandidate hadded]
      · exact hK
      · intro c hc
        rw [Bool.and_eq_true, decide_eq_true_eq] at hc
        rw [hc.1]
        decide

/-! ## Who is gone -/

/-- Whether it does no harm that a candidate is discarded: those that are farther and were
    asked have failed, or `K` that are not farther have responded. -/
def harmless (l : Lookup) (d : Candidate) : Bool :=
  l.candidates.all (fun c =>
    !NodeId.closer l.target d.id c.id || c.state = .New || c.state = .Failed) ||
  K ≤ l.candidates.countP fun c => c.state = .Responded && !NodeId.closer l.target d.id c.id

/-- A candidate was discarded when another was added to a lookup. -/
structure Gone (p : Lookup × Candidate) (l : Lookup) : Prop where
  target : l.target = p.1.target
  passed : Passed (NodeId.distance p.1.target p.2.id) l
  safe : p.1.harmless p.2 = true → Safe (NodeId.distance p.1.target p.2.id) l

theorem stable_gone (p : Lookup × Candidate) : Stable (Gone p) where
  aged h htarget haged := ⟨htarget.trans h.target, (stable_passed _).aged h.passed htarget haged,
    fun hp => ((stable_safe _).aged ⟨h.passed, h.safe hp⟩ htarget haged).2⟩
  added h hadded := ⟨(keeps_withCandidate hadded).target.trans h.target,
    (stable_passed _).added h.passed hadded,
    fun hp => ((stable_safe _).added ⟨h.passed, h.safe hp⟩ hadded).2⟩

theorem stable_inOrder : Stable fun l => InOrder l.target l.candidates where
  aged h htarget haged := by
    rw [htarget]
    exact h.of_ids haged.ids
  added h hadded := (keeps_withCandidate hadded).target ▸ (keeps_withCandidate hadded).inOrder h

/-- Whom adding a candidate discards is not closer than those that are new and stay. -/
theorem passed_of_discarded (hl : InOrder l.target l.candidates) {id : NodeId}
    {endpoint : Endpoint} {hops : ℤ} (hadded : l.withCandidate id endpoint hops = some l')
    {d : Candidate} (hd : d ∈ insertCandidate l.target { id, endpoint, hops } l.candidates)
    (hdropped : d ∉ l'.candidates) : Passed (NodeId.distance l.target d.id) l' := by
  have hinOrder := (keeps_withCandidate hadded).inOrder hl
  obtain ⟨-, rfl⟩ := withCandidate_eq_some hadded
  refine ⟨hinOrder, ?_, fun c hc hcnew => ?_⟩
  · have hmin := length_trim_le (insertCandidate l.target { id, endpoint, hops } l.candidates)
    by_contra hshort
    -- A list that is not too long would have been kept.
    have hle : (insertCandidate l.target { id, endpoint, hops } l.candidates).length ≤
        (trim (insertCandidate l.target { id, endpoint, hops } l.candidates)).length := by
      rcases min_le_iff.1 hmin with hmin | hmin
      · exact hmin
      · exact absurd hmin hshort
    have heq := (trim_sublist (insertCandidate l.target { id, endpoint, hops }
      l.candidates)).eq_of_length_le hle
    rw [← heq] at hd
    exact hdropped hd
  · exact distance_le_of_dropped (hl.insertCandidate _) hc hcnew hd hdropped

theorem safe_of_harmless {id : NodeId} {endpoint : Endpoint} {hops : ℤ}
    (hadded : l.withCandidate id endpoint hops = some l') {d : Candidate}
    (hpassed : Passed (NodeId.distance l.target d.id) l') (h : l.harmless d = true) :
    Safe (NodeId.distance l.target d.id) l' := by
  have htarget := (keeps_withCandidate hadded).target
  rw [harmless, Bool.or_eq_true, List.all_eq_true, decide_eq_true_eq] at h
  refine h.imp (fun hfailed c hc hfar => ?_) fun hK => ?_
  · have hnew : c.state ≠ .New := fun hnew => not_lt.2 (hpassed.new_le c hc hnew) hfar
    rw [htarget, ← NodeId.closer_iff] at hfar
    simpa [hfar, hnew] using hfailed c (mem_of_mem_added hadded hc hnew)
  · rw [htarget, countP_withCandidate hadded]
    · refine hK.trans (le_of_eq (List.countP_congr fun c _ => ?_))
      rw [Bool.and_eq_true, Bool.and_eq_true, decide_eq_true_eq, decide_eq_true_eq,
        Bool.not_eq_true', ← Bool.not_eq_true, NodeId.closer_iff, not_lt]
    · intro c hc
      rw [Bool.and_eq_true, decide_eq_true_eq] at hc
      rw [hc.1]
      decide

theorem stable_target (target : NodeId) : Stable fun l => l.target = target where
  aged h htarget _ := htarget.trans h
  added h hadded := (keeps_withCandidate hadded).target.trans h

theorem gone_of_discardedBy (hl : InOrder l.target l.candidates) {id : NodeId}
    {endpoint : Endpoint} {hops : ℤ} {d : Candidate} (hd : d ∈ l.discardedBy id endpoint hops) :
    Gone (l, d) (l.addCandidate id endpoint hops) := by
  rw [discardedBy] at hd
  rw [addCandidate]
  cases hadded : l.withCandidate id endpoint hops with
  | none =>
    rw [hadded] at hd
    exact absurd hd List.not_mem_nil
  | some l' =>
    rw [hadded] at hd
    have hgone : Gone (l, d) l' := by
      obtain ⟨hmem, hdropped⟩ := List.mem_filter.1 hd
      have hpassed := passed_of_discarded hl hadded hmem fun hstays =>
        of_decide_eq_true (List.all_eq_true.1 hdropped d hstays) rfl
      exact ⟨(keeps_withCandidate hadded).target, hpassed,
        safe_of_harmless hadded hpassed⟩
    dsimp only
    split_ifs
    · exact (stable_gone _).step hgone
    · exact hgone

theorem gone_of_discardedAmong {hops : ℤ} {nodes : List Krpc.CompactNode}
    {p : Lookup × Candidate} (hl : InOrder l.target l.candidates)
    (hp : p ∈ discardedAmong hops l nodes) :
    Gone p (nodes.foldl (fun l node => l.addCandidate node.id node.endpoint hops) l) := by
  induction nodes generalizing l with
  | nil => exact absurd hp List.not_mem_nil
  | cons node nodes ih =>
    have hrest (l : Lookup) (h : Gone p l) :
        Gone p (nodes.foldl (fun l node => l.addCandidate node.id node.endpoint hops) l) := by
      clear hp ih
      induction nodes generalizing l with
      | nil => exact h
      | cons node nodes ih => exact ih _ ((stable_gone p).addCandidate h ..)
    rw [discardedAmong, List.mem_append, List.mem_map] at hp
    rcases hp with ⟨d, hd, rfl⟩ | hp
    · exact hrest _ (gone_of_discardedBy hl hd)
    · exact ih (stable_inOrder.addCandidate hl ..) hp

theorem gone_of_discarded {e : Event} {p : Lookup × Candidate}
    (hl : InOrder l.target l.candidates) (hp : p ∈ l.discarded crypto e) :
    Gone p (l.apply crypto e) := by
  cases e with
  | addCandidate id endpoint =>
    obtain ⟨d, hd, rfl⟩ := List.mem_map.1 hp
    exact gone_of_discardedBy hl hd
  | reply endpoint reply =>
    rw [discarded] at hp
    split at hp
    next => exact absurd hp List.not_mem_nil
    next c hc =>
      split_ifs at hp with hcond
      · exact absurd hp List.not_mem_nil
      · rw [not_or, not_or, not_not, not_not, Bool.not_eq_true] at hcond
        obtain ⟨hfinished, hawaited, hresponse⟩ := hcond
        rw [apply, onReply, withReply_of_response hfinished hc hawaited hresponse]
        dsimp only
        refine (stable_gone p).step ?_
        obtain ⟨started, hcollect⟩ := collect_eq crypto (l.noteResponse endpoint c
          (reply.message.body.stringAt (ascii "token"))) endpoint (c.hops + 1) reply
        rw [hcollect]
        refine (stable_gone p).same (gone_of_discardedAmong ?_ hp) rfl rfl
        exact informed_induction (P := fun l => InOrder l.target l.candidates)
          (fun _ _ _ _ h => h) (fun _ _ _ _ h => h) (fun _ _ h => h)
          ((keeps_noteResponse ..).inOrder hl)
  | start | resume | sent | checkSlow => exact absurd hp List.not_mem_nil

theorem gone_of_discardedIn {events : List Event} {p : Lookup × Candidate}
    (hl : InOrder l.target l.candidates) (hp : p ∈ discardedIn crypto l events) :
    Gone p (l.run crypto events) := by
  induction events generalizing l with
  | nil => exact absurd hp List.not_mem_nil
  | cons e events ih =>
    rcases List.mem_append.1 hp with hp | hp
    · exact (stable_gone p).run (gone_of_discarded hl hp) events
    · exact ih (stable_inOrder.apply hl e) hp

/-! ## What is reported -/

/-- What was reported is what the candidates still say. -/
structure Reported (l : Lookup) : Prop where
  unreported : l.finished = false → l.reports = []
  closest : ∀ result ∈ l.reports, result.closest = (l.responders.take K).map Candidate.toContact

theorem reported_of_nil (h : l.reports = []) : Reported l := by
  refine ⟨fun _ => h, fun result hresult => ?_⟩
  rw [h] at hresult
  exact absurd hresult List.not_mem_nil

theorem contacts_onSent (l : Lookup) (endpoint : Endpoint) (now : ℤ) :
    ((l.onSent endpoint now).responders.take K).map Candidate.toContact =
    (l.responders.take K).map Candidate.toContact := by
  have hmap (cs : List Candidate) : (cs.filter (·.state = .Responded)).map Candidate.toContact =
      ((cs.map fun c => (c.toContact, c.state)).filter (·.2 = .Responded)).map (·.1) := by
    rw [List.filter_map, List.map_map]
    rfl
  rw [List.map_take, List.map_take, responders, responders, hmap, hmap, onSent, map_updateFirst]
  intro c
  split_ifs <;> rfl

theorem reported_step (hl : Reported l) : Reported l.step := by
  by_cases hfinished : l.finished = true
  · rw [step, if_pos hfinished]
    exact hl
  · have hnot : l.finished = false := by simpa using hfinished
    rw [step, if_neg hfinished]
    exact reported_of_nil (hl.unreported hnot)

theorem Reported.apply (hl : Reported l) (e : Event) : Reported (l.apply crypto e) := by
  have hkeeps {l' : Lookup} (h : Keeps l l') (hfinished : l.finished = false) : Reported l' :=
    reported_of_nil (h.reports.trans (hl.unreported hfinished))
  cases e with
  | addCandidate id endpoint =>
    rw [Lookup.apply, addCandidate]
    split
    next => exact hl
    next l' hadded =>
      have hadded' := hkeeps (keeps_withCandidate hadded) (withCandidate_eq_some hadded).1
      split_ifs
      · exact reported_step hadded'
      · exact hadded'
  | start now => exact reported_step (l := l.begin now) ⟨hl.unreported, hl.closest⟩
  | resume now =>
    rw [Lookup.apply, Lookup.resume]
    split
    · exact hl
    · split_ifs with hfinished
      · exact ⟨hl.unreported, hl.closest⟩
      · split
        · exact ⟨hl.unreported, hl.closest⟩
        · dsimp only
          split_ifs
          · -- It finishes here, with what it has now.
            refine ⟨fun h => (by cases h), fun result hresult => ?_⟩
            rw [finish, hl.unreported (by simpa using hfinished), List.nil_append,
              List.mem_singleton] at hresult
            rw [hresult]
            rfl
          · exact ⟨hl.unreported, hl.closest⟩
  | sent endpoint now =>
    refine ⟨hl.unreported, fun result hresult => ?_⟩
    rw [Lookup.apply, contacts_onSent]
    exact hl.closest result hresult
  | checkSlow now =>
    rw [Lookup.apply, checkSlow]
    split_ifs with hfinished
    · exact hl
    · exact reported_step (hkeeps (keeps_markSlow l now) (by simpa using hfinished))
    · exact hkeeps (keeps_markSlow l now) (by simpa using hfinished)
  | reply endpoint reply =>
    rw [Lookup.apply, onReply]
    split
    next => exact hl
    next l' hreply =>
      obtain ⟨hsame, hfinished, -⟩ := keeps_withReply hreply
      exact reported_step (hkeeps hsame hfinished)

theorem Reported.run (hl : Reported l) (events : List Event) : Reported (l.run crypto events) := by
  induction events generalizing l with
  | nil => exact hl
  | cons e events ih => exact ih (hl.apply e)

/-! ## Runs -/

/-- Whether a candidate is left unasked that is not closer than the first `K` that responded. -/
def spare (l : Lookup) : Bool :=
  l.candidates.any fun c => c.state = .New &&
    (l.responders.take K).all fun responder => !NodeId.closer l.target c.id responder.id

/-- The last of `K` that are reported is not farther than whom it was safe to discard. -/
theorem distance_le_of_safe {distance : ℕ} (hl : InOrder l.target l.candidates)
    (h : Safe distance l) {front : List Candidate} {c : Candidate}
    (hfirst : l.responders.take K = front ++ [c]) (hK : (l.responders.take K).length = K) :
    NodeId.distance l.target c.id ≤ distance := by
  have hresponders : l.responders = front ++ c :: l.responders.drop K := by
    rw [← List.singleton_append, ← List.append_assoc, ← hfirst, List.take_append_drop]
  have hc : c ∈ l.responders := by
    rw [hresponders]
    exact List.mem_append_right _ List.mem_cons_self
  obtain ⟨hmem, hresponded⟩ := List.mem_filter.1 hc
  by_contra hfar
  rcases h with hfailed | hcount
  · have hstate := hfailed c hmem (not_le.1 hfar)
    rw [hstate] at hresponded
    exact absurd hresponded (by decide)
  · -- The last and all that come after it are farther, so that fewer than `K` are not.
    have hinOrder : InOrder l.target l.responders := hl.sublist List.filter_sublist
    rw [hresponders] at hinOrder
    obtain ⟨hafter, -⟩ := List.pairwise_cons.1 (List.pairwise_append.1 hinOrder).2.1
    have hcount' : l.candidates.countP (fun c =>
        c.state = .Responded && NodeId.distance l.target c.id ≤ distance) =
        l.responders.countP (NodeId.distance l.target ·.id ≤ distance) := by
      rw [responders, List.countP_filter]
      exact List.countP_congr fun c _ => by rw [Bool.and_comm]
    have hdrop : (l.responders.drop K).countP (NodeId.distance l.target ·.id ≤ distance) = 0 :=
      List.countP_eq_zero.2 fun d hd hle =>
        hfar ((hafter d hd).trans (of_decide_eq_true hle))
    have hfront : front.length + 1 = K := by
      rw [← hK, hfirst, List.length_append, List.length_singleton]
    have hle := List.countP_le_length (p := (NodeId.distance l.target ·.id ≤ distance)) (l := front)
    rw [hcount', hresponders, List.countP_append, List.countP_cons_of_neg (by simpa using hfar),
      hdrop] at hcount
    omega

/-- Nobody who was discarded is closer than the last of `K` that are reported, if it was
    harmless to discard them, or a candidate is left that could be asked instead. -/
theorem not_closer_of_gone {p : Lookup × Candidate} (h : Gone p l)
    (hp : p.1.harmless p.2 = true ∨ l.spare = true) (hK : (l.responders.take K).length = K)
    {c : Candidate} (hc : c ∈ (l.responders.take K).getLast?) :
    ¬NodeId.closer l.target p.2.id c.id := by
  obtain ⟨front, hfirst⟩ : ∃ front, l.responders.take K = front ++ [c] :=
    List.getLast?_eq_some_iff.1 hc
  rw [NodeId.closer_iff, not_lt, h.target]
  rcases hp with hharmless | hspare
  · exact h.target ▸ distance_le_of_safe h.passed.inOrder (h.safe hharmless) hfirst hK
  · obtain ⟨d, hd, hboth⟩ := List.any_eq_true.1 hspare
    rw [Bool.and_eq_true, decide_eq_true_eq, List.all_eq_true] at hboth
    have hnot := hboth.2 c (by rw [hfirst]; exact List.mem_append_right _ List.mem_cons_self)
    rw [Bool.not_eq_true', ← Bool.not_eq_true, NodeId.closer_iff, not_lt] at hnot
    have hle := h.passed.new_le d hd hboth.1
    rw [h.target] at hnot hle
    exact hnot.trans hle

theorem stable_bounded : Stable fun l =>
    l.candidates.length ≤ MaxCandidates ∨ ∀ c ∈ l.candidates, c.state ≠ .New where
  aged h _ haged := h.imp (fun hle => haged.length_eq.symm.le.trans hle) fun hnone c' hc' hnew => by
    obtain ⟨c, hc, hcc'⟩ := haged.exists_of_mem hc'
    exact hnone c hc (hcc'.new hnew)
  added _ hadded := (withCandidate_eq_some hadded).2 ▸ length_trim_le_or _

section

variable (crypto : Crypto) (kind : Kind) (target : NodeId) (family : Family) (self : NodeId)
  (allowLocal : Bool) (salt : Bytes) (slowAfterMs queryTimeoutMs : ℤ) (events : List Event)

theorem not_closer_of_discardedIn :
    let l₀ := ((new kind target family self allowLocal).setSalt salt).setTimeouts slowAfterMs
      queryTimeoutMs
    let l := l₀.run crypto events
    ∀ p ∈ discardedIn crypto l₀ events, p.1.harmless p.2 = true ∨ l.spare = true →
      ∀ result ∈ l.reports, result.closest.length = K → ∀ contact ∈ result.closest.getLast?,
        ¬NodeId.closer target p.2.id contact.id := by
  intro l₀ l p hp hcondition result hresult hK contact hcontact
  have hreported : Reported l := Reported.run (l := l₀) ⟨fun _ => rfl, nofun⟩ events
  have hgone : Gone p l := gone_of_discardedIn (l := l₀) List.Pairwise.nil hp
  rw [hreported.closest result hresult, List.length_map] at hK
  rw [hreported.closest result hresult, List.getLast?_map, Option.mem_map] at hcontact
  obtain ⟨c, hc, rfl⟩ := hcontact
  have htarget : l.target = target := (stable_target target).run (l := l₀) rfl events
  exact htarget ▸ not_closer_of_gone hgone hcondition hK hc

/-- Nobody who was discarded is closer than the last of `K` that are reported if a candidate is
    left at the end that could be asked instead. -/
theorem not_closer_of_spare :
    let l₀ := ((new kind target family self allowLocal).setSalt salt).setTimeouts slowAfterMs
      queryTimeoutMs
    let l := l₀.run crypto events
    l.spare = true → ∀ result ∈ l.reports, result.closest.length = K →
      ∀ p ∈ discardedIn crypto l₀ events, ∀ contact ∈ result.closest.getLast?,
        ¬NodeId.closer target p.2.id contact.id := by
  intro l₀ l hspare result hresult hK p hp
  exact not_closer_of_discardedIn crypto kind target family self allowLocal salt slowAfterMs
    queryTimeoutMs events p hp (.inr hspare) result hresult hK

end

/-- In every run the list of candidates is too long only if all were asked. And if whenever a
    candidate was discarded that was harmless, nobody who was discarded is closer than the last
    of `K` that are reported. -/
theorem far_end_run (crypto : Crypto) (kind : Kind) (target : NodeId) (family : Family)
    (self : NodeId) (allowLocal : Bool) (salt : Bytes) (slowAfterMs queryTimeoutMs : ℤ)
    (events : List Event) :
    let l₀ := ((new kind target family self allowLocal).setSalt salt).setTimeouts slowAfterMs
      queryTimeoutMs
    let l := l₀.run crypto events
    (l.candidates.length ≤ MaxCandidates ∨ ∀ c ∈ l.candidates, c.state ≠ .New) ∧
    ((∀ p ∈ discardedIn crypto l₀ events, p.1.harmless p.2 = true) →
      ∀ result ∈ l.reports, result.closest.length = K →
        ∀ p ∈ discardedIn crypto l₀ events, ∀ contact ∈ result.closest.getLast?,
          ¬NodeId.closer target p.2.id contact.id) := by
  intro l₀ l
  refine ⟨stable_bounded.run (l := l₀) (.inl (Nat.zero_le _)) events, ?_⟩
  intro hharmless result hresult hK p hp
  exact not_closer_of_discardedIn crypto kind target family self allowLocal salt slowAfterMs
    queryTimeoutMs events p hp (.inl (hharmless p hp)) result hresult hK

theorem mem_discardedIn_append {front back : List Event} {e : Event} {p : Lookup × Candidate}
    (hp : p ∈ (l.run crypto front).discarded crypto e) :
    p ∈ discardedIn crypto l (front ++ e :: back) := by
  induction front generalizing l with
  | nil => exact List.mem_append_left _ hp
  | cons e' front ih => exact List.mem_append_right _ (ih hp)

/-! ## A lookup that has asked a hundred nodes -/

/-- A hundred nodes are added. -/
def hundredAdded : List Event := (List.range 100).map fun i => adds (UInt8.ofNat (109 - i))

/-- They are asked. The closest 92 time out, seven respond, and one is waited for. -/
def hundredAsked : List Event :=
  hundredAdded ++ [.start 1] ++ goesOn ++
    (List.range 92).flatMap (fun i =>
      [.reply (nodeAt (UInt8.ofNat (10 + i))).endpoint {}, .resume 800, .resume 800]) ++
    [102, 103, 104, 105, 106, 107, 108].flatMap fun d =>
      [.reply (nodeAt d).endpoint (tells []), .resume 800]

/-- The last responds, and tells of one that is closer than all of them. -/
def lastTells : Event := .reply (nodeAt 109).endpoint (tells [1])

theorem lastTells_discards :
    ((searcher.run noCrypto hundredAsked).run noCrypto [lastTells, .resume 800]).reports.any
      (fun result => result.closest.length = K && result.queried < MaxQueries &&
        ((searcher.run noCrypto hundredAsked).discarded noCrypto lastTells).any fun p =>
          result.closest.getLast?.any fun contact =>
            NodeId.closer default p.2.id contact.id) = true := by
  decide +kernel

/-- Who is closer than all that are reported may have been discarded. -/
theorem exists_closer_discarded : ∃ (crypto : Crypto) (kind : Kind) (target : NodeId)
    (family : Family) (self : NodeId) (allowLocal : Bool) (salt : Bytes)
    (slowAfterMs queryTimeoutMs : ℤ) (events : List Event),
    let l₀ := ((new kind target family self allowLocal).setSalt salt).setTimeouts slowAfterMs
      queryTimeoutMs
    let l := l₀.run crypto events
    ∃ result ∈ l.reports, result.closest.length = K ∧ result.queried < MaxQueries ∧
      ∃ p ∈ discardedIn crypto l₀ events, ∃ contact ∈ result.closest.getLast?,
        NodeId.closer target p.2.id contact.id := by
  refine ⟨noCrypto, .FindNode, default, .IPv4, (nodeAt 255).id, false, [], 700, 1500,
    hundredAsked ++ [lastTells, .resume 800], ?_⟩
  obtain ⟨result, hresult, h⟩ := List.any_eq_true.1 lastTells_discards
  rw [Bool.and_eq_true, Bool.and_eq_true, decide_eq_true_eq, decide_eq_true_eq,
    List.any_eq_true] at h
  obtain ⟨⟨hK, hqueries⟩, p, hp, h⟩ := h
  obtain ⟨contact, hcontact, hcloser⟩ := (Option.any_eq_true ..).1 h
  rw [← run_append] at hresult
  exact ⟨result, hresult, hK, hqueries, p, mem_discardedIn_append hp, contact, hcontact, hcloser⟩

/-- One that is farther is discarded, and the closest eight respond. -/
def closestRespond : List Event :=
  hundredAdded ++ adds 110 :: ([.start 1] ++ goesOn ++
    [10, 11, 12, 13, 14, 15, 16, 17].flatMap responds)

theorem closestRespond_reports :
    (searcher.run noCrypto closestRespond).reports.any (fun result =>
      result.closest.length = K && result.closest.getLast?.isSome) = true ∧
    ((searcher.run noCrypto hundredAdded).discarded noCrypto (adds 110)).length = 1 ∧
    (discardedIn noCrypto searcher closestRespond).all (fun p => p.1.harmless p.2) = true := by
  decide +kernel

theorem far_end_run_closest : ∃ result ∈ (searcher.run noCrypto closestRespond).reports,
    ∃ p ∈ discardedIn noCrypto searcher closestRespond, ∃ contact ∈ result.closest.getLast?,
      ¬NodeId.closer default p.2.id contact.id := by
  obtain ⟨hreports, hdiscarded, hharmless⟩ := closestRespond_reports
  obtain ⟨result, hresult, h⟩ := List.any_eq_true.1 hreports
  rw [Bool.and_eq_true, decide_eq_true_eq, Option.isSome_iff_exists] at h
  obtain ⟨hK, contact, hcontact⟩ := h
  obtain ⟨p, hp⟩ := List.exists_mem_of_length_pos (hdiscarded ▸ Nat.one_pos)
  have hp' : p ∈ discardedIn noCrypto searcher closestRespond := mem_discardedIn_append hp
  refine ⟨result, hresult, p, hp', contact, hcontact, ?_⟩
  exact (far_end_run noCrypto .FindNode default .IPv4 (nodeAt 255).id false [] 700 1500
    closestRespond).2 (List.all_eq_true.1 hharmless) result hresult hK p hp' contact hcontact

end Dht.Lookup
