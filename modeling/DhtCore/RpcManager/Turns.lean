import DhtCore.RpcManager.Contacts
import DhtCore.RpcManager.Newcomers

/-!
# Hosts in turn

What a pass of `drain` does, host by host (`Passing`): the hosts are taken from the
front of the order until there are too many queries pending, and as long as the
budget lasts, each that has a query to a new endpoint is charged.

All of them are put at the back, whether they were served or not, so that the next
pass takes them in the same order. Hence a budget that runs out between two hosts
pass after pass is spent on the first of them only (`not_alternates_contending`). If
it never does, the two are charged in turn (`charges_alternate`).
-/

namespace Dht

/-! ## Alternation -/

section Alternation

variable {α : Type*} {a b : α} {l l' : List α}

/-- Between any two of the one, there is one of the other. -/
def Alternates (a b : α) (l : List α) : Prop :=
  ∀ l₁ l₂ l₃, l = l₁ ++ a :: (l₂ ++ a :: l₃) → b ∈ l₂

/-- There was one since the last of the other. -/
def Owed (a b : α) (l : List α) : Prop := ∃ l₁ l₂, l = l₁ ++ a :: l₂ ∧ b ∉ l₂

theorem not_owed_nil : ¬Owed a b [] := by
  rintro ⟨l₁, l₂, h, -⟩
  simp at h

theorem alternates_nil : Alternates a b [] := by
  intro l₁ l₂ l₃ h
  simp at h

theorem owed_append_iff : Owed a b (l ++ l') ↔ Owed a b l' ∨ Owed a b l ∧ b ∉ l' := by
  constructor
  · rintro ⟨l₁, l₂, h, hb⟩
    rcases List.append_eq_append_iff.1 h with ⟨rest, rfl, hrest⟩ | ⟨rest, hl, hrest⟩
    · exact .inl ⟨rest, l₂, hrest, hb⟩
    · cases rest with
      | nil => exact .inl ⟨[], l₂, by simpa using hrest.symm, hb⟩
      | cons c rest =>
        rw [List.cons_append, List.cons.injEq] at hrest
        obtain ⟨rfl, rfl⟩ := hrest
        rw [List.mem_append, not_or] at hb
        exact .inr ⟨⟨l₁, rest, hl, hb.1⟩, hb.2⟩
  · rintro (⟨l₁, l₂, rfl, hb⟩ | ⟨⟨l₁, l₂, rfl, hb⟩, hb'⟩)
    · exact ⟨l ++ l₁, l₂, (List.append_assoc ..).symm, hb⟩
    · exact ⟨l₁, l₂ ++ l', by simp, by simp [hb, hb']⟩

/-- While one is owed, the next comes after one of the other. -/
theorem Alternates.append (h : Alternates a b l) (h' : Alternates a b l')
    (howed : Owed a b l → ∀ l₁ l₂, l' = l₁ ++ a :: l₂ → b ∈ l₁) : Alternates a b (l ++ l') := by
  intro l₁ l₂ l₃ heq
  rcases List.append_eq_append_iff.1 heq with ⟨rest, rfl, hrest⟩ | ⟨rest, hl, hrest⟩
  · exact h' rest l₂ l₃ hrest
  · cases rest with
    | nil => exact h' [] l₂ l₃ hrest.symm
    | cons c rest =>
      rw [List.cons_append, List.cons.injEq] at hrest
      obtain ⟨rfl, hrest⟩ := hrest
      rcases List.append_eq_append_iff.1 hrest with ⟨r, hr, hl'⟩ | ⟨r, hr, hl'⟩
      · cases r with
        | nil =>
          by_contra hb
          rw [List.append_nil] at hr
          exact List.not_mem_nil (howed ⟨l₁, rest, hl, hr ▸ hb⟩ [] l₃ hl'.symm)
        | cons c r =>
          rw [List.cons_append, List.cons.injEq] at hl'
          obtain ⟨rfl, -⟩ := hl'
          exact h l₁ l₂ r (by rw [hl, hr])
      · -- The second one is in the second list.
        by_contra hb
        rw [hr, List.mem_append, not_or] at hb
        exact hb.2 (howed ⟨l₁, rest, hl, hb.1⟩ r l₃ hl')

theorem pair_sublist_or (hne : a ≠ b) (ha : a ∈ l) (hb : b ∈ l) :
    [a, b].Sublist l ∨ [b, a].Sublist l := by
  obtain ⟨l₁, l₂, rfl⟩ := List.append_of_mem ha
  rcases List.mem_append.1 hb with hb | hb
  · exact .inr ((List.singleton_sublist.2 hb).append (List.singleton_sublist.2 List.mem_cons_self))
  · have hb' := List.singleton_sublist.2 (List.mem_of_ne_of_mem hne.symm hb)
    exact .inl ((hb'.cons_cons a).trans (List.sublist_append_right _ _))

/-- In a list with no duplicates, two come one before the other. -/
theorem not_pair_sublist (hnodup : l.Nodup) (h : [a, b].Sublist l) : ¬[b, a].Sublist l := by
  intro h'
  obtain ⟨l₁, l₂, rfl, ha, hb⟩ := List.cons_sublist_iff.1 h
  obtain ⟨l₃, l₄, heq, hb', ha'⟩ := List.cons_sublist_iff.1 h'
  rw [List.singleton_sublist] at hb ha'
  rw [List.nodup_append] at hnodup
  rcases List.append_eq_append_iff.1 heq with ⟨r, rfl, rfl⟩ | ⟨r, rfl, rfl⟩
  · exact hnodup.2.2 a ha a (List.mem_append_right _ ha') rfl
  · exact hnodup.2.2 b (List.mem_append_left _ hb') b hb rfl

theorem pair_sublist_of_sublist (hnodup : l.Nodup) (hsub : l'.Sublist l) (h : [a, b].Sublist l)
    (ha : a ∈ l') (hb : b ∈ l') : [a, b].Sublist l' := by
  have hne : a ≠ b := fun heq => by
    rw [heq] at h
    simpa using h.nodup hnodup
  exact (pair_sublist_or hne ha hb).resolve_right fun h' =>
    not_pair_sublist hnodup h (h'.trans hsub)

/-- What comes before one of the first part is in the first part. -/
theorem first_mem {l₁ l₂ : List α} (hnodup : l.Nodup) (heq : l = l₁ ++ l₂) (h : [b, a].Sublist l)
    (ha : a ∈ l₁) : b ∈ l₁ := by
  have hb : b ∈ l := h.subset (by simp)
  rw [heq, List.mem_append] at hb
  refine hb.resolve_right fun hb => not_pair_sublist hnodup h ?_
  rw [heq]
  exact (List.singleton_sublist.2 ha).append (List.singleton_sublist.2 hb)

theorem mem_of_pair {l₁ l₂ : List α} (hnodup : l.Nodup) (heq : l = l₁ ++ a :: l₂)
    (h : [b, a].Sublist l) : b ∈ l₁ := by
  have hmem := first_mem (show l.Nodup from hnodup) (show l = (l₁ ++ [a]) ++ l₂ by simp [heq]) h
      (by simp)
  rw [List.mem_append, List.mem_singleton] at hmem
  refine hmem.resolve_right fun hba => ?_
  rw [hba] at h
  simpa using h.nodup hnodup

theorem alternates_of_nodup (h : l.Nodup) : Alternates a b l := by
  rintro l₁ l₂ l₃ rfl
  simp [List.nodup_append] at h

end Alternation

/-! ## What a host takes -/

/-- Whether an address has allowance is up to its own bucket. -/
theorem RateLimiter.allow_snd_congr {l l' : RateLimiter} {address : HostAddress} {now : ℤ}
    (hrate : l'.rate = l.rate) (hburst : l'.burst = l.burst)
    (hbuckets : l'.buckets address = l.buckets address) :
    (l'.allow address now).2 = (l.allow address now).2 := by
  simp only [RateLimiter.allow, hrate, hburst, hbuckets]
  split_ifs <;> rfl

namespace ContactBudget

variable {budget : ContactBudget} {dest other : Endpoint} {now clock : ℤ}

/-- What a budget has, once it is filled up. -/
def level (budget : ContactBudget) (now : ℤ) : ℚ := (budget.refill now).balance

theorem record_limit : (budget.record dest now).limit = budget.limit := by
  rw [ContactBudget.record]
  dsimp only
  split_ifs <;> simp

/-- Writing to an endpoint does not make another one known. -/
theorem isLive_record (hne : other ≠ dest) :
    (budget.record dest now).isLive other clock = budget.isLive other clock := by
  have hrecent : (budget.record dest now).recent other = budget.recent other := by
    rw [ContactBudget.record]
    dsimp only
    split_ifs <;> simp [Function.update_of_ne hne]
  rw [isLive, hrecent, isLive]

/-- What a query takes from the budget changes nothing for another endpoint. -/
theorem isLive_allows : (budget.allows dest now).1.isLive other clock =
    budget.isLive other clock := by
  rw [allows]
  split_ifs
  · rfl
  · rw [isLive, refill_recent, isLive]

theorem isLimited_allows : (budget.allows dest now).1.isLimited = budget.isLimited := by
  rw [allows]
  split_ifs
  · rfl
  · rw [isLimited, refill_limit, isLimited]

end ContactBudget

namespace RpcManager

variable {m m' : RpcManager} {o : Outside} {q : Queued} {host other : HostAddress}
  {done rest : List HostAddress} {a b : HostAddress}

/-! ## One turn -/

section Turn

variable (m : RpcManager) (o : Outside)

/-- The query that a host has its turn with. -/
def front (host : HostAddress) : Option Queued := (m.queues.lookup host).bind List.head?

/-- What is left of the budget, and how many queries are pending, after the turn of a
    host: if its query is within the budget, the host has allowance and the operating
    system takes the datagram, it is sent. -/
def spend (x : Option ContactBudget × ℕ) (host : HostAddress) : Option ContactBudget × ℕ :=
  match m.front host with
  | none => x
  | some q =>
    let budget := x.1.map fun b => (b.allows q.dest o.now).1
    if (x.1.all fun b => (b.allows q.dest o.now).2) ∧ (m.limiter.allow host o.now).2 ∧
        o.accepts q.serial then
      (budget.map (·.record q.dest (o.sendNow q.serial)), x.2 + 1)
    else (budget, x.2)

/-- What hosts leave, having their turns one after another. -/
def leftBy (hosts : List HostAddress) : Option ContactBudget × ℕ :=
  hosts.foldl (m.spend o) (m.budget, m.pending.entries.length)

/-- What those ahead of a host leave to it. -/
def leftTo (host : HostAddress) : Option ContactBudget × ℕ :=
  m.leftBy o (m.order.takeWhile (· ≠ host))

end Turn

theorem front_of_lookup {queue : List Queued} (h : m.queues.lookup host = some (q :: queue)) :
    m.front host = some q := by
  rw [front, h]
  rfl

/-- A query sent is pending if the operating system took its datagram. -/
theorem send_pending_length (hfree : m.nextTransactionId.1 ∉ m.pending) :
    (m.send o q).pending.entries.length =
      m.pending.entries.length + if o.accepts q.serial then 1 else 0 := by
  cases haccepts : o.accepts q.serial with
  | true =>
    rw [send_of_accepts haccepts]
    simp only [AList.entries_insert_of_notMem hfree, List.length_cons, ↓reduceIte]
  | false =>
    rw [send_of_refuses haccepts hfree]
    rfl

theorem rotate_keeps : (m.rotate host).budget = m.budget ∧ (m.rotate host).pending = m.pending ∧
    (m.rotate host).limiter = m.limiter := by
  rw [rotate]
  split_ifs <;> exact ⟨rfl, rfl, rfl⟩

theorem rotate_queues_of_ne (hne : other ≠ host) :
    (m.rotate host).queues.lookup other = m.queues.lookup other := by
  rw [rotate]
  split_ifs
  · exact AList.lookup_erase_ne hne
  · rfl

/-- The hosts charged for datagrams, in order. -/
def chargedHosts (log : List Output) : List HostAddress := (chargedTo log).map (·.1.address)

/-- What the turn of a host does to the budget and the pending queries, and whether it
    is charged. -/
theorem turn_spends {queue : List Queued} (hlookup : m.queues.lookup host = some (q :: queue))
    (hmax : m.maxPending ≤ 65536) (hcan : m.canSendNow) :
    ((m.turn o host).1.budget, (m.turn o host).1.pending.entries.length) =
      m.spend o (m.budget, m.pending.entries.length) host ∧
    chargedTo (m.turn o host).1.log = chargedTo m.log ++
      if (m.affordable q.dest o.now).2 ∧ (m.limiter.allow host o.now).2 ∧ o.accepts q.serial ∧
        m.charges q.dest (o.sendNow q.serial) then [(q.dest, o.sendNow q.serial)] else [] := by
  have hq : ∀ q' queue', m.queues.lookup host = some (q' :: queue') → q' = q := by
    intro q' queue' h
    rw [hlookup, Option.some.injEq, List.cons.injEq] at h
    exact h.1.symm
  rw [spend, front_of_lookup hlookup]
  dsimp only
  apply turn_cases (P := fun r => (r.1.budget, r.1.pending.entries.length) = _ ∧
    chargedTo r.1.log = _)
  case gone =>
    intro hnone
    rw [hlookup] at hnone
    cases hnone
  case empty =>
    intro hempty
    rw [hlookup] at hempty
    cases hempty
  case unaffordable =>
    intro q' queue' hlookup' haffordable
    obtain rfl := hq q' queue' hlookup'
    have hnot : ¬(m.budget.all fun b => (b.allows q'.dest o.now).2) = true :=
      Bool.eq_false_iff.1 haffordable
    rw [rotate_keeps.1, rotate_keeps.2.1, rotate_log, if_neg fun h => hnot h.1,
      if_neg fun h => hnot h.1]
    exact ⟨rfl, (sentTo_append_of_silent _ (by simp [Silent])).2.trans (List.append_nil _).symm⟩
  case limited =>
    intro q' queue' hlookup' _ hallow
    obtain rfl := hq q' queue' hlookup'
    rw [rotate_keeps.1, rotate_keeps.2.1, rotate_log, if_neg (by simp [hallow]),
      if_neg (by simp [hallow])]
    exact ⟨rfl, (sentTo_append_of_silent _ (by simp [Silent])).2.trans (List.append_nil _).symm⟩
  case sent =>
    intro q' queue' hlookup' haffordable hallow
    obtain rfl := hq q' queue' hlookup'
    -- There is a transaction id that is free, so that the query is pending once more.
    have hfree : (m.served o host q' queue').nextTransactionId.1 ∉
        (m.served o host q' queue').pending :=
      free_of_canSendNow hmax hcan
    obtain ⟨hbudget, -, hcharged⟩ := send_contacts (m := m.served o host q' queue')
        (o := o) (q := q')
    have hserved : (m.served o host q' queue').charges q'.dest (o.sendNow q'.serial) =
        m.charges q'.dest (o.sendNow q'.serial) := by
      simp only [charges, served, dequeue, note, allow, affordable, Option.any_map]
      congr 1
      funext b
      simp [ContactBudget.isLimited_allows, ContactBudget.isLive_allows]
    have hlog : chargedTo (m.served o host q' queue').log = chargedTo m.log :=
      (sentTo_append_of_silent m.log (by simp [Silent])).2
    have hall : (m.budget.all fun b => (b.allows q'.dest o.now).2) = true := haffordable
    rw [rotate_keeps.1, rotate_keeps.2.1, rotate_log, hbudget, send_pending_length hfree, hcharged,
      hlog, hserved]
    simp only [haffordable, hallow, hall, true_and]
    refine ⟨?_, trivial⟩
    split_ifs <;> rfl

/-- The turn of a host changes nothing for another one. -/
theorem turn_other (hne : other ≠ host) : (m.turn o host).1.front other = m.front other ∧
    ((m.turn o host).1.limiter.allow other o.now).2 = (m.limiter.allow other o.now).2 := by
  -- Each host has a bucket of its own.
  have hallow : ((m.limiter.allow host o.now).1.allow other o.now).2 =
      (m.limiter.allow other o.now).2 :=
    RateLimiter.allow_snd_congr (RateLimiter.allow_rate ..) (RateLimiter.allow_burst ..)
      (RateLimiter.allow_buckets_of_ne hne _)
  apply turn_cases (P := fun r => r.1.front other = m.front other ∧
    (r.1.limiter.allow other o.now).2 = (m.limiter.allow other o.now).2)
  case gone => exact fun _ => ⟨rfl, rfl⟩
  case empty =>
    intro _
    rw [front, rotate_queues_of_ne hne, rotate_keeps.2.2]
    exact ⟨rfl, rfl⟩
  case unaffordable =>
    intro _ _ _ _
    rw [front, rotate_queues_of_ne hne, rotate_keeps.2.2]
    exact ⟨rfl, rfl⟩
  case limited =>
    intro _ _ _ _ _
    rw [front, rotate_queues_of_ne hne, rotate_keeps.2.2]
    exact ⟨rfl, hallow⟩
  case sent =>
    intro q queue _ _ _
    rw [front, rotate_queues_of_ne hne, rotate_keeps.2.2, send_limiter, send_queues]
    refine ⟨?_, hallow⟩
    rw [front]
    exact congrArg (fun queue : Option (List Queued) => queue.bind List.head?)
      (AList.lookup_insert_ne hne)

theorem turn_order (m : RpcManager) (o : Outside) (host : HostAddress) :
    (m.turn o host).1.order = m.order ∨ (m.turn o host).1.order = m.order ++ [host] := by
  apply turn_cases (P := fun r => r.1.order = m.order ∨ r.1.order = m.order ++ [host])
  case gone => exact fun _ => .inl rfl
  case empty => exact fun _ => rotate_order ..
  case unaffordable => exact fun _ _ _ _ => rotate_order ..
  case limited => exact fun _ _ _ _ _ => rotate_order ..
  case sent =>
    intro q queue _ _ _
    have horder : ((m.served o host q queue).send o q).order = m.order := send_keeps.2.1
    rw [← horder]
    exact rotate_order ..

theorem spend_congr {x : Option ContactBudget × ℕ} (hfront : m'.front host = m.front host)
    (hallow : (m'.limiter.allow host o.now).2 = (m.limiter.allow host o.now).2) :
    m'.spend o x host = m.spend o x host := by
  rw [spend, spend, hfront, hallow]

theorem Addressed.front (h : m.Addressed) : ∀ q ∈ m.front host, q.dest.address = host := by
  intro q hq
  rw [RpcManager.front, Option.mem_def, Option.bind_eq_some_iff] at hq
  obtain ⟨queue, hlookup, hhead⟩ := hq
  exact h host q ⟨queue, hlookup, List.mem_of_head? hhead⟩

/-- A turn makes no pending query less. -/
theorem spend_mono (x : Option ContactBudget × ℕ) (host : HostAddress) :
    x.2 ≤ (m.spend o x host).2 := by
  rw [spend]
  split
  next => exact le_rfl
  next =>
    dsimp only
    split_ifs
    · exact Nat.le_succ _
    · exact le_rfl

/-- A turn leaves the budget limited, and the endpoints of other hosts as known to it
    as they were. -/
theorem spend_keeps {x : Option ContactBudget × ℕ} (haddressed : m.Addressed) {dest : Endpoint}
    (hne : dest.address ≠ host) : ∀ b ∈ x.1, ∃ b' ∈ (m.spend o x host).1,
      b'.isLimited = b.isLimited ∧ ∀ clock, b'.isLive dest clock = b.isLive dest clock := by
  intro b hb
  rw [spend]
  split
  next => exact ⟨b, hb, rfl, fun _ => rfl⟩
  next q hq =>
    have hdest : dest ≠ q.dest := fun h => hne (h ▸ haddressed.front q hq)
    have hb' : (b.allows q.dest o.now).1 ∈ x.1.map fun b => (b.allows q.dest o.now).1 :=
      Option.mem_map_of_mem _ hb
    dsimp only
    split_ifs
    · refine ⟨_, Option.mem_map_of_mem _ hb', ?_, fun clock => ?_⟩
      · rw [ContactBudget.isLimited, ContactBudget.record_limit]
        exact ContactBudget.isLimited_allows
      · rw [ContactBudget.isLive_record hdest, ContactBudget.isLive_allows]
    · exact ⟨_, hb', ContactBudget.isLimited_allows, fun clock => ContactBudget.isLive_allows⟩

theorem leftBy_concat : m.leftBy o (done ++ [host]) = m.spend o (m.leftBy o done) host := by
  rw [leftBy, List.foldl_concat, ← leftBy]

theorem leftTo_eq (horder : m.order = done ++ host :: rest) (hmem : host ∉ done) :
    m.leftTo o host = m.leftBy o done := by
  have htake : m.order.takeWhile (· ≠ host) = done := by
    rw [horder, List.takeWhile_append_of_pos
      (fun h hh => by simpa using ne_of_mem_of_not_mem hh hmem),
      List.takeWhile_cons_of_neg (by simp), List.append_nil]
  rw [leftTo, htake]

/-- The more hosts had their turns, the more queries are pending. -/
theorem leftBy_mono : ∀ rest : List HostAddress, (m.leftBy o done).2 ≤
    (m.leftBy o (done ++ rest)).2 := by
  intro rest
  induction rest using List.reverseRecOn with
  | nil => rw [List.append_nil]
  | append_singleton rest host ih =>
    rw [← List.append_assoc, leftBy_concat]
    exact ih.trans (spend_mono _ host)

/-- The turns of other hosts leave the budget limited, and an endpoint as known to it
    as it was. -/
theorem leftBy_keeps (o : Outside) (haddressed : m.Addressed) {dest : Endpoint} :
    ∀ hosts : List HostAddress, dest.address ∉ hosts → ∀ b ∈ m.budget, ∃ b' ∈ (m.leftBy o hosts).1,
      b'.isLimited = b.isLimited ∧ ∀ clock, b'.isLive dest clock = b.isLive dest clock := by
  intro hosts
  induction hosts using List.reverseRecOn with
  | nil => exact fun _ b hb => ⟨b, hb, rfl, fun _ => rfl⟩
  | append_singleton hosts host ih =>
    intro hmem b hb
    rw [List.mem_append, List.mem_singleton, not_or] at hmem
    obtain ⟨b', hb', hlimited, hlive⟩ := ih hmem.1 b hb
    rw [leftBy_concat]
    obtain ⟨b'', hb'', hlimited', hlive'⟩ := spend_keeps haddressed hmem.2 b' hb'
    exact ⟨b'', hb'', hlimited'.trans hlimited, fun clock => (hlive' clock).trans (hlive clock)⟩

/-! ## A pass -/

section Pass

variable (m : RpcManager) (o : Outside) (host : HostAddress)

/-- The turn of a host comes, and the budget holds back its query. -/
def HeldOver : Prop := (m.leftTo o host).2 < m.maxPending ∧
  ∃ q ∈ m.front host, ((m.leftTo o host).1.all fun b => (b.allows q.dest o.now).2) = false

/-- A host has allowance left and a query to an endpoint that is new to a limited
    budget throughout a pass. -/
def Contends : Prop := (m.limiter.allow host o.now).2 ∧ ∃ q ∈ m.front host, ∃ b ∈ m.budget,
  b.isLimited ∧ b.isLive q.dest o.now = false ∧ b.isLive q.dest (o.sendNow q.serial) = false

instance : Decidable (m.HeldOver o host) := inferInstanceAs (Decidable (_ ∧ _))

instance : Decidable (m.Contends o host) := inferInstanceAs (Decidable (_ ∧ _))

/-- A pass has come so far: some hosts had their turns, the rest is to come. -/
structure Passing (done rest : List HostAddress) (m' : RpcManager) : Prop where
  waiting : m'.Waiting none none
  order : ∃ kept, m'.order = rest ++ kept ∧ kept.Sublist done
  left : (m'.budget, m'.pending.entries.length) = m.leftBy o done
  maxPending : m'.maxPending = m.maxPending
  front : ∀ host ∈ rest, m'.front host = m.front host
  allow : ∀ host ∈ rest, (m'.limiter.allow host o.now).2 = (m.limiter.allow host o.now).2
  hadTurn : ∀ host ∈ done, (m.leftTo o host).2 < m.maxPending
  charged : ∃ outputs, m'.log = m.log ++ outputs ∧ (chargedHosts outputs).Sublist done ∧
    (∀ host ∈ chargedHosts outputs, ¬m.HeldOver o host) ∧
    ∀ host ∈ done, m.Contends o host → (∀ q ∈ m.front host, o.accepts q.serial) →
      ¬m.HeldOver o host → host ∈ chargedHosts outputs

end Pass

theorem chargedHosts_append {log outputs : List Output} :
    chargedHosts (log ++ outputs) = chargedHosts log ++ chargedHosts outputs := by
  rw [chargedHosts, chargedTo, List.filterMap_append, List.map_append]
  rfl

/-- Nothing has happened yet. -/
theorem passing_nil (hwaiting : m.Waiting none none) : m.Passing o [] m.order m :=
  ⟨hwaiting, ⟨[], (List.append_nil _).symm, .refl _⟩, rfl, rfl, fun _ _ =>
    rfl, fun _ _ => rfl, by simp, [], (List.append_nil _).symm, by simp [chargedHosts, chargedTo]⟩

/-- The pass goes on with the turn of the next host. -/
theorem Passing.turn (h : m.Passing o done (host :: rest) m') (hmax : m.maxPending ≤ 65536)
    (haddressed : m.Addressed) (horder : m.order = done ++ host :: rest) (hnodup : m.order.Nodup)
    (hcan : m'.canSendNow) {order : List HostAddress} (horder' : m'.order = host :: order) :
    m.Passing o (done ++ [host]) rest (RpcManager.turn { m' with order } o host).1 := by
  rw [horder, List.nodup_append] at hnodup
  obtain ⟨-, hrest, hdisjoint⟩ := hnodup
  have hmem : host ∉ done := fun hmem => hdisjoint host hmem host List.mem_cons_self rfl
  have hleft : m.leftTo o host = (m'.budget, m'.pending.entries.length) :=
    (leftTo_eq horder hmem).trans h.left.symm
  obtain ⟨q, queue, hlookup⟩ := h.waiting.exists_front (by rw [horder']; exact List.mem_cons_self)
  have hfront : m.front host = some q :=
    (h.front host List.mem_cons_self).symm.trans (front_of_lookup hlookup)
  have hallow := h.allow host List.mem_cons_self
  obtain ⟨hspends, hcharged⟩ := turn_spends (m := { m' with order }) (o := o) hlookup
    (h.maxPending.trans_le hmax) hcan
  have hlt : m'.pending.entries.length < m'.maxPending := by simpa [canSendNow] using hcan
  refine ⟨h.waiting.turn_fst horder', ?_, ?_, ?_, fun other hother => ?_, fun other hother => ?_,
    fun other hother => ?_, ?_⟩
  · obtain ⟨kept, hkept, hsublist⟩ := h.order
    rw [horder', List.cons_append, List.cons.injEq] at hkept
    rcases turn_order { m' with order } o host with heq | heq
    · exact ⟨kept, heq.trans hkept.2, hsublist.trans (List.sublist_append_left _ _)⟩
    · exact ⟨kept ++ [host], by rw [heq, hkept.2, List.append_assoc], hsublist.append (.refl _)⟩
  · rw [hspends, leftBy_concat, ← h.left]
    exact spend_congr (h.front host List.mem_cons_self) hallow
  · exact turn_maxPending.trans h.maxPending
  · have hne : other ≠ host := fun heq => (List.nodup_cons.1 hrest).1 (heq ▸ hother)
    exact (turn_other hne).1.trans (h.front other (List.mem_cons_of_mem _ hother))
  · have hne : other ≠ host := fun heq => (List.nodup_cons.1 hrest).1 (heq ▸ hother)
    exact (turn_other (m := { m' with order }) hne).2.trans
      (h.allow other (List.mem_cons_of_mem _ hother))
  · rcases List.mem_append.1 hother with hother | hother
    · exact h.hadTurn other hother
    · rw [List.mem_singleton.1 hother, hleft, ← h.maxPending]
      exact hlt
  · obtain ⟨outputs, hlog, hsublist, hwithin, hserved⟩ := h.charged
    obtain ⟨outputs', hlog', -⟩ := adds_turn { m' with order } o host
    -- The host is charged if its query is sent to a new endpoint.
    have hnew : chargedHosts outputs' = if (m'.affordable q.dest o.now).2 ∧
        (m'.limiter.allow host o.now).2 ∧ o.accepts q.serial ∧
        m'.charges q.dest (o.sendNow q.serial) then [host] else [] := by
      have htail : chargedTo outputs' = _ :=
        List.append_cancel_left ((List.filterMap_append.symm.trans
          (congrArg chargedTo hlog').symm).trans hcharged)
      rw [chargedHosts, htail, ← haddressed.front q hfront]
      exact apply_ite _ _ _ _
    have hheld : m.HeldOver o host ↔ (m'.affordable q.dest o.now).2 = false := by
      rw [HeldOver, hleft, hfront, ← h.maxPending]
      simp only [hlt, true_and, Option.mem_some_iff, exists_eq_left', affordable]
    refine ⟨outputs ++ outputs', ?_, ?_, fun other hother =>
      ?_, fun other hother hcontends haccepts hnot => ?_⟩
    · rw [hlog', ← List.append_assoc, ← hlog]
    · rw [chargedHosts_append, hnew]
      refine hsublist.append ?_
      split_ifs
      · exact .refl _
      · exact List.nil_sublist _
    · rw [chargedHosts_append, List.mem_append, hnew] at hother
      rcases hother with hother | hother
      · exact hwithin other hother
      · split_ifs at hother with hall
        · rw [List.mem_singleton.1 hother, hheld, hall.1]
          simp
        · cases hother
    · rw [chargedHosts_append, List.mem_append, hnew]
      rcases List.mem_append.1 hother with hother | hother
      · exact .inl (hserved other hother hcontends haccepts hnot)
      · obtain rfl := List.mem_singleton.1 hother
        obtain ⟨hallowed, q', hq', b, hb, hlimited, -, hlive⟩ := hcontends
        obtain rfl : q = q' := Option.some.inj (hfront.symm.trans hq')
        obtain ⟨b', hb', hlimited', hlive'⟩ := leftBy_keeps o haddressed done
          (show q.dest.address ∉ done by rwa [haddressed.front q hfront]) b hb
        rw [← h.left] at hb'
        have hcharges : m'.charges q.dest (o.sendNow q.serial) := by
          rw [charges, show m'.budget = some b' from hb', Option.any_some, hlimited', hlive',
            hlimited, hlive]
          rfl
        have hwithin : (m'.affordable q.dest o.now).2 := by simpa [hheld] using hnot
        exact .inr (by simp [hwithin, hallow.trans hallowed, haccepts q hfront, hcharges])

/-- The loop goes on until every host had its turn, or too many queries are pending. -/
theorem Passing.drainLoop (hmax : m.maxPending ≤ 65536) (haddressed : m.Addressed)
    (hnodup : m.order.Nodup) : ∀ {rest done : List HostAddress} {m' : RpcManager}
    {exhausted : Bool}, m.Passing o done rest m' → m.order = done ++ rest → ∃ done' rest',
        m.order = done' ++ rest' ∧
        m.Passing o done' rest' (RpcManager.drainLoop o rest.length m' exhausted).1 ∧
        ∀ host ∈ rest', m.maxPending ≤ (m.leftBy o done').2
  | [], done, m', exhausted, h, horder => ⟨done, [], horder, h, by simp⟩
  | host :: rest, done, m', exhausted, h, horder => by
    obtain ⟨kept, hkept, -⟩ := h.order
    rw [List.length_cons, RpcManager.drainLoop]
    split
    next hnil =>
      rw [hkept] at hnil
      cases hnil
    next host' order horder' =>
      obtain rfl : host' = host := (List.cons.inj (horder'.symm.trans hkept)).1
      -- The loop ends where too many queries are pending, and else gives the next host its turn.
      split_ifs with hcap
      · refine ⟨done, host' :: rest, horder, ⟨h.waiting.congr rfl rfl rfl rfl, h.order, h.left,
          h.maxPending, h.front, h.allow, h.hadTurn, ?_⟩, fun _ _ => ?_⟩
        · obtain ⟨outputs, hlog, hcharged⟩ := h.charged
          refine ⟨_, (congrArg (· ++ _) hlog).trans (List.append_assoc ..), ?_⟩
          rw [chargedHosts, (sentTo_append_of_silent _ fun x hx => ?_).2, ← chargedHosts]
          · exact hcharged
          · obtain ⟨_, -, rfl⟩ := List.mem_map.1 hx
            trivial
        · rw [← h.left, ← h.maxPending]
          simpa [canSendNow] using hcap
      · have hcan : m'.canSendNow := by simpa using hcap
        exact Passing.drainLoop hmax haddressed hnodup
          (h.turn hmax haddressed horder hnodup hcan horder')
            (by rw [horder, List.append_assoc]; rfl)

/-- What a pass does. -/
theorem passing_drain (hwaiting : m.Waiting none none) (hmax : m.maxPending ≤ 65536)
    (haddressed : m.Addressed) (o : Outside) : ∃ done rest, m.order = done ++ rest ∧
      m.Passing o done rest (m.drain o) ∧ ∀ host ∈ rest, m.maxPending ≤ (m.leftBy o done).2 := by
  obtain ⟨done, rest, horder, h, hcap⟩ := Passing.drainLoop hmax haddressed
    hwaiting.nodup (passing_nil (o := o) hwaiting) (List.nil_append _).symm
  refine ⟨done, rest, horder, ?_, hcap⟩
  obtain ⟨hwaiting', hkept, hleft, hmax', hfront, hallow, hhad, hcharged⟩ := h
  have hdrain := hwaiting.drain o
  rw [drain] at hdrain ⊢
  rw [horder, List.length_append] at *
  dsimp only at hdrain ⊢
  split_ifs at hdrain ⊢ <;> exact ⟨hdrain, hkept, hleft, hmax', hfront, hallow, hhad, hcharged⟩

/-! ## In turn -/

/-- What holds whenever something happens in a stretch of a run. -/
def Stretch (P : RpcManager → Event → Prop) : RpcManager → List Event → Prop
  | _, [] => True
  | m, e :: events => P m e ∧ Stretch P (m.apply e) events

/-- Both hosts have queries waiting, and contend for the budget in every pass. -/
def BothContend (a b : HostAddress) (m : RpcManager) (e : Event) : Prop :=
  a ∈ m.queues ∧ b ∈ m.queues ∧ ∀ o, e = .drain o → m.Contends o a ∧ m.Contends o b

/-- A pass that holds back the second host for the budget holds back the first one too,
    and the operating system takes what it sends to the second host. -/
def HeldTogether (a b : HostAddress) (m : RpcManager) (e : Event) : Prop :=
  ∀ o, e = .drain o → (m.HeldOver o b → m.HeldOver o a) ∧ ∀ q ∈ m.front b, o.accepts q.serial

/-- The two hosts were charged in turn, the second one being first when it is owed one. -/
structure InTurn (m : RpcManager) (a b : HostAddress) (charged : List HostAddress) : Prop where
  alternates : Alternates a b charged
  owed : Owed a b charged → a ∈ m.queues → b ∈ m.queues → [b, a].Sublist m.order

/-- Apart from passes of `drain`, only hosts with no queue are charged. -/
theorem apply_charged {e : Event} (hdrain : ∀ o, e ≠ .drain o) : ∃ hosts,
    chargedHosts (m.apply e).log = chargedHosts m.log ++ hosts ∧
    ∀ host ∈ hosts, host ∉ m.queues := by
  cases e with
  | query o q =>
    obtain ⟨budget, limiter, hc⟩ := (m.call q).consider_fst q.dest o.now
    have hcall : chargedTo (m.call q).log = chargedTo m.log :=
      (sentTo_append_of_silent _ (by simp [Silent])).2
    have hconsidering : chargedTo (m.considering o q).log = chargedTo m.log := by
      rw [considering, hc]
      exact (sentTo_append_of_silent _ (by simp [Silent])).2.trans hcall
    have hsame : ∀ m' : RpcManager, chargedTo m'.log = chargedTo m.log → ∃ hosts,
        chargedHosts m'.log = chargedHosts m.log ++ hosts ∧ ∀ host ∈ hosts, host ∉ m.queues :=
      fun m' heq => ⟨[], by rw [chargedHosts, heq, List.append_nil, chargedHosts], by simp⟩
    apply query_cases (P := fun m' => ∃ hosts, chargedHosts m'.log = chargedHosts m.log ++ hosts ∧
      ∀ host ∈ hosts, host ∉ m.queues) (m := m)
    -- A query is sent at once only to a host with no queue.
    case sent =>
      intro hlookup _
      obtain ⟨-, -, hcharged⟩ := send_contacts (m := m.considering o q) (o := o)
        (q := { q with serial := m.calls })
      refine ⟨_, by rw [chargedHosts, hcharged, hconsidering, List.map_append, ← chargedHosts],
        fun host hhost => ?_⟩
      split_ifs at hhost
      · rw [List.mem_singleton.1 hhost]
        exact AList.lookup_eq_none.1 hlookup
      · cases hhost
    case full =>
      exact fun _ _ _ =>
        hsame _ ((sentTo_append_of_silent _ (by simp [Silent])).2.trans hconsidering)
    case first => exact fun _ _ _ => hsame _ hconsidering
    case refused =>
      exact fun _ _ => hsame _ ((sentTo_append_of_silent _ (by simp [Silent])).2.trans hcall)
    case queued => exact fun _ _ _ _ => hsame _ hcall
  | drain o => exact absurd rfl (hdrain o)
  | _ =>
    obtain ⟨outputs, hlog, hmay⟩ := adds_apply m _
    refine ⟨[], ?_, by simp⟩
    rw [hlog, chargedHosts, (sentTo_append_of_silent _ fun x hx => ?_).2,
      List.append_nil, chargedHosts]
    have := hmay x hx
    cases x <;> simp_all [MayDo, Concludes, Silent]

/-- A host that had its turn without being charged was held back. -/
theorem Passing.heldOver (h : m.Passing o done rest m') {outputs : List Output}
    (hlog : m'.log = m.log ++ outputs) (hcontends : m.Contends o host)
    (haccepts : ∀ q ∈ m.front host, o.accepts q.serial) (hdone : host ∈ done)
    (hnot : host ∉ chargedHosts outputs) : m.HeldOver o host := by
  obtain ⟨outputs', hlog', -, -, hserved⟩ := h.charged
  obtain rfl : outputs' = outputs := List.append_cancel_left (hlog'.symm.trans hlog)
  by_contra hheld
  exact hnot (hserved host hdone hcontends haccepts hheld)

/-- Two hosts in the order that both keep their queues keep their order in a pass, if
    both have their turns or neither has. -/
theorem Passing.pair (h : m.Passing o done rest m') (horder : m.order = done ++ rest)
    (hnodup : m.order.Nodup) (ha : a ∈ m'.order) (hb : b ∈ m'.order)
    (hpair : [b, a].Sublist m.order) (hiff : a ∈ done ↔ b ∈ done) : [b, a].Sublist m'.order := by
  obtain ⟨kept, hkept, hsublist⟩ := h.order
  have hdisjoint := (List.nodup_append.1 (horder ▸ hnodup)).2.2
  rw [hkept, List.mem_append] at ha hb
  rw [hkept]
  by_cases hdone : a ∈ done
  · have ha' : a ∈ kept := ha.resolve_left fun hrest => hdisjoint a hdone a hrest rfl
    have hb' : b ∈ kept := hb.resolve_left fun hrest => hdisjoint b (hiff.1 hdone) b hrest rfl
    have hsub : kept.Sublist m.order := hsublist.trans (horder ▸ List.sublist_append_left _ _)
    exact (pair_sublist_of_sublist hnodup hsub hpair hb' ha').trans (List.sublist_append_right _ _)
  · have ha' : a ∈ rest := ha.resolve_right fun hmem => hdone (hsublist.subset hmem)
    have hb' : b ∈ rest := hb.resolve_right fun hmem => hdone (hiff.2 (hsublist.subset hmem))
    have hsub : rest.Sublist m.order := horder ▸ List.sublist_append_right _ _
    exact (pair_sublist_of_sublist hnodup hsub hpair hb' ha').trans (List.sublist_append_left _ _)

/-- A host held back had its turn. -/
theorem HeldOver.mem_done (h : m.HeldOver o host) (hmem : host ∈ m.order)
    (horder : m.order = done ++ rest) (hnodup : m.order.Nodup)
    (hcap : ∀ host ∈ rest, m.maxPending ≤ (m.leftBy o done).2) :
    host ∈ done := by
  by_contra hdone
  have hrest : host ∈ rest := (List.mem_append.1 (horder ▸ hmem)).resolve_left hdone
  obtain ⟨rest₁, rest₂, rfl⟩ := List.append_of_mem hrest
  rw [← List.append_assoc] at horder
  rw [horder, List.nodup_append] at hnodup
  have hleft := leftTo_eq (o := o) horder fun hmem =>
      hnodup.2.2 host hmem host List.mem_cons_self rfl
  have hlt := h.1
  rw [hleft] at hlt
  exact absurd ((hcap host hrest).trans (leftBy_mono rest₁)) (not_le.2 hlt)

/-- A pass charges the hosts in turn. -/
theorem InTurn.drain {charged : List HostAddress} (h : m.InTurn a b charged)
    (hwaiting : m.Waiting none none) (hmax : m.maxPending ≤ 65536) (haddressed : m.Addressed)
    (hne : a ≠ b) (hcontend : BothContend a b m (.drain o))
    (htogether : HeldTogether a b m (.drain o)) :
    ∃ hosts, chargedHosts (m.drain o).log = chargedHosts m.log ++ hosts ∧
      (m.drain o).InTurn a b (charged ++ hosts) := by
  obtain ⟨ha, hb, hcontends⟩ := hcontend
  obtain ⟨hheld, haccepts⟩ := htogether o rfl
  obtain ⟨done, rest, horder, hpass, hcap⟩ := passing_drain hwaiting hmax haddressed o
  obtain ⟨outputs, hlog, hsublist, hwithin, -⟩ := hpass.charged
  have hnodup : m.order.Nodup := hwaiting.nodup
  have hdone : done.Nodup := (List.nodup_append.1 (horder ▸ hnodup)).1
  have hsub : (chargedHosts outputs).Sublist m.order :=
    hsublist.trans (horder ▸ List.sublist_append_left _ _)
  have hmem : ∀ host, host ∈ m.order ↔ host ∈ m.queues := hwaiting.mem_order
  have hmem' : ∀ host, host ∈ (m.drain o).order ↔ host ∈ (m.drain o).queues :=
    hpass.waiting.mem_order
  -- If the second host had its turn without being charged, the first was held back too.
  have hboth : b ∈ done → b ∉ chargedHosts outputs → m.HeldOver o a := fun hb' hnot =>
    hheld (hpass.heldOver hlog (hcontends o rfl).2 haccepts hb' hnot)
  have hserved : b ∈ done → a ∈ chargedHosts outputs → b ∈ chargedHosts outputs := fun hb' ha' => by
    by_contra hnot
    exact hwithin a ha' (hboth hb' hnot)
  refine ⟨chargedHosts outputs, by rw [hlog, chargedHosts_append], ?_, fun howed ha' hb' => ?_⟩
  · refine h.alternates.append (alternates_of_nodup (hsublist.nodup hdone))
      fun howed l₁ l₂ heq => ?_
    have hpair := h.owed howed ha hb
    have ha' : a ∈ chargedHosts outputs := by simp [heq]
    have hb' := hserved (first_mem hnodup horder hpair (hsublist.subset ha')) ha'
    exact mem_of_pair (hsub.nodup hnodup) heq (pair_sublist_of_sublist hnodup hsub hpair hb' ha')
  · rw [← hmem'] at ha' hb'
    rcases owed_append_iff.1 howed with ⟨l₁, l₂, heq, hlast⟩ | ⟨howed, hnot⟩
    · have hcharged : a ∈ chargedHosts outputs := by simp [heq]
      have hadone : a ∈ done := hsublist.subset hcharged
      by_cases hbdone : b ∈ done
      · -- Both were charged, the second host first.
        have hb₁ : b ∈ l₁ := by simpa [heq, hne.symm, hlast] using hserved hbdone hcharged
        have hpair : [b, a].Sublist (chargedHosts outputs) := by
          rw [heq]
          exact (List.singleton_sublist.2 hb₁).append (List.singleton_sublist.2 List.mem_cons_self)
        exact hpass.pair horder hnodup ha' hb' (hpair.trans hsub) (iff_of_true hadone hbdone)
      · -- The second host is still to come.
        obtain ⟨kept, hkept, hsublist'⟩ := hpass.order
        rw [hkept, List.mem_append] at ha' hb'
        rw [hkept]
        refine (List.singleton_sublist.2
          (hb'.resolve_right fun h => hbdone (hsublist'.subset h))).append
          (List.singleton_sublist.2 (ha'.resolve_left fun h => ?_))
        exact (List.nodup_append.1 (horder ▸ hnodup)).2.2 a hadone a h rfl
    · have hpair := h.owed howed ha hb
      refine hpass.pair horder hnodup ha' hb' hpair
        ⟨first_mem hnodup horder hpair, fun hbdone => ?_⟩
      exact (hboth hbdone hnot).mem_done ((hmem a).2 ha) horder hnodup hcap

theorem InTurn.apply {charged : List HostAddress} (h : m.InTurn a b charged)
    (hwaiting : m.Waiting none none) (hmax : m.maxPending ≤ 65536) (haddressed : m.Addressed)
    (hne : a ≠ b) {e : Event} (hcontend : BothContend a b m e) (htogether : HeldTogether a b m e) :
    ∃ hosts, chargedHosts (m.apply e).log = chargedHosts m.log ++ hosts ∧
      (m.apply e).InTurn a b (charged ++ hosts) := by
  by_cases hdrain : ∀ o, e ≠ .drain o
  · obtain ⟨ha, hb, -⟩ := hcontend
    obtain ⟨hosts, hlog, hnone⟩ := apply_charged hdrain
    have ha' : a ∉ hosts := fun hmem => hnone a hmem ha
    have hb' : b ∉ hosts := fun hmem => hnone b hmem hb
    have hnot : ∀ l₁ l₂, hosts ≠ l₁ ++ a :: l₂ := fun l₁ l₂ heq => ha' (by simp [heq])
    refine ⟨hosts, hlog, h.alternates.append (fun l₁ l₂ l₃ heq => absurd heq (hnot _ _))
      fun _ l₁ l₂ heq => absurd heq (hnot _ _), fun howed hqueue _ => ?_⟩
    rcases owed_append_iff.1 howed with ⟨l₁, l₂, heq, -⟩ | ⟨howed, -⟩
    · exact absurd heq (hnot _ _)
    · -- The hosts keep their order, as something waits.
      have hwaiting' := hwaiting.apply (fun n hn => absurd hn (Option.not_mem_none n)) e
      obtain ⟨q, queue, hlookup⟩ := hwaiting'.exists_front ((hwaiting'.mem_order a).2 hqueue)
      exact (h.owed howed ha hb).trans (apply_sublist hdrain ⟨_, hlookup, List.mem_cons_self⟩)
  · push Not at hdrain
    obtain ⟨o, rfl⟩ := hdrain
    exact h.drain hwaiting hmax haddressed hne hcontend htogether

theorem maxPending_le_apply (hmax : m.maxPending ≤ 65536) (e : Event) :
    (m.apply e).maxPending ≤ 65536 := by
  rcases m.apply_maxPending e with heq | ⟨n, heq⟩
  · exact heq.trans_le hmax
  · omega

theorem inTurn_run (hne : a ≠ b) : ∀ {events : List Event} {m : RpcManager}
    {charged : List HostAddress}, m.InTurn a b charged → m.Waiting none none →
    m.maxPending ≤ 65536 → m.Addressed →
      Stretch (BothContend a b) m events → Stretch (HeldTogether a b) m events →
        ∃ hosts, chargedHosts (m.run events).log = chargedHosts m.log ++ hosts ∧
          Alternates a b (charged ++ hosts)
  | [], m, charged, h, _, _, _, _, _ => ⟨[], (List.append_nil _).symm, by
      rw [List.append_nil]
      exact h.alternates⟩
  | e :: events, m, charged, h, hwaiting, hmax, haddressed, hcontend, htogether => by
    obtain ⟨hosts, hlog, hinTurn⟩ := h.apply hwaiting hmax haddressed hne hcontend.1 htogether.1
    obtain ⟨hosts', hlog', halternates⟩ := inTurn_run (m := m.apply e) hne hinTurn
      (hwaiting.apply (fun n hn => absurd hn (Option.not_mem_none n)) e)
        (maxPending_le_apply hmax e)
      (haddressed.apply e) hcontend.2 htogether.2
    refine ⟨hosts ++ hosts', ?_, by rwa [← List.append_assoc]⟩
    rw [← List.append_assoc, ← hlog]
    exact hlog'

theorem invariant_run : ∀ {events : List Event}
    {m : RpcManager}, m.maxPending ≤ 65536 ∧ m.Addressed →
    (m.run events).maxPending ≤ 65536 ∧ (m.run events).Addressed
  | [], _, h => h
  | e :: _, m, h =>
    invariant_run (m := m.apply e) ⟨maxPending_le_apply h.1 e, h.2.apply e⟩

theorem log_run : ∀ {events : List Event} {m : RpcManager}, ∃ outputs,
    (m.run events).log = m.log ++ outputs
  | [], m => ⟨[], (List.append_nil _).symm⟩
  | e :: events, m => by
    obtain ⟨outputs, hlog, -⟩ := adds_apply m e
    obtain ⟨outputs', hlog'⟩ := log_run (m := m.apply e)
    exact ⟨outputs ++ outputs', by rw [← List.append_assoc, ← hlog]; exact hlog'⟩

/-- While two hosts contend for the budget, and no pass holds back the second one only,
    the first is charged again only after the second. -/
theorem charges_alternate (nextId : UInt16) (before stretch : List Event) (a b : HostAddress)
    (hne : a ≠ b) (hcontend : Stretch (BothContend a b) ((new nextId).run before) stretch)
    (htogether : Stretch (HeldTogether a b) ((new nextId).run before) stretch) : ∃ outputs,
      (((new nextId).run before).run stretch).log = ((new nextId).run before).log ++ outputs ∧
        Alternates a b (chargedHosts outputs) := by
  have haddressed : (new nextId).Addressed := by
    intro host q ⟨queue, hlookup, _⟩
    simp [new] at hlookup
  obtain ⟨hmax, haddressed⟩ := invariant_run
    ⟨(by decide : 60000 ≤ 65536), haddressed⟩
  obtain ⟨hosts, hcharged, halternates⟩ := inTurn_run hne
    (show ((new nextId).run before).InTurn a b []
      from ⟨alternates_nil, fun howed => absurd howed not_owed_nil⟩)
    (waiting_run (waiting_new nextId)) hmax haddressed hcontend htogether
  obtain ⟨outputs, hlog⟩ := log_run (m := (new nextId).run before)
  rw [hlog, chargedHosts_append, List.append_cancel_left_eq] at hcharged
  exact ⟨outputs, hlog, hcharged ▸ halternates⟩

/-- Under a budget of so many contacts a second, of which two are made, two hosts have
    queries to new endpoints waiting. -/
def contending (limit : ℤ) : List Event :=
  [.setBudget (some (({} : ContactBudget).setLimit limit 0)),
    .query { now := 0 } { serial := 0, dest := ⟨.ipv4 1, 1⟩ },
    .query { now := 0 } { serial := 0, dest := ⟨.ipv4 1, 2⟩ },
    .query { now := 0 } { serial := 0, dest := ⟨.ipv4 2, 1⟩ },
    .query { now := 0 } { serial := 0, dest := ⟨.ipv4 2, 2⟩ },
    .query { now := 0 } { serial := 0, dest := ⟨.ipv4 3, 1⟩ },
    .query { now := 0 } { serial := 0, dest := ⟨.ipv4 3, 2⟩ }]

/-- Passes made a second apart. -/
def passes (n : ℕ) : List Event := (List.range n).map fun i => .drain { now := 1000 * (i + 1) }

/-- With two contacts a second, each of the two hosts gets one. -/
theorem charges_alternate_contending : ∃ outputs,
    (((new 0).run (contending 2)).run (passes 2)).log =
      ((new 0).run (contending 2)).log ++ outputs ∧
      Alternates (.ipv4 2) (.ipv4 3) (chargedHosts outputs) := by
  refine charges_alternate 0 (contending 2) (passes 2) (.ipv4 2) (.ipv4 3) (by decide) ?_ ?_
  · refine ⟨⟨by decide +kernel, by decide +kernel, fun o ho => ?_⟩,
      ⟨by decide +kernel, by decide +kernel, fun o ho => ?_⟩, trivial⟩
    · cases ho
      decide +kernel
    · cases ho
      decide +kernel
  · refine ⟨fun o ho => ?_, fun o ho => ?_, trivial⟩
    · cases ho
      decide +kernel
    · cases ho
      decide +kernel

/-- With one contact a second, one of the two hosts gets it time after time. -/
theorem not_alternates_contending :
    Stretch (BothContend (.ipv4 2) (.ipv4 3)) ((new 0).run (contending 1)) (passes 3) ∧
      ∃ outputs, (((new 0).run (contending 1)).run (passes 3)).log =
        ((new 0).run (contending 1)).log ++ outputs ∧
          ¬Alternates (.ipv4 2) (.ipv4 3) (chargedHosts outputs) := by
  refine ⟨⟨⟨by decide +kernel, by decide +kernel, fun o ho => ?_⟩,
    ⟨by decide +kernel, by decide +kernel, fun o ho => ?_⟩,
    ⟨by decide +kernel, by decide +kernel, fun o ho => ?_⟩, trivial⟩, ?_⟩
  · cases ho
    decide +kernel
  · cases ho
    decide +kernel
  · cases ho
    decide +kernel
  · obtain ⟨outputs, hlog⟩ := log_run (m := (new 0).run (contending 1))
    refine ⟨outputs, hlog, fun h => ?_⟩
    -- The second host is charged twice, and the third one never.
    have hafter : chargedHosts (((new 0).run (contending 1)).run (passes 3)).log =
        [.ipv4 1, .ipv4 1, .ipv4 2, .ipv4 2] := by decide +kernel
    have hbefore : chargedHosts ((new 0).run (contending 1)).log = [.ipv4 1] := by decide +kernel
    rw [hlog, chargedHosts_append, hbefore] at hafter
    have houtputs : chargedHosts outputs = [.ipv4 1, .ipv4 2, .ipv4 2] :=
      List.append_cancel_left hafter
    exact List.not_mem_nil (h [.ipv4 1] [] [] houtputs)

end RpcManager

end Dht
