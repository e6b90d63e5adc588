import DhtCore.Storage.Peers

/-!
# Who says what our address is

An address leads if at least three of the latest votes are for it, and at most half as many for
any other one (`Leads`). Whichever way the tally is gone through, its winner is the address that
leads, if one does (`Tallied`), so that a vote changes the address that is agreed on exactly if
another one leads then, and to that one (`addVote_majority`). The vote that was cast is kept, and
so are the others (`Casts`), but for an oldest one when there are more than `MaxVoters`. As nobody
has more than one vote, two cannot make an address of their own be agreed on.
-/

namespace Dht.ExternalIpVoter

open List Replacing

/-- A call of `addVote`. -/
structure Call where
  voter : HostAddress
  reported : HostAddress
  now : ℤ

/-- Whether a call is a vote of someone. -/
def Call.IsOf (c : Call) (voter : HostAddress) : Prop :=
  normalizeAddress c.voter = voter ∧ voter ≠ .null ∧ normalizeAddress c.reported ≠ .null

instance (c : Call) (voter : HostAddress) : Decidable (c.IsOf voter) :=
  inferInstanceAs (Decidable (_ ∧ _))

/-- The vote of a call. -/
def Call.vote (c : Call) : Vote := ⟨normalizeAddress c.reported, c.now⟩

/-- The latest vote of someone. -/
def latest (calls : List Call) (voter : HostAddress) : Option Vote :=
  (calls.reverse.find? (·.IsOf voter)).map Call.vote

/-- Who reported an address. -/
def votersOf (calls : List Call) (reported : HostAddress) : Finset HostAddress :=
  ((calls.filter fun c => normalizeAddress c.reported = reported).map
    fun c => normalizeAddress c.voter).toFinset

/-- Who cast a vote. -/
def voters (calls : List Call) : Finset HostAddress :=
  ((calls.filter fun c => c.IsOf (normalizeAddress c.voter)).map
    fun c => normalizeAddress c.voter).toFinset

/-- What becomes of the votes in a call: the one that is cast is kept, in place of one that the
    same address cast before, and then an oldest one is dropped if there are too many. -/
inductive Casts (c : Call) (votes votes' : AList fun _ : HostAddress => Vote) : Prop
  | none (hnone : ∀ voter, ¬c.IsOf voter) (heq : votes' = votes)
  | kept (hof : c.IsOf (normalizeAddress c.voter))
    (hle : (votes.insert (normalizeAddress c.voter) c.vote).entries.length ≤ MaxVoters)
    (heq : votes' = votes.insert (normalizeAddress c.voter) c.vote)
  | dropped (oldest : HostAddress) (vote : Vote) (hof : c.IsOf (normalizeAddress c.voter))
    (hlt : MaxVoters < (votes.insert (normalizeAddress c.voter) c.vote).entries.length)
    (hlookup : (votes.insert (normalizeAddress c.voter) c.vote).lookup oldest = some vote)
    (hle : ∀ voter other, (votes.insert (normalizeAddress c.voter) c.vote).lookup voter =
      some other → vote.at_ ≤ other.at_)
    (heq : votes' = (votes.insert (normalizeAddress c.voter) c.vote).erase oldest)

/-- How many votes there are for an address. -/
def votesFor (votes : AList fun _ : HostAddress => Vote) (reported : HostAddress) : ℕ :=
  (votes.entries.map (·.2.reported)).count reported

/-- At least three votes are for an address, and at most half as many for any other one. -/
structure Leads (votes : AList fun _ : HostAddress => Vote) (reported : HostAddress) : Prop where
  minVotes_le : MinVotes ≤ votesFor votes reported
  le : ∀ other ≠ reported, 2 * votesFor votes other ≤ votesFor votes reported

/-- What may come of calls, with the hashes gone through in any order each time. -/
inductive Reachable : List Call → ExternalIpVoter → Prop
  | empty : Reachable [] {}
  | addVote {calls : List Call} {v : ExternalIpVoter} (h : Reachable calls v) (order : HashOrder)
      (c : Call) : Reachable (calls ++ [c]) (v.addVoteIn order c.voter c.reported c.now).1

variable {calls : List Call} {v : ExternalIpVoter} {order : HashOrder} {c : Call}
  {a b voter : HostAddress} {votes : AList fun _ : HostAddress => Vote}

/-! ## The tally -/

/-- What is found out about the votes for different addresses. -/
structure Tallied (f : HostAddress → ℕ) (l : List HostAddress) (t : Tally) : Prop where
  winner : 0 < t.top → t.winner ∈ l ∧ f t.winner = t.top
  le_top : ∀ a ∈ l, f a ≤ t.top
  le_second : ∀ a ∈ l, a ≠ t.winner → f a ≤ t.second
  second : t.second = 0 ∨ ∃ a ∈ l, a ≠ t.winner ∧ f a = t.second
  second_le_top : t.second ≤ t.top

theorem Tallied.count {f : HostAddress → ℕ} {l : List HostAddress} {t : Tally}
    (h : Tallied f l t) (hnew : a ∉ l) : Tallied f (l ++ [a]) (t.count a (f a)) := by
  rw [Tally.count]
  split_ifs with htop hsecond
  · refine ⟨fun _ => ⟨by simp, rfl⟩, fun b hb => ?_, fun b hb hne => ?_, ?_, htop.le⟩
    · rcases mem_append.1 hb with hb | hb
      · exact (h.le_top b hb).trans htop.le
      · rw [mem_singleton.1 hb]
    · rcases mem_append.1 hb with hb | hb
      · exact h.le_top b hb
      · exact absurd (mem_singleton.1 hb) hne
    · obtain hzero | hpos := Nat.eq_zero_or_pos t.top
      · exact .inl hzero
      · obtain ⟨hmem, heq⟩ := h.winner hpos
        exact .inr ⟨t.winner, mem_append_left _ hmem, fun hsame : t.winner = a =>
          hnew (hsame ▸ hmem), heq⟩
  · have hpos : 0 < t.top := by omega
    have hne : a ≠ t.winner := fun heq => hnew (heq ▸ (h.winner hpos).1)
    refine ⟨fun hpos => ⟨mem_append_left _ (h.winner hpos).1, (h.winner hpos).2⟩,
      fun b hb => ?_, fun b hb hother => ?_, .inr ⟨a, by simp, hne, rfl⟩, not_lt.1 htop⟩
    · rcases mem_append.1 hb with hb | hb
      · exact h.le_top b hb
      · rw [mem_singleton.1 hb]
        exact not_lt.1 htop
    · rcases mem_append.1 hb with hb | hb
      · exact (h.le_second b hb hother).trans hsecond.le
      · rw [mem_singleton.1 hb]
  · refine ⟨fun hpos => ⟨mem_append_left _ (h.winner hpos).1, (h.winner hpos).2⟩,
      fun b hb => ?_, fun b hb hother => ?_, ?_, h.second_le_top⟩
    · rcases mem_append.1 hb with hb | hb
      · exact h.le_top b hb
      · rw [mem_singleton.1 hb]
        exact not_lt.1 htop
    · rcases mem_append.1 hb with hb | hb
      · exact h.le_second b hb hother
      · rw [mem_singleton.1 hb]
        exact not_lt.1 hsecond
    · exact h.second.imp_right fun ⟨b, hb, hother⟩ => ⟨b, mem_append_left _ hb, hother⟩

theorem tallied_foldl (f : HostAddress → ℕ) {l : List HostAddress} (hnodup : l.Nodup) :
    Tallied f l (l.foldl (fun t a => t.count a (f a)) {}) := by
  induction l using reverseRecOn with
  | nil => exact ⟨by simp, by simp, by simp, .inl rfl, le_rfl⟩
  | append_singleton l a ih =>
    rw [nodup_append] at hnodup
    rw [foldl_append]
    exact (ih hnodup.1).count fun hmem => hnodup.2.2 a hmem a (by simp) rfl

/-- The winner leads if it has enough votes, and nobody else leads. -/
theorem Tallied.leads_iff {l : List HostAddress} {t : Tally} (h : Tallied (votesFor votes) l t)
    (hmem : ∀ a, a ∈ l ↔ a ∈ votes.entries.map (·.2.reported)) :
    Leads votes a ↔ MinVotes ≤ t.top ∧ 2 * t.second ≤ t.top ∧ t.winner = a := by
  have hzero : ∀ a ∉ l, votesFor votes a = 0 := fun a ha => count_eq_zero.2 ((hmem a).not.1 ha)
  have hmin : 0 < MinVotes := by decide
  constructor
  · intro hleads
    have hin : a ∈ l := by
      by_contra hnot
      have := hleads.minVotes_le
      rw [hzero a hnot] at this
      omega
    have htop := hleads.minVotes_le.trans (h.le_top a hin)
    have hpos : 0 < t.top := hmin.trans_le htop
    have hwinner : t.winner = a := by
      by_contra hne
      have hle := hleads.le _ hne
      rw [(h.winner hpos).2] at hle
      have hle' := h.le_top a hin
      omega
    refine ⟨htop, ?_, hwinner⟩
    have hvotes : votesFor votes a = t.top := by rw [← hwinner, (h.winner hpos).2]
    obtain hsecond | ⟨b, -, hne, hb⟩ := h.second
    · rw [hsecond]
      exact Nat.zero_le _
    · rw [← hb, ← hvotes]
      exact hleads.le b (hwinner ▸ hne)
  · rintro ⟨htop, hsecond, rfl⟩
    have hvotes := (h.winner (hmin.trans_le htop)).2
    refine ⟨by rw [hvotes]; exact htop, fun b hne => ?_⟩
    rw [hvotes]
    by_cases hin : b ∈ l
    · have hle := h.le_second b hin hne
      omega
    · rw [hzero b hin]
      exact Nat.zero_le _

/-! ## Votes -/

/-- What holds of the votes that are kept. -/
structure Kept (calls : List Call) (v : ExternalIpVoter) : Prop where
  length_le : v.votes.entries.length ≤ MaxVoters
  latest_eq : ∀ voter vote, v.votes.lookup voter = some vote → latest calls voter = some vote
  complete : (voters calls).card ≤ MaxVoters → ∀ voter, v.votes.lookup voter = latest calls voter
  consensus_of_leads : ∀ a, Leads v.votes a → v.consensus = a
  consensus : v.consensus = .null ∨ 3 ≤ (votersOf calls v.consensus).card

theorem latest_append (c : Call) (voter : HostAddress) :
    latest (calls ++ [c]) voter = if c.IsOf voter then some c.vote else latest calls voter := by
  rw [latest, reverse_append, reverse_singleton, singleton_append, find?_cons, latest]
  split_ifs with h
  · rw [decide_eq_true h]
    rfl
  · rw [decide_eq_false h]

/-- The latest vote of someone was cast in some call. -/
theorem exists_call (h : latest calls voter = some vote) :
    ∃ c ∈ calls, c.IsOf voter ∧ c.vote = vote := by
  obtain ⟨c, hfind, hvote⟩ := Option.map_eq_some_iff.1 h
  exact ⟨c, mem_reverse.1 (mem_of_find?_eq_some hfind), by simpa using find?_some hfind, hvote⟩

theorem voters_subset (calls : List Call) (c : Call) : voters calls ⊆ voters (calls ++ [c]) :=
  fun voter hvoter => by
    rw [voters, mem_toFinset] at hvoter ⊢
    rw [filter_append, map_append]
    exact mem_append_left _ hvoter

/-- The votes are of different voters. -/
theorem length_le_voters (h : ∀ voter vote, votes.lookup voter = some vote →
    latest calls voter = some vote) : votes.entries.length ≤ (voters calls).card := by
  have hnodup : (votes.entries.map (·.1)).Nodup := votes.nodupKeys
  rw [← length_map (·.1), ← toFinset_card_of_nodup hnodup]
  refine Finset.card_le_card fun voter hvoter => ?_
  rw [mem_toFinset, mem_map] at hvoter
  obtain ⟨e, he, rfl⟩ := hvoter
  obtain ⟨c, hc, hof, -⟩ := exists_call (h e.1 e.2 (Replacing.lookup_eq_some_iff.2 he))
  rw [voters, mem_toFinset, mem_map]
  exact ⟨c, mem_filter.2 ⟨hc, decide_eq_true (hof.1.symm ▸ hof)⟩, hof.1⟩

theorem votersOf_subset (calls : List Call) (c : Call) (a : HostAddress) :
    votersOf calls a ⊆ votersOf (calls ++ [c]) a := fun voter hvoter => by
  rw [votersOf, mem_toFinset] at hvoter ⊢
  rw [filter_append, map_append]
  exact mem_append_left _ hvoter

/-- The votes for an address are of different voters. -/
theorem votesFor_le (h : ∀ voter vote, votes.lookup voter = some vote →
    latest calls voter = some vote) : votesFor votes a ≤ (votersOf calls a).card := by
  have hcount : votesFor votes a =
      ((votes.entries.filter fun e => e.2.reported = a).map (·.1)).length := by
    rw [votesFor, count_eq_countP, countP_map, length_map, countP_eq_length_filter]
    rfl
  have hnodup : ((votes.entries.filter fun e => e.2.reported = a).map (·.1)).Nodup :=
    Nodup.sublist (filter_sublist.map _) votes.nodupKeys
  rw [hcount, ← toFinset_card_of_nodup hnodup]
  refine Finset.card_le_card fun voter hvoter => ?_
  rw [mem_toFinset, mem_map] at hvoter
  obtain ⟨e, he, rfl⟩ := hvoter
  rw [mem_filter, decide_eq_true_eq] at he
  obtain ⟨c, hc, hof, hvote⟩ := exists_call (h e.1 e.2 (Replacing.lookup_eq_some_iff.2 he.1))
  rw [votersOf, mem_toFinset, mem_map]
  refine ⟨c, mem_filter.2 ⟨hc, decide_eq_true ?_⟩, hof.1⟩
  rw [← he.2, ← hvote, Call.vote]

/-- Room is made by the vote of someone. -/
def evict (order : HashOrder) (votes : AList fun _ : HostAddress => Vote) :
    AList fun _ : HostAddress => Vote :=
  if votes.entries.length > MaxVoters then
    let l := order.votes votes.entries
    match (RoutingTable.firstBest (fun a b => a.2.at_ < b.2.at_) l).bind (l[·]?) with
    | some ⟨oldest, _⟩ => votes.erase oldest
    | none => votes
  else votes

theorem casts_evict (order : HashOrder) (hof : c.IsOf (normalizeAddress c.voter))
    (votes : AList fun _ : HostAddress => Vote) :
    Casts c votes (evict order (votes.insert (normalizeAddress c.voter) c.vote)) := by
  generalize hall : votes.insert (normalizeAddress c.voter) c.vote = all
  rw [evict]
  split_ifs with hfull
  · have hne : order.votes all.entries ≠ [] := fun hnil => by
      have hperm := order.votes_perm all.entries
      rw [hnil, nil_perm] at hperm
      rw [hperm] at hfull
      exact absurd hfull (by decide)
    obtain ⟨⟨oldest, vote⟩, hmem, hfirst, hle⟩ := PeerStorage.exists_firstBest
      (fun e : (Σ _ : HostAddress, Vote) => e.2.at_) hne
    have hin : ∀ e, e ∈ order.votes all.entries ↔ all.lookup e.1 = some e.2 := fun e =>
      (order.votes_perm _).mem_iff.trans Replacing.lookup_eq_some_iff.symm
    dsimp only
    rw [hfirst]
    exact .dropped oldest vote hof (hall ▸ hfull) (hall ▸ (hin _).1 hmem)
      (fun voter other hother => hle ⟨voter, other⟩ ((hin ⟨voter, other⟩).2 (hall ▸ hother)))
      (by rw [hall])
  · exact .kept hof (hall ▸ not_lt.1 hfull) hall.symm

/-- What a call does: nothing if it is no vote, and else the address that leads among the votes
    that are then kept becomes the one that is agreed on. -/
theorem addVoteIn_cases (v : ExternalIpVoter) (order : HashOrder) (c : Call) :
    (∀ voter, ¬c.IsOf voter) ∧ v.addVoteIn order c.voter c.reported c.now = (v, false) ∨
      ∃ votes : AList fun _ : HostAddress => Vote, c.IsOf (normalizeAddress c.voter) ∧
        Casts c v.votes votes ∧
        ((∃ a ≠ v.consensus, Leads votes a ∧
            v.addVoteIn order c.voter c.reported c.now = ({ votes, consensus := a }, true)) ∨
          (∀ a, Leads votes a → v.consensus = a) ∧
            v.addVoteIn order c.voter c.reported c.now = ({ v with votes }, false)) := by
  rw [addVoteIn]
  by_cases hnull : normalizeAddress c.voter = .null ∨ normalizeAddress c.reported = .null
  · rw [if_pos hnull]
    refine .inl ⟨fun voter hof => ?_, rfl⟩
    obtain hnull | hnull := hnull
    · exact hof.2.1 (hof.1.symm.trans hnull)
    · exact hof.2.2 hnull
  rw [if_neg hnull]
  push Not at hnull
  have hof : c.IsOf (normalizeAddress c.voter) := ⟨rfl, hnull⟩
  refine .inr ⟨_, hof, casts_evict order hof v.votes, ?_⟩
  set votes := evict order (v.votes.insert (normalizeAddress c.voter) c.vote)
  -- The tally runs over what was reported, each once, in the order of the hash table.
  have hperm := order.tally_perm (votes.entries.map (·.2.reported)).dedup
  have htallied := tallied_foldl (votesFor votes) (hperm.nodup_iff.2 (nodup_dedup _))
  set t := (order.tally (votes.entries.map (·.2.reported)).dedup).foldl
    (fun t a => t.count a (votesFor votes a)) ({} : Tally)
  have hleads : ∀ a, Leads votes a ↔ MinVotes ≤ t.top ∧ 2 * t.second ≤ t.top ∧ t.winner = a :=
    fun a => htallied.leads_iff fun a => hperm.mem_iff.trans mem_dedup
  change (∃ a ≠ v.consensus, Leads votes a ∧
      (if t.top < MinVotes ∨ t.top < 2 * t.second ∨ t.winner = v.consensus then
        ({ v with votes }, false) else ({ votes, consensus := t.winner }, true)) =
          ({ votes, consensus := a }, true)) ∨ (∀ a, Leads votes a → v.consensus = a) ∧
      (if t.top < MinVotes ∨ t.top < 2 * t.second ∨ t.winner = v.consensus then
        ({ v with votes }, false) else ({ votes, consensus := t.winner }, true)) =
          ({ v with votes }, false)
  split_ifs with hno
  · refine .inr ⟨fun a ha => ?_, rfl⟩
    obtain ⟨htop, hsecond, hwinner⟩ := (hleads a).1 ha
    obtain hlt | hlt | hsame := hno
    · exact absurd htop (not_le.2 hlt)
    · exact absurd hsecond (not_le.2 hlt)
    · exact hsame.symm.trans hwinner
  · push Not at hno
    exact .inl ⟨t.winner, hno.2.2, (hleads t.winner).2 ⟨hno.1, hno.2.1, rfl⟩, rfl⟩

theorem votersOf_card_le (calls : List Call) (c : Call) (a : HostAddress) :
    (votersOf calls a).card ≤ (votersOf (calls ++ [c]) a).card :=
  Finset.card_le_card (votersOf_subset calls c a)

/-- The votes that are kept are still the latest ones, and all of them if there are not many. -/
theorem Kept.lookup_casts (h : Kept calls v) (hof : c.IsOf (normalizeAddress c.voter))
    (hcasts : Casts c v.votes votes) :
    votes.entries.length ≤ MaxVoters ∧
      (∀ voter vote, votes.lookup voter = some vote → latest (calls ++ [c]) voter = some vote) ∧
      ((voters (calls ++ [c])).card ≤ MaxVoters →
        ∀ voter, votes.lookup voter = latest (calls ++ [c]) voter) := by
  have hinsert : ∀ voter vote, (v.votes.insert (normalizeAddress c.voter) c.vote).lookup voter =
      some vote → latest (calls ++ [c]) voter = some vote := fun voter vote hlookup => by
    rw [latest_append]
    obtain ⟨rfl, rfl⟩ | ⟨hne, hlookup⟩ := lookup_insert_cases hlookup
    · rw [if_pos hof]
    · rw [if_neg fun hof => hne hof.1.symm]
      exact h.latest_eq voter vote hlookup
  cases hcasts with
  | none hnone => exact absurd hof (hnone _)
  | kept _ hle heq =>
    rw [heq]
    refine ⟨hle, hinsert, fun hfew voter => ?_⟩
    rw [latest_append]
    by_cases hvoter : voter = normalizeAddress c.voter
    · rw [hvoter, AList.lookup_insert, if_pos hof]
    · rw [AList.lookup_insert_ne hvoter, if_neg fun hof => hvoter hof.1.symm]
      exact h.complete ((Finset.card_le_card (voters_subset calls c)).trans hfew) voter
  | dropped oldest vote _ hlt hlookup _ heq =>
    rw [heq]
    have hmem : oldest ∈ v.votes.insert (normalizeAddress c.voter) c.vote :=
      AList.lookup_isSome.1 (Option.isSome_of_eq_some hlookup)
    refine ⟨?_, fun voter vote hlookup => hinsert voter vote (lookup_of_lookup_erase hlookup),
      fun hfew => absurd ((length_le_voters hinsert).trans hfew) (not_le.2 hlt)⟩
    have herase := length_erase hmem
    have hlength := Replacing.length_insert (s := v.votes) (a := normalizeAddress c.voter) c.vote
    have hle := h.length_le
    split_ifs at hlength <;> omega

theorem Kept.addVote (h : Kept calls v) (order : HashOrder) (c : Call) :
    Kept (calls ++ [c]) (v.addVoteIn order c.voter c.reported c.now).1 := by
  have hconsensus := h.consensus.imp_right fun hthree =>
    hthree.trans (votersOf_card_le calls c v.consensus)
  obtain ⟨hnone, heq⟩ | ⟨votes, hof, hvotes, hcases⟩ := addVoteIn_cases v order c
  · rw [heq]
    refine ⟨h.length_le, fun voter vote hlookup => ?_, fun hfew voter => ?_, h.consensus_of_leads,
      hconsensus⟩
    · rw [latest_append, if_neg (hnone voter)]
      exact h.latest_eq voter vote hlookup
    · rw [latest_append, if_neg (hnone voter)]
      exact h.complete ((Finset.card_le_card (voters_subset calls c)).trans hfew) voter
  · obtain ⟨hle, hlatest, hcomplete⟩ := h.lookup_casts hof hvotes
    obtain ⟨a, -, hleads, heq⟩ | ⟨hsame, heq⟩ := hcases
    · rw [heq]
      refine ⟨hle, hlatest, hcomplete, fun b hb => ?_,
        .inr (hleads.minVotes_le.trans (votesFor_le hlatest))⟩
      by_contra hne
      have hle : 2 * votesFor votes a ≤ votesFor votes b := hb.le a hne
      have hle' := hleads.le b (Ne.symm hne)
      have hmin := hleads.minVotes_le
      have hthree : MinVotes = 3 := rfl
      omega
    · rw [heq]
      exact ⟨hle, hlatest, hcomplete, hsame, hconsensus⟩

theorem Reachable.kept (h : Reachable calls v) : Kept calls v := by
  induction h with
  | empty =>
    refine ⟨Nat.zero_le _, fun voter vote hlookup => ?_, fun _ voter => rfl, fun a ha => ?_,
      .inl rfl⟩
    · rw [AList.lookup_empty] at hlookup
      cases hlookup
    · exact absurd (show 3 ≤ 0 from ha.minVotes_le) (by decide)
  | addVote _ order c ih => exact ih.addVote order c

/-- What a call does to the address that is agreed on and to the votes. -/
theorem Kept.changes_iff (h : Kept calls v) (order : HashOrder) (c : Call) :
    ((v.addVoteIn order c.voter c.reported c.now).2 = true ↔
        ∃ a ≠ v.consensus, Leads (v.addVoteIn order c.voter c.reported c.now).1.votes a) ∧
      ((v.addVoteIn order c.voter c.reported c.now).2 = false →
        (v.addVoteIn order c.voter c.reported c.now).1.consensus = v.consensus) ∧
      Casts c v.votes (v.addVoteIn order c.voter c.reported c.now).1.votes := by
  obtain ⟨hnone, heq⟩ | ⟨votes, hof, hvotes, ⟨a, hne, hleads, heq⟩ | ⟨hsame, heq⟩⟩ :=
    addVoteIn_cases v order c
  · -- No vote: the address that leads was agreed on before.
    rw [heq]
    refine ⟨iff_of_false Bool.false_ne_true ?_, fun _ => rfl, .none hnone rfl⟩
    rintro ⟨a, hne, ha⟩
    exact hne (h.consensus_of_leads a ha).symm
  · rw [heq]
    exact ⟨iff_of_true rfl ⟨a, hne, hleads⟩, fun h => absurd h Bool.noConfusion, hvotes⟩
  · rw [heq]
    refine ⟨iff_of_false Bool.false_ne_true ?_, fun _ => rfl, hvotes⟩
    rintro ⟨a, hne, ha⟩
    exact hne (hsame a ha).symm

/-- The address that is agreed on changes exactly if another one leads among the latest votes, and
    to that one, and it never is one that only two have reported. The votes are those that were
    kept before, with the one that is cast, but for an oldest one if they are too many; so they are
    the latest ones, of all who voted unless those are more than `MaxVoters`. -/
theorem addVote_majority (h : Reachable calls v) (order : HashOrder) (c : Call) :
    ((v.addVoteIn order c.voter c.reported c.now).2 = true ↔
        ∃ a ≠ v.consensus, Leads (v.addVoteIn order c.voter c.reported c.now).1.votes a) ∧
      (∀ a ≠ v.consensus, Leads (v.addVoteIn order c.voter c.reported c.now).1.votes a →
        (v.addVoteIn order c.voter c.reported c.now).1.consensus = a) ∧
      ((v.addVoteIn order c.voter c.reported c.now).2 = false →
        (v.addVoteIn order c.voter c.reported c.now).1.consensus = v.consensus) ∧
      Casts c v.votes (v.addVoteIn order c.voter c.reported c.now).1.votes ∧
      (v.addVoteIn order c.voter c.reported c.now).1.votes.entries.length ≤ MaxVoters ∧
      (∀ voter vote, (v.addVoteIn order c.voter c.reported c.now).1.votes.lookup voter = some vote →
        latest (calls ++ [c]) voter = some vote) ∧
      ((voters (calls ++ [c])).card ≤ MaxVoters → ∀ voter,
        (v.addVoteIn order c.voter c.reported c.now).1.votes.lookup voter =
          latest (calls ++ [c]) voter) ∧
      ∀ a ≠ .null, (votersOf (calls ++ [c]) a).card ≤ 2 →
        (v.addVoteIn order c.voter c.reported c.now).1.consensus ≠ a := by
  have hkept := h.kept.addVote order c
  obtain ⟨hchanges, hunchanged, hcasts⟩ := h.kept.changes_iff order c
  refine ⟨hchanges, fun a _ ha => hkept.consensus_of_leads a ha, hunchanged, hcasts,
    hkept.length_le, hkept.latest_eq, hkept.complete, fun a hne htwo heq => ?_⟩
  -- What is agreed on has been reported by three, if by anyone.
  obtain hnull | hthree := hkept.consensus
  · exact hne (heq.symm.trans hnull)
  · rw [heq] at hthree
    omega

/-- Two voters agree. -/
def twoAgree : ExternalIpVoter :=
  (({} : ExternalIpVoter).addVoteIn .asIs (.ipv4 1) (.ipv4 9) 0).1.addVoteIn .asIs (.ipv4 2)
    (.ipv4 9) 1 |>.1

theorem reachable_twoAgree :
    Reachable [⟨.ipv4 1, .ipv4 9, 0⟩, ⟨.ipv4 2, .ipv4 9, 1⟩] twoAgree :=
  .addVote (.addVote .empty .asIs ⟨.ipv4 1, .ipv4 9, 0⟩) .asIs ⟨.ipv4 2, .ipv4 9, 1⟩

/-- They are not enough, but with a third one they are. -/
theorem addVote_majority_three :
    twoAgree.consensus = .null ∧
    ∃ v, twoAgree.addVoteIn .asIs (.ipv4 3) (.ipv4 9) 2 = (v, true) ∧ v.consensus = .ipv4 9 ∧
      Leads v.votes (.ipv4 9) ∧ v.votes.lookup (.ipv4 1) = some ⟨.ipv4 9, 0⟩ := by
  obtain ⟨hiff, hset, -, -, -, -, hall, -⟩ :=
    addVote_majority reachable_twoAgree .asIs ⟨.ipv4 3, .ipv4 9, 2⟩
  have hchanged : (twoAgree.addVoteIn .asIs (.ipv4 3) (.ipv4 9) 2).2 = true := by decide
  have hagreed : (twoAgree.addVoteIn .asIs (.ipv4 3) (.ipv4 9) 2).1.consensus = .ipv4 9 := by decide
  obtain ⟨a, hne, hleads⟩ := hiff.1 hchanged
  obtain rfl : a = .ipv4 9 := (hset a hne hleads).symm.trans hagreed
  exact ⟨rfl, _, Prod.ext rfl hchanged, hagreed, hleads, hall (by decide) (.ipv4 1)⟩

end Dht.ExternalIpVoter
