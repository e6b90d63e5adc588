import DhtCore.NodeCatalog.Index

/-!
# The invariant of the catalogue

What holds of the catalogue between calls (`Invariant`): the table indexes the
slots in use and is at most half full, the size and the counts are those of the
entries, the free list lists the other slots, and the history says what is in.

The calls are made of three parts that change what the catalogue holds, each of
which ends and keeps the invariant:

* `release` frees a slot (`Invariant.release`), which `evict` does with the one
  `pickVictim` chooses (`Invariant.pickVictim_inUse`);
* `growTable` makes room in the table (`Invariant.growTable`);
* `place` enters a new key (`Invariant.place`).
-/

namespace Dht.NodeCatalog

open List LinearProbing

variable {hash : CatalogKey → ℕ} {c c' : NodeCatalog} {s : ℕ} {key : CatalogKey}

/-- The slots in use. -/
def slots (c : NodeCatalog) : List ℕ :=
  (List.range c.entries.length).filter fun s => (c.entryAt s).inUse

/-- What was inserted and neither evicted nor cleared since. -/
def Present (history : List CatalogChange) (key : CatalogKey) : Prop :=
  ∃ before since, history = before ++ .inserted key :: since ∧
    ∀ change ∈ since, change ≠ .cleared ∧ change ≠ .evicted key

/-- Whether a change is an insertion. -/
def IsInsertion (change : CatalogChange) : Prop := ∃ key, change = .inserted key

instance : DecidablePred IsInsertion := fun
  | .inserted key => isTrue ⟨key, rfl⟩
  | .evicted _ => isFalse fun ⟨_, h⟩ => by simp at h
  | .cleared => isFalse fun ⟨_, h⟩ => by simp at h

/-- How many entries were ever inserted. -/
def insertions (c : NodeCatalog) : ℕ := c.history.countP (IsInsertion ·)

/-- The invariant of the catalogue. -/
structure Invariant (hash : CatalogKey → ℕ) (c : NodeCatalog) : Prop where
  index : IndexOf hash c {s | c.InUse s}
  load : c.size * 2 ≤ c.table.length
  size : c.size = c.slots.length
  counts : ∀ state, c.counts state = c.slots.countP fun s => (c.entryAt s).state = state
  free_nodup : c.free.Nodup
  free : ∀ s, s ∈ c.free ↔ s < c.entries.length ∧ (c.entryAt s).inUse = false
  cap : 0 ≤ c.cap ∧ c.cap ≤ MaxCap
  length : (c.entries.length : ℤ) ≤ MaxCap
  history : ∀ key, Present c.history key ↔ ∃ s, c.InUse s ∧ c.keyAt s = key

/-! ## Slots -/

/-- A slot beyond the entries reads as one not in use. -/
theorem inUse_iff : c.InUse s ↔ (c.entryAt s).inUse := by
  refine ⟨And.right, fun hu => ⟨?_, hu⟩⟩
  by_contra hge
  rw [entryAt, List.getD_eq_getElem?_getD, List.getElem?_eq_none (Nat.not_lt.1 hge)] at hu
  exact absurd hu (by decide)

@[simp]
theorem mem_slots : s ∈ c.slots ↔ c.InUse s := by
  simp [slots, InUse]

theorem nodup_slots (c : NodeCatalog) : c.slots.Nodup := List.nodup_range.filter _

theorem slots_perm (h : ∀ s, c'.InUse s ↔ c.InUse s) : c'.slots ~ c.slots := by
  rw [perm_ext_iff_of_nodup (nodup_slots _) (nodup_slots _)]
  simpa using h

theorem slots_perm_cons (hs : ¬c.InUse s) (h : ∀ s', c'.InUse s' ↔ s' = s ∨ c.InUse s') :
    c'.slots ~ s :: c.slots := by
  rw [perm_ext_iff_of_nodup (nodup_slots _) (nodup_cons.2 ⟨by simpa using hs, nodup_slots _⟩)]
  simpa using h

theorem entryAt_setEntry (c : NodeCatalog) (s : ℕ) (e : CatalogEntry) (s' : ℕ) :
    (c.setEntry s e).entryAt s' = if s' = s ∧ s < c.entries.length then e else c.entryAt s' := by
  by_cases hs' : s' = s
  · subst hs'
    by_cases hlt : s' < c.entries.length
    · simp [entryAt, setEntry, hlt]
    · simp [entryAt, setEntry, hlt]
  · simp [entryAt, setEntry, hs', List.getElem?_set_ne (Ne.symm hs')]

/-- How the entries in a state are counted when a slot comes into use. -/
theorem countP_slots_cons (hperm : c'.slots ~ s :: c.slots)
    (hold : ∀ s' ∈ c.slots, c'.entryAt s' = c.entryAt s') (state : CatalogState) :
    (c'.slots.countP fun s => (c'.entryAt s).state = state) =
      (c.slots.countP fun s => (c.entryAt s).state = state) +
        if (c'.entryAt s).state = state then 1 else 0 := by
  rw [hperm.countP_eq, countP_cons, countP_congr fun s' hs' => by rw [hold s' hs']]
  simp only [decide_eq_true_eq]

/-! ## The table -/

/-- The table has room for what is looked for. -/
theorem Invariant.room (h : Invariant hash c) : c.Room := by
  rcases eq_or_ne c.table [] with hnil | hne
  · exact .inl hnil
  · have hpos := List.length_pos_iff.2 hne
    refine .inr (exists_empty (l := c.slots) h.index.probing.inj
      (fun s hs => mem_slots.2 ((h.index.holds s).1 hs)) ?_)
    have := h.load
    rw [h.size] at this
    omega

theorem Invariant.exists_empty_of_inUse (h : Invariant hash c) (hs : c.InUse s) :
    ∃ e < c.table.length, c.tab e = none := by
  rcases h.room with hnil | hroom
  · obtain ⟨i, hi, -⟩ := (h.index.holds s).2 hs
    simp [hnil] at hi
  · exact hroom

theorem Invariant.eq_of_keyAt (h : Invariant hash c) {s s' : ℕ} (hs : c.InUse s) (hs' : c.InUse s')
    (hkey : c.keyAt s = c.keyAt s') : s = s' :=
  h.index.keys hs hs' hkey

/-- A key is found if an entry has it, and only then. -/
theorem Invariant.findIndex_eq (h : Invariant hash c) (key : CatalogKey) :
    (∃ i s, c.findIndex hash key = some (some i) ∧ c.slotAt i = s ∧ s ≠ NoSlot ∧ c.InUse s ∧
      c.keyAt s = key) ∨
    (c.findIndex hash key = some none ∧ ∀ s, c.InUse s → c.keyAt s ≠ key) := by
  by_cases hex : ∃ s, c.InUse s ∧ c.keyAt s = key
  · obtain ⟨s, hs, rfl⟩ := hex
    obtain ⟨i, -, hfind, his⟩ := h.index.findIndex_mem hs
    exact .inl ⟨i, s, hfind, (tab_eq_some.1 his).1, (tab_eq_some.1 his).2, hs, rfl⟩
  · push Not at hex
    exact .inr ⟨h.index.findIndex_not_mem h.room hex, hex⟩

/-! ## The history -/

theorem present_append {history : List CatalogChange} {change : CatalogChange} :
    Present (history ++ [change]) key ↔
      change = .inserted key ∨ (Present history key ∧ change ≠ .cleared ∧
      change ≠ .evicted key) := by
  constructor
  · rintro ⟨before, since, heq, hsince⟩
    -- Either the change is the insertion, or one after which the key stays.
    rcases List.eq_nil_or_concat since with rfl | ⟨since, last, rfl⟩
    · obtain ⟨-, hlast⟩ := List.append_inj' heq rfl
      simp only [List.cons.injEq, and_true] at hlast
      exact .inl hlast
    · rw [List.concat_eq_append, ← List.cons_append, ← List.append_assoc] at heq
      obtain ⟨hinit, hlast⟩ := List.append_inj' heq rfl
      simp only [List.cons.injEq, and_true] at hlast
      subst hlast
      simp only [List.concat_eq_append, List.mem_append, List.mem_singleton] at hsince
      exact .inr ⟨⟨before, since, hinit, fun ch hch => hsince ch (.inl hch)⟩, hsince _ (.inr rfl)⟩
  · rintro (rfl | ⟨⟨before, since, rfl, hsince⟩, hchange⟩)
    · exact ⟨history, [], rfl, by simp⟩
    · refine ⟨before, since ++ [change], by simp, fun ch hch => ?_⟩
      rcases List.mem_append.1 hch with hch | hch
      · exact hsince ch hch
      · rw [List.mem_singleton.1 hch]
        exact hchange

theorem not_present_nil : ¬Present [] key := by
  rintro ⟨before, since, heq, -⟩
  simp at heq

/-! ## Empty catalogues -/

theorem invariant_empty {c : NodeCatalog} (he : c.entries = []) (hf : c.free = [])
    (ht : c.table = []) (hs : c.size = 0) (hc : c.counts = fun _ => 0)
    (hcap : 0 ≤ c.cap ∧ c.cap ≤ MaxCap)
    (hh : ∀ key, ¬Present c.history key) : Invariant hash c := by
  have huse : ∀ s, ¬c.InUse s := fun s hs => by simp [InUse, he] at hs
  have hslots : c.slots = [] := by simp [slots, he]
  refine ⟨⟨.inl ht, ?_, fun s => ?_, fun s hs => absurd hs (huse s)⟩, by simp [hs],
    by simp [hs, hslots], by simp [hc, hslots], by simp [hf], by simp [hf, he], hcap,
    by simp [he, MaxCap], fun key => ?_⟩
  · rw [ht]
    exact ⟨fun i hi => absurd hi (Nat.not_lt_zero i), fun i hi => absurd hi (Nat.not_lt_zero i)⟩
  · rw [ht]
    simp [Holds, huse]
  · simp [hh, huse]

theorem clampCap_bounds (cap : ℤ) : 0 ≤ clampCap cap ∧ clampCap cap ≤ MaxCap := by
  rw [clampCap, MaxCap]
  omega

theorem invariant_new (cap epochMs : ℤ) : Invariant hash (new cap epochMs) :=
  invariant_empty rfl rfl rfl rfl rfl (clampCap_bounds cap) fun _ => not_present_nil

theorem Invariant.clear (h : Invariant hash c) (nowMs : ℤ) : Invariant hash (c.clear nowMs) :=
  invariant_empty rfl rfl rfl rfl rfl h.cap fun key hp => by
    rcases present_append.1 hp with heq | ⟨-, hne, -⟩
    · exact absurd heq (by simp)
    · exact hne rfl

/-! ## Releasing -/

/-- What freeing a slot does. -/
structure Released (c : NodeCatalog) (s : ℕ) (c' : NodeCatalog) : Prop where
  inUse : ∀ s', c'.InUse s' ↔ c.InUse s' ∧ s' ≠ s
  entryAt : ∀ s', s' ≠ s → c'.entryAt s' = c.entryAt s'
  size : c'.size = c.size - 1
  cap : c'.cap = c.cap
  epochMs : c'.epochMs = c.epochMs
  nextGeneration : c'.nextGeneration = c.nextGeneration
  free : c'.free ≠ []
  history : c'.history = c.history ++ [.evicted (c.keyAt s)]

/-- Freeing a slot in use keeps the invariant. -/
theorem Invariant.release (h : Invariant hash c) (hs : c.InUse s) :
    ∃ c', c.release hash s = some c' ∧ Invariant hash c' ∧ Released c s c' := by
  obtain ⟨t, ht, hlen, hindex⟩ := h.index.eraseIndex (h.exists_empty_of_inUse hs) hs
  obtain ⟨hlt, huse⟩ := hs
  let c' : NodeCatalog :=
    { ({ c with table := t } : NodeCatalog).setEntry s { c.entryAt s with inUse := false } with
      counts := Function.update c.counts (c.entryAt s).state (c.counts (c.entryAt s).state - 1)
      size := c.size - 1
      free := s :: c.free
      history := c.history ++ [CatalogChange.evicted (c.entryAt s).key] }
  have hrel : c.release hash s = some c' := by rw [NodeCatalog.release, ht, Option.map_some]
  have hentry : ∀ s', c'.entryAt s' = if s' = s then { c.entryAt s with inUse := false }
      else c.entryAt s' := fun s' => by
    have := entryAt_setEntry { c with table := t } s { c.entryAt s with inUse := false } s'
    rw [show c'.entryAt s' = _ from this]
    simp only [hlt, and_true]
    rfl
  have hlength : c'.entries.length = c.entries.length := List.length_set
  have hinUse : ∀ s', c'.InUse s' ↔ c.InUse s' ∧ s' ≠ s := fun s' => by
    rw [inUse_iff, inUse_iff, hentry]
    split_ifs with heq <;> simp [heq]
  have hold : ∀ s', s' ≠ s → c'.entryAt s' = c.entryAt s' := fun s' hne => by
      rw [hentry, if_neg hne]
  have hperm : c.slots ~ s :: c'.slots := by
    refine slots_perm_cons (fun hs' => ((hinUse s).1 hs').2 rfl) fun s' => ?_
    rw [hinUse]
    by_cases heq : s' = s
    · simp [heq, InUse, hlt, huse]
    · simp [heq]
  have hsize : c'.size = c.size - 1 := rfl
  refine ⟨c', hrel, ⟨?_, ?_, ?_, fun state => ?_, ?_, fun s' => ?_, h.cap, ?_, fun key => ?_⟩,
    ⟨hinUse, hold, rfl, rfl, rfl, rfl, by simp [c'], rfl⟩⟩
  · -- The index holds the slots in use but for the one that is freed.
    have hset : {s | c'.InUse s} = {s | c.InUse s} \ {s} := by
      ext s'
      exact hinUse s'
    rw [hset]
    refine hindex.congr rfl fun s' hs' => ?_
    rw [keyAt, keyAt, hold s' fun heq => hs'.2 heq]
    rfl
  · have := h.load
    rw [hsize, show c'.table.length = c.table.length from hlen]
    omega
  · have := h.size
    rw [hsize, this, hperm.length_eq, length_cons]
    omega
  · -- Only the count of the state that the entry had falls.
    have hcount := countP_slots_cons hperm
      (fun s' hs' => (hold s' ((hinUse s').1 (mem_slots.1 hs')).2).symm)
      state
    have := h.counts state
    by_cases hst : (c.entryAt s).state = state
    · subst hst
      rw [show c'.counts (c.entryAt s).state = c.counts (c.entryAt s).state - 1 from
        Function.update_self .., this, hcount, if_pos rfl]
      omega
    · rw [show c'.counts state = c.counts state from Function.update_of_ne (Ne.symm hst) ..,
        this, hcount, if_neg hst]
      omega
  · refine nodup_cons.2 ⟨fun hin => ?_, h.free_nodup⟩
    simp [((h.free s).1 hin).2] at huse
  · rw [show c'.free = s :: c.free from rfl, mem_cons, h.free, hlength, hentry]
    split_ifs with heq <;> simp [heq, hlt]
  · rw [hlength]
    exact h.length
  · rw [show c'.history = c.history ++ [.evicted (c.keyAt s)] from rfl, present_append, h.history]
    -- What is present is what was, but for the key that was evicted.
    constructor
    · rintro (heq | ⟨⟨s', hs', rfl⟩, -, hne⟩)
      · exact absurd heq (by simp)
      · have hss : s' ≠ s := fun heq => hne (by rw [heq])
        exact ⟨s', (hinUse s').2 ⟨hs', hss⟩, by rw [keyAt, hold s' hss]; rfl⟩
    · rintro ⟨s', hs', rfl⟩
      obtain ⟨hs', hss⟩ := (hinUse s').1 hs'
      have hkey : c'.keyAt s' = c.keyAt s' := by rw [keyAt, hold s' hss]; rfl
      refine .inr ⟨⟨s', hs', hkey.symm⟩, by simp, fun heq => hss ?_⟩
      rw [CatalogChange.evicted.injEq, hkey] at heq
      exact (h.eq_of_keyAt ⟨hlt, huse⟩ hs' heq).symm

/-! ## Choosing a victim -/

/-- A victim found so far is a slot in use, of some rank. -/
def Victim.Found (c : NodeCatalog) (v : Victim) : Prop := c.InUse v.slot ∧ 1 ≤ v.rank

/-- The best victim so far is none at all, or has been found. -/
def Victim.Ok (c : NodeCatalog) (v : Victim) : Prop := v = {} ∨ v.Found c

theorem one_le_evictionRank (state : CatalogState) : 1 ≤ CatalogEntry.evictionRank state := by
  cases state <;> simp [CatalogEntry.evictionRank]

theorem Victim.Ok.consider {v : Victim} (h : v.Ok c) (hlt : s < c.entries.length) :
    (c.consider v s).Ok c ∧ (v.Found c ∨ c.InUse s → (c.consider v s).Found c) := by
  have hrank := one_le_evictionRank (c.entryAt s).state
  rw [NodeCatalog.consider]
  by_cases huse : (c.entryAt s).inUse
  · simp only [huse, Bool.not_true, Bool.false_eq_true, ↓reduceIte]
    split_ifs with hbetter
    · have hfound : Victim.Found c ⟨s, CatalogEntry.evictionRank (c.entryAt s).state,
        (c.entryAt s).lastSign⟩ :=
        ⟨⟨hlt, huse⟩, hrank⟩
      exact ⟨.inr hfound, fun _ => hfound⟩
    · refine ⟨h, fun _ => h.resolve_left ?_⟩
      rintro rfl
      exact hbetter (.inl (lt_of_lt_of_le (by decide) hrank))
  · simp only [huse, Bool.not_false, ↓reduceIte]
    exact ⟨h, fun hor => hor.resolve_right fun hs => huse hs.2⟩

theorem Victim.Ok.foldl : ∀ {l : List ℕ} {v : Victim}, v.Ok c → (∀ s ∈ l, s < c.entries.length) →
    (v.Found c ∨ ∃ s ∈ l, c.InUse s) → (l.foldl c.consider v).Found c
  | [], _, _, _, hor => hor.resolve_right (by simp)
  | s :: l, v, h, hl, hor => by
    obtain ⟨hok, hfound⟩ := h.consider (hl s mem_cons_self)
    rw [List.foldl_cons]
    refine Victim.Ok.foldl hok (fun s' hs' => hl s' (mem_cons_of_mem _ hs')) ?_
    rcases hor with hv | ⟨s', hs', hu⟩
    · exact .inl (hfound (.inl hv))
    · rcases mem_cons.1 hs' with rfl | hs'
      · exact .inl (hfound (.inr hu))
      · exact .inr ⟨s', hs', hu⟩

theorem Victim.Ok.sample (hpos : 0 < c.entries.length) (draw : ℕ → ℕ) :
    ∀ {left found : ℕ} {v : Victim}, v.Ok c → (c.sampleVictims draw left found v).Ok c
  | 0, _, _, h => h
  | left + 1, found, v, h => by
    rw [sampleVictims]
    have hlt : draw left % c.entries.length < c.entries.length := Nat.mod_lt _ hpos
    dsimp only
    split_ifs
    · exact Victim.Ok.sample hpos draw (h.consider hlt).1
    · exact Victim.Ok.sample hpos draw h
    · exact h

theorem Invariant.inUse_ne_noSlot (h : Invariant hash c) (hs : c.InUse s) : s ≠ NoSlot := by
  have h₁ := hs.1
  have h₂ := h.length
  rw [MaxCap] at h₂
  rw [NoSlot]
  omega

/-- As long as there is an entry, `pickVictim` chooses one. -/
theorem Invariant.pickVictim_inUse (h : Invariant hash c) (hsize : 0 < c.size) (draw : ℕ → ℕ) :
    c.InUse (c.pickVictim draw) := by
  obtain ⟨s, hs⟩ : ∃ s, c.InUse s := by
    have := h.size
    obtain ⟨s, hs⟩ := List.exists_mem_of_length_pos (l := c.slots) (by omega)
    exact ⟨s, mem_slots.1 hs⟩
  have hscan : ∀ v : Victim, v.Ok c → c.InUse (c.scanVictims v).slot := fun v hv =>
    (hv.foldl (l := List.range c.entries.length) (by simp)
      (.inr ⟨s, List.mem_range.2 hs.1, hs⟩)).1
  have hpos : 0 < c.entries.length := lt_of_le_of_lt (Nat.zero_le s) hs.1
  rw [pickVictim]
  dsimp only
  split_ifs with hsmall hnone
  · exact hscan {} (.inl rfl)
  · exact hscan _ (Victim.Ok.sample hpos draw (.inl rfl))
  · rcases Victim.Ok.sample hpos draw (.inl rfl : Victim.Ok c {}) with heq | hfound
    · exact absurd (congrArg Victim.slot heq) hnone
    · exact hfound.1

/-- The invariant does not depend on how many entries were evicted. -/
theorem Invariant.withEvicted (h : Invariant hash c) (n : ℤ) :
    Invariant hash { c with evicted := n } :=
  ⟨h.index.congr rfl fun _ _ => rfl, h.load, h.size, h.counts, h.free_nodup, h.free,
    h.cap, h.length, h.history⟩

/-- Evicting an entry keeps the invariant. -/
theorem Invariant.evict (h : Invariant hash c) (hsize : 0 < c.size) (draw : ℕ → ℕ) :
    ∃ c', c.evict hash draw = some c' ∧ Invariant hash c' ∧ Released c (c.pickVictim draw) c' := by
  obtain ⟨c', hrel, h', hspec⟩ := h.release (h.pickVictim_inUse hsize draw)
  refine ⟨{ c' with evicted := c'.evicted + 1 }, ?_, h'.withEvicted _, ?_⟩
  · rw [NodeCatalog.evict, hrel, Option.map_some]
  · exact ⟨hspec.inUse, hspec.entryAt, hspec.size, hspec.cap, hspec.epochMs, hspec.nextGeneration,
      hspec.free, hspec.history⟩

/-! ## Growing -/

/-- Growing the table makes room for one more entry. -/
theorem Invariant.growTable (h : Invariant hash c) :
    ∃ t, c.growTable hash = some { c with table := t } ∧ Invariant hash { c with table := t } ∧
      (c.size + 1) * 2 ≤ t.length := by
  have hload := h.load
  have hsize := h.size
  obtain ⟨m, hm, hgrow⟩ : ∃ m, (if c.table.isEmpty then InitialTableSize else c.table.length * 2) =
      2 ^ m ∧ (c.size + 1) * 2 ≤ (2 ^ m : ℕ) := by
    -- The new length is a power of two again, with room for one more.
    rcases h.index.length with hnil | ⟨m, hm⟩
    · refine ⟨10, by simp [hnil, InitialTableSize], ?_⟩
      simp only [hnil, length_nil] at hload
      omega
    · have hpos : 0 < c.table.length := hm ▸ Nat.two_pow_pos m
      refine ⟨m + 1, ?_, ?_⟩
      · rw [if_neg (by simpa using List.ne_nil_of_length_pos hpos), hm, pow_succ]
      · rw [pow_succ, ← hm]
        omega
  -- All entries in use are inserted anew into an empty table.
  obtain ⟨t, ht, hlen, hindex⟩ := IndexOf.foldlM_insertIndex (c := c) (L := c.slots)
    (l := List.range c.entries.length) (S := ∅) (by simpa using h.index.keys)
    (fun hin => h.inUse_ne_noSlot (mem_slots.1 hin) rfl) (t := List.replicate (2 ^ m) NoSlot)
    (by rw [length_replicate]; omega) (indexOf_empty m) List.nodup_range (by simp) (by simp)
    (fun s hs hu => mem_slots.2 ⟨List.mem_range.1 hs, hu⟩)
  have hset : (∅ ∪ {s | s ∈ List.range c.entries.length ∧ (c.entryAt s).inUse} : Set ℕ) =
      {s | c.InUse s} := by
    ext s
    simp [InUse]
  rw [length_replicate] at hlen
  have hroom : (c.size + 1) * 2 ≤ (t.length : ℤ) := by
    rw [hlen]
    exact hgrow
  refine ⟨t, ?_, ⟨hset ▸ hindex, by dsimp only; omega, h.size, h.counts,
    h.free_nodup, h.free, h.cap, h.length, h.history⟩, hroom⟩
  rw [NodeCatalog.growTable]
  simp only [hm]
  exact ht

/-! ## Entering -/

/-- What `allocate` yields: a slot not in use, among as many slots as before or,
    if none was free, one more. -/
theorem Invariant.allocate (h : Invariant hash c) :
    ∃ entries free s, c.allocate = ({ c with entries, free }, s) ∧ s < entries.length ∧ ¬c.InUse s ∧
      (∀ s', entries.getD s' default = c.entryAt s') ∧ free.Nodup ∧
      (∀ s', s' ∈ free ↔ s' < entries.length ∧ (c.entryAt s').inUse = false ∧ s' ≠ s) ∧
      (entries.length = c.entries.length ∨
        (c.free = [] ∧ entries.length = c.entries.length + 1)) := by
  have hfree := h.free
  have hnodup := h.free_nodup
  rw [NodeCatalog.allocate]
  cases hf : c.free with
  | nil =>
    refine ⟨c.entries ++ [({} : CatalogEntry)], [], c.entries.length, by simp, by simp,
      fun hs => absurd hs.1 (lt_irrefl _), fun s => ?_, nodup_nil, fun s => ?_, .inr ⟨rfl, by simp⟩⟩
    · rw [entryAt, List.getD_eq_getElem?_getD, List.getD_eq_getElem?_getD, List.getElem?_append]
      split_ifs with hlt
      · rfl
      · rw [List.getElem?_eq_none (Nat.le_of_not_lt hlt), List.getElem?_singleton]
        split_ifs <;> rfl
    · rw [hf] at hfree
      rw [List.length_append, List.length_singleton]
      refine ⟨fun hs => absurd hs List.not_mem_nil, fun ⟨hlt, hu, hne⟩ => ?_⟩
      exact (hfree s).2 ⟨by omega, hu⟩
  | cons a l =>
    rw [hf] at hfree hnodup
    have ha := (hfree a).1 mem_cons_self
    rw [nodup_cons] at hnodup
    refine ⟨c.entries, l, a, rfl, ha.1, fun hs => by simp [hs.2] at ha, fun _ => rfl, hnodup.2,
      fun s => ?_, .inl rfl⟩
    rw [← and_assoc, ← hfree s, mem_cons]
    constructor
    · exact fun hs => ⟨.inr hs, fun heq => hnodup.1 (heq ▸ hs)⟩
    · rintro ⟨heq | hs, hne⟩
      · exact absurd heq hne
      · exact hs

/-- What entering a new key does. -/
structure Placed (c : NodeCatalog) (key : CatalogKey) (nowMs : ℤ) (c' : NodeCatalog)
    (s : ℕ) : Prop where
  new : ¬c.InUse s
  inUse : ∀ s', c'.InUse s' ↔ s' = s ∨ c.InUse s'
  entryAt : ∀ s', s' ≠ s → c'.entryAt s' = c.entryAt s'
  entryAt_self : c'.entryAt s =
    { address := key.address, port := key.port, inUse := true, generation := c.nextGeneration,
      firstSeen := c.stamp nowMs }
  size : c'.size = c.size + 1
  cap : c'.cap = c.cap
  epochMs : c'.epochMs = c.epochMs
  nextGeneration : c'.nextGeneration = if c.nextGeneration + 1 = 0 then 1 else c.nextGeneration + 1
  history : c'.history = c.history ++ [.inserted key]

/-- Entering a new key keeps the invariant, given room in the table, and below the cap. -/
theorem Invariant.place (h : Invariant hash c) (hkey : ∀ s, c.InUse s → c.keyAt s ≠ key)
    (hroom : (c.size + 1) * 2 ≤ c.table.length) (hcap : c.free ≠ [] ∨ c.size < c.cap) (nowMs : ℤ) :
    ∃ c' s, c.place hash key nowMs = some (c', s) ∧ Invariant hash c' ∧
    Placed c key nowMs c' s := by
  obtain ⟨entries, free, s, hallocate, hlt, hnew, hentry₀, hnodup, hfree, hlen⟩ := h.allocate
  let e : CatalogEntry :=
    { address := key.address, port := key.port, inUse := true, generation := c.nextGeneration,
      firstSeen := c.stamp nowMs }
  let c₁ : NodeCatalog := { c with
    entries := entries.set s e
    free
    nextGeneration := if c.nextGeneration + 1 = 0 then 1 else c.nextGeneration + 1
    counts := Function.update c.counts .New (c.counts .New + 1)
    size := c.size + 1
    history := c.history ++ [CatalogChange.inserted key] }
  have hentry₁ : ∀ s', c₁.entryAt s' = if s' = s then e else c.entryAt s' := fun s' => by
    have := entryAt_setEntry { c with entries, free } s e s'
    rw [show c₁.entryAt s' = _ from this,
      show entryAt { c with entries, free } s' = _ from hentry₀ s']
    simp only [hlt, and_true]
  have hlength : c₁.entries.length = entries.length := List.length_set
  have hinUse₁ : ∀ s', c₁.InUse s' ↔ s' = s ∨ c.InUse s' := fun s' => by
    rw [inUse_iff, inUse_iff, hentry₁]
    split_ifs with heq <;> simp [heq, e]
  have hkeyAt : ∀ s', c.InUse s' → c₁.keyAt s' = c.keyAt s' := fun s' hs' => by
    rw [keyAt, hentry₁, if_neg (by rintro rfl; exact hnew hs')]
    rfl
  have hkeyAt_self : c₁.keyAt s = key := by rw [keyAt, hentry₁, if_pos rfl]; rfl
  have hindex₁ : IndexOf hash c₁ {s | c.InUse s} := h.index.congr rfl hkeyAt
  -- There are at most `MaxCap` slots, so that the new one is not taken for an empty place.
  have hbound : (entries.length : ℤ) ≤ MaxCap := by
    have hle := h.length
    have hmax := h.cap.2
    rcases hlen with heq | ⟨hnil, heq⟩
    · rw [heq]
      exact hle
    · -- Without a free slot every slot is in use, so that there are fewer than the cap.
      have hall : c.slots = List.range c.entries.length := by
        rw [slots, List.filter_eq_self]
        intro s' hs'
        by_contra hu
        have := (h.free s').2 ⟨List.mem_range.1 hs', by simpa using hu⟩
        rw [hnil] at this
        exact absurd this List.not_mem_nil
      have hlt' := hcap.resolve_left fun hne => hne hnil
      rw [h.size, hall, List.length_range] at hlt'
      omega
  have hslot : s ≠ NoSlot := by
    rw [NoSlot]
    rw [MaxCap] at hbound
    omega
  have hempty : ∃ i < c₁.table.length, c₁.tab i = none := by
    refine exists_empty (l := c.slots) hindex₁.probing.inj
      (fun s' hs' => mem_slots.2 ((hindex₁.holds s').1 hs')) ?_
    have := h.size
    rw [show c₁.table = c.table from rfl]
    omega
  -- The index gets the slot once the entry is written.
  obtain ⟨t, ht, htlen, hindex⟩ := hindex₁.insertIndex hempty hnew hslot
    fun s' hs' => by rw [hkeyAt s' hs', hkeyAt_self]; exact hkey s' hs'
  let c' : NodeCatalog := { c₁ with table := t }
  have hinUse : ∀ s', c'.InUse s' ↔ s' = s ∨ c.InUse s' := hinUse₁
  have hold : ∀ s', s' ≠ s → c'.entryAt s' = c.entryAt s' := fun s' hne => by
    rw [show c'.entryAt s' = _ from hentry₁ s', if_neg hne]
  have hself : c'.entryAt s = e := (hentry₁ s).trans (if_pos rfl)
  have hperm : c'.slots ~ s :: c.slots := slots_perm_cons hnew hinUse
  refine ⟨c', s, ?_, ⟨?_, ?_, ?_, fun state => ?_, hnodup, fun s' => ?_, h.cap, ?_, fun k => ?_⟩,
    ⟨hnew, hinUse, hold, hself, rfl, rfl, rfl, rfl, rfl⟩⟩
  · rw [NodeCatalog.place, hallocate]
    exact congrArg (Option.map _) ht
  · have hset : {s | c'.InUse s} = Set.insert s {s | c.InUse s} := by
      ext s'
      exact hinUse s'
    rw [hset]
    exact hindex
  · rw [show c'.table.length = c.table.length from htlen]
    exact hroom
  · have := h.size
    rw [show c'.size = c.size + 1 from rfl, this, hperm.length_eq, length_cons]
    omega
  · -- Only the count of new entries rises.
    have hcount := countP_slots_cons hperm
      (fun s' hs' => hold s' fun heq => hnew (heq ▸ mem_slots.1 hs')) state
    have := h.counts state
    rw [hcount, hself]
    by_cases hst : CatalogState.New = state
    · subst hst
      have hadd : c'.counts .New = c.counts .New + 1 := by simp [c', c₁]
      rw [hadd, this, if_pos rfl]
      omega
    · rw [show c'.counts state = c.counts state from Function.update_of_ne (Ne.symm hst) .., this,
        if_neg hst]
      omega
  · rw [show c'.free = free from rfl, hfree, show c'.entries.length = entries.length from hlength]
    refine and_congr_right fun _ => ?_
    by_cases heq : s' = s
    · simp [heq, hself, e]
    · simp [heq, hold s' heq]
  · rw [show c'.entries.length = entries.length from hlength]
    exact hbound
  · rw [show c'.history = c.history ++ [.inserted key] from rfl, present_append, h.history]
    -- The history tells of the key last.
    constructor
    · rintro (heq | ⟨⟨s', hs', rfl⟩, -⟩)
      · rw [CatalogChange.inserted.injEq] at heq
        exact ⟨s, (hinUse s).2 (.inl rfl), hkeyAt_self.trans heq⟩
      · exact ⟨s', (hinUse s').2 (.inr hs'), hkeyAt s' hs'⟩
    · rintro ⟨s', hs', rfl⟩
      rcases (hinUse s').1 hs' with rfl | hs'
      · exact .inl (congrArg _ hkeyAt_self.symm)
      · exact .inr ⟨⟨s', hs', (hkeyAt s' hs').symm⟩, by simp, by simp⟩

/-! ## Writing to an entry -/

/-- What writing to an entry does. -/
structure Written (c : NodeCatalog) (s : ℕ) (e : CatalogEntry) (c' : NodeCatalog) : Prop where
  inUse : ∀ s', c'.InUse s' ↔ c.InUse s'
  entryAt : ∀ s', s' ≠ s → c'.entryAt s' = c.entryAt s'
  entryAt_self : c'.entryAt s = e
  key : e.key = c.keyAt s
  nextGeneration : c'.nextGeneration = c.nextGeneration
  history : c'.history = c.history

/-- Writing to an entry in use, of whose fields the key and the use stay, keeps
    the invariant, if the counts follow its state. -/
theorem Invariant.setEntry (h : Invariant hash c) (hs : c.InUse s) {e : CatalogEntry}
    (hkey : e.key = c.keyAt s) (huse : e.inUse) (counts : CatalogState → ℤ)
    (hcounts : ∀ state, counts state = c.counts state +
      ((if e.state = state then 1 else 0) - if (c.entryAt s).state = state then 1 else 0)) :
    Invariant hash { c.setEntry s e with counts } ∧
    Written c s e { c.setEntry s e with counts } := by
  let c' : NodeCatalog := { c.setEntry s e with counts }
  have hentry : ∀ s', c'.entryAt s' = if s' = s then e else c.entryAt s' := fun s' => by
    rw [show c'.entryAt s' = _ from entryAt_setEntry c s e s']
    simp only [hs.1, and_true]
  have hlength : c'.entries.length = c.entries.length := List.length_set
  have hinUse : ∀ s', c'.InUse s' ↔ c.InUse s' := fun s' => by
    rw [inUse_iff, inUse_iff, hentry]
    split_ifs with heq
    · simp [heq, huse, hs.2]
    · rfl
  have hkeyAt : ∀ s', c'.keyAt s' = c.keyAt s' := fun s' => by
    rw [keyAt, hentry]
    split_ifs with heq
    · rw [heq, hkey]
    · rfl
  have hperm : c'.slots ~ c.slots := slots_perm hinUse
  refine ⟨⟨?_, h.load, ?_, fun state => ?_, h.free_nodup, fun s' => ?_, h.cap, ?_, fun k => ?_⟩,
    ⟨hinUse, fun s' hne => (hentry s').trans (if_neg hne), (hentry s).trans (if_pos rfl),
    hkey, rfl, rfl⟩⟩
  · have hset : {s | c'.InUse s} = {s | c.InUse s} := by
      ext s'
      exact hinUse s'
    exact hset ▸ h.index.congr rfl fun s' _ => hkeyAt s'
  · rw [show c'.size = c.size from rfl, h.size, hperm.length_eq]
  · -- Apart from the slot, the entries are counted as before.
    have herase : c.slots ~ s :: c.slots.erase s := perm_cons_erase (mem_slots.2 hs)
    have hne : ∀ s' ∈ c.slots.erase s, s' ≠ s := fun s' hs' =>
      ((nodup_slots c).mem_erase_iff.1 hs').1
    have hrest : ((c.slots.erase s).countP fun s => (c'.entryAt s).state = state) =
        (c.slots.erase s).countP fun s => (c.entryAt s).state = state :=
      countP_congr fun s' hs' => by rw [hentry, if_neg (hne s' hs')]
    have hold := h.counts state
    rw [herase.countP_eq, countP_cons] at hold
    rw [show c'.counts = counts from rfl, hcounts, hold, hperm.countP_eq, herase.countP_eq,
      countP_cons, hrest, hentry, if_pos rfl]
    simp only [decide_eq_true_eq]
    split_ifs <;> omega
  · rw [show c'.free = c.free from rfl, h.free, hlength, hentry]
    split_ifs with heq
    · simp [heq, huse, hs.2]
    · rfl
  · rw [hlength]
    exact h.length
  · rw [show c'.history = c.history from rfl, h.history]
    -- The keys in use are the same, and nothing is told.
    refine exists_congr fun s' => ?_
    rw [← hinUse, ← hkeyAt]

end Dht.NodeCatalog
