import DhtCore.NodeCatalog.Basic

/-!
# The index of the catalogue

The table of the catalogue as a ring of positions that hold slots (`tab`), each
looked for from the home position of its key (`home`). `IndexOf` says that it
indexes a set of slots of distinct keys; it is an instance of linear probing.

* `findIndex` finds a slot of the set by its key (`IndexOf.findIndex_mem`), and
  nothing by any other key (`IndexOf.findIndex_not_mem`);
* `insertIndex` adds a slot to the set and `eraseIndex` takes one out;
* `growTable` indexes the same set by a larger table.

In a table with an empty position every loop ends.
-/

namespace Dht.NodeCatalog

open LinearProbing

variable {hash : CatalogKey → ℕ} {c : NodeCatalog} {S : Set ℕ} {s i : ℕ} {key : CatalogKey}

/-- The key of the entry in a slot. -/
def keyAt (c : NodeCatalog) (s : ℕ) : CatalogKey := (c.entryAt s).key

/-- The slot at a position of the table, if there is one. -/
def tab (c : NodeCatalog) (i : ℕ) : Option ℕ :=
  if c.slotAt i = NoSlot then none else some (c.slotAt i)

/-- The home position of a slot. -/
def home (hash : CatalogKey → ℕ) (c : NodeCatalog) (s : ℕ) : ℕ := c.homeOf hash (c.keyAt s)

/-- The table indexes the slots of a set, which have distinct keys. -/
structure IndexOf (hash : CatalogKey → ℕ) (c : NodeCatalog) (S : Set ℕ) : Prop where
  length : c.table = [] ∨ ∃ m, c.table.length = 2 ^ m
  probing : Probing c.table.length (home hash c) c.tab
  holds : ∀ s, Holds c.table.length c.tab s ↔ s ∈ S
  keys : Set.InjOn c.keyAt S

/-! ## Positions -/

theorem tab_eq_none : c.tab i = none ↔ c.slotAt i = NoSlot := by
  rw [tab]
  split_ifs with h <;> simp [h]

theorem tab_eq_some : c.tab i = some s ↔ c.slotAt i = s ∧ s ≠ NoSlot := by
  rw [tab]
  split_ifs with h
  · simp only [false_iff, not_and, not_not]
    exact fun hs => hs ▸ h
  · rw [Option.some.injEq]
    exact ⟨fun hs => ⟨hs, hs ▸ h⟩, And.left⟩

/-- The catalogue with another table of the same length. -/
theorem home_withTable {t : List ℕ} (ht : t.length = c.table.length) :
    home hash { c with table := t } = home hash c := by
  funext s
  simp only [home, homeOf, mask, ht]
  rfl

theorem tab_set (hi : i < c.table.length) (x : ℕ) :
    tab { c with table := c.table.set i x } =
      Function.update c.tab i (if x = NoSlot then none else some x) := by
  funext k
  by_cases hk : k = i
  · subst hk
    rw [Function.update_self, tab]
    simp [slotAt, hi]
  · rw [Function.update_of_ne hk]
    simp [tab, slotAt, List.getElem?_set_ne (Ne.symm hk)]

theorem and_mask {m : ℕ} (hm : c.table.length = 2 ^ m) (x : ℕ) :
    x &&& c.mask = x % c.table.length := by
  rw [mask, hm, Nat.and_two_pow_sub_one_eq_mod]

theorem IndexOf.nextIndex_eq (h : IndexOf hash c S) : ∀ i < c.table.length,
    c.nextIndex i = next c.table.length i := fun i hi => by
  rcases h.length with he | ⟨m, hm⟩
  · simp [he] at hi
  · exact and_mask hm (i + 1)

theorem IndexOf.homeOf_lt (h : IndexOf hash c S) (hne : 0 < c.table.length) (key : CatalogKey) :
    c.homeOf hash key < c.table.length := by
  rcases h.length with he | ⟨m, hm⟩
  · simp [he] at hne
  · rw [homeOf, and_mask hm]
    exact Nat.mod_lt _ hne

/-- The index is one of the same slots when other things change. -/
theorem IndexOf.congr (h : IndexOf hash c S) {c' : NodeCatalog} (ht : c'.table = c.table)
    (hkey : ∀ s ∈ S, c'.keyAt s = c.keyAt s) : IndexOf hash c' S where
  length := ht ▸ h.length
  probing := by
    have htab : c'.tab = c.tab := by
      funext i
      simp [tab, slotAt, ht]
    rw [htab, ht]
    refine ⟨fun i hi s hs k hk hlt => ?_, h.probing.inj⟩
    have hhome : home hash c' s = home hash c s := by
      simp only [home, homeOf, mask, ht, hkey s ((h.holds s).1 ⟨i, hi, hs⟩)]
    exact h.probing.path i hi s hs k hk (hhome ▸ hlt)
  holds s := by
    have htab : c'.tab = c.tab := by
      funext i
      simp [tab, slotAt, ht]
    rw [htab, ht]
    exact h.holds s
  keys s hs s' hs' he := h.keys hs hs' (by rwa [← hkey s hs, ← hkey s' hs'])

/-! ## Finding -/

/-- The table is empty, or has an empty position. -/
def Room (c : NodeCatalog) : Prop := c.table = [] ∨ ∃ e < c.table.length, c.tab e = none

theorem stop_eq (c : NodeCatalog) (key : CatalogKey) :
    (fun i => decide (c.slotAt i = NoSlot) || decide ((c.entryAt (c.slotAt i)).key = key)) =
      fun i => (c.tab i).all fun s => decide (c.keyAt s = key) := by
  funext i
  by_cases h : c.slotAt i = NoSlot
  · simp [h, tab]
  · simp only [h, tab, decide_false, Bool.false_or, ↓reduceIte, Option.all_some]
    rfl

/-- A slot is found by its key. -/
theorem IndexOf.findIndex_mem (h : IndexOf hash c S) (hs : s ∈ S) :
    ∃ i < c.table.length, c.findIndex hash (c.keyAt s) = some (some i) ∧ c.tab i = some s := by
  obtain ⟨j, hj, hjs⟩ := (h.holds s).2 hs
  have hne : 0 < c.table.length := by omega
  obtain ⟨i, hi, s', hscan, hs', hkey⟩ := h.probing.scan_eq (c.keyAt · = c.keyAt s)
    h.nextIndex_eq hj hjs (h.homeOf_lt hne _) (decide_eq_true rfl)
  have heq : s' = s := h.keys ((h.holds s').1 ⟨i, hi, hs'⟩) hs (of_decide_eq_true hkey)
  subst heq
  refine ⟨i, hi, ?_, hs'⟩
  rw [findIndex, if_neg (by simpa using List.ne_nil_of_length_pos hne)]
  simp only [stop_eq]
  have hslot : c.slotAt i ≠ NoSlot := (tab_eq_some.1 hs').1 ▸ (tab_eq_some.1 hs').2
  rw [home] at hscan
  rw [hscan, Option.map_some, if_neg hslot]

/-- A key of no slot is not found. -/
theorem IndexOf.findIndex_not_mem (h : IndexOf hash c S) (hroom : c.Room)
    (hkey : ∀ s ∈ S, c.keyAt s ≠ key) : c.findIndex hash key = some none := by
  rw [findIndex]
  rcases hroom with hnil | ⟨e, he, hempty⟩
  · simp [hnil]
  · have hne : 0 < c.table.length := by omega
    have hlt := h.homeOf_lt hne key
    obtain ⟨i, hi, hscan, hstop, -⟩ := exists_scan
      (fun i => (c.tab i).all fun s => decide (c.keyAt s = key)) h.nextIndex_eq he
        (by simp [hempty]) hlt (dist_lt hlt he)
    rw [if_neg (by simpa using List.ne_nil_of_length_pos hne)]
    simp only [stop_eq]
    rw [hscan, Option.map_some, if_pos]
    cases htab : c.tab i with
    | none => exact tab_eq_none.1 htab
    | some s =>
      rw [htab, Option.all_some, decide_eq_true_eq] at hstop
      exact absurd hstop (hkey s ((h.holds s).1 ⟨i, hi, htab⟩))

/-! ## Inserting and erasing -/

/-- A slot of a new key can be entered into a table with an empty position. -/
theorem IndexOf.insertIndex (h : IndexOf hash c S) (he : ∃ e < c.table.length, c.tab e = none)
    (hs : s ∉ S) (hslot : s ≠ NoSlot) (hkey : ∀ s' ∈ S, c.keyAt s' ≠ c.keyAt s) :
    ∃ t, c.insertIndex hash s = some { c with table := t } ∧ t.length = c.table.length ∧
      IndexOf hash { c with table := t } (Set.insert s S) := by
  obtain ⟨e, he, hempty⟩ := he
  have hlt := h.homeOf_lt (by omega) (c.keyAt s)
  -- The scan stops at the first position without a slot.
  obtain ⟨i, hi, hscan, hstop, hfirst⟩ := exists_scan (fun i => decide (c.slotAt i = NoSlot))
    h.nextIndex_eq he (decide_eq_true (tab_eq_none.1 hempty)) hlt (dist_lt hlt he)
  have htab : tab { c with table := c.table.set i s } = Function.update c.tab i (some s) := by
    rw [tab_set hi, if_neg hslot]
  have hempty_i : c.tab i = none := tab_eq_none.2 (of_decide_eq_true hstop)
  refine ⟨c.table.set i s, by rw [NodeCatalog.insertIndex]; exact congrArg (Option.map _) hscan,
    List.length_set, ?_, ?_, fun s' => ?_, ?_⟩
  · refine h.length.imp (fun hnil => ?_) fun ⟨m, hm⟩ => ⟨m, by simpa using hm⟩
    simp [hnil]
  · rw [htab, home_withTable (by simp), List.length_set]
    refine h.probing.insert (fun hin => hs ((h.holds s).1 hin)) fun k hk hlt => ?_
    rw [Ne, tab_eq_none]
    exact of_decide_eq_false (hfirst k hk hlt)
  · rw [htab, List.length_set, holds_update hi hempty_i, h.holds]
    rfl
  · rintro a (rfl | ha) b (rfl | hb) hab
    · rfl
    · exact absurd hab.symm (hkey b hb)
    · exact absurd hab (hkey a ha)
    · exact h.keys ha hb hab

theorem staysPut_iff {n i j h : ℕ} (hi : i < n) (hj : j < n) (hh : h < n) :
    (if i ≤ j then i < h ∧ h ≤ j else i < h ∨ h ≤ j) ↔ 0 < dist n i h ∧
    dist n i h ≤ dist n i j := by
  simp only [LinearProbing.dist]
  split_ifs <;> omega

/-- The loop of `eraseIndex` ends before the next empty position, with a table of
    what was elsewhere. -/
theorem shiftLoop_spec {n e : ℕ} {home' : ℕ → ℕ} (he : e < n) :
    ∀ {fuel : ℕ} {c : NodeCatalog} {i j : ℕ}, c.table.length = n → home hash c = home' →
      (∀ i < n, c.nextIndex i = next n i) → (∀ s, home' s < n) → Hole n home' c.tab i j → e ≠ i →
      c.tab e = none → 0 < dist n j e → dist n j e ≤ fuel →
        ∃ t, shiftLoop hash fuel c i j = some { c with table := t } ∧ t.length = n ∧
          Probing n home' (tab { c with table := t }) ∧
          ∀ s, Holds n (tab { c with table := t }) s ↔ HoldsElsewhere n c.tab i s
  | 0, _, _, _, _, _, _, _, _, _, _, hpos, hle => absurd hle (Nat.not_le.2 hpos)
  | fuel + 1, c, i, j, hn, hhome, hstep, hlt, hhole, hei, hempty, hpos, hle => by
    rw [shiftLoop]
    simp only [hstep j hhole.lt']
    by_cases hslot : c.slotAt (next n j) = NoSlot
    · rw [if_pos hslot]
      -- The next position is empty, so the hole stays.
      have htab := tab_set (c := c) (i := i) (by rw [hn]; exact hhole.lt) NoSlot
      rw [if_pos rfl] at htab
      refine ⟨c.table.set i NoSlot, rfl, by simpa using hn, ?_, fun s => ?_⟩
      · rw [htab]
        exact hhole.close hlt (tab_eq_none.2 hslot)
      · rw [htab, holds_close]
    · have hs : c.tab (next n j) = some (c.slotAt (next n j)) := tab_eq_some.2 ⟨rfl, hslot⟩
      have hh : c.homeOf hash (c.entryAt (c.slotAt (next n j))).key =
          home' (c.slotAt (next n j)) := by
        rw [← hhome]
        rfl
      obtain ⟨hni, hd, hnear⟩ := hhole.next_dist he hei hempty (by simp [hs])
      have hne : next n j ≠ e := fun heq => by simp [heq, hempty] at hs
      have hpos' := dist_pos (next_lt hhole.lt') hne
      rw [if_neg hslot, hh]
      simp only [staysPut_iff hhole.lt (next_lt hhole.lt') (hlt _)]
      -- What is at the next position stays, or moves into the hole and leaves one.
      split_ifs with hstay
      · exact shiftLoop_spec he hn hhome hstep hlt (hhole.stay he hei hempty hs (hlt _) hstay) hei
          hempty hpos' (by omega)
      · have htab := tab_set (c := c) (i := i) (by rw [hn]; exact hhole.lt) (c.slotAt (next n j))
        rw [if_neg hslot] at htab
        have hmove := hhole.move he hei hempty hs (hlt _) hstay
        rw [← htab] at hmove
        have hlen : (c.table.set i (c.slotAt (next n j))).length = c.table.length := List.length_set
        obtain ⟨t, ht, hlen', hprob, hholds⟩ := shiftLoop_spec
          (c := { c with table := c.table.set i (c.slotAt (next n j)) }) (i := next n j)
          (j := next n j) he (hlen.trans hn)
          ((home_withTable hlen).trans hhome)
            (fun k hk => by rw [← hstep k hk]; simp [nextIndex, mask])
          hlt hmove (Ne.symm hne) (by rw [htab, Function.update_of_ne hei, hempty]) hpos'
          (show dist n (next n j) e ≤ fuel by omega)
        refine ⟨t, ht, hlen', hprob, fun s => (hholds s).trans ?_⟩
        rw [htab]
        exact holdsElsewhere_move hhole.lt (next_lt hhole.lt') hni hs s

/-- A slot can be taken out of a table with an empty position. -/
theorem IndexOf.eraseIndex (h : IndexOf hash c S) (hroom : ∃ e < c.table.length, c.tab e = none)
    (hs : s ∈ S) :
    ∃ t, c.eraseIndex hash s = some { c with table := t } ∧ t.length = c.table.length ∧
      IndexOf hash { c with table := t } (S \ {s}) := by
  obtain ⟨e, he, hempty⟩ := hroom
  obtain ⟨i, hi, hfind, his⟩ := h.findIndex_mem hs
  have hei : e ≠ i := fun heq => by simp [← heq, hempty] at his
  obtain ⟨t, ht, hlen, hprob, hholds⟩ := shiftLoop_spec he rfl rfl
    h.nextIndex_eq (fun s => h.homeOf_lt (by omega) _) (h.probing.hole hi) hei hempty
    (dist_pos hi (Ne.symm hei)) (dist_lt hi he).le
  refine ⟨t, ?_, hlen, ?_, ?_, fun s' => ?_, h.keys.mono Set.sdiff_subset⟩
  · rw [NodeCatalog.eraseIndex]
    exact (congrArg (Option.bind · _) hfind).trans ht
  · exact h.length.imp (fun hnil => by rw [hnil] at hi; exact absurd hi (Nat.not_lt_zero i))
      fun ⟨m, hm⟩ => ⟨m, hlen.trans hm⟩
  · rw [home_withTable hlen]
    exact hlen.symm ▸ hprob
  · rw [show ({ c with table := t } : NodeCatalog).table.length = c.table.length from hlen, hholds,
      Set.mem_sdiff, Set.mem_singleton_iff, ← h.holds]
    -- No position but `i` has the slot.
    constructor
    · rintro ⟨p, hp, hpi, hps⟩
      exact ⟨⟨p, hp, hps⟩, fun heq => hpi (h.probing.inj p hp i hi s (heq ▸ hps) his)⟩
    · rintro ⟨⟨p, hp, hps⟩, hne⟩
      have hpi : p ≠ i := fun hpi => by
        rw [hpi, his, Option.some.injEq] at hps
        exact hne hps.symm
      exact ⟨p, hp, hpi, hps⟩

/-! ## Growing -/

theorem indexOf_empty (m : ℕ) :
    IndexOf hash { c with table := List.replicate (2 ^ m) NoSlot } ∅ := by
  have htab : tab { c with table := List.replicate (2 ^ m) NoSlot } = fun _ => none := by
    funext i
    rw [tab_eq_none]
    by_cases hi : i < 2 ^ m <;> simp [slotAt, hi]
  refine ⟨.inr ⟨m, List.length_replicate⟩, htab ▸ probing_empty, fun s => ?_, fun _ h => h.elim⟩
  rw [htab]
  simp [Holds]

/-- Entering slots of distinct keys one after another, with fewer of them in all
    than the table has positions. -/
theorem IndexOf.foldlM_insertIndex {L : List ℕ} (hkeys : Set.InjOn c.keyAt {s | s ∈ L})
    (hslot : NoSlot ∉ L) : ∀ {l t : List ℕ} {S : Set ℕ}, L.length < t.length →
      IndexOf hash { c with table := t } S → l.Nodup → (∀ s ∈ l, s ∉ S) → (∀ s ∈ S, s ∈ L) →
      (∀ s ∈ l, (c.entryAt s).inUse → s ∈ L) →
        ∃ t', l.foldlM (fun c s => if (c.entryAt s).inUse then c.insertIndex hash s else some c)
            { c with table := t } = some { c with table := t' } ∧ t'.length = t.length ∧
          IndexOf hash { c with table := t' } (S ∪ {s | s ∈ l ∧ (c.entryAt s).inUse})
  | [], t, S, _, h, _, _, _, _ => ⟨t, rfl, rfl, by simpa using h⟩
  | s :: l, t, S, hlen, h, hnodup, hnew, hS, hl => by
    rw [List.nodup_cons] at hnodup
    rw [List.foldlM_cons]
    by_cases huse : (c.entryAt s).inUse
    · have hsL := hl s List.mem_cons_self huse
      -- The table is larger than all slots together, so that a position is left.
      have hroom : ∃ e < t.length, tab { c with table := t } e = none :=
        exists_empty h.probing.inj (fun s hs => hS s ((h.holds s).1 hs)) hlen
      have hsS := hnew s List.mem_cons_self
      obtain ⟨t', ht', hlen', h'⟩ := h.insertIndex hroom hsS (fun heq => hslot (heq ▸ hsL))
        fun s' hs' heq => hsS (hkeys (hS s' hs') hsL heq ▸ hs')
      have hS' : ∀ s' ∈ Set.insert s S, s' ∈ L := by
        rintro s' (rfl | hs')
        · exact hsL
        · exact hS s' hs'
      have hnew' : ∀ s' ∈ l, s' ∉ Set.insert s S := by
        rintro s' hs' (rfl | hin)
        · exact hnodup.1 hs'
        · exact hnew s' (List.mem_cons_of_mem _ hs') hin
      obtain ⟨t'', ht'', hlen'', h''⟩ :=
        foldlM_insertIndex hkeys hslot (hlen.trans_eq hlen'.symm) h'
        hnodup.2 hnew' hS' fun s' hs' => hl s' (List.mem_cons_of_mem _ hs')
      refine ⟨t'', ?_, hlen''.trans hlen', ?_⟩
      · have hentry : ({ c with table := t } : NodeCatalog).entryAt s = c.entryAt s := rfl
        rw [hentry, if_pos huse, ht']
        exact ht''
      · convert h'' using 1
        ext s'
        simp only [Set.mem_union, Set.mem_ofPred_eq, List.mem_cons, Set.insert]
        constructor
        · rintro (hin | ⟨rfl | hin, hu⟩)
          · exact .inl (.inr hin)
          · exact .inl (.inl rfl)
          · exact .inr ⟨hin, hu⟩
        · rintro ((rfl | hin) | ⟨hin, hu⟩)
          · exact .inr ⟨.inl rfl, huse⟩
          · exact .inl hin
          · exact .inr ⟨.inr hin, hu⟩
    · obtain ⟨t', ht', hlen', h'⟩ := foldlM_insertIndex hkeys hslot hlen h hnodup.2
        (fun s' hs' => hnew s' (List.mem_cons_of_mem _ hs')) hS
        fun s' hs' => hl s' (List.mem_cons_of_mem _ hs')
      refine ⟨t', ?_, hlen', ?_⟩
      · have hentry : ({ c with table := t } : NodeCatalog).entryAt s = c.entryAt s := rfl
        rw [hentry, if_neg huse]
        exact ht'
      · convert h' using 1
        ext s'
        simp only [Set.mem_union, Set.mem_ofPred_eq, List.mem_cons]
        constructor
        · rintro (hin | ⟨rfl | hin, hu⟩)
          · exact .inl hin
          · exact absurd hu huse
          · exact .inr ⟨hin, hu⟩
        · rintro (hin | ⟨hin, hu⟩)
          · exact .inl hin
          · exact .inr ⟨.inr hin, hu⟩

end Dht.NodeCatalog
