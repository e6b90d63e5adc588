import Mathlib.Data.List.Nodup
import Mathlib.Tactic

/-!
# Linear probing

An open-addressing table of `n` positions in a ring, each empty or holding an
element, in which an element is looked for from its home position on, up to the
first empty one. The table is a function of the position; `Probing` is its
invariant, that no position between an element and its home is empty.

* `scan` is a loop over the ring that stops at the first position of a kind
  (`exists_scan`); looking for an element, it finds it (`Probing.scan_eq`), and
  looking for an empty position, it finds one where an element may be put
  (`Probing.insert`);
* `Hole` is the invariant of backward-shift deletion: the position `i` is being
  emptied, and the positions after it up to `j` have been examined. An element
  found next stays (`Hole.stay`) or is moved into the hole (`Hole.move`), and at
  an empty position the hole may be closed (`Hole.close`);
* a table with fewer elements than positions has an empty one (`exists_empty`).
-/

namespace LinearProbing

variable {σ : Type*} {n : ℕ} {home : σ → ℕ} {tab : ℕ → Option σ}

/-- How many steps it takes from the position `a` to `b` around a ring of `n` positions. -/
def dist (n a b : ℕ) : ℕ := if a ≤ b then b - a else b + n - a

/-- The position after `i` in a ring of `n` positions. -/
def next (n i : ℕ) : ℕ := (i + 1) % n

theorem next_eq (n : ℕ) {i : ℕ} (h : i < n) : next n i = if i + 1 = n then 0 else i + 1 := by
  rw [next]
  split_ifs with hi
  · rw [hi, Nat.mod_self]
  · exact Nat.mod_eq_of_lt (by omega)

theorem next_lt {i : ℕ} (h : i < n) : next n i < n := Nat.mod_lt _ (by omega)

theorem dist_lt {a b : ℕ} (ha : a < n) (hb : b < n) : dist n a b < n := by
  rw [dist]
  split_ifs <;> omega

theorem dist_self (n a : ℕ) : dist n a a = 0 := by simp [dist]

theorem dist_pos {a b : ℕ} (ha : a < n) (hne : a ≠ b) : 0 < dist n a b := by
  rw [dist]
  split_ifs <;> omega

theorem dist_right_inj {a b c : ℕ} (ha : a < n) (hb : b < n) (hc : c < n)
    (h : dist n a b = dist n a c) : b = c := by
  rw [dist, dist] at h
  split_ifs at h <;> omega

/-- One step further, a position is one step nearer. -/
theorem dist_next {a b : ℕ} (ha : a < n) (hb : b < n) (hne : a ≠ b) :
    dist n (next n a) b + 1 = dist n a b := by
  rw [next_eq n ha, dist, dist]
  split_ifs <;> omega

/-- The position after `j` is one step further from `i`, unless it is `i`. -/
theorem dist_next_right {i j : ℕ} (hi : i < n) (hj : j < n) (hne : next n j ≠ i) :
    dist n i (next n j) = dist n i j + 1 := by
  rw [next_eq n hj] at hne ⊢
  rw [dist, dist]
  split_ifs at hne ⊢ <;> omega

/-! ## Scanning -/

/-- The loop `for (; !stop(i); i = next(i))`, with fuel: where it stops. -/
def scan (next : ℕ → ℕ) (stop : ℕ → Bool) : ℕ → ℕ → Option ℕ
  | 0, _ => none
  | fuel + 1, i => if stop i then some i else scan next stop fuel (next i)

/-- A scan with fuel for the whole ring stops at the first position of its kind,
    if there is any. -/
theorem exists_scan {step : ℕ → ℕ} (stop : ℕ → Bool) {e : ℕ} (hstep : ∀ i < n, step i = next n i)
    (he : e < n) (hstop : stop e) : ∀ {fuel a : ℕ}, a < n → dist n a e < fuel →
      ∃ i < n, scan step stop fuel a = some i ∧ stop i ∧
        ∀ k < n, dist n a k < dist n a i → stop k = false
  | 0, _, _, h => absurd h (Nat.not_lt_zero _)
  | fuel + 1, a, ha, hfuel => by
    rw [scan]
    by_cases hsa : stop a
    · rw [if_pos hsa]
      refine ⟨a, ha, rfl, hsa, fun k _ hk => ?_⟩
      rw [dist_self] at hk
      exact absurd hk (Nat.not_lt_zero _)
    · have hne : a ≠ e := fun heq => hsa (heq ▸ hstop)
      have hnear := dist_next ha he hne
      obtain ⟨i, hi, hscan, hsi, hfirst⟩ :=
        exists_scan stop hstep he hstop (next_lt ha)
          (show dist n (next n a) e < fuel by omega)
      rw [if_neg hsa, hstep a ha]
      refine ⟨i, hi, hscan, hsi, fun k hk hlt => ?_⟩
      by_cases hak : a = k
      · exact hak ▸ Bool.not_eq_true _ ▸ hsa
      · have hai : a ≠ i := fun heq => hsa (heq ▸ hsi)
        have h₁ := dist_next ha hk hak
        have h₂ := dist_next ha hi hai
        exact hfirst k hk (by omega)

/-! ## The invariant -/

/-- The invariant of a table: no element is in it twice, and every one is
    reached from its home position without passing an empty position. -/
structure Probing (n : ℕ) (home : σ → ℕ) (tab : ℕ → Option σ) : Prop where
  path : ∀ i < n, ∀ s, tab i = some s → ∀ k < n, dist n (home s) k < dist n (home s) i →
    tab k ≠ none
  inj : ∀ i < n, ∀ j < n, ∀ s, tab i = some s → tab j = some s → i = j

theorem probing_empty : Probing n home fun _ => none :=
  ⟨fun _ _ _ h => by simp at h, fun _ _ _ _ _ h => by simp at h⟩

/-- Whether a table holds an element. -/
def Holds (n : ℕ) (tab : ℕ → Option σ) (s : σ) : Prop := ∃ i < n, tab i = some s

/-- The scan for what is empty or `wanted`, from the home position of a wanted
    element, stops at a wanted element if the table holds that one. -/
theorem Probing.scan_eq (h : Probing n home tab) {step : ℕ → ℕ} (wanted : σ → Bool)
    (hstep : ∀ i < n, step i = next n i) {i : ℕ} {s : σ} (hi : i < n) (hs : tab i = some s)
    (hhome : home s < n) (hw : wanted s) :
    ∃ k < n, ∃ s', scan step (fun k => (tab k).all wanted) n (home s) = some k ∧
      tab k = some s' ∧ wanted s' := by
  have hstop : (tab i).all wanted := by simpa [hs] using hw
  obtain ⟨k, hk, hscan, hsk, hfirst⟩ :=
    exists_scan (fun k => (tab k).all wanted) hstep hi hstop hhome (dist_lt hhome hi)
  -- Up to the element no position is empty, and the scan does not go beyond it.
  have hne : tab k ≠ none := by
    rcases lt_trichotomy (dist n (home s) k) (dist n (home s) i) with hlt | heq | hgt
    · exact h.path i hi s hs k hk hlt
    · simp [dist_right_inj hhome hk hi heq, hs]
    · exact absurd (hfirst i hi hgt) (by simp [hstop])
  obtain ⟨s', hs'⟩ := Option.ne_none_iff_exists'.1 hne
  exact ⟨k, hk, s', hscan, hs', by simpa [hs'] using hsk⟩

/-- An element not yet in the table may be put at the first empty position from
    its home on. -/
theorem Probing.insert (h : Probing n home tab) {i : ℕ} {s : σ} (hnew : ¬Holds n tab s)
    (hfirst : ∀ k < n, dist n (home s) k < dist n (home s) i → tab k ≠ none) :
    Probing n home (Function.update tab i (some s)) := by
  have hmono : ∀ k, tab k ≠ none → Function.update tab i (some s) k ≠ none := fun k hk => by
    by_cases hki : k = i
    · simp [hki]
    · rwa [Function.update_of_ne hki]
  -- A path stays full over the new element, which was in no slot before.
  refine ⟨fun j hj s' hs' k hk hlt => ?_, fun j hj k hk s' hj' hk' => ?_⟩
  · by_cases hji : j = i
    · subst hji
      rw [Function.update_self, Option.some.injEq] at hs'
      subst hs'
      exact hmono k (hfirst k hk hlt)
    · rw [Function.update_of_ne hji] at hs'
      exact hmono k (h.path j hj s' hs' k hk hlt)
  · by_cases hji : j = i <;> by_cases hki : k = i
    · rw [hji, hki]
    · subst hji
      rw [Function.update_self, Option.some.injEq] at hj'
      rw [Function.update_of_ne hki] at hk'
      exact absurd ⟨k, hk, hj' ▸ hk'⟩ hnew
    · subst hki
      rw [Function.update_self, Option.some.injEq] at hk'
      rw [Function.update_of_ne hji] at hj'
      exact absurd ⟨j, hj, hk' ▸ hj'⟩ hnew
    · rw [Function.update_of_ne hji] at hj'
      rw [Function.update_of_ne hki] at hk'
      exact h.inj j hj k hk s' hj' hk'

theorem holds_update {i : ℕ} {s s' : σ} (hi : i < n) (hempty : tab i = none) :
    Holds n (Function.update tab i (some s)) s' ↔ s' = s ∨ Holds n tab s' := by
  constructor
  · rintro ⟨j, hj, h⟩
    by_cases hji : j = i
    · rw [hji, Function.update_self, Option.some.injEq] at h
      exact .inl h.symm
    · rw [Function.update_of_ne hji] at h
      exact .inr ⟨j, hj, h⟩
  · rintro (rfl | ⟨j, hj, h⟩)
    · exact ⟨i, hi, Function.update_self ..⟩
    · refine ⟨j, hj, ?_⟩
      rw [Function.update_of_ne (by rintro rfl; simp [hempty] at h)]
      exact h

/-- A table without an empty position holds as many elements as it has positions. -/
theorem exists_empty (hinj : ∀ i < n, ∀ j < n, ∀ s, tab i = some s → tab j = some s → i = j)
    {l : List σ} (hl : ∀ s, Holds n tab s → s ∈ l) (hlen : l.length < n) :
    ∃ e < n, tab e = none := by
  classical
  by_contra hfull
  push Not at hfull
  have hsome : ∀ i : Fin n, ∃ s, tab i = some s := fun i =>
    Option.ne_none_iff_exists'.1 (hfull i i.2)
  choose f hf using hsome
  have hcard : (Finset.univ.image f).card ≤ l.toFinset.card :=
    Finset.card_le_card fun s hs => by
      obtain ⟨i, -, rfl⟩ := Finset.mem_image.1 hs
      exact List.mem_toFinset.2 (hl _ ⟨i, i.2, hf i⟩)
  have hfinj : Function.Injective f := fun i j hij =>
    Fin.ext (hinj i i.2 j j.2 (f j) (hij ▸ hf i) (hf j))
  rw [Finset.card_image_of_injective _ hfinj, Finset.card_univ, Fintype.card_fin] at hcard
  exact absurd (hcard.trans (List.toFinset_card_le l)) (Nat.not_le.2 hlen)

/-! ## Backward-shift deletion -/

/-- The invariant of backward-shift deletion, when the position `i` is to be
    emptied and those after it up to `j` have been examined: what is elsewhere is
    as in a table, but for the elements beyond `j`, which may have `i` between
    their home and them. -/
structure Hole (n : ℕ) (home : σ → ℕ) (tab : ℕ → Option σ) (i j : ℕ) : Prop where
  lt : i < n
  lt' : j < n
  run : ∀ k < n, 0 < dist n i k → dist n i k ≤ dist n i j → tab k ≠ none
  path : ∀ p < n, p ≠ i → ∀ s, tab p = some s →
    ∀ k < n, k ≠ i → dist n (home s) k < dist n (home s) p → tab k ≠ none
  past : ∀ p < n, p ≠ i → ∀ s, tab p = some s →
    dist n (home s) i < dist n (home s) p → dist n i j < dist n i p
  inj : ∀ p < n, p ≠ i → ∀ q < n, q ≠ i → ∀ s, tab p = some s → tab q = some s → p = q

/-- What a table holds besides what is at the position `i`. -/
def HoldsElsewhere (n : ℕ) (tab : ℕ → Option σ) (i : ℕ) (s : σ) : Prop :=
  ∃ p < n, p ≠ i ∧ tab p = some s

theorem Probing.hole (h : Probing n home tab) {i : ℕ} (hi : i < n) : Hole n home tab i i where
  lt := hi
  lt' := hi
  run k _ hpos hle := by
    rw [dist_self] at hle
    omega
  path p hp _ s hs k hk _ hlt := h.path p hp s hs k hk hlt
  past p _ hpi _ _ _ := by
    rw [dist_self]
    exact dist_pos hi (Ne.symm hpi)
  inj p hp _ q hq _ s hps hqs := h.inj p hp q hq s hps hqs

variable {i j e : ℕ} {s : σ}

/-- Short of an empty position, the deletion does not come back to the hole. -/
theorem Hole.next_dist (h : Hole n home tab i j) (he : e < n) (hei : e ≠ i) (hempty : tab e = none)
    (hnext : tab (next n j) ≠ none) :
    next n j ≠ i ∧ dist n i (next n j) = dist n i j + 1 ∧ dist n (next n j) e + 1 = dist n j e := by
  have hpos := dist_pos h.lt (Ne.symm hei)
  have hfar : dist n i j < dist n i e := by
    by_contra hle
    exact h.run e he hpos (Nat.not_lt.1 hle) hempty
  have hje : j ≠ e := by
    rintro rfl
    exact absurd hfar (lt_irrefl _)
  have hne : next n j ≠ e := fun heq => hnext (heq ▸ hempty)
  have hni : next n j ≠ i := by
    have h₁ := h.lt
    have h₂ := h.lt'
    rw [next_eq n h₂] at hne ⊢
    rw [dist, dist] at hfar
    split_ifs at hne hfar ⊢ <;> omega
  exact ⟨hni, dist_next_right h.lt h.lt' hni, dist_next h.lt' he hje⟩

/-- An element whose home is between the hole and itself stays. -/
theorem Hole.stay (h : Hole n home tab i j) (he : e < n) (hei : e ≠ i) (hempty : tab e = none)
    (hs : tab (next n j) = some s) (hhome : home s < n)
    (hstay : 0 < dist n i (home s) ∧ dist n i (home s) ≤ dist n i (next n j)) :
    Hole n home tab i (next n j) := by
  obtain ⟨hni, hd, -⟩ := h.next_dist he hei hempty (by simp [hs])
  have hn := next_lt h.lt'
  have hi := h.lt
  refine ⟨hi, hn, fun k hk hpos hle => ?_, h.path, fun p hp hpi s' hs' hlt => ?_, h.inj⟩
  · by_cases hkn : k = next n j
    · simp [hkn, hs]
    · have hne : dist n i k ≠ dist n i (next n j) := fun heq => hkn (dist_right_inj hi hk hn heq)
      exact h.run k hk hpos (by omega)
  · have hpast := h.past p hp hpi s' hs' hlt
    refine lt_of_le_of_ne (by omega) fun heq => ?_
    -- The element after `j` is the one that stays, and the hole is not on its path.
    have hpn : p = next n j := (dist_right_inj hi hn hp heq).symm
    subst hpn
    rw [hs, Option.some.injEq] at hs'
    subst hs'
    simp only [dist] at hstay hlt
    split_ifs at hstay hlt <;> omega

/-- Any other element is moved into the hole, and leaves one behind. -/
theorem Hole.move (h : Hole n home tab i j) (he : e < n) (hei : e ≠ i) (hempty : tab e = none)
    (hs : tab (next n j) = some s) (hhome : home s < n)
    (hmove : ¬(0 < dist n i (home s) ∧ dist n i (home s) ≤ dist n i (next n j))) :
    Hole n home (Function.update tab i (some s)) (next n j) (next n j) := by
  obtain ⟨hni, -, -⟩ := h.next_dist he hei hempty (by simp [hs])
  have hn := next_lt h.lt'
  have hi := h.lt
  have hmono : ∀ k, (k ≠ i → tab k ≠ none) → Function.update tab i (some s) k ≠ none := by
    intro k hk
    by_cases hki : k = i
    · simp [hki]
    · rw [Function.update_of_ne hki]
      exact hk hki
  refine ⟨hn, hn, fun k _ hpos hle => ?_, fun p hp hpn s' hs' k hk hkn hlt => ?_,
    fun p _ hpn _ _ _ => ?_, fun p hp hpn q hq hqn s' hps hqs => ?_⟩
  · rw [dist_self] at hle
    omega
  · refine hmono k fun hki => ?_
    by_cases hpi : p = i
    · subst hpi
      rw [Function.update_self, Option.some.injEq] at hs'
      subst hs'
      -- On its way to the hole, the element passes positions it passed before.
      refine h.path (next n j) hn hni s hs k hk hki ?_
      simp only [dist] at hmove hlt ⊢
      split_ifs at hmove hlt ⊢ <;> omega
    · rw [Function.update_of_ne hpi] at hs'
      exact h.path p hp hpi s' hs' k hk hki hlt
  · rw [dist_self]
    exact dist_pos hn (Ne.symm hpn)
  · by_cases hpi : p = i <;> by_cases hqi : q = i
    · rw [hpi, hqi]
    · subst hpi
      rw [Function.update_self, Option.some.injEq] at hps
      rw [Function.update_of_ne hqi] at hqs
      exact absurd (h.inj q hq hqi _ hn hni s' hqs (hps ▸ hs)) hqn
    · subst hqi
      rw [Function.update_self, Option.some.injEq] at hqs
      rw [Function.update_of_ne hpi] at hps
      exact absurd (h.inj p hp hpi _ hn hni s' hps (hqs ▸ hs)) hpn
    · rw [Function.update_of_ne hpi] at hps
      rw [Function.update_of_ne hqi] at hqs
      exact h.inj p hp hpi q hq hqi s' hps hqs

/-- Moving an element into the hole loses nothing. -/
theorem holdsElsewhere_move {k : ℕ} (hi : i < n) (hk : k < n) (hki : k ≠ i) (hs : tab k = some s)
    (s' : σ) :
    HoldsElsewhere n (Function.update tab i (some s)) k s' ↔ HoldsElsewhere n tab i s' := by
  constructor
  · rintro ⟨p, hp, hpk, hps⟩
    by_cases hpi : p = i
    · rw [hpi, Function.update_self, Option.some.injEq] at hps
      exact ⟨k, hk, hki, hps ▸ hs⟩
    · rw [Function.update_of_ne hpi] at hps
      exact ⟨p, hp, hpi, hps⟩
  · rintro ⟨p, hp, hpi, hps⟩
    by_cases hpk : p = k
    · subst hpk
      rw [hs, Option.some.injEq] at hps
      exact ⟨i, hi, Ne.symm hki, by rw [Function.update_self, hps]⟩
    · exact ⟨p, hp, hpk, by rwa [Function.update_of_ne hpi]⟩

/-- Before an empty position, the hole may be closed. -/
theorem Hole.close (h : Hole n home tab i j) (hhome : ∀ s, home s < n)
    (hempty : tab (next n j) = none) : Probing n home (Function.update tab i none) := by
  have hn := next_lt h.lt'
  have hi := h.lt
  have hkept : ∀ p s, Function.update tab i none p = some s → p ≠ i ∧ tab p = some s := by
    intro p s hps
    by_cases hpi : p = i
    · simp [hpi] at hps
    · exact ⟨hpi, by rwa [Function.update_of_ne hpi] at hps⟩
  refine ⟨fun p hp s hps k hk hlt => ?_, fun p hp q hq s hps hqs => ?_⟩
  · obtain ⟨hpi, hps⟩ := hkept p s hps
    by_cases hki : k = i
    · -- The element would be beyond the empty position, which its path cannot pass.
      rw [hki] at hlt ⊢
      have hpast := h.past p hp hpi s hps hlt
      have hhs := hhome s
      have hj := h.lt'
      have hpn : p ≠ next n j := by
        rintro rfl
        simp [hempty] at hps
      by_cases hni : next n j = i
      · exfalso
        rw [next_eq n hj] at hni
        simp only [dist] at hpast
        split_ifs at hni hpast <;> omega
      · refine absurd hempty (h.path p hp hpi s hps _ hn hni ?_)
        rw [next_eq n hj] at hpn hni ⊢
        simp only [dist] at hpast hlt ⊢
        split_ifs at hpn hni hpast hlt ⊢ <;> omega
    · rw [Function.update_of_ne hki]
      exact h.path p hp hpi s hps k hk hki hlt
  · obtain ⟨hpi, hps⟩ := hkept p s hps
    obtain ⟨hqi, hqs⟩ := hkept q s hqs
    exact h.inj p hp hpi q hq hqi s hps hqs

theorem holds_close (s : σ) : Holds n (Function.update tab i none) s ↔
    HoldsElsewhere n tab i s := by
  constructor
  · rintro ⟨p, hp, hps⟩
    by_cases hpi : p = i
    · simp [hpi] at hps
    · exact ⟨p, hp, hpi, by rwa [Function.update_of_ne hpi] at hps⟩
  · rintro ⟨p, hp, hpi, hps⟩
    exact ⟨p, hp, by rwa [Function.update_of_ne hpi]⟩

end LinearProbing
