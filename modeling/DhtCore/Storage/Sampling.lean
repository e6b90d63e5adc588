import DhtCore.Storage.Peers

/-!
# Random peers

Of the peers of a family, a random selection is given to whoever asks for them
(`PeerStorage.peers`). The loop that draws them swaps peers, so that there are the same ones in
the end (`drawLoop_perm`), and any peers at all may be drawn, in any order (`exists_draw`). So a
selection has as many peers as it may, no two of them the same, and none of the other family, and
every set of so many may be selected (`peers_sample`).
-/

namespace Dht.PeerStorage

open List

variable {α : Type} {draw draw' : ℕ → ℕ} {left i j : ℕ} {out : List α}

/-! ## Swapping -/

/-- An element is swapped with the one that is drawn. -/
theorem drawLoop_succ (left : ℕ) (hi : i < out.length) (hj : j < out.length)
    (hdraw : i + draw i % (out.length - i) = j) : drawLoop draw (left + 1) i out =
      drawLoop draw left (i + 1) ((out.set i out[j]).set j out[i]) := by
  subst hdraw
  rw [drawLoop, getElem?_eq_getElem hi, getElem?_eq_getElem hj]

theorem drawn_lt (draw : ℕ → ℕ) (hi : i < out.length) :
    i + draw i % (out.length - i) < out.length := by
  have hlt : draw i % (out.length - i) < out.length - i := Nat.mod_lt _ (by omega)
  omega

theorem drawLoop_of_le (draw : ℕ → ℕ) (left : ℕ) (hi : out.length ≤ i) :
    drawLoop draw left i out = out := by
  cases left with
  | zero => rfl
  | succ left => rw [drawLoop, getElem?_eq_none hi]

/-- The elements are the same ones, in another order. -/
theorem drawLoop_perm (draw : ℕ → ℕ) (left i : ℕ) (out : List α) :
    drawLoop draw left i out ~ out := by
  induction left generalizing i out with
  | zero => exact .refl _
  | succ left ih =>
    rcases lt_or_ge i out.length with hi | hi
    · rw [drawLoop_succ left hi (drawn_lt draw hi) rfl]
      exact (ih _ _).trans (set_set_perm hi (drawn_lt draw hi))
    · rw [drawLoop_of_le draw _ hi]

theorem take_swap {a b : α} (hj : i ≤ j) : ((out.set i a).set j b).take i = out.take i := by
  rw [take_set_of_le hj, take_set_of_le le_rfl]

/-- The element that is drawn comes first of those that were left. -/
theorem getElem?_swap (hi : i < out.length) (hj : j < out.length) :
    ((out.set i out[j]).set j out[i])[i]? = some out[j] := by
  by_cases hij : i = j
  · subst hij
    simp [hi]
  · rw [getElem?_set_ne (Ne.symm hij), getElem?_set_self hi]

/-- Draws that were made before do not matter. -/
theorem drawLoop_congr (h : ∀ k, i ≤ k → draw k = draw' k) (left : ℕ) (out : List α) :
    drawLoop draw left i out = drawLoop draw' left i out := by
  induction left generalizing i out with
  | zero => rfl
  | succ left ih =>
    rw [drawLoop, drawLoop, h i le_rfl]
    split
    · exact ih (fun k hk => h k (by omega)) _
    · rfl

/-! ## Drawing -/

/-- After a swap, the first of what is left is the element that was drawn, and the others are
    those that are left. -/
theorem mem_drop_swap (hi : i < out.length) (hj : j < out.length) (hij : i ≤ j) {x : α}
    (hx : x ∈ out.drop i) (hne : x ≠ out[j]) :
    x ∈ ((out.set i out[j]).set j out[i]).drop (i + 1) := by
  have hperm := set_set_perm hi hj
  set next := (out.set i out[j]).set j out[i]
  have htake : next.take i = out.take i := take_swap hij
  have hdrop : next.drop i ~ out.drop i := by
    rw [← take_append_drop i next, ← take_append_drop i out, htake] at hperm
    exact (perm_append_left_iff _).1 hperm
  obtain ⟨hi', hfirst⟩ := List.getElem?_eq_some_iff.1 (getElem?_swap hi hj)
  rw [← hdrop.mem_iff, drop_eq_getElem_cons hi', hfirst, mem_cons] at hx
  exact hx.resolve_left hne

/-- Any elements may be drawn from those that are left, in any order. -/
theorem exists_draw {chosen : List α} (hnodup : chosen.Nodup) (hsubset : chosen ⊆ out.drop i) :
    ∃ draw : ℕ → ℕ, (∀ k, i ≤ k → k < i + chosen.length → draw k < out.length - k) ∧
      (drawLoop draw chosen.length i out).take (i + chosen.length) = out.take i ++ chosen := by
  induction chosen generalizing i out with
  | nil => exact ⟨fun _ => 0, fun k hk hlt => absurd hlt (by simpa using hk), by simp [drawLoop]⟩
  | cons c chosen ih =>
    obtain ⟨hc, hsubset⟩ := cons_subset.1 hsubset
    obtain ⟨hnotMem, hnodup⟩ := nodup_cons.1 hnodup
    obtain ⟨d, hd, hget⟩ := mem_iff_getElem.1 hc
    rw [length_drop] at hd
    rw [getElem_drop] at hget
    have hi : i < out.length := by omega
    have hj : i + d < out.length := by omega
    set next := (out.set i out[i + d]).set (i + d) out[i] with hnext
    have hrest : chosen ⊆ next.drop (i + 1) := fun x hx =>
      mem_drop_swap hi hj (Nat.le_add_right i d) (hsubset hx) fun heq =>
        hnotMem ((heq.trans hget) ▸ hx)
    obtain ⟨draw, hbounds, htake⟩ := ih hnodup hrest
    have hdraw : Function.update draw i d i = d := Function.update_self ..
    have hother : ∀ k, i + 1 ≤ k → Function.update draw i d k = draw k := fun k hk =>
      Function.update_of_ne (by omega) _ _
    refine ⟨Function.update draw i d, fun k hk hlt => ?_, ?_⟩
    · rcases hk.eq_or_lt with rfl | hlt'
      · rw [hdraw]
        exact hd
      · rw [hother k hlt']
        have hbound := hbounds k hlt' (by rw [length_cons] at hlt; omega)
        rwa [hnext, length_set, length_set] at hbound
    · have hstep : i + Function.update draw i d i % (out.length - i) = i + d := by
        rw [hdraw, Nat.mod_eq_of_lt hd]
      have hfirst : next.take (i + 1) = out.take i ++ [c] := by
        rw [take_add_one, getElem?_swap hi hj, take_swap (Nat.le_add_right i d), hget]
        rfl
      rw [length_cons, drawLoop_succ _ hi hj hstep, ← hnext, drawLoop_congr hother,
        Nat.add_comm chosen.length, ← Nat.add_assoc, htake, hfirst, append_assoc]
      rfl

/-! ## Selections -/

/-- The peers of a family that are stored for an infohash. -/
def storedPeers (s : PeerStorage) (infohash : NodeId) (family : Family) : Finset Endpoint :=
  ((s.peersOf infohash).keys.filter (·.family = family)).toFinset

/-- The draws that are made for a selection are all of a peer that is left. -/
def InBounds (draw : ℕ → ℕ) (max n : ℕ) : Prop := max < n → ∀ i < max, draw i < n - i

variable (s : PeerStorage) (infohash : NodeId) (family : Family) (max : ℕ)

theorem mem_storedPeers {peer : Endpoint} : peer ∈ s.storedPeers infohash family ↔
    peer ∈ s.peersOf infohash ∧ peer.family = family := by
  rw [storedPeers, mem_toFinset, mem_filter, decide_eq_true_iff]
  rfl

/-- The peers of a family, in the order in which they are stored. -/
theorem exists_stored : ∃ out : List Endpoint, out.Nodup ∧
    out.toFinset = s.storedPeers infohash family ∧ ∀ draw, s.peers draw infohash family max =
      if out.length > max then (drawLoop draw max 0 out).take max else out := by
  refine ⟨_, (s.peersOf infohash).keys_nodup.filter _, rfl, fun draw => ?_⟩
  rw [peers, peersOf]
  cases s.entries.lookup infohash with
  | none => rfl
  | some entry => rfl

/-- A selection of peers has as many as there are, up to `max`, no two of them the same, and all
    of the family. Any set of `max` peers may be selected. -/
theorem peers_sample :
    (∀ draw, (s.peers draw infohash family max).Nodup ∧
      (s.peers draw infohash family max).length = min max (s.storedPeers infohash family).card ∧
      ∀ peer ∈ s.peers draw infohash family max,
        peer ∈ s.peersOf infohash ∧ peer.family = family) ∧
    ∀ subset ⊆ s.storedPeers infohash family, subset.card = max →
      ∃ draw, InBounds draw max (s.storedPeers infohash family).card ∧
        (s.peers draw infohash family max).toFinset = subset := by
  obtain ⟨out, hnodup, hstored, hpeers⟩ := exists_stored s infohash family max
  set stored := s.storedPeers infohash family
  have hcard : stored.card = out.length := by
    rw [← toFinset_card_of_nodup hnodup, hstored]
  have hmem {peer : Endpoint} (h : peer ∈ out) : peer ∈ s.peersOf infohash ∧ peer.family = family :=
    (mem_storedPeers s infohash family).1 (hstored.subset (mem_toFinset.2 h))
  simp only [hpeers, hcard]
  constructor
  · intro draw
    split_ifs with hlt
    · have hperm := drawLoop_perm draw max 0 out
      refine ⟨(take_sublist _ _).nodup (hperm.nodup_iff.2 hnodup), ?_, fun peer hpeer => ?_⟩
      · rw [length_take, hperm.length_eq]
      · exact hmem (hperm.mem_iff.1 (mem_of_mem_take hpeer))
    · exact ⟨hnodup, (min_eq_right (not_lt.1 hlt)).symm, fun peer => hmem⟩
  · intro subset hsubset hmax
    split_ifs with hlt
    · -- The peers are drawn one after the other.
      have hchosen : subset.toList ⊆ out.drop 0 := fun peer hpeer =>
        mem_toFinset.1 (hstored ▸ hsubset (Finset.mem_toList.1 hpeer))
      obtain ⟨draw, hbounds, htake⟩ := exists_draw subset.nodup_toList hchosen
      rw [Finset.length_toList, hmax, Nat.zero_add] at hbounds htake
      refine ⟨draw, fun _ i hi => hbounds i (Nat.zero_le i) hi, ?_⟩
      rw [htake, take_zero, nil_append, Finset.toList_toFinset]
    · -- All of them are selected.
      have hall : subset = stored := Finset.eq_of_subset_of_card_le hsubset (by omega)
      exact ⟨fun _ => 0, fun h => absurd h hlt, by rw [hstored, hall]⟩

end Dht.PeerStorage
