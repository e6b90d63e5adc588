import DhtCore.NodeCatalog.Refinement

/-!
# Which insertion an entry is from

The insertions are numbered by the history, and each entry is from one of them (`birth`).
Until generations wrap around, they are these numbers (`Dated`), so that a reference names
an entry for good: it never comes back once it is gone (`Shrunk`, `Grown`).
-/

namespace Dht.NodeCatalog

open List LinearProbing

variable {hash : CatalogKey → ℕ} {c c' c'' : NodeCatalog} {s : ℕ}

/-- Which insertion the entry in a slot is from, counted from one. -/
def birth (c : NodeCatalog) (s : ℕ) : ℕ :=
  (c.history.reverse.dropWhile (· ≠ .inserted (c.keyAt s))).countP (IsInsertion ·)

/-- Until they wrap around, generations are the numbers of the insertions. -/
def Dated (c : NodeCatalog) : Prop :=
  c.insertions < 2 ^ 32 → ∀ s, c.InUse s → (c.entryAt s).generation.toNat = c.birth s

theorem birth_of_history (hhist : c'.history = c.history) (hkey : c'.keyAt s = c.keyAt s) :
    c'.birth s = c.birth s := by
  rw [birth, birth, hhist, hkey]

/-- What does not concern the key of an entry does not change which insertion it is from. -/
theorem birth_of_append {change : CatalogChange} (hhist : c'.history = c.history ++ [change])
    (hkey : c'.keyAt s = c.keyAt s) (hne : change ≠ .inserted (c.keyAt s)) :
    c'.birth s = c.birth s := by
  rw [birth, birth, hhist, hkey, reverse_append, reverse_singleton, singleton_append,
    dropWhile_cons_of_pos (by simpa using hne)]

theorem birth_inserted (hhist : c'.history = c.history ++ [.inserted (c'.keyAt s)]) :
    c'.birth s = c.insertions + 1 := by
  rw [birth, hhist, reverse_append, reverse_singleton, singleton_append,
    dropWhile_cons_of_neg (by simp), countP_cons, countP_reverse]
  simp [insertions]

theorem Dated.change (h : c.Dated) (hnum : c.Numbered) (h' : Invariant hash c')
    (hchange : Change hash c c') : c'.Dated := by
  intro hlt s hs
  rcases hchange with ⟨-, -, hspec⟩ | hspec | ⟨-, hnone, -⟩ | ⟨-, hhist, hinUse, hkey, hgens⟩
  · have hins := insertions_append hspec.history
    simp only [not_isInsertion_evicted, ↓reduceIte, Nat.add_zero] at hins
    obtain ⟨hs, hne⟩ := (hspec.inUse s).1 hs
    have hkey : c'.keyAt s = c.keyAt s := congrArg _ (hspec.entryAt s hne)
    rw [hspec.entryAt s hne, birth_of_append hspec.history hkey (by simp)]
    exact h (hins ▸ hlt) s hs
  · rename_i key now slot
    have hins := insertions_append hspec.history
    simp only [isInsertion_inserted, ↓reduceIte] at hins
    by_cases hsl : s = slot
    · rw [hsl, hspec.entryAt_self, birth_inserted (hspec.key_eq.symm ▸ hspec.history)]
      exact (hnum (by omega)).2 (by omega)
    · have hs' := ((hspec.inUse s).1 hs).resolve_left hsl
      have hkey : c'.keyAt s = c.keyAt s := congrArg _ (hspec.entryAt s hsl)
      -- The new entry has another key.
      have hne : CatalogChange.inserted key ≠ .inserted (c.keyAt s) := fun heq => hsl <| by
        rw [CatalogChange.inserted.injEq, ← hspec.key_eq, ← hkey] at heq
        exact h'.eq_of_keyAt hs ((hspec.inUse slot).2 (.inl rfl)) heq.symm
      rw [hspec.entryAt s hsl, birth_of_append hspec.history hkey hne]
      exact h (by omega) s hs'
  · exact absurd hs (hnone s)
  · have hins : c'.insertions = c.insertions := by rw [insertions, insertions, hhist]
    rw [hgens, birth_of_history hhist (hkey s)]
    exact h (hins ▸ hlt) s ((hinUse s).1 hs)

/-- Until they wrap around, no two entries have the same generation. -/
def Distinct (c : NodeCatalog) : Prop :=
  c.insertions < 2 ^ 32 → ∀ s s', c.InUse s → c.InUse s' →
    (c.entryAt s).generation = (c.entryAt s').generation → s = s'

theorem Distinct.change (h : c.Distinct) (hnum : c.Numbered) (hchange : Change hash c c') :
    c'.Distinct := by
  intro hlt s s' hs hs' hgen
  rcases hchange with ⟨-, -, hspec⟩ | hspec | ⟨-, hnone, -⟩ | ⟨-, hhist, hinUse, -, hgens⟩
  · have hins := insertions_append hspec.history
    simp only [not_isInsertion_evicted, ↓reduceIte, Nat.add_zero] at hins
    obtain ⟨hs, hne⟩ := (hspec.inUse s).1 hs
    obtain ⟨hs', hne'⟩ := (hspec.inUse s').1 hs'
    rw [hspec.entryAt s hne, hspec.entryAt s' hne'] at hgen
    exact h (hins ▸ hlt) s s' hs hs' hgen
  · rename_i slot
    have hins := insertions_append hspec.history
    simp only [isInsertion_inserted, ↓reduceIte] at hins
    have hnew : (c'.entryAt slot).generation.toNat = c.insertions + 1 := by
      rw [hspec.entryAt_self]
      exact (hnum (by omega)).2 (by omega)
    have hold : ∀ s, c'.InUse s → s ≠ slot →
        c.InUse s ∧ (c'.entryAt s).generation = (c.entryAt s).generation ∧
          (c'.entryAt s).generation.toNat ≤ c.insertions := fun s hs hne => by
      have hs := ((hspec.inUse s).1 hs).resolve_left hne
      rw [hspec.entryAt s hne]
      exact ⟨hs, rfl, (hnum (by omega)).1 s hs⟩
    by_cases hsl : s = slot
    · by_cases hsl' : s' = slot
      · rw [hsl, hsl']
      · have hle := (hold s' hs' hsl').2.2
        rw [← hgen, hsl] at hle
        omega
    · obtain ⟨hin, heq, hle⟩ := hold s hs hsl
      by_cases hsl' : s' = slot
      · rw [hgen, hsl'] at hle
        omega
      · obtain ⟨hin', heq', -⟩ := hold s' hs' hsl'
        exact h (by omega) s s' hin hin' (by rw [← heq, ← heq', hgen])
  · exact absurd hs (hnone s)
  · have hins : c'.insertions = c.insertions := by rw [insertions, insertions, hhist]
    rw [hgens, hgens] at hgen
    exact h (hins ▸ hlt) s s' ((hinUse s).1 hs) ((hinUse s').1 hs') hgen

/-- Changes, between catalogues that are consistent. -/
abbrev Passage (hash : CatalogKey → ℕ) : NodeCatalog → NodeCatalog → Prop :=
  Relation.ReflTransGen fun c c' => Change hash c c' ∧ Invariant hash c'

theorem Passage.changes (h : Passage hash c c') : Changes hash c c' :=
  Relation.ReflTransGen.mono (fun _ _ => And.left) _ _ h

theorem Passage.distinct (h : Passage hash c c') (hnum : c.Numbered) (hdist : c.Distinct) :
    c'.Distinct := by
  induction h with
  | refl => exact hdist
  | tail hpre hchange ih =>
    exact ih.change ((show Passage hash c _ from hpre).changes.numbered hnum) hchange.1

theorem Passage.dated (h : Passage hash c c') (hnum : c.Numbered) (hdated : c.Dated) :
    c'.Dated := by
  induction h with
  | refl => exact hdated
  | tail hpre hchange ih =>
    exact ih.change ((show Passage hash c _ from hpre).changes.numbered hnum) hchange.2 hchange.1

/-- What is in the catalogue was there, or has come since. -/
theorem Changes.later (h : Changes hash c c') (hnum : c.Numbered) (hlt : c'.insertions < 2 ^ 32)
    (hs : c'.InUse s) : c.InUse s ∧ c'.ref s = c.ref s ∨
      c.insertions < (c'.entryAt s).generation.toNat := by
  induction h generalizing s with
  | refl => exact .inl ⟨hs, rfl⟩
  | tail hpre hchange ih =>
    rename_i b c'
    have hpre : Changes hash c b := hpre
    have hle := hpre.insertions_le
    have hle' := (show Changes hash b c' from .single hchange).insertions_le
    have hsame : (c'.entryAt s).generation = (b.entryAt s).generation → b.InUse s →
        c.InUse s ∧ c'.ref s = c.ref s ∨ c.insertions < (c'.entryAt s).generation.toNat := by
      intro hgen hs
      rw [ref, hgen]
      exact ih (hle'.trans_lt hlt) hs
    rcases hchange with ⟨-, -, hspec⟩ | hspec | ⟨-, hnone, -⟩ | ⟨-, -, hinUse, -, hgens⟩
    · obtain ⟨hs, hne⟩ := (hspec.inUse s).1 hs
      exact hsame (congrArg _ (hspec.entryAt s hne)) hs
    · rename_i slot
      by_cases hsl : s = slot
      · right
        have hins := insertions_append hspec.history
        simp only [isInsertion_inserted, ↓reduceIte] at hins
        have hnext := (hpre.numbered hnum (by omega)).2 (by omega)
        rw [hsl, hspec.entryAt_self]
        change c.insertions < b.nextGeneration.toNat
        omega
      · exact hsame (congrArg _ (hspec.entryAt s hsl)) (((hspec.inUse s).1 hs).resolve_left hsl)
    · exact absurd hs (hnone s)
    · exact hsame (hgens s) ((hinUse s).1 hs)

/-! ## What calls leave -/

/-- All that is left is as it was. -/
def Shrunk (c c' : NodeCatalog) : Prop :=
  ∀ s, c'.InUse s → c.InUse s ∧ c'.entryAt s = c.entryAt s

theorem Shrunk.refl (c : NodeCatalog) : Shrunk c c := fun _ hs => ⟨hs, rfl⟩

theorem Shrunk.trans (h : Shrunk c c') (h' : Shrunk c' c'') : Shrunk c c'' := fun s hs =>
  ⟨(h s (h' s hs).1).1, (h' s hs).2.trans (h s (h' s hs).1).2⟩

theorem Released.shrunk (h : Released c s c') : Shrunk c c' := fun s' hs' =>
  ⟨((h.inUse s').1 hs').1, h.entryAt s' ((h.inUse s').1 hs').2⟩

/-- What trimming leaves. -/
theorem Invariant.trim_shrunk (h : Invariant hash c) (draw : ℕ → ℕ → ℕ) (left : ℕ) :
    ∃ c', NodeCatalog.trimLoop hash draw left c = some c' ∧ Invariant hash c' ∧ Passage hash c c' ∧
      Shrunk c c' := by
  induction left generalizing c with
  | zero => exact ⟨c, rfl, h, .refl, .refl c⟩
  | succ left ih =>
    rw [NodeCatalog.trimLoop]
    by_cases hover : c.size > c.cap
    · have hpos : 0 < c.size := h.cap.1.trans_lt hover
      obtain ⟨c₁, hevict, h₁, hspec⟩ := h.evict hpos (draw left)
      obtain ⟨c', htrim, h', hchange, hshrunk⟩ := ih h₁
      refine ⟨c', ?_, h', ?_, hspec.shrunk.trans hshrunk⟩
      · rw [if_pos hover, hevict]
        exact htrim
      · exact .head ⟨.released h (h.pickVictim_inUse hpos _) hspec, h₁⟩ hchange
    · exact ⟨c, if_neg hover, h, .refl, .refl c⟩

/-- A new key is entered if there is room for it, once the table is large enough. -/
theorem Invariant.growPlace (h : Invariant hash c) {endpoint : Endpoint}
    (hnew : ∀ s, c.InUse s → c.keyAt s ≠ endpoint.catalogKey)
    (hroom : c.free ≠ [] ∨ c.size < c.cap) (nowMs : ℤ) :
    ∃ t c' s, (if (c.size + 1) * 2 > c.table.length then c.growTable hash else some c) =
        some { c with table := t } ∧
      ({ c with table := t } : NodeCatalog).place hash endpoint.catalogKey nowMs = some (c', s) ∧
      Invariant hash { c with table := t } ∧ Invariant hash c' ∧
      Placed { c with table := t } endpoint.catalogKey nowMs c' s := by
  obtain ⟨t, hgrow, ht, hlen⟩ : ∃ t,
      (if (c.size + 1) * 2 > c.table.length then c.growTable hash else some c) =
        some { c with table := t } ∧ Invariant hash { c with table := t } ∧
          (c.size + 1) * 2 ≤ t.length := by
    split_ifs with hfull
    · exact h.growTable
    · exact ⟨c.table, rfl, h, not_lt.1 hfull⟩
  obtain ⟨c', s, hplace, h', hspec⟩ := ht.place hnew hlen hroom nowMs
  exact ⟨t, c', s, hgrow, hplace, ht, h', hspec⟩

/-- What `upsert` does: nothing, or it enters a new key, in place of another if the catalogue
    is full. -/
theorem Invariant.upsert_cases (h : Invariant hash c) (draw : ℕ → ℕ) (endpoint : Endpoint)
    (nowMs : ℤ) :
    (∃ s, c.upsert hash draw endpoint nowMs = some (c, s, false) ∧ (c.InUse s ∨ s = NoSlot)) ∨
    ∃ c₁ c' s, c.upsert hash draw endpoint nowMs = some (c', s, true) ∧ Invariant hash c' ∧
      Passage hash c c₁ ∧ Change hash c₁ c' ∧ Shrunk c c₁ ∧ c₁.insertions = c.insertions ∧
      Placed c₁ endpoint.catalogKey nowMs c' s := by
  by_cases hex : ∃ s, c.InUse s ∧ c.keyAt s = endpoint.catalogKey
  · obtain ⟨s, hs, hkey⟩ := hex
    exact .inl ⟨s, (h.upsert_present hs hkey draw nowMs).1, .inl hs⟩
  push Not at hex
  by_cases hcap : c.cap ≤ 0
  · exact .inl ⟨NoSlot, h.upsert_refused hex hcap draw nowMs, .inr rfl⟩
  have hgrown {c₀ : NodeCatalog} (t : List ℕ) : Change hash c₀ { c₀ with table := t } :=
    .kept rfl rfl (fun _ => Iff.rfl) (fun _ => rfl) fun _ => rfl
  right
  rw [upsert_of_none (h.index.findIndex_not_mem h.room hex) hcap]
  by_cases hfull : c.size ≥ c.cap
  · -- Another entry makes room; what is left of the catalogue is not the key that is entered.
    have hpos : 0 < c.size := (not_le.1 hcap).trans_le hfull
    obtain ⟨c₀, hevict, h₀, hspec⟩ := h.evict hpos draw
    have hins := insertions_append hspec.history
    simp only [not_isInsertion_evicted, ↓reduceIte, Nat.add_zero] at hins
    have hshrunk := hspec.shrunk
    have hnew : ∀ s, c₀.InUse s → c₀.keyAt s ≠ endpoint.catalogKey := fun s hs hkey =>
      hex s (hshrunk s hs).1 ((congrArg _ (hshrunk s hs).2.symm).trans hkey)
    obtain ⟨t, c', s, hgrow, hplace, ht, h', hplaced⟩ := h₀.growPlace hnew (.inl hspec.free) nowMs
    have hpassage : Passage hash c c₀ :=
      .single ⟨.released h (h.pickVictim_inUse hpos draw) hspec, h₀⟩
    refine ⟨{ c₀ with table := t }, c', s, ?_, h', hpassage.tail ⟨hgrown t, ht⟩, .placed hplaced,
      hshrunk, hins, hplaced⟩
    rw [if_pos hfull, hevict, Option.bind_some, hgrow, Option.bind_some, hplace, Option.map_some]
  · obtain ⟨t, c', s, hgrow, hplace, ht, h', hplaced⟩ :=
      h.growPlace hex (.inr (not_le.1 hfull)) nowMs
    refine ⟨{ c with table := t }, c', s, ?_, h', .single ⟨hgrown t, ht⟩, .placed hplaced,
      .refl c, rfl, hplaced⟩
    rw [if_neg hfull, Option.bind_some, hgrow, Option.bind_some, hplace, Option.map_some]

theorem Invariant.length_evict (h : Invariant hash c) (hpos : 0 < c.size) {draw : ℕ → ℕ}
    (hevict : c.evict hash draw = some c') : c'.entries.length = c.entries.length := by
  have hs := h.pickVictim_inUse hpos draw
  obtain ⟨t, ht, -⟩ := h.index.eraseIndex (h.exists_empty_of_inUse hs) hs
  rw [NodeCatalog.evict, NodeCatalog.release, ht] at hevict
  rw [← Option.some.inj hevict]
  exact length_set

theorem length_place {key : CatalogKey} {now : ℤ} (hfree : c.free ≠ [])
    (hplace : c.place hash key now = some (c', s)) : c'.entries.length = c.entries.length := by
  rw [place, allocate] at hplace
  cases hfree' : c.free with
  | nil => exact absurd hfree' hfree
  | cons s' free =>
    rw [hfree'] at hplace
    simp only [NodeCatalog.insertIndex, Option.map_map, Option.map_eq_some_iff,
      Function.comp_apply, Prod.mk.injEq] at hplace
    obtain ⟨i, -, rfl, -⟩ := hplace
    exact length_set

/-- Entering a new key in a catalogue that is full takes no new slot. -/
theorem Invariant.upsert_full (h : Invariant hash c) {endpoint : Endpoint}
    (hnone : ∀ s, c.InUse s → c.keyAt s ≠ endpoint.catalogKey) (hcap : 0 < c.cap)
    (hfull : c.cap ≤ c.size) (draw : ℕ → ℕ) (nowMs : ℤ) :
    ∃ c' s, c.upsert hash draw endpoint nowMs = some (c', s, true) ∧
      c'.entries.length = c.entries.length ∧ (c'.entryAt s).flags = 0 ∧
      (c'.entryAt s).generation = c.nextGeneration ∧ c'.birth s = c.insertions + 1 ∧
      c'.nextGeneration = if c.nextGeneration + 1 = 0 then 1 else c.nextGeneration + 1 := by
  obtain ⟨c₀, hevict, h₀, hspec⟩ := h.evict (hcap.trans_le hfull) draw
  have hlength := h.length_evict (hcap.trans_le hfull) hevict
  obtain ⟨t, hgrow, h₁, hlen⟩ : ∃ t,
      (if (c₀.size + 1) * 2 > c₀.table.length then c₀.growTable hash else some c₀) =
        some { c₀ with table := t } ∧ Invariant hash { c₀ with table := t } ∧
          (c₀.size + 1) * 2 ≤ t.length := by
    split_ifs with hload
    · exact h₀.growTable
    · exact ⟨c₀.table, rfl, h₀, not_lt.1 hload⟩
  have hnone₁ : ∀ s, NodeCatalog.InUse { c₀ with table := t } s →
      NodeCatalog.keyAt { c₀ with table := t } s ≠ endpoint.catalogKey := fun s hs hkey =>
    hnone s (hspec.shrunk s hs).1 ((congrArg _ (hspec.shrunk s hs).2.symm).trans hkey)
  obtain ⟨c', s, hplace, -, hplaced⟩ := h₁.place hnone₁ hlen (.inl hspec.free) nowMs
  have hinsertions := insertions_append hspec.history
  simp only [not_isInsertion_evicted, ↓reduceIte, Nat.add_zero] at hinsertions
  refine ⟨c', s, ?_,
    (length_place (c := { c₀ with table := t }) hspec.free hplace).trans hlength, ?_, ?_, ?_, ?_⟩
  · rw [upsert_of_none (h.index.findIndex_not_mem h.room hnone) (not_le.2 hcap), if_pos hfull,
      hevict, Option.bind_some, hgrow, Option.bind_some, hplace, Option.map_some]
  · rw [hplaced.entryAt_self]
  · rw [hplaced.entryAt_self]
    exact hspec.nextGeneration
  · have hkey : c'.keyAt s = endpoint.catalogKey := congrArg CatalogEntry.key hplaced.entryAt_self
    rw [birth_inserted (hkey ▸ hplaced.history)]
    exact congrArg (· + 1) hinsertions
  · rw [hplaced.nextGeneration]
    exact congrArg (fun g : UInt32 => if g + 1 = 0 then 1 else g + 1) hspec.nextGeneration

/-- Writing to an entry what is neither its key nor its state. -/
theorem Invariant.edit (h : Invariant hash c) (hs : c.InUse s) {e : CatalogEntry}
    (hkey : e.key = c.keyAt s) (huse : e.inUse) (hstate : e.state = (c.entryAt s).state) :
    Invariant hash (c.setEntry s e) ∧ Written c s e (c.setEntry s e) :=
  h.setEntry hs hkey huse c.counts fun state => by rw [hstate]; omega

/-- Changing the state of an entry. -/
theorem Invariant.setState (h : Invariant hash c) (hs : c.InUse s) (state : CatalogState) :
    Invariant hash (c.setState s state) ∧
      Written c s { c.entryAt s with state } (c.setState s state) := by
  rw [NodeCatalog.setState]
  dsimp only
  split_ifs with hsame
  · exact ⟨h, fun _ => Iff.rfl, fun _ _ => rfl, by rw [← hsame], rfl, rfl, rfl⟩
  · exact h.setEntry hs (e := { c.entryAt s with state }) rfl hs.2
      _ (counts_setState c.counts hsame)

/-- Entries were written to, as `P` allows, and none has come or gone. -/
structure Rewritten (hash : CatalogKey → ℕ) (P : CatalogEntry → CatalogEntry → Prop)
    (c c' : NodeCatalog) : Prop where
  invariant : Invariant hash c'
  inUse : ∀ s, c'.InUse s ↔ c.InUse s
  entry : ∀ s, c.InUse s → P (c.entryAt s) (c'.entryAt s)
  keyAt : ∀ s, c'.keyAt s = c.keyAt s
  generation : ∀ s, (c'.entryAt s).generation = (c.entryAt s).generation
  nextGeneration : c'.nextGeneration = c.nextGeneration
  history : c'.history = c.history

variable {P : CatalogEntry → CatalogEntry → Prop}

theorem Rewritten.refl (h : Invariant hash c) (hP : ∀ e, P e e) : Rewritten hash P c c :=
  ⟨h, fun _ => Iff.rfl, fun _ _ => hP _, fun _ => rfl, fun _ => rfl, rfl, rfl⟩

theorem Rewritten.trans (h : Rewritten hash P c c') (h' : Rewritten hash P c' c'')
    (hP : ∀ e e' e'', P e e' → P e' e'' → P e e'') : Rewritten hash P c c'' where
  invariant := h'.invariant
  inUse s := (h'.inUse s).trans (h.inUse s)
  entry s hs := hP _ _ _ (h.entry s hs) (h'.entry s ((h.inUse s).2 hs))
  keyAt s := (h'.keyAt s).trans (h.keyAt s)
  generation s := (h'.generation s).trans (h.generation s)
  nextGeneration := h'.nextGeneration.trans h.nextGeneration
  history := h'.history.trans h.history

theorem Rewritten.mono {Q : CatalogEntry → CatalogEntry → Prop} (h : Rewritten hash P c c')
    (hPQ : ∀ e e', P e e' → Q e e') : Rewritten hash Q c c' :=
  ⟨h.invariant, h.inUse, fun s hs => hPQ _ _ (h.entry s hs), h.keyAt, h.generation,
    h.nextGeneration, h.history⟩

theorem Rewritten.change (h : Rewritten hash P c c') : Change hash c c' :=
  .kept h.nextGeneration h.history h.inUse h.keyAt h.generation

theorem Rewritten.passage (h : Rewritten hash P c c') : Passage hash c c' :=
  .single ⟨h.change, h.invariant⟩

theorem Rewritten.insertions (h : Rewritten hash P c c') : c'.insertions = c.insertions := by
  rw [NodeCatalog.insertions, NodeCatalog.insertions, h.history]

theorem Rewritten.birth (h : Rewritten hash P c c') (s : ℕ) : c'.birth s = c.birth s :=
  birth_of_history h.history (h.keyAt s)

theorem Rewritten.ref (h : Rewritten hash P c c') (s : ℕ) : c'.ref s = c.ref s := by
  rw [NodeCatalog.ref, NodeCatalog.ref, h.generation]

theorem Rewritten.isCurrent (h : Rewritten hash P c c') (r : CatalogRef) :
    c'.isCurrent r = c.isCurrent r := by
  rw [Bool.eq_iff_iff, isCurrent_iff, isCurrent_iff, h.inUse, h.generation]

/-- Of a write to one entry. -/
theorem Written.rewritten {e : CatalogEntry} (hspec : Written c s e c') (h' : Invariant hash c')
    (hgen : e.generation = (c.entryAt s).generation) (hrefl : ∀ e, P e e)
    (hP : P (c.entryAt s) e) : Rewritten hash P c c' where
  invariant := h'
  inUse := hspec.inUse
  entry s' _ := by
    by_cases hs' : s' = s
    · rw [hs', hspec.entryAt_self]
      exact hP
    · rw [hspec.entryAt s' hs']
      exact hrefl _
  keyAt := hspec.keyAt
  generation s' := by
    by_cases hs' : s' = s
    · rw [hs', hspec.entryAt_self, hgen]
    · rw [hspec.entryAt s' hs']
  nextGeneration := hspec.nextGeneration
  history := hspec.history

end Dht.NodeCatalog
