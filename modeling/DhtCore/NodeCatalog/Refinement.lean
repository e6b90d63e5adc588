import DhtCore.NodeCatalog.Invariant

/-!
# The catalogue as a finite map

What the catalogue stands for is a finite map from keys to entries, its `Book`.
`Book.Step` says what a call may do to it: add an entry, if necessary in place
of another one, change the state or the other fields of one, drop some, or all.

* Every call ends, keeps the invariant of the catalogue and does to its book
  what it may (`Invariant.apply`), so that the catalogue refines the map
  (`refines_book`).
* A call is made of small changes (`Change`): one entry goes, one comes, all go,
  or none. A reference follows an entry through them (`Tracked`), as long as
  generations do not wrap around (`Numbered`).
-/

namespace Dht.NodeCatalog

open List LinearProbing

variable {hash : CatalogKey → ℕ} {c c' : NodeCatalog} {s : ℕ} {key : CatalogKey}

/-- A finite map of entries. -/
abbrev Book := CatalogKey → Option CatalogEntry

/-- The number of entries in a book. -/
noncomputable def Book.size (b : Book) : ℕ := {key | b key ≠ none}.ncard

/-- What a call may do to a book that is to hold `cap` entries at most, where `keyAt` is the key of
    the entry in a slot. -/
inductive Book.Step (cap : ℤ) (keyAt : ℕ → CatalogKey) (b : Book) : Op → Book → Prop
  | present {draw endpoint nowMs} (h : b endpoint.catalogKey ≠ none) :
    Step cap keyAt b (.upsert draw endpoint nowMs) b
  | refused {draw endpoint nowMs} (h : b endpoint.catalogKey = none) (hcap : cap = 0) :
    Step cap keyAt b (.upsert draw endpoint nowMs) b
  | added {draw endpoint nowMs} {e : CatalogEntry} (h : b endpoint.catalogKey = none)
    (hkey : e.key = endpoint.catalogKey) (hstate : e.state = .New) (hsize : b.size < cap) :
    Step cap keyAt b (.upsert draw endpoint nowMs)
      (Function.update b endpoint.catalogKey (some e))
  | replaced {draw endpoint nowMs} {e : CatalogEntry} {victim : CatalogKey}
    (h : b endpoint.catalogKey = none) (hkey : e.key = endpoint.catalogKey)
      (hstate : e.state = .New)
    (hcap : 0 < cap) (hsize : cap ≤ b.size) (hvictim : b victim ≠ none) :
    Step cap keyAt b (.upsert draw endpoint nowMs)
      (Function.update (Function.update b victim none) endpoint.catalogKey (some e))
  | state {slot state} {e : CatalogEntry} (h : b (keyAt slot) = some e) :
    Step cap keyAt b (.setState slot state)
      (Function.update b (keyAt slot) (some { e with state }))
  | edited {slot fields} {e : CatalogEntry} (h : b (keyAt slot) = some e) :
    Step cap keyAt b (.edit slot fields) (Function.update b (keyAt slot) (some (e.edited fields)))
  | setCap {cap'} : Step cap keyAt b (.setCap cap') b
  | trimmed {draw} {maxEvictions : ℤ} {b' : Book} (h : ∀ key, b' key = none ∨ b' key = b key)
    (hsize : (b'.size : ℤ) = b.size - min (max 0 maxEvictions) (max 0 (b.size - cap))) :
    Step cap keyAt b (.trim draw maxEvictions) b'
  | cleared {nowMs} : Step cap keyAt b (.clear nowMs) fun _ => none

/-- The book of a catalogue. -/
def book (c : NodeCatalog) : Book := fun key => (c.slots.find? (c.keyAt · = key)).map c.entryAt

theorem book_ne_none_iff : c.book key ≠ none ↔ ∃ s, c.InUse s ∧ c.keyAt s = key := by
  rw [book, Ne, Option.map_eq_none_iff, List.find?_eq_none]
  simp

theorem book_eq_none (h : ∀ s, c.InUse s → c.keyAt s ≠ key) : c.book key = none := by
  by_contra hne
  obtain ⟨s, hs, hkey⟩ := book_ne_none_iff.1 hne
  exact h s hs hkey

/-- The book has the entry of a slot in use under its key. -/
theorem Invariant.book_keyAt (h : Invariant hash c) (hs : c.InUse s) :
    c.book (c.keyAt s) = some (c.entryAt s) := by
  obtain ⟨s', hfind⟩ := Option.isSome_iff_exists.1
      (List.find?_isSome (p := (c.keyAt · = c.keyAt s)).2
    ⟨s, mem_slots.2 hs, decide_eq_true rfl⟩)
  have hkey := List.find?_some hfind
  have heq := h.eq_of_keyAt (mem_slots.1 (List.mem_of_find?_eq_some hfind)) hs
      (of_decide_eq_true hkey)
  rw [book, hfind, Option.map_some, heq]

/-- Two catalogues have the same entry under a key if the slots that have it are
    in use in both, with the same entry. -/
theorem Invariant.book_congr (h : Invariant hash c) (h' : Invariant hash c')
    (hold : ∀ s, c.InUse s → c.keyAt s = key → c'.InUse s ∧ c'.entryAt s = c.entryAt s)
    (hnew : ∀ s, c'.InUse s → c'.keyAt s = key → c.InUse s ∧ c'.entryAt s = c.entryAt s) :
    c'.book key = c.book key := by
  by_cases hex : ∃ s, c.InUse s ∧ c.keyAt s = key
  · obtain ⟨s, hs, hkey⟩ := hex
    obtain ⟨hs', he⟩ := hold s hs hkey
    have hkey' : c'.keyAt s = key := by rw [keyAt, he]; exact hkey
    rw [← hkey, h.book_keyAt hs, hkey, ← hkey', h'.book_keyAt hs', he]
  · push Not at hex
    rw [book_eq_none hex, book_eq_none fun s hs hkey => ?_]
    obtain ⟨hs', he⟩ := hnew s hs hkey
    exact hex s hs' (by rw [keyAt, ← he]; exact hkey)

theorem Invariant.size_book (h : Invariant hash c) : (c.book.size : ℤ) = c.size := by
  have hset : {key | c.book key ≠ none} = ((c.slots.map c.keyAt).toFinset : Set CatalogKey) := by
    ext key
    simp [book_ne_none_iff]
  have hnodup : (c.slots.map c.keyAt).Nodup := (nodup_slots c).map_on fun s hs s' hs' hkey =>
    h.eq_of_keyAt (mem_slots.1 hs) (mem_slots.1 hs') hkey
  rw [Book.size, hset, Set.ncard_coe_finset, List.toFinset_card_of_nodup hnodup,
    List.length_map, h.size]

theorem Released.book (hspec : Released c s c') (h : Invariant hash c) (h' : Invariant hash c')
    (hs : c.InUse s) : c'.book = Function.update c.book (c.keyAt s) none := by
  funext key
  by_cases hkey : key = c.keyAt s
  · subst hkey
    rw [Function.update_self]
    refine book_eq_none fun s' hs' heq => ?_
    obtain ⟨hs'', hne⟩ := (hspec.inUse s').1 hs'
    rw [keyAt, hspec.entryAt s' hne] at heq
    exact hne (h.eq_of_keyAt hs'' hs heq)
  · rw [Function.update_of_ne hkey]
    refine h.book_congr h' (fun s' hs' hkey' => ?_) fun s' hs' _ => ?_
    · have hne : s' ≠ s := by
        rintro rfl
        exact hkey hkey'.symm
      exact ⟨(hspec.inUse s').2 ⟨hs', hne⟩, hspec.entryAt s' hne⟩
    · obtain ⟨hs'', hne⟩ := (hspec.inUse s').1 hs'
      exact ⟨hs'', hspec.entryAt s' hne⟩

theorem Placed.key_eq {nowMs : ℤ} (hspec : Placed c key nowMs c' s) : c'.keyAt s = key := by
  rw [keyAt, hspec.entryAt_self]
  rfl

theorem Placed.book {nowMs : ℤ} (hspec : Placed c key nowMs c' s) (h : Invariant hash c)
    (h' : Invariant hash c') : c'.book = Function.update c.book key (some (c'.entryAt s)) := by
  have hs := (hspec.inUse s).2 (.inl rfl)
  funext k
  by_cases hk : k = key
  · subst hk
    rw [Function.update_self, ← h'.book_keyAt hs, hspec.key_eq]
  · rw [Function.update_of_ne hk]
    refine h.book_congr h' (fun s' hs' _ => ?_) fun s' hs' hk' => ?_
    · have hne : s' ≠ s := by
        rintro rfl
        exact hspec.new hs'
      exact ⟨(hspec.inUse s').2 (.inr hs'), hspec.entryAt s' hne⟩
    · have hne : s' ≠ s := by
        rintro rfl
        exact hk (hk'.symm.trans hspec.key_eq)
      exact ⟨((hspec.inUse s').1 hs').resolve_left hne, hspec.entryAt s' hne⟩

theorem Written.keyAt {e : CatalogEntry} (hspec : Written c s e c') (s' : ℕ) :
    c'.keyAt s' = c.keyAt s' := by
  by_cases hs' : s' = s
  · rw [hs', NodeCatalog.keyAt, hspec.entryAt_self, hspec.key]
  · rw [NodeCatalog.keyAt, hspec.entryAt s' hs']
    rfl

theorem Written.book {e : CatalogEntry} (hspec : Written c s e c') (h : Invariant hash c)
    (h' : Invariant hash c') (hs : c.InUse s) :
    c'.book = Function.update c.book (c.keyAt s) (some e) := by
  funext k
  by_cases hk : k = c.keyAt s
  · subst hk
    rw [Function.update_self, ← hspec.keyAt, h'.book_keyAt ((hspec.inUse s).2 hs),
      hspec.entryAt_self]
  · rw [Function.update_of_ne hk]
    have hne : ∀ s', c.keyAt s' = k → s' ≠ s := by
      rintro s' rfl rfl
      exact hk rfl
    refine h.book_congr h'
      (fun s' hs' hk' => ⟨(hspec.inUse s').2 hs', hspec.entryAt s' (hne s' hk')⟩)
      fun s' hs' hk' => ⟨(hspec.inUse s').1 hs', hspec.entryAt s' (hne s' ?_)⟩
    rw [← hspec.keyAt, hk']

/-! ## Finding -/

/-- What `find` yields: the slot of the key's entry, if there is one. -/
theorem Invariant.find_eq (h : Invariant hash c) (endpoint : Endpoint) :
    ∃ s, c.find hash endpoint = some s ∧
      (Present c.history endpoint.catalogKey → c.InUse s ∧ c.keyAt s = endpoint.catalogKey) ∧
      (¬Present c.history endpoint.catalogKey → s = NoSlot) := by
  rw [h.history, find]
  rcases h.findIndex_eq endpoint.catalogKey with
    ⟨i, s, hfind, hi, -, hs, hkey⟩ | ⟨hfind, hnone⟩
  · rw [hfind]
    exact ⟨c.slotAt i, rfl, fun _ => hi ▸ ⟨hs, hkey⟩, fun hn => absurd ⟨s, hs, hkey⟩ hn⟩
  · rw [hfind]
    exact ⟨NoSlot, rfl, fun ⟨s, hs, hkey⟩ => absurd hkey (hnone s hs), fun _ => rfl⟩

/-! ## The changes a call is made of -/

/-- A small change of the catalogue: an entry goes or comes, all go, or none. -/
inductive Change (hash : CatalogKey → ℕ) (c c' : NodeCatalog) : Prop
  | released {slot} (h : Invariant hash c) (hs : c.InUse slot) (hspec : Released c slot c')
  | placed {k nowMs slot} (hspec : Placed c k nowMs c' slot)
  | cleared (hgen : c'.nextGeneration = c.nextGeneration) (hnone : ∀ s, ¬c'.InUse s)
    (hhist : c'.history = c.history ++ [.cleared])
  | kept (hgen : c'.nextGeneration = c.nextGeneration) (hhist : c'.history = c.history)
    (hinUse : ∀ s, c'.InUse s ↔ c.InUse s) (hkey : ∀ s, c'.keyAt s = c.keyAt s)
    (hgens : ∀ s, (c'.entryAt s).generation = (c.entryAt s).generation)

theorem Written.kept {e : CatalogEntry} (hspec : Written c s e c')
    (hgen : e.generation = (c.entryAt s).generation) : Change hash c c' := by
  refine .kept hspec.nextGeneration hspec.history hspec.inUse hspec.keyAt fun s' => ?_
  by_cases hs' : s' = s
  · rw [hs', hspec.entryAt_self, hgen]
  · rw [hspec.entryAt s' hs']

/-- Many small changes. -/
abbrev Changes (hash : CatalogKey → ℕ) : NodeCatalog → NodeCatalog → Prop :=
  Relation.ReflTransGen (Change hash)

/-- What evicting an entry leaves. -/
theorem Invariant.evict_spec (h : Invariant hash c) (hsize : 0 < c.size) (draw : ℕ → ℕ) :
    ∃ c', c.evict hash draw = some c' ∧ Invariant hash c' ∧ Changes hash c c' ∧
      c'.size = c.size - 1 ∧ c'.cap = c.cap ∧ c'.free ≠ [] ∧
      c.book (c.keyAt (c.pickVictim draw)) ≠ none ∧
      c'.book = Function.update c.book (c.keyAt (c.pickVictim draw)) none ∧
      ∀ s, c'.InUse s → c.InUse s ∧ c'.keyAt s = c.keyAt s := by
  obtain ⟨c', hevict, h', hspec⟩ := h.evict hsize draw
  have hs := h.pickVictim_inUse hsize draw
  refine ⟨c', hevict, h', .single (.released h hs hspec), hspec.size, hspec.cap, hspec.free,
    book_ne_none_iff.2 ⟨_, hs, rfl⟩, hspec.book h h' hs, fun s hs' => ?_⟩
  obtain ⟨hs', hne⟩ := (hspec.inUse s).1 hs'
  exact ⟨hs', by rw [keyAt, hspec.entryAt s hne]; rfl⟩

/-- Entering a new key, making room in the table first if necessary. -/
theorem Invariant.enter (h : Invariant hash c) (hkey : ∀ s, c.InUse s → c.keyAt s ≠ key)
    (hcap : c.free ≠ [] ∨ c.size < c.cap) (nowMs : ℤ) :
    ∃ c₁ c' s, (if (c.size + 1) * 2 > c.table.length then c.growTable hash else some c) = some c₁ ∧
      c₁.place hash key nowMs = some (c', s) ∧ Invariant hash c' ∧ Changes hash c c' ∧
      c'.cap = c.cap ∧ c'.InUse s ∧ (c'.entryAt s).key = key ∧ (c'.entryAt s).state = .New ∧
      c'.book = Function.update c.book key (some (c'.entryAt s)) := by
  obtain ⟨t, hgrow, h₁, hroom⟩ : ∃ t,
      (if (c.size + 1) * 2 > c.table.length then c.growTable hash else some c) =
        some { c with table := t } ∧ Invariant hash { c with table := t } ∧
          (c.size + 1) * 2 ≤ t.length := by
    split_ifs with hfull
    · exact h.growTable
    · exact ⟨c.table, rfl, h, not_lt.1 hfull⟩
  obtain ⟨c', s, hplace, h', hspec⟩ := h₁.place hkey hroom hcap nowMs
  have hkept : Change hash c { c with table := t } :=
    .kept rfl rfl (fun _ => Iff.rfl) (fun _ => rfl) fun _ => rfl
  refine ⟨_, c', s, hgrow, hplace, h', .tail (.single hkept) (.placed hspec), hspec.cap,
    (hspec.inUse s).2 (.inl rfl), hspec.key_eq, by rw [hspec.entryAt_self], ?_⟩
  exact hspec.book h₁ h'

theorem upsert_of_none {endpoint : Endpoint}
    (hfind : c.findIndex hash endpoint.catalogKey = some none)
    (hcap : ¬c.cap ≤ 0) (draw : ℕ → ℕ) (nowMs : ℤ) :
    c.upsert hash draw endpoint nowMs =
      (if c.size ≥ c.cap then c.evict hash draw else some c).bind fun c =>
        (if (c.size + 1) * 2 > c.table.length then c.growTable hash else some c).bind fun c =>
          (c.place hash endpoint.catalogKey nowMs).map fun p => (p.1, p.2, true) := by
  rw [upsert, hfind]
  refine (if_neg hcap).trans (congrArg _ (funext fun c₁ => congrArg _ (funext fun c₂ => ?_)))
  cases c₂.place hash endpoint.catalogKey nowMs <;> rfl

/-- What `upsert` does with a new key, in a catalogue that may hold entries. -/
theorem Invariant.upsert_new (h : Invariant hash c) {endpoint : Endpoint}
    (hnone : ∀ s, c.InUse s → c.keyAt s ≠ endpoint.catalogKey) (hcap : 0 < c.cap) (draw : ℕ → ℕ)
    (nowMs : ℤ) :
    ∃ c' s, c.upsert hash draw endpoint nowMs = some (c', s, true) ∧ Invariant hash c' ∧
      Changes hash c c' ∧ c'.cap = c.cap ∧ c'.InUse s ∧
      (c'.entryAt s).key = endpoint.catalogKey ∧ (c'.entryAt s).state = .New ∧
      (c.size < c.cap → c'.book =
        Function.update c.book endpoint.catalogKey (some (c'.entryAt s))) ∧
      (c.cap ≤ c.size → ∃ victim, c.book victim ≠ none ∧ c'.book =
        Function.update (Function.update c.book victim none) endpoint.catalogKey
          (some (c'.entryAt s))) := by
  rw [upsert_of_none (h.index.findIndex_not_mem h.room hnone) (not_le.2 hcap)]
  by_cases hfull : c.size ≥ c.cap
  · obtain ⟨c₀, hevict, h₀, hchange₀, -, hcap₀, hfree₀, hvictim, hbook₀, hinUse₀⟩ :=
      h.evict_spec (lt_of_lt_of_le hcap hfull) draw
    obtain ⟨c₁, c', s, hgrow, hplace, h', hchange, hcap', hs, hkey, hstate, hbook⟩ := h₀.enter
      (fun s hs => (hinUse₀ s hs).2 ▸ hnone s (hinUse₀ s hs).1) (.inl hfree₀) nowMs
    rw [if_pos hfull, hevict, Option.bind_some, hgrow, Option.bind_some, hplace]
    exact ⟨c', s, rfl, h', hchange₀.trans hchange, hcap'.trans hcap₀, hs, hkey, hstate,
      fun hlt => absurd hlt (not_lt.2 hfull), fun _ => ⟨_, hvictim, hbook₀ ▸ hbook⟩⟩
  · obtain ⟨c₁, c', s, hgrow, hplace, h', hchange, hcap', hs, hkey, hstate, hbook⟩ :=
      h.enter hnone (.inr (not_le.1 hfull)) nowMs
    rw [if_neg hfull, Option.bind_some, hgrow, Option.bind_some, hplace]
    exact ⟨c', s, rfl, h', hchange, hcap', hs, hkey, hstate, fun _ => hbook,
      fun hle => absurd hle hfull⟩

/-- What `upsert` does with a key that is present: nothing. -/
theorem Invariant.upsert_present (h : Invariant hash c) {endpoint : Endpoint} (hs : c.InUse s)
    (hkey : c.keyAt s = endpoint.catalogKey) (draw : ℕ → ℕ) (nowMs : ℤ) :
    c.upsert hash draw endpoint nowMs = some (c, s, false) ∧ c.find hash endpoint = some s := by
  obtain ⟨i, -, hfind, his⟩ := h.index.findIndex_mem hs
  rw [hkey] at hfind
  rw [upsert, find, hfind]
  simp [(tab_eq_some.1 his).1]

/-- What `upsert` does with a new key, in a catalogue that may hold nothing: nothing. -/
theorem Invariant.upsert_refused (h : Invariant hash c) {endpoint : Endpoint}
    (hnone : ∀ s, c.InUse s → c.keyAt s ≠ endpoint.catalogKey) (hcap : c.cap ≤ 0) (draw : ℕ → ℕ)
    (nowMs : ℤ) : c.upsert hash draw endpoint nowMs = some (c, NoSlot, false) := by
  rw [upsert, h.index.findIndex_not_mem h.room hnone]
  simp [hcap]

/-- Trimming evicts as many entries as it may and has to. -/
theorem Invariant.trimLoop (draw : ℕ → ℕ → ℕ) : ∀ (left : ℕ) {c : NodeCatalog}, Invariant hash c →
    ∃ c', trimLoop hash draw left c = some c' ∧ Invariant hash c' ∧ Changes hash c c' ∧
      (∀ key, c'.book key = none ∨ c'.book key = c.book key) ∧
      c'.size = c.size - min (left : ℤ) (max 0 (c.size - c.cap))
  | 0, c, h => ⟨c, rfl, h, .refl, fun _ => .inr rfl, by simp⟩
  | left + 1, c, h => by
    rw [NodeCatalog.trimLoop]
    have hcap := h.cap.1
    split_ifs with hover
    · obtain ⟨c₁, hevict, h₁, hchange₁, hsize₁, hcap₁, -, -, hbook₁, -⟩ :=
        h.evict_spec (by omega) (draw left)
      obtain ⟨c', htrim, h', hchange, hbook, hsize⟩ := Invariant.trimLoop draw left h₁
      rw [hevict, Option.bind_some]
      refine ⟨c', htrim, h', hchange₁.trans hchange, fun key => ?_, ?_⟩
      · -- The rest of the loop only drops more keys.
        refine (hbook key).imp_right id |>.elim .inl fun heq => ?_
        by_cases hkey : key = c.keyAt (c.pickVictim (draw left))
        · exact .inl (by rw [heq, hbook₁, hkey, Function.update_self])
        · exact .inr (by rw [heq, hbook₁, Function.update_of_ne hkey])
      · rw [hsize, hsize₁, hcap₁]
        push_cast
        omega
    · exact ⟨c, rfl, h, .refl, fun _ => .inr rfl, by omega⟩

theorem counts_setState (counts : CatalogState → ℤ) {old new : CatalogState} (hne : old ≠ new)
    (state : CatalogState) :
    Function.update (Function.update counts old (counts old - 1)) new
        (Function.update counts old (counts old - 1) new + 1) state =
      counts state + ((if new = state then 1 else 0) - if old = state then 1 else 0) := by
  rw [Function.update_of_ne (Ne.symm hne)]
  by_cases hnew : new = state
  · subst hnew
    rw [Function.update_self, if_pos rfl, if_neg hne]
    omega
  · rw [Function.update_of_ne (Ne.symm hnew), if_neg hnew]
    by_cases hold : old = state
    · subst hold
      rw [Function.update_self, if_pos rfl]
      omega
    · rw [Function.update_of_ne (Ne.symm hold), if_neg hold]
      omega

/-- Every call ends, keeps the invariant, and does to the book what it may. -/
theorem Invariant.apply (h : Invariant hash c) (op : Op) (hlegal : c.Legal op) :
    ∃ c', c.apply hash op = some c' ∧ Invariant hash c' ∧ Changes hash c c' ∧
      Book.Step c.cap c.keyAt c.book op c'.book := by
  have hsize := h.size_book
  cases op with
  | upsert draw endpoint nowMs =>
    -- A key that is there stays as it is.
    by_cases hex : ∃ s, c.InUse s ∧ c.keyAt s = endpoint.catalogKey
    · obtain ⟨s, hs, hkey⟩ := hex
      refine ⟨c, ?_, h, .refl, .present (book_ne_none_iff.2 ⟨s, hs, hkey⟩)⟩
      rw [NodeCatalog.apply, (h.upsert_present hs hkey draw nowMs).1]
      rfl
    · push Not at hex
      have hnone := book_eq_none hex
      -- With no room at all nothing is entered; else it is added, or another one goes for it.
      by_cases hcap : c.cap ≤ 0
      · refine ⟨c, ?_, h, .refl, .refused hnone (le_antisymm hcap h.cap.1)⟩
        rw [NodeCatalog.apply, h.upsert_refused hex hcap draw nowMs]
        rfl
      · obtain ⟨c', s, hup, h', hchange, -, -, hkey, hstate, hadd, hrepl⟩ :=
          h.upsert_new hex (not_le.1 hcap) draw nowMs
        refine ⟨c', by rw [NodeCatalog.apply, hup]; rfl, h', hchange, ?_⟩
        rcases lt_or_ge c.size c.cap with hlt | hge
        · rw [hadd hlt]
          exact .added hnone hkey hstate (hsize ▸ hlt)
        · obtain ⟨victim, hvictim, hbook⟩ := hrepl hge
          rw [hbook]
          exact .replaced hnone hkey hstate (not_le.1 hcap) (hsize ▸ hge) hvictim
  | setState slot state =>
    have hbook := h.book_keyAt hlegal
    rw [NodeCatalog.apply, setState]
    dsimp only
    split_ifs with hsame
    · -- Setting the state it has already changes nothing.
      have hstep : Book.Step c.cap c.keyAt c.book (.setState slot state) _ := .state hbook
      rw [show ({ c.entryAt slot with state } : CatalogEntry) = c.entryAt slot by rw [← hsame],
        ← hbook, Function.update_eq_self] at hstep
      exact ⟨c, rfl, h, .refl, hstep⟩
    · obtain ⟨h', hspec⟩ := h.setEntry hlegal (e := { c.entryAt slot with state }) rfl hlegal.2
        (Function.update (Function.update c.counts (c.entryAt slot).state
          (c.counts (c.entryAt slot).state - 1)) state (Function.update c.counts
            (c.entryAt slot).state (c.counts (c.entryAt slot).state - 1) state + 1))
        (counts_setState (c.counts) hsame)
      refine ⟨_, rfl, h', .single (hspec.kept rfl), ?_⟩
      rw [hspec.book h h' hlegal]
      exact .state hbook
  | edit slot fields =>
    obtain ⟨h', hspec⟩ := h.setEntry hlegal (e := (c.entryAt slot).edited fields) rfl hlegal.2
      c.counts fun state => by
        rw [show ((c.entryAt slot).edited fields).state = (c.entryAt slot).state from rfl]
        omega
    refine ⟨_, rfl, h', .single (hspec.kept rfl), ?_⟩
    rw [show (c.setEntry slot ((c.entryAt slot).edited fields)).book = _ from
      hspec.book h h' hlegal]
    exact .edited (h.book_keyAt hlegal)
  | setCap cap =>
    refine ⟨_, rfl, ⟨h.index.congr rfl fun _ _ => rfl, h.load, h.size, h.counts,
      h.free_nodup, h.free, clampCap_bounds cap, h.length, h.history⟩, .single ?_, .setCap⟩
    exact .kept rfl rfl (fun _ => Iff.rfl) (fun _ => rfl) fun _ => rfl
  | trim draw maxEvictions =>
    obtain ⟨c', htrim, h', hchange, hbook, hsize'⟩ := h.trimLoop draw maxEvictions.toNat
    refine ⟨c', htrim, h', hchange, .trimmed hbook ?_⟩
    rw [h'.size_book, hsize, hsize']
    omega
  | clear nowMs =>
    have hnone : ∀ s, ¬(c.clear nowMs).InUse s := fun s hs =>
      absurd hs.1 (Nat.not_lt_zero s)
    refine ⟨_, rfl, h.clear nowMs, .single (.cleared rfl hnone rfl), ?_⟩
    rw [show (c.clear nowMs).book = fun _ => none from
      funext fun key => book_eq_none fun s hs => absurd hs (hnone s)]
    exact .cleared

/-! ## References -/

theorem insertions_append {change : CatalogChange} (h : c'.history = c.history ++ [change]) :
    c'.insertions = c.insertions + if IsInsertion change then 1 else 0 := by
  rw [insertions, insertions, h, List.countP_append, List.countP_singleton]
  simp only [decide_eq_true_eq]

@[simp]
theorem isInsertion_inserted (key : CatalogKey) : IsInsertion (.inserted key) := ⟨key, rfl⟩

@[simp]
theorem not_isInsertion_evicted (key : CatalogKey) : ¬IsInsertion (.evicted key) := by
  simp [IsInsertion]

@[simp]
theorem not_isInsertion_cleared : ¬IsInsertion .cleared := by
  simp [IsInsertion]

/-- Until they wrap around, generations number the insertions. -/
def Numbered (c : NodeCatalog) : Prop :=
  c.insertions < 2 ^ 32 →
    (∀ s, c.InUse s → (c.entryAt s).generation.toNat ≤ c.insertions) ∧
    (c.insertions + 1 < 2 ^ 32 → c.nextGeneration.toNat = c.insertions + 1)

theorem Numbered.change (h : c.Numbered) (hchange : Change hash c c') : c'.Numbered := by
  intro hlt
  rcases hchange with ⟨-, -, hspec⟩ | hspec | ⟨hgen, hnone, hhist⟩ | ⟨hgen, hhist, hinUse, -, hgens⟩
  · have hins := insertions_append hspec.history
    simp only [not_isInsertion_evicted, ↓reduceIte, Nat.add_zero] at hins
    rw [hins] at hlt ⊢
    refine ⟨fun s hs => ?_, fun hnext => hspec.nextGeneration ▸ (h hlt).2 hnext⟩
    obtain ⟨hs, hne⟩ := (hspec.inUse s).1 hs
    rw [hspec.entryAt s hne]
    exact (h hlt).1 s hs
  · -- The new entry takes the next generation; the others have earlier ones.
    rename_i slot
    have hins := insertions_append hspec.history
    simp only [isInsertion_inserted, ↓reduceIte] at hins
    rw [hins] at hlt ⊢
    obtain ⟨hold, hnext⟩ := h (by omega)
    have hgen := hnext hlt
    refine ⟨fun s hs => ?_, fun hnext' => ?_⟩
    · by_cases hsl : s = slot
      · rw [hsl, hspec.entryAt_self]
        exact hgen.le
      · rw [hspec.entryAt s hsl]
        exact (hold s (((hspec.inUse s).1 hs).resolve_left hsl)).trans (Nat.le_succ _)
    · have hadd : (c.nextGeneration + 1).toNat = c.insertions + 1 + 1 := by
        rw [UInt32.toNat_add, hgen]
        exact Nat.mod_eq_of_lt hnext'
      -- The generation `0` is skipped, which is never reached here.
      rw [hspec.nextGeneration, if_neg, hadd]
      intro hzero
      rw [hzero] at hadd
      exact absurd hadd (by simp)
  · have hins := insertions_append hhist
    simp only [not_isInsertion_cleared, ↓reduceIte, Nat.add_zero] at hins
    rw [hins] at hlt ⊢
    exact ⟨fun s hs => absurd hs (hnone s), fun hnext => hgen ▸ (h hlt).2 hnext⟩
  · have hins : c'.insertions = c.insertions := by rw [insertions, insertions, hhist]
    rw [hins] at hlt ⊢
    refine ⟨fun s hs => ?_, fun hnext => hgen ▸ (h hlt).2 hnext⟩
    rw [hgens]
    exact (h hlt).1 s ((hinUse s).1 hs)

theorem isCurrent_iff {ref : CatalogRef} :
    c.isCurrent ref ↔ c.InUse ref.slot ∧ (c.entryAt ref.slot).generation = ref.generation := by
  simp [isCurrent, InUse]

/-- A reference to the entry in the slot `s` of `c₀` is current in `c` exactly if
    that entry has not gone since. -/
def Tracked (c₀ : NodeCatalog) (s : ℕ) (c : NodeCatalog) : Prop :=
  ∃ since, c.history = c₀.history ++ since ∧
    (c.isCurrent (c₀.ref s) ↔ ∀ change ∈ since, change ≠ .cleared ∧
    change ≠ .evicted (c₀.keyAt s)) ∧
    (c.isCurrent (c₀.ref s) → c.keyAt s = c₀.keyAt s)

theorem tracked_self {c₀ : NodeCatalog} (hs : c₀.InUse s) : Tracked c₀ s c₀ :=
  ⟨[], by simp, by simp [isCurrent_iff, ref, hs], fun _ => rfl⟩

theorem Tracked.insertions_le {c₀ : NodeCatalog} (h : Tracked c₀ s c) :
    c₀.insertions ≤ c.insertions := by
  obtain ⟨since, hhist, -⟩ := h
  rw [insertions, insertions, hhist, List.countP_append]
  exact Nat.le_add_right _ _

theorem Tracked.change {c₀ : NodeCatalog} (h : Tracked c₀ s c) (hs : c₀.InUse s) (h₀ : c₀.Numbered)
    (hnum : c.Numbered) (hlt : c'.insertions < 2 ^ 32) (hchange : Change hash c c') :
    Tracked c₀ s c' := by
  have hle := h.insertions_le
  obtain ⟨since, hhist, hiff, hkey⟩ := h
  have happend : ∀ {change : CatalogChange}, c'.history = c.history ++ [change] →
      (c'.isCurrent (c₀.ref s) ↔ c.isCurrent (c₀.ref s) ∧
        change ≠ .cleared ∧ change ≠ .evicted (c₀.keyAt s)) →
      (c'.isCurrent (c₀.ref s) → c'.keyAt s = c.keyAt s) → Tracked c₀ s c' := by
    intro change hhist' hcur hkey'
    refine ⟨since ++ [change], by rw [hhist', hhist, List.append_assoc], ?_,
      fun hc => (hkey' hc).trans (hkey (hcur.1 hc).1)⟩
    rw [hcur, hiff]
    simp only [List.mem_append, List.mem_singleton, or_imp, forall_and, forall_eq]
    tauto
  rcases hchange with ⟨hinv, hslot, hspec⟩ | hspec | ⟨-, hnone, hhist'⟩ |
    ⟨-, hhist', hinUse, hkeys, hgens⟩
  · rename_i slot
    refine happend hspec.history ?_ fun hc => ?_
    · rw [isCurrent_iff, isCurrent_iff, hspec.inUse]
      by_cases hsl : s = slot
      · -- The entry itself goes, and it has the key it had.
        subst hsl
        refine iff_of_false (fun hc => hc.1.2 rfl) ?_
        rintro ⟨hc, -, hne⟩
        refine hne ?_
        rw [hkey (isCurrent_iff.2 hc)]
      · rw [show (c₀.ref s).slot = s from rfl, hspec.entryAt s hsl]
        constructor
        · rintro ⟨⟨hu, -⟩, hg⟩
          refine ⟨⟨hu, hg⟩, by simp, fun heq => hsl ?_⟩
          rw [CatalogChange.evicted.injEq, ← hkey (isCurrent_iff.2 ⟨hu, hg⟩)] at heq
          exact (hinv.eq_of_keyAt hslot hu heq).symm
        · rintro ⟨⟨hu, hg⟩, -⟩
          exact ⟨⟨hu, hsl⟩, hg⟩
    · rw [isCurrent_iff, hspec.inUse] at hc
      rw [keyAt, hspec.entryAt s hc.1.2]
      rfl
  · rename_i slot
    have hins := insertions_append hspec.history
    simp only [isInsertion_inserted, ↓reduceIte] at hins
    refine happend hspec.history ?_ fun hc => ?_
    all_goals
      have hne : c'.isCurrent (c₀.ref s) → s ≠ slot := by
        rintro hc rfl
        -- The new entry is numbered higher than the old one was.
        have hgen := (isCurrent_iff.1 hc).2
        rw [show (c₀.ref s).slot = s from rfl, hspec.entryAt_self] at hgen
        have hnext := (hnum (by omega)).2 (by omega)
        rw [show c.nextGeneration = (c₀.entryAt s).generation from hgen] at hnext
        have := (h₀ (by omega)).1 s hs
        omega
    · constructor
      · intro hc
        have hsl := hne hc
        refine ⟨?_, by simp, by simp⟩
        rw [isCurrent_iff, hspec.inUse] at hc
        rw [isCurrent_iff]
        exact ⟨hc.1.resolve_left hsl, hspec.entryAt s hsl ▸ hc.2⟩
      · rintro ⟨hc, -⟩
        rw [isCurrent_iff] at hc ⊢
        have hsl : s ≠ slot := fun heq => hspec.new (heq ▸ hc.1)
        exact ⟨(hspec.inUse s).2 (.inr hc.1), (congrArg _ (hspec.entryAt s hsl)).trans hc.2⟩
    · rw [keyAt, hspec.entryAt s (hne hc)]
      rfl
  · refine happend hhist' ?_ fun hc => absurd (isCurrent_iff.1 hc).1 (hnone _)
    rw [isCurrent_iff]
    exact iff_of_false (fun hc => hnone _ hc.1) fun hc => hc.2.1 rfl
  · refine ⟨since, hhist'.trans hhist, ?_, fun hc => ?_⟩
    · rw [← hiff, isCurrent_iff, isCurrent_iff, hinUse, hgens]
    · rw [isCurrent_iff, hinUse, hgens] at hc
      exact (hkeys s).trans (hkey (isCurrent_iff.2 hc))

theorem Changes.insertions_le (h : Changes hash c c') : c.insertions ≤ c'.insertions := by
  induction h with
  | refl => exact le_rfl
  | tail _ hchange ih =>
    refine ih.trans ?_
    rcases hchange with ⟨-, -, hspec⟩ | hspec | ⟨-, -, hhist⟩ | ⟨-, hhist, -, -, -⟩
    · exact (insertions_append hspec.history).symm ▸ Nat.le_add_right _ _
    · exact (insertions_append hspec.history).symm ▸ Nat.le_add_right _ _
    · exact (insertions_append hhist).symm ▸ Nat.le_add_right _ _
    · rw [insertions, insertions, hhist]

theorem Changes.numbered (h : Changes hash c c') (hnum : c.Numbered) : c'.Numbered := by
  induction h with
  | refl => exact hnum
  | tail _ hchange ih => exact ih.change hchange

theorem Changes.tracked {c₀ : NodeCatalog} (h : Changes hash c₀ c) (hs : c₀.InUse s)
    (h₀ : c₀.Numbered) (hlt : c.insertions < 2 ^ 32) : Tracked c₀ s c := by
  induction h with
  | refl => exact tracked_self hs
  | tail hpre hchange ih =>
    have hpre' : Changes hash c₀ _ := hpre
    refine (ih ?_).change hs h₀ (hpre'.numbered h₀) hlt hchange
    exact (Changes.insertions_le (.single hchange)).trans_lt hlt

/-! ## Runs -/

/-- What a run keeps: the invariant, and a way to the catalogue by small changes. -/
theorem steps_changes (h : Invariant hash c) (hsteps : Relation.ReflTransGen (Step hash) c c') :
    Invariant hash c' ∧ Changes hash c c' := by
  induction hsteps with
  | refl => exact ⟨h, .refl⟩
  | tail _ hstep ih =>
    obtain ⟨op, hlegal, happly⟩ := hstep
    obtain ⟨c'', happly', h'', hchange, -⟩ := ih.1.apply op hlegal
    rw [happly, Option.some.injEq] at happly'
    subst happly'
    exact ⟨h'', ih.2.trans hchange⟩

theorem numbered_new (cap epochMs : ℤ) : (new cap epochMs).Numbered :=
  fun _ => ⟨fun s hs => absurd hs.1 (Nat.not_lt_zero s), fun _ => rfl⟩

theorem Reachable.invariant (h : Reachable hash c) : Invariant hash c ∧ c.Numbered := by
  obtain ⟨cap, epochMs, hsteps⟩ := h
  obtain ⟨hinv, hchanges⟩ := steps_changes (invariant_new cap epochMs) hsteps
  exact ⟨hinv, hchanges.numbered (numbered_new cap epochMs)⟩

/-- As many positions of the table are taken as there are entries. -/
theorem Invariant.length_table (h : Invariant hash c) :
    c.size = (c.table.filter (· ≠ NoSlot)).length := by
  have hget : ∀ i (hi : i < c.table.length), c.slotAt i = c.table[i] := fun i hi => by
      simp [slotAt, hi]
  have hperm : c.table.filter (· ≠ NoSlot) ~ c.slots := by
    refine (perm_ext_iff_of_nodup ?_ (nodup_slots c)).2 fun s => ?_
    · rw [List.nodup_iff_pairwise_ne, List.pairwise_filter, List.pairwise_iff_getElem]
      intro i j hi hj hlt hne hne' heq
      -- A slot at two positions would be in the index twice.
      have hij := h.index.probing.inj i hi j hj (c.table[i])
          (tab_eq_some.2 ⟨hget i hi, by simpa using hne⟩)
        (tab_eq_some.2 ⟨(hget j hj).trans heq.symm, by simpa using hne⟩)
      omega
    · rw [mem_slots, ← show s ∈ {s | c.InUse s} ↔ c.InUse s from Iff.rfl, ← h.index.holds,
        List.mem_filter, decide_eq_true_eq, List.mem_iff_getElem]
      constructor
      · rintro ⟨⟨i, hi, rfl⟩, hne⟩
        exact ⟨i, hi, tab_eq_some.2 ⟨hget i hi, hne⟩⟩
      · rintro ⟨i, hi, hs⟩
        obtain ⟨hs, hne⟩ := tab_eq_some.1 hs
        exact ⟨⟨i, hi, (hget i hi).symm.trans hs⟩, hne⟩
  rw [h.size, hperm.length_eq]

/-- The catalogue refines a finite map, in every state of every run: every call
    ends and does to the map what it may; `find` yields the slot of what was
    inserted and has not gone since; `upsert` adds a new key, in place of another
    if the catalogue is full; the size and the counts are those of the entries;
    there is a victim whenever one is called for; and a reference is current
    exactly as long as its entry has not gone. -/
theorem refines_book (hash : CatalogKey → ℕ) (c : NodeCatalog) (hc : Reachable hash c) :
    (∀ op, c.Legal op → ∃ c', c.apply hash op = some c' ∧
      Book.Step c.cap c.keyAt c.book op c'.book) ∧
    (∀ endpoint, ∃ s, c.find hash endpoint = some s ∧
      (Present c.history endpoint.catalogKey → c.InUse s ∧ c.keyAt s = endpoint.catalogKey) ∧
      (¬Present c.history endpoint.catalogKey → s = NoSlot)) ∧
    (∀ draw endpoint nowMs,
      (Present c.history endpoint.catalogKey → ∃ s,
        c.upsert hash draw endpoint nowMs = some (c, s, false) ∧ c.find hash endpoint = some s) ∧
      (¬Present c.history endpoint.catalogKey → 0 < c.cap → ∃ c' s,
        c.upsert hash draw endpoint nowMs = some (c', s, true) ∧ c'.InUse s ∧
        (c'.entryAt s).key = endpoint.catalogKey ∧
        (c.size < c.cap → c'.book =
          Function.update c.book endpoint.catalogKey (some (c'.entryAt s))) ∧
        (c.cap ≤ c.size → ∃ victim, c.book victim ≠ none ∧ c'.book =
          Function.update (Function.update c.book victim none) endpoint.catalogKey
            (some (c'.entryAt s))))) ∧
    (c.size = c.slots.length ∧ c.size = (c.table.filter (· ≠ NoSlot)).length ∧
      (∀ state, c.count state = c.slots.countP fun s => (c.entryAt s).state = state) ∧
      ∀ s ∈ c.free, ¬c.InUse s) ∧
    (c.cap < c.size ∨ (0 < c.cap ∧ c.cap ≤ c.size) → ∀ draw,
      c.pickVictim draw ≠ NoSlot ∧ c.InUse (c.pickVictim draw)) ∧
    (c.insertions < 2 ^ 32 → ∀ c₀ s, Reachable hash c₀ → Relation.ReflTransGen (Step hash) c₀ c →
      c₀.InUse s → ∃ since, c.history = c₀.history ++ since ∧
        (c.isCurrent (c₀.ref s) ↔
          ∀ change ∈ since, change ≠ .cleared ∧ change ≠ .evicted (c₀.keyAt s))) := by
  have h := hc.invariant.1
  refine ⟨fun op hlegal => ?_, h.find_eq, fun draw endpoint nowMs =>
    ⟨fun hp => ?_, fun hp hcap => ?_⟩, ⟨h.size, h.length_table, h.counts, fun s hs hu => ?_⟩,
    fun hcalled draw => ?_, fun hlt c₀ s hc₀ hsteps hs => ?_⟩
  · obtain ⟨c', happly, -, -, hstep⟩ := h.apply op hlegal
    exact ⟨c', happly, hstep⟩
  · obtain ⟨s, hs, hkey⟩ := (h.history _).1 hp
    exact ⟨s, h.upsert_present hs hkey draw nowMs⟩
  · have hnone : ∀ s, c.InUse s → c.keyAt s ≠ endpoint.catalogKey := fun s hs hkey =>
      hp ((h.history _).2 ⟨s, hs, hkey⟩)
    obtain ⟨c', s, hup, -, -, -, hs, hkey, -, hadd, hrepl⟩ := h.upsert_new hnone hcap draw nowMs
    exact ⟨c', s, hup, hs, hkey, hadd, hrepl⟩
  · exact absurd hu.2 (by rw [((h.free s).1 hs).2]; decide)
  · have hcap := h.cap.1
    have hs := h.pickVictim_inUse (by omega) draw
    exact ⟨h.inUse_ne_noSlot hs, hs⟩
  · -- References last as long as generations do not come again.
    obtain ⟨h₀, hnum⟩ := hc₀.invariant
    obtain ⟨since, hhist, hiff, -⟩ := (steps_changes h₀ hsteps).2.tracked hs hnum hlt
    exact ⟨since, hhist, hiff⟩

/-- Keys that collide at the end of the table are found behind it, also once the first of them had
    to go. -/
theorem refines_book_collision :
    let hash : CatalogKey → ℕ := fun _ => 1023
    let node (port : UInt16) : Endpoint := ⟨.ipv4 (HostAddress.dotted 8 8 8 8), port⟩
    ∃ c₁ c₂ c₃, (new 2 0).apply hash (.upsert id (node 1) 1000) = some c₁ ∧
      c₁.apply hash (.upsert id (node 2) 2000) = some c₂ ∧
      c₂.apply hash (.upsert id (node 3) 3000) = some c₃ ∧
      c₃.find hash (node 1) = some NoSlot ∧
      ∀ port ∈ [2, 3], ∃ s, c₃.find hash (node port) = some s ∧ c₃.InUse s ∧
        c₃.keyAt s = (node port).catalogKey := by
  intro hash node
  let key (port : UInt16) : CatalogKey := (node port).catalogKey
  have hrun : (((new 2 0).apply hash (.upsert id (node 1) 1000)).bind fun c₁ =>
      (c₁.apply hash (.upsert id (node 2) 2000)).bind fun c₂ =>
        (c₂.apply hash (.upsert id (node 3) 3000)).map fun c₃ =>
          (c₃.history, c₃.find hash (node 1))) =
      some ([.inserted (key 1), .inserted (key 2), .evicted (key 1), .inserted (key 3)],
        some NoSlot) := by decide +kernel
  obtain ⟨c₁, h₁, hrun⟩ := Option.bind_eq_some_iff.1 hrun
  obtain ⟨c₂, h₂, hrun⟩ := Option.bind_eq_some_iff.1 hrun
  obtain ⟨c₃, h₃, hc⟩ := Option.map_eq_some_iff.1 hrun
  obtain ⟨hhistory, hgone⟩ := Prod.mk.inj hc
  have hreach : Reachable hash c₃ :=
    ⟨2, 0, .tail (.tail (.single ⟨.upsert id (node 1) 1000, trivial, h₁⟩)
      ⟨.upsert id (node 2) 2000, trivial, h₂⟩) ⟨.upsert id (node 3) 3000, trivial, h₃⟩⟩
  have hpresent : ∀ port ∈ [2, 3], Present c₃.history (node port).catalogKey := by
    rw [hhistory]
    intro port hport
    rcases List.mem_pair.1 hport with rfl | rfl
    · exact ⟨[.inserted (key 1)], [.evicted (key 1), .inserted (key 3)], rfl, by decide⟩
    · exact ⟨[.inserted (key 1), .inserted (key 2), .evicted (key 1)], [], rfl, nofun⟩
  refine ⟨c₁, c₂, c₃, h₁, h₂, h₃, hgone, fun port hport => ?_⟩
  obtain ⟨s, hfind, hfound, -⟩ := (refines_book hash c₃ hreach).2.1 (node port)
  exact ⟨s, hfind, hfound (hpresent port hport)⟩

end Dht.NodeCatalog
