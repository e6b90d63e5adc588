import DhtCore.Endpoint
import DhtCore.KeyedListModel.Replay
import DhtCore.NodeCatalog.Entry

/-!
# The list of nodes and seeds

The rows of a `NodeListModel` are those of the latest snapshot, sorted by a key that each row
has for itself. The rows of another snapshot are merged in (`update`): both lists are walked
together, and rows removed, inserted or replaced one at a time, so that a view of them keeps
its place.

What is announced of it to the views are `KeyedListModel.Change`s. Whatever two lists are
sorted by their keys, the merge ends with the new one, up to what is not shown of a row, and
the changes bring a view there (`update_exact`).
-/

namespace Dht

/-- Where the row of a node comes from. -/
inductive NodeRow.Source
  | Routing
  | Injected
  | Bootstrap
  deriving DecidableEq, Repr

/-- What is known of the node of a row. -/
inductive NodeRow.Status
  | Good
  | Questionable
  | Bad
  | Querying
  | Responded
  | NoResponse
  deriving DecidableEq, Repr

/-- A node or a seed, as a snapshot has it. -/
structure NodeRow where
  family : Family := .IPv4
  endpoint : Endpoint := default
  id : NodeId := default
  hasId : Bool := false
  source : NodeRow.Source := .Routing
  status : NodeRow.Status := .Querying
  rttMs : ℤ := -1
  lastSeenAgoMs : ℤ := -1
  bep42 : Bep42.Status := .Unknown
  version : Bytes := []
  bucket : ℤ := -1
  /-- What the rows are sorted by; no two of a snapshot have the same. -/
  sortKey : Bytes := []
  deriving DecidableEq

instance : Inhabited NodeRow := ⟨{}⟩

/-- Whether two rows look the same: of the age, whole seconds are shown. -/
def sameRow (a b : NodeRow) : Bool :=
  a.hasId = b.hasId && a.id = b.id && a.source = b.source && a.status = b.status &&
    a.rttMs = b.rttMs && a.bep42 = b.bep42 && a.version = b.version && a.bucket = b.bucket &&
    a.lastSeenAgoMs.tdiv 1000 = b.lastSeenAgoMs.tdiv 1000

namespace NodeListModel

open KeyedListModel

/-- The loop of `update`, at the row `i` and with the fresh rows left: the rows then, and what
    was announced. -/
def merge (rows : List NodeRow) (i : ℕ) (fresh : List NodeRow) :
    List NodeRow × List (Change NodeRow) :=
  if rows[i]?.any fun row => fresh.head?.all fun new => row.sortKey < new.sortKey then
    let (rows, changes) := merge (rows.eraseIdx i) i fresh
    (rows, .removed i i :: changes)
  else
    match fresh with
    | [] => (rows, [])
    | new :: rest =>
      if rows[i]?.all fun row => new.sortKey < row.sortKey then
        let (rows, changes) := merge (rows.insertIdx i new) (i + 1) rest
        (rows, .inserted i i [new] :: changes)
      else
        -- There is a row, of the same key.
        let row := rows.getD i default
        if !sameRow row new then
          let (rows, changes) := merge (rows.set i new) (i + 1) rest
          (rows, .changed i i [new] :: changes)
        else merge (rows.set i { row with lastSeenAgoMs := new.lastSeenAgoMs }) (i + 1) rest
termination_by rows.length - i + fresh.length
decreasing_by
  · obtain ⟨row, hrow, -⟩ := (Option.any_eq_true ..).1 ‹_›
    obtain ⟨hi, -⟩ := List.getElem?_eq_some_iff.1 hrow
    rw [List.length_eraseIdx_of_lt hi]
    omega
  · have hlen := List.length_insertIdx_le_succ (l := rows) (x := new) (i := i)
    rw [List.length_cons]
    omega
  · rw [List.length_set, List.length_cons]
    omega
  · rw [List.length_set, List.length_cons]
    omega

/-- Replaces the rows by those of a snapshot, which are sorted by their keys: the rows then, what
    was announced, and whether their number is announced too. -/
def update (rows fresh : List NodeRow) : List NodeRow × List (Change NodeRow) × Bool :=
  let before := rows.length
  let (rows, changes) := merge rows 0 fresh
  (rows, changes, rows.length ≠ before)

/-! ## The steps of the merge -/

section Steps

variable {done todo fresh : List NodeRow} {row new : NodeRow}

theorem getElem?_length (done todo : List NodeRow) : (done ++ todo)[done.length]? = todo.head? := by
  rw [List.getElem?_append_right le_rfl, Nat.sub_self, List.head?_eq_getElem?]

theorem merge_nil (done : List NodeRow) : merge done done.length [] = (done, []) := by
  rw [merge]
  simp

/-- A row that comes before what is left of the new ones is removed. -/
theorem merge_remove (h : ∀ new ∈ fresh.head?, row.sortKey < new.sortKey) :
    merge (done ++ row :: todo) done.length fresh =
      ((merge (done ++ todo) done.length fresh).1,
        .removed done.length done.length :: (merge (done ++ todo) done.length fresh).2) := by
  have herase : (done ++ row :: todo).eraseIdx done.length = done ++ todo := by
    rw [List.eraseIdx_append_of_length_le le_rfl, Nat.sub_self, List.eraseIdx_cons_zero]
  rw [merge.eq_def, getElem?_length, List.head?_cons, Option.any_some, if_pos, herase]
  cases hhead : fresh.head? with
  | none => rfl
  | some new => simpa using h new hhead

/-- A new row that comes before what is left of the rows is inserted. -/
theorem merge_insert (h : ∀ row ∈ todo.head?, new.sortKey < row.sortKey) :
    merge (done ++ todo) done.length (new :: fresh) =
      ((merge (done ++ [new] ++ todo) (done ++ [new]).length fresh).1,
        .inserted done.length done.length [new] ::
          (merge (done ++ [new] ++ todo) (done ++ [new]).length fresh).2) := by
  have hinsert : (done ++ todo).insertIdx done.length new = done ++ [new] ++ todo := by
    induction done with
    | nil => rfl
    | cons x done ih => simpa using ih
  rw [merge.eq_def, getElem?_length, if_neg]
  dsimp only
  rw [if_pos, hinsert, List.length_append, List.length_singleton]
  · cases hhead : todo.head? with
    | none => rfl
    | some row => simpa using h row hhead
  · cases hhead : todo.head? with
    | none => simp
    | some row => simpa using fun hlt => List.lt_irrefl _ (List.lt_trans hlt (h row hhead))

/-- A row with the key of the next new one stays, and is replaced or given the age of it. -/
theorem merge_keep (h : row.sortKey = new.sortKey) :
    merge (done ++ row :: todo) done.length (new :: fresh) =
      if sameRow row new then
        merge (done ++ [{ row with lastSeenAgoMs := new.lastSeenAgoMs }] ++ todo)
          (done ++ [{ row with lastSeenAgoMs := new.lastSeenAgoMs }]).length fresh
      else
        ((merge (done ++ [new] ++ todo) (done ++ [new]).length fresh).1,
          .changed done.length done.length [new] ::
            (merge (done ++ [new] ++ todo) (done ++ [new]).length fresh).2) := by
  have hset : ∀ row' : NodeRow,
      (done ++ row :: todo).set done.length row' = done ++ [row'] ++ todo := by
    intro row'
    simp
  have hget : (done ++ row :: todo).getD done.length default = row := by
    simp
  rw [merge.eq_def, getElem?_length, if_neg]
  dsimp only
  rw [if_neg, hget]
  · simp only [hset, List.length_append, List.length_singleton]
    cases sameRow row new <;> rfl
  · simp [h]
  · simp [h]

/-- What holds of the end of the walk, and is not broken by a step of it backwards, holds of any
    rows and new ones that are left. -/
theorem merge_induction {P : List NodeRow → List NodeRow → List NodeRow → Prop}
    (nil : ∀ done, P done [] [])
    (remove : ∀ done row todo fresh, (∀ new ∈ fresh.head?, row.sortKey < new.sortKey) →
      P done todo fresh → P done (row :: todo) fresh)
    (insert : ∀ done todo new fresh, (∀ row ∈ todo.head?, new.sortKey < row.sortKey) →
      P (done ++ [new]) todo fresh → P done todo (new :: fresh))
    (keep : ∀ done row todo new fresh, row.sortKey = new.sortKey →
      (∀ row', P (done ++ [row']) todo fresh) → P done (row :: todo) (new :: fresh)) :
    ∀ done todo fresh, P done todo fresh := by
  intro done todo
  induction todo generalizing done with
  | nil =>
    intro fresh
    induction fresh generalizing done with
    | nil => exact nil done
    | cons new fresh ih => exact insert done [] new fresh (by simp) (ih (done ++ [new]))
  | cons row todo ih =>
    intro fresh
    induction fresh generalizing done with
    | nil => exact remove done row todo [] (by simp) (ih done [])
    | cons new fresh ih' =>
      by_cases hlt : row.sortKey < new.sortKey
      · exact remove done row todo (new :: fresh) (fun _ hnew => Option.some.inj hnew ▸ hlt)
          (ih done (new :: fresh))
      by_cases hgt : new.sortKey < row.sortKey
      · exact insert done (row :: todo) new fresh (fun _ hrow => Option.some.inj hrow ▸ hgt)
          (ih' (done ++ [new]))
      · exact keep done row todo new fresh (List.le_antisymm hgt hlt)
          fun row' => ih (done ++ [row']) fresh

end Steps

/-! ## What the merge comes to -/

/-- The rows are sorted by their keys, of which no two are the same. -/
def Sorted (rows : List NodeRow) : Prop := rows.Pairwise fun a b => a.sortKey < b.sortKey

theorem sameRow_refl (row : NodeRow) : sameRow row row := by simp [sameRow]

/-- A row looks the same with a new age that looks the same. -/
theorem sameRow_of_sameRow {row new : NodeRow} (h : sameRow row new) :
    sameRow row { row with lastSeenAgoMs := new.lastSeenAgoMs } := by
  rw [sameRow, Bool.and_eq_true] at h
  rw [sameRow, Bool.and_eq_true]
  exact ⟨by simp, h.2⟩

/-- A row is up to date with a new one of its key, in all that `sameRow` compares. -/
structure Current (row new : NodeRow) : Prop where
  sortKey : row.sortKey = new.sortKey
  hasId : row.hasId = new.hasId
  id : row.id = new.id
  source : row.source = new.source
  status : row.status = new.status
  rttMs : row.rttMs = new.rttMs
  bep42 : row.bep42 = new.bep42
  version : row.version = new.version
  bucket : row.bucket = new.bucket
  lastSeenAgoMs : row.lastSeenAgoMs = new.lastSeenAgoMs

theorem Current.refl (row : NodeRow) : Current row row :=
  ⟨rfl, rfl, rfl, rfl, rfl, rfl, rfl, rfl, rfl, rfl⟩

theorem current_of_sameRow {row new : NodeRow} (hkey : row.sortKey = new.sortKey)
    (hsame : sameRow row new) : Current { row with lastSeenAgoMs := new.lastSeenAgoMs } new := by
  simp only [sameRow, Bool.and_eq_true, decide_eq_true_iff, and_assoc] at hsame
  obtain ⟨hhasId, hid, hsource, hstatus, hrtt, hbep42, hversion, hbucket, -⟩ := hsame
  exact ⟨hkey, hhasId, hid, hsource, hstatus, hrtt, hbep42, hversion, hbucket, rfl⟩

theorem keys_of_current {rows fresh : List NodeRow} (h : List.Forall₂ Current rows fresh) :
    rows.map (·.sortKey) = fresh.map (·.sortKey) := by
  induction h with
  | nil => rfl
  | cons hcurrent _ ih => rw [List.map_cons, List.map_cons, hcurrent.sortKey, ih]

/-- The insertions and removals among changes, of the keys alone. -/
def keyChanges (changes : List (Change NodeRow)) : List (Change Bytes) :=
  (changes.filter fun c => !c.refreshes).map (Change.map NodeRow.sortKey)

/-- What comes of the rows after the first ones, which are done. -/
structure Merged (done todo fresh : List NodeRow) (r : List NodeRow × List (Change NodeRow)) :
    Prop where
  rows : ∃ rows, r.1 = done ++ rows ∧ List.Forall₂ Current rows fresh
  changed : ∀ row ∈ todo, ∀ k new, fresh[k]? = some new → row.sortKey = new.sortKey →
    sameRow row new = false → .changed (done.length + k) (done.length + k) [new] ∈ r.2
  keys : replay (keyChanges r.2) ((done ++ todo).map (·.sortKey)) =
    some ((done ++ fresh).map (·.sortKey))
  removed : ∀ key ∈ removedRows (keyChanges r.2) ((done ++ todo).map (·.sortKey)),
    key ∈ todo.map (·.sortKey) ∧ key ∉ fresh.map (·.sortKey)
  inserted : ∀ key ∈ insertedRows (keyChanges r.2),
    key ∈ fresh.map (·.sortKey) ∧ key ∉ todo.map (·.sortKey)
  view : ∀ shown : List NodeRow, shown.length = done.length → ∃ view rows,
    replay r.2 (shown ++ todo) = some (shown ++ view) ∧ r.1 = done ++ rows ∧
      List.Forall₂ (fun a b => sameRow a b = true) view rows

/-- A key that comes before the first of sorted rows is the key of none of them. -/
theorem Sorted.lt_of_head {rows : List NodeRow} (h : Sorted rows) {key : Bytes}
    (hlt : ∀ row ∈ rows.head?, key < row.sortKey) : ∀ row ∈ rows, key < row.sortKey := by
  cases rows with
  | nil => simp
  | cons first rest =>
    have hfirst := hlt first rfl
    refine List.forall_mem_cons.2 ⟨hfirst, fun row hrow => ?_⟩
    exact List.lt_trans hfirst ((List.pairwise_cons.1 h).1 row hrow)

theorem notMem_keys {rows : List NodeRow} {key : Bytes} (h : ∀ row ∈ rows, key < row.sortKey) :
    key ∉ rows.map (·.sortKey) := by
  intro hmem
  obtain ⟨row, hrow, rfl⟩ := List.mem_map.1 hmem
  exact List.lt_irrefl _ (h row hrow)

section Merged

variable {done todo fresh : List NodeRow} {row new : NodeRow}

theorem merged_nil (done : List NodeRow) :
    Merged done [] [] (merge (done ++ []) done.length []) := by
  rw [List.append_nil, merge_nil]
  exact ⟨⟨[], (List.append_nil _).symm, .nil⟩, by simp, by simp [keyChanges],
    by simp [keyChanges, removedRows], by simp [keyChanges, insertedRows],
    fun shown _ => ⟨[], [], rfl, (List.append_nil _).symm, .nil⟩⟩

theorem Merged.remove (hbefore : ∀ new ∈ fresh, row.sortKey < new.sortKey)
    (h : Merged done todo fresh (merge (done ++ todo) done.length fresh)) :
    Merged done (row :: todo) fresh (merge (done ++ row :: todo) done.length fresh) := by
  rw [merge_remove fun new hnew => hbefore new (List.mem_of_head? hnew)]
  obtain ⟨hrows, hchanged, hreplay, hremoved, hinserted, hview⟩ := h
  have hn : (done.map (·.sortKey)).length = done.length := List.length_map _
  rw [List.map_append] at hreplay hremoved
  refine ⟨hrows, fun old hold k new hnew hkey hsame => ?_, ?_, ?_, fun key hkey => ?_,
    fun shown hshown => ?_⟩
  · rcases List.mem_cons.1 hold with rfl | hold
    · exact absurd (hbefore new (List.mem_of_getElem? hnew)) (hkey ▸ List.lt_irrefl _)
    · exact List.mem_cons_of_mem _ (hchanged old hold k new hnew hkey hsame)
  · rw [List.map_append]
    exact (replay_removed _ hn).trans hreplay
  · rw [List.map_append]
    change ∀ key ∈ removedRows (.removed done.length done.length :: keyChanges _) _, _
    rw [List.map_cons, removedRows_removed _ hn]
    refine List.forall_mem_cons.2 ⟨⟨List.mem_cons_self, notMem_keys hbefore⟩, fun key hkey => ?_⟩
    exact (hremoved key hkey).imp_left (List.mem_cons_of_mem _)
  · obtain ⟨hfresh, htodo⟩ := hinserted key hkey
    refine ⟨hfresh, fun hmem => ?_⟩
    rcases List.mem_cons.1 hmem with rfl | hmem
    · exact notMem_keys hbefore hfresh
    · exact htodo hmem
  · obtain ⟨view, rows, hreplay, h⟩ := hview shown hshown
    exact ⟨view, rows, (replay_removed _ hshown).trans hreplay, h⟩

theorem Merged.insert (hbefore : ∀ row ∈ todo, new.sortKey < row.sortKey)
    (h : Merged (done ++ [new]) todo fresh
      (merge (done ++ [new] ++ todo) (done ++ [new]).length fresh)) :
    Merged done todo (new :: fresh) (merge (done ++ todo) done.length (new :: fresh)) := by
  rw [merge_insert fun row hrow => hbefore row (List.mem_of_head? hrow)]
  generalize merge (done ++ [new] ++ todo) (done ++ [new]).length fresh = r at h ⊢
  obtain ⟨⟨rows, hrows, hcurrent⟩, hchanged, hreplay, hremoved, hinserted, hview⟩ := h
  have hn : (done.map (·.sortKey)).length = done.length := List.length_map _
  rw [List.append_assoc, List.singleton_append, List.map_append] at hreplay hremoved
  refine ⟨⟨new :: rows, by rw [hrows, List.append_assoc]; rfl, .cons (.refl new) hcurrent⟩,
    fun old hold k new' hnew hkey hsame => ?_, ?_, ?_, ?_, fun shown hshown => ?_⟩
  · -- The new row is no old one, so it is not one that is told of as changed.
    cases k with
    | zero =>
      obtain rfl : new = new' := Option.some.inj hnew
      exact absurd (hbefore old hold) (hkey ▸ List.lt_irrefl _)
    | succ k =>
      have hmem := hchanged old hold k new' hnew hkey hsame
      rw [List.length_append, List.length_singleton, Nat.add_assoc, Nat.add_comm 1] at hmem
      exact List.mem_cons_of_mem _ hmem
  · rw [List.map_append]
    refine (replay_inserted _ hn).trans (hreplay.trans ?_)
    simp
  · rw [List.map_append]
    change ∀ key ∈
      removedRows (.inserted done.length done.length [new.sortKey] :: keyChanges _) _, _
    rw [removedRows_inserted _ hn]
    intro key hkey
    obtain ⟨htodo, hfresh⟩ := hremoved key hkey
    refine ⟨htodo, fun hmem => ?_⟩
    rcases List.mem_cons.1 hmem with rfl | hmem
    · exact notMem_keys hbefore htodo
    · exact hfresh hmem
  · change ∀ key ∈ insertedRows (.inserted done.length done.length [new.sortKey] :: keyChanges _), _
    rw [insertedRows_cons]
    refine List.forall_mem_cons.2 ⟨⟨List.mem_cons_self, notMem_keys hbefore⟩, fun key hkey => ?_⟩
    exact (hinserted key hkey).imp_left (List.mem_cons_of_mem _)
  · obtain ⟨view, rows, hreplay, hrows, hsame⟩ := hview (shown ++ [new]) (by simp [hshown])
    rw [List.append_assoc] at hreplay hrows
    exact ⟨new :: view, new :: rows, (replay_inserted _ hshown).trans (by simpa using hreplay),
      hrows, .cons (sameRow_refl new) hsame⟩

/-- A row that stays is not told of if it looks the same, and else is told of where it stays. -/
theorem Merged.keep {row' : NodeRow} (hkey : row.sortKey = new.sortKey)
    (hcurrent : Current row' new)
    (htodo : ∀ row' ∈ todo, row.sortKey < row'.sortKey)
    (hfresh : ∀ new' ∈ fresh, new.sortKey < new'.sortKey)
    {r r' : List NodeRow × List (Change NodeRow)} (h : Merged (done ++ [row']) todo fresh r)
    (hrows : r'.1 = r.1) (hkeys : keyChanges r'.2 = keyChanges r.2) (hchanges : r.2 ⊆ r'.2)
    (htold : sameRow row new = false → .changed done.length done.length [new] ∈ r'.2)
    (hshows : ∃ look, sameRow look row' ∧ ∀ shown : List NodeRow, shown.length = done.length →
      replay r'.2 (shown ++ row :: todo) = replay r.2 (shown ++ [look] ++ todo)) :
    Merged done (row :: todo) (new :: fresh) r' := by
  obtain ⟨⟨rows, hr, hall⟩, hchanged, hreplay, hremoved, hinserted, hview⟩ := h
  have hkey' : row'.sortKey = row.sortKey := hcurrent.sortKey.trans hkey.symm
  have hkeysOf (rows : List NodeRow) : (done ++ [row'] ++ rows).map (·.sortKey) =
      (done ++ row :: rows).map (·.sortKey) := by
    simp [hkey']
  rw [hkeysOf] at hreplay hremoved
  refine ⟨⟨row' :: rows, by rw [hrows, hr, List.append_assoc]; rfl, .cons hcurrent hall⟩,
    fun old hold k new' hnew hkey'' hsame => ?_, ?_, ?_, ?_, fun shown hshown => ?_⟩
  · -- The row itself is told of if it looks different; no other has its key.
    cases k with
    | zero =>
      obtain rfl : new = new' := Option.some.inj hnew
      rcases List.mem_cons.1 hold with rfl | hold
      · exact htold hsame
      · exact absurd (htodo old hold) (hkey'' ▸ hkey ▸ List.lt_irrefl _)
    | succ k =>
      rcases List.mem_cons.1 hold with rfl | hold
      · exact absurd (hfresh new' (List.mem_of_getElem? hnew)) (hkey'' ▸ hkey ▸ List.lt_irrefl _)
      · have hmem := hchanged old hold k new' hnew hkey'' hsame
        rw [List.length_append, List.length_singleton, Nat.add_assoc, Nat.add_comm 1] at hmem
        exact hchanges hmem
  · rw [hkeys, hreplay, hkeysOf]
    simp [hkey]
  · rw [hkeys]
    intro key hmem
    obtain ⟨hold, hnew⟩ := hremoved key hmem
    refine ⟨List.mem_cons_of_mem _ hold, fun hmem => ?_⟩
    rcases List.mem_cons.1 hmem with rfl | hmem
    · exact notMem_keys htodo (hkey ▸ hold)
    · exact hnew hmem
  · rw [hkeys]
    intro key hmem
    obtain ⟨hnew, hold⟩ := hinserted key hmem
    refine ⟨List.mem_cons_of_mem _ hnew, fun hmem => ?_⟩
    rcases List.mem_cons.1 hmem with rfl | hmem
    · exact notMem_keys hfresh (hkey ▸ hnew)
    · exact hold hmem
  · obtain ⟨look, hlook, hshows⟩ := hshows
    obtain ⟨view, rows, hreplay, hr, hsame⟩ := hview (shown ++ [look]) (by simp [hshown])
    refine ⟨look :: view, row' :: rows, (hshows shown hshown).trans (by simpa using hreplay),
      hrows.trans (by simpa using hr), .cons hlook hsame⟩

theorem merged (done todo fresh : List NodeRow) : Sorted todo → Sorted fresh →
    Merged done todo fresh (merge (done ++ todo) done.length fresh) := by
  induction done, todo, fresh using merge_induction with
  | nil done => exact fun _ _ => merged_nil done
  | remove done row todo fresh hlt ih =>
    intro htodo hfresh
    exact (ih (List.pairwise_cons.1 htodo).2 hfresh).remove (hfresh.lt_of_head hlt)
  | insert done todo new fresh hlt ih =>
    intro htodo hfresh
    exact (ih htodo (List.pairwise_cons.1 hfresh).2).insert (htodo.lt_of_head hlt)
  | keep done row todo new fresh hkey ih =>
    intro htodo hfresh
    obtain ⟨hrow, htodo⟩ := List.pairwise_cons.1 htodo
    obtain ⟨hnew, hfresh⟩ := List.pairwise_cons.1 hfresh
    rw [merge_keep hkey]
    split_ifs with hsame
    · refine (ih _ htodo hfresh).keep hkey (current_of_sameRow hkey hsame) hrow hnew rfl rfl
        (List.Subset.refl _) (fun hnot => absurd hsame (Bool.eq_false_iff.1 hnot))
        ⟨row, sameRow_of_sameRow hsame, fun shown _ => by simp⟩
    · exact (ih _ htodo hfresh).keep hkey (.refl new) hrow hnew rfl rfl
        (List.subset_cons_self _ _) (fun _ => List.mem_cons_self)
        ⟨new, sameRow_refl new, fun shown hshown => by simp [replay_changed _ hshown]⟩

end Merged

/-- Whatever rows and new ones are sorted by their keys: the rows are then up to date with the
    new ones, in their order; those that look different are told of where they are then; the
    changes are legal, and bring a view to what looks like the rows; and of the keys alone,
    those in both lists are neither removed nor inserted on the way from the old to the new. -/
theorem update_exact (old fresh : List NodeRow) (hold : Sorted old) (hfresh : Sorted fresh) :
    let (rows, changes, _) := update old fresh
    rows.map (·.sortKey) = fresh.map (·.sortKey) ∧ List.Forall₂ Current rows fresh ∧
      (∀ row ∈ old, ∀ k new, fresh[k]? = some new → row.sortKey = new.sortKey →
        sameRow row new = false → .changed k k [new] ∈ changes) ∧
      replay (keyChanges changes) (old.map (·.sortKey)) = some (fresh.map (·.sortKey)) ∧
      (∀ key ∈ removedRows (keyChanges changes) (old.map (·.sortKey)),
        key ∉ fresh.map (·.sortKey)) ∧
      (∀ key ∈ insertedRows (keyChanges changes), key ∉ old.map (·.sortKey)) ∧
      ∃ view, replay changes old = some view ∧
        List.Forall₂ (fun shown row => sameRow shown row) view rows := by
  obtain ⟨⟨rows, hrows, hcurrent⟩, hchanged, hreplay, hremoved, hinserted, hview⟩ :=
    merged [] old fresh hold hfresh
  obtain ⟨view, rows', hview, hrows', hsame⟩ := hview [] rfl
  simp only [List.nil_append, List.length_nil, Nat.zero_add] at *
  have hkeys := keys_of_current hcurrent
  rw [update]
  dsimp only
  exact ⟨hrows ▸ hkeys, hrows ▸ hcurrent, hchanged, hreplay, fun key hkey => (hremoved key hkey).2,
    fun key hkey => (hinserted key hkey).2, view, hview, hrows' ▸ hsame⟩

/-- The first row goes, the second one is now known to be good, and a third one comes. -/
theorem update_exact_two :
    let old : List NodeRow := [{ sortKey := [1] }, { sortKey := [2] }]
    let fresh : List NodeRow := [{ sortKey := [2], status := .Good }, { sortKey := [3] }]
    update old fresh = (fresh,
        [.removed 0 0, .changed 0 0 [{ sortKey := [2], status := .Good }],
          .inserted 1 1 [{ sortKey := [3] }]], false) ∧
      ∃ view, replay (update old fresh).2.1 old = some view ∧
        List.Forall₂ (fun shown row => sameRow shown row) view (update old fresh).1 := by
  intro old fresh
  constructor
  · have hlt : ([1] : Bytes) < [2] := by decide
    have hnot : ¬([2] : Bytes) < [2] := by decide
    simp [update, merge, old, fresh, hlt, hnot, sameRow]
  · obtain ⟨-, -, -, -, -, -, hview⟩ :=
      update_exact old fresh (List.pairwise_pair.2 (by decide)) (List.pairwise_pair.2 (by decide))
    exact hview

end NodeListModel

end Dht
