import DhtCore.KeyedListModel.Basic

/-!
# Replaying the changes of a list model

A view has rows of its own, and only what is announced to it (`Change.apply`, none for a
change that no view may be told of). Whatever the rows and those that replace them, the
announced changes bring the one to the other (`replaceRows_exact`), and where no two rows
of either have the same key, nothing is both removed and inserted.
-/

namespace Dht.KeyedListModel

variable {Row Key : Type}

namespace Change

/-- Whether a change may be announced for as many rows: it is within bounds, and rows do not
    move to where they are. -/
def Legal (n : ℕ) : Change Row → Prop
  | removed first last => first ≤ last ∧ last < n
  | moved first last dest =>
    first ≤ last ∧ last < n ∧ dest ≤ n ∧ (dest < first ∨ last + 1 < dest)
  | inserted first last rows => first ≤ last ∧ first ≤ n ∧ rows.length = last + 1 - first
  | changed first last rows => first ≤ last ∧ last < n ∧ rows.length = last + 1 - first

instance (n : ℕ) (c : Change Row) : Decidable (c.Legal n) := by
  cases c <;> unfold Legal <;> infer_instance

/-- The rows after a change. -/
def result (rows : List Row) : Change Row → List Row
  | removed first last => rows.take first ++ rows.drop (last + 1)
  | moved first last dest =>
    if dest < first then rotate rows dest first (last + 1) else rotate rows first (last + 1) dest
  | inserted first _ new => rows.take first ++ new ++ rows.drop first
  | changed first last new => rows.take first ++ new ++ rows.drop (last + 1)

/-- A view goes along with a change, if it is legal. -/
def apply (rows : List Row) (c : Change Row) : Option (List Row) :=
  if c.Legal rows.length then some (c.result rows) else none

/-- The rows that a change removes. -/
def takes (rows : List Row) : Change Row → List Row
  | removed first last => (rows.take (last + 1)).drop first
  | _ => []

/-- The rows that a change inserts. -/
def brings : Change Row → List Row
  | inserted _ _ rows => rows
  | _ => []

/-- Whether a change is of rows that stay where they are. -/
def refreshes : Change Row → Bool
  | changed .. => true
  | _ => false

/-- A change, of what is read of the rows. -/
def map {α : Type} (f : Row → α) : Change Row → Change α
  | removed first last => .removed first last
  | moved first last dest => .moved first last dest
  | inserted first last rows => .inserted first last (rows.map f)
  | changed first last rows => .changed first last (rows.map f)

end Change

/-- A view goes along with changes. -/
def replay (changes : List (Change Row)) (rows : List Row) : Option (List Row) :=
  changes.foldlM Change.apply rows

/-- The rows removed on the way. -/
def removedRows : List (Change Row) → List Row → List Row
  | [], _ => []
  | c :: changes, rows => c.takes rows ++ ((c.apply rows).map (removedRows changes)).getD []

/-- The rows inserted on the way. -/
def insertedRows (changes : List (Change Row)) : List Row := changes.flatMap Change.brings

@[simp]
theorem replay_nil (rows : List Row) : replay [] rows = some rows := rfl

theorem replay_cons (c : Change Row) (changes : List (Change Row)) (rows : List Row) :
    replay (c :: changes) rows = (c.apply rows).bind (replay changes) := rfl

theorem replay_append (early late : List (Change Row)) (rows : List Row) :
    replay (early ++ late) rows = (replay early rows).bind (replay late) :=
  List.foldlM_append ..

theorem removedRows_append {early late : List (Change Row)} {rows mid : List Row}
    (h : replay early rows = some mid) :
    removedRows (early ++ late) rows = removedRows early rows ++ removedRows late mid := by
  induction early generalizing rows with
  | nil =>
    obtain rfl := Option.some.inj h
    rfl
  | cons c early ih =>
    obtain ⟨next, hnext, h⟩ := Option.bind_eq_some_iff.1 (replay_cons .. ▸ h)
    simp only [List.cons_append, removedRows, hnext, Option.map_some, Option.getD_some, ih h,
      List.append_assoc]

theorem removedRows_eq_nil {changes : List (Change Row)}
    (h : ∀ c ∈ changes, ∀ rows, c.takes rows = [])
    (rows : List Row) : removedRows changes rows = [] := by
  induction changes generalizing rows with
  | nil => rfl
  | cons c changes ih =>
    have ih := ih fun c hc => h c (List.mem_cons_of_mem _ hc)
    rw [removedRows, h c List.mem_cons_self, List.nil_append]
    cases c.apply rows with
    | none => rfl
    | some next => exact ih next

/-! ## One row at a time -/

section OneRow

variable {done todo : List Row} {row : Row} {n : ℕ} (changes : List (Change Row))

theorem apply_removed (hn : done.length = n) :
    (Change.removed n n).apply (done ++ row :: todo) = some (done ++ todo) := by
  subst hn
  rw [Change.apply, if_pos ⟨le_rfl, by simp⟩, Change.result]
  simp

theorem apply_inserted (hn : done.length = n) :
    (Change.inserted n n [row]).apply (done ++ todo) = some (done ++ row :: todo) := by
  subst hn
  rw [Change.apply, if_pos ⟨le_rfl, by simp, by simp⟩, Change.result]
  simp

theorem replay_removed (hn : done.length = n) :
    replay (.removed n n :: changes) (done ++ row :: todo) = replay changes (done ++ todo) := by
  rw [replay_cons, apply_removed hn, Option.bind_some]

theorem apply_changed {row' : Row} (hn : done.length = n) :
    (Change.changed n n [row']).apply (done ++ row :: todo) = some (done ++ row' :: todo) := by
  subst hn
  rw [Change.apply, if_pos ⟨le_rfl, by simp, by simp⟩, Change.result]
  simp

theorem replay_changed {row' : Row} (hn : done.length = n) :
    replay (.changed n n [row'] :: changes) (done ++ row :: todo) =
      replay changes (done ++ row' :: todo) := by
  rw [replay_cons, apply_changed hn, Option.bind_some]

theorem replay_inserted (hn : done.length = n) :
    replay (.inserted n n [row] :: changes) (done ++ todo) =
      replay changes (done ++ row :: todo) := by
  rw [replay_cons, apply_inserted hn, Option.bind_some]

theorem removedRows_removed (hn : done.length = n) :
    removedRows (.removed n n :: changes) (done ++ row :: todo) =
      row :: removedRows changes (done ++ todo) := by
  have htakes : (Change.removed n n).takes (done ++ row :: todo) = [row] := by
    rw [Change.takes, List.drop_take, List.drop_left' hn, Nat.add_sub_cancel_left]
    rfl
  rw [removedRows, apply_removed hn, htakes]
  rfl

theorem removedRows_inserted (hn : done.length = n) :
    removedRows (.inserted n n [row] :: changes) (done ++ todo) =
      removedRows changes (done ++ row :: todo) := by
  rw [removedRows, apply_inserted hn]
  rfl

theorem insertedRows_cons (c : Change Row) :
    insertedRows (c :: changes) = c.brings ++ insertedRows changes := List.flatMap_cons

end OneRow

/-! ## Rows that are gone -/

section Gone

variable (keyOf : Row → Key) (wanted : Key → Bool)

theorem runStart_gone {rows : List Row} {n : ℕ} (hn : n ≤ rows.length) :
    ∀ row ∈ (rows.take n).drop (runStart keyOf wanted rows n), wanted (keyOf row) = false := by
  induction n with
  | zero => simp
  | succ first ih =>
    rw [runStart]
    split_ifs with h
    · intro row hrow
      rw [List.take_succ_eq_append_getElem (by omega), List.drop_append_of_le_length
        ((runStart_le ..).trans (List.length_take_of_le (by omega)).ge), List.mem_append,
        List.mem_singleton] at hrow
      rcases hrow with hrow | rfl
      · exact ih (by omega) row hrow
      · simpa [List.getElem?_eq_getElem (show first < rows.length by omega)] using h
    · simp [List.drop_eq_nil_of_le]

/-- Those of the first rows that are gone are removed, in legal changes. -/
theorem removeGone_spec (rows : List Row) {n : ℕ} (hn : n ≤ rows.length) :
    (removeGone keyOf wanted rows n).1 =
        (rows.take n).filter (fun row => wanted (keyOf row)) ++ rows.drop n ∧
      replay (removeGone keyOf wanted rows n).2 rows =
        some (removeGone keyOf wanted rows n).1 ∧
      (∀ row ∈ removedRows (removeGone keyOf wanted rows n).2 rows,
        wanted (keyOf row) = false) ∧
      ∀ c ∈ (removeGone keyOf wanted rows n).2, c.brings = [] ∧ c.refreshes = false := by
  induction n using Nat.strong_induction_on generalizing rows with
  | _ n ih =>
  rcases n with - | i
  · simp [removeGone, removedRows]
  have hi : i < rows.length := hn
  rw [removeGone]
  split_ifs with hwanted
  · obtain ⟨hrows, h⟩ := ih i (Nat.lt_succ_self i) rows hi.le
    refine ⟨?_, h⟩
    rw [List.getElem?_eq_getElem hi, Option.any_some] at hwanted
    have hkeep : [rows[i]].filter (fun row => wanted (keyOf row)) = [rows[i]] :=
      List.filter_eq_self.2 fun row hrow => List.mem_singleton.1 hrow ▸ hwanted
    rw [hrows, List.take_succ_eq_append_getElem hi, List.filter_append, List.append_assoc, hkeep,
      List.singleton_append, ← List.drop_eq_getElem_cons hi]
  · -- The run is removed, and the rows before it are gone through in turn.
    set first := runStart keyOf wanted rows i with hfirst
    have hle : first ≤ i := runStart_le keyOf wanted rows i
    have hlen : (rows.take first).length = first := List.length_take_of_le (by omega)
    have hgone : ∀ row ∈ (rows.take (i + 1)).drop first, wanted (keyOf row) = false := by
      intro row hrow
      rw [List.take_succ_eq_append_getElem hi, List.drop_append_of_le_length
        (hle.trans (List.length_take_of_le hi.le).ge), List.mem_append,
        List.mem_singleton] at hrow
      rcases hrow with hrow | rfl
      · exact runStart_gone keyOf wanted hi.le row hrow
      · simpa [List.getElem?_eq_getElem hi] using hwanted
    obtain ⟨hrows, hreplay, hremoved, hkinds⟩ := ih first (Nat.lt_succ_of_le hle)
      (rows.take first ++ rows.drop (i + 1)) (by rw [List.length_append, hlen]; omega)
    have happly : (Change.removed first i).apply rows =
        some (rows.take first ++ rows.drop (i + 1)) := if_pos ⟨hle, hi⟩
    rw [List.take_append_of_le_length hlen.ge, List.take_of_length_le hlen.le,
      List.drop_append_of_le_length hlen.ge, List.drop_eq_nil_of_le hlen.le,
      List.nil_append] at hrows
    refine ⟨?_, ?_, ?_, ?_⟩
    · rw [hrows, ← List.take_append_drop first (rows.take (i + 1)), List.take_take,
        min_eq_left (by omega), List.filter_append, List.filter_eq_nil_iff.2 fun row hrow =>
          Bool.eq_false_iff.1 (hgone row hrow), List.append_nil]
    · rw [replay_cons, happly, Option.bind_some, hreplay]
    · intro row hrow
      rw [removedRows, happly, Option.map_some, Option.getD_some, List.mem_append] at hrow
      exact hrow.elim (hgone row) (hremoved row)
    · exact List.forall_mem_cons.2 ⟨⟨rfl, rfl⟩, hkinds⟩

end Gone

/-! ## Rows that are brought into place -/

section Place

theorem map_rotate {α β : Type} (f : α → β) (rows : List α) (first middle last : ℕ) :
    (rotate rows first middle last).map f = rotate (rows.map f) first middle last := by
  simp [rotate, List.map_take, List.map_drop]

/-- To rotate up to after an element puts it before those that it passes. -/
theorem rotate_append {α : Type} (done before after : List α) (x : α) :
    rotate (done ++ (before ++ x :: after)) done.length (done.length + before.length)
        (done.length + before.length + 1) =
      done ++ x :: (before ++ after) := by
  have hlen : (done ++ before).length = done.length + before.length := List.length_append
  have hlen' : (done ++ before ++ [x]).length = done.length + before.length + 1 := by
    rw [List.length_append, hlen, List.length_singleton]
  have h : done ++ (before ++ x :: after) = done ++ before ++ [x] ++ after := by simp
  have hupTo : (done ++ (before ++ x :: after)).take (done.length + before.length) =
      done ++ before := by
    rw [h, List.append_assoc (done ++ before)]
    exact List.take_left' hlen
  have hwith : (done ++ (before ++ x :: after)).take (done.length + before.length + 1) =
      done ++ before ++ [x] := by
    rw [h]
    exact List.take_left' hlen'
  have hafter : (done ++ (before ++ x :: after)).drop (done.length + before.length + 1) =
      after := by
    rw [h]
    exact List.drop_left' hlen'
  rw [rotate, hupTo, hwith, hafter, List.take_left, List.drop_left, List.drop_left' hlen]
  simp

/-- A row that is found has rows before it that are not it. -/
theorem exists_of_findIdx?_eq_some {α : Type} {p : α → Bool} {l : List α} {k : ℕ}
    (h : l.findIdx? p = some k) :
    ∃ before x after, l = before ++ x :: after ∧ before.length = k ∧ p x = true ∧
      ∀ y ∈ before, ¬p y = true := by
  obtain ⟨hk, hx, hbefore⟩ := List.findIdx?_eq_some_iff_getElem.1 h
  refine ⟨l.take k, l[k], l.drop (k + 1), ?_, List.length_take_of_le hk.le, hx, fun y hy => ?_⟩
  · rw [← List.drop_eq_getElem_cons hk, List.take_append_drop]
  · obtain ⟨j, hj, rfl⟩ := List.mem_iff_getElem.1 hy
    rw [List.getElem_take]
    exact hbefore j (hj.trans_le (List.length_take_le ..))

variable [DecidableEq Key] (keyOf : Row → Key)

/-- One row is brought into place: what is still to be placed loses the first with its key,
    and a view with rows of the same keys can go along. -/
theorem place_cons (row : Row) (rest done todo : List Row) :
    ∃ todo' changes,
      todo'.map keyOf = (todo.map keyOf).erase (keyOf row) ∧
      place keyOf (done ++ todo) done.length (row :: rest) =
        ((place keyOf (done ++ [row] ++ todo') (done ++ [row]).length rest).1,
          changes ++ (place keyOf (done ++ [row] ++ todo') (done ++ [row]).length rest).2) ∧
      (∀ view : List Row, view.map keyOf = (done ++ todo).map keyOf →
        ∃ view', replay changes view = some view' ∧
          view'.map keyOf = (done ++ [row] ++ todo').map keyOf) ∧
      (∀ c ∈ changes, (∀ rows, c.takes rows = []) ∧ c.refreshes = false) ∧
      ∀ new ∈ insertedRows changes, new = row ∧ keyOf row ∉ todo.map keyOf := by
  have hhead : (done ++ todo)[done.length]? = todo.head? := by
    rw [List.getElem?_append_right le_rfl, Nat.sub_self, List.head?_eq_getElem?]
  have hdrop : (done ++ todo).drop (done.length + 1) = todo.tail := by
    rw [List.drop_length_add_append, List.drop_one]
  rw [place, hhead, hdrop]
  split_ifs with hhere
  · -- It is there already.
    obtain - | ⟨r, todo⟩ := todo
    · simp at hhere
    have hkey : keyOf r = keyOf row := by simpa using hhere
    refine ⟨todo, [], by simp [hkey], by simp, fun view hview => ⟨view, rfl, ?_⟩, by simp,
      by simp [insertedRows]⟩
    simpa [hkey] using hview
  have hlen : ∀ view : List Row, view.map keyOf = (done ++ todo).map keyOf →
      view.length = done.length + todo.length := fun view hview => by
    simpa using congrArg List.length hview
  split
  case h_1 k hfind =>
    -- It is further down, and moves before those that it passes.
    obtain ⟨before, x, after, rfl, hk, hx, hbefore⟩ : ∃ before x after,
        todo = before ++ x :: after ∧ before.length = k + 1 ∧ keyOf x = keyOf row ∧
          keyOf row ∉ before.map keyOf := by
      obtain ⟨before, x, after, htail, rfl, hx, hbefore⟩ := exists_of_findIdx?_eq_some hfind
      obtain - | ⟨r, todo⟩ := todo
      · simp at htail
      · refine ⟨r :: before, x, after, by simpa using htail, rfl, by simpa using hx, fun hmem => ?_⟩
        obtain ⟨y, hy, hkey⟩ := List.mem_map.1 hmem
        rcases List.mem_cons.1 hy with rfl | hy
        · exact hhere (by simpa using hkey)
        · exact hbefore y hy (by simpa using hkey)
    have hstart : done.length + 1 + k = done.length + before.length := by omega
    refine ⟨before ++ after, [.moved (done.length + before.length) (done.length + before.length)
      done.length], ?_, ?_, fun view hview => ?_, by simp [Change.takes, Change.refreshes],
      by simp [insertedRows, Change.brings]⟩
    · rw [List.map_append, List.map_append, List.erase_append_right _ hbefore, List.map_cons, hx,
        List.erase_cons_head]
    · simp only [hstart, rotate_append]
      simp
    · have hview' := hlen view hview
      rw [List.length_append, List.length_cons] at hview'
      refine ⟨_, Option.bind_eq_some_iff.2 ⟨_, if_pos ⟨le_rfl, by omega, by omega, .inl (by omega)⟩,
        rfl⟩, ?_⟩
      rw [Change.result, if_pos (by omega), map_rotate, hview, ← map_rotate, rotate_append]
      simp [hx]
  case h_2 hfind =>
    -- It is new.
    have hnew : keyOf row ∉ todo.map keyOf := by
      intro hmem
      obtain ⟨y, hy, hkey⟩ := List.mem_map.1 hmem
      obtain - | ⟨r, todo⟩ := todo
      · simp at hy
      rcases List.mem_cons.1 hy with rfl | hy
      · exact hhere (by simpa using hkey)
      · simpa [hkey] using List.findIdx?_eq_none_iff.1 hfind y hy
    refine ⟨todo, [.inserted done.length done.length [row]], (List.erase_of_not_mem hnew).symm, ?_,
      fun view hview => ?_, by simp [Change.takes, Change.refreshes], ?_⟩
    · simp
    · have hview' := hlen view hview
      refine ⟨_, Option.bind_eq_some_iff.2 ⟨_, if_pos ⟨le_rfl, by omega, by simp⟩, rfl⟩, ?_⟩
      rw [Change.result, List.map_append, List.map_append, List.map_take, List.map_drop, hview]
      simp
    · simpa [insertedRows, Change.brings] using hnew

/-- The rows are brought into place before what is left over, and nothing is inserted that was
    there. -/
theorem place_spec (rest : List Row) :
    ∀ done todo : List Row, ∃ left,
      (place keyOf (done ++ todo) done.length rest).1 = done ++ rest ++ left ∧
      left.map keyOf = (todo.map keyOf).diff (rest.map keyOf) ∧
      (∀ view : List Row, view.map keyOf = (done ++ todo).map keyOf →
        ∃ view', replay (place keyOf (done ++ todo) done.length rest).2 view = some view' ∧
          view'.map keyOf = (done ++ rest ++ left).map keyOf) ∧
      (∀ c ∈ (place keyOf (done ++ todo) done.length rest).2,
        (∀ rows, c.takes rows = []) ∧ c.refreshes = false) ∧
      ((rest.map keyOf).Nodup →
        ∀ new ∈ insertedRows (place keyOf (done ++ todo) done.length rest).2,
          new ∈ rest ∧ keyOf new ∉ todo.map keyOf) := by
  induction rest with
  | nil =>
    intro done todo
    exact ⟨todo, by simp [place], by simp, fun view hview => ⟨view, rfl, by simpa using hview⟩,
      by simp [place], by simp [place, insertedRows]⟩
  | cons row rest ih =>
    intro done todo
    obtain ⟨todo', changes, hkeys, hplace, hview, hkinds, hnew⟩ :=
      place_cons keyOf row rest done todo
    obtain ⟨left, hrows, hleft, hview', hkinds', hnew'⟩ := ih (done ++ [row]) todo'
    rw [hplace]
    refine ⟨left, by simpa using hrows, ?_, fun view h => ?_, ?_, fun hnodup new hmem => ?_⟩
    · rw [hleft, hkeys, List.map_cons, List.diff_cons]
    · obtain ⟨mid, hmid, hmidKeys⟩ := hview view h
      obtain ⟨last, hlast, hlastKeys⟩ := hview' mid hmidKeys
      refine ⟨last, ?_, by simpa using hlastKeys⟩
      rw [replay_append, hmid, Option.bind_some, hlast]
    · intro c hc
      exact (List.mem_append.1 hc).elim (hkinds c) (hkinds' c)
    · rw [List.map_cons, List.nodup_cons] at hnodup
      rw [insertedRows, List.flatMap_append, List.mem_append] at hmem
      rcases hmem with hmem | hmem
      · obtain ⟨rfl, hmem⟩ := hnew new hmem
        exact ⟨List.mem_cons_self, hmem⟩
      · obtain ⟨hrest, hmem⟩ := hnew' hnodup.2 new hmem
        refine ⟨List.mem_cons_of_mem _ hrest, fun htodo => hmem ?_⟩
        rw [hkeys]
        -- Its key is not that of the row just placed.
        refine (List.mem_erase_of_ne ?_).2 htodo
        rintro heq
        exact hnodup.1 (heq ▸ List.mem_map_of_mem hrest)

end Place

/-! ## Whole updates -/

variable [DecidableEq Key] (keyOf : Row → Key)

omit [DecidableEq Key] in
/-- What is left over is removed. -/
theorem removeLeftOver_spec {next left view : List Row}
    (hview : view.map keyOf = (next ++ left).map keyOf) :
    (removeLeftOver (next ++ left) next.length).1 = next ∧
      (∃ view', replay (removeLeftOver (next ++ left) next.length).2 view = some view' ∧
        view'.map keyOf = next.map keyOf) ∧
      (∀ c ∈ (removeLeftOver (next ++ left) next.length).2, c.brings = [] ∧ c.refreshes = false) ∧
      (left = [] → (removeLeftOver (next ++ left) next.length).2 = []) := by
  have hlen : view.length = (next ++ left).length := by simpa using congrArg List.length hview
  rw [removeLeftOver]
  split_ifs with h
  · refine ⟨List.take_left, ⟨_, Option.bind_eq_some_iff.2
      ⟨_, if_pos ⟨by omega, by omega⟩, rfl⟩, ?_⟩,
      by simp [Change.brings, Change.refreshes], fun hleft => by simp [hleft] at h⟩
    rw [Change.result, Nat.sub_add_cancel (by omega), List.drop_eq_nil_of_le hlen.le,
      List.append_nil, List.map_take, hview, List.map_append]
    exact List.take_left' (List.length_map _)
  · have hleft : left = [] := List.length_eq_zero_iff.1 (by simpa using h)
    exact ⟨by rw [hleft, List.append_nil], ⟨view, rfl, by rw [hview, hleft, List.append_nil]⟩,
      by simp, fun _ => rfl⟩

/-- All contents are refreshed. -/
theorem replay_refresh {next view : List Row} (hlen : view.length = next.length) :
    replay (refresh next) view = some next := by
  cases next with
  | nil => rw [List.length_eq_zero_iff.1 hlen]; rfl
  | cons row rest =>
    have hlegal : (Change.changed 0 ((row :: rest).length - 1) (row :: rest)).Legal view.length :=
      ⟨Nat.zero_le _, by simp [hlen], by simp⟩
    rw [refresh, List.isEmpty_cons, if_neg Bool.false_ne_true, replay_cons, Change.apply,
      if_pos hlegal, Option.bind_some, replay_nil, Change.result, Nat.sub_add_cancel (by simp),
      List.drop_eq_nil_of_le hlen.le]
    simp

theorem refresh_kinds (rows : List Row) :
    ∀ c ∈ refresh rows, (∀ rows, c.takes rows = []) ∧ c.brings = [] ∧ c.refreshes = true := by
  intro c hc
  rw [refresh] at hc
  split_ifs at hc
  · simp at hc
  · rw [List.mem_singleton.1 hc]
    exact ⟨fun _ => rfl, rfl, rfl⟩

/-- Replacing the rows is exact: they are then those given, in their order; all changes are
    legal, and bring a view with the old rows to them, up to contents before these are
    refreshed. Where no two rows have the same key in either, none with a key in both is removed
    or inserted. -/
theorem replaceRows_exact (old next : List Row) :
    (replaceRows keyOf old next).1 = next ∧
      replay (replaceRows keyOf old next).2 old = some next ∧
      (∃ view,
        replay ((replaceRows keyOf old next).2.filter fun c => !c.refreshes) old = some view ∧
        view.map keyOf = next.map keyOf) ∧
      ((old.map keyOf).Nodup → (next.map keyOf).Nodup →
        (∀ row ∈ removedRows (replaceRows keyOf old next).2 old, keyOf row ∉ next.map keyOf) ∧
          ∀ row ∈ insertedRows (replaceRows keyOf old next).2, keyOf row ∉ old.map keyOf) := by
  set wanted : Key → Bool := fun key => next.any fun row => keyOf row = key with hwanted
  have hwantedIff : ∀ row : Row, wanted (keyOf row) = true ↔ keyOf row ∈ next.map keyOf := by
    intro row
    simp [hwanted]
  -- First the rows that are gone are removed, ...
  obtain ⟨hkept, hgoneReplay, hgone, hgoneKinds⟩ := removeGone_spec keyOf wanted old le_rfl
  rw [List.take_length, List.drop_length, List.append_nil] at hkept
  set kept := (removeGone keyOf wanted old old.length).1
  set gone := (removeGone keyOf wanted old old.length).2
  -- ... then those given are brought into place, ...
  obtain ⟨left, hplaced, hleft, hplacedReplay, hplacedKinds, hinserted⟩ :=
    place_spec keyOf next [] kept
  simp only [List.nil_append, List.length_nil] at hplaced hplacedReplay hplacedKinds hinserted
  obtain ⟨view, hview, hkeys⟩ := hplacedReplay kept rfl
  -- ... and what is left over behind them is removed.
  obtain ⟨hnextRows, ⟨view', hview', hkeys'⟩, hleftKinds, hleftNil⟩ :=
    removeLeftOver_spec keyOf hkeys
  set placed := (place keyOf kept 0 next).2
  set trim := (removeLeftOver (next ++ left) next.length).2
  have hres : replaceRows keyOf old next = (next, gone ++ placed ++ trim ++ refresh next) := by
    have h : replaceRows keyOf old next =
        ((removeLeftOver (place keyOf kept 0 next).1 next.length).1,
          gone ++ placed ++
            (removeLeftOver (place keyOf kept 0 next).1 next.length).2 ++
            refresh (removeLeftOver
              (place keyOf kept 0 next).1 next.length).1) := rfl
    rwa [hplaced, hnextRows] at h
  have hstructural : replay (gone ++ placed ++ trim) old = some view' := by
    rw [replay_append, replay_append, hgoneReplay, Option.bind_some, hview,
      Option.bind_some, hview']
  have hrefresh : replay (refresh next) view' = some next :=
    replay_refresh (by simpa using congrArg List.length hkeys')
  rw [hres]
  refine ⟨rfl, ?_, ⟨view', ?_, hkeys'⟩, fun hold hnext => ⟨fun row hrow => ?_, fun row hrow => ?_⟩⟩
  · rw [replay_append, hstructural, Option.bind_some, hrefresh]
  · rw [List.filter_append, List.filter_eq_self.2, List.filter_eq_nil_iff.2, List.append_nil,
      hstructural]
    · exact fun c hc => by simp [(refresh_kinds next c hc).2.2]
    · intro c hc
      rw [Bool.not_eq_true']
      rcases List.mem_append.1 hc with hc | hc
      · exact (List.mem_append.1 hc).elim (fun hc => (hgoneKinds c hc).2)
          fun hc => (hplacedKinds c hc).2
      · exact (hleftKinds c hc).2
  · -- Of rows with keys of their own nothing is left over.
    have hleft' : left = [] := by
      rw [← List.map_eq_nil_iff (f := keyOf), hleft, List.Nodup.sdiff_eq_filter]
      · refine List.filter_eq_nil_iff.2 fun key hkey => ?_
        obtain ⟨row, hrow, rfl⟩ := List.mem_map.1 hkey
        rw [hkept, List.mem_filter] at hrow
        simpa using (hwantedIff row).1 hrow.2
      · rw [hkept]
        exact hold.sublist (List.filter_sublist.map keyOf)
    rw [removedRows_append hstructural, hleftNil hleft', List.append_nil,
      removedRows_append hgoneReplay, removedRows_eq_nil fun c hc => (hplacedKinds c hc).1,
      removedRows_eq_nil fun c hc => (refresh_kinds next c hc).1, List.append_nil,
      List.append_nil] at hrow
    exact fun hmem => Bool.eq_false_iff.1 (hgone row hrow) ((hwantedIff row).2 hmem)
  · -- Only the second part brings rows, and those have keys that were not kept.
    have hbrings : insertedRows (gone ++ placed ++ trim ++ refresh next) = insertedRows placed := by
      simp only [insertedRows, List.flatMap_append]
      rw [List.flatMap_eq_nil_iff.2 fun c hc => (hgoneKinds c hc).1,
        List.flatMap_eq_nil_iff.2 fun c hc => (hleftKinds c hc).1,
        List.flatMap_eq_nil_iff.2 fun c hc => (refresh_kinds next c hc).2.1]
      simp
    rw [hbrings] at hrow
    obtain ⟨hmem, hnew⟩ := hinserted hnext row hrow
    intro hmemOld
    obtain ⟨r, hr, hkey⟩ := List.mem_map.1 hmemOld
    refine hnew (List.mem_map.2 ⟨r, ?_, hkey⟩)
    rw [hkept]
    exact List.mem_filter.2 ⟨hr, (hwantedIff r).2 (hkey ▸ List.mem_map_of_mem hmem)⟩

end Dht.KeyedListModel
