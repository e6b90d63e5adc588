import Mathlib.Tactic

/-!
# A list model that is replaced by difference

The rows of a `KeyedListModel` are replaced by others with as few changes as it can tell by
their keys (`replaceRows`), so that a view of them keeps its place: rows that are gone are
removed, new ones inserted and those at another place moved. The changes are what is
announced to the views, with the rows that are read upon it.
-/

namespace Dht.KeyedListModel

variable {Row Key : Type}

/-- What is announced to the views. -/
inductive Change (Row : Type)
  | removed (first last : ℕ)
  /-- The rows go before the one at `dest`. -/
  | moved (first last dest : ℕ)
  | inserted (first last : ℕ) (rows : List Row)
  /-- New contents, for as many rows. -/
  | changed (first last : ℕ) (rows : List Row)

/-- The elements with those from `middle` to `last` before those from `first` on
    (`std::rotate`). -/
def rotate (rows : List Row) (first middle last : ℕ) : List Row :=
  rows.take first ++ (rows.take last).drop middle ++ (rows.take middle).drop first ++
    rows.drop last

variable (keyOf : Row → Key) (wanted : Key → Bool)

/-- Where the rows that are gone begin that come right before a row. -/
def runStart (rows : List Row) : ℕ → ℕ
  | 0 => 0
  | first + 1 =>
    if rows[first]?.any fun row => !wanted (keyOf row) then runStart rows first else first + 1

theorem runStart_le (rows : List Row) (n : ℕ) : runStart keyOf wanted rows n ≤ n := by
  induction n with
  | zero => exact le_rfl
  | succ first ih =>
    rw [runStart]
    split_ifs
    · exact ih.trans (Nat.le_succ _)
    · exact le_rfl

/-- Removes the rows that are gone, of the first `n`, from the back so that earlier indexes
    stay valid. -/
def removeGone (rows : List Row) : ℕ → List Row × List (Change Row)
  | 0 => (rows, [])
  | i + 1 =>
    if rows[i]?.any fun row => wanted (keyOf row) then removeGone rows i
    else
      let first := runStart keyOf wanted rows i
      let (rows, changes) := removeGone (rows.take first ++ rows.drop (i + 1)) first
      (rows, .removed first i :: changes)
termination_by n => n
decreasing_by
  · exact Nat.lt_succ_self i
  · exact Nat.lt_succ_of_le (runStart_le keyOf wanted rows i)

variable [DecidableEq Key]

/-- Brings the wanted rows into place, from position `i` on: each is already there, further
    down, or new. -/
def place (rows : List Row) (i : ℕ) : List Row → List Row × List (Change Row)
  | [] => (rows, [])
  | row :: rest =>
    if rows[i]?.any fun r => keyOf r = keyOf row then place (rows.set i row) (i + 1) rest
    else
      match (rows.drop (i + 1)).findIdx? fun r => keyOf r = keyOf row with
      | some k =>
        let start := i + 1 + k
        let (rows, changes) := place ((rotate rows i start (start + 1)).set i row) (i + 1) rest
        (rows, .moved start start i :: changes)
      | none =>
        let (rows, changes) := place (rows.take i ++ row :: rows.drop i) (i + 1) rest
        (rows, .inserted i i [row] :: changes)

/-- Removes the rows past the first `n`: only duplicate keys can leave any over. -/
def removeLeftOver (rows : List Row) (n : ℕ) : List Row × List (Change Row) :=
  if rows.length > n then (rows.take n, [.removed n (rows.length - 1)]) else (rows, [])

/-- Rows that stayed can still have changed. -/
def refresh (rows : List Row) : List (Change Row) :=
  if rows.isEmpty then [] else [.changed 0 (rows.length - 1) rows]

/-- Brings the rows in line with `next`, in its order: the rows then, and what was announced. -/
def replaceRows (rows next : List Row) : List Row × List (Change Row) :=
  let wanted key := next.any fun row => keyOf row = key
  let (rows, gone) := removeGone keyOf wanted rows rows.length
  let (rows, placed) := place keyOf rows 0 next
  let (rows, left) := removeLeftOver rows next.length
  (rows, gone ++ placed ++ left ++ refresh rows)

end Dht.KeyedListModel
