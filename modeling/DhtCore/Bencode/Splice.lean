import DhtCore.Bencode.RoundTrip

/-!
# Values spliced into others

A value keeps the bytes it was read from (`rawSpan_valueAt`), whatever is around
them: where a dictionary finds a value, the bytes of the value are in those of the
dictionary (`firstAt_eq_some`). So bytes that were read as a value once may be
emitted as they are (`BValue.preEncoded`) in a dictionary of plain values, and are
read there as the same value (`spliceAt_spec`, `find_spliceAt`).
-/

namespace Dht.Bencode

open Decimal

variable {levels : ℕ} {t : Tree} {k : Bytes}

/-! ## Where values are -/

theorem span_valueAt (t : Tree) (pos : ℕ) : (t.valueAt pos).span = ⟨pos, t.source.length⟩ := by
  cases t with
  | integer negative digits => rw [Tree.valueAt, BValue.span, Tree.source]
  | string s => rw [Tree.valueAt, BValue.span, Tree.source]
  | list items => rw [Tree.valueAt, BValue.span]
  | dict entries => rw [Tree.valueAt, BValue.span]

/-- The bytes of a value are those it is written as. -/
theorem rawSpan_valueAt (ht : t.Fits levels) {data pre post : Bytes}
    (hdata : data = pre ++ t.source ++ post) : (t.valueAt pre.length).rawSpan data = t.source := by
  have hpos := t.length_source_pos ht
  rw [BValue.rawSpan, span_valueAt]
  dsimp only
  rw [if_neg]
  · simp [hdata]
  · rw [hdata, List.length_append, List.length_append]
    omega

/-- The value found for a key is that of an entry, whose bytes are among those of the
    entries. -/
theorem firstAt_eq_some {pos : ℕ} {es : List (Text × Tree)} {v : BValue}
    (h : firstAt k pos es = some v) :
    ∃ e ∈ es, e.1.bytes = k ∧ ∃ pre post, sourceEntries es = pre ++ e.2.source ++ post ∧
      v = e.2.valueAt (pos + pre.length) := by
  induction es generalizing pos with
  | nil => simp [firstAt] at h
  | cons e es ih =>
    obtain ⟨key, t⟩ := e
    rw [firstAt] at h
    split_ifs at h with hkey
    · refine ⟨(key, t), List.mem_cons_self, hkey, key.source,
        sourceEntries es, by rw [sourceEntries], ?_⟩
      exact (Option.some.inj h).symm
    · obtain ⟨e, he, hkey', pre, post, hsource, rfl⟩ := ih h
      refine ⟨e, List.mem_cons_of_mem _ he, hkey', key.source ++ t.source ++ pre, post, ?_, ?_⟩
      · rw [sourceEntries, hsource]
        simp only [List.append_assoc]
      · simp only [List.length_append]
        congr 1
        omega

/-- A value in a dictionary of a value in the data: its bytes are in the data, and it
    nests one level less. -/
theorem find_valueAt {pre post data : Bytes} {v : BValue} (ht : t.Fits levels)
    (hdata : data = pre ++ t.source ++ post) (h : (t.valueAt pre.length).find k = some v) :
    ∃ (l : ℕ) (u : Tree) (pre' post' : Bytes), levels = l + 1 ∧ u.Fits l ∧
      data = pre' ++ u.source ++ post' ∧ v = u.valueAt pre'.length := by
  cases t with
  | integer _ _ => simp [Tree.valueAt, BValue.find] at h
  | string _ => simp [Tree.valueAt, BValue.find] at h
  | list _ => simp [Tree.valueAt, BValue.find] at h
  | dict es =>
    cases levels with
    | zero => exact absurd ht id
    | succ l =>
      rw [Tree.valueAt, BValue.find, lookup_entriesAt, List.lookup_nil, Option.none_or] at h
      obtain ⟨e, he, -, pre', post', hsource, rfl⟩ := firstAt_eq_some h
      refine ⟨l, e.2, pre ++ ascii "d" ++ pre', post' ++ ascii "e" ++ post, rfl,
        (ht e he).2, ?_, ?_⟩
      · rw [hdata, Tree.source, hsource]
        simp only [List.append_assoc]
      · simp [ascii_d, Nat.add_assoc, Nat.add_comm 1]

/-! ## Splicing -/

/-- A byte string, or a 64-bit integer. -/
def Plain : BValue → Prop
  | .string _ _ => True
  | .integer n _ => IsInt64 n
  | _ => False

theorem plain_string (s : Bytes) : Plain (.string s) := trivial

theorem plain_integer {n : ℤ} (h : IsInt64 n) : Plain (.integer n) := h

theorem Plain.encodable {v : BValue} (h : Plain v) (hlen : (bencode v).length < 10 ^ 10) :
    v.Encodable levels := by
  cases v with
  | string s _ =>
    have hs : s.length < 10 ^ 10 := by
      rw [bencode, List.length_append] at hlen
      omega
    cases levels <;> exact hs
  | integer n _ => cases levels <;> exact h
  | _ => exact absurd h id

/-- The entries of a dictionary are no longer than it. -/
theorem length_bencode_entry {entries : BValue.Dict} {e : Bytes × BValue} (he : e ∈ entries) :
    e.1.length + (bencode e.2).length ≤ (bencode (.dict entries)).length := by
  have hle : e.1.length + (bencode e.2).length ≤ (bencodeDict entries).length := by
    induction entries with
    | nil => exact absurd he List.not_mem_nil
    | cons e' entries ih =>
      obtain ⟨key, v⟩ := e'
      simp only [bencodeDict, List.length_append]
      rcases List.mem_cons.1 he with rfl | he
      · dsimp only
        omega
      · have hrest := ih he
        omega
  rw [bencode, List.length_append, List.length_append]
  omega

/-- What is at a key is encoded as the bytes given, and the rest is plain. -/
def PlainBut (k raw : Bytes) (entries : BValue.Dict) : Prop :=
  ∀ e ∈ entries, if e.1 = k then bencode e.2 = raw else Plain e.2

theorem PlainBut.nil (k raw : Bytes) : PlainBut k raw [] := fun _ he => absurd he List.not_mem_nil

section

variable {raw key : Bytes} {value : BValue} {entries : BValue.Dict}

theorem PlainBut.emplace (h : PlainBut k raw entries) (hne : key ≠ k) (hvalue : Plain value) :
    PlainBut k raw (entries.emplace key value) := by
  intro e he
  rcases BValue.Dict.mem_emplace he with rfl | he
  · rwa [if_neg hne]
  · exact h e he

theorem PlainBut.emplace_self (h : PlainBut k raw entries) (hvalue : bencode value = raw) :
    PlainBut k raw (entries.emplace k value) := by
  intro e he
  rcases BValue.Dict.mem_emplace he with rfl | he
  · rwa [if_pos rfl]
  · exact h e he

theorem PlainBut.insertOrAssign (h : PlainBut k raw entries) (hne : key ≠ k)
    (hvalue : Plain value) :
    PlainBut k raw (entries.insertOrAssign key value) := by
  intro e he
  rcases BValue.Dict.mem_insertOrAssign he with rfl | he
  · rwa [if_neg hne]
  · exact h e he

theorem PlainBut.insertOrAssign_self (h : PlainBut k raw entries) (hvalue : bencode value = raw) :
    PlainBut k raw (entries.insertOrAssign k value) := by
  intro e he
  rcases BValue.Dict.mem_insertOrAssign he with rfl | he
  · rwa [if_pos rfl]
  · exact h e he

end

/-- The tree of an entry of a dictionary: the one given if it is of a key, and its own
    otherwise. -/
def spliced (k : Bytes) (t : Tree) (key : Bytes) (v : BValue) : Tree :=
  if key = k then t else treeOf v

/-- The tree of a dictionary, in which that of a key is given. -/
def spliceAt (k : Bytes) (t : Tree) (entries : BValue.Dict) : Tree :=
  .dict (entries.map fun e => (⟨digits e.1.length, e.1⟩, spliced k t e.1 e.2))

/-- The tree of an entry is written as it is encoded. -/
theorem source_spliced (levels : ℕ) {key : Bytes} {v : BValue}
    (h : if key = k then bencode v = t.source else Plain v) (hlen : (bencode v).length < 10 ^ 10) :
    (t.Fits levels → (spliced k t key v).Fits levels) ∧ bencode v = (spliced k t key v).source := by
  rw [spliced]
  split_ifs at h ⊢ with hk
  · exact ⟨id, h⟩
  · obtain ⟨hfits, hcan, hvalue⟩ := treeOf_spec levels v (h.encodable hlen)
    refine ⟨fun _ => hfits, ?_⟩
    rw [← bencode_valueAt (treeOf v) 0 hfits hcan, ← bencode_erase, ← hvalue 0, bencode_erase]

/-- Such a tree is written as the dictionary is encoded, if the one given is written as
    what is at the key, and the rest is plain. -/
theorem spliceAt_spec {entries : BValue.Dict} (ht : t.Fits levels)
    (hlen : (bencode (.dict entries)).length < 10 ^ 10) (hplain : PlainBut k t.source entries) :
    (spliceAt k t entries).Fits (levels + 1) ∧
      bencode (.dict entries) = (spliceAt k t entries).source := by
  have hentry : ∀ e ∈ entries, e.1.length < 10 ^ 10 ∧ (spliced k t e.1 e.2).Fits levels ∧
      bencode e.2 = (spliced k t e.1 e.2).source := by
    intro e he
    have hle := length_bencode_entry he
    have hspliced := source_spliced levels (hplain e he) (by omega)
    exact ⟨by omega, hspliced.1 ht, hspliced.2⟩
  constructor
  · intro s hs
    obtain ⟨e, he, rfl⟩ := List.mem_map.1 hs
    exact ⟨ok_text (hentry e he).1, (hentry e he).2.1⟩
  · have hentries : bencodeDict entries = sourceEntries (entries.map fun e =>
        (⟨digits e.1.length, e.1⟩, spliced k t e.1 e.2)) := by
      clear hlen hplain
      induction entries with
      | nil => rfl
      | cons e entries ih =>
        obtain ⟨key, v⟩ := e
        rw [List.forall_mem_cons] at hentry
        rw [List.map_cons, bencodeDict, sourceEntries, ih hentry.2, hentry.1.2.2, Text.source,
          decimal_natCast]
    rw [bencode, spliceAt, Tree.source, hentries]

/-- What is found in such a tree is the value of the entry, the bytes of which are in those
    of the tree. -/
theorem find_spliceAt {entries : BValue.Dict} {key : Bytes} {v : BValue}
    (h : entries.lookup key = some v) (pos : ℕ) :
    ∃ pre post, (spliceAt k t entries).source = pre ++ (spliced k t key v).source ++ post ∧
      ((spliceAt k t entries).valueAt pos).find key =
        some ((spliced k t key v).valueAt (pos + pre.length)) := by
  have hfirst : ∀ pos, ∃ pre post, sourceEntries (entries.map fun e =>
        (⟨digits e.1.length, e.1⟩, spliced k t e.1 e.2)) =
          pre ++ (spliced k t key v).source ++ post ∧
      firstAt key pos (entries.map fun e => (⟨digits e.1.length, e.1⟩, spliced k t e.1 e.2)) =
        some ((spliced k t key v).valueAt (pos + pre.length)) := by
    induction entries with
    | nil => simp at h
    | cons e entries ih =>
      obtain ⟨key', v'⟩ := e
      intro pos
      rw [List.map_cons, firstAt, sourceEntries]
      dsimp only
      -- What comes before the entry shifts its position.
      by_cases hkey : key' = key
      · subst hkey
        rw [List.lookup_cons, beq_self_eq_true] at h
        obtain rfl : v' = v := Option.some.inj h
        rw [if_pos rfl]
        exact ⟨_, _, rfl, rfl⟩
      · rw [List.lookup_cons, beq_false_of_ne (Ne.symm hkey)] at h
        rw [if_neg hkey]
        generalize (⟨digits key'.length, key'⟩ : Text).source = source
        obtain ⟨pre, post, hsource, hfirst⟩ :=
          ih h (pos + source.length + (spliced k t key' v').source.length)
        refine ⟨source ++ (spliced k t key' v').source ++ pre, post, ?_, ?_⟩
        · rw [hsource]
          simp only [List.append_assoc]
        · rw [hfirst]
          simp only [List.length_append, Nat.add_assoc]
  rw [spliceAt, Tree.valueAt, BValue.find, lookup_entriesAt, List.lookup_nil, Option.none_or,
    Tree.source]
  obtain ⟨pre, post, hsource, hfirst⟩ := hfirst (pos + 1)
  refine ⟨ascii "d" ++ pre, post ++ ascii "e", ?_, ?_⟩
  · rw [hsource]
    simp only [List.append_assoc]
  · rw [hfirst, List.length_append, Nat.add_assoc]
    rfl

/-- Nothing else is found in such a tree. -/
theorem find_spliceAt_eq_none {entries : BValue.Dict} {key : Bytes}
    (h : entries.lookup key = none) (pos : ℕ) :
    ((spliceAt k t entries).valueAt pos).find key = none := by
  have hfirst : ∀ pos, firstAt key pos (entries.map fun e =>
      (⟨digits e.1.length, e.1⟩, spliced k t e.1 e.2)) = none := by
    induction entries with
    | nil => exact fun _ => rfl
    | cons e entries ih =>
      intro pos
      rw [List.lookup_cons] at h
      split at h
      next => simp at h
      next hne =>
        have hkey : e.1 ≠ key := fun heq => by simp [heq] at hne
        rw [List.map_cons, firstAt, if_neg hkey]
        exact ih h _
  rw [spliceAt, Tree.valueAt, BValue.find, lookup_entriesAt, List.lookup_nil, Option.none_or,
    hfirst]

end Dht.Bencode
