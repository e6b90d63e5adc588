import DhtCore.Bep44.Signing
import DhtCore.Lib.Csv
import DhtCore.NodeList.Basic

/-!
# Node lists as files

An export is written as comma-separated values: the names of the columns, and then a line for each
node (`writeNodesCsv`). The texts that may hold anything, such as what nodes call themselves, go
through `csvField`. The others do not, as there is nothing in them that has to be quoted
(`plain_csvCells`), so that whoever reads the file finds every cell as it is, and as many in every
line as there are columns (`writeNodesCsv_read`).

How addresses read is a parameter, as is what becomes of the file.
-/

namespace Dht

/-! ## Texts -/

/-- The bytes of a text (`QString::toUtf8`). -/
def utf8 (s : String) : Bytes := s.toList.flatMap String.utf8EncodeChar

/-- What a state is called. -/
def stateName : CatalogState → Bytes
  | .New => ascii "awaiting"
  | .Responsive => ascii "responsive"
  | .Silent => ascii "silent"
  | .Gone => ascii "gone"
  | .Unroutable => ascii "unreachable"

/-- The name of the status with a number. -/
def Bep42.statusName (status : UInt8) : Bytes :=
  if status = Status.Compliant.toByte then ascii "compliant"
  else if status = Status.NonCompliant.toByte then ascii "noncompliant"
  else if status = Status.Exempt.toByte then ascii "exempt"
  else ascii "unknown"

/-- What is called wrong with an address. -/
def addressProblemName : AddressProblem → Bytes
  | .None => ascii "None"
  | .ZeroPort => ascii "Port 0"
  | .Unspecified => ascii "Unspecified"
  | .Local => ascii "Private or local"
  | .Multicast => ascii "Multicast or broadcast"
  | .Reserved => ascii "Reserved"

/-- Whether a flag is set. -/
def CatalogFlag.isIn (f : CatalogFlag) (flags : UInt32) : Bool := flags &&& f.value ≠ 0

/-- Whether a node has a feature, if that was tested. -/
def featureAnswer (flags : UInt32) (tested has : CatalogFlag) : Bytes :=
  if !tested.isIn flags then []
  else if has.isIn flags then ascii "yes"
  else ascii "no"

/-- What a node answers a query that no DHT defines, if that was tested. -/
def unknownQueryAnswer (flags : UInt32) : Bytes :=
  if !CatalogFlag.TestedUnknown.isIn flags then []
  else if CatalogFlag.Answers204.isIn flags then ascii "204"
  else if CatalogFlag.AnswersOther.isIn flags then
    if CatalogFlag.AnswersError.isIn flags then ascii "other error" else ascii "reply"
  else ascii "no answer"

/-- Whether a node makes up peers, if that was tested. -/
def inventsPeersAnswer (flags : UInt32) : Bytes :=
  if CatalogFlag.InventsPeers.isIn flags then ascii "yes"
  else if CatalogFlag.TestedPeers.isIn flags then ascii "no"
  else []

/-- The signals that an address is suspected for. -/
def signalNames (suspicion : UInt8) : Bytes :=
  let names := [(SybilSignal.ManyNodes, ascii "many nodes"), (.DenseSubnet, ascii "dense subnet"),
    (.SharedId, ascii "shared ID"), (.DenseIds, ascii "dense IDs"),
    (.PointsToSelf, ascii "points to self"), (.InventsPeers, ascii "invents peers")]
  (ascii ", ").intercalate ((names.filter fun p => p.1.isIn suspicion).map (·.2))

/-! ## Cells -/

/-- The symbols that separate. -/
def csv : Csv.Dialect UInt8 where
  comma := 44
  quote := 34
  newline := 10
  comma_ne_quote := by decide
  comma_ne_newline := by decide
  newline_ne_quote := by decide

/-- A cell as it is written: quoted if it has a comma, a quote or a line break in it. -/
def csvField (bytes : Bytes) : Bytes :=
  if csv.comma ∈ bytes ∨ csv.quote ∈ bytes ∨ csv.newline ∈ bytes then
    csv.quote :: (bytes.flatMap fun b => if b = csv.quote then [csv.quote, csv.quote] else [b]) ++
      [csv.quote]
  else bytes

/-- A cell, and whether it goes through `csvField`. -/
structure CsvCell where
  text : Bytes
  isField : Bool := false

/-- What is written for a cell. -/
def CsvCell.bytes (c : CsvCell) : Bytes := if c.isField then csvField c.text else c.text

/-- A time in seconds, if there is one. -/
def seconds (ms : ℤ) : Bytes := if ms < 0 then [] else decimal (ms / 1000)

variable (addressText : HostAddress → String)

/-- The cells of a node. -/
def csvCells (row : NodeListRow) : List CsvCell :=
  let listed := row.selfListSharePercent ≥ 0
  [{ text := utf8 (addressText row.endpoint.address), isField := true },
    { text := decimal row.endpoint.port.toNat },
    { text := if row.endpoint.family = .IPv4 then ascii "ipv4" else ascii "ipv6" },
    { text := stateName row.state },
    { text := if row.answered then ascii "yes" else ascii "no" },
    { text := utf8 row.client, isField := true },
    { text := utf8 row.version, isField := true },
    { text := utf8 row.clientKind },
    { text := toHex row.rawVersion },
    { text := if row.rttMs < 0 then [] else decimal row.rttMs },
    { text := if row.answered then Bep42.statusName row.bep42 else [] },
    { text := toHex row.id.toBytes },
    { text := decimal row.nodesAtAddress },
    { text := decimal row.failures },
    { text := decimal row.sightings.toNat },
    { text := seconds row.firstSeenAgoMs },
    { text := seconds row.lastAnsweredAgoMs },
    { text := seconds row.lastQueriedAgoMs },
    { text := featureAnswer row.flags .Tested51 .Has51 },
    { text := if CatalogFlag.Has51.isIn row.flags then decimal row.bep51Samples.toNat else [] },
    { text := featureAnswer row.flags .Tested44 .Has44 },
    { text := featureAnswer row.flags .Tested32 .Has32 },
    { text := featureAnswer row.flags .TestedIp .SendsIp },
    { text := unknownQueryAnswer row.flags },
    { text :=
        if listed then if CatalogFlag.ListsBogons.isIn row.flags then ascii "yes" else ascii "no"
        else [] },
    { text := inventsPeersAnswer row.flags },
    { text := if listed then decimal row.selfListSharePercent else [] },
    { text := signalNames row.suspicion, isField := true },
    if row.problem = .None then { text := [] }
    else { text := addressProblemName row.problem, isField := true }]

/-- The cells of a line, separated by commas. -/
def csvLine : List CsvCell → Bytes
  | [] => [csv.newline]
  | [c] => c.bytes ++ [csv.newline]
  | c :: rest => c.bytes ++ csv.comma :: csvLine rest

/-- The names of the columns. -/
def csvColumns : List Bytes :=
  ["address", "port", "family", "state", "answered", "client", "version", "client_kind", "v_hex",
    "rtt_ms", "bep42", "node_id", "nodes_at_address", "failures", "sightings", "first_seen_s_ago",
    "last_answered_s_ago", "last_queried_s_ago", "bep51", "bep51_samples", "bep44", "bep32",
    "sends_ip", "unknown_query", "lists_bad_addresses", "invents_peers", "self_list_share",
    "suspicious", "address_problem"].map ascii

/-- The first line. -/
def csvHeader : Bytes := csvLine (csvColumns.map fun name => { text := name })

/-! ## The file -/

/-- A file that takes the place of another one once it is committed (`QSaveFile`): whether it can
    be opened, which writes to it go through, and whether it can be committed. -/
structure SaveFile where
  opens : Bool
  accepts : ℕ → Bool
  commits : Bool

/-- The lines of the rows are written, a buffer at a time: so many have been written, and what is
    in the buffer is still to be. -/
def writeRows (file : SaveFile) (writes : ℕ) (written buffer : Bytes) :
    List NodeListRow → Option Bytes
  | [] => if file.accepts writes && file.commits then some (written ++ buffer) else none
  | row :: rows =>
    let buffer := buffer ++ csvLine (csvCells addressText row)
    if buffer.length > 2 ^ 20 - 1024 then
      if file.accepts writes then writeRows file (writes + 1) (written ++ buffer) [] rows else none
    else writeRows file writes written buffer rows

/-- What is in the file once an export has been written, if it has. -/
def writeNodesCsv (labels : ℕ → ClientLabels) (file : SaveFile) (nodes : NodeExport) :
    Option Bytes :=
  if !file.opens then none else writeRows addressText file 0 [] csvHeader (nodes.rows labels)

/-! ## What is read -/

theorem csvField_eq (bytes : Bytes) : csvField bytes = csv.field bytes := by
  have hiff : csv.comma ∈ bytes ∨ csv.quote ∈ bytes ∨ csv.newline ∈ bytes ↔ ¬csv.Plain bytes := by
    simp only [Csv.Dialect.Plain, not_forall, not_and_or, not_not]
    constructor
    · rintro (h | h | h)
      · exact ⟨_, h, .inl rfl⟩
      · exact ⟨_, h, .inr (.inl rfl)⟩
      · exact ⟨_, h, .inr (.inr rfl)⟩
    · rintro ⟨b, hb, rfl | rfl | rfl⟩
      · exact .inl hb
      · exact .inr (.inl hb)
      · exact .inr (.inr hb)
  have hdouble : (bytes.flatMap fun b => if b = csv.quote then [csv.quote, csv.quote] else [b]) =
      csv.double bytes :=
    List.flatMap_congr fun b _ => by split_ifs with h <;> simp [h]
  rw [csvField, Csv.Dialect.field, hdouble]
  split_ifs with hquoted hplain hplain
  · exact absurd hplain (hiff.1 hquoted)
  · rfl
  · rfl
  · exact absurd (hiff.2 hplain) hquoted

theorem bytes_eq_field {c : CsvCell} (h : c.isField = false → csv.Plain c.text) :
    c.bytes = csv.field c.text := by
  rw [CsvCell.bytes]
  split_ifs with hfield
  · exact csvField_eq _
  · exact (Csv.Dialect.field_of_plain (h (by simpa using hfield))).symm

theorem csvLine_eq_record {cells : List CsvCell}
    (h : ∀ c ∈ cells, c.isField = false → csv.Plain c.text) :
    csvLine cells = csv.record (cells.map (·.text)) := by
  induction cells with
  | nil => rfl
  | cons c cells ih =>
    rw [List.forall_mem_cons] at h
    cases cells with
    | nil => exact congrArg (· ++ [csv.newline]) (bytes_eq_field h.1)
    | cons c' cells => exact congrArg₂ (· ++ csv.comma :: ·) (bytes_eq_field h.1) (ih h.2)

/-! ### Plain cells -/

theorem plain_nil : csv.Plain [] := fun _ h => absurd h List.not_mem_nil

theorem plain_ite {p : Prop} [Decidable p] {s t : Bytes} (hs : csv.Plain s) (ht : csv.Plain t) :
    csv.Plain (if p then s else t) := by
  split_ifs <;> assumption

theorem plain_decimal (n : ℤ) : csv.Plain (decimal n) := by
  intro b hb
  rcases mem_decimal hb with rfl | hb
  · decide
  · have hne {separator : UInt8} (h : Decoder.isDigit separator = false) : b ≠ separator := by
      rintro rfl
      rw [hb] at h
      exact Bool.noConfusion h
    exact ⟨hne (by decide), hne (by decide), hne (by decide)⟩

theorem plain_seconds (ms : ℤ) : csv.Plain (seconds ms) := plain_ite plain_nil (plain_decimal _)

theorem plain_toHex (bytes : Bytes) : csv.Plain (toHex bytes) := by
  have hdigits : ∀ n < 16, hexDigits.getD n 48 ≠ csv.comma ∧ hexDigits.getD n 48 ≠ csv.quote ∧
      hexDigits.getD n 48 ≠ csv.newline := by decide
  intro b hb
  obtain ⟨byte, -, hmem⟩ := List.mem_flatMap.1 hb
  have hlt : byte.toNat < 256 := byte.toNat_lt
  rcases List.mem_pair.1 hmem with rfl | rfl
  · exact hdigits _ (by omega)
  · exact hdigits _ (by omega)

theorem plain_stateName (state : CatalogState) : csv.Plain (stateName state) := by
  cases state <;> decide +kernel

theorem plain_statusName (status : UInt8) : csv.Plain (Bep42.statusName status) :=
  plain_ite (by decide) (plain_ite (by decide)
    (plain_ite (by decide) (by decide)))

theorem plain_clientKindName (kind : ClientKind) : csv.Plain (utf8 (clientKindName kind)) := by
  cases kind <;> decide +kernel

theorem plain_featureAnswer (flags : UInt32) (tested has : CatalogFlag) :
    csv.Plain (featureAnswer flags tested has) :=
  plain_ite plain_nil (plain_ite (by decide) (by decide))

theorem plain_unknownQueryAnswer (flags : UInt32) : csv.Plain (unknownQueryAnswer flags) :=
  plain_ite plain_nil (plain_ite (by decide)
    (plain_ite (plain_ite (by decide) (by decide)) (by decide)))

theorem plain_inventsPeersAnswer (flags : UInt32) : csv.Plain (inventsPeersAnswer flags) :=
  plain_ite (by decide) (plain_ite (by decide) plain_nil)

/-- The cells that do not go through `csvField` need not. -/
theorem plain_csvCells {row : NodeListRow} (hkind : csv.Plain (utf8 row.clientKind)) :
    ∀ c ∈ csvCells addressText row, c.isField = false → csv.Plain c.text := by
  have hyes : csv.Plain (ascii "yes") := by decide
  have hno : csv.Plain (ascii "no") := by decide
  have hproblem : (if row.problem = .None then { text := [] }
      else { text := addressProblemName row.problem, isField := true } : CsvCell).isField = false →
      csv.Plain (if row.problem = .None then { text := [] }
        else { text := addressProblemName row.problem, isField := true } : CsvCell).text := by
    split_ifs
    · exact fun _ => plain_nil
    · exact fun h => absurd h (by decide)
  simp only [csvCells, List.forall_mem_cons, reduceCtorEq, false_imp_iff, true_imp_iff, true_and]
  refine ⟨plain_decimal _, plain_ite (by decide) (by decide), plain_stateName _,
    plain_ite hyes hno, hkind, plain_toHex _, plain_ite plain_nil (plain_decimal _),
    plain_ite (plain_statusName _) plain_nil, plain_toHex _, plain_decimal _, plain_decimal _,
    plain_decimal _, plain_seconds _, plain_seconds _, plain_seconds _, plain_featureAnswer _ _ _,
    plain_ite (plain_decimal _) plain_nil, plain_featureAnswer _ _ _, plain_featureAnswer _ _ _,
    plain_featureAnswer _ _ _, plain_unknownQueryAnswer _,
    plain_ite (plain_ite hyes hno) plain_nil, plain_inventsPeersAnswer _,
    plain_ite (plain_decimal _) plain_nil, hproblem, fun _ h => absurd h List.not_mem_nil⟩

/-- Of a node that has answered, what kind of client it is is known. -/
theorem clientKind_rowFor (labels : ℕ → ClientLabels) (e : CatalogEntry) (nowStamp : UInt32)
    (tickMs nodesAtAddress : ℤ) (suspicion : UInt8) :
    (rowFor labels e nowStamp tickMs nodesAtAddress suspicion).clientKind =
      if e.lastAnswered ≠ 0 then (labels e.versionKey).kind else "" := by
  rw [rowFor]
  dsimp only
  split_ifs <;> simp_all

/-! ### The file -/

/-- What is written in the end is what was written, the buffer and the lines. -/
theorem writeRows_eq_some {file : SaveFile} {writes : ℕ} {written buffer contents : Bytes}
    {rows : List NodeListRow} (h : writeRows addressText file writes written buffer rows =
      some contents) :
    contents = written ++ buffer ++ rows.flatMap fun row => csvLine (csvCells addressText row) := by
  induction rows generalizing writes written buffer with
  | nil =>
    rw [writeRows] at h
    split_ifs at h
    obtain rfl := Option.some.inj h
    rw [List.flatMap_nil, List.append_nil]
  | cons row rows ih =>
    rw [writeRows] at h
    split_ifs at h
    · rw [ih h]
      simp only [List.flatMap_cons, List.append_assoc, List.nil_append]
    · rw [ih h]
      simp only [List.flatMap_cons, List.append_assoc]

theorem isSome_writeRows {file : SaveFile} (haccepts : ∀ n, file.accepts n = true)
    (hcommits : file.commits = true) (writes : ℕ) (written buffer : Bytes)
    (rows : List NodeListRow) :
    (writeRows addressText file writes written buffer rows).isSome = true := by
  induction rows generalizing writes written buffer with
  | nil =>
    rw [writeRows, haccepts, hcommits]
    rfl
  | cons row rows ih =>
    rw [writeRows]
    rw [haccepts, if_pos rfl]
    split_ifs
    · exact ih _ _ _
    · exact ih _ _ _

theorem csvHeader_eq : csvHeader = csv.record csvColumns := by
  have hplain : ∀ name ∈ csvColumns, csv.Plain name := by decide +kernel
  have htexts : (csvColumns.map fun name => ({ text := name } : CsvCell)).map (·.text) =
      csvColumns := by
    rw [List.map_map]
    exact List.map_id _
  rw [csvHeader, csvLine_eq_record (List.forall_mem_map.2 fun name hname _ => hplain name hname),
    htexts]

theorem read_of_kinds (labels : ℕ → ClientLabels)
    (hkinds : ∀ key, ∃ kind, (labels key).kind = clientKindName kind) {file : SaveFile}
    {nodes : NodeExport} {contents : Bytes}
    (h : writeNodesCsv addressText labels file nodes = some contents) :
    csv.read contents = some (csvColumns :: (nodes.rows labels).map fun row =>
      (csvCells addressText row).map (·.text)) := by
  have hplain : ∀ row ∈ nodes.rows labels, csv.Plain (utf8 row.clientKind) := by
    intro row hrow
    obtain ⟨i, -, rfl⟩ := List.mem_map.1 hrow
    rw [clientKind_rowFor]
    split_ifs
    · obtain ⟨kind, hkind⟩ := hkinds (nodes.entries.getD i default).versionKey
      rw [hkind]
      exact plain_clientKindName kind
    · exact plain_nil
  rw [writeNodesCsv] at h
  split_ifs at h
  have hlines : (nodes.rows labels).flatMap (fun row => csvLine (csvCells addressText row)) =
      ((nodes.rows labels).map fun row => (csvCells addressText row).map (·.text)).flatMap
        csv.record := by
    rw [List.flatMap_map]
    exact List.flatMap_congr fun row hrow =>
      csvLine_eq_record (plain_csvCells addressText (hplain row hrow))
  rw [writeRows_eq_some addressText h, csvHeader_eq, hlines, List.nil_append, ← List.flatMap_cons]
  refine csv.read_records _ (List.forall_mem_cons.2 ⟨by decide, fun fields hfields => ?_⟩)
  obtain ⟨row, -, rfl⟩ := List.mem_map.1 hfields
  exact List.cons_ne_nil _ _

/-- Whoever reads a file that was written finds the names of the columns, and for each node that
    was exported as many cells, as they are: whatever the texts in them are. -/
theorem writeNodesCsv_read (file : SaveFile) (nodes : NodeExport) :
    let labels := ClientLabelCache.labels
    (∀ contents, writeNodesCsv addressText labels file nodes = some contents →
      csv.read contents = some (csvColumns :: (nodes.rows labels).map fun row =>
        (csvCells addressText row).map (·.text))) ∧
    (∀ row, (csvCells addressText row).length = csvColumns.length) ∧
    (file.opens = true → (∀ n, file.accepts n = true) → file.commits = true →
      (writeNodesCsv addressText labels file nodes).isSome = true) := by
  intro labels
  refine ⟨fun contents h => ?_, fun row => rfl, fun hopens haccepts hcommits => ?_⟩
  · exact read_of_kinds addressText labels kind_labels h
  · rw [writeNodesCsv, hopens]
    exact isSome_writeRows addressText haccepts hcommits 0 [] csvHeader _

/-- A node that sent the four bytes `",01` of a version. -/
def oneAnswered : NodeExport where
  entries := [{ (default : CatalogEntry).setVersion (ascii "\",01") with lastAnswered := 1 }]
  nodesAtAddress := [1]
  suspicion := [0]
  nowStamp := 1
  tickMs := 1000

/-- The name of such a client is read as it is. -/
theorem writeNodesCsv_read_quoted : ∃ contents row,
    writeNodesCsv (fun _ => "::") ClientLabelCache.labels ⟨true, fun _ => true, true⟩ oneAnswered =
      some contents ∧
    csv.read contents = some [csvColumns, row] ∧ utf8 "unknown client \"," ∈ row := by
  obtain ⟨hread, -, hsome⟩ :=
    writeNodesCsv_read (fun _ => "::") ⟨true, fun _ => true, true⟩ oneAnswered
  obtain ⟨contents, hcontents⟩ := Option.isSome_iff_exists.1 (hsome rfl (fun _ => rfl) rfl)
  exact ⟨contents, _, hcontents, hread contents hcontents, by decide +kernel⟩

end Dht
