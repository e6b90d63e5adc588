import DhtCore.Krpc.Nodes
import DhtCore.NodeCatalog.Entry

/-!
# What nodes run

A node says what it runs in the `v` field of its messages: a code of two characters, by which the
client is known, and two bytes of a version, laid out as the client likes. What the field says
(`decodeClientVersion`) names the client in lists (`clientLabel`, `versionLabel`).

The catalogue has no room for more of a field than its first four bytes and its length, which is
enough: the names are those of the field as it was sent (`labels_versionKeyFor`).

Notes on clients are left out, as is the field itself as a text.
-/

namespace Dht

/-- The digits of hexadecimal numbers. -/
def hexDigits : Bytes := ascii "0123456789abcdef"

/-- Two digits for each byte (`QByteArray::toHex`). -/
def toHex (bytes : Bytes) : Bytes :=
  bytes.flatMap fun b => [hexDigits.getD (b.toNat / 16) 48, hexDigits.getD (b.toNat % 16) 48]

/-- The text of bytes that are one character each (`QString::fromLatin1`). -/
def fromLatin1 (bytes : Bytes) : String := String.ofList (bytes.map fun b => Char.ofNat b.toNat)

/-- What is known of a client (`ClientInfo::Kind`). -/
inductive ClientKind
  /-- The field was not sent. -/
  | Absent
  | Known
  /-- Nobody is known by the code. -/
  | UnknownCode
  /-- There is no code, or more or less than two bytes after it. -/
  | Nonstandard
  deriving DecidableEq

/-- What a node says it runs. -/
structure ClientInfo where
  kind : ClientKind := .Absent
  /-- The field as it was sent. -/
  raw : Bytes := []
  code : String := ""
  /-- Empty if it is not known, as the version is. -/
  name : String := ""
  version : String := ""

/-- The clients by their codes, which differ by case. -/
def knownClients : List (String × String) :=
  [("LT", "libtorrent (Rasterbar)"), ("lt", "libTorrent (Rakshasa)"), ("UT", "µTorrent"),
    ("UM", "µTorrent for Mac"), ("BT", "BitTorrent (mainline)"), ("TR", "Transmission"),
    ("AZ", "Vuze (Azureus)"), ("BI", "BiglyBT"), ("BC", "BitComet"), ("KT", "KTorrent"),
    ("qB", "qBittorrent"), ("DE", "Deluge"), ("FW", "FrostWire"), ("XL", "Xunlei (Thunder)"),
    ("SD", "Xunlei (Thunder)"), ("QD", "QQDownload"), ("TT", "TuoTu"), ("MO", "MonoTorrent"),
    ("ML", "MLDonkey"), ("WW", "WebTorrent"), ("WD", "WebTorrent Desktop"),
    ("FD", "Free Download Manager"), ("HL", "Halite"), ("BF", "Bitflu"), ("LW", "LimeWire"),
    ("SZ", "Shareaza"), ("DI", "DHT Inspector")]

/-- Whether a byte is a character that shows. -/
def printable (c : UInt8) : Bool := c ≥ 0x21 && c ≤ 0x7e

/-- A version, where it is known how the client lays it out. -/
def decodeVersion (code : String) (a b : UInt8) : String :=
  if code = "LT" then
    -- Up to 1.1 the second byte is the minor version, from 1.2 on it shares it with a third.
    if a ≥ 2 || (a = 1 && b ≥ 0x10) then
      toString a.toNat ++ "." ++ toString (b >>> 4).toNat ++ "." ++ toString (b &&& 0x0f).toNat
    else toString a.toNat ++ "." ++ toString b.toNat
  else if code = "lt" then
    -- Up to 0.13 the patch is half a byte.
    let patch := if a ≤ 13 then b >>> 4 else b
    "0." ++ toString a.toNat ++ "." ++ toString patch.toNat
  else if code = "DI" then toString a.toNat ++ "." ++ toString b.toNat
  else ""

/-- The name of the client with a code. -/
def clientName (code : String) : String := (knownClients.lookup code).getD ""

/-- What a kind of client version is called. -/
def clientKindName : ClientKind → String
  | .Absent => "absent"
  | .Known => "known"
  | .UnknownCode => "unknown"
  | .Nonstandard => "nonstandard"

/-- The code that a field starts with, empty if there is none. -/
def codeOf : Bytes → String
  | a :: b :: _ => if printable a && printable b then fromLatin1 [a, b] else ""
  | _ => ""

/-- What a field says. -/
def decodeClientVersion (v : Bytes) : ClientInfo :=
  let code := codeOf v
  if v.isEmpty then { raw := v }
  else if v.length ≠ 4 ∨ code.isEmpty then
    { kind := .Nonstandard, raw := v, code, name := clientName code }
  else
    match knownClients.lookup code with
    | none => { kind := .UnknownCode, raw := v, code }
    | some name =>
      { kind := .Known, raw := v, code, name
        version := decodeVersion code (v.getD 2 0) (v.getD 3 0) }

namespace ClientInfo

/-- One line for display. -/
def display (info : ClientInfo) : String :=
  match info.kind with
  | .Absent => "no version sent"
  | .Known => if info.version.isEmpty then info.name else info.name ++ " " ++ info.version
  | .UnknownCode => "unknown client " ++ info.code
  | .Nonstandard =>
    if !info.name.isEmpty then
      info.name ++ ", nonstandard " ++ toString info.raw.length ++ "-byte field"
    else "nonstandard " ++ toString info.raw.length ++ "-byte field"

end ClientInfo

/-- How lists name a client: what is wrong with the field, if it is not known. -/
def clientLabel (info : ClientInfo) : String :=
  if info.kind = .Known then info.name else info.display

/-- How lists name the version of a client, if it is known. -/
def versionLabel (info : ClientInfo) : String :=
  if info.kind ≠ .Known then ""
  else if !info.version.isEmpty then info.version
  else "bytes " ++ fromLatin1 ([32].intercalate ((info.raw.drop 2).map fun b => toHex [b]))

/-- How the version of a node reads. -/
structure ClientLabels where
  client : String
  version : String
  kind : String
  deriving DecidableEq

/-- How a field reads. -/
def ClientLabels.ofField (v : Bytes) : ClientLabels :=
  let info := decodeClientVersion v
  { client := clientLabel info, version := versionLabel info, kind := clientKindName info.kind }

/-- How the field that was packed into a number reads. -/
def ClientLabelCache.labels (versionKey : ℕ) : ClientLabels :=
  .ofField (CatalogEntry.versionBytesForKey versionKey)

/-! ## What is kept of a field -/

theorem kind_labels (versionKey : ℕ) :
    ∃ kind, (ClientLabelCache.labels versionKey).kind = clientKindName kind := ⟨_, rfl⟩

/-- The number has all that an entry has of the field. -/
theorem versionBytesForKey_versionKey (e : CatalogEntry) :
    CatalogEntry.versionBytesForKey e.versionKey = e.versionBytes := by
  have hkey : e.versionKey = e.versionLength.toNat * 2 ^ 32 + e.version.toNat := by
    rw [CatalogEntry.versionKey, ← Nat.shiftLeft_add_eq_or_of_lt e.version.isLt, Nat.shiftLeft_eq]
  have hversion : e.version.toNat < 2 ^ 32 := e.version.isLt
  have hlength : e.versionKey >>> 32 = e.versionLength.toNat := by
    rw [hkey, Nat.shiftRight_eq_div_pow]
    omega
  -- The four bytes of the version are the last ones of the number.
  have hbyte : ∀ i < 4, UInt8.ofNat (e.versionKey >>> (24 - 8 * i)) =
      UInt8.ofNat (e.version.toNat / 256 ^ (4 - 1 - i)) := by
    intro i hi
    rw [hkey, Nat.shiftRight_eq_div_pow, UInt8.ofNat_eq_iff_mod_eq_toNat, UInt8.toNat_ofNat']
    interval_cases i <;> omega
  rw [CatalogEntry.versionBytesForKey, hlength, CatalogEntry.versionBytes]
  refine List.ext_getElem ?_ fun i h _ => ?_
  · simp only [List.length_map, List.length_range, List.length_append, List.length_take,
      Endpoint.length_bytesOf, List.length_replicate]
    omega
  · rw [List.length_map, List.length_range] at h
    simp only [List.getElem_map, List.getElem_range, List.getElem_append, List.length_take,
      Endpoint.bytesOf, List.length_map, List.length_range, List.getElem_take,
      List.getElem_replicate]
    split_ifs with hlt hmin hmin
    · exact hbyte i hlt
    · omega
    · omega
    · rfl

/-- An entry has the first four bytes, and as many zeros as there were other ones. -/
theorem versionBytes_setVersion (e : CatalogEntry) (v : Bytes) :
    (e.setVersion v).versionBytes = v.take 4 ++ List.replicate (min v.length 254 - 4) 0 := by
  let padded : Bytes := v.take 4 ++ List.replicate (4 - v.length) 0
  have hpadded : padded.length = 4 := by
    rw [List.length_append, List.length_take, List.length_replicate]
    omega
  have hlength : (UInt8.ofNat (min v.length 254)).toNat = min v.length 254 := by
    rw [UInt8.toNat_ofNat']
    omega
  have hversion : (BitVec.ofNat 32 (NodeId.bigEndian padded)).toNat = NodeId.bigEndian padded := by
    have hlt := NodeId.bigEndian_lt padded
    rw [hpadded] at hlt
    rw [BitVec.toNat_ofNat]
    omega
  have htake : padded.take (min v.length 254) = v.take 4 := by
    rcases le_total v.length 4 with hle | hge
    · rw [List.take_append_of_le_length (by rw [List.length_take]; omega),
        List.take_of_length_le (by rw [List.length_take]; omega)]
    · rw [List.take_of_length_le (by omega)]
      exact (congrArg (v.take 4 ++ List.replicate · 0) (Nat.sub_eq_zero_of_le hge)).trans
        (List.append_nil _)
  simp only [CatalogEntry.versionBytes, CatalogEntry.setVersion]
  rw [hlength, hversion, Endpoint.bytesOf_bigEndian hpadded, htake]

theorem decodeClientVersion_of_ne {v : Bytes} (hne : v ≠ []) (hlength : v.length ≠ 4) :
    decodeClientVersion v =
      { kind := .Nonstandard, raw := v, code := codeOf v, name := clientName (codeOf v) } := by
  rw [decodeClientVersion, if_neg (by rwa [List.isEmpty_iff]), if_pos (.inl hlength)]

/-- Of a field that has more or less than four bytes, the code and the length are shown. -/
theorem ofField_congr {v v' : Bytes} (hcode : codeOf v = codeOf v') (hsame : v.length = v'.length)
    (hlength : v.length ≠ 4) : ClientLabels.ofField v = .ofField v' := by
  by_cases hnil : v = []
  · rw [hnil, List.length_nil] at hsame
    rw [hnil, List.eq_nil_of_length_eq_zero hsame.symm]
  · have hnil' : v' ≠ [] := by
      rwa [← List.length_pos_iff, ← hsame, List.length_pos_iff]
    rw [ClientLabels.ofField, ClientLabels.ofField, decodeClientVersion_of_ne hnil hlength,
      decodeClientVersion_of_ne hnil' (hsame ▸ hlength)]
    simp [clientLabel, versionLabel, ClientInfo.display, hcode, hsame]

/-- A field and what is kept of it read the same, unless it is longer than 254 bytes. -/
theorem labels_versionKeyFor {v : Bytes} (h : v.length ≤ 254) :
    ClientLabelCache.labels (CatalogEntry.versionKeyFor v) = .ofField v := by
  rw [ClientLabelCache.labels, CatalogEntry.versionKeyFor, versionBytesForKey_versionKey,
    versionBytes_setVersion, min_eq_left h]
  rcases le_or_gt v.length 4 with hle | hlt
  · rw [List.take_of_length_le hle, Nat.sub_eq_zero_of_le hle, List.replicate_zero,
      List.append_nil]
  · have hlength : (v.take 4 ++ List.replicate (v.length - 4) (0 : UInt8)).length = v.length := by
      rw [List.length_append, List.length_take, List.length_replicate]
      omega
    refine ofField_congr ?_ hlength fun hfour => hlt.ne' (hlength.symm.trans hfour)
    match v, hlt with
    | _ :: _ :: _, _ => rfl

end Dht
