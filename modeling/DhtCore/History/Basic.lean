import DhtCore.Lib.Tally
import DhtCore.Lib.Thinning

/-!
# The history

What the scan recorded of the session (`History`): samples of its metrics and of the clients
in use. New samples are kept as they are; once full, the older part is thinned by merging
neighbours, but not across a pause.

Numbers are rational here: the arithmetic is exact. A value that is not known is `none`.
-/

namespace Dht

/-- What the history records, one number each per sample. -/
inductive Metric
  | HeardIps
  | ConnectedIps
  | AnsweringIps
  | SizeEstimate
  | QueriesPerSecond
  | AnswersPerSecond
  | FeatureChecksPerSecond
  | InboundPerSecond
  | RttMedianMs
  | Bep42Share
  | Bep51Share
  | Bep44Share
  | SendsIpShare
  | InventsPeersShare
  | Flagged
  | ManyNodes
  | DenseSubnets
  | SharedIds
  | DepartedPerHour
  | ReturnedPerHour
  | LookupMedianMs
  | LookupMedianQueries
  | LookupResponseRate
  deriving DecidableEq

/-- What was known of the network over some time. -/
structure HistorySample where
  /-- The time at the end of the span. -/
  atMs : ℤ := 0
  /-- The time this sample stands for; grows as the history is thinned. -/
  spanMs : ℤ := 0
  /-- Whether the scan was paused, or not yet running, just before. -/
  gapBefore : Bool := false
  values : Metric → Option ℚ := fun _ => none
  /-- The shares of the most common clients. -/
  clientShares : List (String × ℚ) := []

namespace History

/-- The samples that a history has at most. -/
def MaxSamples : ℕ := 720

/-- The newest samples are never merged. -/
def KeepFullDetail : ℕ := 360

/-- Two values as one; one that is unknown does not count. -/
def mergeValue (wa wb : ℚ) : Option ℚ → Option ℚ → Option ℚ
  | none, b => b
  | a, none => a
  | some a, some b => some ((a * wa + b * wb) / (wa + wb))

/-- The clients of two samples: one that is missing from one side had a share too small to
    list there. -/
def mergeShares (wa wb : ℚ) (older newer : List (String × ℚ)) : List (String × ℚ) :=
  let (shares, order) := older.foldl
    (fun (shares, order) p => (shares.add p.1 (p.2 * wa), order ++ [p.1]))
    ((∅ : Tally String ℚ), [])
  let (shares, order) := newer.foldl
    (fun (shares, order) p =>
      (shares.add p.1 (p.2 * wb), if p.1 ∈ shares then order else order ++ [p.1]))
    (shares, order)
  order.map fun name => (name, shares.count name / (wa + wb))

/-- Two samples as one, weighted by span. -/
def merge (older newer : HistorySample) : HistorySample :=
  let wa : ℚ := (max 1 older.spanMs : ℤ)
  let wb : ℚ := (max 1 newer.spanMs : ℤ)
  { atMs := newer.atMs
    spanMs := older.spanMs + newer.spanMs
    gapBefore := older.gapBefore
    values := fun i => mergeValue wa wb (older.values i) (newer.values i)
    clientShares := mergeShares wa wb older.clientShares newer.clientShares }

/-- Merges neighbours in the older part, never across a gap; if there are none to merge, the
    oldest goes instead. -/
def thin (samples : List HistorySample) : List HistorySample :=
  Thinning.thin merge (·.gapBefore) KeepFullDetail MaxSamples samples

/-- Appends a sample, and thins the history if it has too many then. -/
def add (samples : List HistorySample) (sample : HistorySample) : List HistorySample :=
  let samples := samples ++ [sample]
  if samples.length > MaxSamples then thin samples else samples

/-- What is held after samples were added to an empty history. -/
def record (added : List HistorySample) : List HistorySample := added.foldl add []

/-- The part of the samples that may be merged. -/
def older (samples : List HistorySample) : List HistorySample :=
  samples.take (samples.length - KeepFullDetail)

end History

end Dht
