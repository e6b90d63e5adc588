import DhtCore.Lib.Runs
import DhtCore.Lib.Sorting
import DhtCore.Lib.Tally
import DhtCore.NodeList.Basic

/-!
# Network statistics

Statistics of each address family, and of both, counted by address (`computeNetworkStats`).
The entries of an address are a run of those in the order of addresses, and are added to what
is gathered of the family (`Accumulator`); an address that answers weighs one, its answering
nodes in equal parts. What is gathered is then summarised (`summarise`).

Weights are rational numbers. What the version of a node reads as is a parameter (`labels`),
as are how texts compare (`compareText`), what sorts (`sorting`) and the square root. How long
it took is left out.
-/

namespace Dht

/-- One more of what is at an index. -/
def bump {ι M : Type} [DecidableEq ι] [Add M] (f : ι → M) (i : ι) (w : M) : ι → M :=
  Function.update f i (f i + w)

/-- How many addresses were checked for a feature, and how many of them have it. -/
structure FeatureTally where
  tested : ℚ := 0
  yes : ℚ := 0

/-- Adds a node to a feature, if it was checked for it. -/
def FeatureTally.tally (t : FeatureTally) (weight : ℚ) (tested has : Bool) : FeatureTally :=
  if tested then { tested := t.tested + weight, yes := t.yes + if has then weight else 0 } else t

/-- How addresses come and go. -/
structure ChurnStats where
  departedLastHour : ℕ := 0
  returnedLastHour : ℕ := 0
  arrivedLastHour : ℕ := 0
  /-- The addresses up when each window started, and those of them still up. -/
  survivalBase : Fin 3 → ℕ := fun _ => 0
  survivalKept : Fin 3 → ℕ := fun _ => 0
  uptimeBins : Fin 8 → ℕ := fun _ => 0
  sessionBins : Fin 8 → ℕ := fun _ => 0
  medianUptimeMs : ℤ := -1
  medianSessionMs : ℤ := -1

namespace ChurnStats

/-- Churn is counted over so long, in milliseconds. -/
def WindowMs : ℤ := 60 * 60 * 1000

/-- The ages that survival is given for, in milliseconds. -/
def SurvivalMs : Fin 3 → ℤ := ![60 * 60 * 1000, 6 * 60 * 60 * 1000, 24 * 60 * 60 * 1000]

/-- The ends of the bins, all but the last one. -/
def BinEndsMs : List ℤ :=
  [10 * 60 * 1000, 30 * 60 * 1000, 60 * 60 * 1000, 3 * 60 * 60 * 1000, 6 * 60 * 60 * 1000,
    12 * 60 * 60 * 1000, 24 * 60 * 60 * 1000]

/-- The bin of a time. -/
def binOf (ms : ℤ) : Fin 8 :=
  ⟨(BinEndsMs.takeWhile (ms ≥ ·)).length,
    Nat.lt_succ_of_le (BinEndsMs.takeWhile_sublist _).length_le⟩

end ChurnStats

namespace NetworkStats

/-- The slowest round-trip times are taken together, from this one on. -/
def MaxRttMs : ℕ := 3000

/-- The port that clients use by default. -/
def DefaultPort : Fin 65536 := 6881

/-- How many kinds of unreachable addresses are told apart. -/
def AddressProblemCount : ℕ := 6

end NetworkStats

open NetworkStats

/-! ## Gathering -/

/-- What is gathered of a family. -/
structure Accumulator where
  heardIps : ℕ := 0
  connectedIps : ℕ := 0
  answeringIps : ℕ := 0
  unroutableIps : ℕ := 0
  multiNodeIps : ℕ := 0
  maxNodesPerIp : ℕ := 0
  answeringNodes : ℕ := 0
  versions : Tally ℕ ℚ := ∅
  bep42 : Fin 4 → ℚ := fun _ => 0
  rtt : Fin (MaxRttMs + 1) → ℚ := fun _ => 0
  rttWeight : ℚ := 0
  rttSumMs : ℚ := 0
  ports : Fin 65536 → ℚ := fun _ => 0
  features : Fin 7 → FeatureTally := fun _ => {}
  unknownOther : ℚ := 0
  unknownOtherError : ℚ := 0
  samples : List (UInt32 × ℚ) := []
  problems : Fin AddressProblemCount → ℕ := fun _ => 0
  churn : ChurnStats := {}
  uptimes : List ℤ := []
  sessions : List ℤ := []

/-- What is gathered of two families, field by field. -/
def Accumulator.add (a o : Accumulator) : Accumulator where
  heardIps := a.heardIps + o.heardIps
  connectedIps := a.connectedIps + o.connectedIps
  answeringIps := a.answeringIps + o.answeringIps
  unroutableIps := a.unroutableIps + o.unroutableIps
  multiNodeIps := a.multiNodeIps + o.multiNodeIps
  maxNodesPerIp := max a.maxNodesPerIp o.maxNodesPerIp
  answeringNodes := a.answeringNodes + o.answeringNodes
  versions := a.versions.addAll o.versions.toList
  bep42 i := a.bep42 i + o.bep42 i
  rtt i := a.rtt i + o.rtt i
  rttWeight := a.rttWeight + o.rttWeight
  rttSumMs := a.rttSumMs + o.rttSumMs
  ports i := a.ports i + o.ports i
  features i :=
    { tested := (a.features i).tested + (o.features i).tested
      yes := (a.features i).yes + (o.features i).yes }
  unknownOther := a.unknownOther + o.unknownOther
  unknownOtherError := a.unknownOtherError + o.unknownOtherError
  samples := a.samples ++ o.samples
  problems i := a.problems i + o.problems i
  churn :=
    { a.churn with
      departedLastHour := a.churn.departedLastHour + o.churn.departedLastHour
      returnedLastHour := a.churn.returnedLastHour + o.churn.returnedLastHour
      arrivedLastHour := a.churn.arrivedLastHour + o.churn.arrivedLastHour
      survivalBase := fun i => a.churn.survivalBase i + o.churn.survivalBase i
      survivalKept := fun i => a.churn.survivalKept i + o.churn.survivalKept i
      uptimeBins := fun i => a.churn.uptimeBins i + o.churn.uptimeBins i
      sessionBins := fun i => a.churn.sessionBins i + o.churn.sessionBins i }
  uptimes := a.uptimes ++ o.uptimes
  sessions := a.sessions ++ o.sessions

/-- What the entries of an address say about when it was up. -/
structure AddressTimes where
  connected : Bool := false
  answering : ℕ := 0
  upSince : UInt32 := 0
  firstSeen : UInt32 := 0
  rejoined : Bool := false
  anyGone : Bool := false
  lastAnswered : UInt32 := 0
  lastSpellStart : UInt32 := 0

/-- One more entry of the address. -/
def AddressTimes.see (t : AddressTimes) (e : CatalogEntry) : AddressTimes :=
  let t := { t with
    connected := t.connected || e.lastAnswered > 0
    firstSeen := if e.firstSeen ≠ 0 ∧ (t.firstSeen = 0 ∨ e.firstSeen < t.firstSeen) then e.firstSeen
      else t.firstSeen }
  match e.state with
  | .Responsive =>
    let t := { t with answering := t.answering + 1 }
    if e.answeringSince ≠ 0 ∧ (t.upSince = 0 ∨ e.answeringSince < t.upSince) then
      { t with upSince := e.answeringSince, rejoined := e.has .Rejoined }
    else t
  | .Gone =>
    let t := { t with anyGone := true }
    if e.lastAnswered > t.lastAnswered then
      { t with lastAnswered := e.lastAnswered, lastSpellStart := e.answeringSince }
    else t
  | _ => t

/-- The checks for each feature: whether it was made, and whether the node has it. -/
def featureChecks (e : CatalogEntry) : Fin 7 → Bool × Bool :=
  ![(e.has .Tested51, e.has .Has51), (e.has .Tested44, e.has .Has44),
    (e.has .Tested32, e.has .Has32), (e.has .TestedIp, e.has .SendsIp),
    (e.has .TestedUnknown, e.has .Answers204),
    (e.selfListShare ≠ CatalogEntry.NoShare, e.has .ListsBogons),
    (e.has .TestedPeers, e.has .InventsPeers)]

namespace Accumulator

variable (a : Accumulator)

/-- Adds what is known of when an address was up. -/
def addChurn (c : NodeCatalog) (nowMs : ℤ) (t : AddressTimes) : Accumulator :=
  if t.answering > 0 ∧ t.upSince ≠ 0 then
    let up := c.ageMs t.upSince nowMs
    let churn := { a.churn with
      uptimeBins := bump a.churn.uptimeBins (ChurnStats.binOf up) 1
      survivalBase := fun w =>
        if up ≥ ChurnStats.SurvivalMs w then a.churn.survivalBase w + 1
        else a.churn.survivalBase w
      survivalKept := fun w =>
        if up ≥ ChurnStats.SurvivalMs w then a.churn.survivalKept w + 1
        else a.churn.survivalKept w }
    let churn :=
      if up ≤ ChurnStats.WindowMs then
        if t.rejoined then { churn with returnedLastHour := churn.returnedLastHour + 1 }
        else if t.firstSeen ≠ 0 ∧ c.ageMs t.firstSeen nowMs ≤ ChurnStats.WindowMs then
          { churn with arrivedLastHour := churn.arrivedLastHour + 1 }
        else churn
      else churn
    { a with churn, uptimes := a.uptimes ++ [up] }
  else if t.answering = 0 ∧ t.anyGone ∧ t.lastAnswered ≠ 0 ∧ t.lastSpellStart ≠ 0 then
    let since := c.ageMs t.lastAnswered nowMs
    let session := max 0 (c.ageMs t.lastSpellStart nowMs - since)
    let started := c.ageMs t.lastSpellStart nowMs
    let churn := { a.churn with
      sessionBins := bump a.churn.sessionBins (ChurnStats.binOf session) 1
      departedLastHour :=
        if since ≤ ChurnStats.WindowMs then a.churn.departedLastHour + 1
        else a.churn.departedLastHour
      -- Up at the window's start, gone since.
      survivalBase := fun w =>
        if started ≥ ChurnStats.SurvivalMs w ∧ since < ChurnStats.SurvivalMs w then
          a.churn.survivalBase w + 1
        else a.churn.survivalBase w }
    { a with churn, sessions := a.sessions ++ [session] }
  else a

/-- Adds an answering node. -/
def addNode (weight : ℚ) (e : CatalogEntry) : Accumulator :=
  { a with
    versions := a.versions.add e.versionKey weight
    bep42 := bump a.bep42 ⟨min e.bep42.toNat 3, by omega⟩ weight
    rtt :=
      if e.rttMs ≠ CatalogEntry.NoRtt then
        bump a.rtt ⟨min e.rttMs.toNat MaxRttMs, Nat.lt_succ_of_le (min_le_right _ _)⟩ weight
      else a.rtt
    rttWeight := if e.rttMs ≠ CatalogEntry.NoRtt then a.rttWeight + weight else a.rttWeight
    rttSumMs :=
      if e.rttMs ≠ CatalogEntry.NoRtt then a.rttSumMs + weight * e.rttMs.toNat else a.rttSumMs
    ports := bump a.ports ⟨e.port.toNat, e.port.toNat_lt⟩ weight
    features := fun i =>
      (a.features i).tally weight (featureChecks e i).1 (featureChecks e i).2
    unknownOther :=
      if e.has .TestedUnknown ∧ e.has .AnswersOther then a.unknownOther + weight
      else a.unknownOther
    unknownOtherError :=
      if e.has .TestedUnknown ∧ e.has .AnswersOther then
        a.unknownOtherError + if e.has .AnswersError then weight else 0
      else a.unknownOtherError
    samples := if e.has .Has51 then a.samples ++ [(e.sampleCount, weight)] else a.samples }

/-- Adds an address that no node can be reached at. -/
def addUnroutable (first : CatalogEntry) : Accumulator :=
  { a with
    unroutableIps := a.unroutableIps + 1
    problems := bump a.problems ⟨min first.failures.toNat (AddressProblemCount - 1), by
      rw [AddressProblemCount]
      omega⟩ 1 }

/-- Adds the nodes of an address that answers. -/
def addAnswering (run : List CatalogEntry) (answering : ℕ) : Accumulator :=
  if answering > 0 then
    (run.filter fun e => e.state = .Responsive).foldl (fun a e => a.addNode (1 / answering) e)
      { a with
        answeringIps := a.answeringIps + 1
        answeringNodes := a.answeringNodes + answering
        multiNodeIps := a.multiNodeIps + if answering > 1 then 1 else 0
        maxNodesPerIp := max a.maxNodesPerIp answering }
  else a

/-- Adds an address, from its entries. -/
def addAddress (c : NodeCatalog) (nowMs : ℤ) (run : List CatalogEntry) : Accumulator :=
  let anyRoutable := run.any fun e => e.state ≠ .Unroutable
  let zeroPort := run.any fun e =>
    e.state = .Unroutable ∧ AddressProblem.ofByte e.failures = .ZeroPort
  if !anyRoutable then a.addUnroutable (run.headD default)
  else
    let times := run.foldl AddressTimes.see {}
    let a := { a with
      problems := if zeroPort then bump a.problems ⟨1, by decide⟩ 1 else a.problems
      heardIps := a.heardIps + 1
      connectedIps := if times.connected then a.connectedIps + 1 else a.connectedIps }
    (a.addChurn c nowMs times).addAnswering run times.answering

end Accumulator

/-- The entries of each address, one address after the other. -/
def addressEntries (sorting : (α : Type) → Sorting.Algorithm α) (c : NodeCatalog) :
    List (List CatalogEntry) :=
  let entries := (sorting (BitVec 128 × ℕ)).sort (fun a b => a.1 < b.1)
    (c.slots.map fun s => ((c.entryAt s).address, s))
  (Runs.runs (fun a b => b.1 = a.1) entries).map fun run => run.map fun entry => c.entryAt entry.2

/-- What is gathered of each family. -/
def gather (sorting : (α : Type) → Sorting.Algorithm α) (c : NodeCatalog) (nowMs : ℤ) :
    Family → Accumulator :=
  (addressEntries sorting c).foldl
    (fun families run =>
      let family := (run.headD default).family
      Function.update families family ((families family).addAddress c nowMs run))
    fun _ => {}

/-! ## Summarising -/

/-- How many addresses run a client, or a version of it. -/
structure ClientTally where
  name : String := ""
  version : String := ""
  kind : String := ""
  count : ℚ := 0

/-- Statistics of a family, or of both. -/
structure NetworkStats where
  heardIps : ℕ := 0
  connectedIps : ℕ := 0
  answeringIps : ℕ := 0
  unroutableIps : ℕ := 0
  multiNodeIps : ℕ := 0
  maxNodesPerIp : ℕ := 0
  answeringNodes : ℕ := 0
  clients : List ClientTally := []
  versions : List ClientTally := []
  bep42 : Fin 4 → ℚ := fun _ => 0
  rttHistogram : Fin (MaxRttMs + 1) → ℚ := fun _ => 0
  rttWeight : ℚ := 0
  rttMeanMs : ℚ := 0
  rttMedianMs : ℤ := -1
  rttP90Ms : ℤ := -1
  rttP99Ms : ℤ := -1
  topPorts : List (Fin 65536 × ℚ) := []
  distinctPorts : ℕ := 0
  defaultPortCount : ℚ := 0
  bep51 : FeatureTally := {}
  bep44 : FeatureTally := {}
  bep32 : FeatureTally := {}
  sendsIp : FeatureTally := {}
  answers204 : FeatureTally := {}
  unknownOther : ℚ := 0
  unknownOtherError : ℚ := 0
  listsBogons : FeatureTally := {}
  inventsPeers : FeatureTally := {}
  bep51SamplesMedian : ℚ := -1
  bep51SamplesMean : ℚ := -1
  bep51SamplesMeanError : ℚ := 0
  unroutableByProblem : Fin AddressProblemCount → ℕ := fun _ => 0
  churn : ChurnStats := {}

/-- The middle one of some times. -/
def medianOf (v : List ℤ) : ℤ :=
  if v.isEmpty then -1 else (v.mergeSort (· ≤ ·)).getD ((v.length - 1) / 2) (-1)

/-- The first of some values at which so much weight has been seen. -/
def firstReaching {α : Type} (wanted : ℚ) (seen : ℚ) : List (α × ℚ) → Option α
  | [] => none
  | p :: l => if seen + p.2 ≥ wanted then some p.1 else firstReaching wanted (seen + p.2) l

/-- The first bin with any weight by which so much has been seen. -/
def quantileBin {α : Type} (wanted : ℚ) (seen : ℚ) : List (α × ℚ) → Option α
  | [] => none
  | p :: l =>
    if p.2 > 0 ∧ seen + p.2 ≥ wanted then some p.1 else quantileBin wanted (seen + p.2) l

/-- The millisecond by which so much of the weight has been seen. -/
def histogramQuantile (histogram : Fin (MaxRttMs + 1) → ℚ) (total quantile : ℚ) : ℤ :=
  if ¬total > 0 then -1
  else
    let wanted := max (quantile * total) (1 / 10 ^ 9) - 1 / 10 ^ 9
    match quantileBin wanted 0 ((List.finRange (MaxRttMs + 1)).map fun i => (i, histogram i)) with
    | some i => i.val
    | none => MaxRttMs

section

variable (sorting : (α : Type) → Sorting.Algorithm α) (sqrt : ℚ → ℚ) (labels : ℕ → ClientLabels)
  (compareText : String → String → Ordering)

/-- The most common ones first. -/
def sortTallies (tallies : List ClientTally) : List ClientTally :=
  (sorting ClientTally).sort
    (fun a b =>
      if a.count ≠ b.count then a.count > b.count
      else if a.name ≠ b.name then compareText a.name b.name = .lt
      else compareText a.version b.version = .lt)
    tallies

/-- How many addresses run each client. -/
def clientTallies (versions : Tally ℕ ℚ) : List ClientTally :=
  let byName : Tally String ℚ :=
    Tally.addAll ∅ (versions.toList.map fun p => ((labels p.1).client, p.2))
  let nameKind : AList fun _ : String => String := versions.toList.foldl
    (fun kinds p => kinds.insert (labels p.1).client (labels p.1).kind) ∅
  byName.toList.map fun p =>
    { name := p.1, version := "", kind := (nameKind.lookup p.1).getD "", count := p.2 }

/-- What clients and versions are told apart by. -/
def versionText (l : ClientLabels) : String := l.client ++ "\u0000" ++ l.version

/-- How many addresses run each version of a client. -/
def versionTallies (versions : Tally ℕ ℚ) : List ClientTally :=
  let byVersion : Tally String ℚ :=
    Tally.addAll ∅ (versions.toList.map fun p => (versionText (labels p.1), p.2))
  let versionInfo : AList fun _ : String => ClientTally := versions.toList.foldl
    (fun info p => info.insert (versionText (labels p.1))
      { name := (labels p.1).client, version := (labels p.1).version
        kind := (labels p.1).kind, count := 0 }) ∅
  byVersion.toList.map fun p => { (versionInfo.lookup p.1).getD {} with count := p.2 }

/-- The ports that have any weight, and the weight of each. -/
def portWeights (ports : Fin 65536 → ℚ) : List (Fin 65536 × ℚ) :=
  ((List.finRange 65536).map fun p => (p, ports p)).filter fun p => p.2 > 0

/-- The median, the mean and the error of the mean of weighted samples. -/
def sampleStats (samples : List (UInt32 × ℚ)) : ℚ × ℚ × ℚ :=
  if samples.isEmpty then (-1, -1, 0)
  else
    let sorted := (sorting (UInt32 × ℚ)).sort
      (fun a b => a.1 < b.1 || (a.1 = b.1 && a.2 < b.2)) samples
    let total := (sorted.map (·.2)).sum
    let median := match firstReaching (total / 2 - 1 / 10 ^ 9) 0 sorted with
      | some n => (n.toNat : ℚ)
      | none => -1
    let mean := (sorted.map fun p => p.2 * (p.1.toNat : ℚ)).sum / total
    let variance := (sorted.map fun p =>
      p.2 * ((p.1.toNat : ℚ) - mean) * ((p.1.toNat : ℚ) - mean)).sum / total
    let effective := total * total / (sorted.map fun p => p.2 * p.2).sum
    (median, mean, if effective > 1 then sqrt (variance / (effective - 1)) else 0)

/-- The statistics of what was gathered. -/
def summarise (a : Accumulator) (topPorts : ℤ) : NetworkStats :=
  let samples := sampleStats sorting sqrt a.samples
  let ports := portWeights a.ports
  let keep := min ports.length (max 0 topPorts).toNat
  let byCount (x y : Fin 65536 × ℚ) : Bool := if x.2 ≠ y.2 then x.2 > y.2 else x.1 < y.1
  { heardIps := a.heardIps
    connectedIps := a.connectedIps
    answeringIps := a.answeringIps
    unroutableIps := a.unroutableIps
    multiNodeIps := a.multiNodeIps
    maxNodesPerIp := a.maxNodesPerIp
    answeringNodes := a.answeringNodes
    bep42 := a.bep42
    bep51 := a.features 0
    bep44 := a.features 1
    bep32 := a.features 2
    sendsIp := a.features 3
    answers204 := a.features 4
    listsBogons := a.features 5
    inventsPeers := a.features 6
    unknownOther := a.unknownOther
    unknownOtherError := a.unknownOtherError
    unroutableByProblem := a.problems
    churn := { a.churn with
      medianUptimeMs := medianOf a.uptimes
      medianSessionMs := medianOf a.sessions }
    bep51SamplesMedian := samples.1
    bep51SamplesMean := samples.2.1
    bep51SamplesMeanError := samples.2.2
    clients := sortTallies sorting compareText (clientTallies labels a.versions)
    versions := sortTallies sorting compareText (versionTallies labels a.versions)
    rttHistogram := a.rtt
    rttWeight := a.rttWeight
    rttMeanMs := if a.rttWeight > 0 then a.rttSumMs / a.rttWeight else 0
    rttMedianMs := if a.rttWeight > 0 then histogramQuantile a.rtt a.rttWeight (1 / 2) else -1
    rttP90Ms := if a.rttWeight > 0 then histogramQuantile a.rtt a.rttWeight (9 / 10) else -1
    rttP99Ms := if a.rttWeight > 0 then histogramQuantile a.rtt a.rttWeight (99 / 100) else -1
    distinctPorts := ports.length
    defaultPortCount := a.ports DefaultPort
    topPorts := ((sorting (Fin 65536 × ℚ)).partialSort byCount keep ports).take keep }

/-- Statistics of each family, and of both. -/
structure NetworkStatsSet where
  ipv4 : NetworkStats
  ipv6 : NetworkStats
  all : NetworkStats
  computedAtMs : ℤ

/-- The statistics of each family, and of both together. -/
def computeNetworkStats (c : NodeCatalog) (nowMs topPorts : ℤ) : NetworkStatsSet :=
  let families := gather sorting c nowMs
  let all := (({} : Accumulator).add (families .IPv4)).add (families .IPv6)
  { ipv4 := summarise sorting sqrt labels compareText (families .IPv4) topPorts
    ipv6 := summarise sorting sqrt labels compareText (families .IPv6) topPorts
    all := summarise sorting sqrt labels compareText all topPorts
    computedAtMs := nowMs }

end

end Dht
