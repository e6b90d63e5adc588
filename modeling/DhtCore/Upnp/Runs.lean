import DhtCore.Lib.Progress
import DhtCore.Upnp.Attempt

/-!
# Runs of the UPnP client

At any time at most one request is in flight, the one that the stage waits for, and the
locations described are the first ones found (`Sound`). What an event does is to get the
attempt on or to do nothing that counts (`Sound.turn`), so that an attempt of whose
requests and timers none is left pending ends with its one verdict (`concludes_start`).
-/

namespace Dht

open Upnp

/-! ## What was done -/

namespace Happening

/-- Whether it is one of the signals that end an attempt. -/
def isVerdict : Happening → Bool
  | .mapped .. | .failed .. => true
  | _ => false

/-- Whether a request was made. -/
def isRequest : Happening → Bool
  | .requested _ => true
  | _ => false

/-- The location whose description is asked for. -/
def location? : Happening → Option Url
  | .requested (.get url) => some url
  | _ => none

/-- The number of services of a device that was described. -/
def offered : Happening → ℕ
  | .described services => services.length
  | _ => 0

end Happening

/-- Which function hears of the request that a stage waits for. -/
def Stage.handler : Stage → Option Handler
  | .Describing => some .onDescription
  | .Mapping | .Renewing => some .onAddMapping
  | .AskingAddress => some .onAddress
  | .Idle | .Searching | .Mapped => none

theorem Stage.handler_eq_onDescription {s : Stage} :
    s.handler = some .onDescription ↔ s = .Describing := by
  cases s <;> simp [handler]

theorem Stage.handler_eq_onAddMapping {s : Stage} :
    s.handler = some .onAddMapping ↔ s = .Mapping ∨ s = .Renewing := by
  cases s <;> simp [handler]

theorem Stage.handler_eq_onAddress {s : Stage} :
    s.handler = some .onAddress ↔ s = .AskingAddress := by
  cases s <;> simp [handler]

namespace UpnpIgd

variable {qt : Qt} {u u' : UpnpIgd} {d : ℕ} {location : Url} {message : String}

/-- The verdicts given since `start`. -/
def verdicts (u : UpnpIgd) : ℕ := u.log.countP Happening.isVerdict

/-- The requests made since `start`. -/
def requests (u : UpnpIgd) : ℕ := u.log.countP Happening.isRequest

/-- The locations described since `start`. -/
def descriptions (u : UpnpIgd) : List Url := u.log.filterMap Happening.location?

/-- The services found since `start`, of all devices described. -/
def offered (u : UpnpIgd) : ℕ := (u.log.map Happening.offered).sum

/-- What an attempt has left to try, and what it did. -/
def attempt (u : UpnpIgd) : Attempt where
  stage := u.stage
  searches := u.searchDelays.1.length - u.searchAttempt
  locations := if u.stage = .Searching then u.locations.length
    else u.locations.length - (u.nextLocation + 1)
  services := u.services.length - (u.serviceIndex + 1)
  retries := (MaxConflictRetries - u.conflicts) + if u.lease = 0 then 0 else 1
  found := u.locations.length
  offered := u.offered
  requests := u.requests
  verdicts := u.verdicts

@[simp] theorem verdicts_emit (h : Happening) :
    (u.emit h).verdicts = u.verdicts + h.isVerdict.toNat := by
  cases hv : h.isVerdict <;> simp [verdicts, emit, hv]

@[simp] theorem requests_emit (h : Happening) :
    (u.emit h).requests = u.requests + h.isRequest.toNat := by
  cases hr : h.isRequest <;> simp [requests, emit, hr]

@[simp] theorem descriptions_emit (h : Happening) :
    (u.emit h).descriptions = u.descriptions ++ h.location?.toList := by
  cases hl : h.location? <;> simp [descriptions, emit, hl]

@[simp] theorem offered_emit (h : Happening) : (u.emit h).offered = u.offered + h.offered := by
  simp [offered, emit]

variable {r : Request} {handler : Handler}

@[simp] theorem verdicts_request : (u.request r handler).verdicts = u.verdicts := by
  simp [verdicts, request, Happening.isVerdict]

@[simp] theorem requests_request : (u.request r handler).requests = u.requests + 1 := by
  simp [requests, request, Happening.isRequest]

@[simp] theorem descriptions_request : (u.request r handler).descriptions =
    u.descriptions ++ (Happening.requested r).location?.toList := by
  cases hl : (Happening.requested r).location? <;> simp [descriptions, request, hl]

@[simp] theorem offered_request : (u.request r handler).offered = u.offered := by
  simp [offered, request, Happening.offered]

/-- What happens only adds to what was done. -/
theorem attempt_emit (h : Happening) : (u.emit h).attempt =
    { u.attempt with
      offered := u.offered + h.offered
      requests := u.requests + h.isRequest.toNat
      verdicts := u.verdicts + h.isVerdict.toNat } := by
  rw [attempt, verdicts_emit, requests_emit, offered_emit]
  rfl

theorem attempt_request : (u.request r handler).attempt =
    { u.attempt with requests := u.requests + 1 } := by
  rw [attempt, verdicts_request, requests_request, offered_request]
  rfl

/-! ## What waits for what -/

/-- Nothing is in flight, and the first `d` locations are described. -/
structure Free (u : UpnpIgd) (d : ℕ) : Prop where
  inFlight : u.inFlight = []
  nodup : u.locations.Nodup
  described : u.descriptions = u.locations.take d

/-- What is in flight is what the stage waits for. -/
structure Sound (u : UpnpIgd) : Prop where
  timer : u.searchTimer.isSome ↔ u.stage = .Searching
  quiet : u.stage.handler = none → u.inFlight = []
  waiting : ∀ h, u.stage.handler = some h →
    ∃ serial, u.reply = some serial ∧ u.inFlight = [⟨serial, h, u.generation⟩]
  nodup : u.locations.Nodup
  searching : u.stage = .Searching → u.descriptions = []
  described : u.stage = .Mapped ∨ u.stage.handler.isSome →
    u.nextLocation < u.locations.length ∧ u.descriptions = u.locations.take (u.nextLocation + 1)
  nodup_descriptions : u.descriptions.Nodup
  services : u.stage = .Mapped ∨ u.stage = .Mapping ∨ u.stage = .Renewing ∨
    u.stage = .AskingAddress → u.serviceIndex < u.services.length

theorem Free.nodup_descriptions (h : Free u d) : u.descriptions.Nodup :=
  h.described ▸ h.nodup.sublist (List.take_sublist ..)

theorem idxOf_of_getElem? (h : u.locations.Nodup) (hloc : u.locations[d]? = some location) :
    u.locations.idxOf location = d := by
  obtain ⟨hd, rfl⟩ := List.getElem?_eq_some_iff.1 hloc
  exact h.idxOf_getElem d hd

/-! ## Operations -/

theorem descriptions_describe :
    (u.describe location).descriptions = u.descriptions ++ [location] := by
  rw [describe, descriptions_request, descriptions_emit]
  exact congrArg (· ++ [location]) (List.append_nil _)

theorem descriptions_fail : (u.fail message).descriptions = u.descriptions := by
  rw [fail, descriptions_emit]
  exact List.append_nil _

theorem Free.sound_describe (h : Free u d) (hloc : u.locations[d]? = some location) :
    (u.describe location).Sound := by
  have hidx : (u.describe location).nextLocation = d := idxOf_of_getElem? h.nodup hloc
  have hd : d < u.locations.length := (List.getElem?_eq_some_iff.1 hloc).1
  have hdescribed : (u.describe location).descriptions = u.locations.take (d + 1) := by
    rw [descriptions_describe, h.described, List.take_add_one, hloc, Option.toList_some]
  refine ⟨?_, ?_, ?_, h.nodup, ?_, fun _ => ⟨hidx ▸ hd, hidx ▸ hdescribed⟩, ?_, ?_⟩
  · simp [describe, request, emit]
  · rintro ⟨⟩
  · rintro handler ⟨⟩
    exact ⟨_, rfl, by simp [describe, request, emit, h.inFlight]⟩
  · rintro ⟨⟩
  · exact hdescribed ▸ h.nodup.sublist (List.take_sublist ..)
  · rintro (⟨⟨⟩⟩ | ⟨⟨⟩⟩ | ⟨⟨⟩⟩ | ⟨⟨⟩⟩)

theorem Free.sound_fail (h : Free u d) : (u.fail message).Sound := by
  have hinFlight : (u.fail message).inFlight = [] := by simp [fail, emit, cancel, h.inFlight]
  refine ⟨by simp [fail, cancel, emit], fun _ => hinFlight, ?_, h.nodup, ?_, ?_, ?_, ?_⟩
  · rintro _ ⟨⟩
  · rintro ⟨⟩
  · rintro (⟨⟨⟩⟩ | ⟨⟨⟩⟩)
  · rw [descriptions_fail]
    exact h.nodup_descriptions
  · rintro (⟨⟨⟩⟩ | ⟨⟨⟩⟩ | ⟨⟨⟩⟩ | ⟨⟨⟩⟩)

/-- What was waited for is heard of. -/
structure Heard (u : UpnpIgd) : Prop extends Free u (u.nextLocation + 1) where
  timer : u.searchTimer = none
  located : u.nextLocation < u.locations.length

/-- A service of a device is to be asked. -/
structure Asking (u : UpnpIgd) : Prop extends Heard u where
  service : u.serviceIndex < u.services.length

theorem Asking.exists_post (h : u.Asking) (action : String)
    (arguments : List (String × String)) (handler : Handler) :
    ∃ url soapAction body,
      u.post action arguments handler = u.request (.post url soapAction body) handler := by
  rw [post, List.getElem?_eq_getElem h.service]
  exact ⟨_, _, _, rfl⟩

/-- Something is posted, and waited for. -/
theorem Asking.sound_post (h : u.Asking) (hhandler : u.stage.handler = some handler)
    (action : String) (arguments : List (String × String)) :
    (u.post action arguments handler).Sound := by
  obtain ⟨url, soapAction, body, heq⟩ := h.exists_post action arguments handler
  have hdesc : (u.post action arguments handler).descriptions = u.descriptions := by
    rw [heq, descriptions_request]
    exact List.append_nil _
  rw [heq] at hdesc ⊢
  have hnot : u.stage ≠ .Searching := fun hs => by
    rw [hs] at hhandler
    cases hhandler
  refine ⟨?_, fun hnone => ?_, fun other hother => ?_, h.nodup, fun hs => absurd hs hnot,
    fun _ => ⟨h.located, hdesc.trans h.described⟩, hdesc ▸ h.nodup_descriptions,
    fun _ => h.service⟩
  · simpa [request, h.timer] using hnot
  · exact absurd (hhandler.symm.trans hnone) (Option.some_ne_none _)
  · have hsame : other = handler := Option.some.inj (hother.symm.trans hhandler)
    exact ⟨_, rfl, by simp [request, h.inFlight, hsame]⟩

theorem attempt_describe (h : u.locations.Nodup) (hloc : u.locations[d]? = some location) :
    (u.describe location).attempt =
      { u.attempt with
        stage := .Describing
        locations := u.locations.length - (d + 1)
        requests := u.requests + 1 } := by
  have hidx := idxOf_of_getElem? h hloc
  rw [describe, attempt_request, attempt_emit, requests_emit]
  simp only [attempt, hidx]
  rfl

theorem attempt_fail : (u.fail message).attempt =
    { u.attempt with
      stage := .Idle
      locations := u.locations.length - (u.nextLocation + 1)
      verdicts := u.verdicts + 1 } := by
  rw [fail, attempt_emit]
  rfl

theorem Asking.attempt_post (h : u.Asking) (action : String) (arguments : List (String × String)) :
    (u.post action arguments handler).attempt =
      { u.attempt with requests := u.requests + 1 } := by
  obtain ⟨url, soapAction, body, heq⟩ := h.exists_post action arguments handler
  rw [heq, attempt_request]

/-- Before a service is asked, that is told. -/
theorem Asking.emit (h : u.Asking) : (u.emit (.progress message)).Asking :=
  ⟨⟨⟨h.inFlight, h.nodup, (descriptions_emit _).trans ((List.append_nil _).trans h.described)⟩,
    h.timer, h.located⟩, h.service⟩

theorem Asking.addMapping (h : u.Asking) (hstage : u.stage.handler = some .onAddMapping) (qt : Qt) :
    (u.addMapping qt).Sound ∧
      (u.addMapping qt).attempt = { u.attempt with requests := u.requests + 1 } := by
  refine ⟨h.emit.sound_post hstage _ _, ?_⟩
  rw [UpnpIgd.addMapping, h.emit.attempt_post, requests_emit, attempt_emit]
  rfl

/-- The next location is described, or the attempt is over. -/
theorem Free.tryNextLocation (h : Free u (u.nextLocation + 1)) (hnot : u.stage ≠ .Searching)
    (why : String) : (u.tryNextLocation why).Sound ∧
    ((∃ l, u.attempt.locations = l + 1 ∧ (u.tryNextLocation why).attempt =
        { u.attempt with stage := .Describing, locations := l, requests := u.requests + 1 }) ∨
      (u.tryNextLocation why).attempt =
        { u.attempt with stage := .Idle, verdicts := u.verdicts + 1 }) := by
  have hfree : Free { u with problems := u.problems ++ [why] } (u.nextLocation + 1) :=
    ⟨h.inFlight, h.nodup, h.described⟩
  rw [UpnpIgd.tryNextLocation]
  dsimp only
  cases hloc : u.locations[u.nextLocation + 1]? with
  | some location =>
    have hlt := (List.getElem?_eq_some_iff.1 hloc).1
    refine ⟨hfree.sound_describe hloc, .inl ⟨u.locations.length - (u.nextLocation + 2), ?_, ?_⟩⟩
    · simp only [attempt, hnot, if_false]
      omega
    · exact attempt_describe h.nodup hloc
  | none =>
    refine ⟨hfree.sound_fail, .inr ?_⟩
    rw [attempt_fail]
    simp [attempt, hnot, verdicts, requests, offered]

/-- To go on to the next location gets the attempt on, whatever services were left. -/
theorem Free.step_tryNextLocation (h : Free u (u.nextLocation + 1))
    (hstage : u.stage = .Describing ∨ u.stage = .Mapping) (why : String) {k : ℕ}
    (hk : u.attempt.services ≤ k) :
    (u.tryNextLocation why).Sound ∧
      Attempt.Step { u.attempt with services := k } (u.tryNextLocation why).attempt := by
  have hbusy : u.stage.busy := by rcases hstage with hs | hs <;> rw [hs] <;> rfl
  have hnot : u.stage ≠ .Searching := by rcases hstage with hs | hs <;> simp [hs]
  obtain ⟨hsound, ⟨l, hl, hattempt⟩ | hattempt⟩ := h.tryNextLocation hnot why
  · exact ⟨hsound, hattempt ▸ .describe (.inr hstage) hl hk⟩
  · exact ⟨hsound, hattempt ▸ .failed hbusy le_rfl hk⟩

/-! ## What is heard of -/

theorem Heard.congr (h : u.Heard) (hinFlight : u'.inFlight = u.inFlight)
    (hlocations : u'.locations = u.locations) (hnext : u'.nextLocation = u.nextLocation)
    (htimer : u'.searchTimer = u.searchTimer) (hdesc : u'.descriptions = u.descriptions) :
    u'.Heard :=
  ⟨⟨hinFlight.trans h.inFlight, hlocations ▸ h.nodup,
    by rw [hdesc, h.described, hlocations, hnext]⟩, htimer.trans h.timer,
    by rw [hnext, hlocations]; exact h.located⟩

theorem attempt_clearReply : u.clearReply.attempt = u.attempt := rfl

theorem Heard.withServices (h : u.Heard) (services : List Service) :
    (u.withServices services).Heard := by
  refine h.congr rfl rfl rfl rfl ?_
  simp [descriptions, UpnpIgd.withServices, Happening.location?]

theorem attempt_withServices (services : List Service) : (u.withServices services).attempt =
    { u.attempt with
      services := services.length - (u.serviceIndex + 1)
      offered := u.offered + services.length } :=
  attempt_emit (u := { u with services }) (.described services)

theorem Heard.onDescription (h : u.Heard) (hstage : u.stage = .Describing) (reply : HttpReply) :
    (u.onDescription qt reply).Sound ∧ u.attempt.Step (u.onDescription qt reply).attempt := by
  rw [UpnpIgd.onDescription, ← attempt_clearReply]
  have hstage' : u.clearReply.stage = .Describing := hstage
  have h' : u.clearReply.Heard := h.congr rfl rfl rfl rfl rfl
  generalize u.clearReply = u at *
  dsimp only
  split_ifs with herror hnone
  · exact h'.step_tryNextLocation (.inl hstage') _ le_rfl
  · generalize parseDescription qt reply.body u.location = services at *
    obtain rfl : services = [] := hnone
    have hk : (u.withServices []).attempt.services ≤ u.attempt.services := by
      rw [attempt_withServices]
      exact (Nat.zero_sub _).trans_le (Nat.zero_le _)
    have hstep := (h'.withServices []).step_tryNextLocation (.inl hstage')
      (u.location.text ++ " offers no WAN connection service") hk
    rwa [attempt_withServices] at hstep
  · generalize parseDescription qt reply.body u.location = services at *
    have hpos : 0 < services.length := List.length_pos_of_ne_nil hnone
    have hasking : Asking { u.withServices services with serviceIndex := 0, stage := .Mapping } :=
      ⟨(h'.withServices services).congr rfl rfl rfl rfl rfl, hpos⟩
    obtain ⟨hsound, hattempt⟩ := hasking.addMapping rfl qt
    refine ⟨hsound, ?_⟩
    have hask := Attempt.Step.ask (a := u.attempt) (n := services.length - 1) hstage'
    rw [Nat.sub_add_cancel hpos] at hask
    convert hask using 1
    rw [hattempt]
    have hservices := attempt_withServices (u := u) services
    have hrequests : (u.withServices services).requests = u.requests :=
      congrArg Attempt.requests hservices
    have hoffered : (u.withServices services).offered = u.offered + services.length :=
      congrArg Attempt.offered hservices
    have hverdicts : (u.withServices services).verdicts = u.verdicts :=
      congrArg Attempt.verdicts hservices
    simp only [attempt, hstage']
    congr 1
    · exact congrArg (· + 1) hrequests

theorem attempt_withStage (hnot : u.stage ≠ .Searching) (stage : Stage)
    (hstage : stage ≠ .Searching) : attempt { u with stage } = { u.attempt with stage } := by
  simp only [attempt, if_neg hnot, if_neg hstage]
  rfl

/-- The mapping stands, and that is told. -/
theorem Asking.mapped (h : u.Asking) (hstage : u.stage = .Mapped) (port : UInt16)
    (lease : UInt32) (external : HostAddress) :
    (u.emit (.mapped port lease external)).Sound ∧
      (u.emit (.mapped port lease external)).attempt =
        { u.attempt with verdicts := u.verdicts + 1 } := by
  have hdesc : (u.emit (.mapped port lease external)).descriptions = u.descriptions :=
    (descriptions_emit _).trans (List.append_nil _)
  refine ⟨⟨?_, fun _ => h.inFlight, ?_, h.nodup, ?_,
    fun _ => ⟨h.located, hdesc.trans h.described⟩, hdesc ▸ h.nodup_descriptions,
    fun _ => h.service⟩, ?_⟩
  · simp [UpnpIgd.emit, h.timer, hstage]
  · intro handler hhandler
    rw [UpnpIgd.emit, hstage] at hhandler
    cases hhandler
  · intro hs
    rw [UpnpIgd.emit, hstage] at hs
    cases hs
  · rw [attempt_emit]
    rfl

theorem Asking.onAddMapping (h : u.Asking) (hstage : u.stage = .Mapping ∨ u.stage = .Renewing)
    (reply : HttpReply) (draw : ℕ) : (u.onAddMapping qt reply draw).Sound ∧
      u.attempt.Step (u.onAddMapping qt reply draw).attempt := by
  rw [UpnpIgd.onAddMapping, ← attempt_clearReply]
  have hstage' : u.clearReply.stage = .Mapping ∨ u.clearReply.stage = .Renewing := hstage
  have h' : u.clearReply.Asking := ⟨h.toHeard.congr rfl rfl rfl rfl rfl, h.service⟩
  generalize u.clearReply = u at *
  have hhandler : u.stage.handler = some .onAddMapping := by
    rcases hstage' with hs | hs <;> rw [hs] <;> rfl
  have hnot : u.stage ≠ .Searching := by rcases hstage' with hs | hs <;> simp [hs]
  have hbusy : u.stage.busy := by rcases hstage' with hs | hs <;> rw [hs] <;> rfl
  have hfail (message : String) :
      (u.fail message).Sound ∧ u.attempt.Step (u.fail message).attempt := by
    refine ⟨h'.sound_fail, ?_⟩
    rw [attempt_fail]
    exact .failed hbusy (by simp [attempt, hnot]) le_rfl
  split_ifs with hok hrenewing hconflict hlease hrenewing hrefused hmore
  · -- The renewed mapping stands.
    have hasking : Asking { u with stage := .Mapped } :=
      ⟨h'.toHeard.congr rfl rfl rfl rfl rfl, h'.service⟩
    obtain ⟨hsound, hattempt⟩ := hasking.mapped rfl u.externalPort u.lease .null
    refine ⟨hsound, hattempt ▸ ?_⟩
    rw [attempt_withStage hnot .Mapped (by decide)]
    exact .mapped (.inl hrenewing)
  · -- The new mapping stands: what is the address?
    have hmapping := hstage'.resolve_right hrenewing
    have hasking : Asking { u with stage := .AskingAddress } :=
      ⟨h'.toHeard.congr rfl rfl rfl rfl rfl, h'.service⟩
    refine ⟨hasking.sound_post rfl _ _, ?_⟩
    rw [askAddress, hasking.attempt_post, attempt_withStage hnot .AskingAddress (by decide)]
    exact .granted hmapping
  · -- Another port.
    have hasking : Asking { u with
        conflicts := u.conflicts + 1, externalPort := drawPort draw } :=
      ⟨h'.toHeard.congr rfl rfl rfl rfl rfl, h'.service⟩
    obtain ⟨hsound, hattempt⟩ := hasking.addMapping hhandler qt
    refine ⟨hsound, hattempt ▸ .retry (a := u.attempt) hstage' ?_⟩
    simp only [attempt]
    omega
  · -- For good.
    have hasking : Asking { u with lease := 0 } :=
      ⟨h'.toHeard.congr rfl rfl rfl rfl rfl, h'.service⟩
    obtain ⟨hsound, hattempt⟩ := hasking.addMapping hhandler qt
    refine ⟨hsound, hattempt ▸ .retry (a := u.attempt) hstage' ?_⟩
    simp only [attempt, if_neg hlease.2]
    rfl
  · exact hfail _
  · -- The next service.
    have hasking : Asking { u with serviceIndex := u.serviceIndex + 1 } :=
      ⟨h'.toHeard.congr rfl rfl rfl rfl rfl, hmore⟩
    obtain ⟨hsound, hattempt⟩ := hasking.addMapping hhandler qt
    refine ⟨hsound, hattempt ▸ .next (a := u.attempt) (hstage'.resolve_right hrenewing) ?_⟩
    simp only [attempt]
    omega
  · exact h'.step_tryNextLocation (.inr (hstage'.resolve_right hrenewing)) _ le_rfl
  · exact hfail _

theorem Asking.onAddress (h : u.Asking) (hstage : u.stage = .AskingAddress)
    (reply : HttpReply) : (u.onAddress qt reply).Sound ∧
      u.attempt.Step (u.onAddress qt reply).attempt := by
  have hasking : Asking { u.clearReply with stage := .Mapped, socket := false } :=
    ⟨h.toHeard.congr rfl rfl rfl rfl rfl, h.service⟩
  obtain ⟨hsound, hattempt⟩ := hasking.mapped rfl u.externalPort u.lease
    (if (parseSoapResponse qt reply.status reply.body).ok then
      qt.hostAddress ((parseSoapResponse qt reply.status reply.body).value "NewExternalIPAddress")
      else .null)
  have hmapped : attempt { u with stage := .Mapped } = { u.attempt with stage := .Mapped } :=
    attempt_withStage (by simp [hstage]) .Mapped (by decide)
  exact ⟨hsound, (hattempt.trans (congrArg (fun a => { a with verdicts := u.verdicts + 1 })
    hmapped)) ▸ .mapped (.inr hstage)⟩

/-! ## The search -/

theorem Free.sound_search (h : Free u 0) (hstage : u.stage = .Searching) : u.search.Sound := by
  have hdesc : u.search.descriptions = u.descriptions := by
    simp [search, emit, descriptions, Happening.location?]
  have hnil : u.search.descriptions = [] := hdesc.trans (h.described.trans (List.take_zero ..))
  have hstage' : u.search.stage = .Searching := hstage
  refine ⟨?_, fun _ => h.inFlight, fun handler hhandler => ?_, h.nodup, fun _ => hnil,
    fun hs => ?_, hnil ▸ List.nodup_nil, fun hs => ?_⟩
  · simp [search, emit, hstage]
  · rw [hstage'] at hhandler
    cases hhandler
  · rw [hstage'] at hs
    rcases hs with ⟨⟨⟩⟩ | ⟨⟨⟩⟩
  · rw [hstage'] at hs
    rcases hs with ⟨⟨⟩⟩ | ⟨⟨⟩⟩ | ⟨⟨⟩⟩ | ⟨⟨⟩⟩

theorem attempt_searched (target : HostAddress) (port : UInt16) (st : String) :
    (u.emit (.searched target port st)).attempt = u.attempt := attempt_emit _

theorem attempt_withTimer (searchTimer : Option ℕ) :
    attempt { u with searchTimer } = u.attempt := rfl

theorem attempt_search : u.search.attempt = u.attempt := by
  rw [search, attempt_withTimer, attempt_searched, attempt_searched]

theorem Sound.free (h : u.Sound) (hstage : u.stage = .Searching) : Free u 0 :=
  ⟨h.quiet (hstage ▸ rfl), h.nodup, (h.searching hstage).trans (List.take_zero ..).symm⟩

/-- The search is over, with locations to describe. -/
theorem Free.step_describe (h : Free u 0) (hstage : u.stage = .Searching)
    (hloc : u.locations[0]? = some location) (s : ℕ) : (u.describe location).Sound ∧
      Attempt.Step { u.attempt with searches := s } (u.describe location).attempt := by
  refine ⟨h.sound_describe hloc, ?_⟩
  rw [attempt_describe h.nodup hloc]
  refine .describe (a := { u.attempt with searches := s }) (.inl hstage) ?_ le_rfl
  have hlt := (List.getElem?_eq_some_iff.1 hloc).1
  simp only [attempt, if_pos hstage]
  omega

theorem Sound.onSearchTimeout (h : u.Sound) (hstage : u.stage = .Searching) :
    { u with searchTimer := none }.onSearchTimeout.Sound ∧
      u.attempt.Step { u with searchTimer := none }.onSearchTimeout.attempt := by
  have hfree : Free { u with searchTimer := none, searchAttempt := u.searchAttempt + 1 } 0 :=
    ⟨(h.free hstage).inFlight, h.nodup, (h.free hstage).described⟩
  rw [UpnpIgd.onSearchTimeout, if_neg (not_not.2 hstage)]
  dsimp only
  split
  · rename_i location rest hlocations
    refine hfree.step_describe hstage ?_ (u.searchDelays.1.length - u.searchAttempt)
    exact congrArg (·[0]?) hlocations
  · split_ifs with hlt
    · refine ⟨hfree.sound_search hstage, ?_⟩
      rw [attempt_search]
      refine .search hstage ?_
      simp only [attempt]
      omega
    · refine ⟨hfree.sound_fail, ?_⟩
      rw [attempt_fail]
      refine .failed (by simp [attempt, hstage, Stage.busy]) ?_ le_rfl
      simp [attempt, hstage]

/-- What is waited for stays. -/
structure Stays (u u' : UpnpIgd) : Prop where
  stage : u'.stage = u.stage
  timer : u'.searchTimer = u.searchTimer
  searchAttempt : u'.searchAttempt = u.searchAttempt
  inFlight : u'.inFlight = u.inFlight

theorem Stays.refl (u : UpnpIgd) : Stays u u := ⟨rfl, rfl, rfl, rfl⟩

/-- A turn that only finds locations, or gets the attempt on. -/
structure Turn (u u' : UpnpIgd) : Prop where
  sound : u'.Sound
  found : ∃ a, Relation.ReflTransGen Attempt.Found u.attempt a ∧
    (u'.attempt = a ∧ Stays u u' ∨ a.Step u'.attempt)

theorem Turn.refl (h : u.Sound) : Turn u u := ⟨h, _, .refl, .inl ⟨rfl, .refl u⟩⟩

theorem Turn.of_step (h : u'.Sound ∧ u.attempt.Step u'.attempt) : Turn u u' :=
  ⟨h.1, _, .refl, .inr h.2⟩

/-- A location is found that does not lead to the gateway. -/
theorem Sound.listed (h : u.Sound) (hstage : u.stage = .Searching) (hnew : location ∉ u.locations) :
    Sound { u with locations := u.locations ++ [location] } ∧
      u.attempt.Found (attempt { u with locations := u.locations ++ [location] }) := by
  refine ⟨⟨h.timer, h.quiet, h.waiting, ?_, h.searching, fun hs => ?_, h.nodup_descriptions,
    h.services⟩, ?_⟩
  · exact h.nodup.append (List.nodup_singleton _) (by simpa using hnew)
  · rw [hstage] at hs
    rcases hs with ⟨⟨⟩⟩ | ⟨⟨⟩⟩
  · have hfound := Attempt.Found.found (a := u.attempt) hstage
    convert hfound using 1
    simp [attempt, hstage, verdicts, requests, offered]

theorem turn_onDatagrams : ∀ (pending : List Datagram) {u : UpnpIgd}, u.Sound →
    Turn u (onDatagrams qt pending u)
  | [], u, h => .refl h
  | datagram :: rest, u, h => by
    rw [onDatagrams]
    split
    · exact turn_onDatagrams rest h
    · rename_i response hresponse
      split_ifs with hstage hold hgateway
      · exact turn_onDatagrams rest h
      · exact turn_onDatagrams rest h
      · -- The gateway's own description is asked for first.
        rw [not_not] at hstage
        have hfree : Free { u with
            locations := response.location :: u.locations, searchTimer := none } 0 :=
          ⟨(h.free hstage).inFlight, List.nodup_cons.2 ⟨hold, h.nodup⟩, h.searching hstage⟩
        have hloc : (response.location :: u.locations)[0]? = some response.location := rfl
        refine .of_step ⟨hfree.sound_describe hloc, ?_⟩
        rw [attempt_describe hfree.nodup hloc]
        have hanswered := Attempt.Step.answered (a := u.attempt) hstage
        convert hanswered using 1
        simp [attempt, hstage, verdicts, requests, offered]
      · rw [not_not] at hstage
        obtain ⟨hlisted, hfound⟩ := h.listed hstage hold
        obtain ⟨hsound, a, hchain, hturn⟩ := turn_onDatagrams rest hlisted
        refine ⟨hsound, a, .head hfound hchain, hturn.imp_left fun hstays => ⟨hstays.1, ?_⟩⟩
        exact ⟨hstays.2.stage, hstays.2.timer, hstays.2.searchAttempt, hstays.2.inFlight⟩

theorem Sound.heard (h : u.Sound) {handler : Handler} (hhandler : u.stage.handler = some handler) :
    Heard { u with inFlight := [] } := by
  obtain ⟨hlocated, hdescribed⟩ := h.described (.inr (hhandler ▸ rfl))
  have htimer : u.searchTimer = none := by
    rw [← Option.not_isSome_iff_eq_none, h.timer]
    intro hs
    rw [hs] at hhandler
    cases hhandler
  exact ⟨⟨rfl, h.nodup, hdescribed⟩, htimer, hlocated⟩

/-- The request in flight finishes. -/
theorem Sound.onFinished (h : u.Sound) {r : InFlight} (hr : r ∈ u.inFlight) (reply : HttpReply)
    (draw : ℕ) : (u.onFinished qt r reply draw).Sound ∧
      u.attempt.Step (u.onFinished qt r reply draw).attempt := by
  cases hhandler : u.stage.handler with
  | none =>
    rw [h.quiet hhandler] at hr
    cases hr
  | some handler =>
    obtain ⟨serial, -, hinFlight⟩ := h.waiting handler hhandler
    rw [hinFlight, List.mem_singleton] at hr
    have hheard := h.heard hhandler
    have hu : { u with inFlight := u.inFlight.erase r } = { u with inFlight := [] } := by
      rw [hinFlight, hr, List.erase_cons_head]
    rw [UpnpIgd.onFinished, hu, if_pos (by rw [hr])]
    rw [hr]
    have hservice (hs : u.stage = .Mapping ∨ u.stage = .Renewing ∨ u.stage = .AskingAddress) :
        Asking { u with inFlight := [] } := ⟨hheard, h.services (.inr hs)⟩
    cases handler with
    | onDescription => exact hheard.onDescription (Stage.handler_eq_onDescription.1 hhandler) reply
    | onAddMapping =>
      have hstage := Stage.handler_eq_onAddMapping.1 hhandler
      exact (hservice (hstage.imp_right .inl)).onAddMapping hstage reply draw
    | onAddress =>
      have hstage := Stage.handler_eq_onAddress.1 hhandler
      exact (hservice (.inr (.inr hstage))).onAddress hstage reply

/-! ## Calls -/

theorem Sound.renew (h : u.Sound) (hstage : u.stage = .Mapped) (qt : Qt) :
    (u.renew qt).Sound ∧ u.attempt.Renewed (u.renew qt).attempt := by
  obtain ⟨hlocated, hdescribed⟩ := h.described (.inl hstage)
  have hservice := h.services (.inl hstage)
  have htimer : u.searchTimer = none := by
    rw [← Option.not_isSome_iff_eq_none, h.timer, hstage]
    exact Stage.noConfusion
  have hasking : Asking { u with stage := .Renewing } :=
    ⟨⟨⟨h.quiet (hstage ▸ rfl), h.nodup, hdescribed⟩, htimer, hlocated⟩, hservice⟩
  obtain ⟨hsound, hattempt⟩ := hasking.addMapping rfl qt
  have hnot : ¬(u.stage ≠ .Mapped ∨ u.services = []) := by
    rintro (hs | hs)
    · exact hs hstage
    · rw [hs] at hservice
      exact Nat.not_lt_zero _ hservice
  rw [UpnpIgd.renew, if_neg hnot]
  refine ⟨hsound, hattempt ▸ ?_⟩
  rw [attempt_withStage (by simp [hstage]) .Renewing (by decide)]
  exact .renew hstage

theorem Sound.inFlight_cancel (h : u.Sound) : u.cancel.inFlight = [] := by
  rw [cancel]
  dsimp only
  cases hhandler : u.stage.handler with
  | none => rw [h.quiet hhandler, List.filter_nil]
  | some handler =>
    obtain ⟨serial, hreply, hinFlight⟩ := h.waiting handler hhandler
    simp [hreply, hinFlight]

/-- Nothing is under way. -/
theorem sound_of_idle (hstage : u.stage = .Idle) (hinFlight : u.inFlight = [])
    (htimer : u.searchTimer = none) (hnodup : u.locations.Nodup)
    (hdesc : u.descriptions.Nodup) : u.Sound := by
  refine ⟨by simp [htimer, hstage], fun _ => hinFlight, ?_, hnodup, ?_, ?_, hdesc, ?_⟩ <;>
    simp [hstage, Stage.handler]

theorem Sound.cancel (h : u.Sound) : u.cancel.Sound :=
  sound_of_idle rfl h.inFlight_cancel rfl h.nodup h.nodup_descriptions

theorem Sound.releaseBlocking (h : u.Sound) (connects : Bool) :
    (u.releaseBlocking connects).Sound := by
  rw [UpnpIgd.releaseBlocking]
  split
  · exact h
  · split
    · exact h
    · split_ifs with hconnects
      · refine sound_of_idle rfl h.inFlight_cancel rfl h.nodup ?_
        rw [descriptions_emit]
        exact (List.append_nil _).symm ▸ h.nodup_descriptions
      · exact h.cancel

/-- What a `UpnpIgd` that starts is like. -/
structure Started (u : UpnpIgd) : Prop where
  inFlight : u.inFlight = []
  locations : u.locations = []
  nextLocation : u.nextLocation = 0
  services : u.services = []
  log : u.log = []

variable (gateway localAddress : HostAddress) (internalPort suggested : UInt16)
  (leaseSeconds : UInt32) (bindsLocal bindsAny : Bool) (error : String)

theorem Started.free (h : u.Started) : Free u 0 :=
  ⟨h.inFlight, h.locations ▸ List.nodup_nil, by
    rw [descriptions, h.log, List.take_zero, List.filterMap_nil]⟩

theorem Sound.reset (h : u.Sound) :
    (u.reset gateway localAddress internalPort suggested leaseSeconds).Started :=
  ⟨h.inFlight_cancel, rfl, rfl, rfl, rfl⟩

theorem Started.begins_fail (h : u.Started) : (u.fail message).attempt.Begins := by
  rw [attempt_fail]
  refine ⟨?_, ?_, ?_, ?_, ?_, ?_, ?_⟩
  · simp [h.locations]
  · simp [attempt, h.services]
  · simp only [attempt]
    split_ifs <;> omega
  · simp [attempt, h.locations]
  · simp [attempt, offered, h.log]
  · simp [attempt, requests, h.log]
  · simp [verdicts, h.log, Stage.busy]

/-- The search begins. -/
theorem Started.search (h : u.Started) (hstage : u.stage = .Searching) :
    (u.emit (.progress message)).search.Sound ∧
      (u.emit (.progress message)).search.attempt.Begins := by
  have hfree : Free (u.emit (.progress message)) 0 := ⟨h.inFlight, h.locations ▸ List.nodup_nil,
    (descriptions_emit _).trans ((List.append_nil _).trans h.free.described)⟩
  refine ⟨hfree.sound_search hstage, ?_⟩
  rw [attempt_search]
  refine ⟨?_, ?_, ?_, congrArg List.length h.locations, ?_, ?_, ?_⟩
  · simp [attempt, emit, hstage, h.locations]
  · simp [attempt, emit, h.services]
  · simp only [attempt]
    split_ifs <;> omega
  · simp [attempt, offered, emit, h.log, Happening.offered]
  · simp [attempt, requests, emit, h.log, Happening.isRequest]
  · simp [attempt, verdicts, emit, h.log, Happening.isVerdict, hstage, Stage.busy]

/-- The attempt that `start` begins: the search is on, or it has failed. -/
theorem Sound.start (h : u.Sound) :
    (u.start gateway localAddress internalPort suggested leaseSeconds bindsLocal bindsAny
      error).Sound ∧
    (u.start gateway localAddress internalPort suggested leaseSeconds bindsLocal bindsAny
      error).attempt.Begins := by
  have hstarted := h.reset gateway localAddress internalPort suggested leaseSeconds
  rw [UpnpIgd.start]
  generalize u.reset gateway localAddress internalPort suggested leaseSeconds = v at *
  dsimp only
  split
  · exact ⟨hstarted.free.sound_fail, hstarted.begins_fail⟩
  · exact ⟨hstarted.free.sound_fail, hstarted.begins_fail⟩
  · split_ifs with hbinds
    · exact Started.search ⟨hstarted.inFlight, hstarted.locations, hstarted.nextLocation,
        hstarted.services, hstarted.log⟩ rfl
    · exact ⟨hstarted.free.sound_fail, hstarted.begins_fail⟩

/-! ## Runs -/

/-- What may happen of itself while an attempt is under way, or is asked for to renew it. -/
def Event.Ongoing : Event → Prop
  | .renew | .datagrams _ | .searchTimeout | .finished .. => True
  | .start .. | .releaseBlocking _ | .cancel | .setSearchTarget .. | .setSearchDelays _ => False

variable {e : Event}

/-- An event other than a renewal gets the attempt on, or leaves what is waited for. -/
theorem Sound.turn (h : u.Sound) (he : e.Ongoing) (hnot : ¬(e = .renew ∧ u.stage = .Mapped)) :
    Turn u (u.apply qt e) := by
  cases e with
  | renew =>
    have hu : u.apply qt .renew = u := if_pos (.inl fun hs => hnot ⟨rfl, hs⟩)
    rw [hu]
    exact .refl h
  | datagrams pending =>
    rw [apply]
    split_ifs
    · exact turn_onDatagrams pending h
    · exact .refl h
  | searchTimeout =>
    rw [apply]
    split_ifs with htimer
    · exact .of_step (h.onSearchTimeout (h.timer.1 htimer))
    · exact .refl h
  | finished serial reply draw =>
    rw [apply]
    split
    · rename_i r hr
      exact .of_step (h.onFinished (List.mem_of_find?_eq_some hr) reply draw)
    · exact .refl h
  | start | releaseBlocking | cancel | setSearchTarget | setSearchDelays => exact he.elim

theorem Sound.apply (h : u.Sound) (e : Event) : (u.apply qt e).Sound := by
  cases e with
  | start => exact (h.start ..).1
  | releaseBlocking connects => exact h.releaseBlocking connects
  | cancel => exact h.cancel
  | setSearchTarget => exact ⟨h.timer, h.quiet, h.waiting, h.nodup, h.searching, h.described,
      h.nodup_descriptions, h.services⟩
  | setSearchDelays delaysMs =>
    rw [UpnpIgd.apply, setSearchDelays]
    split_ifs
    · exact ⟨h.timer, h.quiet, h.waiting, h.nodup, h.searching, h.described,
        h.nodup_descriptions, h.services⟩
    · exact h
  | renew =>
    by_cases hstage : u.stage = .Mapped
    · exact (h.renew hstage qt).1
    · exact (h.turn (e := .renew) trivial fun hand => hstage hand.2).sound
  | datagrams pending => exact (h.turn (e := .datagrams pending) trivial (by simp)).sound
  | searchTimeout => exact (h.turn (e := .searchTimeout) trivial (by simp)).sound
  | finished serial reply draw =>
    exact (h.turn (e := .finished serial reply draw) trivial (by simp)).sound

theorem sound_foldl (events : List Event) : (events.foldl (UpnpIgd.apply qt) {}).Sound := by
  have hinit : Sound {} := sound_of_idle rfl rfl rfl List.nodup_nil List.nodup_nil
  generalize ({} : UpnpIgd) = u at *
  induction events generalizing u with
  | nil => exact hinit
  | cons e events ih => exact ih (u.apply qt e) (hinit.apply e)

section Runs

open Progress

variable (qt : Qt) (u : UpnpIgd) (events : ℕ → Event)

/-- The state after the first `n` events. -/
def after : ℕ → UpnpIgd := states (UpnpIgd.apply qt) u events

/-- How often a mapping was renewed by the first `n` events. -/
def renewals (n : ℕ) : ℕ :=
  (List.range n).countP fun k => events k = .renew ∧ (u.after qt events k).stage = .Mapped

/-- Every request finishes at last, and a search timer that runs fires, unless it is
    stopped. -/
structure Fair : Prop where
  finishes : ∀ n, ∀ r ∈ (u.after qt events n).inFlight, ∃ m ≥ n, r ∉ (u.after qt events m).inFlight
  fires : ∀ n, (u.after qt events n).searchTimer.isSome →
    ∃ m ≥ n, events m = .searchTimeout ∨ (u.after qt events m).searchTimer = none

/-- Every attempt of a run concludes: the first one, and each renewal. -/
structure Concludes : Prop where
  /-- There is one verdict for each attempt, none yet for the one under way. -/
  verdicts : ∀ n, (u.after qt events n).verdicts + (u.after qt events n).stage.busy.toNat =
    1 + u.renewals qt events n
  /-- None is under way for ever. -/
  concluded : ∀ n, ∃ m ≥ n, (u.after qt events m).stage.busy = false ∧
    u.renewals qt events m = u.renewals qt events n
  /-- So many requests are made, and one more for each renewal. -/
  requests : ∀ n, (u.after qt events n).requests ≤ (u.after qt events n).locations.length +
    (u.after qt events n).offered + MaxConflictRetries + 3 + u.renewals qt events n
  /-- No location is described twice. -/
  descriptions : ∀ n, (u.after qt events n).descriptions.Nodup

variable {qt u events}

theorem renewals_succ (n : ℕ) : u.renewals qt events (n + 1) = u.renewals qt events n +
    if events n = .renew ∧ (u.after qt events n).stage = .Mapped then 1 else 0 := by
  rw [renewals, List.range_succ, List.countP_append]
  simp [renewals]

theorem sound_after (h : u.Sound) : ∀ n, (u.after qt events n).Sound :=
  states_induction h fun n _ hs => hs.apply (events n)

/-- What a turn comes to, whatever it is. -/
structure Turned (u u' : UpnpIgd) (renewed : ℕ) : Prop where
  verdicts : u'.verdicts + u'.stage.busy.toNat = u.verdicts + u.stage.busy.toNat + renewed
  spent : u'.attempt.spent + (u.locations.length + u.offered) ≤
    u.attempt.spent + (u'.locations.length + u'.offered) + renewed

variable {a b : Attempt}

theorem found_star (h : Relation.ReflTransGen Attempt.Found a b) :
    b.rank = a.rank ∧ b.verdicts = a.verdicts ∧ b.stage = a.stage ∧
      b.spent + (a.found + a.offered) ≤ a.spent + (b.found + b.offered) := by
  induction h with
  | refl => exact ⟨rfl, rfl, rfl, le_rfl⟩
  | tail hchain hfound ih =>
    obtain ⟨hrank, hverdicts, hstage, hspent⟩ := ih
    have hle := hfound.spent_le
    refine ⟨hfound.rank_eq.trans hrank, ?_, ?_, by omega⟩
    · obtain ⟨-⟩ := hfound
      exact hverdicts
    · obtain ⟨-⟩ := hfound
      exact hstage

theorem Turn.turned (h : Turn u u') : Turned u u' 0 := by
  obtain ⟨hsound, a, hchain, hturn⟩ := h
  obtain ⟨-, hverdicts, hstage, hspent⟩ := found_star hchain
  rcases hturn with ⟨rfl, hstays⟩ | hstep
  · exact ⟨by rw [hstays.stage]; exact congrArg (· + _) hverdicts, hspent⟩
  · have hsum := hstep.verdicts_eq
    rw [hverdicts, hstage] at hsum
    have hle := hstep.spent_le
    have htotal : u'.attempt.spent + (u.attempt.found + u.attempt.offered) ≤
        u.attempt.spent + (u'.attempt.found + u'.attempt.offered) := by omega
    exact ⟨hsum, htotal⟩

theorem Sound.turned (h : u.Sound) (he : e.Ongoing) : Turned u (u.apply qt e)
    (if e = .renew ∧ u.stage = .Mapped then 1 else 0) := by
  split_ifs with hrenew
  · obtain ⟨rfl, hstage⟩ := hrenew
    have hrenewed := (h.renew hstage qt).2
    exact ⟨hrenewed.verdicts_eq, hrenewed.spent_le⟩
  · exact (h.turn he hrenew).turned

/-- A busy attempt gets on by a turn, or waits on. -/
theorem Turn.rank_lt (h : Turn u u') (hbusy : u'.stage.busy) :
    u'.attempt.rank < u.attempt.rank ∨ u'.attempt.rank ≤ u.attempt.rank ∧ Stays u u' := by
  obtain ⟨hsound, a, hchain, hturn⟩ := h
  have hrank := (found_star hchain).1
  rcases hturn with ⟨rfl, hstays⟩ | hstep
  · exact .inr ⟨hrank.le, hstays⟩
  · exact .inl (hrank ▸ hstep.rank_lt hbusy)

theorem not_stays_searchTimeout (h : u.Sound) (hstage : u.stage = .Searching) (qt : Qt) :
    ¬Stays u (u.apply qt .searchTimeout) := by
  intro hstays
  have happly : u.apply qt .searchTimeout = { u with searchTimer := none }.onSearchTimeout :=
    if_pos (h.timer.2 hstage)
  have hsame := hstays.stage.trans hstage
  have hattempt := hstays.searchAttempt
  rw [happly, onSearchTimeout, if_neg (not_not.2 hstage)] at hsame hattempt
  dsimp only at hsame hattempt
  split at hsame
  · cases hsame
  · rename_i hnone
    split_ifs at hsame with hlt
    · rw [hnone] at hattempt
      dsimp only at hattempt
      rw [if_pos hlt] at hattempt
      exact Nat.succ_ne_self _ hattempt
    · cases hsame

theorem stays_chain {n : ℕ} (h : ∀ m ≥ n, (u.after qt events m).Stays (u.after qt events (m + 1)))
    {m : ℕ} (hm : n ≤ m) : (u.after qt events n).Stays (u.after qt events m) := by
  induction m, hm using Nat.le_induction with
  | base => exact .refl _
  | succ m hm ih =>
    have hlast := h m hm
    exact ⟨hlast.stage.trans ih.stage, hlast.timer.trans ih.timer,
      hlast.searchAttempt.trans ih.searchAttempt, hlast.inFlight.trans ih.inFlight⟩

/-- In a fair run, nothing is waited for in vain. -/
theorem Fair.not_forall_stays (hfair : u.Fair qt events) (h : u.Sound) (n : ℕ) :
    ¬∀ m ≥ n, (u.after qt events m).stage.busy ∧
      (u.after qt events m).Stays (u.after qt events (m + 1)) := by
  intro hall
  have hchain := fun {m} (hm : n ≤ m) => stays_chain (fun m hm => (hall m hm).2) hm
  have hsound (n : ℕ) : (u.after qt events n).Sound := sound_after h n
  cases hhandler : (u.after qt events n).stage.handler with
  | some handler =>
    obtain ⟨serial, -, hinFlight⟩ := (hsound n).waiting handler hhandler
    obtain ⟨m, hm, hnot⟩ := hfair.finishes n ⟨serial, handler, (u.after qt events n).generation⟩
      (hinFlight ▸ List.mem_singleton_self _)
    rw [(hchain hm).inFlight, hinFlight] at hnot
    exact hnot (List.mem_singleton_self _)
  | none =>
    have hsearching : (u.after qt events n).stage = .Searching := by
      have hbusy := (hall n le_rfl).1
      cases hs : (u.after qt events n).stage <;> rw [hs] at hbusy hhandler <;> cases hbusy <;>
        first | rfl | cases hhandler
    have htimer := (hsound n).timer.2 hsearching
    obtain ⟨m, hm, hfires | hstopped⟩ := hfair.fires n htimer
    · have hstays := (hall m hm).2
      have hs := (hchain hm).stage.trans hsearching
      refine not_stays_searchTimeout (hsound m) hs qt ?_
      rw [← hfires]
      exact hstays
    · rw [(hchain hm).timer.symm.trans hstopped] at htimer
      cases htimer

theorem not_mapped_of_busy (h : u.stage.busy) : u.stage ≠ .Mapped := fun hs => by
  rw [hs] at h
  cases h

/-- In a fair run, no attempt is under way for ever. -/
theorem Fair.exists_done (hfair : u.Fair qt events) (h : u.Sound)
    (hongoing : ∀ n, (events n).Ongoing) (n : ℕ) : ∃ m ≥ n,
      (u.after qt events m).stage.busy = false ∧
        u.renewals qt events m = u.renewals qt events n := by
  have hdone : ∀ n, ∃ m ≥ n, ¬(u.after qt events m).stage.busy = true := by
    refine Progress.exists_done (u.after qt events) (fun u => u.stage.busy) Stays
      (fun u => u.attempt.rank) (fun n hbusy hbusy' => ?_) (hfair.not_forall_stays h)
    exact ((sound_after h n).turn (hongoing n)
      fun hrenew => not_mapped_of_busy hbusy hrenew.2).rank_lt hbusy'
  obtain ⟨m, hm, hidle, hbusy⟩ :=
    exists_first_done (u.after qt events) (fun u => u.stage.busy) hdone n
  refine ⟨m, hm, Bool.eq_false_iff.2 hidle, ?_⟩
  clear hidle
  induction m, hm using Nat.le_induction with
  | base => rfl
  | succ m hm ih =>
    rw [renewals_succ, if_neg fun hrenew => not_mapped_of_busy (hbusy m hm m.lt_succ_self) hrenew.2]
    exact ih fun k hk hlt => hbusy k hk (Nat.lt_succ_of_lt hlt)

theorem Fair.concludes (hfair : u.Fair qt events) (h : u.Sound) (hbegins : u.attempt.Begins)
    (hongoing : ∀ n, (events n).Ongoing) : u.Concludes qt events := by
  have hturned (n : ℕ) : Turned (u.after qt events n) (u.after qt events (n + 1)) _ :=
    (sound_after h n).turned (hongoing n)
  refine ⟨fun n => ?_, hfair.exists_done h hongoing, fun n => ?_,
    fun n => (sound_after h n).nodup_descriptions⟩
  · induction n with
    | zero => exact hbegins.verdicts
    | succ n ih => rw [(hturned n).verdicts, ih, renewals_succ, Nat.add_assoc]
  · have hspent : (u.after qt events n).attempt.spent ≤ (u.after qt events n).locations.length +
        (u.after qt events n).offered + (MaxConflictRetries + 2) + u.renewals qt events n := by
      induction n with
      | zero =>
        have hbegin := hbegins.spent_le
        exact hbegin.trans (by rw [renewals]; exact Nat.le_add_left _ _)
      | succ n ih =>
        have hstep := (hturned n).spent
        rw [renewals_succ]
        omega
    have hrequests : (u.after qt events n).requests ≤ (u.after qt events n).attempt.spent := by
      rw [Attempt.spent]
      have heq : (u.after qt events n).attempt.requests = (u.after qt events n).requests := rfl
      omega
    omega

/-- Every attempt that `start` begins ends with its one verdict, and so does each renewal. -/
theorem concludes_start (before : List Event) (events : ℕ → Event)
    (hongoing : ∀ n, (events n).Ongoing)
    (hfair : ((before.foldl (UpnpIgd.apply qt) {}).start gateway localAddress internalPort
      suggested leaseSeconds bindsLocal bindsAny error).Fair qt events) :
    ((before.foldl (UpnpIgd.apply qt) {}).start gateway localAddress internalPort
      suggested leaseSeconds bindsLocal bindsAny error).Concludes qt events := by
  obtain ⟨hsound, hbegins⟩ := (sound_foldl before).start gateway localAddress internalPort
    suggested leaseSeconds bindsLocal bindsAny error
  exact hfair.concludes hsound hbegins hongoing

/-- A gateway that answers the search, and whose description cannot be had. -/
theorem concludes_start_undescribed :
    let gateway : HostAddress := .ipv4 (HostAddress.dotted 192 168 0 1)
    let qt : Qt := {
      fromEncoded := fun _ => ⟨"http://192.168.0.1/d.xml", "http", "192.168.0.1", true, false⟩
      url := fun _ => {}
      resolved := fun base _ => base
      hostAddress := fun _ => gateway
      addressText := fun _ => "192.168.0.1"
      xml := fun _ => ⟨[], true⟩ }
    let answer : Datagram :=
      ⟨gateway, ascii "HTTP/1.1 200 OK\r\nLOCATION: http://192.168.0.1/d.xml\r\n"⟩
    let events : ℕ → Event := fun
      | 0 => .datagrams [answer]
      | _ => .finished 0 { error := true } 0
    (UpnpIgd.start {} gateway (.ipv4 (HostAddress.dotted 192 168 0 2)) 6881 0 3600 true true
      "").Concludes qt events := by
  intro gateway qt answer events
  let u := UpnpIgd.start {} gateway (.ipv4 (HostAddress.dotted 192 168 0 2)) 6881 0
      3600 true true ""
  -- After two events, nothing is under way.
  have hquiet (n : ℕ) : (u.after qt events (n + 2)).searchTimer = none ∧
      (u.after qt events (n + 2)).inFlight = [] := by
    induction n with
    | zero => decide +kernel
    | succ n ih =>
      have hsame : u.after qt events (n + 3) = u.after qt events (n + 2) := by
        change UpnpIgd.apply qt (u.after qt events (n + 2)) (.finished 0 { error := true } 0) = _
        rw [UpnpIgd.apply, ih.2, List.find?_nil]
      rw [hsame]
      exact ih
  have hfair : u.Fair qt events := by
    refine ⟨fun n r _ => ⟨n + 2, Nat.le_add_right _ _, ?_⟩,
      fun n _ => ⟨n + 2, Nat.le_add_right _ _, .inr (hquiet n).1⟩⟩
    rw [(hquiet n).2]
    exact List.not_mem_nil
  exact concludes_start gateway (.ipv4 (HostAddress.dotted 192 168 0 2)) 6881 0 3600 true true ""
    [] events (fun n => by cases n <;> trivial) hfair

end Runs

end UpnpIgd

end Dht
