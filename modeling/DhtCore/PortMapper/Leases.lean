import DhtCore.Lib.Lease
import DhtCore.PortMapper.Asking

/-!
# What the gateways keep

The mappings that gateways granted, and were not asked to drop since, are the leases of a
`World`. A gateway grants when it likes: before its answer is read, and also if that is never
read. The mapper drops one mapping when it is stopped, the one that it has then. So nothing is
left if every grant is one of what is asked for at the time, the mapper does not give that up
later (`givesUp`), and has heard of it when it is stopped (`abandons`).
-/

namespace Dht

open Upnp

namespace PortMapper

/-! ## Grants and releases -/

/-- A mapping, granted on an external port. -/
abbrev Granted := Lease Mapping UInt16

variable (qt : Qt) (o : Outside) (m : PortMapper)

/-- Whether a datagram that was sent asks to drop a mapping. -/
def releases (l : Granted) : MapperOutput → Bool
  | .changed => false
  | .sent data address port =>
    match l.key with
    | .pcp gateway gatewayPort nonce internalPort =>
      address = gateway && port = gatewayPort && data.take 2 = [2, 1] && numberAt data 4 4 = 0 &&
        (data.drop 24).take 12 = nonce && numberAt data 40 2 = internalPort.toNat &&
        (l.terms = 0 || numberAt data 42 2 = l.terms.toNat)
    | .natPmp gateway gatewayPort internalPort =>
      address = gateway && port = gatewayPort && data.take 2 = [0, 1] &&
        numberAt data 4 2 = internalPort.toNat && numberAt data 8 4 = 0
    | .upnp .. => false

/-- Whether the gateway was asked to drop a mapping, between two states. -/
def released (m m' : PortMapper) (l : Granted) : Bool :=
  (m'.log.drop m.log.length).any (releases l) ||
    match l.key with
    | .upnp service externalPort =>
      (m'.upnp.log.drop m.upnp.log.length).contains (.released service externalPort)
    | .pcp .. | .natPmp .. => false

/-! ## Runs -/

/-- A mapper, the time, and what gateways keep for it. -/
structure World where
  mapper : PortMapper := {}
  now : ℕ := 0
  leases : List Granted := []

/-- What comes next. -/
inductive Input
  /-- Some milliseconds pass. -/
  | passes (ms : ℕ)
  /-- Something happens to the mapper. -/
  | happens (outside : Outside) (e : Event)
  /-- A gateway grants a mapping. Whether its answer is read is another matter. -/
  | grants (l : Granted)

namespace World

/-- Something happens to the mapper, which may release what it has when it is stopped. -/
def happen (w : World) (e : Event) : World :=
  let m := w.mapper.apply qt o e
  { w with
    mapper := m
    leases := if isStop e then w.leases.filter fun l => !w.mapper.released m l else w.leases }

/-- One step of a run. -/
def step (w : World) : Input → World
  | .passes ms => { w with now := w.now + ms }
  | .happens o e => w.happen qt o e
  | .grants l => { w with leases := l.grant w.leases }

/-- Whether a lease will not have run out by then. -/
def holding (w : World) (last : ℕ) : Bool := Lease.anyLive w.leases last

end World

/-! ## Losses -/

/-- Whether a mapping is not released by a mapper that is stopped: no answer to what is asked
    for was read, UPnP cannot reach its gateway, or PCP was told of another port. -/
def abandons (l : Granted) : Bool :=
  m.snapshot.state ≠ .Mapped ||
    match m.protocol with
    | .Pcp => l.terms ≠ 0 && l.terms ≠ m.snapshot.externalPort
    | .NatPmp => false
    | .Upnp => !o.connects

namespace World

/-- Whether a mapping is lost that will not have run out by then: it will not be released any
    more. -/
def loses (last : ℕ) (w : World) : Input → Bool
  | .passes _ => false
  | .happens o e =>
    if isStop e then w.leases.any fun l => l.live last && w.mapper.abandons o l
    else w.holding last && w.mapper.givesUp qt o e
  | .grants l => l.live last && w.mapper.standing.current ≠ some l.key

/-- What will not have run out by then is what the mapper asks for. -/
structure Kept (last : ℕ) (w : World) : Prop where
  sound : w.mapper.standing.Sound
  keeps : Lease.AllLive (fun l => w.mapper.standing.current = some l.key) w.leases last

end World

variable {qt o m} {m' : PortMapper} {w : World} {l : Granted} {last : ℕ} {e : Event}

/-! ## Releases -/

theorem numberAt_append {before after : Bytes} {start : ℕ} (hstart : before.length = start)
    (n v : ℕ) : numberAt (before ++ (Endpoint.bytesOf n v ++ after)) start n = v % 256 ^ n := by
  rw [numberAt, List.drop_left' hstart, List.take_left' (Endpoint.length_bytesOf n v),
    Endpoint.bigEndian_bytesOf]

theorem port_mod (port : UInt16) : port.toNat % 256 ^ 2 = port.toNat :=
  Nat.mod_eq_of_lt port.toNat_lt

/-- The fields of the MAP request that say what is asked for. -/
theorem buildPcpMap_fields (hnonce : m.nonce.length = 12) (lifetime : UInt32) :
    let data := m.buildPcpMap lifetime
    data.take 2 = [2, 1] ∧ numberAt data 4 4 = lifetime.toNat ∧
      (data.drop 24).take 12 = m.nonce ∧ numberAt data 40 2 = m.snapshot.internalPort.toNat ∧
      numberAt data 42 2 = m.suggested.toNat := by
  let address := Endpoint.bytesOf 4 (toIPv4Address m.localAddress)
  let start := [2, 1, 0, 0] ++ Endpoint.bytesOf 4 lifetime.toNat ++ List.replicate 10 0 ++
    [0xff, 0xff] ++ address
  let internal := Endpoint.bytesOf 2 m.snapshot.internalPort.toNat
  let external := Endpoint.bytesOf 2 m.suggested.toNat
  let rest := List.replicate 10 (0 : UInt8) ++ [0xff, 0xff, 0, 0, 0, 0]
  have hstart : start.length = 24 := by simp [start, address]
  have hdata : m.buildPcpMap lifetime =
      start ++ (m.nonce ++ ([17, 0, 0, 0] ++ (internal ++ (external ++ rest)))) := by
    simp only [buildPcpMap, start, address, internal, external, rest, List.append_assoc]
  have hhead : m.buildPcpMap lifetime = [2, 1, 0, 0] ++ (Endpoint.bytesOf 4 lifetime.toNat ++
      (List.replicate 10 0 ++ ([0xff, 0xff] ++ (address ++ (m.nonce ++ ([17, 0, 0, 0] ++
        (internal ++ (external ++ rest)))))))) := by
    rw [hdata]
    simp only [start, List.append_assoc]
  refine ⟨by rw [hhead]; rfl, ?_, ?_, ?_, ?_⟩
  · rw [hhead]
    exact (numberAt_append rfl 4 _).trans (Nat.mod_eq_of_lt lifetime.toNat_lt)
  · rw [hdata, List.drop_left' hstart, List.take_left' hnonce]
  · rw [hdata, ← List.append_assoc m.nonce, ← List.append_assoc start,
      numberAt_append (by simp [hstart, hnonce]), port_mod]
  · rw [hdata, ← List.append_assoc m.nonce, ← List.append_assoc (m.nonce ++ _),
      ← List.append_assoc start, numberAt_append (by simp [hstart, hnonce, internal]), port_mod]

theorem buildNatPmpMap_fields (lifetime : UInt32) :
    let data := m.buildNatPmpMap lifetime
    data.take 2 = [0, 1] ∧ numberAt data 4 2 = m.snapshot.internalPort.toNat ∧
      numberAt data 8 4 = lifetime.toNat := by
  let internal := Endpoint.bytesOf 2 m.snapshot.internalPort.toNat
  let external := Endpoint.bytesOf 2 (if lifetime ≠ 0 then m.suggested.toNat else 0)
  have hdata : m.buildNatPmpMap lifetime = [0, 1, 0, 0] ++ (internal ++
      (external ++ (Endpoint.bytesOf 4 lifetime.toNat ++ []))) := by
    simp only [buildNatPmpMap, internal, external, List.append_assoc, List.append_nil]
  refine ⟨by rw [hdata]; rfl, ?_, ?_⟩
  · rw [hdata]
    exact (numberAt_append rfl 2 _).trans (port_mod _)
  · rw [hdata, ← List.append_assoc internal, ← List.append_assoc [0, 1, 0, 0],
      numberAt_append (by simp [internal, external])]
    exact Nat.mod_eq_of_lt lifetime.toNat_lt

theorem releases_pcp {gateway : HostAddress} {gatewayPort internalPort : UInt16} {nonce : Bytes}
    (hkey : l.key = .pcp gateway gatewayPort nonce internalPort) {data : Bytes}
    {address : HostAddress} {port : UInt16} : releases l (.sent data address port) ↔
      address = gateway ∧ port = gatewayPort ∧ data.take 2 = [2, 1] ∧ numberAt data 4 4 = 0 ∧
        (data.drop 24).take 12 = nonce ∧ numberAt data 40 2 = internalPort.toNat ∧
        (l.terms = 0 ∨ numberAt data 42 2 = l.terms.toNat) := by
  rw [releases, hkey]
  simp only [Bool.and_eq_true, Bool.or_eq_true, decide_eq_true_iff, and_assoc]

theorem releases_natPmp {gateway : HostAddress} {gatewayPort internalPort : UInt16}
    (hkey : l.key = .natPmp gateway gatewayPort internalPort) {data : Bytes}
    {address : HostAddress} {port : UInt16} : releases l (.sent data address port) ↔
      address = gateway ∧ port = gatewayPort ∧ data.take 2 = [0, 1] ∧
        numberAt data 4 2 = internalPort.toNat ∧ numberAt data 8 4 = 0 := by
  rw [releases, hkey]
  simp only [Bool.and_eq_true, decide_eq_true_iff, and_assoc]

/-- What PCP and NAT-PMP ask for is dropped when they ask for that. -/
theorem releases_current (hne : m.protocol ≠ .Upnp)
    (hcurrent : m.standing.current = some l.key)
    (hpcp : m.protocol = .Pcp →
      m.nonce.length = 12 ∧ (l.terms = 0 ∨ l.terms = m.snapshot.externalPort)) :
    releases l (.sent (if m.protocol = .Pcp then m.buildPcpMap 0 else m.buildNatPmpMap 0)
      m.gateway m.gatewayPort) := by
  rw [Standing.current] at hcurrent
  cases hprotocol : m.protocol with
  | Pcp =>
    rw [show m.standing.protocol = .Pcp from hprotocol] at hcurrent
    obtain ⟨-, hkey⟩ := Option.ite_none_right_eq_some.1 hcurrent
    obtain ⟨hnonce, hport⟩ := hpcp hprotocol
    obtain ⟨hhead, hlifetime, hnonce', hinternal, hexternal⟩ := buildPcpMap_fields hnonce 0
    rw [if_pos rfl, releases_pcp (Option.some.inj hkey).symm]
    refine ⟨rfl, rfl, hhead, hlifetime, hnonce', hinternal, ?_⟩
    by_cases hzero : l.terms = 0
    · exact .inl hzero
    · have hsame := hport.resolve_left hzero
      rw [hexternal, suggested, ← hsame, if_pos hzero]
      exact .inr rfl
  | NatPmp =>
    rw [show m.standing.protocol = .NatPmp from hprotocol] at hcurrent
    obtain ⟨-, hkey⟩ := Option.ite_none_right_eq_some.1 hcurrent
    obtain ⟨hhead, hinternal, hlifetime⟩ := buildNatPmpMap_fields (m := m) 0
    rw [if_neg nofun, releases_natPmp (Option.some.inj hkey).symm]
    exact ⟨rfl, rfl, hhead, hinternal, hlifetime⟩
  | Upnp => exact absurd hprotocol hne

/-- What UPnP holds is dropped, if the gateway can be reached. -/
theorem released_upnp (hprotocol : m.protocol = .Upnp) (hholds : Holds m.upnp)
    (hstate : m.snapshot.state = .Mapped) (hcurrent : m.standing.current = some l.key)
    (hconnects : o.connects) : m.released (m.release o) l := by
  rw [Standing.current, show m.standing.protocol = .Upnp from hprotocol] at hcurrent
  obtain ⟨service, hservice, hkey⟩ := Option.map_eq_some_iff.1 (upnpMapping_eq_some.1 hcurrent).2
  have hservice : m.upnp.services[m.upnp.serviceIndex]? = some service := hservice
  have hidle : ¬(m.upnp.stage ≠ .Mapped ∧ m.upnp.stage ≠ .Renewing) := fun hneither =>
    hholds.elim hneither.1 hneither.2
  have hrelease :
      (m.release o).upnp = m.upnp.cancel.emit (.released service m.upnp.externalPort) := by
    rw [release, if_neg (not_not.2 hstate), if_pos hprotocol]
    dsimp only
    rw [UpnpIgd.releaseBlocking, if_neg hidle, hservice]
    exact if_pos hconnects
  rw [released, Bool.or_eq_true, ← hkey, hrelease]
  refine .inr ?_
  rw [show (m.upnp.cancel.emit (.released service m.upnp.externalPort)).log =
    m.upnp.log ++ [.released service m.upnp.externalPort] from rfl, List.drop_left,
    List.contains_iff_mem]
  exact List.mem_singleton_self _

/-- What is asked for is released, unless it is abandoned. -/
theorem released_release (hsound : m.standing.Sound) (hcurrent : m.standing.current = some l.key)
    (hnot : m.abandons o l = false) : m.released (m.release o) l := by
  obtain ⟨hmapped, hable⟩ := Bool.or_eq_false_iff.1 hnot
  have hstate : m.snapshot.state = .Mapped := by simpa using hmapped
  by_cases hprotocol : m.protocol = .Upnp
  · rw [hprotocol] at hable
    refine released_upnp hprotocol (hsound.holds hstate hprotocol) hstate hcurrent ?_
    simpa using hable
  · have hrelease : (m.release o).log = m.log ++
        [.sent (if m.protocol = .Pcp then m.buildPcpMap 0 else m.buildNatPmpMap 0)
          m.gateway m.gatewayPort] := by
      rw [release, if_neg (not_not.2 hstate), if_neg hprotocol,
        if_pos (show m.socket from hsound.socket hstate hprotocol)]
      rfl
    have hreleases := releases_current hprotocol hcurrent fun hpcp => by
      rw [hpcp] at hable
      refine ⟨hsound.nonce hstate hpcp, ?_⟩
      simpa [or_iff_not_imp_left] using hable
    rw [released, hrelease, List.drop_left, List.any_cons, hreleases, Bool.true_or, Bool.true_or]

/-- What was released stays so, whatever is done next. -/
theorem released_of_prefix {m₁ : PortMapper} (h : m.released m₁ l) (hlog : m₁.log <+: m'.log)
    (hupnp : m₁.upnp.log <+: m'.upnp.log) : m.released m' l := by
  rw [released, Bool.or_eq_true] at h ⊢
  refine h.imp (fun hsent => ?_) fun hreleased => ?_
  · obtain ⟨output, houtput, hreleases⟩ := List.any_eq_true.1 hsent
    exact List.any_eq_true.2 ⟨output, (hlog.drop _).subset houtput, hreleases⟩
  · cases hkey : l.key with
    | upnp service port =>
      rw [hkey] at hreleased
      exact List.contains_iff_mem.2 ((hupnp.drop _).subset (List.contains_iff_mem.1 hreleased))
    | pcp | natPmp =>
      rw [hkey] at hreleased
      cases hreleased

theorem release_prefix_stopInternal (notify : Bool) :
    (m.release o).log <+: (m.stopInternal o notify).log ∧
      (m.release o).upnp.log <+: (m.stopInternal o notify).upnp.log := by
  rw [stopInternal]
  split_ifs
  · exact ⟨List.prefix_append _ _, List.prefix_rfl⟩
  · exact ⟨List.prefix_rfl, List.prefix_rfl⟩

theorem prefix_sendRequest : m.log <+: m.sendRequest.log := by
  rw [sendRequest]
  by_cases hsocket : m.socket
  · rw [if_pos hsocket]
    exact List.prefix_append _ _
  · rw [if_neg hsocket]

theorem prefix_beginProtocol (qt : Qt) (o : Outside) (m : PortMapper) :
    m.log <+: (m.beginProtocol qt o .Pcp).log ∧ (m.beginProtocol qt o .Pcp).upnp = m.upnp := by
  have hpcp : Protocol.Pcp ≠ .Upnp := by decide
  rw [beginProtocol, if_neg hpcp]
  constructor
  · refine List.IsPrefix.trans ?_ prefix_sendRequest
    exact List.prefix_append _ _
  · rw [upnp_sendRequest]
    rfl

theorem stopInternal_prefix_start (qt : Qt) (o : Outside) (m : PortMapper) (port : UInt16) :
    (m.stopInternal o false).log <+: (m.start qt o port).log ∧
      (m.stopInternal o false).upnp = (m.start qt o port).upnp := by
  obtain ⟨m', hupnp, hlog, ⟨message, hfail⟩ | hbegin⟩ := start_cases qt o m port
  · rw [hfail, ← hlog, ← hupnp]
    exact ⟨List.prefix_append _ _, rfl⟩
  · obtain ⟨hsent, hsame⟩ := prefix_beginProtocol qt o m'
    rw [hbegin, ← hlog, ← hupnp]
    exact ⟨hsent, hsame.symm⟩

/-- What is released is so before whatever else a stop does. -/
theorem released_apply (qt : Qt) (hstop : isStop e) (hreleased : m.released (m.release o) l) :
    m.released (m.apply qt o e) l := by
  cases e with
  | start port =>
    obtain ⟨hlog, hupnp⟩ := release_prefix_stopInternal (o := o) (m := m) false
    obtain ⟨hlog', hsame⟩ := stopInternal_prefix_start qt o m port
    exact released_of_prefix hreleased (hlog.trans hlog') (hsame ▸ hupnp)
  | stop =>
    obtain ⟨hlog, hupnp⟩ := release_prefix_stopInternal (o := o) (m := m) true
    exact released_of_prefix hreleased hlog hupnp
  | _ => cases hstop

/-! ## Runs -/

namespace World

/-- When the mapper is stopped, nothing is left of what it asked for. -/
theorem Kept.stopped (h : w.Kept last) (hstop : isStop e)
    (hnot : loses qt last w (.happens o e) = false) :
    Lease.AllLive (fun _ => False) (w.happen qt o e).leases last := by
  rw [loses, if_pos hstop] at hnot
  have hkeeps : Lease.AllLive (fun l => w.mapper.released (w.mapper.apply qt o e) l)
      w.leases last := fun l hl hlive => by
    have hkept := List.any_eq_false.1 hnot l hl
    rw [hlive, Bool.true_and, Bool.not_eq_true] at hkept
    exact released_apply qt hstop (released_release h.sound (h.keeps l hl hlive) hkept)
  rw [happen]
  dsimp only
  rw [if_pos hstop]
  exact hkeeps.release fun _ => id

/-- What will not have run out is what is asked for, as long as none is lost. -/
theorem Kept.step (h : w.Kept last) {i : Input} (hnot : loses qt last w i = false) :
    (w.step qt i).Kept last := by
  cases i with
  | passes ms => exact ⟨h.sound, h.keeps⟩
  | happens o e =>
    refine ⟨sound_apply h.sound e, ?_⟩
    cases hstop : isStop e with
    | true => exact (h.stopped hstop hnot).mono fun _ => False.elim
    | false =>
      rw [loses, hstop, if_neg Bool.false_ne_true] at hnot
      rw [World.step, happen]
      dsimp only
      rw [hstop, if_neg Bool.false_ne_true]
      cases hholding : w.holding last with
      | false => exact .of_anyLive hholding
      | true =>
        rw [hholding, Bool.true_and] at hnot
        exact h.keeps.mono fun l hl => current_apply h.sound hl hstop hnot
  | grants l =>
    refine ⟨h.sound, h.keeps.grant (fun l' hl' _ => hl') fun hlive => ?_⟩
    rw [loses, hlive, Bool.true_and] at hnot
    exact of_not_not (of_decide_eq_false hnot)

/-- Whether no mapping is lost in a run that will not have run out by then. -/
def lossless (qt : Qt) (last : ℕ) : World → List Input → Bool
  | _, [] => true
  | w, i :: rest => !loses qt last w i && lossless qt last (w.step qt i) rest

/-- The world after some inputs, from nothing. -/
def run (qt : Qt) (inputs : List Input) : World := inputs.foldl (World.step qt) {}

theorem run_concat (qt : Qt) (inputs : List Input) (i : Input) :
    run qt (inputs ++ [i]) = (run qt inputs).step qt i := List.foldl_concat ..

theorem kept_of_lossless {inputs : List Input} (h : w.Kept last)
    (hrun : lossless qt last w inputs) : (inputs.foldl (World.step qt) w).Kept last := by
  induction inputs generalizing w with
  | nil => exact h
  | cons i rest ih =>
    rw [lossless, Bool.and_eq_true, Bool.not_eq_true'] at hrun
    exact ih (h.step hrun.1) hrun.2

theorem kept_start (last : ℕ) : World.Kept last {} :=
  ⟨.of_ne (UpnpIgd.sound_of_idle rfl rfl rfl List.nodup_nil List.nodup_nil) nofun, nofun⟩

theorem lossless_append (w : World) (inputs rest : List Input) :
    lossless qt last w (inputs ++ rest) = (lossless qt last w inputs &&
      lossless qt last (inputs.foldl (World.step qt) w) rest) := by
  induction inputs generalizing w with
  | nil => rfl
  | cons i inputs ih => rw [List.cons_append, lossless, lossless, ih, Bool.and_assoc]; rfl

end World

/-- When the mapper is stopped, no mapping is left at the gateway that was granted, was not
    released since and has not run out, if no step of the run lost one that has not. -/
theorem none_left (qt : Qt) (inputs : List Input) (o : Outside)
    (hrun : World.lossless qt (World.run qt inputs).now {} (inputs ++ [.happens o .stop])) :
    ∀ l ∈ (World.run qt (inputs ++ [.happens o .stop])).leases,
      ¬l.live (World.run qt (inputs ++ [.happens o .stop])).now := by
  rw [World.lossless_append, Bool.and_eq_true] at hrun
  obtain ⟨hbefore, hlast⟩ := hrun
  have hkept := World.kept_of_lossless (World.kept_start _) hbefore
  rw [World.lossless, Bool.and_eq_true, Bool.not_eq_true'] at hlast
  rw [World.run_concat]
  exact hkept.stopped rfl hlast.1

/-- Qt, of which nothing is asked. -/
def unread : Qt where
  fromEncoded _ := {}
  url _ := {}
  resolved url _ := url
  hostAddress _ := .null
  addressText _ := ""
  xml _ := ⟨[], false⟩

/-- The gateway of the runs below. -/
def gatewayAddress : HostAddress := .ipv4 (HostAddress.dotted 192 168 1 1)

/-- What the gateway grants by PCP until then. -/
def hour (expires : ℕ) : Granted :=
  ⟨.pcp gatewayAddress 5351 (List.replicate 12 0) 6881, 6881, some expires⟩

/-- A port is mapped for an hour. -/
def granted : List Input :=
  [.happens { defaultGateway := gatewayAddress } (.start 6881), .passes 10, .grants (hour 3600010),
    .passes 10, .happens {} (.readyRead [⟨⟨gatewayAddress, 5351⟩,
      [2, 0x81, 0, 0] ++ Endpoint.bytesOf 4 3600 ++ List.replicate 28 0 ++ [17, 0, 0, 0] ++
        Endpoint.bytesOf 2 6881 ++ Endpoint.bytesOf 2 6881 ++ List.replicate 16 0⟩])]

/-- After half an hour it is renewed, but there is no answer yet. -/
def renewed : List Input :=
  [.passes 1800000, .happens {} .renewTimeout, .passes 10, .grants (hour 5400030)]

/-- What was granted stands until it is stopped, and is released then, also if the answer to
    its renewal was not read. -/
theorem none_left_renewed : (World.run unread (granted ++ renewed)).holding 1800030 ∧
    ∀ l ∈ (World.run unread (granted ++ renewed ++ [.happens {} .stop])).leases,
      ¬l.live (World.run unread (granted ++ renewed ++ [.happens {} .stop])).now := by
  refine ⟨by decide +kernel, none_left unread (granted ++ renewed) {} ?_⟩
  decide +kernel

/-- After half an hour it is to be renewed, but there is no answer. -/
def unanswered : List Input :=
  [.passes 1800000, .happens {} .renewTimeout, .passes 250, .happens {} .retryTimeout,
    .passes 500, .happens {} .retryTimeout, .passes 1000, .happens {} .retryTimeout,
    .passes 2000, .happens {} .retryTimeout]

/-- It is not released then, as another protocol is tried. -/
theorem exists_left : ¬∀ (qt : Qt) (inputs : List Input) (o : Outside),
    ∀ l ∈ (World.run qt (inputs ++ [.happens o .stop])).leases,
      ¬l.live (World.run qt (inputs ++ [.happens o .stop])).now := by
  intro hclaim
  have hleft : (World.run unread (granted ++ unanswered ++ [.happens {} .stop])).holding
      (World.run unread (granted ++ unanswered ++ [.happens {} .stop])).now := by
    decide +kernel
  obtain ⟨l, hl, hlive⟩ := List.any_eq_true.1 hleft
  exact hclaim unread (granted ++ unanswered) {} l hl hlive

end PortMapper

end Dht
