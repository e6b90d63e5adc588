import DhtCore.Storage

/-!
# How long tokens are valid

The secrets of tokens are replaced when a call happens to come, so that how long a secret is
kept depends on the calls: until one comes five minutes after it was drawn, and then for five
minutes as the previous one (`Fate`). A token is thus valid for five minutes, and for its own
address only, but it may be for longer than ten (`tokenWindow_iff`): it lingers if the call
that made its secret the previous one came late (`Lingers`).

What is drawn at random is given with each call. That hashes of different secrets or of
different addresses are different is a hypothesis, for those that are made (`Apart`).
-/

namespace Dht.TokenManager

open List

/-- A call of the manager, with what is drawn should it replace the secrets. -/
inductive Call
  | generate (random : Bytes × Bytes) (address : HostAddress) (now : ℤ)
  | validate (random : Bytes × Bytes) (token : Bytes) (address : HostAddress) (now : ℤ)

/-- What would be drawn for a secret at a call. -/
def Call.random : Call → Bytes × Bytes
  | .generate random _ _ | .validate random _ _ _ => random

/-- The time of a call. -/
def Call.now : Call → ℤ
  | .generate _ _ now | .validate _ _ _ now => now

variable (crypto : Crypto)

/-- The manager after a call. -/
def apply (m : TokenManager) : Call → TokenManager
  | .generate random address now => (m.generate crypto random address now).1
  | .validate random token address now => (m.validate crypto random token address now).1

/-- The manager after some calls. -/
def run (calls : List Call) : TokenManager := calls.foldl (apply crypto) {}

/-- What the calls draw. -/
def draws (calls : List Call) : List Bytes := calls.flatMap fun c => [c.random.1, c.random.2]

/-- The calls come in order. -/
structure InTime (calls : List Call) : Prop where
  nonneg : ∀ c ∈ calls, 0 ≤ c.now
  sorted : (calls.map Call.now).Pairwise (· ≤ ·)

/-- Different secrets are drawn, and different secrets or addresses hash to different tokens. -/
structure Apart (calls : List Call) (addresses : List HostAddress) : Prop where
  nodup : (draws calls).Nodup
  tokens : ∀ s ∈ draws calls, ∀ s' ∈ draws calls, ∀ a ∈ addresses, ∀ a' ∈ addresses,
    tokenFor crypto s a = tokenFor crypto s' a' → s = s' ∧ normalizeAddress a = normalizeAddress a'

/-- A secret drawn at `drawnAt` is still the previous one at `now`: the first of the calls that
    replaced it came before it was ten minutes old, and less than five minutes ago. -/
def Lingers (drawnAt : ℤ) (times : List ℤ) (now : ℤ) : Prop :=
  ∃ c, times.find? (RotationMs ≤ · - drawnAt) = some c ∧ c - drawnAt < 2 * RotationMs ∧
    now - c < RotationMs

variable {crypto} {m : TokenManager} {secret : Bytes} {drawnAt now : ℤ} {times : List ℤ}
  {calls : List Call}

/-! ## Secrets -/

/-- All that a call does is to replace the secrets. -/
theorem apply_eq (m : TokenManager) (c : Call) :
    m.apply crypto c = m.rotateIfNeeded c.random c.now := by
  cases c <;> rfl

theorem run_append (calls calls' : List Call) :
    run crypto (calls ++ calls') = calls'.foldl (apply crypto) (run crypto calls) :=
  foldl_append

/-- After a call, the current secret is not too old. -/
structure Fresh (m : TokenManager) (now : ℤ) : Prop where
  nonneg : 0 ≤ m.rotatedAt
  le : m.rotatedAt ≤ now
  lt : now - m.rotatedAt < RotationMs

theorem fresh_rotateIfNeeded (random : Bytes × Bytes) (hnow : 0 ≤ now) (hle : m.rotatedAt ≤ now) :
    Fresh (m.rotateIfNeeded random now) now := by
  rw [rotateIfNeeded]
  split_ifs with hboth hone
  · exact ⟨hnow, le_rfl, by rw [sub_self]; decide⟩
  · exact ⟨hnow, le_rfl, by rw [sub_self]; decide⟩
  · push Not at hboth
    exact ⟨hboth.1, hle, not_le.1 hone⟩

/-- The secrets were drawn. -/
theorem mem_draws_run (hne : calls ≠ []) (htime : InTime calls) :
    (run crypto calls).current ∈ draws calls ∧ (run crypto calls).previous ∈ draws calls ∧
      ∀ c ∈ calls.getLast?, Fresh (run crypto calls) c.now := by
  induction calls using reverseRecOn with
  | nil => exact absurd rfl hne
  | append_singleton calls c ih =>
    have hdraws : draws (calls ++ [c]) = draws calls ++ [c.random.1, c.random.2] :=
      flatMap_append
    have hrun : run crypto (calls ++ [c]) =
        (run crypto calls).rotateIfNeeded c.random c.now := by
      rw [run_append, foldl_cons, foldl_nil, apply_eq]
    have hnow := htime.nonneg c (mem_append_right _ (mem_singleton_self c))
    rw [hdraws, hrun, getLast?_concat]
    rcases eq_nil_or_concat' calls with rfl | ⟨calls', c', rfl⟩
    · have hnew : (run crypto []).rotateIfNeeded c.random c.now =
          { current := c.random.1, previous := c.random.2, rotatedAt := c.now } :=
        if_pos (.inl (show (-1 : ℤ) < 0 by decide))
      rw [hnew]
      refine ⟨by simp, by simp, ?_⟩
      rintro c ⟨⟩
      exact ⟨hnow, le_rfl, by rw [sub_self]; decide⟩
    · have htime' : InTime (calls' ++ [c']) :=
        ⟨fun x hx => htime.nonneg x (mem_append_left _ hx),
          (pairwise_append.1 (map_append ▸ htime.sorted)).1⟩
      obtain ⟨hcurrent, hprevious, hfresh⟩ := ih (by simp) htime'
      have hfresh := hfresh c' (by rw [getLast?_concat]; rfl)
      have hle : c'.now ≤ c.now := by
        have hsorted := htime.sorted
        rw [map_append, pairwise_append] at hsorted
        exact hsorted.2.2 _ (mem_map_of_mem (by simp)) _ (by simp)
      refine ⟨?_, ?_, ?_⟩
      · rw [rotateIfNeeded]
        split_ifs
        · simp
        · simp
        · exact mem_append_left _ hcurrent
      · rw [rotateIfNeeded]
        split_ifs
        · simp
        · exact mem_append_left _ hcurrent
        · exact mem_append_left _ hprevious
      · rintro x ⟨⟩
        exact fresh_rotateIfNeeded c.random hnow (hfresh.le.trans hle)

/-! ## The fate of a secret -/

/-- What became of a secret that was current at `drawnAt`, after calls at some times. -/
inductive Fate (m : TokenManager) (secret : Bytes) (drawnAt : ℤ) (times : List ℤ) : Prop
  | current (hcurrent : m.current = secret) (hat : m.rotatedAt = drawnAt)
    (hearly : ∀ x ∈ times, x - drawnAt < RotationMs)
  | previous {c : ℤ} (hprevious : m.previous = secret) (hcurrent : m.current ≠ secret)
    (hat : m.rotatedAt = c) (hfind : times.find? (RotationMs ≤ · - drawnAt) = some c)
    (hlt : c - drawnAt < 2 * RotationMs) (hearly : ∀ x ∈ times, x - c < RotationMs)
  | gone {c : ℤ} (hcurrent : m.current ≠ secret) (hprevious : m.previous ≠ secret)
    (hat : 0 ≤ m.rotatedAt) (hfind : times.find? (RotationMs ≤ · - drawnAt) = some c)
    (hlate : 2 * RotationMs ≤ c - drawnAt ∨ ∃ x ∈ times, RotationMs ≤ x - c)

/-- What a call does to a secret: a current one becomes the previous one, or both go. -/
theorem Fate.rotate (h : Fate m secret drawnAt times) (hdrawn : 0 ≤ drawnAt)
    {random : Bytes × Bytes} (hone : random.1 ≠ secret) (htwo : random.2 ≠ secret)
    (hnow : ∀ x ∈ times, x ≤ now) :
    Fate (m.rotateIfNeeded random now) secret drawnAt (times ++ [now]) := by
  have hpos : (0 : ℤ) < RotationMs := by decide
  have hfind' : ∀ {c : ℤ}, times.find? (RotationMs ≤ · - drawnAt) = some c →
      (times ++ [now]).find? (RotationMs ≤ · - drawnAt) = some c := fun hfind => by
    rw [find?_append, hfind]
    rfl
  cases h with
  | current hcurrent hat hearly =>
    have hnone : times.find? (RotationMs ≤ · - drawnAt) = none :=
      find?_eq_none.2 fun x hx => by
        have hlt := hearly x hx
        simpa using hlt
    have hfirst : RotationMs ≤ now - drawnAt →
        (times ++ [now]).find? (RotationMs ≤ · - drawnAt) = some now := fun hge => by
      rw [find?_append, hnone, find?_singleton, if_pos (by simpa using hge)]
      rfl
    rw [rotateIfNeeded, hat]
    split_ifs with hboth hge
    · -- Two periods have passed at once: both secrets are new.
      have hlate := hboth.resolve_left (by omega)
      exact .gone hone htwo (show 0 ≤ now by omega) (hfirst (by omega)) (.inl hlate)
    · push Not at hboth
      refine .previous hcurrent hone rfl (hfirst hge) hboth.2 fun x hx => ?_
      have hle : x ≤ now := (mem_append.1 hx).elim (hnow x) fun hx => (mem_singleton.1 hx).le
      exact lt_of_le_of_lt (sub_nonpos.2 hle) hpos
    · refine .current hcurrent hat fun x hx => ?_
      rcases mem_append.1 hx with hx | hx
      · exact hearly x hx
      · rw [mem_singleton.1 hx]
        exact not_le.1 hge
  | @previous c hprevious hcurrent hat hfind hlt hearly =>
    -- Where it became the previous one is where the first call came after its period.
    have hc := mem_of_find?_eq_some hfind
    have hge : RotationMs ≤ c - drawnAt := by simpa using find?_some hfind
    have hcnow := hnow c hc
    rw [rotateIfNeeded, hat]
    split_ifs with hboth hone'
    · refine .gone hone htwo (show 0 ≤ now by omega) (hfind' hfind) (.inr ⟨now, by simp, ?_⟩)
      have hlate := hboth.resolve_left (by omega)
      omega
    · exact .gone hone hcurrent (show 0 ≤ now by omega) (hfind' hfind) (.inr ⟨now, by simp, hone'⟩)
    · refine .previous hprevious hcurrent hat (hfind' hfind) hlt fun x hx => ?_
      rcases mem_append.1 hx with hx | hx
      · exact hearly x hx
      · rw [mem_singleton.1 hx]
        exact not_le.1 hone'
  | @gone c hcurrent hprevious hat hfind hlate =>
    have hlate' := hlate.imp_right fun ⟨x, hx, hge⟩ =>
      (⟨x, mem_append_left [now] hx, hge⟩ : ∃ x ∈ times ++ [now], RotationMs ≤ x - c)
    have hge : RotationMs ≤ c - drawnAt := by simpa using find?_some hfind
    have hcnow := hnow c (mem_of_find?_eq_some hfind)
    rw [rotateIfNeeded]
    split_ifs with hboth hone'
    · exact .gone hone htwo (show 0 ≤ now by omega) (hfind' hfind) hlate'
    · exact .gone hone hcurrent (show 0 ≤ now by omega) (hfind' hfind) hlate'
    · exact .gone hcurrent hprevious hat (hfind' hfind) hlate'

/-- What calls do to a secret that was current. -/
theorem fate_foldl (hcurrent : m.current = secret) (hfresh : Fresh m now)
    (htimes : ((now :: calls.map Call.now)).Pairwise (· ≤ ·)) (hnew : secret ∉ draws calls) :
    Fate (calls.foldl (apply crypto) m) secret m.rotatedAt (calls.map Call.now) := by
  induction calls using reverseRecOn with
  | nil => exact .current hcurrent rfl fun x hx => absurd hx not_mem_nil
  | append_singleton calls c ih =>
    have hdraws : draws (calls ++ [c]) = draws calls ++ [c.random.1, c.random.2] :=
      flatMap_append
    rw [hdraws, mem_append, mem_cons, mem_singleton] at hnew
    push Not at hnew
    rw [map_append, ← cons_append, pairwise_append] at htimes
    rw [foldl_append, foldl_cons, foldl_nil, apply_eq, map_append]
    refine (ih htimes.1 hnew.1).rotate hfresh.nonneg (Ne.symm hnew.2.1) (Ne.symm hnew.2.2)
      fun x hx => ?_
    exact htimes.2.2 x (mem_cons_of_mem _ hx) _ (by simp)

/-- When a secret is still known. -/
theorem Fate.known_iff (h : Fate m secret drawnAt (times ++ [now])) (hnow : ∀ x ∈ times, x ≤ now) :
    m.current = secret ∨ m.previous = secret ↔
      now - drawnAt < RotationMs ∨ Lingers drawnAt (times ++ [now]) now := by
  have hmem : now ∈ times ++ [now] := by simp
  cases h with
  | current hcurrent _ hearly => exact iff_of_true (.inl hcurrent) (.inl (hearly now hmem))
  | previous hprevious _ _ hfind hlt hearly =>
    exact iff_of_true (.inr hprevious) (.inr ⟨_, hfind, hlt, hearly now hmem⟩)
  | @gone c hcurrent hprevious _ hfind hlate =>
    refine iff_of_false (fun h => h.elim hcurrent hprevious) ?_
    have hle : ∀ x ∈ times ++ [now], x ≤ now := fun x hx =>
      (mem_append.1 hx).elim (hnow x) fun hx => (mem_singleton.1 hx).le
    have hge : RotationMs ≤ c - drawnAt := by simpa using find?_some hfind
    have hcnow := hle c (mem_of_find?_eq_some hfind)
    rintro (hearly | ⟨c', hfind', hlt, hearly⟩)
    · omega
    · rw [hfind, Option.some.injEq] at hfind'
      rcases hlate with hlate | ⟨x, hx, hlate⟩
      · omega
      · have hxnow := hle x hx
        omega

/-! ## Tokens -/

/-- The token that is made after some calls. -/
def tokenMade (crypto : Crypto) (before : List Call) (random : Bytes × Bytes) (a : HostAddress)
    (t : ℤ) : Bytes :=
  ((run crypto before).generate crypto random a t).2

/-- Whether a token is valid after some calls. -/
def accepts (crypto : Crypto) (calls : List Call) (random : Bytes × Bytes) (token : Bytes)
    (b : HostAddress) (t : ℤ) : Bool :=
  ((run crypto calls).validate crypto random token b t).2

/-- A token is made after some calls, and after others it is validated. -/
def exchange (crypto : Crypto) (before : List Call) (random : Bytes × Bytes) (a : HostAddress)
    (t : ℤ) (between : List Call) (random' : Bytes × Bytes) (b : HostAddress)
    (t' : ℤ) : List Call :=
  before ++ [.generate random a t] ++
    (between ++ [.validate random' (tokenMade crypto before random a t) b t'])

/-- How long the token of an address should be valid. -/
structure Window (a b : HostAddress) (t t' : ℤ) (valid : Bool) : Prop where
  soon : normalizeAddress a = normalizeAddress b → t' ≤ t + RotationMs → valid = true
  other : normalizeAddress a ≠ normalizeAddress b → valid = false
  late : t + 2 * RotationMs ≤ t' → valid = false

variable {before between : List Call} {random random' : Bytes × Bytes}
  {a b : HostAddress} {t t' : ℤ}

theorem InTime.of_append (h : InTime (calls ++ between)) : InTime calls :=
  ⟨fun c hc => h.nonneg c (mem_append_left _ hc), (pairwise_append.1 (map_append ▸ h.sorted)).1⟩

/-- A token is valid for its address as long as its secret is known. -/
theorem accepts_iff
    (htime : InTime (exchange crypto before random a t between random' b t'))
    (hapart : Apart crypto (exchange crypto before random a t between random' b t') [a, b]) :
    accepts crypto (before ++ [.generate random a t] ++ between) random'
        (tokenMade crypto before random a t) b t' = true ↔
      normalizeAddress a = normalizeAddress b ∧
        (t' - (run crypto (before ++ [.generate random a t])).rotatedAt < RotationMs ∨
          Lingers (run crypto (before ++ [.generate random a t])).rotatedAt
            (between.map Call.now ++ [t']) t') := by
  rw [exchange] at htime hapart
  set first := before ++ [.generate random a t] with hfirst
  set rest := between ++ [.validate random' (tokenMade crypto before random a t) b t'] with hrest
  have htoken : tokenMade crypto before random a t =
      tokenFor crypto (run crypto first).current a := by
    rw [hfirst, run_append]
    rfl
  have hrun : (run crypto (first ++ between)).rotateIfNeeded random' t' =
      run crypto (first ++ rest) := by
    rw [hrest, ← append_assoc, run_append (first ++ between)]
    rfl
  obtain ⟨hsecret, -, hfresh⟩ : (run crypto first).current ∈ draws first ∧ _ ∧ _ :=
    mem_draws_run (by simp [hfirst]) htime.of_append
  have hfresh := hfresh _ (by rw [hfirst, getLast?_concat]; rfl)
  obtain ⟨hcurrent, hprevious, -⟩ : (run crypto (first ++ rest)).current ∈ _ ∧ _ ∧ _ :=
    mem_draws_run (by simp [hrest]) htime
  have hdraws : draws (first ++ rest) = draws first ++ draws rest := flatMap_append
  have hsorted := htime.sorted
  rw [map_append, pairwise_append] at hsorted
  -- No secret is drawn again, so that the one of the token is followed through the calls.
  have hfate : Fate (run crypto (first ++ rest)) (run crypto first).current
      (run crypto first).rotatedAt (rest.map Call.now) := by
    rw [run_append]
    refine fate_foldl rfl hfresh (pairwise_cons.2 ⟨fun x hx => ?_, hsorted.2.1⟩) ?_
    · exact hsorted.2.2 _ (mem_map_of_mem (by simp [hfirst])) x hx
    · have hnodup := hapart.nodup
      rw [hdraws, nodup_append'] at hnodup
      exact fun hmem => hnodup.2.2 hsecret hmem
  -- Tokens are the same only if their secrets and addresses are.
  have hsame : ∀ {s : Bytes}, s ∈ draws (first ++ rest) →
      (tokenFor crypto (run crypto first).current a = tokenFor crypto s b ↔
        s = (run crypto first).current ∧ normalizeAddress a = normalizeAddress b) := fun hs => by
    constructor
    · intro heq
      have hsecret' : (run crypto first).current ∈ draws (first ++ rest) :=
        hdraws ▸ mem_append_left _ hsecret
      obtain ⟨hs', haddress⟩ := hapart.tokens _ hsecret' _ hs a (by simp) b (by simp) heq
      exact ⟨hs'.symm, haddress⟩
    · rintro ⟨rfl, haddress⟩
      rw [tokenFor, tokenFor, addressBytes, addressBytes, haddress]
  have hmap : rest.map Call.now = between.map Call.now ++ [t'] := map_append
  rw [hmap] at hfate
  rw [← hfate.known_iff fun x hx => ?_]
  · rw [accepts, validate, hrun, htoken, Bool.or_eq_true, decide_eq_true_eq, decide_eq_true_eq,
      hsame hcurrent, hsame hprevious]
    tauto
  · rw [hmap, pairwise_append] at hsorted
    exact hsorted.2.1.2.2 x hx t' (by simp)

/-- The window of a token is what it should be, unless its secret lingers. -/
theorem tokenWindow_iff
    (htime : InTime (exchange crypto before random a t between random' b t'))
    (hapart : Apart crypto (exchange crypto before random a t between random' b t') [a, b]) :
    Window a b t t' (accepts crypto (before ++ [.generate random a t] ++ between) random'
        (tokenMade crypto before random a t) b t') ↔
      (normalizeAddress a = normalizeAddress b → t + 2 * RotationMs ≤ t' →
        ¬Lingers (run crypto (before ++ [.generate random a t])).rotatedAt
          (between.map Call.now ++ [t']) t') := by
  have haccepts := accepts_iff htime hapart
  rw [exchange] at htime
  set drawnAt := (run crypto (before ++ [.generate random a t])).rotatedAt
  have hfresh : Fresh (run crypto (before ++ [.generate random a t])) t :=
    (mem_draws_run (by simp) htime.of_append).2.2 (.generate random a t)
      (by rw [getLast?_concat]; rfl)
  have hdrawn : drawnAt ≤ t := hfresh.le
  have hyoung : t - drawnAt < RotationMs := hfresh.lt
  have hsorted := htime.sorted
  rw [map_append, pairwise_append] at hsorted
  have hpos : (0 : ℤ) < RotationMs := by decide
  constructor
  · intro hwindow hsame hlate hlingers
    have hvalid := haccepts.2 ⟨hsame, .inr hlingers⟩
    rw [hwindow.late hlate] at hvalid
    exact absurd hvalid Bool.false_ne_true
  · intro hgone
    refine ⟨fun hsame hsoon => haccepts.2 ⟨hsame, ?_⟩, fun hother => ?_, fun hlate => ?_⟩
    · by_cases hcurrent : t' - drawnAt < RotationMs
      · exact .inl hcurrent
      -- some call was late enough for the secret to become the previous one
      obtain ⟨c, hfind⟩ : ∃ c, (between.map Call.now ++ [t']).find? (RotationMs ≤ · - drawnAt) =
          some c := by
        rw [← Option.isSome_iff_exists, find?_isSome]
        exact ⟨t', by simp, by simpa using hcurrent⟩
      have hge : RotationMs ≤ c - drawnAt := by simpa using find?_some hfind
      have hle : c ≤ t' := by
        rcases mem_append.1 (mem_of_find?_eq_some hfind) with hc | hc
        · have hbetween := hsorted.2.1
          rw [map_append, pairwise_append] at hbetween
          exact hbetween.2.2 c hc t' (by simp [Call.now])
        · exact (mem_singleton.1 hc).le
      exact .inr ⟨c, hfind, by omega, by omega⟩
    · exact Bool.eq_false_iff.2 fun hvalid => hother (haccepts.1 hvalid).1
    · refine Bool.eq_false_iff.2 fun hvalid => ?_
      obtain ⟨hsame, hcurrent | hlingers⟩ := haccepts.1 hvalid
      · omega
      · exact hgone hsame hlate hlingers

/-- The hashes that are needed for six secrets and an address. -/
def digests : Crypto where
  sha1 bytes :=
    match bytes with
    | 1 :: _ => ⟨Endpoint.bytesOf 20 0x344f40c309f3b0964d2465a754a3356a0c0b5d3f, rfl⟩
    | 2 :: _ => ⟨Endpoint.bytesOf 20 0x2f0da8d1f4a0be057d9d14c3c4164b13dee1cdcc, rfl⟩
    | 3 :: _ => ⟨Endpoint.bytesOf 20 0xada903da15b96b9503618e33d4f1b65f7a2391b6, rfl⟩
    | 4 :: _ => ⟨Endpoint.bytesOf 20 0x315967072ab8684d3c1d2d1383cb3a10297a53c6, rfl⟩
    | 5 :: _ => ⟨Endpoint.bytesOf 20 0xf8ca11be64a9561aeba9a21e84845b053ef49dc8, rfl⟩
    | 6 :: _ => ⟨Endpoint.bytesOf 20 0x3225006d815a7ede78ef1bf08df987b42a7929f4, rfl⟩
    | _ => default
  ed25519Check _ _ _ := false

/-- The host of the calls below. -/
def host : HostAddress := .ipv4 (HostAddress.dotted 203 0 113 9)

/-- Two secrets that are drawn. -/
def secrets (n : UInt8) : Bytes × Bytes := (replicate 8 n, replicate 8 (n + 1))

/-- A token is made, another one at some time, and ten minutes after the first one it is
    validated. -/
def threeCalls (time : ℤ) : List Call :=
  [.generate (secrets 1) host 0, .generate (secrets 3) host time,
    .validate (secrets 5) (tokenMade digests [] (secrets 1) host 0) host 600000]

theorem inTime_threeCalls {time : ℤ} (hpos : 0 ≤ time) (hle : time ≤ 600000) :
    InTime (threeCalls time) :=
  ⟨by simp [threeCalls, Call.now, hpos], by simp [threeCalls, Call.now, hpos, hle]⟩

theorem apart_threeCalls (time : ℤ) : Apart digests (threeCalls time) [host, host] := by
  have hdraws : draws (threeCalls time) =
      [replicate 8 1, replicate 8 2, replicate 8 3, replicate 8 4, replicate 8 5, replicate 8 6] :=
    rfl
  refine ⟨hdraws ▸ by decide, ?_⟩
  rw [hdraws]
  decide

theorem tokenWindow_iff_threeCalls :
    Window host host 0 600000
      (accepts digests [.generate (secrets 1) host 0, .generate (secrets 3) host 300000] (secrets 5)
        (tokenMade digests [] (secrets 1) host 0) host 600000) := by
  have htime : InTime (exchange digests [] (secrets 1) host 0 [.generate (secrets 3) host 300000]
      (secrets 5) host 600000) := inTime_threeCalls (by decide) (by decide)
  refine (tokenWindow_iff htime (apart_threeCalls 300000)).2 fun _ _ => ?_
  rintro ⟨c, hfind, -, hlt⟩
  have hc : c = 300000 := (Option.some.inj hfind).symm
  rw [hc] at hlt
  exact absurd hlt (by decide)

/-- A token may be valid for longer than ten minutes: the secret of this one was replaced a
    millisecond before it was ten minutes old. -/
theorem exists_lingering_token :
    ¬∀ (crypto : Crypto) (before between : List Call) (random random' : Bytes × Bytes)
      (a b : HostAddress) (t t' : ℤ),
      InTime (exchange crypto before random a t between random' b t') →
      Apart crypto (exchange crypto before random a t between random' b t') [a, b] →
      Window a b t t' (accepts crypto (before ++ [.generate random a t] ++ between) random'
        (tokenMade crypto before random a t) b t') := by
  intro hclaim
  have hwindow := hclaim digests [] [.generate (secrets 3) host 599999] (secrets 1) (secrets 5)
    host host 0 600000 (inTime_threeCalls (by decide) (by decide)) (apart_threeCalls 599999)
  exact absurd (hwindow.late (by decide)) (by decide)

end Dht.TokenManager
