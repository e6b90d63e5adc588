import Mathlib.Tactic

/-!
# One question at a time

A client holds a question and shows its answer. It has one question in flight at most, and
asks the one it holds again if another was held meanwhile (`Client.receive`). From an answer it
adopts a part, so that the question held is the one the answer is to (`Service.adopt`). The
service answers from what it views at the time.

Whatever happens, one question is out exactly while one is in flight (`Out`), and at rest the
answer shown is to the question held, from a view since it was last held (`shown_of_run`).
-/

namespace SingleFlight

/-- What answers, what of an answer is adopted, and what is shown of it. -/
structure Service (Q V A D : Type*) where
  answer : V → Q → A
  adopt : Q → A → Q
  display : Q → A → D

/-- The client, with the questions and answers on their way, numbered. -/
structure Client (Q A D : Type*) where
  on : Bool := false
  held : Q
  requestId : ℕ := 0
  inFlight : Bool := false
  again : Bool := false
  shown : Option D := none
  asked : List (Q × ℕ) := []
  answered : List (A × ℕ) := []

/-- What may happen to a client and its server. -/
inductive Event (Q V : Type*)
  | hold (q : Q)
  | answer (v : V)
  | receive
  | start
  | stop

variable {Q V A D : Type*} (s : Service Q V A D) {c c' : Client Q A D} {q q' : Q} {v : V}

namespace Client

/-- Asks for what is held, under the next number. -/
def send (c : Client Q A D) : Client Q A D :=
  { c with
    inFlight := true
    again := false
    requestId := c.requestId + 1
    asked := c.asked ++ [(c.held, c.requestId + 1)] }

/-- Holds something else, and asks for it: now, or once what is in flight is answered. -/
def hold (c : Client Q A D) (q : Q) : Client Q A D :=
  let c := { c with held := q }
  if !c.on then c else if c.inFlight then { c with again := true } else c.send

/-- The service takes a question. -/
def answer (c : Client Q A D) (v : V) : Client Q A D :=
  match c.asked with
  | [] => c
  | (q, n) :: asked => { c with asked, answered := c.answered ++ [(s.answer v q, n)] }

/-- The client takes an answer. -/
def receive (c : Client Q A D) : Client Q A D :=
  match c.answered with
  | [] => c
  | (a, n) :: answered =>
    let c := { c with answered, inFlight := false }
    let c :=
      if n = c.requestId then
        { c with
          held := s.adopt c.held a
          shown := some (s.display (s.adopt c.held a) a) }
      else c
    if c.again && c.on then c.send else c

/-- Nothing of what was on its way arrives. -/
def stop (c : Client Q A D) : Client Q A D :=
  { c with
    on := false
    inFlight := false
    again := false
    shown := none
    asked := []
    answered := [] }

/-- Something happens. -/
def apply (c : Client Q A D) : Event Q V → Client Q A D
  | .hold q => c.hold q
  | .answer v => c.answer s v
  | .receive => c.receive s
  | .start => { c with on := true }
  | .stop => c.stop

/-- What comes of some events. -/
def run (c : Client Q A D) (events : List (Event Q V)) : Client Q A D :=
  events.foldl (apply s) c

end Client

/-! ## One in flight -/

/-- What is out: nothing, a question, or the answer to it. -/
inductive Out (c : Client Q A D) : Prop
  | idle (hflight : c.inFlight = false) (hagain : c.again = false) (hasked : c.asked = [])
    (hanswered : c.answered = []) (hoff : c.on = false → c.shown = none)
  | asked (q : Q) (hflight : c.inFlight = true) (hon : c.on = true)
    (hasked : c.asked = [(q, c.requestId)]) (hanswered : c.answered = [])
  | answered (a : A) (hflight : c.inFlight = true) (hon : c.on = true) (hasked : c.asked = [])
    (hanswered : c.answered = [(a, c.requestId)])

variable {s}

theorem hold_off (hon : c.on = false) (q : Q) : c.hold q = { c with held := q } := by
  simp [Client.hold, hon]

theorem hold_inFlight (hon : c.on = true) (hflight : c.inFlight = true) (q : Q) :
    c.hold q = { c with held := q, again := true } := by
  simp [Client.hold, hon, hflight]

theorem hold_idle (hon : c.on = true) (hflight : c.inFlight = false) (q : Q) :
    c.hold q = Client.send { c with held := q } := by
  simp [Client.hold, hon, hflight]

theorem Out.hold (h : Out c) (q : Q) : Out (c.hold q) := by
  cases h with
  | idle hflight hagain hasked hanswered hoff =>
    cases hon : c.on with
    | false =>
      rw [hold_off hon]
      exact .idle hflight hagain hasked hanswered hoff
    | true =>
      rw [hold_idle hon hflight]
      exact .asked q rfl hon (by simp [Client.send, hasked]) hanswered
  | asked q' hflight hon hasked hanswered =>
    rw [hold_inFlight hon hflight]
    exact .asked q' hflight hon hasked hanswered
  | answered a hflight hon hasked hanswered =>
    rw [hold_inFlight hon hflight]
    exact .answered a hflight hon hasked hanswered

theorem Out.answer (h : Out c) (v : V) : Out (c.answer s v) := by
  cases h with
  | idle hflight hagain hasked hanswered hoff =>
    simp only [Client.answer, hasked]
    exact .idle hflight hagain hasked hanswered hoff
  | asked q hflight hon hasked hanswered =>
    simp only [Client.answer, hasked]
    exact .answered (s.answer v q) hflight hon rfl (by simp [hanswered])
  | answered a hflight hon hasked hanswered =>
    simp only [Client.answer, hasked]
    exact .answered a hflight hon hasked hanswered

variable (s) in
/-- The client when it has taken the answer that it waits for. -/
def Client.showing (c : Client Q A D) (a : A) : Client Q A D :=
  { c with
    inFlight := false
    held := s.adopt c.held a
    shown := some (s.display (s.adopt c.held a) a)
    answered := [] }

/-- The answer that arrives is always the one that is waited for. -/
theorem receive_answered {a : A} (hanswered : c.answered = [(a, c.requestId)])
    (hon : c.on = true) :
    c.receive s = if c.again then (c.showing s a).send else c.showing s a := by
  simp [Client.receive, Client.showing, hanswered, hon]

theorem Out.receive (h : Out c) : Out (c.receive s) := by
  cases h with
  | idle hflight hagain hasked hanswered hoff =>
    simp only [Client.receive, hanswered]
    exact .idle hflight hagain hasked hanswered hoff
  | asked q hflight hon hasked hanswered =>
    simp only [Client.receive, hanswered]
    exact .asked q hflight hon hasked hanswered
  | answered a hflight hon hasked hanswered =>
    rw [receive_answered hanswered hon]
    split_ifs with hagain
    · exact .asked (s.adopt c.held a) rfl hon (by simp [Client.send, Client.showing, hasked]) rfl
    · exact .idle rfl (by simpa [Client.showing] using hagain) hasked rfl
        (by simp [Client.showing, hon])

theorem Out.start (h : Out c) : Out { c with on := true } := by
  cases h with
  | idle hflight hagain hasked hanswered => exact .idle hflight hagain hasked hanswered (by simp)
  | asked q hflight _ hasked hanswered => exact .asked q hflight rfl hasked hanswered
  | answered a hflight _ hasked hanswered => exact .answered a hflight rfl hasked hanswered

theorem Out.apply (h : Out c) (e : Event Q V) : Out (c.apply s e) := by
  cases e with
  | hold q => exact h.hold q
  | answer v => exact h.answer v
  | receive => exact h.receive
  | start => exact h.start
  | stop => exact .idle rfl rfl rfl rfl fun _ => rfl

/-- One question or answer is on its way while one is in flight, and none else. -/
theorem Out.length (h : Out c) :
    c.asked.length + c.answered.length = if c.inFlight then 1 else 0 := by
  cases h with
  | idle hflight _ hasked hanswered => simp [hflight, hasked, hanswered]
  | asked _ hflight _ hasked hanswered => simp [hflight, hasked, hanswered]
  | answered _ hflight _ hasked hanswered => simp [hflight, hasked, hanswered]

theorem Out.on (h : Out c) (hflight : c.inFlight = true) : c.on = true := by
  cases h with
  | idle hidle => simp [hflight] at hidle
  | asked _ _ hon => exact hon
  | answered _ _ hon => exact hon

/-- The answer on its way is to the latest question. -/
theorem Out.requestId (h : Out c) {a : A} {n : ℕ} (ha : (a, n) ∈ c.answered) :
    n = c.requestId := by
  cases h with
  | idle _ _ _ hanswered => simp [hanswered] at ha
  | asked _ _ _ _ hanswered => simp [hanswered] at ha
  | answered _ _ _ _ hanswered =>
    rw [hanswered, List.mem_singleton, Prod.mk.injEq] at ha
    exact ha.2

/-! ## At rest -/

/-- Up to date, but for what is on its way: all the answers are from `views`. -/
structure Fresh (s : Service Q V A D) (views : List V) (c : Client Q A D) : Prop where
  shown : c.inFlight = false → ∀ d ∈ c.shown,
    ∃ v ∈ views, d = s.display c.held (s.answer v c.held)
  asked : c.again = false → ∀ q ∈ c.asked, q.1 = c.held
  answered : c.again = false → ∀ a ∈ c.answered, ∃ v ∈ views, a.1 = s.answer v c.held

theorem Fresh.mono {views views' : List V} (h : Fresh s views c) (hsub : views ⊆ views') :
    Fresh s views' c where
  shown hflight d hd := (h.shown hflight d hd).imp fun _ hv => ⟨hsub hv.1, hv.2⟩
  asked := h.asked
  answered hagain a ha := (h.answered hagain a ha).imp fun _ hv => ⟨hsub hv.1, hv.2⟩

/-- A question that is held makes everything before it void. -/
theorem Out.fresh_hold (h : Out c) (q : Q) : Fresh s [] (c.hold q) := by
  cases h with
  | idle hflight hagain hasked hanswered hoff =>
    cases hon : c.on with
    | false =>
      rw [hold_off hon]
      constructor <;> simp [hoff hon, hasked, hanswered]
    | true =>
      rw [hold_idle hon hflight]
      constructor <;> simp [Client.send, hasked, hanswered]
  | asked _ hflight hon =>
    rw [hold_inFlight hon hflight]
    constructor <;> simp [hflight]
  | answered _ hflight hon =>
    rw [hold_inFlight hon hflight]
    constructor <;> simp [hflight]

/-- The question adopted has the same answer. -/
def Service.Adopts (s : Service Q V A D) : Prop :=
  ∀ v q, s.answer v (s.adopt q (s.answer v q)) = s.answer v q

theorem Fresh.answer {views : List V} (h : Fresh s views c) (hout : Out c) (v : V) :
    Fresh s (views ++ [v]) (c.answer s v) := by
  have hmono := h.mono (List.subset_append_left views [v])
  cases hout with
  | idle _ _ hasked => simpa only [Client.answer, hasked] using hmono
  | answered _ _ _ hasked => simpa only [Client.answer, hasked] using hmono
  | asked q hflight _ hasked hanswered =>
    have hheld : c.again = false → q = c.held := fun hagain =>
      h.asked hagain (q, c.requestId) (by simp [hasked])
    constructor
    · simp [Client.answer, hasked, hflight]
    · simp [Client.answer, hasked]
    · intro hagain a ha
      simp only [Client.answer, hasked, hanswered, List.nil_append, List.mem_singleton] at *
      exact ⟨v, by simp, by rw [ha, hheld hagain]⟩

theorem Fresh.receive {views : List V} (hs : s.Adopts) (h : Fresh s views c) (hout : Out c) :
    Fresh s views (c.receive s) := by
  cases hout with
  | idle _ _ _ hanswered => simpa only [Client.receive, hanswered] using h
  | asked _ _ _ _ hanswered => simpa only [Client.receive, hanswered] using h
  | answered a _ hon hasked hanswered =>
    rw [receive_answered hanswered hon]
    split_ifs with hagain
    · constructor <;> simp [Client.send, Client.showing, hasked]
    · have hlast : c.again = false := by simpa using hagain
      obtain ⟨v, hv, ha⟩ := h.answered hlast (a, c.requestId) (by simp [hanswered])
      refine ⟨fun _ d hd => ⟨v, hv, ?_⟩, ?_, ?_⟩ <;> simp only [Client.showing, hasked] at *
      · rw [← Option.mem_some_iff.1 hd, ha, hs v c.held]
      · simp
      · simp

/-- What was viewed to answer. -/
def Event.view? : Event Q V → Option V
  | .answer v => some v
  | .hold _ | .receive | .start | .stop => none

theorem Fresh.apply {views : List V} (hs : s.Adopts) (h : Fresh s views c) (hout : Out c)
    {e : Event Q V} (he : ∀ q, e ≠ .hold q) :
    Fresh s (views ++ e.view?.toList) (c.apply s e) := by
  cases e with
  | hold q => exact absurd rfl (he q)
  | answer v => exact h.answer hout v
  | receive => simpa [Client.apply, Event.view?] using h.receive hs hout
  | start => simpa [Event.view?] using ⟨h.shown, h.asked, h.answered⟩
  | stop => constructor <;> simp [Client.apply, Client.stop]

theorem Fresh.run (hs : s.Adopts) {events : List (Event Q V)}
    (hevents : ∀ q, .hold q ∉ events) {views : List V} (h : Fresh s views c) (hout : Out c) :
    Fresh s (views ++ events.filterMap Event.view?) (c.run s events) := by
  induction events generalizing c views with
  | nil => simpa [Client.run] using h
  | cons e events ih =>
    simp only [List.mem_cons, not_or] at hevents
    have hstep := ih (fun q => (hevents q).2) (h.apply hs hout fun q => Ne.symm (hevents q).1)
      (hout.apply e)
    rw [List.append_assoc] at hstep
    cases hview : e.view? <;> simpa [Client.run, List.filterMap_cons, hview] using hstep

theorem Out.run (h : Out c) (events : List (Event Q V)) : Out (c.run s events) := by
  induction events generalizing c with
  | nil => exact h
  | cons e events ih => exact ih (h.apply e)

/-- A client at rest stays so until a question is held. -/
theorem Out.rest (h : Out c) (hrest : c.inFlight = false) {events : List (Event Q V)}
    (hevents : ∀ q, .hold q ∉ events) : (c.run s events).inFlight = false := by
  induction events generalizing c with
  | nil => exact hrest
  | cons e events ih =>
    simp only [List.mem_cons, not_or] at hevents
    refine ih (h.apply e) ?_ fun q => (hevents q).2
    cases h with
    | asked _ hflight => simp [hflight] at hrest
    | answered _ hflight => simp [hflight] at hrest
    | idle _ _ hasked hanswered =>
      cases e with
      | hold q => exact absurd rfl (hevents q).1
      | answer v => simpa [Client.apply, Client.answer, hasked]
      | receive => simpa [Client.apply, Client.receive, hanswered]
      | start => exact hrest
      | stop => rfl

/-- What is shown at rest answers what is held, from a view since it was last held. -/
theorem shown_of_run (hs : s.Adopts) (h : Out c) (q : Q) {events : List (Event Q V)}
    (hevents : ∀ q, .hold q ∉ events) (hrest : ((c.hold q).run s events).inFlight = false)
    {d : D} (hd : d ∈ ((c.hold q).run s events).shown) :
    ∃ v, .answer v ∈ events ∧ d = s.display ((c.hold q).run s events).held
      (s.answer v ((c.hold q).run s events).held) := by
  obtain ⟨v, hv, heq⟩ := ((h.fresh_hold q).run hs hevents (h.hold q)).shown hrest d hd
  obtain ⟨e, he, hview⟩ := List.mem_filterMap.1 (by simpa using hv)
  cases e with
  | answer v' =>
    rw [Event.view?, Option.some.injEq] at hview
    exact ⟨v, hview ▸ he, heq⟩
  | hold | receive | start | stop => simp [Event.view?] at hview

end SingleFlight
