import ScriptPress.Session

/-! # The history of a session

A session remembers its settings and nothing else. A call in the middle of a run answers what a new
session answers that has the dialect, the language and the source name set last, and it hands over
the warnings of its own reading alone.
-/
namespace ScriptPress
namespace Session

variable {s t : Session} {c : Call}

/-! ## What a call answers -/

/-- A session that reads texts as another one does, without listeners and with the warnings off. -/
def quiet (s : Session) : Session :=
  { dialect := s.dialect, locale := s.locale, source := s.source }

theorem readWith_quiet (keepComments : Bool) (text : String) :
    (s.quiet.readWith keepComments text).result = (s.readWith keepComments text).result := by
  have hsettings : s.quiet.settings keepComments = s.settings keepComments := rfl
  have hfailure : s.quiet.failure = s.failure := rfl
  rw [readWith, readWith, hsettings, hfailure]
  split
  · rfl
  · cases Script.read (s.settings keepComments) text <;> rfl

theorem parse_quiet (text : String) : (s.quiet.parse text).result = (s.parse text).result :=
  readWith_quiet false text

theorem Outcome.result_map {α β : Type} {o o' : Outcome α} (f : α → β)
    (h : o.result = o'.result) : (o.map f).result = (o'.map f).result := by
  rw [Outcome.map, Outcome.map, h]

theorem check_quiet (text : String) : (s.quiet.check text).result = (s.check text).result :=
  Outcome.result_map _ (parse_quiet text)

theorem isScript_quiet (text : String) :
    (s.quiet.isScript text).result = (s.isScript text).result := by
  have hcheck := check_quiet (s := s) text
  simp only [isScript, hcheck]
  cases (s.check text).result <;> rfl

theorem cutComments_quiet (text : String) :
    (s.quiet.cutComments text).result = (s.cutComments text).result := by
  rw [cutComments, cutComments]
  split <;> rfl

/-- The answer to a call is the same without listeners and with the warnings off. -/
theorem call_quiet : (s.quiet.call c).result = (s.call c).result := by
  cases c with
  | compact text =>
    apply Outcome.result_map
    exact Outcome.result_map _ (parse_quiet text)
  | tree text => exact Outcome.result_map _ (parse_quiet text)
  | check text => exact Outcome.result_map _ (check_quiet text)
  | isScript text => exact Outcome.result_map _ (isScript_quiet text)
  | dropComments text =>
    apply Outcome.result_map
    exact Outcome.result_map _ (parse_quiet text)
  | clearComments text checked =>
    apply Outcome.result_map
    cases checked with
    | true => exact Outcome.result_map _ (parse_quiet text)
    | false => exact cutComments_quiet text
  | format text layout =>
    apply Outcome.result_map
    exact Outcome.result_map _ (readWith_quiet true text)

/-! ## What a call hands over -/

/-- The text that a call reads as a script, and whether its comments are kept. -/
def Call.reads? : Call → Option (String × Bool)
  | .compact text | .tree text | .check text | .isScript text | .dropComments text =>
    some (text, false)
  | .clearComments text checked => if checked then some (text, false) else none
  | .format text _ => some (text, true)

/-- A call hands over what its reading does. -/
theorem call_delivered :
    (s.call c).delivered = c.reads?.elim [] fun r => (s.readWith r.2 r.1).delivered := by
  cases c with
  | isScript text =>
    have hparse : (s.isScript text).delivered = (s.parse text).delivered := by
      rw [isScript]
      split <;> rfl
    exact hparse
  | clearComments text checked =>
    cases checked with
    | true => rfl
    | false =>
      change (s.cutComments text).delivered = []
      rw [cutComments]
      split <;> rfl
  | _ => rfl

theorem Outcome.map_ok {α β : Type} {o : Outcome α} {a : α} (f : α → β) (h : o.result = .ok a) :
    (o.map f).result = .ok (f a) := by
  rw [Outcome.map, h]
  rfl

/-- A call that could read its script answers. -/
theorem call_ok {text : String} {keepComments : Bool} {script : Script}
    (hreads : c.reads? = some (text, keepComments))
    (h : (s.readWith keepComments text).result = .ok script) :
    ∃ reply, (s.call c).result = .ok reply := by
  cases c with
  | clearComments text checked =>
    cases checked with
    | true =>
      cases hreads
      exact ⟨_, Outcome.map_ok _ (Outcome.map_ok _ h)⟩
    | false => cases hreads
  | isScript text =>
    cases hreads
    have hcheck : (s.check text).result = .ok () := Outcome.map_ok _ h
    have htrue : (s.isScript text).result = .ok true := by rw [isScript, hcheck]
    exact ⟨_, Outcome.map_ok _ htrue⟩
  | tree text =>
    cases hreads
    exact ⟨_, Outcome.map_ok _ h⟩
  | _ =>
    cases hreads
    exact ⟨_, Outcome.map_ok _ (Outcome.map_ok _ h)⟩

section
variable {text : String} {keepComments : Bool}

theorem readWith_error {d : Diagnostic}
    (h : Script.read (s.settings keepComments) text = .error d) :
    (s.readWith keepComments text).delivered = [] := by
  rw [readWith, h]
  split <;> rfl

theorem readWith_ok {script : Script} (hne : text ≠ "")
    (h : Script.read (s.settings keepComments) text = .ok script) :
    s.readWith keepComments text
      = ⟨.ok script, s.deliveries (script.warnings s.locale)⟩ := by
  have hempty : text.isEmpty = false := by simpa using hne
  rw [readWith, h, hempty]
  rfl

theorem readWith_off (h : s.warnings = false) : (s.readWith keepComments text).delivered = [] := by
  have hnone : ∀ warnings, s.deliveries warnings = [] := by
    intro warnings
    rw [deliveries, h]
    rfl
  rw [readWith]
  split
  · rfl
  · split
    · rfl
    · exact hnone _

/-- Nothing is handed over unless a script was read. -/
theorem readWith_delivered (s : Session) (keepComments : Bool) (text : String) :
    (s.readWith keepComments text).delivered = []
      ∨ ∃ script, (s.readWith keepComments text).result = .ok script := by
  rw [readWith]
  split
  · exact Or.inl rfl
  · split
    · exact Or.inl rfl
    · next script _ => exact Or.inr ⟨script, rfl⟩

end

/-- What a call hands over, by the settings and by how its text is read. -/
structure Delivers (s : Session) (c : Call) (o : Outcome Reply) : Prop where
  /-- Each warning of a script goes to each listener, and does so once. -/
  script : ∀ text keepComments script, c.reads? = some (text, keepComments) → text ≠ "" →
    Script.read (s.settings keepComments) text = .ok script → s.warnings = true →
    o.delivered = (script.warnings s.locale).flatMap fun w => s.listeners.map fun l => ⟨l, w⟩
  noScript : ∀ text keepComments d, c.reads? = some (text, keepComments) →
    Script.read (s.settings keepComments) text = .error d → o.delivered = []
  failed : ∀ f, o.result = .error f → o.delivered = []
  off : s.warnings = false → o.delivered = []
  tokens : c.reads? = none → o.delivered = []

theorem call_delivers (s : Session) (c : Call) : s.Delivers c (s.call c) := by
  constructor
  · intro text keepComments script hreads hne hread hon
    rw [call_delivered, hreads, Option.elim_some, readWith_ok hne hread, deliveries, if_pos hon]
  · intro text keepComments d hreads hread
    rw [call_delivered, hreads, Option.elim_some, readWith_error hread]
  · intro f hf
    rw [call_delivered]
    cases hreads : c.reads? with
    | none => rfl
    | some r =>
      rcases readWith_delivered s r.2 r.1 with hnone | ⟨script, hscript⟩
      · exact hnone
      · obtain ⟨reply, hreply⟩ := call_ok hreads hscript
        rw [hreply] at hf
        cases hf
  · intro hoff
    rw [call_delivered]
    cases c.reads? with
    | none => rfl
    | some r => exact readWith_off hoff
  · intro hreads
    rw [call_delivered, hreads]
    rfl

/-! ## What a session remembers -/

/-- The session after some steps. -/
def after (s : Session) (steps : List Step) : Session := steps.foldl (fun s x => (s.step x).1) s

namespace Step

/-- What a step sets the dialect to. -/
def dialect? : Step → Option Dialect
  | set (.dialect d) => some d
  | _ => none

def locale? : Step → Option Locale
  | set (.locale l) => some l
  | _ => none

def warnings? : Step → Option Bool
  | set (.warnings on) => some on
  | _ => none

def source? : Step → Option String
  | set (.source name) => some name
  | _ => none

/-- The listener that a step adds. -/
def listener? : Step → Option ListenerId
  | set (.listener id) => some id
  | _ => none

end Step

/-- The last value among those that some steps set, or the one before them. -/
def lastSet {α : Type} (value? : Step → Option α) (steps : List Step) (old : α) : α :=
  (steps.filterMap value?).getLast?.getD old

/-- A setting that each step leaves alone or sets anew is what it was set to last. -/
theorem after_lastSet {α : Type} {field : Session → α} {value? : Step → Option α}
    (h : ∀ s x, field (s.step x).1 = (value? x).getD (field s)) (steps : List Step) :
    field (s.after steps) = lastSet value? steps (field s) := by
  induction steps generalizing s with
  | nil => rfl
  | cons x rest ih =>
    have hrest : field (s.after (x :: rest)) = lastSet value? rest (field (s.step x).1) := ih
    rw [hrest, h, lastSet, lastSet, List.filterMap_cons]
    cases value? x with
    | none => rfl
    | some a =>
      rw [List.getLast?_cons]
      rfl

theorem after_dialect (steps : List Step) :
    (s.after steps).dialect = lastSet Step.dialect? steps s.dialect :=
  after_lastSet (fun _ x => by rcases x with (_ | _ | _ | _ | _ | _) | _ <;> rfl) steps

theorem after_locale (steps : List Step) :
    (s.after steps).locale = lastSet Step.locale? steps s.locale :=
  after_lastSet (fun _ x => by rcases x with (_ | _ | _ | _ | _ | _) | _ <;> rfl) steps

theorem after_warnings (steps : List Step) :
    (s.after steps).warnings = lastSet Step.warnings? steps s.warnings :=
  after_lastSet (fun _ x => by rcases x with (_ | _ | _ | _ | _ | _) | _ <;> rfl) steps

theorem after_source (steps : List Step) :
    (s.after steps).source = lastSet Step.source? steps s.source :=
  after_lastSet (fun _ x => by rcases x with (_ | _ | _ | _ | _ | _) | _ <;> rfl) steps

theorem after_append (first rest : List Step) :
    s.after (first ++ rest) = (s.after first).after rest :=
  List.foldl_append

/-- Listeners stay in the order they came, up to a step that removes them all. -/
theorem after_listeners {steps : List Step} (h : .set .noListeners ∉ steps) :
    (s.after steps).listeners = s.listeners ++ steps.filterMap Step.listener? := by
  induction steps generalizing s with
  | nil => exact (List.append_nil _).symm
  | cons x rest ih =>
    rw [List.mem_cons, not_or] at h
    have hrest : (s.after (x :: rest)).listeners
        = (s.step x).1.listeners ++ rest.filterMap Step.listener? := ih h.2
    rw [hrest]
    rcases x with (_ | _ | _ | _ | id | _) | _
    · rfl
    · rfl
    · rfl
    · rfl
    · simp [step, set, Step.listener?]
    · exact absurd rfl h.1
    · rfl

theorem after_noListeners (earlier : List Step) {recent : List Step}
    (h : .set .noListeners ∉ recent) :
    (s.after (earlier ++ .set .noListeners :: recent)).listeners
      = recent.filterMap Step.listener? := by
  rw [after_append]
  exact after_listeners h

/-! ## Runs -/

@[simp] theorem length_run (steps : List Step) : (s.run steps).length = steps.length := by
  induction steps generalizing s with
  | nil => rfl
  | cons x rest ih => rw [run, List.length_cons, ih, List.length_cons]

theorem run_append (first rest : List Step) :
    s.run (first ++ rest) = s.run first ++ (s.after first).run rest := by
  induction first generalizing s with
  | nil => rfl
  | cons x first ih =>
    rw [List.cons_append, run, ih, run]
    rfl

/-- The answer at the place of a call in a run is that of the session after the steps before. -/
theorem run_call (before later : List Step) :
    (s.run (before ++ .call c :: later))[before.length]? = some (some ((s.after before).call c)) := by
  rw [run_append, List.getElem?_append_right (Nat.le_of_eq (length_run before)), length_run,
    Nat.sub_self]
  rfl

/-- In a run of a session each call answers what it would in a new session with the dialect, the
language and the source name that are set at that time, and a text is read to the same script or
the same problem. What the call hands over is what the settings of that time say. Each of them is
what it was set to last, and the listeners are those that came since they were last removed. -/
theorem run_calls (s : Session) (before : List Step) (c : Call) (later : List Step) :
    let now := s.after before
    let new : Session := { dialect := now.dialect, locale := now.locale, source := now.source }
    (∃ o, (s.run (before ++ .call c :: later))[before.length]? = some (some o)
        ∧ o.result = (new.call c).result ∧ now.Delivers c o)
      ∧ (∀ keepComments text,
        (now.readWith keepComments text).result = (new.readWith keepComments text).result)
      ∧ now.dialect = lastSet Step.dialect? before s.dialect
      ∧ now.locale = lastSet Step.locale? before s.locale
      ∧ now.warnings = lastSet Step.warnings? before s.warnings
      ∧ now.source = lastSet Step.source? before s.source
      ∧ (.set .noListeners ∉ before →
        now.listeners = s.listeners ++ before.filterMap Step.listener?)
      ∧ ∀ earlier recent, before = earlier ++ .set .noListeners :: recent →
        .set .noListeners ∉ recent → now.listeners = recent.filterMap Step.listener? := by
  intro now new
  refine ⟨⟨now.call c, run_call before later, ?_, call_delivers now c⟩, ?_, after_dialect before,
    after_locale before, after_warnings before, after_source before, after_listeners, ?_⟩
  · exact call_quiet.symm
  · intro keepComments text
    exact (readWith_quiet keepComments text).symm
  · rintro earlier recent rfl hrecent
    exact after_noListeners earlier hrecent

end Session
end ScriptPress
