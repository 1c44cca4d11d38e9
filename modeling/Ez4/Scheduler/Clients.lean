import Ez4.Scheduler.EventEffects
import Ez4.Utils.ObjectMerge

/-! # The clients of a scheduler

`createServiceClient` of the local scheduler over its events, and the client of
the deployed one (`aws-scheduler/src/client.ts`) over the schedules of its
service. The service is a map from names to schedules: creating fails on a name
that is there, and updating and deleting on one that is not. -/
namespace Ez4.Scheduler.Clients
open Ez4.Library Ez4.Utils Ez4.Scheduler.Events

/-- `ScheduleEvent` -/
structure ScheduleEvent where
  date : Int
  event : Fields
  maxRetries : Option Nat := none
  maxAge : Option Rat := none

inductive Request
  | getEvent (identifier : String)
  | setEvent (identifier : String) (input : ScheduleEvent)
  | createEvent (identifier : String) (input : ScheduleEvent)
  | updateEvent (identifier : String) (input : EventChanges Fields)
  | deleteEvent (identifier : String)

def Request.identifier : Request → String
  | .getEvent identifier | .setEvent identifier _ | .createEvent identifier _
  | .updateEvent identifier _ | .deleteEvent identifier => identifier

structure FoundEvent where
  date : Option Int := none
  event : Option Fields := none
  maxRetries : Option Nat := none
  maxAge : Option Rat := none

inductive Reply
  | threw
  | done
  | deleted (found : Bool)
  | found (event : Option FoundEvent)

/-- What both clients are made with: the limits of the service, and what is outside of them. -/
structure Setup where
  maxRetries : Option Nat := none
  maxAge : Option Rat := none
  namePrefix : String
  /-- What the schema makes of an event, unless it is refused. -/
  getJsonEvent : Fields → Option Fields
  /-- `JSON.parse(JSON.stringify(event))` -/
  json : Fields → Fields
  /-- Whether a schedule is shown with the limits it has without a policy. -/
  fills : Bool

variable (c : Setup)

/-! ## The local client -/

namespace Setup

def parameters : Parameters Fields where
  maxRetries := c.maxRetries
  maxAge := c.maxAge
  deepMerge := deepMerge {}

end Setup

def ScheduleEvent.toInput (input : ScheduleEvent) (event : Fields) (trace : MessageTrace) :
    EventInput Fields where
  date := input.date
  event := event
  maxRetries := input.maxRetries
  maxAge := input.maxAge
  trace := trace

namespace Local

/-- `InMemoryScheduler.getEvent`. A clone of what is inherited has no properties. -/
def getEvent (identifier : String) (s : State Fields) : Option FoundEvent :=
  match property s.events identifier with
  | .own event =>
    some { date := event.date, event := event.event, maxRetries := event.maxRetries,
           maxAge := event.maxAge }
  | .inherited => some {}
  | .absent => none

def performed (call : Call Fields) (s : State Fields) : Reply × State Fields :=
  match (perform c.parameters call).run s with
  | (.ok event, s) =>
    match call with
    | .deleteEvent _ => (.deleted event.isSome, s)
    | _ => (.done, s)
  | (.error _, s) => (.threw, s)

/-- A request, with the trace of the scope it is made in. -/
def request (trace : MessageTrace) (r : Request) (s : State Fields) : Reply × State Fields :=
  match r with
  | .getEvent identifier => (.found (getEvent identifier s), s)
  | .setEvent identifier input =>
    match c.getJsonEvent input.event with
    | some event => performed c (.setEvent identifier (input.toInput event trace)) s
    | none => (.threw, s)
  | .createEvent identifier input =>
    match c.getJsonEvent input.event with
    | some event => performed c (.createEvent identifier (input.toInput event trace)) s
    | none => (.threw, s)
  | .updateEvent identifier input =>
    match input.event with
    | none => performed c (.updateEvent identifier input) s
    | some event =>
      match c.getJsonEvent event with
      | some event => performed c (.updateEvent identifier { input with event := some event }) s
      | none => (.threw, s)
  | .deleteEvent identifier => performed c (.deleteEvent identifier) s

end Local

/-! ## The client of the deployed scheduler -/

/-- A schedule. Its date is the expression `at(…)`, in seconds, and its event is what was written
to the input. Without limits it has no retry policy. -/
structure Schedule where
  date : Int
  event : Fields
  maxRetries : Option Nat
  maxAge : Option Rat

abbrev Schedules := String → Option Schedule

namespace Aws

/-! ### The service -/

variable (schedules : Schedules) (name : String) (schedule : Schedule)

def createSchedule : Option Schedules :=
  if (schedules name).isSome then none else some (put schedules name (some schedule))

def updateSchedule : Option Schedules :=
  if (schedules name).isSome then some (put schedules name (some schedule)) else none

def deleteSchedule : Option Schedules :=
  if (schedules name).isSome then some (put schedules name none) else none

/-- A limit of the retry policy as it is shown. -/
def shown {α : Type} (fills : Bool) (standard : α) (limit : Option α) : Option α :=
  if fills then some (limit.getD standard) else limit

def showLimits (fills : Bool) (schedule : Schedule) : Schedule :=
  { schedule with
    maxRetries := shown fills defaultEventMaxRetries schedule.maxRetries
    maxAge := shown fills defaultEventMaxAge schedule.maxAge }

def getSchedule (fills : Bool) : Option Schedule := (schedules name).map (showLimits fills)

/-! ### The requests -/

def getEventName (identifier : String) : String := c.namePrefix ++ "-" ++ identifier

/-- `toISOString().substring(0, 19)`, up to the year 9999. -/
def prepareEventDate (date : Int) : Int := date / 1000

def getEventInput (date : Int) (event : Fields) (maxRetries : Option Nat) (maxAge : Option Rat) :
    Schedule where
  date := date
  event := event
  maxRetries := maxRetries.or c.maxRetries
  maxAge := maxAge.or c.maxAge

def ofInput (input : ScheduleEvent) (event : Fields) : Schedule :=
  getEventInput c (prepareEventDate input.date) event input.maxRetries input.maxAge

def replied (before : Schedules) (after : Option Schedules) : Reply × Schedules :=
  match after with
  | some schedules => (.done, schedules)
  | none => (.threw, before)

def updateEvent (input : EventChanges Fields) (event : Option Fields)
    (schedule : Schedule) : Schedule :=
  getEventInput c ((input.date.map prepareEventDate).getD schedule.date) (event.getD schedule.event)
    (input.maxRetries.or schedule.maxRetries) (input.maxAge.or schedule.maxAge)

def request (r : Request) : Reply × Schedules :=
  let name := getEventName c r.identifier
  match r with
  | .getEvent _ =>
    (.found ((getSchedule schedules name c.fills).map fun schedule =>
      { date := some (schedule.date * 1000), event := some (c.json schedule.event),
        maxRetries := schedule.maxRetries, maxAge := schedule.maxAge }), schedules)
  | .setEvent _ input =>
    match c.getJsonEvent input.event with
    | some event =>
      match updateSchedule schedules name (ofInput c input event) with
      | some schedules => (.done, schedules)
      | none => replied schedules (createSchedule schedules name (ofInput c input event))
    | none => (.threw, schedules)
  | .createEvent _ input =>
    match c.getJsonEvent input.event with
    | some event => replied schedules (createSchedule schedules name (ofInput c input event))
    | none => (.threw, schedules)
  | .updateEvent _ input =>
    match getSchedule schedules name c.fills with
    | none => (.threw, schedules)
    | some schedule =>
      match input.event with
      | none => replied schedules (updateSchedule schedules name
          (updateEvent c input none schedule))
      | some event =>
        match c.getJsonEvent event with
        | some event => replied schedules (updateSchedule schedules name
            (updateEvent c input (some event) schedule))
        | none => (.threw, schedules)
  | .deleteEvent _ =>
    match deleteSchedule schedules name with
    | some schedules => (.deleted true, schedules)
    | none => (.deleted false, schedules)

end Aws

/-! ## Both at once -/

structure Both where
  events : State Fields
  schedules : Schedules := fun _ => none

inductive Event
  | request (trace : MessageTrace) (r : Request)
  | elapse (time : Nat)
  | fire (handle : Nat)
  | answer (activation : Nat) (success : Bool)

/-- Each request is made of both clients. What else may happen is in the local scheduler. -/
def step (b : Both) : Event → Option Both
  | .request trace r => some ⟨(Local.request c trace r b.events).2, (Aws.request c b.schedules r).2⟩
  | .elapse time => (Events.step c.parameters b.events (.elapse time)).map ({ b with events := · })
  | .fire handle => (Events.step c.parameters b.events (.fire handle)).map ({ b with events := · })
  | .answer activation success =>
    (Events.step c.parameters b.events (.answer activation success)).map ({ b with events := · })

def machine (start : Int) : Machine Both Event where
  init := { events := { now := start } }
  step := step c

/-! ## What both have of an event -/

variable {c : Setup} {same : Fields → Fields → Prop}

section
variable {α : Type} {standard : α} {own service stored : Option α}

/-- A limit of its own, or of the service, is the one that is stored. -/
def SameLimit (standard : α) (own service stored : Option α) : Prop :=
  (own.or service).getD standard = stored.getD standard ∧
    (stored = none → own = none ∧ service = none)

theorem SameLimit.new : SameLimit standard own service (own.or service) :=
  ⟨rfl, Option.or_eq_none_iff.mp⟩

theorem SameLimit.update (h : SameLimit standard own service stored) (given : Option α)
    (fills : Bool) :
    SameLimit standard (given.or own) service
      ((given.or (Aws.shown fills standard stored)).or service) := by
  cases given with
  | some limit => exact ⟨rfl, fun h => by cases h⟩
  | none =>
    rw [Option.none_or, Option.none_or]
    cases fills with
    | true => exact ⟨h.1, fun h => by cases h⟩
    | false =>
      cases stored with
      | some limit => exact ⟨h.1, fun h => by cases h⟩
      | none =>
        obtain ⟨rfl, rfl⟩ := h.2 rfl
        exact .new

end

variable (c same) in
structure IsMatched (event : ScheduledEvent Fields) (schedule : Schedule) : Prop where
  date : event.date = schedule.date * 1000
  carried : Option.Rel same event.event (some (c.json schedule.event))
  maxRetries : SameLimit defaultEventMaxRetries event.maxRetries c.maxRetries schedule.maxRetries
  maxAge : SameLimit defaultEventMaxAge event.maxAge c.maxAge schedule.maxAge

def IsPlain (identifier : String) : Prop := objectPrototypeNames.contains identifier = false

instance (identifier : String) : Decidable (IsPlain identifier) :=
  inferInstanceAs (Decidable (_ = _))

variable (c same) in
/-- What holds of both before any of the dates is reached. -/
structure Agree (b : Both) : Prop where
  kept : Kept c.parameters b.events
  ahead : ∀ identifier event, b.events.events identifier = some event → b.events.now < event.date
  names : ∀ identifier, IsPlain identifier →
    Option.Rel (IsMatched c same) (b.events.events identifier)
      (b.schedules (Aws.getEventName c identifier))

variable (same) in
inductive Reply.Agree : Reply → Reply → Prop
  | threw : Reply.Agree .threw .threw
  | done : Reply.Agree .done .done
  | deleted (found : Bool) : Reply.Agree (.deleted found) (.deleted found)
  | found {event other : Option FoundEvent}
      (h : Option.Rel (fun a b => a.date = b.date ∧ Option.Rel same a.event b.event) event other) :
      Reply.Agree (.found event) (.found other)

/-! ## The calls of the local scheduler -/

section
variable {s : State Fields} {identifier : String}

theorem cancelTimer_plain (h : IsPlain identifier) (s : State Fields) :
    (cancelTimer identifier).run s = (.ok (), s.unset identifier) := by
  unfold cancelTimer property State.unset
  rw [run_bind, run_get]
  cases htimer : s.timers identifier with
  | some handle => simp only [htimer, run_modify]
  | none => simp only [htimer, if_neg (ne_true_of_eq_false h), run_pure]

theorem scheduleEvent_plain (h : IsPlain identifier) (input : ScheduledEvent Fields)
    (hdate : s.now < input.date) :
    (scheduleEvent identifier input).run s = (.ok (), s.write identifier input) := by
  unfold scheduleEvent
  rw [run_bind, run_get]
  have hlater : ¬ input.date - s.now < 0 := by omega
  simp only [if_neg hlater, run_bind, cancelTimer_plain h, run_modify]
  rfl

theorem property_of_none {record : String → Option (ScheduledEvent Fields)} (h : IsPlain identifier)
    (hnone : record identifier = none) : property record identifier = .absent := by
  unfold property
  rw [hnone]
  exact if_neg (ne_true_of_eq_false h)

theorem property_of_some {record : String → Option (ScheduledEvent Fields)}
    {event : ScheduledEvent Fields}
    (hsome : record identifier = some event) : property record identifier = .own event := by
  unfold property
  rw [hsome]

theorem performed_setEvent (h : IsPlain identifier) {input : EventInput Fields}
    (hdate : s.now < input.date) :
    Local.performed c (.setEvent identifier input) s =
      (.done, s.fresh.write identifier (input.toScheduled s.next)) := by
  have hschedule := scheduleEvent_plain (s := s.fresh) h (input.toScheduled s.next) hdate
  unfold Local.performed perform setEvent
  simp only [bind_assoc, run_bind, run_newObject, hschedule, run_pure]

theorem performed_createEvent (h : IsPlain identifier) {input : EventInput Fields}
    (hdate : s.now < input.date)
    (hnone : s.events identifier = none) : Local.performed c (.createEvent identifier input) s =
      (.done, s.fresh.write identifier (input.toScheduled s.next)) := by
  have hschedule := scheduleEvent_plain (s := s.fresh) h (input.toScheduled s.next) hdate
  have habsent : property s.fresh.events identifier = .absent := property_of_none h hnone
  unfold Local.performed perform createEvent
  simp only [bind_assoc, run_bind, run_newObject, run_get, habsent, hschedule, run_pure]

theorem performed_createEvent_of_some {input : EventInput Fields} {event : ScheduledEvent Fields}
    (hsome : s.events identifier = some event) :
    Local.performed c (.createEvent identifier input) s = (.threw, s.fresh) := by
  have hown : property s.fresh.events identifier = .own event := property_of_some hsome
  unfold Local.performed perform createEvent
  simp only [bind_assoc, run_bind, run_newObject, run_get, hown, run_throw]

theorem performed_updateEvent_of_none (h : IsPlain identifier) {input : EventChanges Fields}
    (hnone : s.events identifier = none) :
    Local.performed c (.updateEvent identifier input) s = (.threw, s) := by
  unfold Local.performed perform updateEvent
  simp only [bind_assoc, run_bind, run_get, property_of_none h hnone, run_throw]

theorem performed_updateEvent (h : IsPlain identifier) {input : EventChanges Fields}
    {event : ScheduledEvent Fields} (hsome : s.events identifier = some event)
    (hdate : s.now < (mergeEvent c.parameters event input s.next).date) :
    Local.performed c (.updateEvent identifier input) s =
      (.done, s.fresh.write identifier (mergeEvent c.parameters event input s.next)) := by
  have hschedule := scheduleEvent_plain (s := s.fresh) h _ hdate
  unfold Local.performed perform updateEvent
  simp only [bind_assoc, run_bind, run_get, property_of_some hsome, run_newObject,
    hschedule, run_pure]

theorem performed_deleteEvent_of_none (h : IsPlain identifier)
    (hnone : s.events identifier = none) :
    Local.performed c (.deleteEvent identifier) s = (.deleted false, s) := by
  unfold Local.performed perform deleteEvent
  simp only [run_bind, run_get, property_of_none h hnone, run_pure]
  rfl

theorem performed_deleteEvent (h : IsPlain identifier) {event : ScheduledEvent Fields}
    (hsome : s.events identifier = some event) :
    Local.performed c (.deleteEvent identifier) s = (.deleted true, s.delete identifier) := by
  unfold Local.performed perform deleteEvent
  simp only [run_bind, run_get, property_of_some hsome, cancelTimer_plain h, run_modify, run_pure]
  rfl

end

/-! ## What a request does to both -/

section
variable {b : Both} {s : State Fields} {schedules : Schedules} {identifier : String}

theorem getEventName_inj {identifier other : String}
    (h : Aws.getEventName c identifier = Aws.getEventName c other) : identifier = other := by
  have hlist := congrArg String.toList h
  simp only [Aws.getEventName, String.toList_append] at hlist
  exact String.toList_inj.mp (List.append_cancel_left hlist)

/-- One name is given what matches on both sides. -/
theorem Agree.place (h : Agree c same ⟨s, schedules⟩) {t : State Fields}
    (hkept : Kept c.parameters t) (hnow : t.now = s.now) {event : Option (ScheduledEvent Fields)}
    {schedule : Option Schedule} (hevents : t.events = put s.events identifier event)
    (hahead : ∀ e, event = some e → s.now < e.date)
    (hmatched : Option.Rel (IsMatched c same) event schedule) :
    Agree c same ⟨t, put schedules (Aws.getEventName c identifier) schedule⟩ where
  kept := hkept
  ahead name e he := by
    change t.events name = some e at he
    change t.now < e.date
    rw [hevents, put_apply] at he
    rw [hnow]
    split at he
    · exact hahead e he
    · exact h.ahead name e he
  names name hname := by
    change Option.Rel _ (t.events name)
      (put schedules (Aws.getEventName c identifier) schedule (Aws.getEventName c name))
    rw [hevents, put_apply]
    by_cases hsame : name = identifier
    · rw [if_pos hsame, hsame, put_self]
      exact hmatched
    · rw [if_neg hsame, put_of_ne _ _ _ fun h => hsame (getEventName_inj h)]
      exact h.names name hname

theorem Agree.write (h : Agree c same ⟨s, schedules⟩) {event : ScheduledEvent Fields}
    {schedule : Schedule} (hobject : event.object = s.next)
    (hdate : s.now < event.date) (hmatched : IsMatched c same event schedule) :
    Agree c same ⟨s.fresh.write identifier event,
      put schedules (Aws.getEventName c identifier) (some schedule)⟩ :=
  h.place (h.kept.written hobject (Int.le_of_lt hdate)) (write_now _ _ _) (write_events _ _ _)
    (fun _ he => Option.some.inj he ▸ hdate) (.some hmatched)

theorem Agree.delete (h : Agree c same ⟨s, schedules⟩) :
    Agree c same ⟨s.delete identifier, put schedules (Aws.getEventName c identifier) none⟩ := by
  refine h.place (h.kept.deleted identifier) (unset_now _ _) ?_ (fun _ he => by cases he) .none
  change put (s.unset identifier).events identifier none = _
  rw [unset_events]

theorem Agree.fresh (h : Agree c same ⟨s, schedules⟩) : Agree c same ⟨s.fresh, schedules⟩ :=
  ⟨h.kept.fresh, h.ahead, h.names⟩

/-! ## Requests that are meant -/

/-- A date in the future, without milliseconds, whose ISO text has a year of four digits. -/
structure IsFuture (now date : Int) : Prop where
  later : now < date
  seconds : 1000 ∣ date
  fourDigits : -62167219200000 ≤ date ∧ date < 253402300800000

def Request.date? : Request → Option Int
  | .setEvent _ input | .createEvent _ input => some input.date
  | .updateEvent _ input => input.date
  | _ => none

/-- No name is inherited by an object, each date is in the future, and none of them is reached. -/
def IsMeant (b : Both) : Event → Prop
  | .request _ r => IsPlain r.identifier ∧ ∀ date, r.date? = some date → IsFuture b.events.now date
  | .elapse time => ∀ identifier event, b.events.events identifier = some event →
    b.events.now + time < event.date
  | .fire _ | .answer _ _ => True

variable (c same) in
/-- An event that is merged is the same as the one that takes the place of the event before. -/
def Merges (b : Both) : Event → Prop
  | .request _ (.updateEvent identifier input) => ∀ previous target event kept,
    b.events.events identifier = some previous → previous.event = some target →
      input.event = some event → c.getJsonEvent event = some kept →
        same (deepMerge {} target kept) (c.json kept)
  | _ => True

variable (c same) in
def KeepsJson : Prop := ∀ event kept, c.getJsonEvent event = some kept → same kept (c.json kept)

theorem IsFuture.prepared {now date : Int} (h : IsFuture now date) :
    date = Aws.prepareEventDate date * 1000 :=
  (Int.ediv_mul_cancel h.seconds).symm

theorem isMatched_ofInput {input : ScheduleEvent} {kept : Fields}
    (hfuture : IsFuture s.now input.date)
    (hsame : same kept (c.json kept)) (trace : MessageTrace) (object : Nat) :
    IsMatched c same ((input.toInput kept trace).toScheduled object)
      (Aws.ofInput c input kept) where
  date := hfuture.prepared
  carried := .some hsame
  maxRetries := .new
  maxAge := .new

theorem IsMatched.update {event : ScheduledEvent Fields} {schedule : Schedule}
    (h : IsMatched c same event schedule) {input : EventChanges Fields} {kept : Option Fields}
    (hfuture : ∀ date, input.date = some date → IsFuture s.now date)
    (hkept : ∀ target k, event.event = some target → kept = some k →
      same (deepMerge {} target k) (c.json k))
    (object : Nat) :
    IsMatched c same (mergeEvent c.parameters event { input with event := kept } object)
      (Aws.updateEvent c input kept (Aws.showLimits c.fills schedule)) where
  date := by
    change input.date.getD event.date =
      (input.date.map Aws.prepareEventDate).getD schedule.date * 1000
    cases hdate : input.date with
    | none => exact h.date
    | some date => exact (hfuture date hdate).prepared
  carried := by
    have hcarried := h.carried
    cases kept with
    | none =>
      have hevent : (mergeEvent c.parameters event { input with event := none } object).event =
        event.event := by
        cases he : event.event <;> simp [mergeEvent, he]
      rw [hevent]
      exact hcarried
    | some k =>
      cases htarget : event.event with
      | none =>
        rw [htarget] at hcarried
        cases hcarried
      | some target =>
        have hevent : (mergeEvent c.parameters event { input with event := some k } object).event =
            some (deepMerge {} target k) := by
          simp only [mergeEvent, htarget]
          rfl
        rw [hevent]
        exact .some (hkept target k htarget rfl)
  maxRetries := h.maxRetries.update _ _
  maxAge := h.maxAge.update _ _

/-- What a name has on both sides: nothing, or what matches. -/
theorem Agree.cases (h : Agree c same ⟨s, schedules⟩) (hplain : IsPlain identifier) :
    (s.events identifier = none ∧ schedules (Aws.getEventName c identifier) = none) ∨
      ∃ event schedule, s.events identifier = some event ∧
        schedules (Aws.getEventName c identifier) = some schedule ∧
          IsMatched c same event schedule := by
  have hnames : Option.Rel (IsMatched c same) (s.events identifier)
    (schedules (Aws.getEventName c identifier)) :=
    h.names identifier hplain
  cases he : s.events identifier with
  | none =>
    rw [he] at hnames
    cases hs : schedules (Aws.getEventName c identifier) with
    | none => exact .inl ⟨rfl, rfl⟩
    | some schedule =>
      rw [hs] at hnames
      cases hnames
  | some event =>
    rw [he] at hnames
    cases hs : schedules (Aws.getEventName c identifier) with
    | none =>
      rw [hs] at hnames
      cases hnames
    | some schedule =>
      rw [hs] at hnames
      cases hnames with
      | some hmatched => exact .inr ⟨event, schedule, rfl, rfl, hmatched⟩

/-- The replies agree, and what is left then. -/
def Answers (same : Fields → Fields → Prop) (c : Setup) (mine : Reply × State Fields)
    (other : Reply × Schedules) :
    Prop :=
  Reply.Agree same mine.1 other.1 ∧ Agree c same ⟨mine.2, other.2⟩

theorem getEvent_answers (h : Agree c same ⟨s, schedules⟩) (hplain : IsPlain identifier)
    (trace : MessageTrace) :
    Answers same c (Local.request c trace (.getEvent identifier) s)
      (Aws.request c schedules (.getEvent identifier)) := by
  refine ⟨.found ?_, h⟩
  rcases h.cases hplain with ⟨he, hs⟩ | ⟨event, schedule, he, hs, hmatched⟩
  · change Option.Rel _ (Local.getEvent identifier s)
      ((Aws.getSchedule schedules (Aws.getEventName c identifier) c.fills).map _)
    rw [Local.getEvent, property_of_none hplain he, Aws.getSchedule, hs]
    exact .none
  · change Option.Rel _ (Local.getEvent identifier s)
      ((Aws.getSchedule schedules (Aws.getEventName c identifier) c.fills).map _)
    rw [Local.getEvent, property_of_some he, Aws.getSchedule, hs]
    exact .some ⟨congrArg some hmatched.date, hmatched.carried⟩

theorem setEvent_answers (h : Agree c same ⟨s, schedules⟩) (hjson : KeepsJson c same)
    (hplain : IsPlain identifier)
    {input : ScheduleEvent} (hfuture : IsFuture s.now input.date) (trace : MessageTrace) :
    Answers same c (Local.request c trace (.setEvent identifier input) s)
      (Aws.request c schedules (.setEvent identifier input)) := by
  cases hkept : c.getJsonEvent input.event with
  | none =>
    simp only [Local.request, Aws.request, hkept]
    exact ⟨.threw, h⟩
  | some kept =>
    simp only [Local.request, Aws.request, hkept]
    have hmatched := isMatched_ofInput hfuture (hjson _ _ hkept) trace s.next
    rw [performed_setEvent hplain hfuture.later]
    rcases h.cases hplain with ⟨-, hs⟩ | ⟨event, schedule, -, hs, -⟩
    · simp only [Aws.updateSchedule, Aws.createSchedule, Request.identifier, hs, Option.isSome]
      exact ⟨.done, h.write rfl hfuture.later hmatched⟩
    · simp only [Aws.updateSchedule, Request.identifier, hs, Option.isSome]
      exact ⟨.done, h.write rfl hfuture.later hmatched⟩

theorem createEvent_answers (h : Agree c same ⟨s, schedules⟩) (hjson : KeepsJson c same)
    (hplain : IsPlain identifier) {input : ScheduleEvent} (hfuture : IsFuture s.now input.date)
    (trace : MessageTrace) :
    Answers same c (Local.request c trace (.createEvent identifier input) s)
      (Aws.request c schedules (.createEvent identifier input)) := by
  cases hkept : c.getJsonEvent input.event with
  | none =>
    simp only [Local.request, Aws.request, hkept]
    exact ⟨.threw, h⟩
  | some kept =>
    simp only [Local.request, Aws.request, hkept]
    rcases h.cases hplain with ⟨he, hs⟩ | ⟨event, schedule, he, hs, -⟩
    · rw [performed_createEvent hplain hfuture.later he]
      simp only [Aws.createSchedule, Request.identifier, hs, Option.isSome]
      exact ⟨.done, h.write rfl hfuture.later
        (isMatched_ofInput hfuture (hjson _ _ hkept) trace s.next)⟩
    · rw [performed_createEvent_of_some he]
      simp only [Aws.createSchedule, Request.identifier, hs, Option.isSome]
      exact ⟨.threw, h.fresh⟩

theorem deleteEvent_answers (h : Agree c same ⟨s, schedules⟩) (hplain : IsPlain identifier)
    (trace : MessageTrace) :
    Answers same c (Local.request c trace (.deleteEvent identifier) s)
      (Aws.request c schedules (.deleteEvent identifier)) := by
  unfold Local.request Aws.request
  dsimp only
  rcases h.cases hplain with ⟨he, hs⟩ | ⟨event, schedule, he, hs, -⟩
  · rw [performed_deleteEvent_of_none hplain he]
    simp only [Aws.deleteSchedule, Request.identifier, hs, Option.isSome]
    exact ⟨.deleted false, h⟩
  · rw [performed_deleteEvent hplain he]
    simp only [Aws.deleteSchedule, Request.identifier, hs, Option.isSome]
    exact ⟨.deleted true, h.delete⟩

/-- The update of an event that is there, with the event that is kept of it, if any. -/
theorem update_answers (h : Agree c same ⟨s, schedules⟩) (hplain : IsPlain identifier)
    {event : ScheduledEvent Fields} {schedule : Schedule} (he : s.events identifier = some event)
    (hs : schedules (Aws.getEventName c identifier) = some schedule)
    (hmatched : IsMatched c same event schedule)
    {input : EventChanges Fields} (kept : Option Fields)
    (hfuture : ∀ date, input.date = some date → IsFuture s.now date)
    (hkept : ∀ target k, event.event = some target → kept = some k →
      same (deepMerge {} target k) (c.json k)) :
    Answers same c (Local.performed c (.updateEvent identifier { input with event := kept }) s)
      (Aws.replied schedules (Aws.updateSchedule schedules (Aws.getEventName c identifier)
        (Aws.updateEvent c input kept (Aws.showLimits c.fills schedule)))) := by
  have hdate : s.now < (mergeEvent c.parameters event
    { input with event := kept } s.next).date := by
    change s.now < input.date.getD event.date
    cases hdate : input.date with
    | none => exact h.ahead identifier event he
    | some date => exact (hfuture date hdate).later
  rw [performed_updateEvent hplain he hdate]
  simp only [Aws.updateSchedule, hs, Option.isSome]
  exact ⟨.done, h.write rfl hdate (hmatched.update hfuture hkept s.next)⟩

theorem updateEvent_answers (h : Agree c same ⟨s, schedules⟩) (hplain : IsPlain identifier)
    {input : EventChanges Fields} (hfuture : ∀ date, input.date = some date → IsFuture s.now date)
    (trace : MessageTrace) (hmerges : Merges c same ⟨s, schedules⟩
      (.request trace (.updateEvent identifier input))) :
    Answers same c (Local.request c trace (.updateEvent identifier input) s)
      (Aws.request c schedules (.updateEvent identifier input)) := by
  rcases h.cases hplain with ⟨he, hs⟩ | ⟨event, schedule, he, hs, hmatched⟩
  · have hlocal : ∀ changes, Local.performed c (.updateEvent identifier changes) s = (.threw, s) :=
      fun changes => performed_updateEvent_of_none hplain he
    cases hevent : input.event with
    | none =>
      simp only [Local.request, Aws.request, hevent, hlocal, Aws.getSchedule, Request.identifier,
        hs, Option.map_none]
      exact ⟨.threw, h⟩
    | some given =>
      simp only [Local.request, Aws.request, hevent, hlocal, Aws.getSchedule, Request.identifier,
        hs, Option.map_none]
      cases c.getJsonEvent given <;> exact ⟨.threw, h⟩
  · cases hevent : input.event with
    | none =>
      simp only [Local.request, Aws.request, hevent, Aws.getSchedule, Request.identifier, hs,
        Option.map_some]
      have hsame : { input with event := none } = input := by rw [← hevent]
      have hanswers := update_answers h hplain he hs hmatched none hfuture
        (fun _ _ _ h => by cases h)
      rwa [hsame] at hanswers
    | some given =>
      simp only [Local.request, Aws.request, hevent, Aws.getSchedule, Request.identifier, hs,
        Option.map_some]
      cases hkept : c.getJsonEvent given with
      | none => exact ⟨.threw, h⟩
      | some kept =>
        refine update_answers h hplain he hs hmatched (some kept) hfuture
          fun target k htarget hk => ?_
        cases hk
        exact hmerges event target given kept he htarget hevent hkept

theorem request_answers (h : Agree c same ⟨s, schedules⟩) (hjson : KeepsJson c same)
    {trace : MessageTrace}
    {r : Request} (hmeant : IsMeant ⟨s, schedules⟩ (.request trace r))
    (hmerges : Merges c same ⟨s, schedules⟩ (.request trace r)) :
    Answers same c (Local.request c trace r s) (Aws.request c schedules r) := by
  obtain ⟨hplain, hfuture⟩ := hmeant
  cases r with
  | getEvent identifier => exact getEvent_answers h hplain trace
  | setEvent identifier input => exact setEvent_answers h hjson hplain (hfuture _ rfl) trace
  | createEvent identifier input => exact createEvent_answers h hjson hplain (hfuture _ rfl) trace
  | updateEvent identifier input => exact updateEvent_answers h hplain hfuture trace hmerges
  | deleteEvent identifier => exact deleteEvent_answers h hplain trace

/-! ## Runs -/

/-- A timeout that fires before any date is reached has a chunk left. -/
theorem quiet_of_fire (h : Agree c same b) {handle : Nat} {t : State Fields}
    (hstep : Events.step c.parameters b.events (.fire handle) = some t) :
    t.events = b.events.events ∧ t.now = b.events.now := by
  obtain ⟨timeout, hfind, hfire⟩ := Option.bind_eq_some_iff.mp hstep
  have hmem := List.mem_of_find?_eq_some hfind
  split at hfire
  · cases hfire
  · next hdue =>
    cases hfire
    unfold timeoutFires
    split
    · exact ⟨rfl, rfl⟩
    · next hrest =>
      have hdate := h.kept.punctual.pending timeout hmem
      have hahead := h.ahead _ _ (h.kept.slots.active timeout hmem)
      omega

/-- A handler that ends before any date is reached was of an event that is gone. -/
theorem quiet_of_answer (h : Agree c same b) {activation : Nat} {success : Bool} {t : State Fields}
    (hstep : Events.step c.parameters b.events (.answer activation success) = some t) :
    t.events = b.events.events ∧ t.now = b.events.now := by
  obtain ⟨r, hfind, hends⟩ := Option.bind_eq_some_iff.mp hstep
  have hmem := List.mem_of_find?_eq_some hfind
  have hidle : r.run.isActive b.events = false := by
    by_contra hactive
    have hahead := h.ahead _ _ (h.kept.filed.event_of_active hmem (eq_true_of_ne_false hactive))
    have hdate := h.kept.punctual.running r hmem
    omega
  cases hends
  rw [handlerEnds_eq, onComplete_ended, hidle]
  cases success <;> exact ⟨rfl, rfl⟩

/-- The local scheduler goes on by itself. -/
theorem Agree.goOn (h : Agree c same b) {action : Action Fields} {t : State Fields}
    (hstep : Events.step c.parameters b.events action = some t)
    (hevents : t.events = b.events.events)
    (hahead : ∀ identifier event, b.events.events identifier = some event → t.now < event.date) :
    Agree c same { b with events := t } where
  kept := h.kept.effect (step_effect hstep)
  ahead identifier event hevent := hahead identifier event (hevents ▸ hevent)
  names identifier hplain := by
    change Option.Rel _ (t.events identifier) _
    rw [hevents]
    exact h.names identifier hplain

theorem Agree.step (h : Agree c same b) (hjson : KeepsJson c same) {e : Event} {t : Both}
    (hok : IsMeant b e ∧ Merges c same b e) (hstep : step c b e = some t) : Agree c same t := by
  cases e with
  | request trace r =>
    cases hstep
    exact (request_answers h hjson hok.1 hok.2).2
  | elapse time =>
    cases hstep
    have hlocal : Events.step c.parameters b.events (.elapse time) =
        some { b.events with now := b.events.now + time } := rfl
    exact h.goOn hlocal rfl hok.1
  | fire handle =>
    change (Events.step c.parameters b.events (.fire handle)).map _ = some t at hstep
    obtain ⟨u, hu, rfl⟩ := Option.map_eq_some_iff.mp hstep
    obtain ⟨hevents, hnow⟩ := quiet_of_fire h hu
    exact h.goOn hu hevents fun identifier event hevent => hnow ▸ h.ahead identifier event hevent
  | answer activation success =>
    change (Events.step c.parameters b.events (.answer activation success)).map _ = some t at hstep
    obtain ⟨u, hu, rfl⟩ := Option.map_eq_some_iff.mp hstep
    obtain ⟨hevents, hnow⟩ := quiet_of_answer h hu
    exact h.goOn hu hevents fun identifier event hevent => hnow ▸ h.ahead identifier event hevent

theorem agree_init (start : Int) : Agree c same (machine c start).init where
  kept := Kept.start c.parameters start
  ahead _ _ h := by cases h
  names _ _ := .none

theorem agree_of_run (hjson : KeepsJson c same) {start : Int} {events : List Event}
    (hok : (machine c start).Meets (fun b e => IsMeant b e ∧ Merges c same b e) events
      (machine c start).init)
    (h : (machine c start).run events (machine c start).init = some b) : Agree c same b :=
  Machine.run_invariant_of_meets (fun _ _ _ hs hok hstep => hs.step hjson hok hstep)
    (agree_init start) hok h

end

/-! ## The clients agree -/

/-- Every update of an event says what becomes of each of its properties. -/
def UpdatesCover (c : Setup) (b : Both) : Event → Prop
  | .request _ (.updateEvent identifier input) => ∀ previous target event kept,
    b.events.events identifier = some previous → previous.event = some target →
      input.event = some event → c.getJsonEvent event = some kept →
        (Value.obj kept).Covers (.obj target)
  | _ => True

def SameEvent (a b : Fields) : Prop := (Value.obj a).Same (.obj b)

theorem sameEvent_of_covers {event kept target : Fields} (hjson : KeepsJson c SameEvent)
    (hkept : c.getJsonEvent event = some kept) (hcovers : (Value.obj kept).Covers (.obj target)) :
    SameEvent (deepMerge {} target kept) (c.json kept) :=
  fun path => (same_of_covers path target kept hcovers).trans (hjson event kept hkept path)

theorem IsMatched.limits {event : ScheduledEvent Fields} {schedule : Schedule}
    (h : IsMatched c same event schedule) (identifier : String) :
    SchedulerRun.maxRetries c.parameters ⟨identifier, event⟩ =
      schedule.maxRetries.getD defaultEventMaxRetries ∧
      SchedulerRun.maxAge c.parameters ⟨identifier, event⟩ =
        schedule.maxAge.getD defaultEventMaxAge :=
  ⟨h.maxRetries.1, h.maxAge.1⟩

/-- **The local scheduler client answers as the deployed one**: after any run before the dates are
reached both reject the same requests, delete and find the same events, and would run them within
the same limits. What the events carry is the same too, as long as every update of an event covers
the one before, which the local scheduler merges it into. -/
theorem clients_agree (c : Setup) {start : Int} {events : List Event} {b : Both}
    (hmeant : (machine c start).Meets IsMeant events (machine c start).init)
    (h : (machine c start).run events (machine c start).init = some b) :
    (∀ trace r, IsMeant b (.request trace r) →
      Reply.Agree (fun _ _ => True) (Local.request c trace r b.events).1
        (Aws.request c b.schedules r).1) ∧
    (∀ identifier, IsPlain identifier → ∀ event schedule, b.events.events identifier = some event →
      b.schedules (Aws.getEventName c identifier) = some schedule →
        event.date = schedule.date * 1000 ∧
        SchedulerRun.maxRetries c.parameters ⟨identifier, event⟩ =
          schedule.maxRetries.getD defaultEventMaxRetries ∧
        SchedulerRun.maxAge c.parameters ⟨identifier, event⟩ =
          schedule.maxAge.getD defaultEventMaxAge) ∧
    (KeepsJson c SameEvent →
      (machine c start).Meets (fun b e => IsMeant b e ∧ UpdatesCover c b e) events
        (machine c start).init →
      ∀ trace r, IsMeant b (.request trace r) → UpdatesCover c b (.request trace r) →
        Reply.Agree SameEvent (Local.request c trace r b.events).1
          (Aws.request c b.schedules r).1) := by
  have hany : KeepsJson c fun _ _ => True := fun _ _ _ => trivial
  have hmerges : ∀ (b : Both) e, Merges c (fun _ _ => True) b e := by
    intro b e
    cases e with
    | request trace r => cases r <;> first | trivial | exact fun _ _ _ _ _ _ _ _ => trivial
    | _ => trivial
  have hagree : Agree c (fun _ _ => True) b :=
    agree_of_run hany (hmeant.mono (I := fun _ => True) (fun _ _ _ _ _ _ => trivial)
      (fun b e _ hok => ⟨hok, hmerges b e⟩) trivial) h
  refine ⟨fun trace r hr => (request_answers hagree hany hr (hmerges b _)).1, ?_, ?_⟩
  · intro identifier hplain event schedule hevent hschedule
    have hnames := hagree.names identifier hplain
    rw [hevent, hschedule] at hnames
    cases hnames with
    | some hmatched => exact ⟨hmatched.date, hmatched.limits identifier⟩
  · intro hjson hcovers trace r hr hcover
    have himp : ∀ b e, UpdatesCover c b e → Merges c SameEvent b e := by
      intro b e hcover
      cases e with
      | request trace r =>
        cases r with
        | updateEvent identifier input =>
          intro previous target event kept hprevious htarget hevent hkept
          exact sameEvent_of_covers hjson hkept
            (hcover previous target event kept hprevious htarget hevent hkept)
        | _ => trivial
      | _ => trivial
    have hsame : Agree c SameEvent b :=
      agree_of_run hjson (hcovers.mono (I := fun _ => True) (fun _ _ _ _ _ _ => trivial)
        (fun b e _ hok => ⟨hok.1, himp b e hok.2⟩) trivial) h
    exact (request_answers hsame hjson hr (himp b _ hcover)).1

namespace Sample

def setup : Setup where
  maxRetries := some 5
  namePrefix := "app"
  getJsonEvent := some
  json := id
  fills := true

/-- An event is put off, with another text and no text for its note. -/
def renewed : List Event :=
  [.request {} (.setEvent "a" { date := 60000,
                                event := [("text", .str "first")], maxAge := some 60 }),
    .elapse 1000,
    .request {} (.updateEvent "a" { date := some 120000, event := some [("text", .str "second")] })]

def after : Both := ((machine setup 0).run renewed (machine setup 0).init).getD
    { events := { now := 0 } }

theorem isFuture_of {now date : Int}
    (h : now < date ∧ date % 1000 = 0 ∧ date < 253402300800000 ∧ 0 ≤ date) :
    IsFuture now date :=
  ⟨h.1, Int.dvd_of_emod_eq_zero h.2.1, by omega, h.2.2.1⟩

theorem covers_text (source target : String) :
    (Value.obj [("text", .str source)]).Covers (.obj [("text", .str target)]) := by
  intro path key htarget hsource hnullish
  cases path with
  | nil =>
    change get [("text", .str target)] key = get [("text", .str source)] key
    change (get [("text", .str source)] key).isNullish = true at hnullish
    by_cases hkey : "text" = key
    · rw [get_eq, find_cons, if_pos hkey] at hnullish
      cases hnullish
    · rw [get_eq, get_eq, find_cons, find_cons, if_neg hkey, if_neg hkey]
  | cons k rest =>
    change ((get [("text", .str target)] k).read rest).isAnyObject = true at htarget
    rw [get_eq, find_cons] at htarget
    split at htarget <;> cases rest <;> cases htarget

theorem renewed_meets :
    (machine setup 0).Meets (fun b e => IsMeant b e ∧ UpdatesCover setup b e) renewed
    (machine setup 0).init := by
  refine ⟨⟨⟨by decide, fun date hdate => ?_⟩, trivial⟩,
    ⟨fun identifier event hevent => ?_, trivial⟩,
    ⟨⟨by decide, fun date hdate => ?_⟩, ?_⟩, trivial⟩
  · cases hdate
    exact isFuture_of (by decide)
  · rcases (put_eq_some_iff _ _).mp hevent with ⟨-, rfl⟩ | ⟨-, hnone⟩
    · decide
    · cases hnone
  · cases hdate
    exact isFuture_of (by decide)
  · intro previous target event kept hprevious htarget hevent hkept
    cases hprevious
    cases htarget
    cases hevent
    cases hkept
    exact covers_text "second" "first"

theorem renewed_found : Reply.Agree SameEvent
    (Local.request setup {} (.getEvent "a") after.events).1
    (Aws.request setup after.schedules (.getEvent "a")).1 :=
  (clients_agree setup (renewed_meets.mono (I := fun _ => True) (fun _ _ _ _ _ _ => trivial)
    (fun _ _ _ hok => hok.1) trivial) rfl).2.2
      (fun _ _ h => Option.some.inj h ▸ Value.Same.refl _) renewed_meets
    {} (.getEvent "a") ⟨by decide, fun _ h => by cases h⟩ trivial

end Sample

end Ez4.Scheduler.Clients
