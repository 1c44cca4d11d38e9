import Ez4.Scheduler.Events

/-! # The life of a written event

From the moment it is written an event waits for its date, runs, and after a
failed run waits for the next one, until it succeeds or its retries are used
up. What is stated here are the runs of one event, apart from the scheduler:
when each may start and how many there are. -/
namespace Ez4.Scheduler.Events

variable {T : Type}

/-- Where an event is in its life. -/
inductive Phase
  /-- It may start its next run from `due` on. -/
  | waiting (attempt : Nat) (firstTime : Option Int) (due : Int)
  | running (attempt : Nat) (firstTime : Int)
  | over

/-- The runs of an event so far, the latest entry first. -/
inductive Life (p : Parameters T) (run : SchedulerRun T) : List (Entry T) → Phase → Prop
  | written : Life p run [] (.waiting 0 none run.input.date)
  | start {entries : List (Entry T)} {attempt : Nat} {firstTime : Option Int} {due time : Int} :
    Life p run entries (.waiting attempt firstTime due) → due ≤ time →
      Life p run (.started run attempt time :: entries)
        (.running attempt (firstTime.getD time))
  | success {entries : List (Entry T)} {attempt : Nat} {firstTime time : Int} :
    Life p run entries (.running attempt firstTime) →
      Life p run (.succeeded run time :: entries) .over
  | failure {entries : List (Entry T)} {attempt : Nat} {firstTime time : Int} :
    Life p run entries (.running attempt firstTime) →
      Life p run (.failed run time :: entries) .over
  | retry {entries : List (Entry T)} {attempt : Nat} {firstTime time : Int} :
    Life p run entries (.running attempt firstTime) → attempt < run.maxRetries p →
      ((time + retryDelay attempt - firstTime : Int) : Rat) ≤ run.maxAge p * 1000 →
      Life p run (.failed run time :: entries)
        (.waiting (attempt + 1) (some firstTime) (time + retryDelay attempt))

def Entry.isStarted : Entry T → Bool
  | .started .. => true
  | _ => false

namespace Life

variable {p : Parameters T} {run : SchedulerRun T} {entries : List (Entry T)} {phase : Phase}

/-- How many runs were started when an event is in a phase. -/
def Started (p : Parameters T) (run : SchedulerRun T) (n : Nat) : Phase → Prop
  | .waiting attempt _ _ => n = attempt ∧ attempt ≤ run.maxRetries p
  | .running attempt _ => n = attempt + 1 ∧ attempt ≤ run.maxRetries p
  | .over => n ≤ run.maxRetries p + 1

theorem started (h : Life p run entries phase) :
    Started p run (entries.filter Entry.isStarted).length phase := by
  induction h with
  | written => exact ⟨rfl, Nat.zero_le _⟩
  | start _ _ ih =>
    obtain ⟨hn, hle⟩ := ih
    exact ⟨congrArg (· + 1) hn, hle⟩
  | @success entries attempt firstTime time _ ih =>
    obtain ⟨hn, hle⟩ := ih
    show (entries.filter Entry.isStarted).length ≤ run.maxRetries p + 1
    omega
  | @failure entries attempt firstTime time _ ih =>
    obtain ⟨hn, hle⟩ := ih
    show (entries.filter Entry.isStarted).length ≤ run.maxRetries p + 1
    omega
  | retry _ hlt _ ih =>
    exact ⟨ih.1, hlt⟩

/-- An event is run at most `maxRetries` more times. -/
theorem length_started_le (h : Life p run entries phase) :
    (entries.filter Entry.isStarted).length ≤ run.maxRetries p + 1 := by
  have hs := h.started
  cases phase with
  | waiting attempt firstTime due => obtain ⟨hn, hle⟩ := hs; omega
  | running attempt firstTime => obtain ⟨hn, hle⟩ := hs; omega
  | «over» => exact hs

/-- What the first run and the last failed one say of the phase. -/
def Traced (p : Parameters T) (run : SchedulerRun T) (entries : List (Entry T)) : Phase → Prop
  | .waiting 0 firstTime _ => entries = [] ∧ firstTime = none
  | .waiting (attempt + 1) firstTime due => ∃ failedAt rest first, firstTime = some first ∧
    entries = .failed run failedAt :: rest ∧ .started run 0 first ∈ rest ∧
      attempt < run.maxRetries p ∧ due = failedAt + retryDelay attempt ∧
        ((due - first : Int) : Rat) ≤ run.maxAge p * 1000
  | .running _ firstTime => .started run 0 firstTime ∈ entries
  | .over => True

theorem traced (h : Life p run entries phase) : Traced p run entries phase := by
  induction h with
  | written => exact ⟨rfl, rfl⟩
  | @start entries attempt firstTime due time _ _ ih =>
    cases attempt with
    | zero =>
      obtain ⟨-, rfl⟩ := ih
      exact List.mem_cons_self
    | succ attempt =>
      obtain ⟨failedAt, rest, first, rfl, rfl, hmem, -⟩ := ih
      exact List.mem_cons_of_mem _ (List.mem_cons_of_mem _ hmem)
  | success _ _ => trivial
  | failure _ _ => trivial
  | retry _ hlt hage ih => exact ⟨_, _, _, rfl, rfl, ih, hlt, rfl, hage⟩

/-- A run is the first one, or it follows a failed one after its delay, within
the age that the first run allows. -/
def Allowed (p : Parameters T) (run : SchedulerRun T) (attempt : Nat) (time : Int)
    (earlier : List (Entry T)) : Prop :=
  (attempt = 0 ∧ earlier = [] ∧ run.input.date ≤ time) ∨
  ∃ k failedAt rest first, attempt = k + 1 ∧ k < run.maxRetries p ∧
    earlier = .failed run failedAt :: rest ∧ .started run 0 first ∈ rest ∧
      failedAt + retryDelay k ≤ time ∧
        ((failedAt + retryDelay k - first : Int) : Rat) ≤ run.maxAge p * 1000

theorem allowed (h : Life p run entries phase) {later earlier : List (Entry T)}
    {run' : SchedulerRun T} {attempt : Nat} {time : Int}
    (heq : entries = later ++ .started run' attempt time :: earlier) :
    run' = run ∧ Allowed p run attempt time earlier := by
  induction h generalizing later with
  | written => exact absurd heq (by simp)
  | @start entries attempt' firstTime due time' hlife hdue ih =>
    cases later with
    | nil =>
      rw [List.nil_append, List.cons.injEq, Entry.started.injEq] at heq
      obtain ⟨⟨rfl, rfl, rfl⟩, rfl⟩ := heq
      refine ⟨rfl, ?_⟩
      have htraced := hlife.traced
      cases attempt' with
      | zero =>
        obtain ⟨rfl, -⟩ := htraced
        cases hlife
        exact .inl ⟨rfl, rfl, hdue⟩
      | succ k =>
        obtain ⟨failedAt, rest, first, -, hentries, hmem, hlt, rfl, hage⟩ := htraced
        exact .inr ⟨k, failedAt, rest, first, rfl, hlt, hentries, hmem, hdue, hage⟩
    | cons entry later => exact ih (List.cons.inj heq).2
  | success _ ih =>
    cases later with
    | nil => exact absurd (List.cons.inj heq).1 (by simp)
    | cons entry later => exact ih (List.cons.inj heq).2
  | failure _ ih =>
    cases later with
    | nil => exact absurd (List.cons.inj heq).1 (by simp)
    | cons entry later => exact ih (List.cons.inj heq).2
  | retry _ _ _ ih =>
    cases later with
    | nil => exact absurd (List.cons.inj heq).1 (by simp)
    | cons entry later => exact ih (List.cons.inj heq).2

end Life

end Ez4.Scheduler.Events
