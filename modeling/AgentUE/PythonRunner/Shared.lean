import AgentUE.Data.Machine
import AgentUE.Data.Slot
import Mathlib.Logic.Function.Basic

/-!
# Python runner: the tasks that its calls share

Reference: `start`, `aclose`, `_get_bridge` and `_ensure_scanner` in `sdks/python/src/agentue/runner/runner.py`. Any
number of calls of `start`, of `run` on their way through it and of `aclose` take steps from one `await` to the next.
There is never more than one scanner, pulse task and watchdog that nobody has asked to end, and `aclose` leaves none of
them, unless a `start` that has seen an open Runner comes back from `connect` later than that.
-/

namespace AgentUE.PythonRunner.Shared

open Data

variable {ι : Type}

/-- Where a call of `aclose` stands. -/
inductive Closer where
  | idle
  /-- in the `gather` of the scanner, or of the execute tasks -/
  | waiting (scanner : Option ℕ)
  /-- in the `gather` of the pulse task -/
  | stopping (pulse : ℕ)
  /-- in the `aclose` of the connector -/
  | disconnecting
  | closed
  /-- cancelled in one of them -/
  | cancelled
deriving DecidableEq

/-- The fields `_closing`, `_loop_stalled`, `_scanner_task`, `_pulse_task` and `_watchdog` of a Runner. `connecting`
says that a call of `start` has `_start_lock` and waits for `_get_bridge`. -/
structure Runner (ι : Type) where
  closing : Bool
  stalled : Bool
  connecting : Bool
  scanner : Slot
  pulse : Slot
  watchdog : Slot
  closers : ι → Closer

/-- A new Runner. -/
def Runner.init : Runner ι := ⟨false, false, false, .empty, .empty, .empty, fun _ => .idle⟩

/-- What can happen on the event loop. -/
inductive Label (ι : Type) where
  /-- a call of `start` gets the lock; `suspends` says whether `_get_bridge` has to wait -/
  | start (suspends : Bool)
  /-- `_get_bridge` returns or fails -/
  | connected (ok : Bool)
  /-- a step of a call of `aclose`; `tasks` says whether there are execute tasks -/
  | close (k : ι) (tasks : Bool)
  | cancelClose (k : ι)
  | scannerEnds (n : ℕ)
  | pulseEnds (n : ℕ)
  /-- the watchdog finds the loop stalled -/
  | stall
deriving DecidableEq

/-- The watchdog and the pulse task of `start`. -/
def Runner.startPulse (r : Runner ι) : Runner ι :=
  if r.watchdog.current.isNone then { r with watchdog := r.watchdog.spawn, pulse := r.pulse.spawn } else r

/-- `_ensure_scanner` -/
def Runner.ensureScanner (r : Runner ι) : Runner ι :=
  if r.scanner.isFree then { r with scanner := r.scanner.spawn } else r

/-- What `start` does after `_get_bridge`. -/
def Runner.create (r : Runner ι) : Runner ι := r.startPulse.ensureScanner

section

variable [DecidableEq ι]

def Runner.setCloser (r : Runner ι) (k : ι) (c : Closer) : Runner ι :=
  { r with closers := Function.update r.closers k c }

/-- `aclose` from its watchdog on -/
def Runner.stopWatchdog (connector : Bool) (k : ι) (r : Runner ι) : Runner ι :=
  { r with watchdog := r.watchdog.take }.setCloser k (if connector then .disconnecting else .closed)

/-- `aclose` from its pulse task on -/
def Runner.stopPulse (connector : Bool) (k : ι) (r : Runner ι) : Runner ι :=
  match r.pulse.current with
  | some pulse => { r with pulse := r.pulse.take }.setCloser k (.stopping pulse)
  | none => r.stopWatchdog connector k

/-- One step of a call of `aclose`. -/
def Runner.close (connector : Bool) (r : Runner ι) (k : ι) (tasks : Bool) : Option (Runner ι) :=
  match r.closers k with
  | .idle =>
    let scanner := r.scanner.current
    let r := { r with closing := true, scanner := r.scanner.take }
    if scanner.isSome || tasks then some (r.setCloser k (.waiting scanner)) else some (r.stopPulse connector k)
  | .waiting scanner => if scanner.all fun n => r.scanner.isDone n then some (r.stopPulse connector k) else none
  | .stopping pulse => if r.pulse.isDone pulse then some (r.stopWatchdog connector k) else none
  | .disconnecting => some (r.setCloser k .closed)
  | .closed | .cancelled => none

/-- One step; `connector` says whether the Runner has been given a `RedisConnector`. -/
def step (connector : Bool) (r : Runner ι) : Label ι → Option (Runner ι)
  | .start suspends =>
    if r.connecting then none
    -- `start` raises
    else if r.closing || r.stalled then some r
    else if connector && suspends then some { r with connecting := true }
    else some r.create
  | .connected ok =>
    if r.connecting then
      let r := { r with connecting := false }
      if ok then some r.create else some r
    else none
  | .close k tasks => r.close connector k tasks
  | .cancelClose k =>
    match r.closers k with
    | .waiting _ | .stopping _ | .disconnecting => some (r.setCloser k .cancelled)
    | .idle | .closed | .cancelled => none
  | .scannerEnds n => some { r with scanner := r.scanner.finish n }
  | .pulseEnds n => some { r with pulse := r.pulse.finish n }
  | .stall => some { r with stalled := true }

end

/-! ## What is asked of the runs -/

/-- A `start` comes back from `connect` to a Runner that is being closed. -/
def IsLate (r : Runner ι) (l : Label ι) : Prop := r.closing = true ∧ l = .connected true

/-- The step is the first one of a call of `aclose`. -/
def Begins (r : Runner ι) : Label ι → Prop
  | .close k _ => r.closers k = .idle
  | _ => False

instance (r : Runner ι) : DecidablePred (Begins r)
  | .close k _ => inferInstanceAs (Decidable (r.closers k = .idle))
  | .start _ | .connected _ | .cancelClose _ | .scannerEnds _ | .pulseEnds _ | .stall => isFalse id

/-- Nothing runs that has not been asked to end. -/
structure Released (r : Runner ι) : Prop where
  scanner : r.scanner.current = none ∧ ∀ task ∈ r.scanner.tasks, task.done = true ∨ task.cancelled = true
  pulse : r.pulse.current = none ∧ ∀ task ∈ r.pulse.tasks, task.done = true ∨ task.cancelled = true
  watchdog : r.watchdog.current = none ∧ ∀ task ∈ r.watchdog.tasks, task.done = true ∨ task.cancelled = true

/-- The call of `aclose` has taken the pulse task. -/
def Closer.pastPulse : Closer → Bool
  | .stopping _ | .disconnecting | .closed => true
  | _ => false

/-- The call of `aclose` has taken the watchdog. -/
def Closer.pastWatchdog : Closer → Bool
  | .disconnecting | .closed => true
  | _ => false

/-- Nothing has come back that a call of `aclose` has taken. -/
structure Cleared (r : Runner ι) : Prop where
  scanner : r.closing = true → r.scanner.current = none
  pulse : ∀ k, (r.closers k).pastPulse = true → r.pulse.current = none
  watchdog : ∀ k, (r.closers k).pastWatchdog = true → r.watchdog.current = none

/-- What holds in every run. -/
structure Sound (r : Runner ι) : Prop where
  scanner : r.scanner.Owned
  pulse : r.pulse.Owned
  watchdog : r.watchdog.Owned
  /-- no call of `aclose` has begun on an open Runner -/
  idle : r.closing = false → ∀ k, r.closers k = .idle
  /-- a `start` that is on its way is before all that a call of `aclose` has taken -/
  cleared : r.connecting = true → Cleared r
  /-- where a pulse task may still be created its slot is empty with that of the watchdog -/
  paired : r.connecting = true ∨ r.closing = false → r.watchdog.current = none → r.pulse.current = none

theorem sound_init : Sound (Runner.init : Runner ι) where
  scanner := Slot.owned_empty
  pulse := Slot.owned_empty
  watchdog := Slot.owned_empty
  idle _ _ := rfl
  cleared := by simp [Runner.init]
  paired _ _ := rfl

/-! ## What is created -/

theorem Runner.startPulse_cases (r : Runner ι) :
    r.watchdog.current = none ∧ r.startPulse = { r with watchdog := r.watchdog.spawn, pulse := r.pulse.spawn } ∨
      r.watchdog.current ≠ none ∧ r.startPulse = r := by
  unfold startPulse
  cases h : r.watchdog.current with
  | none => exact .inl ⟨rfl, rfl⟩
  | some n => exact .inr ⟨by simp, rfl⟩

theorem Runner.ensureScanner_cases (r : Runner ι) :
    r.scanner.isFree = true ∧ r.ensureScanner = { r with scanner := r.scanner.spawn } ∨
      r.scanner.isFree = false ∧ r.ensureScanner = r := by
  unfold ensureScanner
  cases h : r.scanner.isFree
  · exact .inr ⟨rfl, rfl⟩
  · exact .inl ⟨rfl, rfl⟩

/-- What `start` leaves alone. -/
theorem Runner.create_frame (r : Runner ι) : r.create.closing = r.closing ∧ r.create.connecting = r.connecting ∧
    r.create.closers = r.closers := by
  have hstart : r.startPulse.closing = r.closing ∧ r.startPulse.connecting = r.connecting ∧
      r.startPulse.closers = r.closers := by
    rcases r.startPulse_cases with ⟨-, h⟩ | ⟨-, h⟩ <;> rw [h] <;> exact ⟨rfl, rfl, rfl⟩
  unfold create
  rcases r.startPulse.ensureScanner_cases with ⟨-, h⟩ | ⟨-, h⟩ <;> rw [h] <;> exact hstart

/-- After `start` there is a watchdog. -/
theorem Runner.create_watchdog (r : Runner ι) : r.create.watchdog.current ≠ none := by
  unfold create
  rcases r.startPulse.ensureScanner_cases with ⟨-, hscanner⟩ | ⟨-, hscanner⟩ <;> rw [hscanner]
  all_goals rcases r.startPulse_cases with ⟨-, hpulse⟩ | ⟨hsome, hpulse⟩ <;> rw [hpulse]
  · simp
  · exact hsome
  · simp
  · exact hsome

/-- After `start` there is a scanner that runs. -/
theorem Runner.create_scanner (r : Runner ι) :
    ∃ n, r.create.scanner.current = some n ∧ r.create.scanner.isDone n = false := by
  unfold create
  rcases r.startPulse.ensureScanner_cases with ⟨-, hscanner⟩ | ⟨hbusy, hscanner⟩ <;> rw [hscanner]
  · exact ⟨_, Slot.current_spawn _, Slot.isDone_spawn _⟩
  · cases hcurrent : r.startPulse.scanner.current with
    | none => simp [Slot.isFree, hcurrent] at hbusy
    | some n => exact ⟨n, rfl, by simpa [Slot.isFree, hcurrent] using hbusy⟩

theorem owned_create {r : Runner ι} (hscanner : r.scanner.Owned) (hpulse : r.pulse.Owned)
    (hwatchdog : r.watchdog.Owned) (hpaired : r.watchdog.current = none → r.pulse.current = none) :
    r.create.scanner.Owned ∧ r.create.pulse.Owned ∧ r.create.watchdog.Owned := by
  have hstart : r.startPulse.scanner.Owned ∧ r.startPulse.pulse.Owned ∧ r.startPulse.watchdog.Owned := by
    rcases r.startPulse_cases with ⟨hnone, h⟩ | ⟨-, h⟩ <;> rw [h]
    · exact ⟨hscanner, hpulse.spawn (by simp [Slot.isFree, hpaired hnone]),
        hwatchdog.spawn (by simp [Slot.isFree, hnone])⟩
    · exact ⟨hscanner, hpulse, hwatchdog⟩
  unfold Runner.create
  rcases r.startPulse.ensureScanner_cases with ⟨hfree, h⟩ | ⟨-, h⟩ <;> rw [h]
  · exact ⟨hstart.1.spawn hfree, hstart.2⟩
  · exact hstart

theorem sound_create {r : Runner ι} (h : Sound r) (hmay : r.connecting = true ∨ r.closing = false) :
    Sound { r with connecting := false }.create := by
  obtain ⟨hscanner, hpulse, hwatchdog⟩ :=
    owned_create (r := { r with connecting := false }) h.scanner h.pulse h.watchdog (h.paired hmay)
  obtain ⟨hclosing, hconnecting, hclosers⟩ := Runner.create_frame { r with connecting := false }
  refine ⟨hscanner, hpulse, hwatchdog, ?_, ?_, fun _ hnone => absurd hnone (Runner.create_watchdog _)⟩
  · rw [hclosing, hclosers]
    exact h.idle
  · simp [hconnecting]

/-- Nothing has been taken from an open Runner. -/
theorem cleared_of_open {r : Runner ι} (hopen : r.closing = false) (hidle : ∀ k, r.closers k = .idle) : Cleared r :=
  ⟨by simp [hopen], fun k hpast => by simp [hidle k, Closer.pastPulse] at hpast,
    fun k hpast => by simp [hidle k, Closer.pastWatchdog] at hpast⟩

/-! ## What is closed -/

section

variable [DecidableEq ι]

/-- What a step of a call of `aclose` does. -/
structure Closes (r r' : Runner ι) (k : ι) : Prop where
  connecting : r'.connecting = r.connecting
  scanner : r'.scanner = r.scanner ∨ r'.scanner = r.scanner.take
  pulse : r'.pulse = r.pulse ∨ r'.pulse = r.pulse.take
  /-- the watchdog goes after the pulse task -/
  watchdog : r'.watchdog = r.watchdog ∨
    r'.watchdog = r.watchdog.take ∧ (r'.pulse.current = none ∨ (r.closers k).pastPulse = true)
  closing : r'.closing = true ∧ (r.closing = false → r'.scanner.current = none)
  closers : ∃ c, r'.closers = Function.update r.closers k c ∧
    (c.pastPulse = true → (r.closers k).pastPulse = true ∨ r'.pulse.current = none) ∧
    (c.pastWatchdog = true → (r.closers k).pastWatchdog = true ∨ r'.watchdog.current = none)

theorem closes_stopWatchdog (connector : Bool) {k : ι} {r : Runner ι} (hclosing : r.closing = true)
    (hpulse : r.pulse.current = none ∨ (r.closers k).pastPulse = true) :
    Closes r (r.stopWatchdog connector k) k where
  connecting := rfl
  scanner := .inl rfl
  pulse := .inl rfl
  watchdog := .inr ⟨rfl, hpulse⟩
  closing := ⟨hclosing, by simp [hclosing]⟩
  closers := by
    refine ⟨_, rfl, fun _ => hpulse.symm, fun _ => .inr ?_⟩
    exact Slot.current_take _

theorem closes_stopPulse (connector : Bool) (k : ι) {r : Runner ι} (hclosing : r.closing = true) :
    Closes r (r.stopPulse connector k) k := by
  unfold Runner.stopPulse
  cases hpulse : r.pulse.current with
  | none => exact closes_stopWatchdog connector hclosing (.inl hpulse)
  | some pulse =>
    refine ⟨rfl, .inl rfl, .inr rfl, .inl rfl, ⟨hclosing, by simp [hclosing]⟩, .stopping pulse, rfl, fun _ => .inr ?_,
      by simp [Closer.pastWatchdog]⟩
    exact Slot.current_take _

theorem stopPulse_scanner (connector : Bool) (k : ι) (r : Runner ι) :
    (r.stopPulse connector k).scanner = r.scanner := by
  unfold Runner.stopPulse
  cases r.pulse.current <;> rfl

theorem closes_close {connector : Bool} {r r' : Runner ι} {k : ι} {tasks : Bool}
    (hidle : r.closing = false → ∀ k, r.closers k = .idle) (h : r.close connector k tasks = some r') :
    Closes r r' k := by
  have hclosing : r.closers k ≠ .idle → r.closing = true := fun hne =>
    by_contra fun hopen => hne (hidle (by simpa using hopen) k)
  unfold Runner.close at h
  cases hcloser : r.closers k with
  | idle =>
    simp only [hcloser] at h
    split_ifs at h
    · obtain rfl := Option.some.inj h
      exact ⟨rfl, .inr rfl, .inl rfl, .inl rfl, ⟨rfl, fun _ => Slot.current_take _⟩, .waiting r.scanner.current, rfl,
        by simp [Closer.pastPulse], by simp [Closer.pastWatchdog]⟩
    · obtain rfl := Option.some.inj h
      obtain ⟨hconnecting, -, hpulse, hwatchdog, ⟨hopen, -⟩, hclosers⟩ :=
        closes_stopPulse connector k (r := { r with closing := true, scanner := r.scanner.take }) rfl
      have hscanner := stopPulse_scanner connector k { r with closing := true, scanner := r.scanner.take }
      exact ⟨hconnecting, .inr hscanner, hpulse, hwatchdog,
        ⟨hopen, fun _ => by rw [hscanner]; exact Slot.current_take _⟩, hclosers⟩
  | waiting scanner =>
    simp only [hcloser] at h
    split_ifs at h
    obtain rfl := Option.some.inj h
    exact closes_stopPulse connector k (hclosing (by simp [hcloser]))
  | stopping pulse =>
    simp only [hcloser] at h
    split_ifs at h
    obtain rfl := Option.some.inj h
    exact closes_stopWatchdog connector (hclosing (by simp [hcloser])) (.inr (by rw [hcloser]; rfl))
  | disconnecting =>
    simp only [hcloser, Option.some.injEq] at h
    subst h
    have hopen := hclosing (by simp [hcloser])
    exact ⟨rfl, .inl rfl, .inl rfl, .inl rfl, ⟨hopen, by simp [hopen]⟩, .closed, rfl,
      fun _ => .inl (by rw [hcloser]; rfl), fun _ => .inl (by rw [hcloser]; rfl)⟩
  | closed => simp [hcloser] at h
  | cancelled => simp [hcloser] at h

/-! ## Every step -/

theorem Closes.cleared {r r' : Runner ι} {k : ι} (hcloses : Closes r r' k) (h : Cleared r) : Cleared r' := by
  have hnone : ∀ {slot slot' : Slot}, slot' = slot ∨ slot' = slot.take → slot.current = none →
      slot'.current = none := by
    rintro slot slot' (rfl | rfl) hslot
    · exact hslot
    · exact Slot.current_take _
  have hwatchdog : r'.watchdog = r.watchdog ∨ r'.watchdog = r.watchdog.take := hcloses.watchdog.imp_right And.left
  obtain ⟨c, hclosers, hpulseTaken, hwatchdogTaken⟩ := hcloses.closers
  refine ⟨fun _ => ?_, fun j hpast => ?_, fun j hpast => ?_⟩
  · cases hclosing : r.closing with
    | false => exact hcloses.closing.2 hclosing
    | true => exact hnone hcloses.scanner (h.scanner hclosing)
  · rw [hclosers] at hpast
    by_cases hj : j = k
    · subst hj
      rw [Function.update_self] at hpast
      rcases hpulseTaken hpast with hbefore | htaken
      · exact hnone hcloses.pulse (h.pulse j hbefore)
      · exact htaken
    · rw [Function.update_of_ne hj] at hpast
      exact hnone hcloses.pulse (h.pulse j hpast)
  · rw [hclosers] at hpast
    by_cases hj : j = k
    · subst hj
      rw [Function.update_self] at hpast
      rcases hwatchdogTaken hpast with hbefore | htaken
      · exact hnone hwatchdog (h.watchdog j hbefore)
      · exact htaken
    · rw [Function.update_of_ne hj] at hpast
      exact hnone hwatchdog (h.watchdog j hpast)

theorem sound_closes {r r' : Runner ι} {k : ι} (h : Sound r) (hcloses : Closes r r' k) : Sound r' := by
  have howned : ∀ {slot slot' : Slot}, slot' = slot ∨ slot' = slot.take → slot.Owned → slot'.Owned := by
    rintro slot slot' (rfl | rfl) hslot
    · exact hslot
    · exact hslot.take
  refine ⟨howned hcloses.scanner h.scanner, howned hcloses.pulse h.pulse,
    howned (hcloses.watchdog.imp_right And.left) h.watchdog, by simp [hcloses.closing.1], fun hconnecting => ?_, ?_⟩
  · rw [hcloses.connecting] at hconnecting
    exact hcloses.cleared (h.cleared hconnecting)
  · rintro (hconnecting | hopen) hnone
    · rw [hcloses.connecting] at hconnecting
      have hkept : r.pulse.current = none → r'.pulse.current = none := by
        rcases hcloses.pulse with hpulse | hpulse <;> rw [hpulse]
        · exact id
        · exact fun _ => Slot.current_take _
      rcases hcloses.watchdog with hwatchdog | ⟨-, htaken | hpast⟩
      · rw [hwatchdog] at hnone
        exact hkept (h.paired (.inl hconnecting) hnone)
      · exact htaken
      · exact hkept ((h.cleared hconnecting).pulse k hpast)
    · simp [hcloses.closing.1] at hopen

/-- A call of `aclose` that is cancelled takes nothing any more. -/
theorem cleared_cancelled {r : Runner ι} (h : Cleared r) (k : ι) : Cleared (r.setCloser k .cancelled) := by
  have hpast : ∀ j (past : Closer → Bool), past .cancelled = false →
      past (Function.update r.closers k .cancelled j) = true → past (r.closers j) = true := by
    intro j past hcancelled hj
    by_cases heq : j = k
    · subst heq
      simp [hcancelled] at hj
    · rwa [Function.update_of_ne heq] at hj
  exact ⟨h.scanner, fun j hj => h.pulse j (hpast j Closer.pastPulse rfl hj),
    fun j hj => h.watchdog j (hpast j Closer.pastWatchdog rfl hj)⟩

theorem cancelClose_eq_some {connector : Bool} {r r' : Runner ι} {k : ι}
    (hstep : step connector r (.cancelClose k) = some r') : r.closers k ≠ .idle ∧ r' = r.setCloser k .cancelled := by
  cases hcloser : r.closers k <;> simp only [step, hcloser, Option.some.injEq, reduceCtorEq] at hstep
  all_goals exact ⟨by simp, hstep.symm⟩

theorem sound_step {connector : Bool} {r r' : Runner ι} {l : Label ι} (h : Sound r)
    (hstep : step connector r l = some r') : Sound r' := by
  cases l with
  | start suspends =>
    simp only [step] at hstep
    split_ifs at hstep with hconnecting hclosed hsuspends
    · obtain rfl := Option.some.inj hstep
      exact h
    all_goals
      obtain rfl := Option.some.inj hstep
      have hopen : r.closing = false := by
        by_contra hne
        simp [hne] at hclosed
    · exact ⟨h.scanner, h.pulse, h.watchdog, h.idle, fun _ => cleared_of_open hopen (h.idle hopen),
        fun _ => h.paired (.inr hopen)⟩
    · have heta : { r with connecting := false } = r := by
        cases r
        simpa using hconnecting
      have hcreate := sound_create h (.inr hopen)
      rwa [heta] at hcreate
  | connected ok =>
    simp only [step] at hstep
    split_ifs at hstep with hconnecting hok
    · obtain rfl := Option.some.inj hstep
      exact sound_create h (.inl hconnecting)
    · obtain rfl := Option.some.inj hstep
      exact ⟨h.scanner, h.pulse, h.watchdog, h.idle, by simp, fun _ => h.paired (.inl hconnecting)⟩
  | close k tasks => exact sound_closes h (closes_close h.idle hstep)
  | cancelClose k =>
    obtain ⟨hbegun, rfl⟩ := cancelClose_eq_some hstep
    exact ⟨h.scanner, h.pulse, h.watchdog, fun hopen => absurd (h.idle hopen k) hbegun,
      fun hconnecting => cleared_cancelled (h.cleared hconnecting) k, h.paired⟩
  | scannerEnds n =>
    obtain rfl := Option.some.inj hstep
    exact ⟨h.scanner.finish n, h.pulse, h.watchdog, h.idle,
      fun hconnecting => ⟨(h.cleared hconnecting).scanner, (h.cleared hconnecting).pulse,
        (h.cleared hconnecting).watchdog⟩, h.paired⟩
  | pulseEnds n =>
    obtain rfl := Option.some.inj hstep
    exact ⟨h.scanner, h.pulse.finish n, h.watchdog, h.idle,
      fun hconnecting => ⟨(h.cleared hconnecting).scanner, (h.cleared hconnecting).pulse,
        (h.cleared hconnecting).watchdog⟩, h.paired⟩
  | stall =>
    obtain rfl := Option.some.inj hstep
    exact ⟨h.scanner, h.pulse, h.watchdog, h.idle,
      fun hconnecting => ⟨(h.cleared hconnecting).scanner, (h.cleared hconnecting).pulse,
        (h.cleared hconnecting).watchdog⟩, h.paired⟩

/-- Only a late `start` brings something back. -/
theorem cleared_step {connector : Bool} {r r' : Runner ι} {l : Label ι} (hsound : Sound r) (h : Cleared r)
    (hlate : ¬ IsLate r l) (hstep : step connector r l = some r') : Cleared r' := by
  have hcreated : ∀ {r : Runner ι}, r.closing = false → (∀ k, r.closers k = .idle) → Cleared r.create := by
    intro r hopen hidle
    obtain ⟨hclosing, -, hclosers⟩ := r.create_frame
    exact cleared_of_open (hclosing.trans hopen) (by rw [hclosers]; exact hidle)
  cases l with
  | start suspends =>
    simp only [step] at hstep
    split_ifs at hstep with hconnecting hclosed hsuspends
    · obtain rfl := Option.some.inj hstep
      exact h
    all_goals
      obtain rfl := Option.some.inj hstep
      have hopen : r.closing = false := by
        by_contra hne
        simp [hne] at hclosed
    · exact ⟨h.scanner, h.pulse, h.watchdog⟩
    · exact hcreated hopen (hsound.idle hopen)
  | connected ok =>
    simp only [step] at hstep
    split_ifs at hstep with hconnecting hok
    · obtain rfl := Option.some.inj hstep
      have hopen : r.closing = false := by
        by_contra hne
        exact hlate ⟨by simpa using hne, by rw [hok]⟩
      exact hcreated (r := { r with connecting := false }) hopen (hsound.idle hopen)
    · obtain rfl := Option.some.inj hstep
      exact ⟨h.scanner, h.pulse, h.watchdog⟩
  | close k tasks => exact (closes_close hsound.idle hstep).cleared h
  | cancelClose k =>
    obtain ⟨-, rfl⟩ := cancelClose_eq_some hstep
    exact cleared_cancelled h k
  | scannerEnds n | pulseEnds n | stall =>
    obtain rfl := Option.some.inj hstep
    exact ⟨h.scanner, h.pulse, h.watchdog⟩

/-- Scanner `n` is what a late `start` has left; it runs unless it has ended by itself. -/
structure Left (n : ℕ) (after : List (Label ι)) (r : Runner ι) : Prop where
  closing : r.closing = true
  connecting : r.connecting = false
  current : r.scanner.current = some n
  ended : r.scanner.isDone n = true → .scannerEnds n ∈ after

/-- A `start` that is late leaves a scanner. -/
theorem left_of_late {connector : Bool} {r r' : Runner ι} {l : Label ι} (hlate : IsLate r l)
    (hstep : step connector r l = some r') : ∃ n, Left n [] r' := by
  obtain ⟨hclosing, rfl⟩ := hlate
  simp only [step] at hstep
  split_ifs at hstep
  obtain rfl := Option.some.inj hstep
  obtain ⟨hcreated, hconnecting, -⟩ := Runner.create_frame { r with connecting := false }
  obtain ⟨n, hcurrent, hruns⟩ := Runner.create_scanner { r with connecting := false }
  exact ⟨n, hcreated.trans hclosing, hconnecting, hcurrent, by simp [hruns]⟩

/-- A call of `aclose` takes the scanner in its first step only. -/
theorem scanner_close {connector : Bool} {r r' : Runner ι} {k : ι} {tasks : Bool} (hbegun : r.closers k ≠ .idle)
    (h : r.close connector k tasks = some r') : r'.scanner = r.scanner := by
  unfold Runner.close at h
  cases hcloser : r.closers k with
  | idle => exact absurd hcloser hbegun
  | waiting scanner =>
    simp only [hcloser] at h
    split_ifs at h
    obtain rfl := Option.some.inj h
    exact stopPulse_scanner connector k r
  | stopping pulse =>
    simp only [hcloser] at h
    split_ifs at h
    obtain rfl := Option.some.inj h
    rfl
  | disconnecting =>
    simp only [hcloser, Option.some.injEq] at h
    subst h
    rfl
  | closed => simp [hcloser] at h
  | cancelled => simp [hcloser] at h

/-- What a late `start` has left stays until `aclose` is called again. -/
theorem left_step {connector : Bool} {n : ℕ} {after : List (Label ι)} {r r' : Runner ι} {l : Label ι}
    (hsound : Sound r) (h : Left n after r) (hbegins : ¬ Begins r l) (hstep : step connector r l = some r') :
    Left n (after ++ [l]) r' := by
  have hlater : r.scanner.isDone n = true → .scannerEnds n ∈ after ++ [l] := fun hdone =>
    List.mem_append_left _ (h.ended hdone)
  cases l with
  | start suspends =>
    simp only [step, h.closing, h.connecting, Bool.false_eq_true, Bool.true_or, if_true, if_false,
      Option.some.injEq] at hstep
    subst hstep
    exact ⟨h.closing, h.connecting, h.current, hlater⟩
  | connected ok => simp [step, h.connecting] at hstep
  | close k tasks =>
    have hcloses := closes_close hsound.idle hstep
    have hscanner := scanner_close hbegins hstep
    exact ⟨hcloses.closing.1, hcloses.connecting.trans h.connecting, by rw [hscanner]; exact h.current,
      by rw [hscanner]; exact hlater⟩
  | cancelClose k =>
    obtain ⟨-, rfl⟩ := cancelClose_eq_some hstep
    exact ⟨h.closing, h.connecting, h.current, hlater⟩
  | scannerEnds m =>
    obtain rfl := Option.some.inj hstep
    refine ⟨h.closing, h.connecting, h.current, fun hdone => ?_⟩
    rcases Slot.isDone_finish hdone with rfl | hbefore
    · simp
    · exact hlater hbefore
  | pulseEnds m | stall =>
    obtain rfl := Option.some.inj hstep
    exact ⟨h.closing, h.connecting, h.current, hlater⟩

/-- A client that is there already makes no `start` wait. -/
theorem connecting_step {r r' : Runner ι} {l : Label ι} (hsound : Sound r) (h : r.connecting = false)
    (hstep : step false r l = some r') : r'.connecting = false := by
  cases l with
  | start suspends =>
    simp only [step, h, Bool.false_and, Bool.false_eq_true, if_false] at hstep
    split_ifs at hstep
    · obtain rfl := Option.some.inj hstep
      exact h
    · obtain rfl := Option.some.inj hstep
      rw [(Runner.create_frame r).2.1]
      exact h
  | connected ok => simp [step, h] at hstep
  | close k tasks => exact (closes_close hsound.idle hstep).connecting.trans h
  | cancelClose k =>
    obtain ⟨-, rfl⟩ := cancelClose_eq_some hstep
    exact h
  | scannerEnds n | pulseEnds n | stall =>
    obtain rfl := Option.some.inj hstep
    exact h

/-- In every run at most one scanner, pulse task and watchdog has neither ended nor been asked to. While no `start` is
late, none is left by a call of `aclose` that has returned; with a client that needs no `connect` no `start` is ever
late; and a late `start` leaves a scanner that nobody asks to end until `aclose` is called again, whatever the calls
of `aclose` that have begun go on to do. -/
theorem shared_of_exec (connector : Bool) {labels : List (Label ι)} {r : Runner ι}
    (hexec : Machine.exec (step connector) .init labels = some r) :
    (r.scanner.Owned ∧ r.pulse.Owned ∧ r.watchdog.Owned) ∧
    (Machine.AllSteps (step connector) (fun r l => ¬ IsLate r l) .init labels →
      ∀ k, r.closers k = .closed → Released r) ∧
    (connector = false → Machine.AllSteps (step connector) (fun r l => ¬ IsLate r l) .init labels) ∧
    ∀ before l after r₀ r₁, labels = before ++ l :: after → Machine.exec (step connector) .init before = some r₀ →
      IsLate r₀ l → step connector r₀ l = some r₁ →
      Machine.AllSteps (step connector) (fun r l => ¬ Begins r l) r₁ after →
      ∃ n task, r.scanner.current = some n ∧ r.scanner.tasks[n]? = some task ∧ task.cancelled = false ∧
        (task.done = true → .scannerEnds n ∈ after) := by
  have hsound : Sound r := Machine.exec_invariant (fun _ _ _ h hstep => sound_step h hstep) sound_init hexec
  refine ⟨⟨hsound.scanner, hsound.pulse, hsound.watchdog⟩, fun hlate k hclosed => ?_, fun hplain => ?_, ?_⟩
  · have hcleared : Cleared r := (Machine.exec_invariant_of_allSteps (p := fun r => Sound r ∧ Cleared r)
      (fun _ _ _ h hl hstep => ⟨sound_step h.1 hstep, cleared_step h.1 h.2 hl hstep⟩)
      ⟨sound_init, cleared_of_open rfl fun _ => rfl⟩ hlate hexec).2
    have hclosing : r.closing = true := by
      by_contra hopen
      simp [hsound.idle (by simpa using hopen) k] at hclosed
    have hscanner := hcleared.scanner hclosing
    have hpulse := hcleared.pulse k (by rw [hclosed]; rfl)
    have hwatchdog := hcleared.watchdog k (by rw [hclosed]; rfl)
    exact ⟨⟨hscanner, hsound.scanner.released hscanner⟩, ⟨hpulse, hsound.pulse.released hpulse⟩,
      ⟨hwatchdog, hsound.watchdog.released hwatchdog⟩⟩
  · subst hplain
    refine Machine.allSteps_of_allStates (p := fun r => Sound r ∧ r.connecting = false) ?_ hexec
      (Machine.allStates_of_invariant (fun _ _ _ h hstep => ⟨sound_step h.1 hstep, connecting_step h.1 h.2 hstep⟩)
        labels ⟨sound_init, rfl⟩)
    rintro r l r' ⟨-, hconnecting⟩ hstep - ⟨-, rfl⟩
    simp [step, hconnecting] at hstep
  · rintro before l after r₀ r₁ rfl hbefore hlate hstep hafter
    have hr₁ : Sound r₁ := sound_step (Machine.exec_invariant (fun _ _ _ h hstep => sound_step h hstep) sound_init
      hbefore) hstep
    rw [Machine.exec_append, hbefore, Option.bind_some, Machine.exec, hstep, Option.bind_some] at hexec
    obtain ⟨n, hleft⟩ := left_of_late hlate hstep
    have hkept : Sound r ∧ Left n after r := Machine.exec_history_of_allSteps
      (p := fun after r => Sound r ∧ Left n after r) ⟨hr₁, hleft⟩
      (fun _ _ _ _ h hbegins hstep => ⟨sound_step h.1 hstep, left_step h.1 h.2 hbegins hstep⟩) hafter hexec
    obtain ⟨task, htask, hcancelled⟩ := hsound.scanner.current n hkept.2.current
    exact ⟨n, task, hkept.2.current, htask, hcancelled, fun hdone => hkept.2.ended (by simp [Slot.isDone, htask, hdone])⟩

end

/-- A `start` comes back from `connect` while `aclose` waits for the execute tasks. -/
def lateStart : List (Label ℕ) :=
  [.start true, .close 0 true, .connected true, .close 0 true, .pulseEnds 0, .close 0 true, .close 0 true]

theorem shared_of_exec_lateStart :
    ∃ r, Machine.exec (step true) .init lateStart = some r ∧ r.closers 0 = .closed ∧
      ∃ n task, r.scanner.current = some n ∧ r.scanner.tasks[n]? = some task ∧ task.cancelled = false ∧
        task.done = false := by
  have hclosed : (Machine.exec (step true) .init lateStart).map (fun r => r.closers 0) = some .closed := by decide
  obtain ⟨r, hr, hcloser⟩ := Option.map_eq_some_iff.mp hclosed
  obtain ⟨n, task, hcurrent, htask, hcancelled, hended⟩ := (shared_of_exec true hr).2.2.2 (lateStart.take 2)
    (.connected true) (lateStart.drop 3) _ _ rfl rfl ⟨rfl, rfl⟩ rfl
    (by decide)
  exact ⟨r, hr, hcloser, n, task, hcurrent, htask, hcancelled, by simpa [lateStart] using hended⟩

end AgentUE.PythonRunner.Shared
