import Bytebeat.Proofs.Notes

/-!
# Runs of a clock

Each call on a clock sets some of the eight counters, and a counter that is not
set moves on by its own amount or stays (`Clock.Steady.value_perform`). So
however the sample rate, the note and the transport change, a counter is what
it was last set to and so many equal steps more (`Clock.run_counters`): the
calls that change its step set it as well.
-/

namespace Bytebeat.Clock

/-! ## Calls and counters -/

inductive Call where
  | prepare (sampleRate : Float)
  | startNote (frequency : Float)
  | sync (t : Transport)
  | advance

def perform (c : Clock) : Call → Clock
  | .prepare sampleRate => c.prepare sampleRate
  | .startNote frequency => c.startNote frequency
  | .sync t => c.sync t
  | .advance => c.advance

def run (c : Clock) (calls : List Call) : Clock := calls.foldl perform c

inductive Counter where
  | freeSeconds
  | freeSamples
  | positionSeconds
  | positionSamples
  | noteSeconds
  | noteSamples
  | notePhase
  | byteTime
  deriving DecidableEq, Repr

/-- What a counter counts from. -/
inductive Origin where
  | free
  | position
  | note
  deriving DecidableEq, Repr

namespace Counter

def origin : Counter → Origin
  | freeSeconds | freeSamples => .free
  | positionSeconds | positionSamples => .position
  | noteSeconds | noteSamples | notePhase | byteTime => .note

def value (k : Counter) (g : Globals) : Float :=
  match k with
  | freeSeconds => g.freeSeconds
  | freeSamples => g.freeSamples
  | positionSeconds => g.positionSeconds
  | positionSamples => g.positionSamples
  | noteSeconds => g.noteSeconds
  | noteSamples => g.noteSamples
  | notePhase => g.notePhase
  | byteTime => g.byteTime

/-- What a counter moves on by with a sample, at a sample rate and a note frequency. -/
def increment (k : Counter) (g : Globals) : Float :=
  match k with
  | freeSeconds | positionSeconds | noteSeconds => 1 / g.sampleRate
  | freeSamples | positionSamples | noteSamples => 1
  | notePhase => g.noteFrequency * 256 / g.sampleRate
  | byteTime => 8000 / g.sampleRate

def reported? (t : Transport) : Counter → Option Float
  | freeSeconds => some t.freeSeconds
  | freeSamples => some t.freeSamples
  | positionSeconds => some t.positionSeconds
  | positionSamples => some t.positionSamples
  | noteSeconds | noteSamples | notePhase | byteTime => none

end Counter

namespace Call

/-- What a call sets a counter to. -/
def sets? (k : Counter) : Call → Option Float
  | prepare _ => some 0
  | startNote _ => if k.origin = .note then some 0 else none
  | sync t => k.reported? t
  | advance => none

/-- How often a call on the clock `c` moves a counter on. The position stands still unless the host
plays. -/
def moves (k : Counter) (c : Clock) : Call → Nat
  | advance => if k.origin = .position ∧ c.playing = false then 0 else 1
  | prepare _ | startNote _ | sync _ => 0

def sampleRate? : Call → Option Float
  | prepare sampleRate => some sampleRate
  | startNote _ | sync _ | advance => none

def frequency? : Call → Option Float
  | startNote frequency => some frequency
  | prepare _ | sync _ | advance => none

def beatsPerSecond? : Call → Option Float
  | sync t => some t.beatsPerSecond
  | prepare _ | startNote _ | advance => none

def playing? : Call → Option Bool
  | sync t => some t.playing
  | prepare _ | startNote _ | advance => none

end Call

/-- How often a row of calls on the clock `c` moves a counter on. -/
def steps (k : Counter) (c : Clock) : List Call → Nat
  | [] => 0
  | call :: calls => call.moves k c + steps k (c.perform call) calls

/-! ## One call -/

/-- The amounts to advance by are those of the sample rate and the note. -/
structure Steady (c : Clock) : Prop extends c.Paced where
  phase : c.phasePerSample = c.globals.noteFrequency * phaseSteps / c.globals.sampleRate

variable {c : Clock} {k : Counter} {call : Call}

theorem steady_prepare (c : Clock) (sampleRate : Float) : (c.prepare sampleRate).Steady :=
  ⟨⟨rfl, rfl⟩, rfl⟩

theorem Steady.perform (h : c.Steady) (call : Call) : (c.perform call).Steady := by
  cases call with
  | prepare sampleRate => exact c.steady_prepare sampleRate
  | startNote frequency => exact ⟨⟨h.seconds, h.ticks⟩, rfl⟩
  | sync t => exact ⟨⟨h.seconds, h.ticks⟩, h.phase⟩
  | advance => exact ⟨⟨h.seconds, h.ticks⟩, h.phase⟩

theorem value_perform_of_sets {v : Float} (h : call.sets? k = some v) :
    k.value (c.perform call).globals = v := by
  cases call with
  | advance => cases h
  | prepare sampleRate => cases h; cases k <;> rfl
  | startNote frequency =>
    rw [Call.sets?] at h
    cases k <;> cases h <;> rfl
  | sync t => cases k <;> cases h <;> rfl

theorem Steady.value_perform (hc : c.Steady) (h : call.sets? k = none) :
    k.value (c.perform call).globals =
      (· + k.increment c.globals)^[call.moves k c] (k.value c.globals) := by
  cases call with
  | prepare sampleRate => cases h
  | startNote frequency =>
    cases k with
    | noteSeconds | noteSamples | notePhase | byteTime => cases h
    | _ => rfl
  | sync t =>
    cases k with
    | freeSeconds | freeSamples | positionSeconds | positionSamples => cases h
    | _ => rfl
  | advance =>
    rw [Call.moves]
    split
    · rename_i hstill
      obtain ⟨hk, hstill⟩ := hstill
      cases k with
      | positionSeconds | positionSamples => exact if_neg (by rw [hstill]; decide)
      | _ => cases hk
    · rename_i hmoves
      have hplaying : k.origin = .position → c.playing = true := fun hk =>
        Bool.eq_true_of_not_eq_false fun hstill => hmoves ⟨hk, hstill⟩
      cases k with
      | freeSeconds | noteSeconds => exact congrArg (_ + ·) hc.seconds
      | positionSeconds => exact (if_pos (hplaying rfl)).trans (congrArg (_ + ·) hc.seconds)
      | positionSamples => exact if_pos (hplaying rfl)
      | freeSamples | noteSamples => rfl
      | notePhase => exact congrArg (_ + ·) hc.phase
      | byteTime => exact congrArg (_ + ·) hc.ticks

theorem increment_perform (h : call.sets? k = none) :
    k.increment (c.perform call).globals = k.increment c.globals := by
  cases call with
  | prepare sampleRate => cases h
  | startNote frequency =>
    cases k with
    | noteSeconds | noteSamples | notePhase | byteTime => cases h
    | _ => rfl
  | sync t | advance => cases k <;> rfl

/-! ## Rows of calls -/

theorem run_concat (c : Clock) (calls : List Call) (call : Call) :
    c.run (calls ++ [call]) = (c.run calls).perform call :=
  List.foldl_concat _ _ _ _

theorem steps_concat (k : Counter) (c : Clock) (calls : List Call) (call : Call) :
    steps k c (calls ++ [call]) = call.moves k (c.run calls) + steps k c calls := by
  induction calls generalizing c with
  | nil => rfl
  | cons first calls ih => rw [List.cons_append, steps, steps, ih, Nat.add_left_comm]; rfl

theorem steady_run (sampleRate : Float) (calls : List Call) :
    ((ofSampleRate sampleRate).run calls).Steady := by
  induction calls using List.reverseRecOn with
  | nil => exact steady_prepare _ _
  | append_singleton calls call ih => rw [run_concat]; exact ih.perform call

/-- What only some calls set is what was set last. -/
theorem run_eq_getLastD {α : Type} (get : Clock → α) {set? : Call → Option α}
    (h : ∀ c call, get (perform c call) = (set? call).getD (get c)) (c : Clock)
    (calls : List Call) : get (c.run calls) = (calls.filterMap set?).getLastD (get c) := by
  induction calls generalizing c with
  | nil => rfl
  | cons call calls ih =>
    have hrun : c.run (call :: calls) = (c.perform call).run calls := rfl
    rw [hrun, ih, h, List.filterMap_cons]
    cases set? call with
    | none => rfl
    | some a => exact List.getLastD_cons.symm

/-- A counter is what the last call that sets it sets it to, with the steps since then. -/
theorem exists_since (sampleRate : Float) (calls : List Call) (k : Counter) :
    let start := ofSampleRate sampleRate
    ∃ before since value, calls = before ++ since ∧
      before.getLast?.elim (some 0) (·.sets? k) = some value ∧
      (∀ call ∈ since, call.sets? k = none) ∧
      k.value (start.run calls).globals =
        (· + k.increment (start.run calls).globals)^[steps k (start.run before) since] value := by
  intro start
  induction calls using List.reverseRecOn with
  | nil => exact ⟨[], [], 0, rfl, rfl, nofun, by cases k <;> rfl⟩
  | append_singleton calls call ih =>
    rw [run_concat]
    -- The last call starts anew, or it is one more step at the amount of those before it.
    cases hset : call.sets? k with
    | some v =>
      refine ⟨calls ++ [call], [], v, (List.append_nil _).symm, ?_, nofun,
        value_perform_of_sets hset⟩
      rw [List.getLast?_concat]
      exact hset
    | none =>
      obtain ⟨before, since, v, rfl, hbefore, hsince, hvalue⟩ := ih
      refine ⟨before, since ++ [call], v, List.append_assoc _ _ _, hbefore, ?_, ?_⟩
      · exact List.forall_mem_append.2 ⟨hsince, List.forall_mem_singleton.2 hset⟩
      · have hrun : (start.run before).run since = start.run (before ++ since) :=
          List.foldl_append.symm
        rw [(steady_run sampleRate _).value_perform hset, increment_perform hset, hvalue,
          steps_concat, hrun, Function.iterate_add_apply]

/-- **Clocks stay consistent in every run.** The amounts to advance by are those of the sample rate
and the note frequency, which are what was set last, as are the beat and whether the host plays.
Each counter is what it was last set to, with one step of its own for each sample since (for the
position, for each sample played). A note changes the counters of the note, its frequency and the
step of its phase; a transport changes the other counters, the beat and whether the host plays, so
that it does not matter which of the two comes first; a new sample rate keeps the note frequency,
the beat and whether the host plays. -/
theorem run_counters (sampleRate : Float) (calls : List Call) :
    let start := ofSampleRate sampleRate
    let c := start.run calls
    (c.secondsPerSample = 1 / c.globals.sampleRate ∧
      c.ticksPerSample = 8000 / c.globals.sampleRate ∧
      c.phasePerSample = c.globals.noteFrequency * 256 / c.globals.sampleRate) ∧
    (c.globals.sampleRate = (calls.filterMap Call.sampleRate?).getLastD sampleRate ∧
      c.globals.noteFrequency = (calls.filterMap Call.frequency?).getLastD 0 ∧
      c.globals.beatsPerSecond = (calls.filterMap Call.beatsPerSecond?).getLastD 0 ∧
      c.playing = (calls.filterMap Call.playing?).getLastD false) ∧
    (∀ k : Counter, ∃ before since value, calls = before ++ since ∧
      before.getLast?.elim (some 0) (·.sets? k) = some value ∧
      (∀ call ∈ since, call.sets? k = none) ∧
      k.value c.globals =
        (· + k.increment c.globals)^[steps k (start.run before) since] value) ∧
    (∀ frequency, let c' := c.startNote frequency
      (∀ k : Counter, k.origin ≠ .note → k.value c'.globals = k.value c.globals) ∧
      c'.globals.sampleRate = c.globals.sampleRate ∧
      c'.globals.beatsPerSecond = c.globals.beatsPerSecond ∧ c'.playing = c.playing ∧
      c'.secondsPerSample = c.secondsPerSample ∧ c'.ticksPerSample = c.ticksPerSample) ∧
    (∀ t, let c' := c.sync t
      (∀ k : Counter, k.origin = .note → k.value c'.globals = k.value c.globals) ∧
      c'.globals.sampleRate = c.globals.sampleRate ∧
      c'.globals.noteFrequency = c.globals.noteFrequency ∧
      c'.secondsPerSample = c.secondsPerSample ∧ c'.ticksPerSample = c.ticksPerSample ∧
      c'.phasePerSample = c.phasePerSample) ∧
    (∀ frequency t, (c.startNote frequency).sync t = (c.sync t).startNote frequency) ∧
    ∀ sampleRate', let c' := c.prepare sampleRate'
      c'.globals.noteFrequency = c.globals.noteFrequency ∧
      c'.globals.beatsPerSecond = c.globals.beatsPerSecond ∧ c'.playing = c.playing := by
  intro start c
  have hsteady := steady_run sampleRate calls
  refine ⟨⟨hsteady.seconds, hsteady.ticks, hsteady.phase⟩, ⟨?_, ?_, ?_, ?_⟩,
    exists_since sampleRate calls, fun frequency => ⟨fun k hk => ?_, rfl, rfl, rfl, rfl, rfl⟩,
    fun t => ⟨fun k hk => ?_, rfl, rfl, rfl, rfl, rfl⟩, fun _ _ => rfl, fun _ => ⟨rfl, rfl, rfl⟩⟩
  · refine run_eq_getLastD (·.globals.sampleRate) (fun c call => ?_) start calls
    cases call <;> rfl
  · refine run_eq_getLastD (·.globals.noteFrequency) (fun c call => ?_) start calls
    cases call <;> rfl
  · refine run_eq_getLastD (·.globals.beatsPerSecond) (fun c call => ?_) start calls
    cases call <;> rfl
  · refine run_eq_getLastD (·.playing) (fun c call => ?_) start calls
    cases call <;> rfl
  · have hkept : (Call.startNote frequency).sets? k = none := if_neg hk
    exact hsteady.value_perform hkept
  · cases k with
    | freeSeconds | freeSamples | positionSeconds | positionSamples => cases hk
    | _ => rfl

end Bytebeat.Clock
