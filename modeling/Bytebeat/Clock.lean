import Bytebeat.Inputs

/-!
# The clock

Eight counters that advance once per sample: free-running, relative to the
host's position and relative to the note. The amounts they advance by depend on
the sample rate and the note frequency and are kept beside them.
-/

namespace Bytebeat

/-- Ticks of byte time in a second. -/
def byteTimeRate : Float := 8000

/-- Steps of the note phase in one cycle of the note. -/
def phaseSteps : Float := 256

structure Transport where
  playing : Bool := false
  beatsPerSecond : Float := 0
  freeSeconds : Float := 0
  freeSamples : Float := 0
  positionSeconds : Float := 0
  positionSamples : Float := 0
  deriving DecidableEq, Repr

structure Clock where
  globals : Globals := {}
  /-- Whether the host plays, so that the position counters advance. -/
  playing : Bool := false
  secondsPerSample : Float := 0
  ticksPerSample : Float := 0
  phasePerSample : Float := 0
  deriving DecidableEq, Repr

namespace Clock

/-- Sets every counter back and adopts a sample rate. -/
def prepare (c : Clock) (sampleRate : Float) : Clock :=
  let noteFrequency := c.globals.noteFrequency
  { c with
    globals := { sampleRate, noteFrequency, beatsPerSecond := c.globals.beatsPerSecond }
    secondsPerSample := 1 / sampleRate
    ticksPerSample := byteTimeRate / sampleRate
    phasePerSample := noteFrequency * phaseSteps / sampleRate }

def ofSampleRate (sampleRate : Float) : Clock := ({} : Clock).prepare sampleRate

/-- Sets the note's counters back and adopts its frequency. -/
def startNote (c : Clock) (frequency : Float) : Clock :=
  { c with
    globals := { c.globals with
      noteSeconds := 0
      noteSamples := 0
      notePhase := 0
      byteTime := 0
      noteFrequency := frequency }
    phasePerSample := frequency * phaseSteps / c.globals.sampleRate }

def sync (c : Clock) (t : Transport) : Clock :=
  { c with
    playing := t.playing
    globals := { c.globals with
      beatsPerSecond := t.beatsPerSecond
      freeSeconds := t.freeSeconds
      freeSamples := t.freeSamples
      positionSeconds := t.positionSeconds
      positionSamples := t.positionSamples } }

def advance (c : Clock) : Clock :=
  let g := c.globals
  { c with
    globals := { g with
      freeSeconds := g.freeSeconds + c.secondsPerSample
      freeSamples := g.freeSamples + 1
      positionSeconds :=
        if c.playing then g.positionSeconds + c.secondsPerSample else g.positionSeconds
      positionSamples := if c.playing then g.positionSamples + 1 else g.positionSamples
      noteSeconds := g.noteSeconds + c.secondsPerSample
      noteSamples := g.noteSamples + 1
      notePhase := g.notePhase + c.phasePerSample
      byteTime := g.byteTime + c.ticksPerSample } }

end Clock

end Bytebeat
