import Bytebeat.Token

/-!
# Inputs of an evaluation

The values an expression reads beside its literals: four channels and the
clock's readings.
-/

namespace Bytebeat

structure Globals where
  freeSeconds : Float := 0
  freeSamples : Float := 0
  positionSeconds : Float := 0
  positionSamples : Float := 0
  noteSeconds : Float := 0
  noteSamples : Float := 0
  notePhase : Float := 0
  byteTime : Float := 0
  noteFrequency : Float := 0
  sampleRate : Float := 0
  beatsPerSecond : Float := 0
  deriving DecidableEq, Repr

def Globals.get (g : Globals) : Reading → Float
  | .freeSeconds => g.freeSeconds
  | .freeSamples => g.freeSamples
  | .positionSeconds => g.positionSeconds
  | .positionSamples => g.positionSamples
  | .noteSeconds => g.noteSeconds
  | .noteSamples => g.noteSamples
  | .notePhase => g.notePhase
  | .byteTime => g.byteTime
  | .noteFrequency => g.noteFrequency
  | .sampleRate => g.sampleRate
  | .beatsPerSecond => g.beatsPerSecond

structure Inputs where
  channels : Vector Float 4 := #v[0, 0, 0, 0]
  globals : Globals := {}
  deriving DecidableEq, Repr

end Bytebeat
