import Bytebeat.Frame

/-!
# Wave files

A RIFF file of 16-bit stereo samples: a header of 44 bytes and four bytes for
each frame. All numbers are little-endian, and both size fields have 32 bits.
-/

namespace Bytebeat.Wav

inductive Error where
  /-- The size fields cannot hold so many frames. -/
  | tooLong (frames : Nat)
  /-- The header cannot hold the rate of bytes. -/
  | rateTooHigh (sampleRate : UInt32)
  /-- The space to write to ran out. -/
  | noRoom
  deriving DecidableEq, Repr

def Error.message : Error → String
  | tooLong frames => s!"{frames} frames do not fit in a WAV file"
  | rateTooHigh sampleRate => s!"sample rate {sampleRate.toNat} Hz is too high for a WAV header"
  | noRoom => "failed to write whole buffer"

def channels : Nat := 2

def bitsPerSample : Nat := 16

/-- Bytes in a frame. -/
def blockAlign : Nat := channels * (bitsPerSample / 8)

/-- Bytes of the header after its size field. -/
def headerRest : Nat := 36

def maxFrames : Nat := (UInt32.size - 1 - headerRest) / blockAlign

/-- The lowest `width` bytes of `n`, the least significant first. -/
def littleEndian : (width : Nat) → (n : Nat) → List UInt8
  | 0, _ => []
  | width + 1, n => UInt8.ofNat n :: littleEndian width (n / 256)

def tag (s : String) : List UInt8 := s.toList.map fun c => UInt8.ofNat c.toNat

def header (frames : Nat) (sampleRate : UInt32) : List UInt8 :=
  let data := frames * blockAlign
  tag "RIFF" ++ littleEndian 4 (headerRest + data) ++ tag "WAVE" ++
    tag "fmt " ++ littleEndian 4 16 ++ littleEndian 2 1 ++ littleEndian 2 channels ++
    littleEndian 4 sampleRate.toNat ++ littleEndian 4 (sampleRate.toNat * blockAlign) ++
    littleEndian 2 blockAlign ++ littleEndian 2 bitsPerSample ++
    tag "data" ++ littleEndian 4 data

/-- The bytes of one frame, left before right. -/
def frameBytes (f : Frame) : List UInt8 :=
  littleEndian 2 f.left.toUInt16.toNat ++ littleEndian 2 f.right.toUInt16.toNat

def encode (frames : List Frame) (sampleRate : UInt32) : Except Error (List UInt8) :=
  if maxFrames < frames.length then .error (.tooLong frames.length)
  else if UInt32.size ≤ sampleRate.toNat * blockAlign then .error (.rateTooHigh sampleRate)
  else .ok (header frames.length sampleRate ++ frames.flatMap frameBytes)

/-- Writes the file to where there is room for `room` bytes: the bytes written, which are those
that fit, and the error if there was one. -/
def write (room : Nat) (frames : List Frame) (sampleRate : UInt32) : List UInt8 × Option Error :=
  match encode frames sampleRate with
  | .error e => ([], some e)
  | .ok bytes => (bytes.take room, if room < bytes.length then some .noRoom else none)

end Bytebeat.Wav
