import Bytebeat.Proofs.Actions
import Bytebeat.Proofs.Truncation

/-!
# Files that are refused

A file is refused for its duration before anything is rendered, or for the
sample rate once its frames exist, but never for the number of its frames
(`Session.renderWav_eq_error`). So a file that is refused changes nothing at a
rate that a header can hold (`Session.renderWav_refused`); at a higher one its
frames are missing from what is rendered next (`Session.refused_renderWav_heard`).
-/

namespace Bytebeat

/-! ## Files -/

theorem Player.size_renderAfter (p : Player) (done : Array Frame) (count : Nat) :
    (p.renderAfter done count).1.size = done.size + count := by
  induction count generalizing p done with
  | zero => rfl
  | succ count ih => rw [renderAfter, ih, Array.size_push, Nat.add_right_comm, Nat.add_assoc]

namespace Session

variable {s : Session} {seconds : Float} {e : SessionError}

theorem size_renderFrames_le (s : Session) (count : Nat) :
    (s.renderFrames count).1.size ≤ count := by
  rw [renderFrames]
  split
  · exact Nat.zero_le count
  · exact Nat.le_of_eq ((Player.size_renderAfter _ _ _).trans (Nat.zero_add count))

theorem sampleRate_renderFrames (s : Session) (count : Nat) :
    (s.renderFrames count).2.sampleRate = s.sampleRate := by
  rw [renderFrames]
  split <;> rfl

theorem frames_le_maxFrames {count : Float} (h : count ≤ Float.ofNat Wav.maxFrames) :
    count.toUInt64.toNat ≤ Wav.maxFrames :=
  have hmax : (Float.ofNat Wav.maxFrames).toModel.unpack =
      .finite .positive (Wav.maxFrames * 2 ^ 23) (-(23 : Nat)) (by decide) := rfl
  Double.toNat_toUInt64_le hmax (by decide) h

/-- **A file that is refused** is either refused for its duration, before anything is rendered, or
for the sample rate, once its frames have been rendered. -/
theorem renderWav_eq_error (h : (s.renderWav seconds).1 = .error e) :
    e = .invalidDuration seconds ∧ (s.renderWav seconds).2 = s ∨
      e = .wav (.rateTooHigh s.sampleRate) ∧
        UInt32.size ≤ s.sampleRate.toNat * Wav.blockAlign ∧
        ∃ count ≤ Wav.maxFrames, (s.renderWav seconds).2 = (s.renderFrames count).2 := by
  simp only [renderWav] at h ⊢
  split at h
  · rename_i hduration
    rw [if_pos hduration]
    have hcount := frames_le_maxFrames (of_decide_eq_true (Bool.and_eq_true_iff.1 hduration).2)
    have hframes := Nat.not_lt.2 (Nat.le_trans (s.size_renderFrames_le _) hcount)
    simp only [Wav.encode, Array.length_toList, if_neg hframes, sampleRate_renderFrames] at h
    split at h
    · rename_i hrate
      cases h
      exact .inr ⟨rfl, hrate, _, hcount, rfl⟩
    · cases h
  · rename_i hduration
    rw [if_neg hduration]
    cases h
    exact .inl ⟨rfl, rfl⟩

/-- At a sample rate that a header can hold, a file that is refused changes nothing. -/
theorem renderWav_refused (hrate : s.sampleRate.toNat * Wav.blockAlign < UInt32.size)
    (h : (s.renderWav seconds).1 = .error e) : (s.renderWav seconds).2 = s := by
  rcases renderWav_eq_error h with ⟨-, hsame⟩ | ⟨-, hhigh, -⟩
  · exact hsame
  · exact absurd hrate (Nat.not_lt.2 hhigh)

/-- At a sample rate that is too high, the frames that were rendered for the file are missing from
what is rendered next. -/
theorem refused_renderWav_heard : ∃ s, ofExpression "f" 1073741824 = .ok s ∧
    ∃ seconds, (s.renderWav seconds).1 = .error (.wav (.rateTooHigh 1073741824)) ∧
      (s.renderFrames 1).1 = #[.mono (-32767)] ∧
      ((s.renderWav seconds).2.renderFrames 1).1 = #[.mono (-32255)] := by
  have hsound : (Layout.ofPatch (.single "f") [0, 1]
      (Float.ofNat (ofSampleRate 1073741824).sampleRate.toNat)).Sound :=
    ⟨by decide +kernel, by decide +kernel⟩
  -- Two frames, at positions 0 and 1 of the clock.
  refine ⟨_, setPatch_eq_ok hsound rfl (List.pairwise_singleton _ 0),
    Float.ofBits 0x3e20000000000000, ?_, ?_, ?_⟩
  · decide +kernel
  · decide +kernel
  · decide +kernel

end Session

end Bytebeat
