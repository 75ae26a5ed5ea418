import Bytebeat.CommandLine.Commands
import Bytebeat.Proofs.Durations
import Bytebeat.Proofs.Exports
import Bytebeat.Proofs.Files
import Bytebeat.Proofs.Refinement
import Bytebeat.Proofs.Verdicts
import Bytebeat.Proofs.WaveFile

/-!
# Renderings are recorded

What a rendering records is the file of the frames that the reference plays
(`recording?`), and it can be recorded if its patch can be played, all of its
expressions compile and the file has room (`Recordable`). The command renders
before it writes anything, so that it comes down to one write or to none at all
(`run_render`); on a disk that writes a file as a whole or not at all, the file
is the recording or what it was (`recorded_or_unchanged`).
-/

namespace Bytebeat

def Reference.withNote (r : Reference) : Option Float → Reference
  | some frequency => { r with clock := r.clock.startNote frequency }
  | none => r

/-- The number of frames in a duration, computed as a double. -/
def frameCount (seconds : Float) (sampleRate : UInt32) : Float :=
  Float.ofNat sampleRate.toNat * seconds

theorem Reference.sampleRate_setPatch {r r' : Reference} {p : Patch} (h : r.setPatch p = .ok r') :
    r'.sampleRate = r.sampleRate := by
  unfold setPatch at h
  cases hwired : p.checkConnections with
  | error e => rw [hwired] at h; cases h
  | ok u =>
    cases hordered : p.order with
    | error e => rw [hwired, hordered] at h; cases h
    | ok order =>
      rw [hwired, hordered] at h
      cases h
      rfl

theorem Reference.sampleRate_withNote (r : Reference) (note : Option Float) :
    (r.withNote note).sampleRate = r.sampleRate := by
  cases note <;> rfl

theorem Reference.length_renderFrames (r : Reference) (count : Nat) :
    (r.renderFrames count).1.length = count := by
  induction count generalizing r with
  | zero => rfl
  | succ count ih => rw [renderFrames, List.length_cons, ih]

def Session.withNote (s : Session) : Option Float → Session
  | some frequency => s.startNote frequency
  | none => s

/-! ## What is recorded -/

namespace CommandLine

/-- The patch of a source: that of its expression, or the one that the text of its file loads to. -/
inductive Source.Gives (contents : String → Except DiskError (List UInt8)) :
    Source → Patch → Prop
  | expression (text : String) : Gives contents (.expression text) (.single text)
  | patchFile {path text : String} {patch : Patch} :
      decodeText (contents path) = .ok text → PatchFile.load text = .ok patch →
      Gives contents (.patchFile path) patch

/-- The source gives a patch that can be played, all of its expressions compile, and a file can
hold the frames and their rate. -/
structure Recordable (contents : String → Except DiskError (List UInt8)) (source : Source)
    (seconds : Float) (sampleRate : UInt32) (patch : Patch) : Prop where
  gives : source.Gives contents patch
  renderable : patch.Renderable
  compiles : ∀ edit ∈ patch.expressions, ∃ p, Program.compile edit.2 = .ok p
  hasRoom : Wav.HasRoom (frameCount seconds sampleRate)
  rate : 4 * sampleRate.toNat < 2 ^ 32

/-- The file of the first frames that a patch gives from a fresh start. -/
def recording? (patch : Patch) (seconds : Float) (sampleRate : UInt32) (note : Option Float) :
    Option (List UInt8) := do
  let r ← ((Reference.ofSampleRate sampleRate).setPatch patch).toOption
  let frames := ((r.withNote note).renderFrames ⌊Double.value (frameCount seconds sampleRate)⌋₊).1
  (Wav.encode frames sampleRate).toOption

variable {contents : String → Except DiskError (List UInt8)} {source : Source} {p q : Patch}

theorem Source.Gives.unique (hp : source.Gives contents p) (hq : source.Gives contents q) :
    p = q := by
  cases hp with
  | expression text => cases hq; rfl
  | patchFile hread hload =>
    cases hq with
    | patchFile hread' hload' =>
      rw [hread] at hread'
      cases hread'
      rw [hload] at hload'
      exact Except.ok.inj hload'

theorem Source.Gives.numbered (h : source.Gives contents p) : p.Numbered := by
  cases h with
  | expression text => exact Patch.numbered_ofKinds _ _
  | patchFile hread hload => exact PatchFile.numbered_of_load hload

end CommandLine

/-! ## Sessions to render from -/

namespace Session

variable {s : Session} {r : Reference} {p : Patch} {seconds : Float} {bytes : List UInt8}

theorem exists_setPatch_iff : (∃ s', s.setPatch p = .ok s') ↔ p.Renderable := by
  rw [setPatch]
  cases hplayer : Player.ofPatch p (Float.ofNat s.sampleRate.toNat) with
  | error e =>
    constructor
    · rintro ⟨_, hset⟩
      cases hset
    · intro h
      obtain ⟨order, hordered⟩ := h.toWired.exists_order_iff.2 h
      rw [Player.ofPatch_eq_ok_iff.2 ⟨h.toWired, order, hordered, rfl⟩] at hplayer
      cases hplayer
  | ok player =>
    obtain ⟨hwired, order, hordered, -⟩ := Player.ofPatch_eq_ok_iff.1 hplayer
    exact ⟨fun _ => hwired.exists_order_iff.1 ⟨order, hordered⟩, fun _ => ⟨_, rfl⟩⟩

theorem mapError_eq_ok_iff {ε ε' α : Type} {f : ε → ε'} {result : Except ε α} {a : α} :
    result.mapError f = .ok a ↔ result = .ok a :=
  ⟨eq_ok_of_mapError, fun h => by rw [h]; rfl⟩

theorem loadPatch_eq_ok_iff {text : String} {s' : Session} :
    s.loadPatch text = .ok s' ↔
      ∃ patch, PatchFile.load text = .ok patch ∧ s.setPatch patch = .ok s' := by
  unfold loadPatch
  cases PatchFile.load text with
  | error e => exact iff_of_false nofun fun ⟨_, hload, _⟩ => nomatch hload
  | ok patch =>
    refine mapError_eq_ok_iff.trans ⟨fun hset => ⟨patch, rfl, hset⟩, ?_⟩
    rintro ⟨_, ⟨⟩, hset⟩
    exact hset

theorem Refines.withNote (h : s.Refines r) (note : Option Float) :
    (s.withNote note).Refines (r.withNote note) := by
  cases note with
  | none => exact h
  | some frequency =>
    have howned : ¬s.lent = true := by
      obtain ⟨_, _, _, hf⟩ := h
      rw [hf.owned]
      exact Bool.false_ne_true
    rw [Session.withNote, startNote, if_neg howned]
    exact h.setClock (·.startNote frequency)

/-- A session gives the file of the frames that the reference plays, if there is room for them. -/
theorem Refines.renderWav_eq_ok_iff (h : s.Refines r) :
    (s.renderWav seconds).1 = .ok bytes ↔
      Wav.HasRoom (frameCount seconds r.sampleRate) ∧
        Wav.encode (r.renderFrames ⌊Double.value (frameCount seconds r.sampleRate)⌋₊).1
          r.sampleRate = .ok bytes := by
  have hrate : s.sampleRate = r.sampleRate := by
    obtain ⟨_, _, _, hf⟩ := h
    exact hf.sampleRate
  rw [← hrate]
  simp only [renderWav]
  split
  · rename_i hroom
    have hroom : Wav.HasRoom (frameCount seconds s.sampleRate) := Wav.hasRoom_iff.1 hroom
    have hcount : (Float.ofNat s.sampleRate.toNat * seconds).toUInt64.toNat =
        ⌊Double.value (frameCount seconds s.sampleRate)⌋₊ := hroom.toNat_toUInt64
    simp only [hcount, (h.renderFrames _).1, sampleRate_renderFrames, hroom, true_and]
    exact mapError_eq_ok_iff
  · rename_i hroom
    exact ⟨fun hfails => (by cases hfails), fun hok => absurd (Wav.hasRoom_iff.2 hok.1) hroom⟩

theorem exists_refines_of_setPatch {sampleRate : UInt32} (hp : p.Numbered)
    (hset : (ofSampleRate sampleRate).setPatch p = .ok s) :
    ∃ r, (Reference.ofSampleRate sampleRate).setPatch p = .ok r ∧ s.Refines r := by
  have halike := (refines_ofSampleRate sampleRate).setPatch hp
  rw [hset] at halike
  cases href : (Reference.ofSampleRate sampleRate).setPatch p with
  | error e => rw [href] at halike; cases halike
  | ok r =>
    rw [href] at halike
    cases halike with
    | ok hrefines => exact ⟨r, rfl, hrefines⟩

end Session

namespace CommandLine

section

variable {contents : String → Except DiskError (List UInt8)} {source : Source} {p : Patch}
  {seconds : Float} {sampleRate : UInt32} {session : Session} {bytes : List UInt8}

theorem isEmpty_invalidLines_iff {s : Session} (hp : p.Numbered)
    (hset : s.setPatch p = .ok session) :
    (invalidLines session).isEmpty = true ↔
      ∀ edit ∈ p.expressions, ∃ q, Program.compile edit.2 = .ok q := by
  have hsize : p.nodes.size ≤ UInt16.size := by
    have hr := Session.exists_setPatch_iff.1 ⟨session, hset⟩
    exact Nat.le_succ_of_le hr.size
  have hpatch : session.patch = p := Session.patch_setPatch hset
  rw [List.isEmpty_iff, invalidLines, List.filterMap_eq_nil_iff, hpatch]
  refine forall_congr' fun edit => imp_congr_right fun hedit => ?_
  have htext := (hp.mem_expressions_iff hsize).1 hedit
  have hvalid := (Session.judged_setPatch hp hset).isValid_iff edit.1
  rw [hpatch, htext] at hvalid
  cases hjudged : session.isValid edit.1 with
  | true =>
    obtain ⟨_, q, htext', hq⟩ := hvalid.1 hjudged
    cases htext'
    simp [hjudged, hq]
  | false =>
    simp only [hjudged, Bool.false_eq_true, if_false]
    refine iff_of_false nofun fun ⟨q, hq⟩ => ?_
    rw [hvalid.2 ⟨_, q, rfl, hq⟩] at hjudged
    cases hjudged

theorem toOption_eq_some_iff {ε α : Type} {x : Except ε α} {a : α} :
    x.toOption = some a ↔ x = .ok a := by
  cases x <;> simp [Except.toOption]

theorem renderWav_eq_ok_iff (hp : p.Numbered)
    (hset : (Session.ofSampleRate sampleRate).setPatch p = .ok session) (note : Option Float) :
    ((session.withNote note).renderWav seconds).1 = .ok bytes ↔
      Wav.HasRoom (frameCount seconds sampleRate) ∧
        recording? p seconds sampleRate note = some bytes := by
  obtain ⟨r, href, hrefines⟩ := Session.exists_refines_of_setPatch hp hset
  have hrate : r.sampleRate = sampleRate := Reference.sampleRate_setPatch href
  rw [(hrefines.withNote note).renderWav_eq_ok_iff, r.sampleRate_withNote, hrate, recording?,
    href]
  exact and_congr_right fun _ => toOption_eq_some_iff.symm

/-- There is a recording of a patch that can be played exactly if the header can hold the rate. -/
theorem exists_recording?_iff (hp : p.Numbered) (hr : p.Renderable)
    (hroom : Wav.HasRoom (frameCount seconds sampleRate)) (note : Option Float) :
    (∃ bytes, recording? p seconds sampleRate note = some bytes) ↔
      4 * sampleRate.toNat < 2 ^ 32 := by
  obtain ⟨session, hset⟩ :=
    Session.exists_setPatch_iff (s := Session.ofSampleRate sampleRate).2 hr
  obtain ⟨r, href, -⟩ := Session.exists_refines_of_setPatch hp hset
  have hframes := hroom.floor_le
  rw [← (r.withNote note).length_renderFrames ⌊_⌋₊] at hframes
  simp only [recording?, href]
  show (∃ bytes, (Wav.encode _ sampleRate).toOption = some bytes) ↔ _
  simp only [toOption_eq_some_iff]
  constructor
  · rintro ⟨bytes, hencode⟩
    exact (Wav.fits_of_encode hencode).2.1
  · intro hrate
    exact ⟨_, by rw [Wav.encode_eq hframes, if_neg (Nat.not_le.2 hrate)]⟩

/-- Something can be recorded if the session that the source gives has only valid expressions and
renders its file. -/
theorem recordable_iff (hgives : source.Gives contents p)
    (hset : (Session.ofSampleRate sampleRate).setPatch p = .ok session) (seconds : Float)
    (note : Option Float) :
    (∃ q, Recordable contents source seconds sampleRate q) ↔
      (invalidLines session).isEmpty = true ∧
        ∃ bytes, ((session.withNote note).renderWav seconds).1 = .ok bytes := by
  have hp := hgives.numbered
  have hr := Session.exists_setPatch_iff.1 ⟨session, hset⟩
  simp only [isEmpty_invalidLines_iff hp hset, renderWav_eq_ok_iff hp hset]
  constructor
  · rintro ⟨q, hq⟩
    obtain rfl := hgives.unique hq.gives
    obtain ⟨bytes, hbytes⟩ := (exists_recording?_iff hp hr hq.hasRoom note).2 hq.rate
    exact ⟨hq.compiles, bytes, hq.hasRoom, hbytes⟩
  · rintro ⟨hcompiles, bytes, hroom, hbytes⟩
    exact ⟨p, hgives, hr, hcompiles, hroom, (exists_recording?_iff hp hr hroom note).1 ⟨_, hbytes⟩⟩

end

/-! ## Runs of the command -/

variable {σ : Type} {disk : Disk (StateM σ)} {contents : σ → String → Except DiskError (List UInt8)}
  {out : String} {source : Source} {seconds : Float} {sampleRate : UInt32} {note : Option Float}

theorem run_bind_of_eq {α β : Type} {x : StateM σ α} {s s' : σ} {a : α} (h : x.run s = (a, s'))
    (f : α → StateM σ β) : (x >>= f).run s = (f a).run s' := by
  rw [StateT.run_bind, h]
  rfl

theorem run_openSource (hdisk : disk.Lawful contents out) (source : Source) (sampleRate : UInt32)
    (s : σ) : ∃ result, (openSource disk source sampleRate).run s = (result, s) ∧
      ∀ session, result = .ok session ↔ ∃ patch, source.Gives (contents s) patch ∧
        (Session.ofSampleRate sampleRate).setPatch patch = .ok session := by
  cases source with
  | expression text =>
    refine ⟨_, rfl, fun session => Session.mapError_eq_ok_iff.trans ⟨fun hset => ?_, ?_⟩⟩
    · exact ⟨_, .expression text, hset⟩
    · rintro ⟨_, ⟨⟩, hset⟩
      exact hset
  | patchFile path =>
    simp only [openSource, StateT.run_bind, hdisk.readText]
    cases hread : decodeText (contents s path) with
    | error e =>
      refine ⟨_, rfl, fun session => iff_of_false nofun fun ⟨_, hgives, _⟩ => ?_⟩
      cases hgives with
      | patchFile hread' _ => exact nomatch hread.symm.trans hread'
    | ok text =>
      refine ⟨_, rfl, fun session => Session.mapError_eq_ok_iff.trans ?_⟩
      rw [Session.loadPatch_eq_ok_iff]
      refine exists_congr fun patch => and_congr_left fun _ => ⟨.patchFile hread, fun hgives => ?_⟩
      cases hgives with
      | patchFile hread' hload =>
        rw [hread] at hread'
        cases hread'
        exact hload

/-- What rendering comes to: it fails since nothing can be recorded, or it writes what is
recorded. -/
theorem run_render (hdisk : disk.Lawful contents out) {s s' : σ} {outcome : Outcome}
    (h : (render disk source out seconds sampleRate note).run s = (outcome, s')) :
    ((¬∃ patch, Recordable (contents s) source seconds sampleRate patch) ∧
      outcome.exitCode = 1 ∧ s' = s) ∨
    ∃ patch bytes result, Recordable (contents s) source seconds sampleRate patch ∧
      recording? patch seconds sampleRate note = some bytes ∧
      (disk.writeBytes out bytes).run s = (result, s') ∧
      outcome.exitCode = (if result.isOk then 0 else 1) := by
  obtain ⟨result, hopen, hresult⟩ := run_openSource hdisk source sampleRate s
  rw [render, run_bind_of_eq hopen] at h
  cases result with
  | error f =>
    cases h
    refine .inl ⟨fun ⟨patch, h⟩ => ?_, rfl, rfl⟩
    obtain ⟨session, hset⟩ := Session.exists_setPatch_iff.2 h.renderable
    exact nomatch (hresult session).2 ⟨patch, h.gives, hset⟩
  | ok session =>
    obtain ⟨patch, hgives, hset⟩ := (hresult session).1 rfl
    have hiff := recordable_iff hgives hset seconds note
    dsimp only at h
    split at h
    · rename_i hinvalid
      cases h
      refine .inl ⟨fun h => ?_, rfl, rfl⟩
      rw [(hiff.1 h).1] at hinvalid
      cases hinvalid
    · rename_i hinvalid
      have hvalid : (invalidLines session).isEmpty = true := by simpa using hinvalid
      -- The note is started by a match of the command's own, which `withNote` only names.
      split at h
      · rename_i e hwav
        have hwav : ((session.withNote note).renderWav seconds).1 = .error e := hwav
        cases h
        refine .inl ⟨fun h => ?_, rfl, rfl⟩
        obtain ⟨-, bytes, hok⟩ := hiff.1 h
        exact nomatch hwav.symm.trans hok
      · rename_i bytes hwav
        have hwav : ((session.withNote note).renderWav seconds).1 = .ok bytes := hwav
        obtain ⟨q, hq⟩ := hiff.2 ⟨hvalid, bytes, hwav⟩
        obtain rfl := hgives.unique hq.gives
        have hrecording := (renderWav_eq_ok_iff hgives.numbered hset note).1 hwav
        rcases hwrite : (disk.writeBytes out bytes).run s with ⟨result, written⟩
        rw [run_bind_of_eq hwrite] at h
        refine .inr ⟨patch, bytes, result, hq, hrecording.2, ?_⟩
        cases result with
        | error _ | ok _ =>
          cases h
          exact ⟨hwrite, rfl⟩

/-- **A rendering is recorded as a whole or not at all**: if it ends well, the file is the recording
of a patch that can be recorded; if none can be recorded, it fails and nothing has changed; and if
one can be, it is only the write that can fail, and then nothing has changed either. -/
theorem recorded_or_unchanged (hdisk : disk.Lawful contents out) {args : List String}
    (hargs : request? args = some (.render source out seconds sampleRate note)) (s : σ) :
    let (outcome, s') := (run disk args).run s
    (outcome.exitCode = 0 → ∃ patch bytes,
      Recordable (contents s) source seconds sampleRate patch ∧
        recording? patch seconds sampleRate note = some bytes ∧ contents s' out = .ok bytes) ∧
    ((¬∃ patch, Recordable (contents s) source seconds sampleRate patch) →
      outcome.exitCode = 1 ∧ s' = s) ∧
    ∀ patch, Recordable (contents s) source seconds sampleRate patch → ∃ bytes,
      recording? patch seconds sampleRate note = some bytes ∧
        match ((disk.writeBytes out bytes).run s).1 with
        | .ok () => outcome.exitCode = 0
        | .error _ => outcome.exitCode = 1 ∧ s' = s := by
  have hrun : (run disk args).run s =
      (render disk source out seconds sampleRate note).run s := by
    rw [run, hargs]
    rfl
  rcases hrender : (run disk args).run s with ⟨outcome, s'⟩
  rcases run_render hdisk (hrun ▸ hrender) with
    ⟨hnone, hcode, hsame⟩ | ⟨patch, bytes, result, hpatch, hbytes, hwrite, hcode⟩
  · refine ⟨fun hzero => ?_, fun _ => ⟨hcode, hsame⟩, fun patch hpatch => ?_⟩
    · exact absurd (hcode.symm.trans hzero) (by decide)
    · exact absurd ⟨patch, hpatch⟩ hnone
  · refine ⟨fun hzero => ?_, fun hnone => absurd ⟨patch, hpatch⟩ hnone, fun q hq => ?_⟩
    · cases result with
      | error e =>
        have hone : outcome.exitCode = 1 := hcode
        exact absurd (hone.symm.trans hzero) (by decide)
      | ok u =>
        have hwritten := hdisk.written bytes s
        rw [hwrite] at hwritten
        exact ⟨patch, bytes, hpatch, hbytes, hwritten rfl⟩
    · obtain rfl := hpatch.gives.unique hq.gives
      refine ⟨bytes, hbytes, ?_⟩
      rw [hwrite]
      cases result with
      | error e =>
        have hfailed := hdisk.failed bytes s e
        rw [hwrite] at hfailed
        exact ⟨hcode, hfailed rfl⟩
      | ok u => exact hcode

/-- Eight frames at 8000 Hz, into a file that was not there. -/
theorem recorded_or_unchanged_eight_frames :
    let args := ["render", "t", "-o", "song.wav", "--seconds", "0.001", "--sample-rate", "8000"]
    let (outcome, files) := (run Files.disk args).run []
    Path.location "song.wav" ≠ Files.nullDevice ∧
      request? args = some (.render (.expression "t") "song.wav" 0.001 8000 none) ∧
      outcome.exitCode = 0 ∧ ∃ patch bytes,
        Recordable (Files.read []) (.expression "t") 0.001 8000 patch ∧
          recording? patch 0.001 8000 none = some bytes ∧ files.read "song.wav" = .ok bytes := by
  intro args
  have hout : Path.location "song.wav" ≠ Files.nullDevice := by decide +kernel
  have hargs : request? args = some (.render (.expression "t") "song.wav" 0.001 8000 none) := by
    decide +kernel
  have hzero : ((run Files.disk args).run []).1.exitCode = 0 := by decide +kernel
  exact ⟨hout, hargs, hzero, (recorded_or_unchanged (Files.lawful_disk hout) hargs []).1 hzero⟩

end CommandLine

end Bytebeat
