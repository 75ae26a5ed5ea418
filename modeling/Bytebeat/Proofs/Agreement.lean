import Bytebeat.Proofs.Runs

/-!
# Frames side by side

Two layouts of one patch that render a frame each. After a frame an expression
has the value of its newest program on the values of that frame
(`Layout.Filled.voice_renderFrame`), so two layouts come to the same values
wherever their expressions do on the same mix. This holds of any part of
the patch that has its sources in it
(`Layout.Filled.values_renderFrame_congr`), and what is heard depends on the
values of the sources of outputs alone (`Layout.Sound.frame_congr`).
-/

namespace Bytebeat

theorem Patch.heard_congr {p : Patch} {m m' : Mix} {ids : List NodeId} (channel : Bool → Nat)
    (h : ∀ id, (p.output? id).isSome = true → ∀ k, p.Feeds k id →
      m'.values[k.toNat]? = m.values[k.toNat]?) :
    p.heard m' channel ids = p.heard m channel ids := by
  refine List.filterMap_congr fun id _ => ?_
  cases hout : p.output? id with
  | none => rw [Option.bind_none, Option.bind_none]
  | some stereo =>
    have hsum := Mix.sum_feeding_congr (h id (by rw [hout]; rfl)) (channel stereo)
    simp only [Option.bind_some, hsum]

namespace Layout

variable {l l' : Layout} {id : NodeId}

/-! ## One frame -/

theorem Sound.value_renderFrame_of_not (h : l.Sound) (hid : l.isVoice id = false) :
    l.renderFrame.2.values[id.toNat]? = l.values[id.toNat]? := by
  refine value_playAll _ ?_
  by_cases hmem : id ∈ l.order
  · refine .inr (Option.ne_none_iff_isSome.1 fun hout => ?_)
    rw [(h.isVoice_iff hmem).2 hout] at hid
    cases hid
  · exact .inl hmem

/-- The value and the evaluator of an expression after a frame are those of its newest program on
the values of that frame. -/
theorem Filled.voice_renderFrame (h : l.Filled) (hid : l.isVoice id = true) :
    l.renderFrame.2.evaluator id =
        (l.evaluated l.clock.globals { values := l.renderFrame.2.values } id).2 ∧
      l.renderFrame.2.values[id.toNat]? =
        some (l.evaluated l.clock.globals { values := l.renderFrame.2.values } id).1 := by
  have hmem : id ∈ l.order := h.mem_order_of_isVoice hid
  have hsize : id.toNat < l.values.size := h.size ▸ Patch.lt_of_mem_order h.ordered hmem
  exact playAll_voice l.clock.globals (Patch.ordered_of_order h.ordered) { values := l.values } hmem
    ((h.isVoice_iff hmem).1 hid) hsize

theorem Sound.frame_renderFrame (h : l.Sound) :
    l.renderFrame.1 = .ofUnit
      ((l.patch.heard { values := l.renderFrame.2.values } Patch.leftChannel l.order).foldl
        (· + ·) 0)
      ((l.patch.heard { values := l.renderFrame.2.values } Patch.rightChannel l.order).foldl
        (· + ·) 0) := by
  obtain ⟨hleft, hright⟩ := heard_playAll l.clock.globals
    (Patch.ordered_of_order h.ordered) { values := l.values }
  exact congrArg₂ Frame.ofUnit hleft hright

/-! ## Two frames -/

theorem Sound.order_congr (h : l.Sound) (h' : l'.Sound) (hpatch : l'.patch = l.patch) :
    l'.order = l.order := by
  have hordered := h'.ordered
  rw [hpatch, h.ordered] at hordered
  exact (Except.ok.inj hordered).symm

theorem Sound.frame_congr (h : l.Sound) (h' : l'.Sound) (hpatch : l'.patch = l.patch)
    (hvalues : ∀ id, (l.patch.output? id).isSome = true → ∀ k, l.patch.Feeds k id →
      l'.renderFrame.2.values[k.toNat]? = l.renderFrame.2.values[k.toNat]?) :
    l'.renderFrame.1 = l.renderFrame.1 := by
  have hheard : ∀ channel,
      l.patch.heard { values := l'.renderFrame.2.values } channel l.order =
        l.patch.heard { values := l.renderFrame.2.values } channel l.order :=
    fun channel => Patch.heard_congr channel hvalues
  rw [h.frame_renderFrame, h'.frame_renderFrame, h.order_congr h' hpatch, hpatch, hheard, hheard]

/-- A part of a patch that has its sources in it comes to the same values in two frames, if each
of its expressions has the same value on the same mix and what is no expression had the same
value before. The induction is along the connections. -/
theorem Filled.values_renderFrame_congr (h : l.Filled) (h' : l'.Filled)
    (hpatch : l'.patch = l.patch) {part : Set NodeId}
    (hpart : ∀ k id, l.patch.Feeds k id → id ∈ part → k ∈ part)
    (hvoice : ∀ id ∈ part, l.isVoice id = true →
      ∀ m, (l'.evaluated l'.clock.globals m id).1 = (l.evaluated l.clock.globals m id).1)
    (hother : ∀ id ∈ part, l.isVoice id = false →
      l'.values[id.toNat]? = l.values[id.toNat]?) :
    ∀ id ∈ part, l'.renderFrame.2.values[id.toNat]? = l.renderFrame.2.values[id.toNat]? := by
  have hacyclic : l.patch.Acyclic :=
    Patch.acyclic_of_order (Patch.closed_of_checkConnections h.wired) h.ordered
  have hkind : l'.isVoice = l.isVoice := isVoice_congr hpatch
  intro id
  induction id using hacyclic.wellFounded.induction with
  | h id ih =>
    intro hid
    cases hvid : l.isVoice id with
    | false =>
      rw [h.value_renderFrame_of_not hvid, h'.value_renderFrame_of_not (hkind ▸ hvid)]
      exact hother id hid hvid
    | true =>
      obtain ⟨-, hvalue⟩ := h.voice_renderFrame hvid
      obtain ⟨-, hvalue'⟩ := h'.voice_renderFrame (hkind ▸ hvid)
      have hsources : l.evaluated l.clock.globals { values := l'.renderFrame.2.values } id =
          l.evaluated l.clock.globals { values := l.renderFrame.2.values } id :=
        evaluated_congr fun k hk => ih k hk (hpart k id hk hid)
      rw [hvalue, hvalue', hvoice id hid hvid, hsources]

end Layout

end Bytebeat
