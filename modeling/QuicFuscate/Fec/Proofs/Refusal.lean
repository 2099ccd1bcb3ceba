import QuicFuscate.Fec.Proofs.Adaptive

/-!
# Refused packets

A decoder refuses one kind of packet only: a repair packet without coefficients.  Such a packet never
changes a decoder, whether it is refused or met by a decoder that has all its rows, so that the error
of one decoder finds the other as it was.
-/

namespace QuicFuscate.Fec

open Framework

def Packet.Bare (p : Packet) : Prop := p.isSystematic = false ∧ p.coefficients = none

variable {F : Gf16Arith} {env : Platform} {pkt : Packet}

/-! ## One decoder -/

theorem Decoder.addPacket_bare (d : Decoder) (h : pkt.Bare) :
    d.addPacket env pkt = .ok (if d.isDecoded = true ∨ d.decodingMatrix.numRows ≥ d.k then .ok d.isDecoded
      else .error "Repair packet missing coefficients.", d) := by
  unfold Decoder.addPacket
  rw [h.1, h.2]
  split <;> rfl

theorem Decoder16.addPacket_bare (d : Decoder16) (h : pkt.Bare) :
    d.addPacket F pkt = .ok (if d.isDecoded = true ∨ d.matrix.length ≥ d.k then .ok d.isDecoded
      else .error "missing coeffs", d) := by
  unfold Decoder16.addPacket
  rw [h.1, h.2]
  split <;> rfl

theorem Decoder.bare_of_addPacket_error {d d' : Decoder} {e : String}
    (h : d.addPacket env pkt = .ok (.error e, d')) : pkt.Bare := by
  unfold Decoder.addPacket at h
  split at h
  · cases h
  split at h
  · simp only [bind_eq_ok] at h
    obtain ⟨row, -, slot, -, h⟩ := h
    split at h
    · cases h
    · simp only [addRow, bind_eq_ok] at h
      obtain ⟨slots, -, decoded, -, h⟩ := h
      cases h
  · rename_i hsys
    split at h
    · simp only [addRow, bind_eq_ok] at h
      obtain ⟨row, -, decoded, -, h⟩ := h
      cases h
    · rename_i hcoeffs
      exact ⟨by simpa using hsys, hcoeffs⟩

theorem Decoder16.bare_of_addPacket_error {d d' : Decoder16} {e : String}
    (h : d.addPacket F pkt = .ok (.error e, d')) : pkt.Bare := by
  unfold Decoder16.addPacket at h
  split at h
  · cases h
  split at h
  · rw [bind_eq_ok] at h
    obtain ⟨row, -, h⟩ := h
    cases h
  · rename_i hsys
    split at h
    · simp only [bind_eq_ok] at h
      obtain ⟨row, -, decoded, -, h⟩ := h
      cases h
    · rename_i hcoeffs
      exact ⟨by simpa using hsys, hcoeffs⟩

/-! ## Both variants -/

namespace DecoderVariant

variable {v v' : DecoderVariant}

/-- A bare packet leaves a decoder alone, and an answer to it tells nothing new. -/
private theorem addPacket_bare (v : DecoderVariant) (h : pkt.Bare) :
    ∃ r, v.addPacket F env pkt = .ok (r, v) ∧ ∀ now, r = .ok now → now = v.isDecoded := by
  cases v with
  | g8 d =>
      refine ⟨_, by rw [addPacket, d.addPacket_bare h]; rfl, ?_⟩
      intro now hnow
      split at hnow
      · exact (Except.ok.inj hnow).symm
      · cases hnow
  | g16 d =>
      refine ⟨_, by rw [addPacket, d.addPacket_bare h]; rfl, ?_⟩
      intro now hnow
      split at hnow
      · exact (Except.ok.inj hnow).symm
      · cases hnow

private theorem bare_of_addPacket_error {e : String} (h : v.addPacket F env pkt = .ok (.error e, v')) : pkt.Bare := by
  cases v with
  | g8 d =>
      rw [addPacket, bind_eq_ok] at h
      obtain ⟨⟨r, d'⟩, hadd, h⟩ := h
      cases h
      exact Decoder.bare_of_addPacket_error hadd
  | g16 d =>
      rw [addPacket, bind_eq_ok] at h
      obtain ⟨⟨r, d'⟩, hadd, h⟩ := h
      cases h
      exact Decoder16.bare_of_addPacket_error hadd

end DecoderVariant

private theorem receiveInto_bare {v v' : DecoderVariant} {recovered : List Packet} {r : Except String (List Packet)}
    (h : pkt.Bare) (hrun : receiveInto F env v pkt recovered = .ok (r, v')) : v' = v := by
  obtain ⟨added, hadd, hnow⟩ := @DecoderVariant.addPacket_bare F env pkt v h
  rw [receiveInto, hadd, ok_bind] at hrun
  cases added with
  | error e =>
      cases hrun
      rfl
  | ok now =>
      rw [hnow now rfl] at hrun
      dsimp only at hrun
      rw [Bool.not_and_self, if_neg (by decide)] at hrun
      cases hrun
      rfl

private theorem bare_of_receiveInto_error {v v' : DecoderVariant} {recovered : List Packet} {e : String}
    (hrun : receiveInto F env v pkt recovered = .ok (.error e, v')) : pkt.Bare := by
  rw [receiveInto, bind_eq_ok] at hrun
  obtain ⟨⟨added, v₁⟩, hadd, hrun⟩ := hrun
  cases added with
  | error e' => exact DecoderVariant.bare_of_addPacket_error hadd
  | ok now =>
      dsimp only at hrun
      split at hrun <;> cases hrun

theorem Packet.bare_cloneForEncoder {p clone : Packet} (h : p.cloneForEncoder env = .ok clone) :
    clone.Bare ↔ p.Bare := by
  obtain ⟨hsys, hcoeffs, -⟩ := Packet.cloneForEncoder_cases h
  have hnone : clone.coefficients = none ↔ p.coefficients = none := by
    rw [← Option.isSome_eq_false_iff.trans Option.isNone_iff_eq_none, hcoeffs, Option.isSome_eq_false_iff,
      Option.isNone_iff_eq_none]
  rw [Packet.Bare, Packet.Bare, hsys, hnone]

namespace AdaptiveFec

variable {fec fec' : AdaptiveFec}

private theorem bare_of_onReceive_error {e : String} (h : fec.onReceive F env pkt = .ok (.error e, fec')) :
    pkt.Bare := by
  obtain ⟨first, decoder, hinto, hcases⟩ := onReceive_cases h
  rcases hcases with ⟨rfl, -⟩ | ⟨recovered, transDec, clonePkt, transDec', -, -, hcopy, htransition, -⟩
  · exact bare_of_receiveInto_error hinto
  · exact (Packet.bare_cloneForEncoder hcopy).mp (bare_of_receiveInto_error htransition)

/-- A packet that `on_receive` refuses leaves the whole state as it was: both decoders are unchanged, with
all the packets that they hold. -/
theorem onReceive_error_unchanged {e : String} (h : fec.onReceive F env pkt = .ok (.error e, fec')) :
    fec'.decoder = fec.decoder ∧ fec'.transitionDecoder = fec.transitionDecoder ∧ fec' = fec := by
  have hbare := bare_of_onReceive_error h
  obtain ⟨first, decoder, hinto, hcases⟩ := onReceive_cases h
  obtain rfl := receiveInto_bare hbare hinto
  rcases hcases with ⟨-, rfl⟩ | ⟨recovered, transDec, clonePkt, transDec', -, htrans, hcopy, htransition, rfl⟩
  · exact ⟨rfl, rfl, rfl⟩
  · obtain rfl := receiveInto_bare ((Packet.bare_cloneForEncoder hcopy).mpr hbare) htransition
    rw [← htrans]
    exact ⟨rfl, rfl, rfl⟩

/-- A cross-fade in which the main decoder has decoded its packet and passes over the one without
coefficients, and the previous decoder refuses it. -/
def halfDecoded : AdaptiveFec :=
  { new .light (fun _ => some 1) 0 with
    decoder := .g8 ⟨1, (CsrMatrix.new 1).appendRow [1] none, [some ⟨0, some [7], 1, true, none, 0⟩], true,
      .gaussianElimination⟩
    transitionDecoder := some (.g16 (Decoder16.new 1))
    transitionLeft := 32 }

theorem onReceive_error_unchanged_half_decoded :
    ∃ e fec', halfDecoded.onReceive gf16Arith ⟨.scalar, 4⟩ ⟨0, none, 0, false, none, 0⟩ = .ok (.error e, fec') ∧
      fec'.decoder = halfDecoded.decoder ∧ fec'.transitionDecoder = halfDecoded.transitionDecoder := by
  have hrun : halfDecoded.onReceive gf16Arith ⟨.scalar, 4⟩ ⟨0, none, 0, false, none, 0⟩ =
    .ok (.error "missing coeffs", _) := rfl
  have hsame := onReceive_error_unchanged hrun
  exact ⟨_, _, hrun, hsame.1, hsame.2.1⟩

end AdaptiveFec

end QuicFuscate.Fec
