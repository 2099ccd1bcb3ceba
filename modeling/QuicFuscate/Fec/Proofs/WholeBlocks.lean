import QuicFuscate.Fec.Proofs.Adaptive
import QuicFuscate.Fec.Proofs.Codec
import QuicFuscate.Fec.Proofs.Decoder16

/-!
# What a decoder keeps

A packet that is read from a block keeps the block, a reconstructed packet is written into a fresh
one, and the decoder over words works on the blocks of its repair packets in place.  Whatever its
length field says, the data of every packet that `on_receive` returns is therefore a whole block.
-/

namespace QuicFuscate.Fec

open Framework

def Packet.IsWhole (B : ℕ) (p : Packet) : Prop := ∀ data ∈ p.data, data.length = B

variable {F : Gf16Arith} {env : Platform} {B : ℕ}

/-! ## The GF(2^8) decoder -/

def Decoder.Whole (B : ℕ) (d : Decoder) : Prop := AllSome (Packet.IsWhole B) d.systematicPackets

theorem Solved.isWhole {p : Packet} (h : Solved env p) : p.IsWhole env.blockSize := by
  obtain ⟨i, bytes, len, h⟩ := h
  rw [solvedPacket, bind_eq_ok] at h
  obtain ⟨block, hblock, h⟩ := h
  cases h
  rintro _ ⟨rfl⟩
  rw [copyFront_length hblock, Platform.alloc_length]

namespace Decoder

theorem Whole.addPacket {d d' : Decoder} (h : d.Whole env.blockSize) {pkt : Packet}
    (hpkt : pkt.IsWhole env.blockSize) {r : Except String Bool} (hrun : d.addPacket env pkt = .ok (r, d')) :
    d'.Whole env.blockSize := by
  intro p hp
  rcases (addPacket_cases hrun).2 p hp with hold | rfl | hsolved
  · exact h p hold
  · exact hpkt
  · exact hsolved.isWhole

theorem whole_new (B k : ℕ) : (Decoder.new k).Whole B := by
  intro p hp
  cases (List.mem_replicate.mp hp).2

end Decoder

/-! ## The GF(2^16) decoder -/

namespace Decoder16

def Whole (B : ℕ) (payloads : List (Option (List UInt8))) : Prop := AllSome (fun data => data.length = B) payloads

private theorem whole_iff {payloads : List (Option (List UInt8))} :
    Whole B payloads ↔ ∀ n, some n ∈ payloadLengths payloads → n = B := by
  constructor
  · intro h n hn
    obtain ⟨payload, hmem, hlen⟩ := List.mem_map.mp hn
    obtain ⟨data, rfl, rfl⟩ := Option.map_eq_some_iff.mp hlen
    exact h data hmem
  · intro h data hdata
    exact h data.length (List.mem_map.mpr ⟨some data, hdata, rfl⟩)

theorem Whole.addPacket {d d' : Decoder16} (h : Whole B d.payloads) {pkt : Packet} (hpkt : pkt.IsWhole B)
    {r : Except String Bool} (hrun : d.addPacket F pkt = .ok (r, d')) : Whole B d'.payloads := by
  rcases addPacket_lengths hrun with hsame | hmore
  · rw [hsame]
    exact h
  · have hall : Whole B (d.payloads ++ [if pkt.isSystematic then none else pkt.data]) := by
      intro data hdata
      rcases List.mem_append.mp hdata with hdata | hdata
      · exact h data hdata
      · have hlast := List.mem_singleton.mp hdata
        split at hlast
        · cases hlast
        · exact hpkt data hlast.symm
    rw [whole_iff] at hall ⊢
    intro n hn
    exact hall n (hmore.mem_iff.mp hn)

end Decoder16

/-! ## The adaptive codec -/

namespace DecoderVariant

def Whole (B : ℕ) : DecoderVariant → Prop
  | .g8 d => d.Whole B
  | .g16 d => Decoder16.Whole B d.payloads

theorem whole_new (B : ℕ) (mode : FecMode) (k : ℕ) : (new mode k).Whole B := by
  unfold new
  split
  · intro data hdata
    cases hdata
  · exact Decoder.whole_new B k

variable {v v' : DecoderVariant} {pkt : Packet}

theorem Whole.addPacket (h : v.Whole env.blockSize) (hpkt : pkt.IsWhole env.blockSize) {r : Except String Bool}
    (hrun : v.addPacket F env pkt = .ok (r, v')) : v'.Whole env.blockSize := by
  cases v with
  | g8 d =>
      rw [DecoderVariant.addPacket, bind_eq_ok] at hrun
      obtain ⟨⟨r', d'⟩, hadd, hrun⟩ := hrun
      cases hrun
      exact Decoder.Whole.addPacket h hpkt hadd
  | g16 d =>
      rw [DecoderVariant.addPacket, bind_eq_ok] at hrun
      obtain ⟨⟨r', d'⟩, hadd, hrun⟩ := hrun
      cases hrun
      exact Decoder16.Whole.addPacket h hpkt hadd

theorem Whole.getDecodedPackets (h : v.Whole B) :
    (∀ p ∈ v.getDecodedPackets.1, p.IsWhole B) ∧ v.getDecodedPackets.2.Whole B := by
  cases v with
  | g8 d =>
      constructor
      · intro p hp
        obtain ⟨slot, hslot, rfl⟩ := List.mem_filterMap.mp hp
        exact h p hslot
      · intro p hp
        obtain ⟨slot, -, hslot⟩ := List.mem_map.mp hp
        cases hslot
  | g16 d =>
      constructor
      · intro p hp
        obtain ⟨⟨payload, j⟩, hmem, hp⟩ := List.mem_filterMap.mp hp
        obtain ⟨data, hdata, rfl⟩ := Option.map_eq_some_iff.mp hp
        dsimp only at hdata
        subst hdata
        rintro _ ⟨rfl⟩
        exact h data (List.fst_mem_of_mem_zipIdx hmem)
      · intro data hdata
        obtain ⟨payload, -, hpayload⟩ := List.mem_map.mp hdata
        cases hpayload

end DecoderVariant

def IsWholeResult (B : ℕ) (result : Except String (List Packet)) : Prop :=
  ∀ packets, result = .ok packets → ∀ p ∈ packets, p.IsWhole B

private theorem receiveInto_whole {v v' : DecoderVariant} {pkt : Packet} {recovered : List Packet}
    {result : Except String (List Packet)} (h : v.Whole env.blockSize) (hpkt : pkt.IsWhole env.blockSize)
    (hrecovered : ∀ p ∈ recovered, p.IsWhole env.blockSize)
    (hrun : receiveInto F env v pkt recovered = .ok (result, v')) :
    IsWholeResult env.blockSize result ∧ v'.Whole env.blockSize := by
  rw [receiveInto, bind_eq_ok] at hrun
  obtain ⟨⟨added, next⟩, hadd, hrun⟩ := hrun
  have hnext := h.addPacket hpkt hadd
  cases added with
  | error e =>
      cases hrun
      refine ⟨?_, hnext⟩
      intro packets hpackets
      cases hpackets
  | ok decoded =>
      dsimp only at hrun
      split at hrun
      · cases hrun
        obtain ⟨htaken, hrest⟩ := hnext.getDecodedPackets
        refine ⟨?_, hrest⟩
        intro packets hpackets p hp
        cases hpackets
        rcases List.mem_append.mp hp with hp | hp
        · exact hrecovered p hp
        · exact htaken p hp
      · cases hrun
        refine ⟨?_, hnext⟩
        intro packets hpackets
        cases hpackets
        exact hrecovered

private theorem cloneForEncoder_isWhole {p clone : Packet} (h : p.cloneForEncoder env = .ok clone) :
    clone.IsWhole env.blockSize := by
  obtain ⟨-, -, data, hdata, hlen⟩ := Packet.cloneForEncoder_cases h
  intro d hd
  rw [hdata] at hd
  cases hd
  exact hlen

namespace AdaptiveFec

variable {fec fec' : AdaptiveFec}

structure Whole (B : ℕ) (fec : AdaptiveFec) : Prop where
  decoder : fec.decoder.Whole B
  transitionDecoder : ∀ v ∈ fec.transitionDecoder, v.Whole B

theorem whole_new (B : ℕ) (initialMode : FecMode) (windowSizes : FecMode → Option ℕ) (now : ℕ) :
    (new initialMode windowSizes now).Whole B where
  decoder := DecoderVariant.whole_new B _ _
  transitionDecoder := by
    intro v hv
    cases hv

theorem Whole.onReceive (h : fec.Whole env.blockSize) {pkt : Packet} (hpkt : pkt.IsWhole env.blockSize)
    {result : Except String (List Packet)} (hrun : fec.onReceive F env pkt = .ok (result, fec')) :
    IsWholeResult env.blockSize result ∧ fec'.Whole env.blockSize := by
  obtain ⟨first, decoder, hinto, hcases⟩ := onReceive_cases hrun
  obtain ⟨hresult, hdecoder⟩ := receiveInto_whole h.decoder hpkt (by simp) hinto
  rcases hcases with ⟨rfl, rfl⟩ | ⟨recovered, transDec, clonePkt, transDec', rfl, htrans, hcopy, htransition, rfl⟩
  · exact ⟨hresult, hdecoder, h.transitionDecoder⟩
  · obtain ⟨hall, hnext⟩ := receiveInto_whole (h.transitionDecoder transDec htrans) (cloneForEncoder_isWhole hcopy)
      (hresult recovered rfl) htransition
    refine ⟨hall, hdecoder, ?_⟩
    rintro _ ⟨rfl⟩
    exact hnext

theorem Whole.onSend (h : fec.Whole B) {pkt : Packet} {queue queue' : List Packet}
    (hrun : fec.onSend F env pkt queue = .ok (queue', fec')) : fec'.Whole B := by
  obtain ⟨clone, rfl⟩ := onSend_state hrun
  unfold countDown
  split
  · dsimp only
    split
    · refine ⟨h.decoder, ?_⟩
      intro v hv
      cases hv
    · exact ⟨h.decoder, h.transitionDecoder⟩
  · exact ⟨h.decoder, h.transitionDecoder⟩

theorem Whole.reportLoss (h : fec.Whole B) (r : Reading) : (fec.reportLoss r).Whole B := by
  rw [reportLoss_eq]
  cases (fec.modeMgr.update r).1 with
  | some prev =>
      refine ⟨DecoderVariant.whole_new B _ _, ?_⟩
      rintro _ ⟨rfl⟩
      exact h.decoder
  | none => exact ⟨DecoderVariant.whole_new B _ _, h.transitionDecoder⟩

end AdaptiveFec

end QuicFuscate.Fec
