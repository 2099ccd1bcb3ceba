import QuicFuscate.Fec.PooledPacket
import QuicFuscate.Fec.Proofs.Parsers
import QuicFuscate.Optimize.Proofs.AnyNode

/-!
# Blocks that a refused frame costs

The readers over the pool return what the readers of `Packet` return.  `from_block` hands its block
back before it refuses a frame.  `from_raw` takes its blocks first and drops them when the payload
does not fit, and it writes the coefficients before it has looked at the size of a block.
-/

namespace QuicFuscate.Fec

open Framework Optimize

/-- A pool of clean blocks of one size, over at least one queue. -/
structure Ready (blockSize : ℕ) (pool : MemoryPool) : Prop where
  nodes_pos : 0 < pool.pools.length
  size_eq : pool.blockSize = blockSize
  zeroed : pool.Zeroed

namespace Pooled

variable {env : Platform} {pool : MemoryPool}

/-! ## The pool -/

private theorem allocBlock_run (h : Ready env.blockSize pool) (node : ℕ) :
    ∃ pool', (allocBlock node).run pool = some (.ok (env.alloc, pool')) ∧ pool'.inUse = pool.inUse + 1 ∧
      Ready env.blockSize pool' := by
  obtain ⟨⟨b, pool'⟩, hrun⟩ := MemoryPool.alloc_terminates h.nodes_pos node
  obtain ⟨rfl, hzeroed, hsize⟩ := h.zeroed.alloc hrun
  have hblock : allocNumaBlock pool.blockSize = env.alloc := by
    rw [h.size_eq]
    rfl
  rw [hblock] at hrun
  refine ⟨pool', congrArg (Option.map Except.ok) hrun, (MemoryPool.alloc_counters hrun).1, ?_⟩
  exact ⟨(MemoryPool.alloc_nodes hrun).symm ▸ h.nodes_pos, hsize.trans h.size_eq, hzeroed⟩

/-! ## The readers -/

/-- The blocks that `from_raw` reads a frame into. -/
def blocksOf (f : Frame) : ℕ := if f.coefficients.isSome then 2 else 1

variable (coeffNode dataNode node id : ℕ)

private theorem fromRaw_truncated {raw : List UInt8} {t : Truncated} (hparse : Frame.parse raw = .error t)
    (pool : MemoryPool) :
    (fromRaw coeffNode dataNode id raw).run pool = some (.ok (.error t.fromRawText, pool)) := by
  have hmeaning := Frame.meaning_parse raw
  rw [hparse] at hmeaning
  cases hmeaning with
  | empty => rfl
  | @unsized flag rest hsys hrest =>
      have hflag : readAt (flag :: rest) 0 = .ok flag := rfl
      rw [fromRaw, if_neg (by simp), Stateful.run_bind_lift hflag, if_neg hsys, if_pos (by simp; omega)]
      rfl
  | @short flag hi lo rest hsys hrest =>
      have hflag : readAt (flag :: hi :: lo :: rest) 0 = .ok flag := rfl
      have hhi : readAt (flag :: hi :: lo :: rest) 1 = .ok hi := rfl
      have hlo : readAt (flag :: hi :: lo :: rest) 2 = .ok lo := rfl
      rw [fromRaw, if_neg (by simp), Stateful.run_bind_lift hflag, if_neg hsys, if_neg (by simp),
        Stateful.run_bind_lift hhi, Stateful.run_bind_lift hlo]
      dsimp only
      rw [if_pos (by simp; omega)]
      rfl

/-- A frame whose coefficients exceed a block aborts `from_raw`; any other costs its blocks, whether
the payload fits or not. -/
private theorem fromRaw_frame (h : Ready env.blockSize pool) {raw : List UInt8} {f : Frame}
    (hparse : Frame.parse raw = .ok f) :
    if env.blockSize < f.coeffLen then
      (fromRaw coeffNode dataNode id raw).run pool = some (.error .indexOutOfBounds)
    else ∃ pool', pool'.inUse = pool.inUse + blocksOf f ∧
      (fromRaw coeffNode dataNode id raw).run pool = some (.ok (
        if env.blockSize < f.payload.length then .error "Buffer from pool is too small"
        else .ok (f.packet id (env.alloc.drop f.coeffLen) (env.alloc.drop f.payload.length)), pool')) := by
  have hmeaning := Frame.meaning_parse raw
  rw [hparse] at hmeaning
  generalize hrun : (fromRaw coeffNode dataNode id raw).run pool = out
  rw [fromRaw] at hrun
  cases hmeaning with
  | systematic payload =>
      have hflag : readAt (1 :: payload) 0 = .ok 1 := rfl
      have hpayload : sliceOf (1 :: payload) 1 (1 :: payload).length = .ok payload :=
        Packet.slice_end [1] payload rfl
      obtain ⟨pool', halloc, hin, -⟩ := allocBlock_run h dataNode
      rw [if_neg (by simp), Stateful.run_bind_lift hflag, if_pos rfl, Stateful.run_bind_lift hpayload,
        Stateful.run_bind halloc, Platform.alloc_length] at hrun
      change if env.blockSize < 0 then _ else _
      rw [if_neg (Nat.not_lt_zero _)]
      refine ⟨pool', hin, ?_⟩
      subst hrun
      split
      · rfl
      · rename_i hfits
        rw [Stateful.run_bind_lift (copyFront_of_le (by simpa using hfits))]
        rfl
  | @repair flag hi lo coeffs payload hsys hcoeffs =>
      have hflag : readAt ([flag, hi, lo] ++ coeffs ++ payload) 0 = .ok flag := rfl
      have hhi : readAt ([flag, hi, lo] ++ coeffs ++ payload) 1 = .ok hi := rfl
      have hlo : readAt ([flag, hi, lo] ++ coeffs ++ payload) 2 = .ok lo := rfl
      have hslice : sliceOf ([flag, hi, lo] ++ coeffs ++ payload) 3 (3 + coeffs.length) = .ok coeffs :=
        Packet.slice_middle _ _ _ rfl rfl
      have hpayload : sliceOf ([flag, hi, lo] ++ coeffs ++ payload) (3 + coeffs.length)
          ([flag, hi, lo] ++ coeffs ++ payload).length = .ok payload :=
        Packet.slice_end _ _ (by simp; omega)
      obtain ⟨pool₁, halloc₁, hin₁, hready⟩ := allocBlock_run h coeffNode
      obtain ⟨pool₂, halloc₂, hin₂, -⟩ := allocBlock_run hready dataNode
      rw [if_neg (by simp), Stateful.run_bind_lift hflag, if_neg hsys, if_neg (by simp),
        Stateful.run_bind_lift hhi, Stateful.run_bind_lift hlo, ← hcoeffs] at hrun
      dsimp only at hrun
      rw [if_neg (by simp; omega), Stateful.run_bind halloc₁, Stateful.run_bind_lift hslice] at hrun
      change if env.blockSize < coeffs.length then _ else _
      split
      · rename_i hlong
        rw [← hrun]
        exact Stateful.run_bind_lift_error (if_neg (by simpa using hlong)) pool₁
      · rename_i hfits
        rw [Stateful.run_bind_lift (copyFront_of_le (by simpa using hfits)), Stateful.run_bind_lift hpayload,
          Stateful.run_bind halloc₂, Platform.alloc_length] at hrun
        have hin : pool₂.inUse = pool.inUse + 2 := by omega
        refine ⟨pool₂, hin, ?_⟩
        subst hrun
        split
        · rfl
        · rename_i hroom
          rw [Stateful.run_bind_lift (copyFront_of_le (by simpa using hroom))]
          rfl

private theorem fromBlock_truncated {raw : List UInt8} {t : Truncated} (hparse : Frame.parse raw = .error t)
    (rest : List UInt8) (pool : MemoryPool) :
    (fromBlock node id (raw ++ rest) raw.length).run pool =
      some (.ok (.error t.fromBlockText, pool.free node (raw ++ rest))) := by
  have hmeaning := Frame.meaning_parse raw
  rw [hparse] at hmeaning
  cases hmeaning with
  | empty => rfl
  | @unsized flag short hsys hrest =>
      have hflag : readAt (flag :: short ++ rest) 0 = .ok flag := rfl
      rw [fromBlock, if_neg (by simp), Stateful.run_bind_lift hflag, if_neg hsys, if_pos (by simp; omega)]
      rfl
  | @short flag hi lo coeffs hsys hrest =>
      have hflag : readAt (flag :: hi :: lo :: coeffs ++ rest) 0 = .ok flag := rfl
      have hhi : readAt (flag :: hi :: lo :: coeffs ++ rest) 1 = .ok hi := rfl
      have hlo : readAt (flag :: hi :: lo :: coeffs ++ rest) 2 = .ok lo := rfl
      rw [fromBlock, if_neg (by simp), Stateful.run_bind_lift hflag, if_neg hsys, if_neg (by simp),
        Stateful.run_bind_lift hhi, Stateful.run_bind_lift hlo]
      dsimp only
      rw [if_pos (by simp; omega)]
      rfl

theorem fromBlock_frame (h : Ready env.blockSize pool) {raw : List UInt8} {f : Frame}
    (hparse : Frame.parse raw = .ok f) (hfits : f.coeffLen ≤ env.blockSize) (rest : List UInt8) :
    ∃ pool', (fromBlock node id (raw ++ rest) raw.length).run pool =
      some (.ok (.ok (f.packet id (env.alloc.drop f.coeffLen) ((raw ++ rest).drop f.payload.length)), pool')) := by
  have hmeaning := Frame.meaning_parse raw
  rw [hparse] at hmeaning
  rw [fromBlock]
  cases hmeaning with
  | systematic payload =>
      have hflag : readAt (1 :: payload ++ rest) 0 = .ok 1 := rfl
      have hcopy : Packet.copyWithin (1 :: payload ++ rest) 1 (1 :: payload).length = _ :=
        @Packet.copyWithin_append [1] payload rest _ _ rfl (Nat.add_comm _ _)
      rw [if_neg (by simp), Stateful.run_bind_lift hflag, if_pos rfl, Stateful.run_bind_lift hcopy]
      exact ⟨pool, rfl⟩
  | @repair flag hi lo coeffs payload hsys hcoeffs =>
      have hflag : readAt ([flag, hi, lo] ++ coeffs ++ payload ++ rest) 0 = .ok flag := rfl
      have hhi : readAt ([flag, hi, lo] ++ coeffs ++ payload ++ rest) 1 = .ok hi := rfl
      have hlo : readAt ([flag, hi, lo] ++ coeffs ++ payload ++ rest) 2 = .ok lo := rfl
      have hslice : sliceOf ([flag, hi, lo] ++ coeffs ++ payload ++ rest) 3 (3 + coeffs.length) = .ok coeffs := by
        rw [List.append_assoc]
        exact Packet.slice_middle _ _ _ rfl rfl
      have hcopy : Packet.copyWithin ([flag, hi, lo] ++ coeffs ++ payload ++ rest) (3 + coeffs.length)
          ([flag, hi, lo] ++ coeffs ++ payload).length = _ :=
        Packet.copyWithin_append (by simp; omega) List.length_append
      have hlen : ([flag, hi, lo] ++ coeffs ++ payload).length - (3 + coeffs.length) = payload.length := by
        simp
        omega
      have hfits : coeffs.length ≤ env.blockSize := hfits
      obtain ⟨pool', halloc, -⟩ := allocBlock_run h node
      rw [if_neg (by simp), Stateful.run_bind_lift hflag, if_neg hsys, if_neg (by simp),
        Stateful.run_bind_lift hhi, Stateful.run_bind_lift hlo, ← hcoeffs]
      dsimp only
      rw [if_neg (by simp; omega), Stateful.run_bind halloc, Stateful.run_bind_lift hslice,
        Stateful.run_bind_lift (copyFront_of_le (by simpa using hfits)), Stateful.run_bind_lift hcopy, hlen]
      exact ⟨pool', rfl⟩

theorem fromRaw_result (h : Ready env.blockSize pool) (raw : List UInt8) :
    (fromRaw coeffNode dataNode id raw).result pool = some (Packet.fromRaw env id raw) := by
  rw [Packet.fromRaw_eq, Stateful.result]
  cases hparse : Frame.parse raw with
  | error t =>
      rw [fromRaw_truncated coeffNode dataNode id hparse]
      rfl
  | ok f =>
      have hframe := fromRaw_frame coeffNode dataNode id h hparse
      dsimp only
      split at hframe
      · rename_i hlong
        rw [if_pos hlong, hframe]
        rfl
      · rename_i hfits
        obtain ⟨pool', -, hrun⟩ := hframe
        rw [if_neg hfits, hrun]
        split <;> rfl

theorem fromBlock_result (h : Ready env.blockSize pool) {raw : List UInt8} (hraw : raw.length ≤ env.blockSize)
    (rest : List UInt8) : (fromBlock node id (raw ++ rest) raw.length).result pool =
      some (Packet.fromBlock env id (raw ++ rest) raw.length) := by
  rw [Packet.fromBlock_eq, Stateful.result]
  cases hparse : Frame.parse raw with
  | error t =>
      rw [fromBlock_truncated node id hparse]
      rfl
  | ok f =>
      have hfits : f.coeffLen ≤ env.blockSize := (Frame.parse_length hparse).1.trans hraw
      obtain ⟨pool', hrun⟩ := fromBlock_frame node id h hparse hfits rest
      rw [hrun]
      dsimp only
      rw [if_neg (not_lt.mpr hfits)]
      rfl

/-! ## Refused frames -/

/-- A string that is cut short, or whose parts fit into blocks. -/
def Accommodates (blockSize : ℕ) (raw : List UInt8) : Prop :=
  ∀ f, Frame.parse raw = .ok f → f.coeffLen ≤ blockSize ∧ f.payload.length ≤ blockSize

/-- A program returns, and with an error only if `inUse` blocks are then in use. -/
def RefusesAt (inUse : ℕ) (x : Stateful MemoryPool (Except String Packet)) (pool : MemoryPool) : Prop :=
  ∃ r pool', x.run pool = some (.ok (r, pool')) ∧ ∀ e, r = .error e → pool'.inUse = inUse

private theorem fromRaw_refusesAt_iff (h : Ready env.blockSize pool) (raw : List UInt8) :
    RefusesAt pool.inUse (fromRaw coeffNode dataNode id raw) pool ↔ Accommodates env.blockSize raw := by
  cases hparse : Frame.parse raw with
  | error t =>
      refine iff_of_true ⟨_, _, fromRaw_truncated coeffNode dataNode id hparse pool, fun _ _ => rfl⟩ ?_
      intro f hf
      rw [hparse] at hf
      cases hf
  | ok f =>
      have hframe := fromRaw_frame coeffNode dataNode id h hparse
      have haccommodates : Accommodates env.blockSize raw ↔
          f.coeffLen ≤ env.blockSize ∧ f.payload.length ≤ env.blockSize := by
        simp [Accommodates, hparse]
      rw [haccommodates]
      split at hframe
      · rename_i hlong
        refine iff_of_false ?_ (by omega)
        rintro ⟨r, pool', hrun, -⟩
        rw [hframe] at hrun
        cases hrun
      · rename_i hfits
        obtain ⟨pool', hin, hrun⟩ := hframe
        split at hrun
        · -- the blocks taken for a payload that does not fit are dropped, not freed
          rename_i hlong
          refine iff_of_false ?_ (by omega)
          rintro ⟨r, pool'', hrun', hsame⟩
          rw [hrun] at hrun'
          cases hrun'
          have hin' := hsame _ rfl
          have hpos : 0 < blocksOf f := by
            unfold blocksOf
            split <;> decide
          omega
        · rename_i hroom
          exact iff_of_true ⟨_, _, hrun, by simp⟩ ⟨by omega, by omega⟩

private theorem fromBlock_refusesAt (h : Ready env.blockSize pool) {block : Block}
    (hblock : block.length = env.blockSize)
    (len : ℕ) : RefusesAt (pool.inUse - 1) (fromBlock node id block len) pool := by
  have hfree : (pool.free node block).inUse = pool.inUse - 1 := (MemoryPool.free_counters pool node block).1
  by_cases hlen : len = 0 ∨ len > block.length
  · exact ⟨_, _, by rw [fromBlock, if_pos hlen]; rfl, fun _ _ => hfree⟩
  · have htake : (block.take len).length = len := List.length_take_of_le (by omega)
    have hsplit : fromBlock node id block len =
        fromBlock node id (block.take len ++ block.drop len) (block.take len).length := by
      rw [htake, List.take_append_drop]
    rw [hsplit]
    cases hparse : Frame.parse (block.take len) with
    | error t =>
        refine ⟨_, _, fromBlock_truncated node id hparse _ pool, fun _ _ => ?_⟩
        rwa [List.take_append_drop]
    | ok f =>
        have hfits := (Frame.parse_length hparse).1
        obtain ⟨pool', hrun⟩ := fromBlock_frame node id h hparse (by omega) (block.drop len)
        exact ⟨_, _, hrun, by simp⟩

end Pooled

/-- In every state of a pool, `from_raw` comes back, and with an error only at no cost, exactly on the
strings that are cut short or whose parts fit into blocks; `from_block` always does, and returns the
block that it was given. -/
theorem refused_frames_cost_nothing_iff {nodes capacity blockSize : ℕ} (hnodes : 0 < nodes)
    {cs : List MemoryPool.Call} {outs : List Block} {s : MemoryPool.Run}
    (hrun : MemoryPool.Execs ⟨.new nodes capacity blockSize, []⟩ cs outs s) (node node' id : ℕ) :
    (∀ raw, Pooled.RefusesAt s.pool.inUse (Pooled.fromRaw node node' id raw) s.pool ↔
      Pooled.Accommodates blockSize raw) ∧
    ∀ block ∈ s.held, ∀ len, ∃ inUse, inUse + 1 = s.pool.inUse ∧
      Pooled.RefusesAt inUse (Pooled.fromBlock node id block len) s.pool := by
  have hsound := hrun.sound
  have hready : Ready (Platform.blockSize ⟨.scalar, blockSize⟩) s.pool :=
    ⟨hsound.nodes_eq.symm ▸ hnodes, hsound.size_eq, hsound.zeroed⟩
  refine ⟨Pooled.fromRaw_refusesAt_iff node node' id hready, fun block hblock len => ?_⟩
  have hheld : 0 < s.pool.inUse := hsound.inUse_eq ▸ List.length_pos_of_mem hblock
  exact ⟨s.pool.inUse - 1, by omega, Pooled.fromBlock_refusesAt node id hready (hsound.held_size block hblock) len⟩

/-- A string that ends in the length of its coefficients, and a held block of which two bytes are valid. -/
theorem refused_frames_cost_nothing_iff_cut_short :
    ∃ s, MemoryPool.Execs ⟨.new 1 1 4, []⟩ [.alloc 0] [[0, 0, 0, 0]] s ∧
      Pooled.RefusesAt s.pool.inUse (Pooled.fromRaw 0 0 7 [0, 0, 1]) s.pool ∧
      ∃ inUse, inUse + 1 = s.pool.inUse ∧ Pooled.RefusesAt inUse (Pooled.fromBlock 0 7 [0, 0, 0, 0] 2) s.pool := by
  have hrun : MemoryPool.Execs ⟨.new 1 1 4, []⟩ [.alloc 0] ([[0, 0, 0, 0]] ++ [])
      ⟨⟨[[]], 4, 1, 1, 0⟩, [[0, 0, 0, 0]]⟩ := .call (@MemoryPool.Exec.alloc _ 0 0 [0, 0, 0, 0] _ rfl) .done
  have hparse : Frame.parse [0, 0, 1] = .error .coefficients := rfl
  obtain ⟨hraw, hblock⟩ := refused_frames_cost_nothing_iff (by decide) hrun 0 0 7
  exact ⟨_, hrun, (hraw _).mpr (by simp [Pooled.Accommodates, hparse]), hblock _ List.mem_cons_self 2⟩

/-- With blocks of one byte, two coefficients make `from_raw` abort, and a payload of two bytes is
refused while the block that was taken for it stays in use. -/
theorem refused_frame_keeps_block :
    (Pooled.fromRaw 0 0 7 [0, 0, 2, 5, 6]).run (.new 1 1 1) = some (.error .indexOutOfBounds) ∧
    ∃ pool, (Pooled.fromRaw 0 0 7 [1, 7, 8]).run (.new 1 1 1) =
      some (.ok (.error "Buffer from pool is too small", pool)) ∧ (MemoryPool.new 1 1 1).inUse = 0 ∧ pool.inUse = 1 :=
  ⟨rfl, _, rfl, rfl, rfl⟩

end QuicFuscate.Fec
