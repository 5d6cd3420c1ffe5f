/-
  Orchestrator.Erofs.Lz4Pack

  The packer with the encoder that `newZState` gives it for `lz4hc`
  (internal/erofs/compress.go): its contract, which Orchestrator.Erofs.ZPack assumes,
  holds from every state of the encoder, and the encoder never fails.
-/

import Orchestrator.Erofs.Lz4Enc.CompressBlockOpt
import Orchestrator.Erofs.ZSpans

namespace Orchestrator.Erofs

open Lib Lib.Exec Lz4Enc

/-- The two methods of one encoder.  A panic would leave no length. -/
def lz4hcPackers : Packers LZ4HCEncoder where
  compress c src dst :=
    match c.compressBlock src dst with
    | .ok (n, dst', c') => (c', dst', some n.toNat)
    | .error _ => (c, dst, none)
  finalize := some fun c src dst limit =>
    match c.compressBlockOptLimit src dst limit with
    | .ok (n, within, dst', c') => (c', dst', some (n.toNat, within))
    | .error _ => (c, dst, none)

theorem lz4hcPackers_sound : lz4hcPackers.Sound := by
  have hpost : ∀ {src dst : List UInt8} {n : Int}, (0 < n → Lz4Enc.Compressed src dst n) →
      0 < n.toNat → n.toNat ≤ dst.length ∧ Lz4.decodeBlock (dst.take n.toNat) = some src := by
    intro src dst n h hn
    have hc := h (by omega)
    exact ⟨by have := hc.fits; omega, hc.decodes⟩
  constructor
  · intro c src dst n hn
    obtain ⟨r, heq, -, -, hcomp⟩ := compressBlock_sat c src dst
    simp only [lz4hcPackers, heq] at hn ⊢
    cases hn
    exact hpost hcomp
  · rintro _ ⟨⟩ c src dst limit n hn
    obtain ⟨-, r, -, heq, -, -, -, hcomp⟩ := compressBlockOptLimit_both c src dst limit
    obtain ⟨rfl, -⟩ : r.1.toNat = n ∧ r.2.1 = true := by simpa [heq] using hn
    simp only [heq]
    exact hpost hcomp

theorem lz4hcPackers_answers (c : LZ4HCEncoder) (src dst : List UInt8) :
    ∃ enc out n, lz4hcPackers.compress c src dst = (enc, out, some n) := by
  obtain ⟨r, heq, -⟩ := compressBlock_sat c src dst
  exact ⟨r.2.2, r.2.1, r.1.toNat, by simp only [lz4hcPackers, heq]⟩

theorem not_fails_lz4hcPackers (e : PackError) : ¬ lz4hcPackers.Fails e := by
  rintro ⟨-, ⟨c, src, dst, hnone⟩ | ⟨_, ⟨⟩, c, src, dst, limit, hnone⟩⟩
  · obtain ⟨_, _, _, heq⟩ := lz4hcPackers_answers c src dst
    simp [heq] at hnone
  · obtain ⟨-, _, -, heq, -⟩ := compressBlockOptLimit_both c src dst limit
    simp [heq] at hnone

/-- **The encoder packs every buffer**, from every state of the worker: the loop over a buffer or
    a segment ends without an error, and its spans stand for the bytes. -/
theorem packWindow_lz4hc {blockSize : Nat} (hbs : 0 < blockSize) {profile : ZProfile}
    (hprof : profile.Accepted blockSize) (last : Bool) (buf : List UInt8)
    (worker : PackWorker LZ4HCEncoder) :
    ∃ s, packWindow lz4hcPackers blockSize profile last buf worker = .ok s ∧
      Packs blockSize profile buf s.spans := by
  rcases packLoop_runs lz4hcPackers_sound hbs hprof last buf worker _ with hok | ⟨e, -, hfails⟩
  · exact hok
  · exact absurd hfails (not_fails_lz4hcPackers e)

/-- A run becomes one span, stored as the encoding that `CompressBlock` makes of it. -/
theorem packWindow_lz4hc_run :
    let profile : ZProfile := ⟨32, 64⟩
    let chain : Chain := ⟨fun _ => 0, 16384, 16384, Nat.le_refl _⟩
    let worker : PackWorker LZ4HCEncoder :=
      ⟨⟨fun _ => 0, chain, none, []⟩, List.replicate 32 0, List.replicate 32 0⟩
    profile.Accepted 16 ∧ ∃ s comp,
      packWindow lz4hcPackers 16 profile true (List.replicate 32 7) worker = .ok s ∧
        s.spans = [⟨List.replicate 32 7, comp⟩] ∧ comp.length = 11 ∧
        Packs 16 profile (List.replicate 32 7) s.spans := by
  intro profile chain worker
  have hprof : profile.Accepted 16 := (ZProfile.accepted_iff _ _).mp (by decide)
  have heval : (lz4hcPackers.compress worker.enc (List.replicate 32 7) worker.probe).2.2 = some 11 ∧
      11 ≤ (lz4hcPackers.compress worker.enc (List.replicate 32 7) worker.probe).2.1.length := by
    decide +kernel
  generalize hrun : lz4hcPackers.compress worker.enc (List.replicate 32 7) worker.probe = r at heval
  obtain ⟨enc, probe, n⟩ := r
  obtain ⟨rfl, hroom⟩ : n = some 11 ∧ 11 ≤ probe.length := heval
  obtain ⟨c, hc, hspan, hcomp⟩ :=
    packSpan_short 16 (show (List.replicate 32 7).length ≤ profile.pclusterSize by decide) hrun 0.5
  have hlen : c.comp.length = 11 := by
    rw [hcomp, if_pos (by decide), List.length_take, Nat.min_eq_left hroom]
  have hrefine : refineSpan lz4hcPackers 16 (List.replicate 32 7) c.comp c.worker =
      .ok (c.comp, c.worker) := by
    simp [refineSpan, lz4hcPackers, hlen]
  obtain ⟨s, hs, hpacks⟩ := packWindow_lz4hc (by decide) hprof true (List.replicate 32 7) worker
  cases hs.symm.trans (packLoop_whole (by decide) (by decide) hc hspan hrefine)
  exact ⟨hprof, _, c.comp, hs, rfl, hlen, hpacks⟩

end Orchestrator.Erofs
