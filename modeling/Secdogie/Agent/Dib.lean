/-
# `Secdogie.Agent.Dib` — tear-free reads of a framebuffer

A cooperating producer publishes the pixels of a surface in a shared region, with
a counter that is odd while it writes.  `read_tearfree` copies between two looks
at the counter and tries again if the copy may be torn; `read` checks the
geometry and the size of the frame before.

What another process does in between is up to it: each attempt at a read has its
own looks at the counter and its own copy.  `read_settled` says that where the
counter and the region are those of one writer, what is read is a frame that the
writer settled, and `slice_ok` that no copy leaves the region.
-/
import Secdogie.Agent.Adapter
import Secdogie.Lib.Seqlock

namespace Secdogie.Agent

open Seqlock (State Runs)

/-- The bytes of a frame. -/
abbrev Pixels := List UInt8

inductive DibError where
  | Tear (text : String)
  | Budget (text : String)
  | Bounds (text : String)
  | Format (text : String)
deriving DecidableEq

def DibError.text : DibError → String
  | Tear text | Budget text | Bounds text | Format text => text

def PIXEL_FORMAT_BYTES : List (String × ℤ) :=
  [("RGBA8888", 4), ("BGRA8888", 4), ("ARGB8888", 4), ("ABGR8888", 4), ("RGBX8888", 4),
    ("BGRX8888", 4), ("RGB888", 3), ("BGR888", 3), ("RGB565", 2), ("BGR565", 2), ("GRAY8", 1)]

/-- The attempts that are left, from the attempt `k` on; each looks at the counter
before the copy and after it. -/
def readLoop (read_bytes : ℕ → Except DibError Pixels) (read_seq : ℕ → ℤ × ℤ) :
    ℕ → ℕ → String → Except DibError (Pixels × ℤ)
  | 0, _, reason => .error (.Tear reason)
  | left + 1, k, _ =>
      let s1 := (read_seq k).1
      if s1 % 2 = 1 then
        readLoop read_bytes read_seq left (k + 1)
          ("write in progress (seq=" ++ toString s1 ++ " odd)")
      else
        match read_bytes k with
        | .error e => .error e
        | .ok data =>
            let s2 := (read_seq k).2
            if s1 = s2 then .ok (data, s1)
            else readLoop read_bytes read_seq left (k + 1)
              ("sequence changed during read (" ++ toString s1 ++ " -> " ++ toString s2 ++ ")")

def read_tearfree (read_bytes : ℕ → Except DibError Pixels) (read_seq : ℕ → ℤ × ℤ)
    (retries : ℤ) : Except DibError (Pixels × ℤ) :=
  readLoop read_bytes read_seq ((max 0 retries).toNat + 1) 0 "no attempt made"

/-- A frame in the region of a producer, with what the attempts at reading it see. -/
structure DIBFrameBuffer where
  address : ℤ
  width : ℤ
  height : ℤ
  stride : ℤ
  pixel_format : String
  size_bytes : ℤ := 0
  seqlock : ℤ := 0
  offset : ℤ := 0
  _buffer : Option (ℕ → Pixels) := none
  _seq : Option (ℕ → ℤ × ℤ) := none

namespace DIBFrameBuffer

variable (upper repr : String → String) (sha256 : Pixels → String)
variable (fb : DIBFrameBuffer)

def bytes_per_pixel : Except DibError ℤ :=
  match PIXEL_FORMAT_BYTES.lookup (upper fb.pixel_format) with
  | some bpp => .ok bpp
  | none => .error (.Format ("unknown pixel format: " ++ repr fb.pixel_format))

def frame_bytes : ℤ := if fb.size_bytes > 0 then fb.size_bytes else fb.stride * fb.height

def validate : Except DibError Unit :=
  if fb.width ≤ 0 ∨ fb.height ≤ 0 then
    .error (.Format
      ("non-positive dimensions " ++ toString fb.width ++ "x" ++ toString fb.height))
  else
    match fb.bytes_per_pixel upper repr with
    | .error e => .error e
    | .ok bpp =>
        if fb.stride < fb.width * bpp then
          .error (.Format
            ("stride " ++ toString fb.stride ++ " < row " ++ toString (fb.width * bpp)))
        else if fb.size_bytes ≠ 0 ∧ fb.size_bytes < fb.stride * fb.height then
          .error (.Format ("size_bytes " ++ toString fb.size_bytes ++ " < stride*height " ++
            toString (fb.stride * fb.height)))
        else if fb.offset < 0 then
          .error (.Bounds ("negative offset " ++ toString fb.offset))
        else .ok ()

/-- `_slice`, at the attempt `k` -/
def _slice (n : ℤ) (k : ℕ) : Except DibError Pixels :=
  match fb._buffer with
  | none => .error (.Bounds "frame has no backing buffer")
  | some buffer =>
      let mv := buffer k
      let stop := fb.offset + n
      if fb.offset < 0 ∨ stop > mv.length then
        .error (.Bounds ("slice [" ++ toString fb.offset ++ ":" ++ toString stop ++
          "] out of buffer of " ++ toString mv.length ++ " bytes"))
      else .ok ((mv.drop fb.offset.toNat).take n.toNat)

/-- The counter as the attempts see it; without one, the number last known. -/
def seq (k : ℕ) : ℤ × ℤ :=
  match fb._seq with
  | some seq => seq k
  | none => (fb.seqlock, fb.seqlock)

def read (max_bytes retries : ℤ) : Except DibError (Pixels × ℤ) :=
  match fb.validate upper repr with
  | .error e => .error e
  | .ok () =>
      let n := fb.frame_bytes
      if n > max_bytes then
        .error (.Budget
          ("frame of " ++ toString n ++ " bytes exceeds cap " ++ toString max_bytes))
      else read_tearfree (fb._slice n) fb.seq retries

/-- `to_reference`, of a frame that is of a known format -/
def to_reference (data : Pixels) (seq : ℤ) : VisualReference where
  address := fb.address
  width := fb.width
  height := fb.height
  bit_count := ((PIXEL_FORMAT_BYTES.lookup (upper fb.pixel_format)).getD 0) * 8
  source := "heap"
  content_hash := sha256 data
  pixels_available := true
  stride := fb.stride
  pixel_format := upper fb.pixel_format
  size_bytes := data.length
  seqlock := seq

end DIBFrameBuffer

/-! ## What a read gives -/

/-- What is read is what an attempt copied between two equal even looks. -/
theorem readLoop_ok {read_bytes : ℕ → Except DibError Pixels} {read_seq : ℕ → ℤ × ℤ}
    {data : Pixels} {s : ℤ} : ∀ {left k : ℕ} {reason : String},
    readLoop read_bytes read_seq left k reason = .ok (data, s) →
      ∃ k', read_bytes k' = .ok data ∧ read_seq k' = (s, s) ∧ s % 2 = 0 := by
  intro left
  induction left with
  | zero => exact fun h => nomatch h
  | succ left ih =>
      intro k reason h
      rw [readLoop] at h
      dsimp only at h
      split at h
      · exact ih h
      · next heven =>
          split at h
          · exact nomatch h
          · next hdata =>
              split at h
              · next hsame =>
                  obtain ⟨rfl, rfl⟩ := Prod.mk.inj (Except.ok.inj h)
                  exact ⟨k, hdata, Prod.ext rfl hsame.symm, by omega⟩
              · exact ih h

namespace DIBFrameBuffer

section

variable {upper repr : String → String} {fb : DIBFrameBuffer}

/-- A geometry that is accepted. -/
structure Valid (upper : String → String) (fb : DIBFrameBuffer) (bpp : ℤ) : Prop where
  width : 0 < fb.width
  height : 0 < fb.height
  format : PIXEL_FORMAT_BYTES.lookup (upper fb.pixel_format) = some bpp
  stride : fb.width * bpp ≤ fb.stride
  size : fb.size_bytes ≠ 0 → fb.stride * fb.height ≤ fb.size_bytes
  offset : 0 ≤ fb.offset

theorem validate_ok (h : fb.validate upper repr = .ok ()) : ∃ bpp, fb.Valid upper bpp := by
  rw [validate, bytes_per_pixel] at h
  split at h
  · exact nomatch h
  · next hdim =>
      cases hformat : PIXEL_FORMAT_BYTES.lookup (upper fb.pixel_format) with
      | none =>
          rw [hformat] at h
          exact nomatch h
      | some bpp =>
          rw [hformat] at h
          dsimp only at h
          by_cases hstride : fb.stride < fb.width * bpp
          · rw [if_pos hstride] at h
            exact nomatch h
          · rw [if_neg hstride] at h
            by_cases hsize : fb.size_bytes ≠ 0 ∧ fb.size_bytes < fb.stride * fb.height
            · rw [if_pos hsize] at h
              exact nomatch h
            · rw [if_neg hsize] at h
              by_cases hoffset : fb.offset < 0
              · rw [if_pos hoffset] at h
                exact nomatch h
              · refine ⟨bpp, by omega, by omega, hformat, by omega, fun hne => ?_, by omega⟩
                exact not_lt.mp fun hlt => hsize ⟨hne, hlt⟩

theorem bpp_pos {bpp : ℤ} {name : String} (h : PIXEL_FORMAT_BYTES.lookup name = some bpp) :
    0 < bpp := by
  have hall : ∀ entry ∈ PIXEL_FORMAT_BYTES, 0 < entry.2 := by decide
  obtain ⟨before, after, heq, -⟩ := List.lookup_eq_some_iff.mp h
  exact hall (name, bpp) (heq ▸ List.mem_append_cons_self)

/-- A frame covers its rows, padding included. -/
theorem Valid.rows_le {bpp : ℤ} (h : fb.Valid upper bpp) :
    fb.stride * fb.height ≤ fb.frame_bytes := by
  rw [frame_bytes]
  split
  · next hpos => exact h.size (by omega)
  · exact le_refl _

theorem Valid.stride_pos {bpp : ℤ} (h : fb.Valid upper bpp) : 0 < fb.stride :=
  lt_of_lt_of_le (mul_pos h.width (bpp_pos h.format)) h.stride

theorem Valid.frame_pos {bpp : ℤ} (h : fb.Valid upper bpp) : 0 < fb.frame_bytes :=
  lt_of_lt_of_le (mul_pos h.stride_pos h.height) h.rows_le

/-- What `_slice` copies lies in the region. -/
theorem slice_ok {n : ℤ} {k : ℕ} {data : Pixels} (h : fb._slice n k = .ok data) :
    0 ≤ fb.offset ∧ ∃ buffer, fb._buffer = some buffer ∧ fb.offset + n ≤ (buffer k).length ∧
      data = ((buffer k).drop fb.offset.toNat).take n.toNat := by
  rw [_slice] at h
  split at h
  · exact nomatch h
  · next buffer hbuffer =>
      dsimp only at h
      split at h
      · exact nomatch h
      · next hin => exact ⟨by omega, buffer, hbuffer, by omega, (Except.ok.inj h).symm⟩

/-- What is read of a frame. -/
theorem read_ok {max_bytes retries s : ℤ} {data : Pixels}
    (h : fb.read upper repr max_bytes retries = .ok (data, s)) :
    (∃ bpp, fb.Valid upper bpp) ∧ fb.frame_bytes ≤ max_bytes ∧
      ∃ k, fb._slice fb.frame_bytes k = .ok data ∧ fb.seq k = (s, s) ∧ s % 2 = 0 := by
  rw [read] at h
  cases hvalid : fb.validate upper repr with
  | error e =>
      rw [hvalid] at h
      exact nomatch h
  | ok u =>
      rw [hvalid] at h
      dsimp only at h
      split at h
      · exact nomatch h
      · next hmax => exact ⟨validate_ok hvalid, by omega, readLoop_ok h⟩

/-- The cap is only compared with the size. -/
theorem read_cap (max_bytes cap retries : ℤ) (hcap : fb.frame_bytes ≤ cap) {got : Pixels × ℤ} :
    fb.read upper repr max_bytes retries = .ok got ↔
      fb.frame_bytes ≤ max_bytes ∧ fb.read upper repr cap retries = .ok got := by
  rw [read, read]
  cases fb.validate upper repr with
  | error e => exact ⟨(fun h => nomatch h), (fun h => nomatch h.2)⟩
  | ok u =>
      dsimp only
      rw [if_neg (not_lt.mpr hcap)]
      by_cases hmax : fb.frame_bytes > max_bytes
      · rw [if_pos hmax]
        exact ⟨(fun h => nomatch h), fun h => absurd h.1 (not_le.mpr hmax)⟩
      · rw [if_neg hmax]
        exact ⟨fun h => ⟨not_lt.mp hmax, h⟩, And.right⟩

theorem read_length {max_bytes retries s : ℤ} {data : Pixels}
    (h : fb.read upper repr max_bytes retries = .ok (data, s)) : data.length = fb.frame_bytes := by
  obtain ⟨⟨bpp, hvalid⟩, -, k, hslice, -, -⟩ := read_ok h
  obtain ⟨hoffset, buffer, -, hin, rfl⟩ := slice_ok hslice
  have hpos := hvalid.frame_pos
  rw [List.length_take, List.length_drop]
  omega

/-- The pixels alone take no more than the frame. -/
theorem approx_le {max_bytes retries s : ℤ} {data : Pixels} {sha256 : Pixels → String}
    (h : fb.read upper repr max_bytes retries = .ok (data, s)) :
    0 ≤ (fb.to_reference upper sha256 data s).approx_bytes ∧
      (fb.to_reference upper sha256 data s).approx_bytes ≤ fb.frame_bytes := by
  obtain ⟨⟨bpp, hvalid⟩, -⟩ := read_ok h
  have hbpp := bpp_pos hvalid.format
  have hwidth := hvalid.width
  have hheight := hvalid.height
  have hbits : (bpp * 8 + 7) / 8 = bpp := by omega
  have heq : (fb.to_reference upper sha256 data s).approx_bytes = fb.width * fb.height * bpp := by
    rw [VisualReference.approx_bytes, to_reference]
    dsimp only
    rw [hvalid.format, Option.getD_some, if_neg (by omega), hbits]
  rw [heq]
  refine ⟨by positivity, le_trans ?_ hvalid.rows_le⟩
  calc fb.width * fb.height * bpp = fb.width * bpp * fb.height := by ring
    _ ≤ fb.stride * fb.height := mul_le_mul_of_nonneg_right hvalid.stride hvalid.height.le

end

/-! ## Reads beside a writer -/

/-- What the attempts see is what one writer does: in each, the counter is looked at,
the cells of the region are copied each at its own time, and the counter is looked at
again; and it has not gone round in between. -/
structure Beside (fb : DIBFrameBuffer) {len : ℕ} (σ : ℕ → State (Fin len) UInt8) (M : ℕ) :
    Prop where
  runs : Runs σ
  modulus : Even M
  sees : ∀ k, ∃ (t₁ t₂ : ℕ) (τ : Fin len → ℕ), (∀ i, t₁ ≤ τ i ∧ τ i ≤ t₂) ∧ t₁ ≤ t₂ ∧
    (σ t₂).count < (σ t₁).count + M ∧
    fb._seq.map (fun seq => seq k) = some (((σ t₁).sample M : ℤ), ((σ t₂).sample M : ℤ)) ∧
    fb._buffer.map (fun buffer => buffer k) = some (List.ofFn fun i => (σ (τ i)).mem i)

/-- The frame in a region. -/
def frameIn (fb : DIBFrameBuffer) {len : ℕ} (s : State (Fin len) UInt8) : Pixels :=
  ((List.ofFn s.mem).drop fb.offset.toNat).take fb.frame_bytes.toNat

/-- Whatever the interleaving, what is read is one frame that the writer settled. -/
theorem read_settled {upper repr : String → String} {fb : DIBFrameBuffer} {len M : ℕ}
    {σ : ℕ → State (Fin len) UInt8} (hbeside : fb.Beside σ M) {max_bytes retries s : ℤ}
    {data : Pixels} (h : fb.read upper repr max_bytes retries = .ok (data, s)) :
    ∃ t, (σ t).Settled ∧ data = fb.frameIn (σ t) ∧ s = (σ t).sample M := by
  obtain ⟨-, -, k, hslice, hseq, heven⟩ := read_ok h
  obtain ⟨-, buffer, hbuffer, -, rfl⟩ := slice_ok hslice
  obtain ⟨t₁, t₂, τ, hτ, hle, hwrap, hlook, hregion⟩ := hbeside.sees k
  rw [hbuffer, Option.map_some, Option.some_inj] at hregion
  have hlooks : (((σ t₁).sample M : ℤ), ((σ t₂).sample M : ℤ)) = (s, s) := by
    rw [seq] at hseq
    cases hs : fb._seq with
    | none =>
        rw [hs] at hlook
        exact nomatch hlook
    | some seq =>
        rw [hs] at hlook hseq
        exact (Option.some.inj hlook).symm.trans hseq
  obtain ⟨hfirst, hsecond⟩ := Prod.mk.inj hlooks
  have hsample : (σ t₁).sample M = (σ t₂).sample M := by
    exact_mod_cast hfirst.trans hsecond.symm
  have hsettled : (σ t₁).Settled := (Seqlock.settled_iff_sample hbeside.modulus _).mpr (by omega)
  have hcount := Seqlock.sample_inj hbeside.runs hle hwrap hsample
  refine ⟨t₁, hsettled, ?_, hfirst.symm⟩
  rw [hregion, frameIn, Seqlock.copy_settled hbeside.runs hsettled hcount hτ]

end DIBFrameBuffer

end Secdogie.Agent
