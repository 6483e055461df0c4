/-
# `Secdogie.Tunnel.Window` — the replay window of a session, byte by byte

The tunnel keeps the 2048 counters below the highest one in an array of bytes,
which it shifts as a whole when the highest rises.  What the bytes stand for
is the window of `Secdogie.Transport.ReplayWindow`: `Stands` relates the two,
and a counter is accepted by one just when it is by the other.
-/
import Secdogie.Transport.ReplayWindow

namespace Secdogie.Tunnel

open Secdogie.Transport

def SDTP_REPLAY_WINDOW_BITS : Nat := 2048
def REPLAY_BYTES : Nat := 256

/-! ## The bitmap -/

abbrev Bitmap := List UInt8

namespace Bitmap

/-- `bm[i / 8] & (1u << i % 8)` -/
def bit (bm : Bitmap) (i : Nat) : Bool := (bm.getD (i / 8) 0).toNat.testBit (i % 8)

/-- `bm[i / 8] |= 1u << i % 8` -/
def setBit (bm : Bitmap) (i : Nat) : Bitmap :=
  bm.modify (i / 8) (fun b => b ||| (1 <<< UInt8.ofNat (i % 8)))

/-- The loop over the bytes, from the last one down: what a byte takes from the
one below it has not been written yet. -/
def shiftBits (bm : Bitmap) (bit_shift : Nat) : Bitmap :=
  List.zipWith (fun hi lo => (hi <<< UInt8.ofNat bit_shift) ||| (lo >>> UInt8.ofNat (8 - bit_shift)))
    bm (0 :: bm)

/-- `memmove` and `memset` -/
def shiftBytes (bm : Bitmap) (byte_shift : Nat) : Bitmap :=
  List.replicate byte_shift 0 ++ bm.take (REPLAY_BYTES - byte_shift)

/-- `bitmap_shift_left` -/
def shiftLeft (bm : Bitmap) (shift : Nat) : Bitmap :=
  if SDTP_REPLAY_WINDOW_BITS ≤ shift then List.replicate REPLAY_BYTES 0
  else
    let bm := if 0 < shift / 8 then shiftBytes bm (shift / 8) else bm
    if 0 < shift % 8 then shiftBits bm (shift % 8) else bm

variable {bm : Bitmap}

theorem length_setBit (bm : Bitmap) (i : Nat) : (bm.setBit i).length = bm.length :=
  List.length_modify ..

theorem length_shiftBits (b : Nat) : (bm.shiftBits b).length = bm.length := by
  simp [shiftBits]

theorem length_shiftLeft (h : bm.length = REPLAY_BYTES) (shift : Nat) :
    (bm.shiftLeft shift).length = REPLAY_BYTES := by
  have hbytes : ∀ n, n ≤ REPLAY_BYTES → (bm.shiftBytes n).length = REPLAY_BYTES := fun n hn => by
    rw [shiftBytes, List.length_append, List.length_replicate, List.length_take, h]
    omega
  rw [shiftLeft]
  split_ifs with hall hbyte hbit hbit
  · exact List.length_replicate
  · rw [length_shiftBits]
    exact hbytes _ (by unfold SDTP_REPLAY_WINDOW_BITS REPLAY_BYTES at *; omega)
  · exact hbytes _ (by unfold SDTP_REPLAY_WINDOW_BITS REPLAY_BYTES at *; omega)
  · rw [length_shiftBits, h]
  · exact h

theorem bit_replicate (n i : Nat) : bit (List.replicate n 0) i = false := by
  rw [bit, List.getD_eq_getElem?_getD, List.getElem?_replicate]
  split_ifs
  · exact Nat.zero_testBit _
  · exact Nat.zero_testBit _

/-- One byte with a bit set. -/
theorem testBit_or_one (b : UInt8) {k : Nat} (hk : k < 8) (j : Nat) :
    (b ||| (1 <<< UInt8.ofNat k)).toNat.testBit j = (b.toNat.testBit j || decide (j = k)) := by
  have hshift : ((1 : UInt8) <<< UInt8.ofNat k).toNat = 2 ^ k := by
    interval_cases k <;> rfl
  rw [UInt8.toNat_or, Nat.testBit_or, hshift, Nat.testBit_two_pow]
  simp only [eq_comm]

theorem bit_setBit {i : Nat} (hi : i / 8 < bm.length) (j : Nat) :
    (bm.setBit i).bit j = (bm.bit j || decide (j = i)) := by
  rw [bit, bit, setBit, List.getD_eq_getElem?_getD, List.getD_eq_getElem?_getD,
    List.getElem?_modify]
  by_cases hbyte : i / 8 = j / 8
  · have hj : j % 8 = i % 8 ↔ j = i := ⟨fun h => by omega, fun h => by rw [h]⟩
    simp only [if_pos hbyte]
    rw [← hbyte, List.getElem?_eq_getElem hi, Option.map_eq_map, Option.map_some, Option.getD_some,
      Option.getD_some, testBit_or_one _ (Nat.mod_lt _ (by decide)), decide_eq_decide.mpr hj]
  · have hne : j ≠ i := fun h => hbyte (by rw [h])
    simp only [if_neg hbyte]
    rw [decide_eq_false hne, Bool.or_false]
    simp

/-- What one byte takes of itself and of the byte below. -/
theorem testBit_shiftByte (hi lo : UInt8) {b : Nat} (hb : b < 8) (hpos : 0 < b) {j : Nat}
    (hj : j < 8) : ((hi <<< UInt8.ofNat b) ||| (lo >>> UInt8.ofNat (8 - b))).toNat.testBit j =
      if j < b then lo.toNat.testBit (8 + j - b) else hi.toNat.testBit (j - b) := by
  have hlo : lo.toNat < 2 ^ 8 := lo.toNat_lt
  rw [UInt8.toNat_or, Nat.testBit_or, UInt8.toNat_shiftLeft, UInt8.toNat_shiftRight,
    Nat.testBit_mod_two_pow, Nat.testBit_shiftLeft, Nat.testBit_shiftRight]
  have hbn : (UInt8.ofNat b).toNat % 8 = b := by rw [UInt8.toNat_ofNat']; omega
  have hcn : (UInt8.ofNat (8 - b)).toNat % 8 = 8 - b := by rw [UInt8.toNat_ofNat']; omega
  rw [hbn, hcn]
  split_ifs with hlt
  · have h : 8 - b + j = 8 + j - b := by omega
    simp [hj, h, Nat.not_le.mpr hlt]
  · have h : lo.toNat.testBit (8 - b + j) = false :=
      Nat.testBit_eq_false_of_lt (hlo.trans_le (Nat.pow_le_pow_right (by decide) (by omega)))
    simp [hj, h, Nat.le_of_not_lt hlt]

theorem bit_shiftBits {b : Nat} (hb : b < 8) (hpos : 0 < b) {j : Nat} (hj : j / 8 < bm.length) :
    (bm.shiftBits b).bit j = if j < b then false else bm.bit (j - b) := by
  have hmod : j % 8 < 8 := Nat.mod_lt _ (by decide)
  have hlow : (0 :: bm)[j / 8]? = some (if j / 8 = 0 then 0 else bm.getD (j / 8 - 1) 0) := by
    cases h : j / 8 with
    | zero => rfl
    | succ n =>
        rw [List.getElem?_cons_succ, if_neg (Nat.succ_ne_zero n), Nat.add_sub_cancel,
          List.getD_eq_getElem?_getD, List.getElem?_eq_getElem (by omega), Option.getD_some]
  rw [bit, shiftBits, List.getD_eq_getElem?_getD, List.getElem?_zipWith, hlow,
    List.getElem?_eq_getElem hj]
  dsimp only [Option.getD_some]
  rw [testBit_shiftByte _ _ hb hpos hmod]
  by_cases hfirst : j / 8 = 0
  · rw [if_pos hfirst]
    have hj8 : j % 8 = j := by omega
    rw [hj8]
    split_ifs with hlt
    · exact Nat.zero_testBit _
    · rw [bit, List.getD_eq_getElem?_getD]
      have h0 : (j - b) / 8 = j / 8 := by omega
      rw [h0, List.getElem?_eq_getElem hj, Option.getD_some]
      congr 1
      omega
  · rw [if_neg hfirst, if_neg (show ¬ j < b by omega), bit]
    split_ifs with hlt
    · have hbyte : (j - b) / 8 = j / 8 - 1 := by omega
      have hbit : (j - b) % 8 = 8 + j % 8 - b := by omega
      rw [hbyte, hbit]
    · have hbyte : (j - b) / 8 = j / 8 := by omega
      have hbit : (j - b) % 8 = j % 8 - b := by omega
      rw [hbyte, hbit, List.getD_eq_getElem?_getD, List.getElem?_eq_getElem hj, Option.getD_some]

theorem bit_shiftBytes {n : Nat} (hn : n ≤ REPLAY_BYTES) {j : Nat}
    (hj : j < SDTP_REPLAY_WINDOW_BITS) :
    (bm.shiftBytes n).bit j = if j < 8 * n then false else bm.bit (j - 8 * n) := by
  have hlen : j / 8 < REPLAY_BYTES := by
    unfold SDTP_REPLAY_WINDOW_BITS at hj
    unfold REPLAY_BYTES
    omega
  rw [bit, shiftBytes, List.getD_eq_getElem?_getD]
  split_ifs with hlt
  · rw [List.getElem?_append_left (by rw [List.length_replicate]; omega), List.getElem?_replicate,
      if_pos (by omega), Option.getD_some]
    exact Nat.zero_testBit _
  · rw [List.getElem?_append_right (by rw [List.length_replicate]; omega), List.length_replicate,
      List.getElem?_take_of_lt (by omega), bit, List.getD_eq_getElem?_getD]
    have hbyte : (j - 8 * n) / 8 = j / 8 - n := by omega
    have hbit : (j - 8 * n) % 8 = j % 8 := by omega
    rw [hbyte, hbit]

/-- The bits move up together. -/
theorem bit_shiftLeft (h : bm.length = REPLAY_BYTES) (shift : Nat) {j : Nat}
    (hj : j < SDTP_REPLAY_WINDOW_BITS) :
    (bm.shiftLeft shift).bit j = if j < shift then false else bm.bit (j - shift) := by
  have hbound : j / 8 < REPLAY_BYTES := by
    unfold SDTP_REPLAY_WINDOW_BITS at hj
    unfold REPLAY_BYTES
    omega
  rw [shiftLeft]
  by_cases hall : SDTP_REPLAY_WINDOW_BITS ≤ shift
  · rw [if_pos hall, if_pos (hj.trans_le hall), bit_replicate]
  · rw [if_neg hall]
    have hn : shift / 8 ≤ REPLAY_BYTES := by
      unfold SDTP_REPLAY_WINDOW_BITS at hall
      unfold REPLAY_BYTES
      omega
    -- first by whole bytes
    have hbytes : ∀ i, i < SDTP_REPLAY_WINDOW_BITS →
        (if 0 < shift / 8 then bm.shiftBytes (shift / 8) else bm).bit i =
          if i < 8 * (shift / 8) then false else bm.bit (i - 8 * (shift / 8)) := fun i hi => by
      by_cases hpos : 0 < shift / 8
      · rw [if_pos hpos, bit_shiftBytes hn hi]
      · have hzero : shift / 8 = 0 := by omega
        rw [if_neg hpos, hzero]
        simp
    have hlen : (if 0 < shift / 8 then bm.shiftBytes (shift / 8) else bm).length = REPLAY_BYTES := by
      split_ifs
      · rw [shiftBytes, List.length_append, List.length_replicate, List.length_take, h]
        omega
      · exact h
    dsimp only
    generalize (if 0 < shift / 8 then bm.shiftBytes (shift / 8) else bm) = bm' at hbytes hlen ⊢
    by_cases hbit : 0 < shift % 8
    · rw [if_pos hbit, bit_shiftBits (Nat.mod_lt _ (by decide)) hbit (hlen.symm ▸ hbound)]
      split_ifs with h₁ h₂ h₂
      · rfl
      · omega
      · rw [hbytes _ (by omega), if_pos (by omega)]
      · rw [hbytes _ (by omega), if_neg (by omega)]
        congr 1
        omega
    · have hsplit : 8 * (shift / 8) = shift := by omega
      rw [if_neg hbit, hbytes j hj, hsplit]

end Bitmap

/-! ## The window -/

/-- What a session remembers of the counters it accepted. -/
structure Replay where
  recv_highest : Nat := 0
  recv_initialized : Bool := false
  replay_bitmap : Bitmap := List.replicate REPLAY_BYTES 0

namespace Replay

/-- `replay_precheck`: not definitely too old, nor definitely a duplicate. -/
def precheck (w : Replay) (counter : Nat) : Bool :=
  if w.recv_initialized = false then true
  else if w.recv_highest < counter then true
  else
    let diff := w.recv_highest - counter
    if SDTP_REPLAY_WINDOW_BITS ≤ diff then false else !w.replay_bitmap.bit diff

/-- `replay_accept`, of a counter that passed the check and authenticated. -/
def accept (w : Replay) (counter : Nat) : Replay :=
  if w.recv_initialized = false then
    { recv_initialized := true, recv_highest := counter
      replay_bitmap := Bitmap.setBit (List.replicate REPLAY_BYTES 0) 0 }
  else if w.recv_highest < counter then
    { w with
      recv_highest := counter
      replay_bitmap := (w.replay_bitmap.shiftLeft (counter - w.recv_highest)).setBit 0 }
  else { w with replay_bitmap := w.replay_bitmap.setBit (w.recv_highest - counter) }

def WF (w : Replay) : Prop := w.replay_bitmap.length = REPLAY_BYTES

/-- The bytes stand for the window. -/
structure Stands (w : Replay) (v : ReplayWindow) : Prop where
  wf : w.WF
  size : v.size = SDTP_REPLAY_WINDOW_BITS
  highest : v.highest = if w.recv_initialized then some w.recv_highest else none
  bits : w.recv_initialized = true → ∀ i, i < SDTP_REPLAY_WINDOW_BITS →
    w.replay_bitmap.bit i = v.bits.testBit i

variable {w : Replay} {v : ReplayWindow} {counter : Nat}

theorem precheck_eq (h : w.Stands v) : w.precheck counter = (v.accept counter).1 := by
  rw [precheck, ReplayWindow.accept, h.highest, h.size]
  cases hinit : w.recv_initialized with
  | false => rfl
  | true =>
      rw [if_neg Bool.true_eq_false.mp, if_pos rfl]
      dsimp only
      by_cases hlt : w.recv_highest < counter
      · rw [if_pos hlt, if_pos hlt]
      · rw [if_neg hlt, if_neg hlt]
        by_cases hfar : SDTP_REPLAY_WINDOW_BITS ≤ w.recv_highest - counter
        · rw [if_pos hfar, if_pos (.inl hfar)]
        · rw [if_neg hfar, h.bits hinit _ (Nat.lt_of_not_le hfar)]
          cases hbit : v.bits.testBit (w.recv_highest - counter) with
          | true =>
              rw [if_pos (.inr rfl)]
              rfl
          | false =>
              rw [if_neg (fun hor => hor.elim hfar Bool.false_ne_true)]
              rfl

theorem wf_accept (h : w.WF) (counter : Nat) : (w.accept counter).WF := by
  rw [WF, accept]
  by_cases hinit : w.recv_initialized = false
  · rw [if_pos hinit]
    exact (Bitmap.length_setBit (List.replicate REPLAY_BYTES 0) 0).trans List.length_replicate
  · rw [if_neg hinit]
    by_cases hlt : w.recv_highest < counter
    · rw [if_pos hlt]
      exact (Bitmap.length_setBit _ 0).trans (Bitmap.length_shiftLeft h _)
    · rw [if_neg hlt]
      exact (Bitmap.length_setBit _ _).trans h

theorem testBit_one (i : Nat) : Nat.testBit 1 i = decide (i = 0) := by
  cases i with
  | zero => rfl
  | succ i => simp [Nat.testBit_succ]

/-- The first counter of a session. -/
theorem stands_accept_first (h : w.Stands v) (hinit : w.recv_initialized = false) :
    (w.accept counter).Stands (v.accept counter).2 := by
  have hhighest : v.highest = none := by rw [h.highest, hinit]; rfl
  refine ⟨wf_accept h.wf counter, ?_, ?_, ?_⟩
  all_goals rw [ReplayWindow.accept, hhighest]
  · exact h.size
  · rw [accept, if_pos hinit]
    rfl
  · intro _ i hi
    rw [accept, if_pos hinit]
    dsimp only
    rw [Bitmap.bit_setBit (by rw [List.length_replicate]; decide), Bitmap.bit_replicate,
      Bool.false_or, testBit_one]

/-- A counter above the highest: the bits move up. -/
theorem stands_accept_above (h : w.Stands v) (hinit : w.recv_initialized = true)
    (hlt : w.recv_highest < counter) : (w.accept counter).Stands (v.accept counter).2 := by
  have hne : ¬ w.recv_initialized = false := fun hf => Bool.false_ne_true (hf.symm.trans hinit)
  have hhighest : v.highest = some w.recv_highest := by rw [h.highest, hinit]; rfl
  refine ⟨wf_accept h.wf counter, ?_, ?_, ?_⟩
  all_goals
    rw [ReplayWindow.accept, hhighest]
    dsimp only
    rw [if_pos hlt]
  · exact h.size
  · rw [accept, if_neg hne, if_pos hlt]
    dsimp only
    rw [hinit]
    rfl
  · intro _ i hi
    rw [accept, if_neg hne, if_pos hlt]
    dsimp only
    have hlen : 0 / 8 < (w.replay_bitmap.shiftLeft (counter - w.recv_highest)).length := by
      rw [Bitmap.length_shiftLeft h.wf]
      decide
    rw [Bitmap.bit_setBit hlen, Bitmap.bit_shiftLeft h.wf _ hi, h.size]
    by_cases hnear : counter - w.recv_highest < SDTP_REPLAY_WINDOW_BITS
    · rw [if_pos hnear, Nat.testBit_and, Nat.testBit_or, Nat.testBit_shiftLeft,
        Nat.testBit_two_pow_sub_one, decide_eq_true hi, Bool.and_true, testBit_one]
      by_cases hbelow : i < counter - w.recv_highest
      · rw [if_pos hbelow, decide_eq_false (Nat.not_le.mpr hbelow), Bool.false_and]
      · rw [if_neg hbelow, decide_eq_true (Nat.le_of_not_lt hbelow),
          h.bits hinit _ ((Nat.sub_le _ _).trans_lt hi), Bool.true_and]
    · rw [if_neg hnear, if_pos (hi.trans_le (Nat.le_of_not_lt hnear)), Bool.false_or, testBit_one]

/-- A counter inside the window: its bit is set. -/
theorem stands_accept_inside (h : w.Stands v) (hinit : w.recv_initialized = true)
    (hlt : ¬ w.recv_highest < counter)
    (hopen : ¬ (v.size ≤ w.recv_highest - counter ∨
      v.bits.testBit (w.recv_highest - counter) = true)) :
    (w.accept counter).Stands (v.accept counter).2 := by
  have hne : ¬ w.recv_initialized = false := fun hf => Bool.false_ne_true (hf.symm.trans hinit)
  have hhighest : v.highest = some w.recv_highest := by rw [h.highest, hinit]; rfl
  refine ⟨wf_accept h.wf counter, ?_, ?_, ?_⟩
  all_goals
    rw [ReplayWindow.accept, hhighest]
    dsimp only
    rw [if_neg hlt, if_neg hopen]
  · exact h.size
  · rw [accept, if_neg hne, if_neg hlt]
    dsimp only
    rw [hinit]
    rfl
  · intro _ i hi
    rw [accept, if_neg hne, if_neg hlt]
    dsimp only
    have hdiff : w.recv_highest - counter < SDTP_REPLAY_WINDOW_BITS := by
      rw [← h.size]
      exact Nat.lt_of_not_le fun hfar => hopen (.inl hfar)
    have hlen : (w.recv_highest - counter) / 8 < w.replay_bitmap.length := by
      rw [h.wf]
      unfold SDTP_REPLAY_WINDOW_BITS at hdiff
      unfold REPLAY_BYTES
      omega
    rw [Bitmap.bit_setBit hlen, h.bits hinit i hi, Nat.testBit_or, Nat.testBit_shiftLeft,
      testBit_one, ← Bool.decide_and]
    congr 1
    exact decide_eq_decide.mpr ⟨fun h => ⟨h.ge, by rw [h, Nat.sub_self]⟩, fun h => by omega⟩

/-- Accepting does to the bytes what it does to the window. -/
theorem stands_accept (h : w.Stands v) (hpass : w.precheck counter = true) :
    (w.accept counter).Stands (v.accept counter).2 := by
  cases hinit : w.recv_initialized with
  | false => exact stands_accept_first h hinit
  | true =>
      by_cases hlt : w.recv_highest < counter
      · exact stands_accept_above h hinit hlt
      · refine stands_accept_inside h hinit hlt fun hclosed => ?_
        rw [precheck_eq h] at hpass
        refine ReplayWindow.not_closed_of_accept hpass ?_
        exact ⟨w.recv_highest, by rw [h.highest, hinit]; rfl, Nat.le_of_not_lt hlt, hclosed⟩

/-- The first `n` bits as a number. -/
def number (f : Nat → Bool) (n : Nat) : Nat := Nat.ofBits (fun i : Fin n => f i)

theorem testBit_number (f : Nat → Bool) {n i : Nat} (hi : i < n) :
    (number f n).testBit i = f i :=
  Nat.testBit_ofBits_lt (fun i : Fin n => f i) i hi

/-- The window that the bytes stand for. -/
def window (w : Replay) : ReplayWindow where
  size := SDTP_REPLAY_WINDOW_BITS
  highest := if w.recv_initialized then some w.recv_highest else none
  bits := number w.replay_bitmap.bit SDTP_REPLAY_WINDOW_BITS

theorem stands_window (h : w.WF) : w.Stands w.window := by
  refine ⟨h, ?_, ?_, fun _ i hi => ?_⟩
  · rw [window]
  · rw [window]
  · rw [window]
    dsimp only
    rw [testBit_number _ hi]

/-! ## A counter is accepted once -/

/-- An accepted counter does not pass again, and what did not pass before
does not pass now. -/
theorem precheck_accept (h : w.WF) (hpass : w.precheck counter = true) {d : Nat}
    (hd : d = counter ∨ w.precheck d = false) : (w.accept counter).precheck d = false := by
  have hs := stands_window h
  have haccept : (w.window.accept counter).1 = true := (precheck_eq hs).symm.trans hpass
  have hclosed : d = counter ∨ w.window.Closed d := by
    refine hd.imp_right fun hd => ?_
    rw [precheck_eq hs] at hd
    exact ReplayWindow.closed_of_not_accept hd
  have hnow := ReplayWindow.closed_accept haccept d hclosed
  rw [precheck_eq (stands_accept hs hpass)]
  exact Bool.eq_false_of_not_eq_true fun hagain => ReplayWindow.not_closed_of_accept hagain hnow

end Replay

end Secdogie.Tunnel
