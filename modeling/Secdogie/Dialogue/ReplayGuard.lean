/-
# `Secdogie.Dialogue.ReplayGuard` — which headers a node takes, and when again

A header is taken if its time is near the node's clock and its number is new
in the window of its sender and session.  A full guard forgets the sessions
that were idle for more than twice the skew, and with them their numbers.  So
a number may be taken again after that (`replay_guard_spec`), but then with a
later timestamp: no header is taken twice.
-/
import Secdogie.Dialogue.Protocol
import Secdogie.Lib.OrderedDict
import Secdogie.Transport.ReplayWindow

namespace Secdogie.Dialogue

open Secdogie.Transport (ReplayWindow)

def PROTOCOL_VERSION : String := "secdogie/dialogue/v1"

/-- 30 s either way -/
def DEFAULT_MAX_SKEW_NS : Int := 30 * 1000000000
def DEFAULT_MAX_SESSIONS : Int := 1024
def DEFAULT_REPLAY_WINDOW : Int := 256

structure Header where
  version : String
  sender_did : String
  /-- binds the packet to one node -/
  recipient_did : String
  session_id : String
  seq : Int
  timestamp_ns : Int
deriving DecidableEq

instance : PostInit Header where
  post_init h :=
    if h.seq < 0 ∨ h.timestamp_ns < 0 then some "seq and timestamp_ns must be non-negative"
    else none

/-- The sequence number of a header that has passed `__post_init__`. -/
def Made.seq (h : Made Header) : Nat := h.obj.seq.toNat

theorem Made.seq_eq (h : Made Header) : (h.seq : Int) = h.obj.seq := by
  have hpost := h.post_init
  simp only [PostInit.post_init] at hpost
  split_ifs at hpost with hneg
  exact Int.toNat_of_nonneg (not_lt.mp (not_or.mp hneg).1)

/-! ## One session's window -/

/-- `_SeqWindow` -/
structure SeqWindow where
  size : Int
  highest : Option Nat := none
  /-- bit `i` is set if `highest - i` has been seen -/
  bits : Nat := 0

namespace SeqWindow

/-- Why the number is refused; `none` if it is not. -/
def check (w : SeqWindow) (seq : Nat) : Option String :=
  match w.highest with
  | none => none
  | some highest =>
      if highest < seq then none
      else
        let diff := highest - seq
        if w.size ≤ diff then some "sequence number too old (outside the replay window)"
        else if w.bits.testBit diff then some "replayed sequence number"
        else none

def commit (w : SeqWindow) (seq : Nat) : SeqWindow :=
  match w.highest with
  | none => { w with highest := some seq, bits := 1 }
  | some highest =>
      if highest < seq then
        let shift := seq - highest
        let bits :=
          if (shift : Int) < w.size then ((w.bits <<< shift) ||| 1) &&& (2 ^ w.size.toNat - 1) else 1
        { w with highest := some seq, bits }
      else { w with bits := w.bits ||| (1 <<< (highest - seq)) }

variable {w : SeqWindow} {seq : Nat}

/-- The same as a window of the transport's, where no size is negative. -/
def window (w : SeqWindow) : ReplayWindow := ⟨w.size.toNat, w.highest, w.bits⟩

theorem check_eq_none_iff : w.check seq = none ↔ (w.window.accept seq).1 = true := by
  rw [check, ReplayWindow.accept, window]
  cases w.highest with
  | none => exact iff_of_true rfl rfl
  | some highest =>
      dsimp only
      by_cases hlt : highest < seq
      · rw [if_pos hlt, if_pos hlt]
        exact iff_of_true rfl rfl
      · rw [if_neg hlt, if_neg hlt]
        by_cases hfar : w.size.toNat ≤ highest - seq
        · rw [if_pos (Int.toNat_le.mp hfar), if_pos (.inl hfar)]
          exact iff_of_false (fun h => by cases h) (fun h => by cases h)
        · rw [if_neg fun hsize => hfar (Int.toNat_le.mpr hsize)]
          by_cases hset : w.bits.testBit (highest - seq) = true
          · rw [if_pos hset, if_pos (.inr hset)]
            exact iff_of_false (fun h => by cases h) (fun h => by cases h)
          · rw [if_neg hset, if_neg (not_or.mpr ⟨hfar, hset⟩)]
            exact iff_of_true rfl rfl

theorem window_commit (h : w.check seq = none) : (w.commit seq).window = (w.window.accept seq).2 := by
  have haccept := check_eq_none_iff.mp h
  obtain ⟨size, highest, bits⟩ := w
  cases highest with
  | none => rfl
  | some highest =>
      have haccept_eq : (window ⟨size, some highest, bits⟩).accept seq =
          if highest < seq then
            (true, ⟨size.toNat, some seq, if seq - highest < size.toNat then
              ((bits <<< (seq - highest)) ||| 1) &&& (2 ^ size.toNat - 1) else 1⟩)
          else if size.toNat ≤ highest - seq ∨ bits.testBit (highest - seq) then
            (false, ⟨size.toNat, some highest, bits⟩)
          else (true, ⟨size.toNat, some highest, bits ||| (1 <<< (highest - seq))⟩) := rfl
      have hcommit_eq : commit ⟨size, some highest, bits⟩ seq =
          if highest < seq then
            ⟨size, some seq, if ((seq - highest : Nat) : Int) < size then
              ((bits <<< (seq - highest)) ||| 1) &&& (2 ^ size.toNat - 1) else 1⟩
          else ⟨size, some highest, bits ||| (1 <<< (highest - seq))⟩ := rfl
      rw [haccept_eq] at haccept ⊢
      rw [hcommit_eq]
      by_cases hlt : highest < seq
      · rw [if_pos hlt, if_pos hlt]
        by_cases hin : seq - highest < size.toNat
        · rw [if_pos hin, if_pos (Int.lt_toNat.mp hin)]
          rfl
        · rw [if_neg hin, if_neg fun hsize => hin (Int.lt_toNat.mpr hsize)]
          rfl
      · rw [if_neg hlt] at haccept
        rw [if_neg hlt, if_neg hlt]
        by_cases hclosed : size.toNat ≤ highest - seq ∨ bits.testBit (highest - seq) = true
        · rw [if_pos hclosed] at haccept
          exact nomatch haccept
        · rw [if_neg hclosed]
          rfl

/-- The window does not take the number any more. -/
abbrev Closed (w : SeqWindow) (seq : Nat) : Prop := w.window.Closed seq

theorem not_closed (h : w.check seq = none) : ¬ w.Closed seq :=
  ReplayWindow.not_closed_of_accept (check_eq_none_iff.mp h)

theorem closed_commit (h : w.check seq = none) {n : Nat} (hn : n = seq ∨ w.Closed n) :
    (w.commit seq).Closed n := by
  rw [Closed, window_commit h]
  exact ReplayWindow.closed_accept (check_eq_none_iff.mp h) n hn

end SeqWindow

/-! ## The guard -/

/-- What a guard is made with. -/
structure ReplayLimits where
  skew : Int := DEFAULT_MAX_SKEW_NS
  max : Int := DEFAULT_MAX_SESSIONS
  window : Int := DEFAULT_REPLAY_WINDOW

/-- The sender and the session, each with its window and the time of the last header taken. -/
abbrev ReplayGuard := OrderedDict (String × String) (SeqWindow × Int)

/-- The session of a header. -/
def Header.key (h : Header) : String × String := (h.sender_did, h.session_id)

namespace ReplayGuard

variable (L : ReplayLimits)

/-- `_forget_idle` -/
def forget_idle (g : ReplayGuard) (now : Int) : ReplayGuard :=
  g.filter fun _ e => decide (¬ 2 * L.skew < now - e.2)

/-- The end of `admit`, with the window of the header's session. -/
def check_in (g : ReplayGuard) (now : Int) (h : Made Header) (w : SeqWindow) :
    Option String × ReplayGuard :=
  match w.check h.seq with
  | some reason => (some reason, g)
  | none => (none, g.set h.obj.key (w.commit h.seq, now))

/-- `admit`: why the header is refused, or `none`, and the guard after it. -/
def admit_header (g : ReplayGuard) (now : Int) (h : Made Header) : Option String × ReplayGuard :=
  if L.skew < |now - h.obj.timestamp_ns| then
    (some "stale or future-dated packet (outside the clock-skew window)", g)
  else
    match g.get h.obj.key with
    | some entry => g.check_in now h entry.1
    | none =>
        if L.max ≤ g.items.length then
          let g := g.forget_idle L now
          if L.max ≤ g.items.length then (some "too many live sessions", g)
          else g.check_in now h { size := L.window }
        else g.check_in now h { size := L.window }

variable {L} {g : ReplayGuard} {now t : Int} {h : Made Header} {key : String × String} {seq : Nat}

/-- What `admit` does: it forgets sessions or not, and then refuses the header, or records it in
its session's window. -/
inductive Outcome (L : ReplayLimits) (g : ReplayGuard) (now : Int) (h : Made Header) :
    Option String × ReplayGuard → Prop
  | refused {base : ReplayGuard} (why : String)
      (hbase : base = g ∨ base = g.forget_idle L now ∧ g.get h.obj.key = none) :
      Outcome L g now h (some why, base)
  | taken {base : ReplayGuard} (w : SeqWindow)
      (hbase : base = g ∨ base = g.forget_idle L now ∧ g.get h.obj.key = none)
      (hnear : |now - h.obj.timestamp_ns| ≤ L.skew) (hcheck : w.check h.seq = none)
      (hentry : (∃ seen, base.get h.obj.key = some (w, seen)) ∨
        base.get h.obj.key = none ∧ (base.items.length : Int) < L.max) :
      Outcome L g now h (none, base.set h.obj.key (w.commit h.seq, now))

theorem outcome_check_in {base : ReplayGuard} {w : SeqWindow}
    (hbase : base = g ∨ base = g.forget_idle L now ∧ g.get h.obj.key = none)
    (hnear : |now - h.obj.timestamp_ns| ≤ L.skew)
    (hentry : (∃ seen, base.get h.obj.key = some (w, seen)) ∨
      base.get h.obj.key = none ∧ (base.items.length : Int) < L.max) :
    Outcome L g now h (base.check_in now h w) := by
  rw [check_in]
  cases hcheck : w.check h.seq with
  | some why => exact .refused why hbase
  | none => exact .taken w hbase hnear hcheck hentry

theorem get_forget_idle_none (hnone : g.get key = none) : (g.forget_idle L now).get key = none := by
  rw [Option.eq_none_iff_forall_ne_some] at hnone ⊢
  exact fun e he => hnone e (OrderedDict.get_filter_eq_some_iff.mp he).1

theorem outcome (g : ReplayGuard) (now : Int) (h : Made Header) :
    Outcome L g now h (g.admit_header L now h) := by
  rw [admit_header]
  by_cases hfar : L.skew < |now - h.obj.timestamp_ns|
  · rw [if_pos hfar]
    exact .refused _ (.inl rfl)
  rw [if_neg hfar]
  have hnear := not_lt.mp hfar
  cases hentry : g.get h.obj.key with
  | some entry => exact outcome_check_in (.inl rfl) hnear (.inl ⟨entry.2, hentry⟩)
  | none =>
      dsimp only
      by_cases hfull : L.max ≤ g.items.length
      · rw [if_pos hfull]
        have hbase := Or.inr (a := g.forget_idle L now = g)
          (And.intro (Eq.refl (g.forget_idle L now)) hentry)
        by_cases hstill : L.max ≤ (g.forget_idle L now).items.length
        · rw [if_pos hstill]
          exact .refused _ hbase
        · rw [if_neg hstill]
          exact outcome_check_in hbase hnear
            (.inr ⟨get_forget_idle_none hentry, not_le.mp hstill⟩)
      · rw [if_neg hfull]
        exact outcome_check_in (.inl rfl) hnear (.inr ⟨hentry, not_le.mp hfull⟩)

/-! ## What the guard remembers -/

/-- The number was taken at `t` or before, and its session is still held. -/
def Remembers (g : ReplayGuard) (key : String × String) (seq : Nat) (t : Int) : Prop :=
  ∃ w seen, g.get key = some (w, seen) ∧ w.Closed seq ∧ t ≤ seen

/-- A header that comes at a time. -/
abbrev Call := Int × Made Header

/-- The guard takes the header. -/
def Takes (L : ReplayLimits) (g : ReplayGuard) (c : Call) : Prop :=
  (g.admit_header L c.1 c.2).1 = none

/-- The guard after a header. -/
def next (L : ReplayLimits) (g : ReplayGuard) (c : Call) : ReplayGuard :=
  (g.admit_header L c.1 c.2).2

theorem Takes.near {c : Call} (ht : Takes L g c) : |c.1 - c.2.obj.timestamp_ns| ≤ L.skew := by
  have hout := outcome (L := L) g c.1 c.2
  rw [Takes] at ht
  generalize g.admit_header L c.1 c.2 = r at hout ht
  cases hout with
  | refused why _ => exact nomatch ht
  | taken w _ hnear _ _ => exact hnear

theorem Takes.remembers {c : Call} (ht : Takes L g c) :
    Remembers (next L g c) c.2.obj.key c.2.seq c.1 := by
  have hout := outcome (L := L) g c.1 c.2
  rw [Takes] at ht
  rw [next]
  generalize g.admit_header L c.1 c.2 = r at hout ht
  cases hout with
  | refused why _ => exact nomatch ht
  | taken w _ _ hcheck _ =>
      refine ⟨_, _, ?_, SeqWindow.closed_commit hcheck (.inl rfl), le_rfl⟩
      rw [OrderedDict.get_set, if_pos rfl]

/-- A number that is remembered is not taken. -/
theorem Remembers.not_takes {c : Call} (hr : Remembers g c.2.obj.key c.2.seq t) :
    ¬ Takes L g c := by
  intro ht
  obtain ⟨w, seen, hget, hclosed, -⟩ := hr
  have hout := outcome (L := L) g c.1 c.2
  rw [Takes] at ht
  generalize g.admit_header L c.1 c.2 = r at hout ht
  cases hout with
  | refused why _ => exact nomatch ht
  | taken w' hbase _ hcheck hentry =>
      have hbase := hbase.resolve_right fun hf => nomatch hf.2.symm.trans hget
      rw [hbase, hget] at hentry
      rcases hentry with ⟨seen', heq⟩ | ⟨hnone, -⟩
      · obtain ⟨rfl, rfl⟩ := Prod.mk.inj (Option.some.inj heq)
        exact SeqWindow.not_closed hcheck hclosed
      · exact nomatch hnone

/-- One more header leaves what is remembered, or forgets a session that was idle for more than
twice the skew. -/
theorem Remembers.next {c : Call} (hr : Remembers g key seq t) (hclock : t ≤ c.1) :
    Remembers (next L g c) key seq t ∨ (ReplayGuard.next L g c).get key = none ∧ t + 2 * L.skew < c.1 := by
  obtain ⟨w, seen, hget, hclosed, hseen⟩ := hr
  have hkept : ∀ base : ReplayGuard,
      base = g ∨ base = g.forget_idle L c.1 ∧ g.get c.2.obj.key = none →
      base.get key = some (w, seen) ∨ base.get key = none ∧ t + 2 * L.skew < c.1 ∧ c.2.obj.key ≠ key := by
    rintro base (rfl | ⟨rfl, hother⟩)
    · exact .inl hget
    · by_cases hidle : 2 * L.skew < c.1 - seen
      · refine .inr ⟨?_, by omega, ?_⟩
        · rw [Option.eq_none_iff_forall_ne_some]
          intro e he
          obtain ⟨heq, hlive⟩ := OrderedDict.get_filter_eq_some_iff.mp he
          obtain rfl := Option.some.inj (hget.symm.trans heq)
          exact of_decide_eq_true hlive hidle
        · rintro rfl
          exact nomatch hother.symm.trans hget
      · exact .inl (OrderedDict.get_filter_eq_some_iff.mpr ⟨hget, decide_eq_true hidle⟩)
  have hout := outcome (L := L) g c.1 c.2
  rw [ReplayGuard.next]
  generalize g.admit_header L c.1 c.2 = r at hout
  cases hout with
  | refused why hbase =>
      rcases hkept _ hbase with hsame | ⟨hgone, hlong, -⟩
      · exact .inl ⟨w, seen, hsame, hclosed, hseen⟩
      · exact .inr ⟨hgone, hlong⟩
  | @taken base w' hbase _ hcheck hentry =>
      rcases hkept _ hbase with hsame | ⟨hgone, hlong, hne⟩
      · refine .inl ?_
        by_cases hkey : key = c.2.obj.key
        · -- the session's own window moves on
          rw [← hkey, hsame] at hentry
          rcases hentry with ⟨seen', heq⟩ | ⟨hnone, -⟩
          · obtain ⟨rfl, rfl⟩ := Prod.mk.inj (Option.some.inj heq)
            refine ⟨_, _, ?_, SeqWindow.closed_commit hcheck (.inr hclosed), hclock⟩
            rw [OrderedDict.get_set, if_pos hkey]
          · exact nomatch hnone
        · refine ⟨w, seen, ?_, hclosed, hseen⟩
          rw [OrderedDict.get_set, if_neg hkey]
          exact hsame
      · refine .inr ⟨?_, hlong⟩
        rw [OrderedDict.get_set, if_neg hne.symm]
        exact hgone

theorem Remembers.run : ∀ {cs : List Call} {g : ReplayGuard}, Remembers g key seq t →
    (∀ c ∈ cs, t ≤ c.1) → Remembers (cs.foldl (ReplayGuard.next L) g) key seq t ∨
      ∃ cs₁ c cs₂, cs = cs₁ ++ c :: cs₂ ∧
        ((cs₁ ++ [c]).foldl (ReplayGuard.next L) g).get key = none ∧ t + 2 * L.skew < c.1
  | [], _, hr, _ => .inl hr
  | c :: cs, g, hr, hclock => by
      rcases hr.next (L := L) (hclock c List.mem_cons_self) with hr | ⟨hgone, hlong⟩
      · rcases hr.run fun c' hc' => hclock c' (List.mem_cons_of_mem c hc') with
          hr | ⟨cs₁, c', cs₂, rfl, hgone, hlong⟩
        · exact .inl hr
        · exact .inr ⟨c :: cs₁, c', cs₂, rfl, hgone, hlong⟩
      · exact .inr ⟨[], c, cs, rfl, hgone, hlong⟩

theorem length_next (c : Call) (hle : (g.items.length : Int) ≤ Max.max 0 L.max) :
    ((next L g c).items.length : Int) ≤ Max.max 0 L.max := by
  have hbase : ∀ base : ReplayGuard,
      base = g ∨ base = g.forget_idle L c.1 ∧ g.get c.2.obj.key = none →
      base.items.length ≤ g.items.length := by
    rintro base (rfl | ⟨rfl, -⟩)
    · exact le_rfl
    · exact OrderedDict.length_filter_le
  have hout := outcome (L := L) g c.1 c.2
  rw [next]
  generalize g.admit_header L c.1 c.2 = r at hout
  cases hout with
  | refused why hb =>
      have hlen := hbase _ hb
      dsimp only
      omega
  | taken w hb _ _ hentry =>
      have hlen := hbase _ hb
      dsimp only
      rw [OrderedDict.length_set]
      rcases hentry with ⟨seen, hget⟩ | ⟨hnone, hroom⟩
      · rw [hget, if_neg fun hf => nomatch hf]
        omega
      · rw [hnone, if_pos rfl]
        omega

/-- The guard after headers in a row, from an empty one. -/
def after (L : ReplayLimits) (cs : List Call) : ReplayGuard := cs.foldl (next L) .empty

end ReplayGuard

open ReplayGuard in
/-- Of the headers that come while the clock does not go back: one whose sender, session and
number were taken before is taken only if its session was forgotten in between, after more than
twice the skew, and it carries a later timestamp; so no header is taken twice.  And the sessions
held are no more than the greatest number of them. -/
theorem replay_guard_spec (L : ReplayLimits) (cs : List Call)
    (hclock : (cs.map Prod.fst).Pairwise (· ≤ ·)) :
    (∀ cs₁ c cs₂ c' cs₃, cs = cs₁ ++ c :: (cs₂ ++ c' :: cs₃) → Takes L (after L cs₁) c →
      Takes L (after L (cs₁ ++ c :: cs₂)) c' → c'.2.obj.key = c.2.obj.key →
      c'.2.obj.seq = c.2.obj.seq →
      (∃ cs₄ cs₅, cs₂ = cs₄ ++ cs₅ ∧ (after L (cs₁ ++ c :: cs₄)).get c.2.obj.key = none) ∧
      c.1 + 2 * L.skew < c'.1 ∧ c.2.obj.timestamp_ns < c'.2.obj.timestamp_ns) ∧
    ∀ cs₁ cs₂, cs = cs₁ ++ cs₂ → ((after L cs₁).items.length : Int) ≤ Max.max 0 L.max := by
  constructor
  · rintro cs₁ c cs₂ c' cs₃ rfl htake htake' hkey hseq
    rw [List.map_append, List.map_cons, List.map_append, List.map_cons] at hclock
    obtain ⟨-, hclock, -⟩ := List.pairwise_append.mp hclock
    obtain ⟨hafter, hclock⟩ := List.pairwise_cons.mp hclock
    have hmid : ∀ d ∈ cs₂, c.1 ≤ d.1 := fun d hd =>
      hafter d.1 (List.mem_append_left _ (List.mem_map_of_mem hd))
    have hlast : ∀ d ∈ cs₂, d.1 ≤ c'.1 := fun d hd =>
      (List.pairwise_append.mp hclock).2.2 d.1 (List.mem_map_of_mem hd) c'.1 List.mem_cons_self
    have hsplit : ∀ l, after L (cs₁ ++ c :: l) = l.foldl (next L) (next L (after L cs₁) c) :=
      fun l => by rw [after, List.foldl_append, List.foldl_cons]; rfl
    have hseq' : c'.2.seq = c.2.seq := congrArg Int.toNat hseq
    rcases htake.remembers.run (L := L) hmid with hr | ⟨cs₄, d, cs₅, hcs, hgone, hlong⟩
    · rw [← hsplit, ← hkey, ← hseq'] at hr
      exact absurd htake' hr.not_takes
    · have hd := hlast d (hcs ▸ List.mem_append_right _ List.mem_cons_self)
      refine ⟨⟨cs₄ ++ [d], cs₅, by rw [hcs, List.append_assoc]; rfl, ?_⟩, by omega, ?_⟩
      · rw [hsplit]
        exact hgone
      · have hnear := abs_le.mp htake.near
        have hnear' := abs_le.mp htake'.near
        omega
  · intro cs₁ _ _
    have hrun : ∀ (l : List Call) (g : ReplayGuard), (g.items.length : Int) ≤ Max.max 0 L.max →
        ((l.foldl (next L) g).items.length : Int) ≤ Max.max 0 L.max := by
      intro l
      induction l with
      | nil => exact fun g hg => hg
      | cons c l ih => exact fun g hg => ih (next L g c) (length_next c hg)
    exact hrun cs₁ .empty (le_max_left 0 L.max)

namespace ReplayGuard

/-- A header of the session `s`, with the number 1. -/
def header (sender_did : String) (timestamp_ns : Nat) : Made Header where
  obj := { version := PROTOCOL_VERSION, sender_did, recipient_did := "node", session_id := "s",
           seq := 1, timestamp_ns }
  post_init := if_neg (not_or.mpr ⟨Int.not_lt.mpr (Int.one_nonneg), not_lt.mpr (Int.natCast_nonneg timestamp_ns)⟩)

/-- Room for one session, and a skew of 10: `a` is forgotten for `b`, and `b` for `a`. -/
def displaced : List Call := [(0, header "a" 0), (21, header "b" 21), (42, header "a" 42)]

def displacedLimits : ReplayLimits := { skew := 10, max := 1 }

/-- The number 1 of one session is taken twice. -/
theorem taken_again :
    ∃ c c' : Call, displaced = [] ++ c :: ([(21, header "b" 21)] ++ c' :: []) ∧
      (displaced.map Prod.fst).Pairwise (· ≤ ·) ∧
      Takes displacedLimits (after displacedLimits []) c ∧
      Takes displacedLimits (after displacedLimits ([] ++ c :: [(21, header "b" 21)])) c' ∧
      c'.2.obj.key = c.2.obj.key ∧ c'.2.obj.seq = c.2.obj.seq :=
  ⟨(0, header "a" 0), (42, header "a" 42), rfl, by decide, rfl, rfl, rfl, rfl⟩

theorem replay_guard_spec_displaced :
    (∀ cs₁ c cs₂ c' cs₃, displaced = cs₁ ++ c :: (cs₂ ++ c' :: cs₃) →
      Takes displacedLimits (after displacedLimits cs₁) c →
      Takes displacedLimits (after displacedLimits (cs₁ ++ c :: cs₂)) c' →
      c'.2.obj.key = c.2.obj.key → c'.2.obj.seq = c.2.obj.seq →
      (∃ cs₄ cs₅, cs₂ = cs₄ ++ cs₅ ∧
        (after displacedLimits (cs₁ ++ c :: cs₄)).get c.2.obj.key = none) ∧
      c.1 + 2 * displacedLimits.skew < c'.1 ∧ c.2.obj.timestamp_ns < c'.2.obj.timestamp_ns) ∧
    ∀ cs₁ cs₂, displaced = cs₁ ++ cs₂ →
      ((after displacedLimits cs₁).items.length : Int) ≤ Max.max 0 displacedLimits.max :=
  replay_guard_spec displacedLimits displaced (by decide)

end ReplayGuard

end Secdogie.Dialogue
