/-
# `Secdogie.Lib.Grouping` — grouping by the first member, and what order does to it

A list is grouped greedily: an element joins the first group whose FIRST
member is related to it, and otherwise opens a group of its own.  The
relation is symmetric and reflexive, but nobody promises that it is
transitive, so the groups, and which of them is the largest, depend on the
order of the list.

How much they do is decided by the support of an element, the number of
elements related to it.  Put first, an element collects all its support
(`groups_cons`); so the largest group is the same for every order, and its
members are related to each other, just when the elements of the greatest
support are related to exactly each other (`Settled`, `settled_iff`).
-/
import Mathlib

namespace Secdogie.Grouping

section

variable {α : Type} (r : α → α → Bool)

/-- A group: its first member and those that joined it. -/
abbrev Group (α : Type) := α × List α

def Group.members (g : Group α) : List α := g.1 :: g.2

def Group.size (g : Group α) : Nat := g.2.length + 1

/-- Joins the first group that takes `x`, or opens one. -/
def place (x : α) : List (Group α) → List (Group α)
  | [] => [(x, [])]
  | g :: gs => if r g.1 x then (g.1, g.2 ++ [x]) :: gs else g :: place x gs

def groups (l : List α) : List (Group α) := l.foldl (fun gs x => place r x gs) []

/-- The first group of the greatest size. -/
def largest : List (Group α) → Option (Group α)
  | [] => none
  | g :: gs =>
      match largest gs with
      | none => some g
      | some h => if g.size < h.size then some h else some g

/-- How many elements of `l` the element is related to. -/
def support (l : List α) (v : α) : Nat := (l.filter (r v)).length

/-- No element has more support. -/
def Top (l : List α) (v : α) : Prop := v ∈ l ∧ ∀ w ∈ l, support r l w ≤ support r l v

/-- For a family of lists: too little support for everyone in any of them; or
enough for someone in each, those related to an element of the greatest
support have the greatest support, and such elements are related to each
other across the lists. -/
def Settled (need : Nat) (E : List α → Prop) : Prop :=
  (∀ l, E l → ∀ v ∈ l, support r l v < need) ∨
    ∀ l, E l → (∃ v ∈ l, need ≤ support r l v) ∧
      (∀ v, Top r l v → ∀ w ∈ l, r v w = true → Top r l w) ∧
      ∀ l', E l' → ∀ v v', Top r l v → Top r l' v' → r v v' = true

end

/-! ## What a group is -/

section

variable {α : Type} {r : α → α → Bool}

theorem foldl_place_cons {v : α} : ∀ (l acc : List α) (gs : List (Group α)),
    l.foldl (fun gs x => place r x gs) ((v, acc) :: gs) =
      (v, acc ++ l.filter (r v)) ::
        (l.filter (fun x => !r v x)).foldl (fun gs x => place r x gs) gs := by
  intro l
  induction l with
  | nil => intro acc gs; simp
  | cons x l ih =>
      intro acc gs
      rw [List.foldl_cons, place]
      cases hx : r v x with
      | true => rw [if_pos rfl, ih]; simp [hx]
      | false => rw [if_neg (by simp), ih]; simp [hx]

/-- The first element collects everything related to it; the rest is grouped
on its own. -/
theorem groups_cons (v : α) (l : List α) :
    groups r (v :: l) = (v, l.filter (r v)) :: groups r (l.filter (fun x => !r v x)) := by
  rw [groups, List.foldl_cons]
  exact foldl_place_cons l [] []

/-- An induction over how a list is grouped. -/
theorem groups_induction {P : List α → Prop} (nil : P [])
    (cons : ∀ v l, P (l.filter (fun x => !r v x)) → P (v :: l)) (l : List α) : P l := by
  induction hn : l.length using Nat.strong_induction_on generalizing l with
  | _ n ih =>
      cases l with
      | nil => exact nil
      | cons v l =>
          refine cons v l (ih _ ?_ _ rfl)
          rw [← hn, List.length_cons]
          exact Nat.lt_succ_of_le (List.length_filter_le _ _)

theorem members_sublist (l : List α) : ∀ g ∈ groups r l, g.members.Sublist l := by
  induction l using groups_induction (r := r) with
  | nil => intro g hg; cases hg
  | cons v l ih =>
      intro g hg
      rw [groups_cons, List.mem_cons] at hg
      rcases hg with rfl | hg
      · exact List.filter_sublist.cons_cons v
      · exact ((ih g hg).trans List.filter_sublist).cons v

theorem related_of_mem (l : List α) : ∀ g ∈ groups r l, ∀ x ∈ g.2, r g.1 x = true := by
  induction l using groups_induction (r := r) with
  | nil => intro g hg; cases hg
  | cons v l ih =>
      intro g hg x hx
      rw [groups_cons, List.mem_cons] at hg
      rcases hg with rfl | hg
      · exact (List.mem_filter.mp hx).2
      · exact ih g hg x hx

theorem groups_eq_nil {l : List α} : groups r l = [] ↔ l = [] := by
  cases l with
  | nil => exact ⟨fun _ => rfl, fun _ => rfl⟩
  | cons v l => rw [groups_cons]; simp

theorem support_perm {l l' : List α} (h : l.Perm l') (v : α) : support r l v = support r l' v :=
  (h.filter _).length_eq

theorem top_perm {l l' : List α} (h : l.Perm l') {v : α} : Top r l v ↔ Top r l' v := by
  rw [Top, Top, h.mem_iff]
  simp only [support_perm h, h.mem_iff]

theorem head_mem {l : List α} {g : Group α} (hg : g ∈ groups r l) : g.1 ∈ l :=
  (members_sublist l g hg).subset List.mem_cons_self

/-- A group is no larger than the support of its first member. -/
theorem size_le_support {l : List α} (hrefl : ∀ x ∈ l, r x x = true) :
    ∀ g ∈ groups r l, g.size ≤ support r l g.1 := by
  intro g hg
  have hfilter : g.members.filter (r g.1) = g.members := by
    refine List.filter_eq_self.mpr fun x hx => ?_
    rcases List.mem_cons.mp hx with rfl | hx
    · exact hrefl _ (head_mem hg)
    · exact related_of_mem l g hg x hx
  have hsub : (g.members.filter (r g.1)).Sublist (l.filter (r g.1)) :=
    (members_sublist l g hg).filter _
  rw [hfilter] at hsub
  exact hsub.length_le

/-! ## The largest group -/

theorem largest_eq_none {gs : List (Group α)} : largest gs = none ↔ gs = [] := by
  cases gs with
  | nil => exact ⟨fun _ => rfl, fun _ => rfl⟩
  | cons g gs =>
      rw [largest]
      cases largest gs with
      | none => simp
      | some h => simp only [ite_eq_iff]; simp

theorem largest_spec : ∀ {gs : List (Group α)} {g : Group α}, largest gs = some g →
    g ∈ gs ∧ ∀ h ∈ gs, h.size ≤ g.size := by
  intro gs
  induction gs with
  | nil => intro g h; cases h
  | cons g₀ gs ih =>
      intro g h
      rw [largest] at h
      cases hrest : largest gs with
      | none =>
          rw [hrest] at h
          obtain rfl := Option.some.inj h
          obtain rfl := largest_eq_none.mp hrest
          exact ⟨List.mem_cons_self, by simp⟩
      | some g₁ =>
          rw [hrest] at h
          obtain ⟨hmem, hmax⟩ := ih hrest
          dsimp only at h
          split_ifs at h with hlt
          · obtain rfl := Option.some.inj h
            refine ⟨List.mem_cons_of_mem _ hmem, fun h' hh' => ?_⟩
            rcases List.mem_cons.mp hh' with rfl | hh'
            · exact hlt.le
            · exact hmax h' hh'
          · obtain rfl := Option.some.inj h
            refine ⟨List.mem_cons_self, fun h' hh' => ?_⟩
            rcases List.mem_cons.mp hh' with rfl | hh'
            · exact le_rfl
            · exact (hmax h' hh').trans (not_lt.mp hlt)

/-- The first group is the largest when no other is larger. -/
theorem largest_head {g : Group α} {gs : List (Group α)} (h : ∀ g' ∈ gs, g'.size ≤ g.size) :
    largest (g :: gs) = some g := by
  rw [largest]
  cases hrest : largest gs with
  | none => rfl
  | some g' => exact if_neg (not_lt.mpr (h g' (largest_spec hrest).1))

theorem exists_top {l : List α} (hl : l ≠ []) : ∃ v, Top r l v := by
  obtain ⟨v, hv, hmax⟩ := Set.exists_max_image {v | v ∈ l} (support r l) l.finite_toSet
    (List.exists_mem_of_ne_nil l hl)
  exact ⟨v, hv, hmax⟩

/-! ## A class that is related to nobody else -/

/-- If the elements with `K` are related to exactly each other, they form one
group, and the other groups have none of them. -/
theorem groups_of_class (hsymm : ∀ x y, r x y = r y x) {K : α → Bool} (l : List α)
    (hK : ∀ v ∈ l, K v = true → ∀ w ∈ l, r v w = K w) :
    (∀ v ∈ l, K v = true → ∃ g ∈ groups r l, g.members = l.filter K) ∧
      ∀ g ∈ groups r l, g.members = l.filter K ∨ ∀ x ∈ g.members, K x = false := by
  induction l using groups_induction (r := r) with
  | nil => exact ⟨fun v hv => absurd hv List.not_mem_nil, fun g hg => absurd hg List.not_mem_nil⟩
  | cons v l ih =>
      have hrest : ∀ u ∈ l.filter (fun x => !r v x), K u = true →
          ∀ w ∈ l.filter (fun x => !r v x), r u w = K w := fun u hu hKu w hw =>
        hK u (List.mem_cons_of_mem _ (List.mem_filter.mp hu).1) hKu w
          (List.mem_cons_of_mem _ (List.mem_filter.mp hw).1)
      obtain ⟨ihmem, ihgroups⟩ := ih hrest
      rw [groups_cons]
      cases hKv : K v with
      | true =>
          have hrv : ∀ w ∈ l, r v w = K w := fun w hw =>
            hK v List.mem_cons_self hKv w (List.mem_cons_of_mem _ hw)
          have hmembers : Group.members (v, l.filter (r v)) = (v :: l).filter K := by
            rw [List.filter_cons_of_pos hKv, Group.members, List.filter_congr hrv]
          have hnone : ∀ x ∈ l.filter (fun x => !r v x), K x = false := fun x hx => by
            obtain ⟨hxl, hx⟩ := List.mem_filter.mp hx
            rw [← hrv x hxl]
            simpa using hx
          refine ⟨fun _ _ _ => ⟨_, List.mem_cons_self, hmembers⟩, fun g hg => ?_⟩
          rcases List.mem_cons.mp hg with rfl | hg
          · exact .inl hmembers
          · exact .inr fun x hx => hnone x ((members_sublist _ g hg).subset hx)
      | false =>
          -- nobody of the class is related to `v`, so none is lost to its group
          have hnv : ∀ w ∈ l, K w = true → r v w = false := fun w hw hKw => by
            rw [hsymm, hK w (List.mem_cons_of_mem _ hw) hKw v List.mem_cons_self, hKv]
          have hfilter : (l.filter (fun x => !r v x)).filter K = (v :: l).filter K := by
            rw [List.filter_cons_of_neg (by simp [hKv]), List.filter_filter]
            refine List.filter_congr fun x hx => ?_
            cases hKx : K x with
            | true => rw [hnv x hx hKx]; rfl
            | false => rfl
          refine ⟨fun u hu hKu => ?_, fun g hg => ?_⟩
          · have hul : u ∈ l := (List.mem_cons.mp hu).resolve_left (fun h => by
              rw [h, hKv] at hKu; cases hKu)
            obtain ⟨g, hg, hmembers⟩ :=
              ihmem u (List.mem_filter.mpr ⟨hul, by rw [hnv u hul hKu]; rfl⟩) hKu
            exact ⟨g, List.mem_cons_of_mem _ hg, hmembers.trans hfilter⟩
          · rcases List.mem_cons.mp hg with rfl | hg
            · refine .inr fun x hx => ?_
              rcases List.mem_cons.mp hx with rfl | hx
              · exact hKv
              · obtain ⟨hxl, hrx⟩ := List.mem_filter.mp hx
                cases hKx : K x with
                | true => rw [hnv x hxl hKx] at hrx; cases hrx
                | false => rfl
            · exact (ihgroups g hg).imp_left (fun h => h.trans hfilter)

/-! ## What every order agrees on -/

/-- Too little support for everyone: no group is large enough. -/
theorem largest_lt {l : List α} (hrefl : ∀ x ∈ l, r x x = true) {need : Nat}
    (h : ∀ v ∈ l, support r l v < need) {g : Group α} (hg : largest (groups r l) = some g) :
    g.size < need := by
  have hmem := (largest_spec hg).1
  exact (size_le_support hrefl g hmem).trans_lt (h g.1 (head_mem hmem))

/-- When those of the greatest support are related to exactly each other, they
are the largest group. -/
theorem largest_eq_tops (hsymm : ∀ x y, r x y = r y x) {l : List α}
    (hrefl : ∀ x ∈ l, r x x = true)
    (htop : ∀ v, Top r l v → ∀ w ∈ l, (r v w = true ↔ Top r l w)) {g : Group α}
    (hg : largest (groups r l) = some g) :
    (∀ x, x ∈ g.members ↔ Top r l x) ∧ ∀ v, Top r l v → g.size = support r l v := by
  classical
  have hl : l ≠ [] := fun h => by
    rw [groups_eq_nil.mpr h] at hg
    cases hg
  obtain ⟨v, hv⟩ := exists_top (r := r) hl
  have hK : ∀ u ∈ l, decide (Top r l u) = true → ∀ w ∈ l, r u w = decide (Top r l w) :=
    fun u _ hu w hw => Bool.eq_iff_iff.mpr
      ((htop u (of_decide_eq_true hu) w hw).trans decide_eq_true_iff.symm)
  obtain ⟨hclass, hgroups⟩ := groups_of_class hsymm l hK
  obtain ⟨g₀, hg₀, hmembers⟩ := hclass v hv.1 (decide_eq_true hv)
  have hsize : ∀ u, Top r l u → g₀.size = support r l u := fun u hu => by
    have hfilter : l.filter (r u) = l.filter (fun w => decide (Top r l w)) :=
      List.filter_congr fun w hw => hK u hu.1 (decide_eq_true hu) w hw
    rw [support, hfilter, ← hmembers]
    rfl
  obtain ⟨hmem, hmax⟩ := largest_spec hg
  have hgtop : g.members = l.filter (fun w => decide (Top r l w)) := by
    rcases hgroups g hmem with heq | hnone
    · exact heq
    · -- a group of others is smaller than the support of any of the class
      have hhead : ¬ Top r l g.1 := of_decide_eq_false (hnone g.1 List.mem_cons_self)
      have hlt : support r l g.1 < support r l v := by
        by_contra hge
        exact hhead ⟨head_mem hmem, fun w hw => (hv.2 w hw).trans (not_lt.mp hge)⟩
      have h1 := size_le_support hrefl g hmem
      have h2 := hmax g₀ hg₀
      rw [hsize v hv] at h2
      exact absurd (h2.trans h1) (not_le.mpr hlt)
  refine ⟨fun x => ?_, fun u hu => ?_⟩
  · rw [hgtop, List.mem_filter, decide_eq_true_iff]
    exact ⟨And.right, fun h => ⟨h.1, h⟩⟩
  · have hlen : g.members.length = g₀.members.length := congrArg List.length (hgtop.trans hmembers.symm)
    exact (show g.size = g₀.size from hlen).trans (hsize u hu)

/-- Put first, an element of the greatest support makes the largest group, of
everything it is related to. -/
theorem largest_cons_top {v : α} {l : List α} (hrefl : ∀ x ∈ v :: l, r x x = true)
    (hv : Top r (v :: l) v) :
    largest (groups r (v :: l)) = some (v, l.filter (r v)) ∧
      Group.size (v, l.filter (r v)) = support r (v :: l) v := by
  have hsize : Group.size (v, l.filter (r v)) = support r (v :: l) v := by
    rw [support, List.filter_cons_of_pos (hrefl v List.mem_cons_self)]
    rfl
  refine ⟨?_, hsize⟩
  have hle : ∀ g ∈ groups r (v :: l), g.size ≤ support r (v :: l) v := fun g hg =>
    (size_le_support hrefl g hg).trans (hv.2 g.1 (head_mem hg))
  rw [groups_cons] at hle ⊢
  refine largest_head fun g hg => ?_
  rw [hsize]
  exact hle g (List.mem_cons_of_mem _ hg)

theorem support_le_of_related {l : List α} {v w : α}
    (h : ∀ x ∈ l, r v x = true → r w x = true) : support r l v ≤ support r l w := by
  rw [support, support, ← List.countP_eq_length_filter, ← List.countP_eq_length_filter]
  exact List.countP_mono_left h

/-- A family of lists, closed under permutation, is settled just when all its
largest groups are too small, or all are large enough and their members are
related to each other, within a list and across lists. -/
theorem settled_iff (hsymm : ∀ x y, r x y = r y x) {need : Nat} {E : List α → Prop}
    (hperm : ∀ {l l'}, l.Perm l' → E l → E l') (hrefl : ∀ l, E l → ∀ x ∈ l, r x x = true) :
    Settled r need E ↔
      (∀ l g, E l → largest (groups r l) = some g → g.size < need) ∨
        ∀ l, E l → ∃ g, largest (groups r l) = some g ∧ need ≤ g.size ∧
          ∀ l' g', E l' → largest (groups r l') = some g' →
            ∀ x ∈ g.members, ∀ y ∈ g'.members, r x y = true := by
  classical
  constructor
  · rintro (hlow | hhigh)
    · exact .inl fun l g hl hg => largest_lt (hrefl l hl) (hlow l hl) hg
    · refine .inr fun l hl => ?_
      have htop : ∀ l, E l → ∀ v, Top r l v → ∀ w ∈ l, (r v w = true ↔ Top r l w) :=
        fun l hl v hv w hw => ⟨(hhigh l hl).2.1 v hv w hw, fun hwtop =>
          (hhigh l hl).2.2 l hl v w hv hwtop⟩
      obtain ⟨⟨v, hv, hneed⟩, -, hcross⟩ := hhigh l hl
      cases hg : largest (groups r l) with
      | none =>
          rw [largest_eq_none, groups_eq_nil] at hg
          rw [hg] at hv
          cases hv
      | some g =>
          obtain ⟨hmem, hsize⟩ := largest_eq_tops hsymm (hrefl l hl) (htop l hl) hg
          obtain ⟨t, ht⟩ := exists_top (r := r) (List.ne_nil_of_mem hv)
          refine ⟨g, rfl, ?_, fun l' g' hl' hg' x hx y hy => ?_⟩
          · rw [hsize t ht]
            exact hneed.trans (ht.2 v hv)
          · obtain ⟨hmem', -⟩ := largest_eq_tops hsymm (hrefl l' hl') (htop l' hl') hg'
            exact hcross l' hl' x y ((hmem x).mp hx) ((hmem' y).mp hy)
  · -- an element of the greatest support, put first
    have hfirst : ∀ l, E l → ∀ v, Top r l v → E (v :: l.erase v) ∧
        largest (groups r (v :: l.erase v)) = some (v, (l.erase v).filter (r v)) ∧
        Group.size (v, (l.erase v).filter (r v)) = support r l v := fun l hl v hv => by
      have hp : l.Perm (v :: l.erase v) := List.perm_cons_erase hv.1
      have h := largest_cons_top (hrefl _ (hperm hp hl)) ((top_perm hp).mp hv)
      rw [← support_perm hp] at h
      exact ⟨hperm hp hl, h⟩
    have hstar : ∀ l, E l → ∀ v, Top r l v → ∀ w ∈ l, r v w = true →
        w ∈ Group.members (v, (l.erase v).filter (r v)) := fun l hl v hv w hw hvw => by
      by_cases heq : w = v
      · rw [heq]
        exact List.mem_cons_self
      · exact List.mem_cons_of_mem _ (List.mem_filter.mpr ⟨(List.mem_erase_of_ne heq).mpr hw, hvw⟩)
    rintro (hlow | hhigh)
    · refine .inl fun l hl v hv => ?_
      obtain ⟨t, ht⟩ := exists_top (r := r) (List.ne_nil_of_mem hv)
      obtain ⟨hE, hlargest, hsize⟩ := hfirst l hl t ht
      exact (ht.2 v hv).trans_lt (hsize ▸ hlow _ _ hE hlargest)
    · refine .inr fun l hl => ⟨?_, fun v hv w hw hvw => ⟨hw, fun x hx => ?_⟩, ?_⟩
      · obtain ⟨g, hg, hneed, -⟩ := hhigh l hl
        exact ⟨g.1, head_mem (largest_spec hg).1,
          hneed.trans (size_le_support (hrefl l hl) g (largest_spec hg).1)⟩
      · obtain ⟨hE, hlargest, -⟩ := hfirst l hl v hv
        obtain ⟨g, hg, -, hrelated⟩ := hhigh _ hE
        obtain rfl := Option.some.inj (hg.symm.trans hlargest)
        refine (hv.2 x hx).trans (support_le_of_related fun y hy hvy => ?_)
        exact hrelated _ _ hE hlargest w (hstar l hl v hv w hw hvw) y (hstar l hl v hv y hy hvy)
      · intro l' hl' v v' hv hv'
        obtain ⟨hE, hlargest, -⟩ := hfirst l hl v hv
        obtain ⟨hE', hlargest', -⟩ := hfirst l' hl' v' hv'
        obtain ⟨g, hg, -, hrelated⟩ := hhigh _ hE
        obtain rfl := Option.some.inj (hg.symm.trans hlargest)
        exact hrelated _ _ hE' hlargest' v List.mem_cons_self v' List.mem_cons_self

end

end Secdogie.Grouping
