/-
# `Secdogie.Lib.ParentWalk` — a walk down a parent map, with a stack

The loop takes a node off a stack, lists it, and puts its children on the
stack.  `Listed` is what it has listed when the stack is empty; it exists just
when no child can be followed for ever (`exists_listed_iff`).  Where each node
has at most one parent and there are finitely many nodes, that is: when no
node on the stack lies on a cycle of parents (`acc_iff`), and then each node
below the stack is listed once (`Listed.nodup`, `Listed.mem_iff`).
-/
import Mathlib

namespace Secdogie.ParentWalk

open Relation

variable {α β : Type*}

/-- The walk from the stack ends, and lists `out`. -/
inductive Listed (kids : α → List α) : List α → List α → Prop
  | nil : Listed kids [] []
  | cons {a : α} {stack out : List α} :
      Listed kids (kids a ++ stack) out → Listed kids (a :: stack) (a :: out)

section

variable {kids : α → List α} {xs ys stack out out' as bs : List α} {a b x p : α}

theorem Listed.append (hxs : Listed kids xs as) (hys : Listed kids ys bs) :
    Listed kids (xs ++ ys) (as ++ bs) := by
  induction hxs with
  | nil => exact hys
  | cons _ ih =>
      rw [List.append_assoc] at ih
      exact .cons ih

theorem Listed.split {l : List α} (h : Listed kids l out) : ∀ {xs ys : List α}, l = xs ++ ys →
    ∃ as bs, out = as ++ bs ∧ Listed kids xs as ∧ Listed kids ys bs := by
  induction h with
  | nil =>
      intro xs ys hl
      obtain ⟨rfl, rfl⟩ := List.append_eq_nil_iff.mp hl.symm
      exact ⟨[], [], rfl, .nil, .nil⟩
  | @cons a stack out h ih =>
      intro xs ys hl
      cases xs with
      | nil =>
          rw [List.nil_append] at hl
          exact ⟨[], a :: out, rfl, .nil, hl ▸ .cons h⟩
      | cons b xs =>
          rw [List.cons_append] at hl
          obtain ⟨rfl, rfl⟩ := List.cons.inj hl
          obtain ⟨as, bs, rfl, has, hbs⟩ := ih (List.append_assoc ..).symm
          exact ⟨a :: as, bs, rfl, .cons has, hbs⟩

/-- Over the nodes as a forest: what is below the first, and what is below the others. -/
theorem Listed.forest_induction {motive : List α → List α → Prop} (nil : motive [] [])
    (cons : ∀ a stack as bs, Listed kids (kids a) as → Listed kids stack bs →
      motive (kids a) as → motive stack bs → motive (a :: stack) (a :: (as ++ bs))) :
    ∀ (n : ℕ) {stack out : List α}, out.length ≤ n → Listed kids stack out → motive stack out
  | _, [], _, _, .nil => nil
  | 0, _ :: _, _, hn, .cons _ => absurd hn (Nat.not_succ_le_zero _)
  | n + 1, a :: stack, _, hn, .cons h => by
      obtain ⟨as, bs, rfl, has, hbs⟩ := h.split rfl
      rw [List.length_cons, List.length_append] at hn
      exact cons a stack as bs has hbs (forest_induction nil cons n (by omega) has)
        (forest_induction nil cons n (by omega) hbs)

theorem Listed.unique (h : Listed kids stack out) (h' : Listed kids stack out') : out = out' := by
  induction h generalizing out' with
  | nil => cases h'; rfl
  | cons _ ih =>
      cases h' with
      | cons h' => rw [ih h']

/-! ## When the walk ends -/

theorem Listed.acc (h : Listed kids stack out) :
    ∀ a ∈ stack, Acc (fun c a => c ∈ kids a) a := by
  induction h with
  | nil => exact fun a ha => absurd ha List.not_mem_nil
  | @cons a stack out _ ih =>
      intro b hb
      rcases List.mem_cons.mp hb with rfl | hb
      · exact .intro b fun c hc => ih c (List.mem_append_left stack hc)
      · exact ih b (List.mem_append_right (kids a) hb)

theorem exists_listed (h : ∀ a ∈ stack, Acc (fun c a => c ∈ kids a) a) :
    ∃ out, Listed kids stack out := by
  have hsingle : ∀ {a : α}, Acc (fun c a => c ∈ kids a) a → ∃ out, Listed kids [a] out := by
    intro a ha
    induction ha with
    | intro a _ ih =>
        have hall : ∀ l : List α, (∀ c ∈ l, c ∈ kids a) → ∃ out, Listed kids l out := by
          intro l
          induction l with
          | nil => exact fun _ => ⟨[], .nil⟩
          | cons c l ihl =>
              intro hl
              obtain ⟨as, has⟩ := ih c (hl c List.mem_cons_self)
              obtain ⟨bs, hbs⟩ := ihl fun d hd => hl d (List.mem_cons_of_mem c hd)
              exact ⟨as ++ bs, has.append hbs⟩
        obtain ⟨out, hout⟩ := hall (kids a) fun c hc => hc
        exact ⟨a :: out, .cons (by rwa [List.append_nil])⟩
  induction stack with
  | nil => exact ⟨[], .nil⟩
  | cons a stack ih =>
      obtain ⟨as, has⟩ := hsingle (h a List.mem_cons_self)
      obtain ⟨bs, hbs⟩ := ih fun b hb => h b (List.mem_cons_of_mem a hb)
      exact ⟨as ++ bs, has.append hbs⟩

theorem exists_listed_iff :
    (∃ out, Listed kids stack out) ↔ ∀ a ∈ stack, Acc (fun c a => c ∈ kids a) a :=
  ⟨fun ⟨_, h⟩ => h.acc, exists_listed⟩

/-! ## What is listed -/

/-- The nodes of the stack, and all that is below them. -/
theorem Listed.mem_iff (h : Listed kids stack out) :
    x ∈ out ↔ ∃ a ∈ stack, ReflTransGen (fun c a => c ∈ kids a) x a := by
  induction h with
  | nil => exact iff_of_false List.not_mem_nil fun ⟨a, ha, _⟩ => List.not_mem_nil ha
  | @cons a stack out _ ih =>
      rw [List.mem_cons, ih]
      constructor
      · rintro (rfl | ⟨b, hb, hx⟩)
        · exact ⟨x, List.mem_cons_self, .refl⟩
        · rcases List.mem_append.mp hb with hb | hb
          · exact ⟨a, List.mem_cons_self, hx.tail hb⟩
          · exact ⟨b, List.mem_cons_of_mem a hb, hx⟩
      · rintro ⟨b, hb, hx⟩
        rcases List.mem_cons.mp hb with rfl | hb
        · rcases hx.cases_tail with rfl | ⟨c, hxc, hcb⟩
          · exact .inl rfl
          · exact .inr ⟨c, List.mem_append_left stack hcb, hxc⟩
        · exact .inr ⟨b, List.mem_append_right (kids a) hb, hx⟩

end

/-! ## One parent for each node -/

section

variable {kids : α → List α} {up : α → Option α} {stack out : List α} {a b x y p : α}

/-- The step from a node to its parent. -/
def Up (up : α → Option α) (x y : α) : Prop := up x = some y

theorem up_unique : Relator.RightUnique (Up up) :=
  fun _ _ _ h h' => Option.some.inj (h.symm.trans h')

/-- The node is met again on the way up from it. -/
def OnCycle (up : α → Option α) (a : α) : Prop := TransGen (Up up) a a

theorem OnCycle.parent (h : OnCycle up x) (hup : up x = some y) : OnCycle up y := by
  obtain ⟨z, hz, hzx⟩ := TransGen.head'_iff.mp h
  obtain rfl := up_unique hz hup
  exact TransGen.tail' hzx hup

theorem OnCycle.above (h : OnCycle up x) (hup : ReflTransGen (Up up) x y) : OnCycle up y := by
  induction hup with
  | refl => exact h
  | tail _ hstep ih => exact ih.parent hstep

/-- The way up from a node that ends is on no cycle. -/
theorem not_onCycle_of_root (hroot : up p = none) (h : ReflTransGen (Up up) x p) :
    ¬ OnCycle up x := by
  intro hc
  obtain ⟨z, hz, -⟩ := TransGen.head'_iff.mp (hc.above h)
  exact nomatch hroot.symm.trans hz

variable (hkids : ∀ a c, c ∈ kids a ↔ up c = some a)

include hkids

theorem child_eq_up : (fun c a => c ∈ kids a) = Up up :=
  funext fun c => funext fun a => propext (hkids a c)

theorem acc_iff (hfin : {c | up c ≠ none}.Finite) :
    Acc (fun c a => c ∈ kids a) a ↔ ¬ OnCycle up a := by
  rw [child_eq_up hkids]
  constructor
  · intro hacc
    induction hacc with
    | intro a _ ih =>
        intro hc
        obtain ⟨y, hay, hya⟩ := TransGen.tail'_iff.mp hc
        exact ih y hya (OnCycle.above hc hay)
  · intro hc
    -- below `a` the way up is a strict order on finitely many nodes
    let below := {x // ReflTransGen (Up up) x a}
    have hbelow : Finite below := by
      refine (Set.Finite.subset (hfin.insert a) fun x hx => ?_).to_subtype
      rcases ReflTransGen.cases_head hx with rfl | ⟨y, hy, -⟩
      · exact Set.mem_insert ..
      · exact Set.mem_insert_of_mem a fun hnone => nomatch hnone.symm.trans hy
    let above : below → below → Prop := fun x y => TransGen (Up up) x.1 y.1
    have htrans : IsTrans below above := ⟨fun _ _ _ h h' => h.trans h'⟩
    have hirrefl : Std.Irrefl above := ⟨fun x h => hc (OnCycle.above h x.2)⟩
    have hwf : WellFounded above := Finite.wellFounded_of_trans_of_irrefl above
    have hall : ∀ x : below, Acc (Up up) x.1 := fun x => by
      induction x using hwf.induction with
      | _ x ih => exact .intro x.1 fun y hy => ih ⟨y, x.2.head hy⟩ (.single hy)
    exact hall ⟨a, .refl⟩

omit hkids in
/-- Two children of one node have nothing in common below them. -/
theorem siblings_apart (ha : up a = some p) (hb : up b = some p) (hne : a ≠ b)
    (hacyclic : ¬ OnCycle up a) (hacyclic' : ¬ OnCycle up b) (hxa : ReflTransGen (Up up) x a)
    (hxb : ReflTransGen (Up up) x b) : False := by
  have hstrict : ∀ {c d : α}, up c = some p → up d = some p → c ≠ d → ReflTransGen (Up up) c d →
      OnCycle up d := by
    intro c d hc hd hcd h
    rcases ReflTransGen.cases_head h with rfl | ⟨q, hq, hqd⟩
    · exact absurd rfl hcd
    · obtain rfl := up_unique hq hc
      exact TransGen.head' hd hqd
  rcases ReflTransGen.total_of_right_unique up_unique hxa hxb with hab | hba
  · exact hacyclic' (hstrict ha hb hne hab)
  · exact hacyclic (hstrict hb ha hne.symm hba)

/-- From children of one node, each node is listed once. -/
theorem Listed.nodup (hnodup : ∀ a, (kids a).Nodup) (h : Listed kids stack out)
    (hp : ∀ a ∈ stack, up a = some p) (hstack : stack.Nodup)
    (hacyclic : ∀ a ∈ stack, ¬ OnCycle up a) : out.Nodup := by
  have hchild := child_eq_up hkids
  have hmain : ∀ {stack out : List α}, Listed kids stack out → ∀ p, (∀ a ∈ stack, up a = some p) →
      stack.Nodup → (∀ a ∈ stack, ¬ OnCycle up a) → out.Nodup := by
    intro stack out h
    refine Listed.forest_induction (motive := fun stack out => ∀ p, (∀ a ∈ stack, up a = some p) →
      stack.Nodup → (∀ a ∈ stack, ¬ OnCycle up a) → out.Nodup) ?_ ?_ out.length le_rfl h
    · exact fun _ _ _ _ => List.nodup_nil
    · intro a stack as bs has hbs ihas ihbs p hp hstack hacyclic
      obtain ⟨hnew, hstack⟩ := List.nodup_cons.mp hstack
      have ha := hp a List.mem_cons_self
      have hac := hacyclic a List.mem_cons_self
      have hkidsac : ∀ c ∈ kids a, ¬ OnCycle up c := fun c hc hcyc =>
        hac (hcyc.parent ((hkids a c).mp hc))
      -- what is below another of the stack is not below `a`
      have hapart : ∀ x, ReflTransGen (Up up) x a → x ∉ bs := by
        intro x hxa hx
        obtain ⟨b, hb, hxb⟩ := hbs.mem_iff.mp hx
        rw [hchild] at hxb
        exact siblings_apart ha (hp b (List.mem_cons_of_mem a hb))
          (fun heq => hnew (heq ▸ hb)) hac (hacyclic b (List.mem_cons_of_mem a hb)) hxa hxb
      have hbelow : ∀ x ∈ as, TransGen (Up up) x a := by
        intro x hx
        obtain ⟨c, hc, hxc⟩ := has.mem_iff.mp hx
        rw [hchild] at hxc
        exact TransGen.tail' hxc ((hkids a c).mp hc)
      refine List.nodup_cons.mpr ⟨?_, List.nodup_append'.mpr ⟨?_, ?_, ?_⟩⟩
      · intro hmem
        rcases List.mem_append.mp hmem with hmem | hmem
        · exact hac (hbelow a hmem)
        · exact hapart a .refl hmem
      · exact ihas a (fun c hc => (hkids a c).mp hc) (hnodup a) hkidsac
      · exact ihbs p (fun b hb => hp b (List.mem_cons_of_mem a hb)) hstack
          fun b hb => hacyclic b (List.mem_cons_of_mem a hb)
      · exact fun x hx hx' => hapart x (hbelow x hx).to_reflTransGen hx'
  exact hmain h p hp hstack hacyclic

omit hkids in
/-- Where each node has at most one parent and no way up is a cycle, each way up ends. -/
theorem exists_root (hfin : {c | up c ≠ none}.Finite) (hacyclic : ∀ x, ¬ OnCycle up x) (a : α) :
    ∃ p, ReflTransGen (Up up) a p ∧ up p = none := by
  let inner := {x // up x ≠ none}
  have hinner : Finite inner := hfin.to_subtype
  let below : inner → inner → Prop := fun x y => TransGen (Up up) y.1 x.1
  have htrans : IsTrans inner below := ⟨fun _ _ _ h h' => h'.trans h⟩
  have hirrefl : Std.Irrefl below := ⟨fun x h => hacyclic x.1 h⟩
  have hwf : WellFounded below := Finite.wellFounded_of_trans_of_irrefl below
  have hall : ∀ x : inner, ∃ p, ReflTransGen (Up up) x.1 p ∧ up p = none := fun x => by
    induction x using hwf.induction with
    | _ x ih =>
        obtain ⟨y, hy⟩ := Option.ne_none_iff_exists'.mp x.2
        by_cases hend : up y = none
        · exact ⟨y, .single hy, hend⟩
        · obtain ⟨p, hp, hroot⟩ := ih ⟨y, hend⟩ (.single hy)
          exact ⟨p, hp.head hy, hroot⟩
  by_cases ha : up a = none
  · exact ⟨a, .refl, ha⟩
  · exact hall ⟨a, ha⟩

/-! ## Depths -/

omit hkids in
/-- The walk with the depth of each node. -/
def withDepth (kids : α → List α) (x : α × ℕ) : List (α × ℕ) :=
  (kids x.1).map fun c => (c, x.2 + 1)

omit hkids in
theorem Listed.withDepth (h : Listed kids stack out) : ∀ {ps : List (α × ℕ)},
    ps.map Prod.fst = stack → ∃ l, Listed (ParentWalk.withDepth kids) ps l ∧ l.map Prod.fst = out := by
  induction h with
  | nil =>
      intro ps hps
      rw [List.map_eq_nil_iff.mp hps]
      exact ⟨[], .nil, rfl⟩
  | @cons a stack out _ ih =>
      intro ps hps
      obtain ⟨⟨b, d⟩, ps, rfl, hb, rfl⟩ := List.map_eq_cons_iff.mp hps
      obtain rfl : b = a := hb
      have hfst : (ParentWalk.withDepth kids (b, d) ++ ps).map Prod.fst = kids b ++ ps.map Prod.fst := by
        rw [List.map_append, ParentWalk.withDepth, List.map_map]
        exact congrArg (· ++ _) (List.map_id _)
      obtain ⟨l, hl, rfl⟩ := ih hfst
      exact ⟨(b, d) :: l, .cons hl, rfl⟩

/-- Each node is a child of `p` at the depth `d`, or stands under its parent: that is the nearest
one before it that is less deep. -/
def Indented (up : α → Option α) (p : α) (d : ℕ) (l : List (α × ℕ)) : Prop :=
  ∀ before x after, l = before ++ x :: after → (x.2 = d ∧ up x.1 = some p) ∨
    ∃ as q bs, before = as ++ q :: bs ∧ up x.1 = some q.1 ∧ q.2 + 1 = x.2 ∧ d ≤ q.2 ∧
      ∀ y ∈ bs, x.2 ≤ y.2

omit hkids in
theorem Indented.depth {d : ℕ} {l : List (α × ℕ)} (h : Indented up p d l) {x : α × ℕ} (hx : x ∈ l) :
    d ≤ x.2 := by
  obtain ⟨before, after, rfl⟩ := List.append_of_mem hx
  rcases h before x after rfl with ⟨heq, -⟩ | ⟨_, q, _, -, -, hq, hd, -⟩
  · exact heq.ge
  · omega

theorem Listed.indented {stack out : List (α × ℕ)} (h : Listed (ParentWalk.withDepth kids) stack out) :
    ∀ {d : ℕ}, (∀ x ∈ stack, x.2 = d ∧ up x.1 = some p) → Indented up p d out := by
  refine Listed.forest_induction (motive := fun stack out => ∀ {p : α} {d : ℕ},
    (∀ x ∈ stack, x.2 = d ∧ up x.1 = some p) → Indented up p d out) ?_ ?_ out.length le_rfl h
  · intro p d _ before x after heq
    exact absurd heq.symm (List.append_ne_nil_of_right_ne_nil before (List.cons_ne_nil x after))
  · rintro ⟨a, e⟩ stack as bs - - ihas ihbs p d hp
    obtain ⟨rfl, ha⟩ := hp (a, e) List.mem_cons_self
    have has : Indented up a (e + 1) as := ihas fun x hx => by
      obtain ⟨c, hc, rfl⟩ := List.mem_map.mp hx
      exact ⟨rfl, (hkids a c).mp hc⟩
    have hbs : Indented up p e bs := ihbs fun x hx => hp x (List.mem_cons_of_mem _ hx)
    intro before x after heq
    cases before with
    | nil =>
        obtain ⟨rfl, -⟩ := List.cons.inj heq
        exact .inl ⟨rfl, ha⟩
    | cons y before =>
        obtain ⟨rfl, htail⟩ := List.cons.inj (heq.trans (List.cons_append ..))
        rcases List.append_eq_append_iff.mp htail with ⟨mid, rfl, hbs'⟩ | ⟨mid, rfl, hmid⟩
        · -- among what stands below the others of the stack
          rcases hbs mid x after hbs' with hroot | ⟨as', q, bs', rfl, hq⟩
          · exact .inl hroot
          · exact .inr ⟨(a, e) :: (as ++ as'), q, bs', by simp, hq⟩
        · -- among what stands below the first, or the first of the others
          cases mid with
          | nil =>
              rw [List.nil_append] at hmid
              rcases hbs [] x after hmid.symm with hroot | ⟨as', q, bs', habs, -⟩
              · exact .inl hroot
              · exact absurd habs.symm
                  (List.append_ne_nil_of_right_ne_nil as' (List.cons_ne_nil q bs'))
          | cons z mid =>
              obtain ⟨rfl, rfl⟩ := List.cons.inj hmid
              rcases has before x mid rfl with ⟨hdepth, hup⟩ | ⟨as', q, bs', rfl, hup, hq, hd, hy⟩
              · refine .inr ⟨[], (a, e), before, rfl, hup, hdepth.symm, le_rfl, fun y hy => ?_⟩
                rw [hdepth]
                exact has.depth (List.mem_append_left _ hy)
              · exact .inr ⟨(a, e) :: as', q, bs', rfl, hup, hq, by omega, hy⟩

end

end Secdogie.ParentWalk
