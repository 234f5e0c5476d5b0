/-
# What insertions arrange

An insertion `before:after` is carried out on the order that the insertions in front of it have
left: `after` is moved right behind `before`, unless it stands behind it already.  In a list
without repetitions that is one exchange of two pieces (`arrangeOne_cases`).  Whoever stood in
front of another still does, **except the pass that was moved, in front of those it was moved
past** (`arrangeOne_keeps`).

So an insertion holds in the end unless a later one moves its `before` past its `after`
(`arrange_holds_or`).  Insertions listed so that none of them moves the `before` of an earlier one
hold together, and **insertions without a cycle can be listed so** (`exists_orderly`); as they
stand they need not hold together (`insertions_disturb`).
-/
import BehaviorGraph.Proofs.Pipeline
import Mathlib.Order.WellFoundedSet

namespace BehaviorGraph

open scoped List

variable {order front between behind insertions : List String} {x y z w : String}
  {requests earlier later : List (String × String)}

/-! ## 1. Standing in front of another -/

/-- Whom the only `x` of a list stands in front of. -/
theorem pair_sublist_iff (hnodup : (front ++ x :: behind).Nodup) :
    [x, y] <+ front ++ x :: behind ↔ y ∈ behind := by
  constructor
  · intro h
    obtain ⟨early, late, hpair, hearly, hlate⟩ := List.sublist_append_iff.mp h
    cases early with
    | nil =>
      rw [List.nil_append] at hpair
      rw [← hpair, List.cons_sublist_cons] at hlate
      exact List.singleton_sublist.mp hlate
    | cons a rest =>
      have hin : x ∈ front := hearly.subset (by rw [(List.cons.inj hpair).1]; simp)
      exact absurd rfl ((List.nodup_append.mp hnodup).2.2 x hin x (by simp))
  · intro hy
    exact ((List.singleton_sublist.mpr hy).cons_cons x).trans (List.sublist_append_right front _)

/-- Who stands in front of the only `x` of a list. -/
theorem sublist_pair_iff (hnodup : (front ++ x :: behind).Nodup) :
    [y, x] <+ front ++ x :: behind ↔ y ∈ front := by
  constructor
  · intro h
    obtain ⟨early, late, hpair, hearly, hlate⟩ := List.sublist_append_iff.mp h
    cases early with
    | nil =>
      rw [List.nil_append] at hpair
      have hin : x ∈ behind := List.singleton_sublist.mp (by simpa [← hpair] using hlate.tail)
      exact absurd hin (List.nodup_cons.mp (List.nodup_append.mp hnodup).2.1).1
    | cons a rest => exact hearly.subset (by rw [(List.cons.inj hpair).1]; simp)
  · intro hy
    exact (List.singleton_sublist.mpr hy).append (List.singleton_sublist.mpr List.mem_cons_self)

/-- Who is in a list has a place. -/
theorem idxOf?_of_mem (hx : x ∈ order) : order.idxOf? x = some (order.idxOf x) := by
  obtain ⟨place, hplace⟩ :=
    Option.ne_none_iff_exists'.mp (mt List.idxOf?_eq_none_iff.mp (not_not.mpr hx))
  rw [List.idxOf_eq_getD_idxOf?, hplace, Option.getD_some]

/-- An element that is found at a smaller place stands in front, both as they are found first. -/
theorem exists_split (hz : z ∈ order) (hlt : order.idxOf w < order.idxOf z) :
    ∃ front between behind, order = front ++ w :: (between ++ z :: behind) ∧
      w ∉ front ∧ z ∉ front ++ w :: between := by
  have hw : w ∈ order := List.idxOf_lt_length_iff.mp (hlt.trans (List.idxOf_lt_length_iff.mpr hz))
  obtain ⟨front, rest, rfl, hfront⟩ := List.eq_append_cons_of_mem hw
  rw [List.idxOf_append_of_notMem hfront, List.idxOf_cons_self] at hlt
  have hz' : z ∉ front := fun hin => by
    rw [List.idxOf_append_of_mem hin] at hlt
    have := List.idxOf_lt_length_iff.mpr hin
    omega
  have hne : z ≠ w := by
    rintro rfl
    rw [List.idxOf_append_of_notMem hfront, List.idxOf_cons_self] at hlt
    exact absurd hlt (Nat.lt_irrefl _)
  have hrest : z ∈ rest := by simpa [hz', hne] using hz
  obtain ⟨between, behind, rfl, hbetween⟩ := List.eq_append_cons_of_mem hrest
  exact ⟨front, between, behind, rfl, hfront, by simp [hz', hne, hbetween]⟩

/-! ## 2. One insertion -/

namespace Plan

/-- A move takes one element past some others. -/
theorem move_append (front between behind : List String) (w z : String) :
    move (front ++ w :: (between ++ z :: behind)) front.length (front.length + (between.length + 1))
      = front ++ (between ++ z :: w :: behind) := by
  have hget : (front ++ w :: (between ++ z :: behind))[front.length]? = some w := by simp
  have herase : (front ++ w :: (between ++ z :: behind)).eraseIdx front.length
      = (front ++ (between ++ [z])) ++ behind := by
    rw [List.eraseIdx_append_of_length_le (Nat.le_refl _), Nat.sub_self, List.eraseIdx_cons_zero]
    simp
  have hinsert : ∀ l r : List String, (l ++ r).insertIdx l.length w = l ++ w :: r := by
    intro l r
    induction l with
    | nil => exact List.insertIdx_zero
    | cons a l ih =>
      rw [List.cons_append, List.length_cons, List.insertIdx_succ_cons, ih, List.cons_append]
  have hlength : front.length + (between.length + 1) = (front ++ (between ++ [z])).length := by simp
  simp only [move, hget, herase]
  rw [hlength, hinsert]
  simp

/-- Carry out one insertion: `after` is moved right behind `before` if it stands in front of it. -/
def arrangeOne (order : List String) (insertion : String × String) : List String :=
  if order.idxOf insertion.2 < order.idxOf insertion.1 then
    move order (order.idxOf insertion.2) (order.idxOf insertion.1)
  else order

/-- Carry out insertions one after the other. -/
def arrange (order : List String) (insertions : List (String × String)) : List String :=
  insertions.foldl arrangeOne order

theorem arrange_append (order : List String) (earlier later : List (String × String)) :
    arrange order (earlier ++ later) = arrange (arrange order earlier) later := List.foldl_append

theorem arrangeOne_of_le (hle : order.idxOf z ≤ order.idxOf w) :
    arrangeOne order (z, w) = order := by
  rw [arrangeOne, if_neg (Nat.not_lt.mpr hle)]

/-- A pass goes past others, as they are found first. -/
theorem arrangeOne_of_lt (hz : z ∈ order) (hlt : order.idxOf w < order.idxOf z) :
    ∃ front between behind, order = front ++ w :: (between ++ z :: behind) ∧
      arrangeOne order (z, w) = front ++ (between ++ z :: w :: behind) := by
  obtain ⟨front, between, behind, rfl, hfront, hother⟩ := exists_split hz hlt
  refine ⟨front, between, behind, rfl, ?_⟩
  have hzAt : (front ++ w :: (between ++ z :: behind)).idxOf z
      = front.length + (between.length + 1) := by
    have hassoc : front ++ w :: (between ++ z :: behind) = (front ++ w :: between) ++ z
        :: behind := by simp
    rw [hassoc, List.idxOf_append_of_notMem hother, List.idxOf_cons_self]
    simp
  rw [arrangeOne, if_pos hlt, hzAt, List.idxOf_append_of_notMem hfront, List.idxOf_cons_self]
  exact move_append front between behind w z

/-- **What one insertion does**: nothing, if it holds already; otherwise one pass goes past others.
-/
theorem arrangeOne_cases (hnodup : order.Nodup) (hz : z ∈ order) (hw : w ∈ order) :
    ((z = w ∨ [z, w] <+ order) ∧ arrangeOne order (z, w) = order) ∨
    ∃ front between behind, order = front ++ w :: (between ++ z :: behind) ∧
      arrangeOne order (z, w) = front ++ (between ++ z :: w :: behind) := by
  rcases lt_trichotomy (order.idxOf w) (order.idxOf z) with hlt | heq | hgt
  · exact .inr (arrangeOne_of_lt hz hlt)
  · exact .inl ⟨.inl ((List.idxOf_inj hw).mp heq).symm, arrangeOne_of_le heq.ge⟩
  · refine .inl ⟨.inr ?_, arrangeOne_of_le hgt.le⟩
    obtain ⟨front, between, behind, rfl, -, -⟩ := exists_split hw hgt
    exact (pair_sublist_iff hnodup).mpr (by simp)

/-- One pass is taken out and put back. -/
theorem arrangeOne_perm (order : List String) (hz : z ∈ order) (w : String) :
    (arrangeOne order (z, w)).Perm order := by
  rcases Nat.lt_or_ge (order.idxOf w) (order.idxOf z) with hlt | hge
  · obtain ⟨front, between, behind, horder, hmoved⟩ := arrangeOne_of_lt hz hlt
    rw [hmoved, horder]
    refine List.Perm.append_left front ?_
    have hswap : (z :: w :: behind).Perm (w :: z :: behind) := .swap w z behind
    exact (hswap.append_left between).trans List.perm_middle
  · rw [arrangeOne_of_le hge]

/-- **An insertion over passes that a plan has and does not exclude is carried out on it.** -/
theorem insert?_eq (plan : Plan) (hz : z ∈ plan.passes) (hw : w ∈ plan.passes)
    (hruns : z ∉ plan.excluded ∧ w ∉ plan.excluded) :
    plan.insert? z w = some { plan with passes := arrangeOne plan.passes (z, w) } := by
  have hcontains : (!plan.excluded.contains z && !plan.excluded.contains w)
      = true := by simp [hruns]
  simp only [insert?, idxOf?_of_mem hz, idxOf?_of_mem hw, hcontains, arrangeOne, if_true]
  split <;> rfl

/-- **An insertion holds when it was carried out.** -/
theorem arrangeOne_holds (hnodup : order.Nodup) (hx : x ∈ order) (hy : y ∈ order) (hne : x ≠ y) :
    [x, y] <+ arrangeOne order (x, y) := by
  rcases arrangeOne_cases hnodup hx hy with
    ⟨heq | hstands, hsame⟩ | ⟨front, between, behind, rfl, hmoved⟩
  · exact absurd heq hne
  · rwa [hsame]
  · rw [hmoved]
    refine List.Sublist.trans ?_
      ((List.sublist_append_right between _).trans (List.sublist_append_right front _))
    exact ((List.nil_sublist behind).cons_cons y).cons_cons x

/-- **Who stood in front of another still does**, unless it was moved past it: then the other is
the pass it was moved behind, or stood between the two. -/
theorem arrangeOne_keeps (hnodup : order.Nodup) (hz : z ∈ order) (hw : w ∈ order)
    (h : [x, y] <+ order) :
    [x, y] <+ arrangeOne order (z, w) ∨ w = x ∧ (z = y ∨ [x, y, z] <+ order) := by
  rcases arrangeOne_cases hnodup hz hw with ⟨-, hsame⟩ | ⟨front, between, behind, rfl, hmoved⟩
  · exact .inl (by rwa [hsame])
  · rw [hmoved]
    have hbehind : w :: behind <+ front ++ (between ++ z :: w :: behind) :=
      ((List.sublist_cons_self z _).trans (List.sublist_append_right between _)).trans
        (List.sublist_append_right front _)
    by_cases hxw : w = x
    · subst hxw
      rcases List.mem_append.mp ((pair_sublist_iff hnodup).mp h) with hin | hin
      · have hpast : [y, z] <+ between ++ z :: behind :=
          (List.singleton_sublist.mpr hin).append (List.singleton_sublist.mpr List.mem_cons_self)
        exact .inr ⟨rfl, .inr ((hpast.cons_cons w).trans (List.sublist_append_right front _))⟩
      · rcases List.mem_cons.mp hin with rfl | hin
        · exact .inr ⟨rfl, .inl rfl⟩
        · exact .inl (((List.singleton_sublist.mpr hin).cons_cons w).trans hbehind)
    · left
      by_cases hyw : y = w
      · subst hyw
        have hin : x ∈ front := (sublist_pair_iff hnodup).mp h
        exact (List.singleton_sublist.mpr hin).append (List.singleton_sublist.mpr (by simp))
      · -- Without the pass that is moved the order is the same before and after.
        have hfront : w ∉ front :=
          fun hin => (List.nodup_append.mp hnodup).2.2 w hin w (by simp) rfl
        have hrest := h.erase w
        rw [List.erase_of_not_mem (by simp [hxw, Ne.symm hyw]), List.erase_append_right _ hfront,
          List.erase_cons_head] at hrest
        exact hrest.trans (List.Sublist.append_left (List.Sublist.append_left
          ((List.sublist_cons_self w behind).cons_cons z) between) front)

/-! ## 3. One insertion after the other -/

/-- Insertions over passes of the order rearrange it. -/
theorem arrange_perm (hover : ∀ request ∈ requests, request.1 ∈ order ∧ request.2 ∈ order) :
    (arrange order requests).Perm order := by
  induction requests generalizing order with
  | nil => exact .refl order
  | cons request rest ih =>
    obtain ⟨⟨hz, -⟩, hrest⟩ := List.forall_mem_cons.mp hover
    have hone := arrangeOne_perm order hz request.2
    refine (ih fun later hlater => ?_).trans hone
    rw [hone.mem_iff, hone.mem_iff]
    exact hrest later hlater

/-- **Who stood in front of another still does in the end, unless one of the insertions moved it
past it.** -/
theorem arrange_keeps_or (hnodup : order.Nodup)
    (hover : ∀ request ∈ requests, request.1 ∈ order ∧ request.2 ∈ order) (h : [x, y] <+ order) :
    [x, y] <+ arrange order requests ∨
    ∃ between z rest, requests = between ++ (z, x) :: rest ∧
      (z = y ∨ [x, y, z] <+ arrange order between) := by
  induction requests generalizing order with
  | nil => exact .inl h
  | cons request rest ih =>
    obtain ⟨z, w⟩ := request
    obtain ⟨⟨hz, hw⟩, hrest⟩ := List.forall_mem_cons.mp hover
    have hone := arrangeOne_perm order hz w
    rcases arrangeOne_keeps hnodup hz hw h with hkept | ⟨rfl, hmoved⟩
    · rcases ih (hone.nodup_iff.mpr hnodup) (fun later hlater => by
        rw [hone.mem_iff, hone.mem_iff]
        exact hrest later hlater) hkept with hend | ⟨between, z', rest', rfl, hmoved⟩
      · exact .inl hend
      · exact .inr ⟨(z, w) :: between, z', rest', rfl, hmoved⟩
    · exact .inr ⟨[], z, rest, rfl, hmoved⟩

/-- **An insertion holds in the end unless a later one moves its `before` past its `after`.** -/
theorem arrange_holds_or (hnodup : order.Nodup)
    (hover : ∀ request ∈ earlier ++ (x, y) :: later, request.1 ∈ order ∧ request.2 ∈ order)
    (hne : x ≠ y) :
    [x, y] <+ arrange order (earlier ++ (x, y) :: later) ∨
    ∃ between z rest, later = between ++ (z, x) :: rest ∧
      (z = y ∨ [x, y, z] <+ arrange order (earlier ++ (x, y) :: between)) := by
  have hperm := arrange_perm fun request hin => hover request (List.mem_append_left _ hin)
  have hnodup' := hperm.nodup_iff.mpr hnodup
  obtain ⟨hx, hy⟩ := hover (x, y) (by simp)
  have hone := arrangeOne_perm _ (hperm.mem_iff.mpr hx) y
  have hholds := arrangeOne_holds hnodup' (hperm.mem_iff.mpr hx) (hperm.mem_iff.mpr hy) hne
  simp only [arrange_append]
  refine arrange_keeps_or (hone.nodup_iff.mpr hnodup') (fun request hin => ?_) hholds
  rw [hone.mem_iff, hone.mem_iff, hperm.mem_iff, hperm.mem_iff]
  exact hover request (by simp [hin])

/-- **Insertions hold together if none of them moves the `before` of an earlier one.** -/
theorem arrange_holds_of_orderly (hnodup : order.Nodup)
    (hover : ∀ request ∈ requests, request.1 ∈ order ∧ request.2 ∈ order)
    (horderly : requests.Pairwise fun earlier later => later.2 ≠ earlier.1)
    (hin : (x, y) ∈ requests) (hne : x ≠ y) : [x, y] <+ arrange order requests := by
  obtain ⟨earlier, later, rfl⟩ := List.append_of_mem hin
  rcases arrange_holds_or hnodup hover hne with hholds | ⟨between, z, rest, rfl, -⟩
  · exact hholds
  · have hlater := (List.pairwise_cons.mp (List.pairwise_append.mp horderly).2.1).1
    exact absurd rfl (hlater (z, x) (by simp))

end Plan

/-! ## 4. Insertions as they are written -/

/-- The passes the insertions are about, `before` and `after`. -/
def requestsOf (insertions : List String) : List (String × String) :=
  insertions.filterMap (splitOnce ':')

/-- One of the insertions is `before:after`. -/
def Requested (insertions : List String) (before after : String) : Prop :=
  (before, after) ∈ requestsOf insertions

/-- Without a cycle there is an insertion whose `before` is the `after` of none. -/
theorem exists_source (hacyclic : ∀ pass, ¬ Relation.TransGen (Requested insertions) pass pass)
    (hsome : requestsOf insertions ≠ []) :
    ∃ x y, Requested insertions x y ∧ ∀ z, ¬ Requested insertions z x := by
  have hstrict : IsStrictOrder String (Relation.TransGen (Requested insertions)) :=
    { irrefl := hacyclic, trans := fun _ _ _ => Relation.TransGen.trans }
  obtain ⟨request, hrequest⟩ := List.exists_mem_of_ne_nil _ hsome
  have hfinite : {x | ∃ y, Requested insertions x y}.Finite := by
    refine ((requestsOf insertions).map Prod.fst).finite_toSet.subset ?_
    rintro x ⟨y, hxy⟩
    exact List.mem_map.mpr ⟨(x, y), hxy, rfl⟩
  obtain ⟨⟨x, y, hxy⟩, -, hleast⟩ := WellFounded.has_min (Set.Finite.wellFoundedOn
    (r := Relation.TransGen (Requested insertions)) hfinite) Set.univ
    ⟨⟨request.1, request.2, hrequest⟩, trivial⟩
  refine ⟨x, y, hxy, fun z hzx => ?_⟩
  exact hleast ⟨z, x, hzx⟩ trivial (.single hzx)

/-- **Insertions without a cycle can be listed so that none of them moves the `before` of an
earlier one.** -/
theorem exists_orderly (hacyclic : ∀ pass, ¬ Relation.TransGen (Requested insertions) pass pass) :
    ∃ listed : List String, listed.Perm insertions ∧
      (requestsOf listed).Pairwise fun earlier later => later.2 ≠ earlier.1 := by
  -- One whose `before` no insertion moves can stand in front; the induction is on how many are
  -- left.
  induction hcount : insertions.length using Nat.strong_induction_on generalizing insertions with
  | _ count ih =>
    by_cases hsome : requestsOf insertions = []
    · exact ⟨insertions, .refl _, by simp [hsome]⟩
    · obtain ⟨x, y, hxy, hsource⟩ := exists_source hacyclic hsome
      obtain ⟨insertion, hin, hsplit⟩ := List.mem_filterMap.mp hxy
      have hless : ∀ z w, Requested (insertions.erase insertion) z w →
          Requested insertions z w := by
        intro z w hzw
        obtain ⟨other, hother, hsplit'⟩ := List.mem_filterMap.mp hzw
        exact List.mem_filterMap.mpr ⟨other, List.mem_of_mem_erase hother, hsplit'⟩
      have hpos := List.length_pos_of_mem hin
      obtain ⟨listed, hperm, horderly⟩ := ih (insertions.erase insertion).length
        (by rw [List.length_erase_of_mem hin]; omega)
        (fun pass hcycle => hacyclic pass (Relation.TransGen.mono hless _ _ hcycle)) rfl
      refine ⟨insertion :: listed, (hperm.cons insertion).trans (List.perm_cons_erase hin).symm, ?_⟩
      rw [requestsOf, List.filterMap_cons_some hsplit]
      refine List.pairwise_cons.mpr ⟨?_, horderly⟩
      rintro ⟨z, w⟩ hzw rfl
      exact hsource z (hless z w ((hperm.filterMap _).mem_iff.mp hzw))

/-! ## 5. Plans -/

namespace Registry

variable {κ σ : Type} {registry : Registry κ} {s : σ} {included : List String}

theorem requirePass_eq_ok_iff {name : String} :
    registry.requirePass name = .ok () ↔ registry.hasPass name = true := by
  rw [requirePass]
  split <;> simp [*, refuse]

/-- **Insertions over known passes of a plan are carried out one after the other.** -/
theorem insertAll_ends (hknown : ∀ pass ∈ order, registry.hasPass pass = true)
    (hover : ∀ insertion ∈ insertions, ∃ x y,
      splitOnce ':' insertion = some (x, y) ∧ x ∈ order ∧ y ∈ order) :
    (registry.insertAll ⟨order, []⟩ insertions).Ends s fun r s' =>
      r = .ok ⟨Plan.arrange order (requestsOf insertions), []⟩ ∧ s' = s := by
  induction insertions generalizing order with
  | nil => exact ⟨rfl, rfl⟩
  | cons insertion rest ih =>
    obtain ⟨⟨x, y, hsplit, hx, hy⟩, hrest⟩ := List.forall_mem_cons.mp hover
    have hone := Plan.arrangeOne_perm order hx y
    have hrequire : ∀ {name}, name ∈ order → registry.requirePass name = .ok () :=
      fun hin => requirePass_eq_ok_iff.mpr (hknown _ hin)
    rw [insertAll]
    simp only [hsplit]
    rw [Run.ends_bind, Run.ends_ofExcept, hrequire hx]
    simp only
    rw [Run.ends_bind, Run.ends_ofExcept, hrequire hy]
    simp only [Plan.insert?_eq ⟨order, []⟩ hx hy ⟨by simp, by simp⟩]
    rw [requestsOf, List.filterMap_cons_some hsplit]
    refine ih (fun pass hin => hknown pass (hone.mem_iff.mp hin)) ?_
    intro later hlater
    obtain ⟨z, w, hsplit', hz, hw⟩ := hrest later hlater
    exact ⟨z, w, hsplit', hone.mem_iff.mpr hz, hone.mem_iff.mpr hw⟩

/-- **A plan is made exactly of known passes**, and the insertions rearrange them. -/
theorem plan_ends
    (hover : ∀ insertion ∈ insertions, ∃ x y, splitOnce ':' insertion = some (x, y) ∧
      x ∈ included.flatMap registry.expand ∧ y ∈ included.flatMap registry.expand) :
    (registry.plan included [] insertions).Ends s fun r s' => s' = s ∧
      ((∃ plan, r = .ok plan) ↔
        ∀ pass ∈ included.flatMap registry.expand, registry.hasPass pass = true) ∧
      ∀ plan, r = .ok plan →
        plan = ⟨Plan.arrange (included.flatMap registry.expand) (requestsOf insertions), []⟩ := by
  rw [plan, List.flatMap_nil, List.append_nil, Run.ends_bind, Run.ends_ofExcept]
  cases hcheck : (included.flatMap registry.expand).forM registry.requirePass with
  | error e =>
    refine ⟨rfl, iff_of_false (by simp) fun hknown => ?_, fun plan hok => absurd hok (by simp)⟩
    have hok := (forM_eq_ok_iff _ _).mpr fun pass hin => requirePass_eq_ok_iff.mpr (hknown pass hin)
    rw [hcheck] at hok
    exact absurd hok (by simp)
  | ok value =>
    have hknown : ∀ pass ∈ included.flatMap registry.expand, registry.hasPass pass = true :=
      fun pass hin => requirePass_eq_ok_iff.mp ((forM_eq_ok_iff _ _).mp hcheck pass hin)
    refine (insertAll_ends hknown hover).imp fun r s' hend => ?_
    obtain ⟨rfl, rfl⟩ := hend
    exact ⟨rfl, ⟨fun _ => hknown, fun _ => ⟨_, rfl⟩⟩, fun plan hok => (Except.ok.inj hok).symm⟩

/-- **Insertions over the passes of a plan, without a cycle and without repetitions of passes.**
The plan is made if all its passes are known, and of the same passes.  Each insertion holds in it,
`before` in front of `after`, unless a later insertion moved `before` past `after`: then they stood
in this order when that insertion had its turn, and further back the pass behind which it moves
`before`.  Listed in another order the same insertions all hold together. -/
theorem plan_carries_out (hnodup : (included.flatMap registry.expand).Nodup)
    (hover : ∀ insertion ∈ insertions, ∃ before after, splitOnce ':' insertion
      = some (before, after) ∧
      before ∈ included.flatMap registry.expand ∧ after ∈ included.flatMap registry.expand)
    (hacyclic : ∀ pass, ¬ Relation.TransGen (Requested insertions) pass pass) :
    let passes := included.flatMap registry.expand
    ((registry.plan included [] insertions).Ends s fun r s' => s' = s ∧
      ((∃ plan, r = .ok plan) ↔ ∀ pass ∈ passes, registry.hasPass pass = true) ∧
      ∀ plan, r = .ok plan →
        plan = ⟨Plan.arrange passes (requestsOf insertions), []⟩ ∧ plan.passes.Perm passes ∧
        ∀ earlier before after later, requestsOf insertions = earlier ++ (before, after) :: later →
          [before, after] <+ plan.passes ∨
          ∃ between next rest, later = between ++ (next, before) :: rest ∧
            [before, after, next] <+ Plan.arrange passes (earlier ++ (before, after) :: between)) ∧
    ∃ listed : List String, listed.Perm insertions ∧
      (registry.plan included [] listed).Ends s fun r _ =>
        (∀ pass ∈ passes, registry.hasPass pass = true) →
        ∃ plan, r = .ok plan ∧ ∀ before after, Requested insertions before after →
          [before, after] <+ plan.passes := by
  intro passes
  have hrequests : ∀ {insertions : List String}, (∀ insertion ∈ insertions, ∃ before after,
      splitOnce ':' insertion = some (before, after) ∧ before ∈ passes ∧ after ∈ passes) →
      ∀ request ∈ requestsOf insertions, request.1 ∈ passes ∧ request.2 ∈ passes := by
    intro insertions hover request hin
    obtain ⟨insertion, hinsertion, hsplit⟩ := List.mem_filterMap.mp hin
    obtain ⟨before, after, hsplit', hbefore, hafter⟩ := hover insertion hinsertion
    obtain rfl := Option.some.inj (hsplit.symm.trans hsplit')
    exact ⟨hbefore, hafter⟩
  have hne : ∀ {before after}, Requested insertions before after → before ≠ after := by
    rintro before after hrequested rfl
    exact hacyclic before (.single hrequested)
  constructor
  · refine (plan_ends hover).imp fun r s' hend => ?_
    obtain ⟨hstate, hmade, hplan⟩ := hend
    refine ⟨hstate, hmade, fun plan hok => ?_⟩
    obtain rfl := hplan plan hok
    refine ⟨rfl, Plan.arrange_perm (hrequests hover), ?_⟩
    intro earlier before after later hsplit
    have hrequested : Requested insertions before after := by simp [Requested, hsplit]
    rw [hsplit]
    refine (Plan.arrange_holds_or hnodup (hsplit ▸ hrequests hover) (hne hrequested)).imp id ?_
    rintro ⟨between, next, rest, rfl, rfl | hpast⟩
    · -- The pass it was moved behind is not `after` itself: the two insertions would be a cycle.
      have hback : Requested insertions next before := by simp [Requested, hsplit]
      exact absurd (.tail (.single hrequested) hback) (hacyclic before)
    · exact ⟨between, next, rest, rfl, hpast⟩
  · obtain ⟨listed, hperm, horderly⟩ := exists_orderly hacyclic
    have hover' := fun insertion hin => hover insertion (hperm.mem_iff.mp hin)
    refine ⟨listed, hperm, (plan_ends hover').imp fun r s' hend hknown => ?_⟩
    obtain ⟨-, hmade, hplan⟩ := hend
    obtain ⟨plan, hok⟩ := hmade.mpr hknown
    obtain rfl := hplan plan hok
    refine ⟨_, hok, fun before after hrequested => ?_⟩
    exact Plan.arrange_holds_of_orderly hnodup (hrequests hover') horderly
      ((hperm.filterMap _).mem_iff.mpr hrequested) (hne hrequested)

end Registry

/-! ## 6. Insertions that do not hold together -/

/-- Three passes in a row. -/
def threePasses : List String := ["dead-node-removal", "canonicalize", "constant-folding"]

/-- The first pass is moved behind the second, and then the second behind the third. -/
def disturbing : List String := ["canonicalize:dead-node-removal", "constant-folding:canonicalize"]

/-- They are passes of the standard registry, not aliases. -/
theorem expand_threePasses : threePasses.flatMap usualRegistry.expand = threePasses := by cbv

theorem threePasses_known :
    ∀ pass ∈ threePasses.flatMap usualRegistry.expand, usualRegistry.hasPass pass = true := by
  rw [expand_threePasses]
  simp only [threePasses, List.forall_mem_cons]
  exact ⟨by cbv, by cbv, by cbv, by simp⟩

theorem threePasses_nodup : (threePasses.flatMap usualRegistry.expand).Nodup := by
  rw [expand_threePasses]
  decide

theorem requestsOf_disturbing : requestsOf disturbing
    = [("canonicalize", "dead-node-removal"), ("constant-folding", "canonicalize")] := by cbv

theorem disturbing_over : ∀ insertion ∈ disturbing, ∃ before after,
    splitOnce ':' insertion = some (before, after) ∧
    before ∈ threePasses.flatMap usualRegistry.expand ∧
    after ∈ threePasses.flatMap usualRegistry.expand := by
  rw [expand_threePasses]
  simp only [disturbing, List.forall_mem_cons]
  exact ⟨⟨"canonicalize", "dead-node-removal", by cbv, by decide, by decide⟩,
    ⟨"constant-folding", "canonicalize", by cbv, by decide, by decide⟩, by simp⟩

/-- They have no cycle: every `after` stands further to the left at the start. -/
theorem disturbing_acyclic (pass : String) :
    ¬ Relation.TransGen (Requested disturbing) pass pass := by
  have hback : ∀ x y, Requested disturbing x y → threePasses.idxOf y < threePasses.idxOf x := by
    intro x y hxy
    rw [Requested, requestsOf_disturbing] at hxy
    simp only [List.mem_cons, Prod.mk.injEq, List.not_mem_nil, or_false] at hxy
    rcases hxy with ⟨rfl, rfl⟩ | ⟨rfl, rfl⟩ <;> decide
  intro hcycle
  have hless : Relation.TransGen (· > ·) (threePasses.idxOf pass) (threePasses.idxOf pass) :=
    hcycle.lift threePasses.idxOf hback
  rw [Relation.transGen_eq_self] at hless
  exact absurd hless (Nat.lt_irrefl _)

/-- **The second insertion undoes the first.**  In the standard registry the plan is made, and the
pass that the first insertion moved behind another runs in front of it. -/
theorem insertions_disturb :
    standardRegistry = .ok usualRegistry ∧
    (threePasses.flatMap usualRegistry.expand).Nodup ∧
    (∀ insertion ∈ disturbing, ∃ before after, splitOnce ':' insertion = some (before, after) ∧
      before ∈ threePasses.flatMap usualRegistry.expand ∧
      after ∈ threePasses.flatMap usualRegistry.expand) ∧
    (∀ pass, ¬ Relation.TransGen (Requested disturbing) pass pass) ∧
    Requested disturbing "canonicalize" "dead-node-removal" ∧
    (usualRegistry.plan threePasses [] disturbing).Ends () fun r _ =>
      ∃ plan, r = .ok plan ∧
        plan.passes = ["dead-node-removal", "constant-folding", "canonicalize"] ∧
        ¬ ["canonicalize", "dead-node-removal"] <+ plan.passes := by
  refine ⟨standardRegistry_eq, threePasses_nodup, disturbing_over, disturbing_acyclic, ?_,
    (Registry.plan_ends disturbing_over).imp fun r _ hend => ?_⟩
  · rw [Requested, requestsOf_disturbing]
    decide
  · obtain ⟨-, hmade, hplan⟩ := hend
    obtain ⟨plan, hok⟩ := hmade.mpr threePasses_known
    have hpasses : plan.passes = ["dead-node-removal", "constant-folding", "canonicalize"] := by
      rw [hplan plan hok, expand_threePasses, requestsOf_disturbing]
      decide
    refine ⟨plan, hok, hpasses, ?_⟩
    rw [hpasses]
    decide

/-- Listed the other way round the two hold together. -/
theorem Registry.plan_carries_out_disturbing :
    (threePasses.flatMap usualRegistry.expand).Nodup ∧
    (∀ pass, ¬ Relation.TransGen (Requested disturbing) pass pass) ∧
    (∀ pass ∈ threePasses.flatMap usualRegistry.expand, usualRegistry.hasPass pass = true) ∧
    ∃ listed : List String, listed.Perm disturbing ∧
      (usualRegistry.plan threePasses [] listed).Ends () fun r _ =>
        ∃ plan, r = .ok plan ∧ ["canonicalize", "dead-node-removal"] <+ plan.passes ∧
          ["constant-folding", "canonicalize"] <+ plan.passes := by
  obtain ⟨-, listed, hperm, hends⟩ :=
    Registry.plan_carries_out (s := ()) threePasses_nodup disturbing_over disturbing_acyclic
  refine ⟨threePasses_nodup, disturbing_acyclic, threePasses_known, listed, hperm,
    hends.imp fun r _ hend => ?_⟩
  obtain ⟨plan, hok, hholds⟩ := hend threePasses_known
  refine ⟨plan, hok, hholds _ _ ?_, hholds _ _ ?_⟩
  · rw [Requested, requestsOf_disturbing]
    decide
  · rw [Requested, requestsOf_disturbing]
    decide

end BehaviorGraph
