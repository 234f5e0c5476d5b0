/-
# What a plan is made of

A registry is built by registering passes and adding aliases, and a call that is refused changes
nothing.  An alias is expanded when it is added, so what it stands for is **its entries, expanded
through the aliases before it** (`expandThrough`), and all of that are registered passes
(`Registrations.Sound`).

So a plan fails only for a name that nobody knows, or for an insertion that names something other
than a pass.  One that is made has the passes of the inclusions, each as often as there: an
insertion takes one pass out and puts it back (`Plan.insert?_cases`), however often passes are
repeated.

That nothing runs where no plan is made is said of a registry whose passes write down their names
before they run (`Registry.noting`); **writing them down changes nothing else** (`execute_noting`).
-/
import BehaviorGraph.Proofs.Insertions
import BehaviorGraph.Proofs.Tours

namespace BehaviorGraph

open scoped List

/-! ## 1. Splitting a text -/

/-- What is left when everything in front of a separator is taken away begins with one. -/
theorem drop_takeWhile_eq_cons_iff {separator : Char} {chars before behind : List Char} :
    (∃ first, chars.drop (chars.takeWhile fun c => !decide (c = separator)).length
      = first :: behind) ∧
      chars.takeWhile (fun c => !decide (c = separator)) = before
      ↔ chars = before ++ separator :: behind ∧ separator ∉ before := by
  induction chars generalizing before with
  | nil => simp
  | cons c rest ih =>
    by_cases hc : c = separator
    · subst hc
      cases before with
      | nil => simp
      | cons d before =>
        simp only [decide_true, Bool.not_true, Bool.false_eq_true, not_false_eq_true,
          List.takeWhile_cons_of_neg]
        grind
    · cases before with
      | nil => simp [hc]
      | cons d before =>
        simp only [hc, decide_false, Bool.not_false, List.takeWhile_cons_of_pos, List.length_cons,
          List.drop_succ_cons]
        grind

/-- **A text is split at its first separator.** -/
theorem splitOnce_eq_some_iff {separator : Char} {text before behind : String} :
    splitOnce separator text = some (before, behind)
      ↔ text = before ++ String.singleton separator ++ behind ∧ separator ∉ before.toList := by
  have htext : text = before ++ String.singleton separator ++ behind
      ↔ text.toList = before.toList ++ separator :: behind.toList := by
    rw [← String.toList_inj]
    simp
  rw [htext, ← drop_takeWhile_eq_cons_iff, splitOnce]
  cases text.toList.drop (text.toList.takeWhile fun c => !decide (c = separator)).length with
  | nil => simp
  | cons first rest =>
    simp only [Option.some.injEq, Prod.mk.injEq, List.cons.injEq, exists_eq_left']
    rw [← String.toList_inj, ← String.toList_inj, String.toList_ofList,
      String.toList_ofList, and_comm]

/-! ## 2. Building a registry -/

/-- A call that adds something to a registry. -/
inductive Registration (κ : Type) where
  | addPass (pass : Registered κ)
  | addAlias (name : String) (entries : List String)

/-- A registry under construction. -/
structure Registrations (κ : Type) where
  registry : Registry κ := {}
  /-- The aliases that were accepted, with their entries, the latest first. -/
  aliases : List (String × List String) := []

/-- What a call leaves behind.  One that is refused leaves everything as it is. -/
def Registrations.perform {κ : Type} (built : Registrations κ) : Registration κ → Registrations κ
  | .addPass pass =>
    match built.registry.register pass with
    | .ok registry => { built with registry := registry }
    | .error _ => built
  | .addAlias name entries =>
    match built.registry.addAlias name entries with
    | .ok registry => ⟨registry, (name, entries) :: built.aliases⟩
    | .error _ => built

/-- **Expand a name recursively**: an alias stands for its entries, expanded through the aliases
before it. -/
def expandThrough : List (String × List String) → String → List String
  | [], name => [name]
  | (known, entries) :: earlier, name =>
    if name = known then entries.flatMap (expandThrough earlier) else expandThrough earlier name

namespace Registry

variable {κ σ : Type} {registry registry' : Registry κ} {name entry : String}
  {entries : List String}

/-- Somebody knows a name: it is that of an alias or of a pass. -/
def Known (registry : Registry κ) (name : String) : Prop :=
  registry.aliases.contains name = true ∨ registry.hasPass name = true

theorem expandEntry_eq_ok_iff {passes : List String} :
    registry.expandEntry name entry = .ok passes
      ↔ registry.Known entry ∧ passes = registry.expand entry := by
  unfold expandEntry Known expand Table.contains
  cases registry.aliases.get? entry with
  | some found =>
    simp only [Option.isSome_some, true_or, true_and, Option.getD_some, Except.ok.injEq, eq_comm]
  | none =>
    cases registry.hasPass entry with
    | false => simp [refuse]
    | true =>
      simp only [Option.isSome_none, or_true, true_and, Option.getD_none, if_true,
        Except.ok.injEq, eq_comm]

theorem mapM_expandEntry_eq_ok_iff {lists : List (List String)} :
    entries.mapM (registry.expandEntry name) = .ok lists
      ↔ (∀ entry ∈ entries, registry.Known entry) ∧ lists = entries.map registry.expand := by
  induction entries generalizing lists with
  | nil => simp [pure, Except.pure, eq_comm]
  | cons entry rest ih =>
    rw [List.mapM_cons, List.forall_mem_cons, List.map_cons]
    cases hentry : registry.expandEntry name entry with
    | error failure =>
      have hunknown : ¬ registry.Known entry := fun hknown => by
        rw [expandEntry_eq_ok_iff.mpr ⟨hknown, rfl⟩] at hentry
        exact absurd hentry (by simp)
      simp [bind, Except.bind, hunknown]
    | ok passes =>
      obtain ⟨hknown, rfl⟩ := expandEntry_eq_ok_iff.mp hentry
      cases hrest : rest.mapM (registry.expandEntry name) with
      | error failure =>
        have hunknown : ¬ ∀ entry ∈ rest, registry.Known entry := fun hall => by
          rw [ih.mpr ⟨hall, rfl⟩] at hrest
          exact absurd hrest (by simp)
        simp [bind, Except.bind, hunknown]
      | ok found =>
        obtain ⟨hall, rfl⟩ := ih.mp hrest
        simp only [bind, Except.bind, pure, Except.pure, Except.ok.injEq]
        exact ⟨fun hlists => ⟨⟨hknown, hall⟩, hlists.symm⟩, fun h => h.2.symm⟩

/-- **An alias is added if its name is new and everybody knows its entries.** -/
theorem addAlias_eq_ok_iff :
    registry.addAlias name entries = .ok registry'
      ↔ registry.aliases.contains name = false ∧ (∀ entry ∈ entries, registry.Known entry) ∧
        registry' = { registry with
          aliases := registry.aliases.insert name (entries.flatMap registry.expand) } := by
  unfold addAlias
  cases hname : registry.aliases.contains name with
  | true => simp [refuse]
  | false =>
    simp only [Bool.false_eq_true, if_false, true_and]
    cases hentries : entries.mapM (registry.expandEntry name) with
    | error failure =>
      have hunknown : ¬ ∀ entry ∈ entries, registry.Known entry := fun hall => by
        rw [mapM_expandEntry_eq_ok_iff.mpr ⟨hall, rfl⟩] at hentries
        exact absurd hentries (by simp)
      simp [bind, Except.bind, hunknown]
    | ok lists =>
      obtain ⟨hall, rfl⟩ := mapM_expandEntry_eq_ok_iff.mp hentries
      simp only [bind, Except.bind, pure, Except.pure, Except.ok.injEq, List.flatMap_def]
      exact ⟨fun hok => ⟨hall, hok.symm⟩, fun h => h.2.symm⟩

theorem register_eq_ok_iff {pass : Registered κ} :
    registry.register pass = .ok registry'
      ↔ registry.hasPass pass.info.name = false ∧
        registry' = { registry with passes := registry.passes ++ [pass] } := by
  unfold register
  cases registry.hasPass pass.info.name <;> simp [refuse, eq_comm]

/-- A pass that is registered stays so. -/
theorem hasPass_register {pass : Registered κ} (h : registry.hasPass name = true) :
    ({ registry with passes := registry.passes ++ [pass] } : Registry κ).hasPass name = true := by
  simp only [hasPass, pass?, List.find?_append, Option.isSome_or] at h ⊢
  rw [h, Bool.true_or]

/-- An alias that is added stands for its passes. -/
theorem expand_insert_self (passes : List String) :
    ({ registry with aliases := registry.aliases.insert name passes } : Registry κ).expand name
      = passes := by
  rw [expand, Table.get?_insert_self, Option.getD_some]

/-- Other names stand for what they stood for. -/
theorem expand_insert_of_ne {other : String} (passes : List String) (h : other ≠ name) :
    ({ registry with aliases := registry.aliases.insert name passes } : Registry κ).expand other
      = registry.expand other := by
  rw [expand, Table.get?_insert_of_ne _ _ h, expand]

theorem contains_insert_iff {other : String} (passes : List String) :
    (registry.aliases.insert name passes).contains other = true
      ↔ other = name ∨ registry.aliases.contains other = true := by
  unfold Table.contains
  by_cases h : other = name
  · subst h
    simp [Table.get?_insert_self]
  · simp [Table.get?_insert_of_ne _ _ h, h]

/-- What a known name stands for is a known alias's, or the name of a pass. -/
theorem expand_of_not_contains (h : registry.aliases.contains name = false) :
    registry.expand name = [name] := by
  rw [expand, Option.not_isSome_iff_eq_none.mp (Bool.eq_false_iff.mp h), Option.getD_none]

/-- Nobody known goes by the name of a new alias, which was neither an alias nor a pass: names that
were known stand for what they stood for. -/
theorem flatMap_expand_insert (passes : List String)
    (hnew : registry.aliases.contains name = false) (hpass : registry.hasPass name = false)
    (hknown : ∀ entry ∈ entries, registry.Known entry) :
    entries.flatMap (expand { registry with aliases := registry.aliases.insert name passes })
      = entries.flatMap registry.expand := by
  refine List.flatMap_congr fun entry hentry => expand_insert_of_ne passes ?_
  rintro rfl
  rcases hknown entry hentry with halias | hregistered
  · exact absurd halias (by simp [hnew])
  · exact absurd hregistered (by simp [hpass])

end Registry

/-! ## 3. What aliases stand for -/

namespace Registrations

variable {κ : Type} {built : Registrations κ} {name pass : String} {entries : List String}

/-- What is true of a registry under construction. -/
structure Sound (built : Registrations κ) : Prop where
  expand : ∀ name, built.registry.expand name = expandThrough built.aliases name
  contains : ∀ {name}, built.registry.aliases.contains name = true ↔
    name ∈ built.aliases.map Prod.fst
  passes : ∀ {name}, built.registry.aliases.contains name = true →
    ∀ pass ∈ built.registry.expand name, built.registry.hasPass pass = true
  entries : ∀ {name entries}, (name, entries) ∈ built.aliases →
    ∀ entry ∈ entries, built.registry.Known entry
  /-- Where no alias has the name of a pass, what was expanded then would be expanded so now. -/
  unfolds : (∀ name ∈ built.aliases.map Prod.fst, built.registry.hasPass name = false) →
    ∀ {name entries}, (name, entries) ∈ built.aliases →
      built.registry.expand name = entries.flatMap built.registry.expand

theorem sound_empty : ({} : Registrations κ).Sound where
  expand _ := rfl
  contains := by simp [Table.contains, Table.get?_empty]
  passes h := absurd h (by simp [Table.contains, Table.get?_empty])
  entries h := absurd h (by simp)
  unfolds _ _ _ h := absurd h (by simp)

/-- Whoever is known stands for registered passes. -/
theorem Sound.passes_of_known (h : built.Sound) (hknown : built.registry.Known name)
    (hpass : pass ∈ built.registry.expand name) : built.registry.hasPass pass = true := by
  cases hname : built.registry.aliases.contains name with
  | true => exact h.passes hname pass hpass
  | false =>
    rw [Registry.expand_of_not_contains hname, List.mem_singleton] at hpass
    exact hpass ▸ hknown.resolve_left (by simp [hname])

/-- A pass more makes no difference to aliases. -/
theorem Sound.addPass (h : built.Sound) (pass : Registered κ) :
    Sound { built with registry :=
      { built.registry with passes := built.registry.passes ++ [pass] } } where
  expand := h.expand
  contains := h.contains
  passes hname pass hpass := Registry.hasPass_register (h.passes hname pass hpass)
  entries hin entry hentry := (h.entries hin entry hentry).imp id Registry.hasPass_register
  unfolds hplain _ _ hin := by
    refine h.unfolds (fun name hname => Bool.eq_false_iff.mpr fun hpass => ?_) hin
    exact Bool.eq_false_iff.mp (hplain name hname) (Registry.hasPass_register hpass)

/-- **A new alias stands for what its entries stand for**, and the others for what they stood for.
-/
theorem Sound.addAlias (h : built.Sound) (hnew : built.registry.aliases.contains name = false)
    (hknown : ∀ entry ∈ entries, built.registry.Known entry) :
    Sound ⟨{ built.registry with
      aliases := built.registry.aliases.insert name (entries.flatMap built.registry.expand) },
      (name, entries) :: built.aliases⟩ where
  expand other := by
    by_cases hother : other = name
    · subst hother
      rw [Registry.expand_insert_self, expandThrough, if_pos rfl, funext h.expand]
    · rw [Registry.expand_insert_of_ne _ hother, expandThrough, if_neg hother, h.expand]
  contains {other} := by
    rw [Registry.contains_insert_iff, List.map_cons, List.mem_cons, h.contains]
  passes {other} hother pass hpass := by
    by_cases heq : other = name
    · subst heq
      rw [Registry.expand_insert_self] at hpass
      obtain ⟨entry, hentry, hpass⟩ := List.mem_flatMap.mp hpass
      exact h.passes_of_known (hknown entry hentry) hpass
    · rw [Registry.expand_insert_of_ne _ heq] at hpass
      exact h.passes (((Registry.contains_insert_iff _).mp hother).resolve_left heq) pass hpass
  entries {other listed} hin entry hentry := by
    have hbefore : built.registry.Known entry := by
      rcases List.mem_cons.mp hin with heq | hin
      · obtain ⟨rfl, rfl⟩ := Prod.mk.inj heq
        exact hknown entry hentry
      · exact h.entries hin entry hentry
    exact hbefore.imp (fun halias => (Registry.contains_insert_iff _).mpr (.inr halias)) id
  unfolds hplain {other listed} hin := by
    have hpass : built.registry.hasPass name = false := hplain name (by simp)
    rcases List.mem_cons.mp hin with heq | hearlier
    · obtain ⟨rfl, rfl⟩ := Prod.mk.inj heq
      rw [Registry.expand_insert_self, Registry.flatMap_expand_insert _ hnew hpass hknown]
    · have hother : other ≠ name := by
        rintro rfl
        exact absurd (h.contains.mpr (List.mem_map.mpr ⟨_, hearlier, rfl⟩)) (by simp [hnew])
      rw [Registry.expand_insert_of_ne _ hother,
        Registry.flatMap_expand_insert _ hnew hpass (h.entries hearlier)]
      exact h.unfolds (fun name hname => hplain name (List.mem_cons_of_mem _ hname)) hearlier

/-- Whatever call comes, accepted or refused, the registry stays sound. -/
theorem Sound.perform (h : built.Sound) (call : Registration κ) : (built.perform call).Sound := by
  cases call with
  | addPass pass =>
    cases hcall : built.registry.register pass with
    | error failure => simpa only [Registrations.perform, hcall] using h
    | ok registry =>
      obtain ⟨-, rfl⟩ := Registry.register_eq_ok_iff.mp hcall
      simpa only [Registrations.perform, hcall] using h.addPass pass
  | addAlias name entries =>
    cases hcall : built.registry.addAlias name entries with
    | error failure => simpa only [Registrations.perform, hcall] using h
    | ok registry =>
      obtain ⟨hnew, hknown, rfl⟩ := Registry.addAlias_eq_ok_iff.mp hcall
      simpa only [Registrations.perform, hcall] using h.addAlias hnew hknown

/-- **Every registry that is built by calls is sound.** -/
theorem sound_foldl (calls : List (Registration κ)) :
    (calls.foldl Registrations.perform {}).Sound := by
  suffices h : ∀ built : Registrations κ, built.Sound →
    (calls.foldl Registrations.perform built).Sound from h {} sound_empty
  induction calls with
  | nil => exact fun _ h => h
  | cons call rest ih => exact fun built h => ih _ (h.perform call)

end Registrations

/-! ## 4. Insertions into any plan -/

namespace Plan

variable {plan : Plan} {passes front between behind : List String} {before after w z : String}

/-- **What an insertion does to a plan with both passes, neither of them excluded**: nothing, if
the first `after` is not in front of the first `before`; otherwise this `after` goes right behind
this `before`. -/
theorem insert?_cases (hbefore : before ∈ plan.passes) (hafter : after ∈ plan.passes)
    (hruns : before ∉ plan.excluded ∧ after ∉ plan.excluded) :
    (plan.passes.idxOf before ≤ plan.passes.idxOf after ∧ plan.insert? before after = some plan) ∨
    plan.passes.idxOf after < plan.passes.idxOf before ∧
    ∃ front between behind, plan.passes = front ++ after :: (between ++ before :: behind) ∧
      plan.insert? before after
        = some { plan with passes := front ++ (between ++ before :: after :: behind) } := by
  rw [plan.insert?_eq hbefore hafter hruns]
  rcases Nat.lt_or_ge (plan.passes.idxOf after) (plan.passes.idxOf before) with hlt | hge
  · obtain ⟨front, between, behind, hpasses, hmoved⟩ := arrangeOne_of_lt hbefore hlt
    exact .inr ⟨hlt, front, between, behind, hpasses, by rw [hmoved]⟩
  · exact .inl ⟨hge, by rw [arrangeOne_of_le hge]⟩

/-- An insertion whose passes are not both in the plan, or of which one is excluded, is ignored. -/
theorem insert?_eq_none (h : ¬ (before ∈ plan.passes ∧ after ∈ plan.passes ∧
    before ∉ plan.excluded ∧ after ∉ plan.excluded)) : plan.insert? before after = none := by
  unfold insert?
  split
  · rename_i b a hb ha
    have hin : before ∈ plan.passes ∧ after ∈ plan.passes :=
      ⟨List.isSome_idxOf?.mp (by simp [hb]), List.isSome_idxOf?.mp (by simp [ha])⟩
    rw [if_neg]
    simpa [hin] using h
  · rfl

/-- Carry out an insertion as it is written.  One that is not of the right form, or whose passes
are not both in the plan, is ignored. -/
def carryOut (plan : Plan) (insertion : String) : Plan :=
  match splitOnce ':' insertion with
  | none => plan
  | some (before, after) => (plan.insert? before after).getD plan

/-- **An insertion takes one pass out and puts it back.** -/
theorem carryOut_perm (plan : Plan) (insertion : String) :
    (plan.carryOut insertion).passes.Perm plan.passes ∧
      (plan.carryOut insertion).excluded = plan.excluded := by
  unfold carryOut
  split
  · exact ⟨.refl _, rfl⟩
  · rename_i before after _
    by_cases h : before ∈ plan.passes ∧ after ∈ plan.passes ∧
        before ∉ plan.excluded ∧ after ∉ plan.excluded
    · rw [plan.insert?_eq h.1 h.2.1 h.2.2]
      exact ⟨arrangeOne_perm _ h.1 after, rfl⟩
    · rw [insert?_eq_none h]
      exact ⟨.refl _, rfl⟩

/-- **However many insertions there are, a plan keeps its passes**, each as often as before. -/
theorem foldl_carryOut_perm (insertions : List String) (plan : Plan) :
    (insertions.foldl carryOut plan).passes.Perm plan.passes ∧
      (insertions.foldl carryOut plan).excluded = plan.excluded := by
  induction insertions generalizing plan with
  | nil => exact ⟨.refl _, rfl⟩
  | cons insertion rest ih =>
    obtain ⟨hperm, hexcluded⟩ := ih (plan.carryOut insertion)
    obtain ⟨hone, hsame⟩ := plan.carryOut_perm insertion
    exact ⟨hperm.trans hone, hexcluded.trans hsame⟩

/-- Of an element that occurs once, the places at which others stand tell who stands in front. -/
theorem idxOf_le_iff_sublist (hne : before ≠ after) (hbefore : before ∈ passes)
    (hafter : passes.count after = 1) :
    passes.idxOf before ≤ passes.idxOf after ↔ [before, after] <+ passes := by
  have hin : after ∈ passes := List.count_pos_iff.mp (by omega)
  constructor
  · intro hle
    have hlt : passes.idxOf before < passes.idxOf after :=
      lt_of_le_of_ne hle fun heq => hne ((List.idxOf_inj hbefore).mp heq)
    obtain ⟨front, between, behind, rfl, -, -⟩ := exists_split hin hlt
    have hpair : [before, after] <+ before :: (between ++ after :: behind) :=
      (List.singleton_sublist.mpr (by simp)).cons_cons before
    exact hpair.trans (List.sublist_append_right front _)
  · intro hpair
    by_contra hgt
    obtain ⟨front, between, behind, rfl, hfront, hother⟩ := exists_split hbefore (Nat.not_le.mp hgt)
    -- The only `after` stands in front of the first `before`, so none stands behind it.
    have hbehind : after ∉ before :: behind := by
      have hassoc : front ++ after :: (between ++ before :: behind)
          = (front ++ after :: between) ++ before :: behind := by simp
      rw [hassoc, List.count_append, List.count_append, List.count_cons_self] at hafter
      exact List.count_eq_zero.mp (by omega)
    obtain ⟨early, late, hsplit, hearly, hlate⟩ := List.cons_sublist_iff.mp hpair
    have hsplit' : (front ++ after :: between) ++ before :: behind = early ++ late := by
      rw [← hsplit]
      simp
    rcases List.append_eq_append_iff.mp hsplit' with ⟨more, rfl, htail⟩ | ⟨more, hshort, -⟩
    · exact hbehind (htail ▸ List.mem_append_right more (List.singleton_sublist.mp hlate))
    · exact hother (hshort ▸ List.mem_append_left more hearly)

/-- **One insertion on a plan in which both passes run and each occurs once.**  Nothing changes if
`after` stands behind `before` already; otherwise `after` alone is moved, right behind `before`. -/
theorem carryOut_of_count {insertion : String}
    (hsplit : splitOnce ':' insertion = some (before, after))
    (hruns : before ∉ plan.excluded ∧ after ∉ plan.excluded)
    (hbefore : plan.passes.count before = 1) (hafter : plan.passes.count after = 1) :
    ((before = after ∨ [before, after] <+ plan.passes) → plan.carryOut insertion = plan) ∧
    (before ≠ after → ¬ [before, after] <+ plan.passes →
      ∃ front between behind, plan.passes = front ++ after :: (between ++ before :: behind) ∧
        (plan.carryOut insertion).passes = front ++ (between ++ before :: after :: behind)) := by
  have hin : before ∈ plan.passes := List.count_pos_iff.mp (by omega)
  have hin' : after ∈ plan.passes := List.count_pos_iff.mp (by omega)
  simp only [carryOut, hsplit]
  rcases insert?_cases hin hin' hruns with ⟨hle, hsame⟩
    | ⟨hlt, front, between, behind, hpasses, hmoved⟩
  · rw [hsame]
    exact ⟨fun _ => rfl, fun hne hstands => absurd ((idxOf_le_iff_sublist hne hin hafter).mp hle)
      hstands⟩
  · rw [hmoved]
    refine ⟨fun hstands => ?_, fun _ _ => ⟨front, between, behind, hpasses, rfl⟩⟩
    have hne : before ≠ after := by
      rintro rfl
      exact absurd hlt (Nat.lt_irrefl _)
    have hle := (idxOf_le_iff_sublist hne hin hafter).mpr (hstands.resolve_left hne)
    exact absurd hlt (Nat.not_lt.mpr hle)

end Plan

/-! ## 5. When a plan is made -/

namespace Registry

variable {κ σ : Type} {registry : Registry κ} {s : σ} {name insertion : String}
  {included excluded insertions : List String}

/-- An insertion that names something other than a pass on one side of its first colon. -/
def Misnamed (registry : Registry κ) (insertion : String) : Prop :=
  ∃ before after, insertion = before ++ ":" ++ after ∧ ':' ∉ before.toList ∧
    ¬ (registry.hasPass before = true ∧ registry.hasPass after = true)

theorem misnamed_iff : registry.Misnamed insertion ↔ ∃ before after,
    splitOnce ':' insertion = some (before, after) ∧
      ¬ (registry.hasPass before = true ∧ registry.hasPass after = true) := by
  simp only [splitOnce_eq_some_iff, and_assoc]
  exact Iff.rfl

/-- **No plan is made**: nobody knows one of the names, or one of the insertions is misnamed. -/
def Refuses (registry : Registry κ) (included excluded insertions : List String) : Prop :=
  (∃ name ∈ included ++ excluded, ¬ registry.Known name) ∨
    ∃ insertion ∈ insertions, registry.Misnamed insertion

/-- A misnamed insertion fails, whatever follows. -/
theorem insertAll_of_misnamed (plan : Plan) (rest : List String) (h : registry.Misnamed insertion) :
    (registry.insertAll plan (insertion :: rest)).Ends s fun r s' => s' = s ∧ ∃ failure,
      r = .error failure := by
  obtain ⟨before, after, hsplit, hunknown⟩ := misnamed_iff.mp h
  rw [insertAll]
  simp only [hsplit]
  rw [Run.ends_bind, Run.ends_ofExcept]
  cases hbefore : registry.requirePass before with
  | error failure => exact ⟨rfl, failure, rfl⟩
  | ok value =>
    simp only
    rw [Run.ends_bind, Run.ends_ofExcept]
    cases hafter : registry.requirePass after with
    | error failure => exact ⟨rfl, failure, rfl⟩
    | ok value =>
      exact absurd ⟨requirePass_eq_ok_iff.mp hbefore, requirePass_eq_ok_iff.mp hafter⟩ hunknown

/-- Any other insertion is carried out before the rest. -/
theorem ends_insertAll_cons (plan : Plan) (rest : List String) (h : ¬ registry.Misnamed insertion)
    (Q : Except Failure Plan → σ → Prop) :
    (registry.insertAll plan (insertion :: rest)).Ends s Q
      ↔ (registry.insertAll (plan.carryOut insertion) rest).Ends s Q := by
  rw [insertAll, Plan.carryOut]
  cases hsplit : splitOnce ':' insertion with
  | none =>
    simp only
    rw [Run.ends_bind, Run.ends_log]
  | some names =>
    obtain ⟨before, after⟩ := names
    have hknown : registry.hasPass before = true ∧ registry.hasPass after = true := by
      by_contra hunknown
      exact h (misnamed_iff.mpr ⟨before, after, hsplit, hunknown⟩)
    simp only
    rw [Run.ends_bind, Run.ends_ofExcept, requirePass_eq_ok_iff.mpr hknown.1]
    simp only
    rw [Run.ends_bind, Run.ends_ofExcept, requirePass_eq_ok_iff.mpr hknown.2]
    cases plan.insert? before after with
    | some next => exact Iff.rfl
    | none =>
      simp only
      rw [Run.ends_bind, Run.ends_log, Option.getD_none]

/-- **Insertions fail for a name that is not that of a pass**, and are carried out one after the
other otherwise. -/
theorem insertAll_follows (plan : Plan) (insertions : List String) :
    (registry.insertAll plan insertions).Ends s fun r s' => s' = s ∧
      (((∃ insertion ∈ insertions, registry.Misnamed insertion) ∧ ∃ failure, r = .error failure) ∨
        ((¬ ∃ insertion ∈ insertions, registry.Misnamed insertion) ∧
          r = .ok (insertions.foldl Plan.carryOut plan))) := by
  induction insertions generalizing plan with
  | nil => exact ⟨rfl, .inr ⟨by simp, rfl⟩⟩
  | cons insertion rest ih =>
    by_cases hmisnamed : registry.Misnamed insertion
    · refine (insertAll_of_misnamed plan rest hmisnamed).imp fun r s' hend => ?_
      exact ⟨hend.1, .inl ⟨⟨insertion, by simp, hmisnamed⟩, hend.2⟩⟩
    · rw [ends_insertAll_cons plan rest hmisnamed]
      simpa only [List.exists_mem_cons_iff, hmisnamed, false_or, List.foldl_cons]
        using ih (plan.carryOut insertion)

end Registry

namespace Registrations

variable {κ σ : Type} {built : Registrations κ} {s : σ} {name : String}

/-- The passes a name stands for are registered exactly if somebody knows the name. -/
theorem Sound.known_iff (h : built.Sound) :
    built.registry.Known name ↔ ∀ pass ∈ built.registry.expand name,
      built.registry.hasPass pass = true := by
  refine ⟨fun hknown pass => h.passes_of_known hknown, fun hpasses => ?_⟩
  cases hname : built.registry.aliases.contains name with
  | true => exact .inl hname
  | false =>
    rw [Registry.expand_of_not_contains hname] at hpasses
    exact .inr (hpasses name (by simp))

/-- **A plan is made unless the registry refuses, of the passes of the inclusions as the insertions
arrange them.** -/
theorem Sound.plan_follows (h : built.Sound) (included excluded insertions : List String) :
    (built.registry.plan included excluded insertions).Ends s fun r s' => s' = s ∧
      ((built.registry.Refuses included excluded insertions ∧ ∃ failure, r = .error failure) ∨
        (¬ built.registry.Refuses included excluded insertions ∧
          r = .ok (insertions.foldl Plan.carryOut
            ⟨included.flatMap built.registry.expand,
              excluded.flatMap built.registry.expand⟩))) := by
  have hcheck :
    (included.flatMap built.registry.expand ++ excluded.flatMap built.registry.expand).forM
      built.registry.requirePass = .ok () ↔ ∀ name ∈ included ++ excluded,
        built.registry.Known name := by
    rw [forM_eq_ok_iff, ← List.flatMap_append]
    simp only [Registry.requirePass_eq_ok_iff, List.mem_flatMap, forall_exists_index,
      and_imp, h.known_iff]
    exact ⟨fun hall name hin pass => hall pass name hin, fun hall pass name hin =>
      hall name hin pass⟩
  rw [Registry.plan, Run.ends_bind, Run.ends_ofExcept]
  cases hresult : (included.flatMap built.registry.expand
    ++ excluded.flatMap built.registry.expand).forM
      built.registry.requirePass with
  | error failure =>
    refine ⟨rfl, .inl ⟨.inl ?_, failure, rfl⟩⟩
    by_contra hnone
    push Not at hnone
    rw [hcheck.mpr hnone] at hresult
    exact absurd hresult (by simp)
  | ok value =>
    have hknown : ¬ ∃ name ∈ included ++ excluded, ¬ built.registry.Known name := by
      push Not
      exact hcheck.mp hresult
    simpa only [Registry.Refuses, hknown, false_or]
      using built.registry.insertAll_follows _ insertions

end Registrations

/-! ## 6. Which passes run -/

/-- The same outcome, with names beside the state. -/
def Outcome.noted {ε κ α : Type} (o : Outcome ε κ α) (names : List String) :
    Outcome ε (κ × List String) α := ⟨o.result, (o.state, names), o.reports⟩

/-- Runs that do the same, of which one carries names that it does not look at. -/
def Run.Beside {ε κ α : Type} (m' : Run ε (κ × List String) α) (m : Run ε κ α) : Prop :=
  ∀ s names, m' (s, names) = (m s).noted names

theorem Run.bind_noted {ε κ α β : Type} {m' : Run ε (κ × List String) α} {m : Run ε κ α}
    {f' : α → Run ε (κ × List String) β} {f : α → Run ε κ β} {s : κ} {before after : List String}
    (hm : m' (s, before) = (m s).noted after) (hf : ∀ a, (f' a).Beside (f a)) :
    (m' >>= f') (s, before) = ((m >>= f) s).noted after := by
  cases h : m s with
  | mk result s' reports =>
    rw [h] at hm
    cases result with
    | error e => rw [bind_error h, bind_error hm]; rfl
    | ok a => rw [bind_ok h, bind_ok hm, hf a s' after]; rfl

theorem Run.Beside.bind {ε κ α β : Type} {m' : Run ε (κ × List String) α} {m : Run ε κ α}
    {f' : α → Run ε (κ × List String) β} {f : α → Run ε κ β} (hm : m'.Beside m)
    (hf : ∀ a, (f' a).Beside (f a)) : (m' >>= f').Beside (m >>= f) :=
  fun s names => Run.bind_noted (hm s names) hf

theorem Run.Beside.ite {ε κ α : Type} {condition : Bool} {m' n' : Run ε (κ × List String) α}
    {m n : Run ε κ α} (hm : m'.Beside m) (hn : n'.Beside n) :
    (if condition then m' else n').Beside (if condition then m else n) := by
  cases condition
  · exact hn
  · exact hm

theorem Run.beside_ofExcept {ε κ α : Type} (r : Except ε α) :
    (ofExcept r : Run ε (κ × List String) α).Beside (ofExcept r) := by
  intro s names
  cases r <;> rfl

theorem Run.beside_report {ε κ : Type} (r : Report) :
    (report r : Run ε (κ × List String) Unit).Beside (report r) := fun _ _ => rfl

/-- The pass, which writes down its name before it runs. -/
def Registered.noting {κ : Type} (pass : Registered κ) : Registered (κ × List String) where
  info := pass.info
  diagnostic := pass.diagnostic
  run := fun s => (pass.run s.1).noted (s.2 ++ [pass.info.name])

namespace Registry

variable {κ σ : Type} {registry : Registry κ} {view : κ → Context} {plan : Plan} {dump : Bool}

/-- The registry whose passes write down their names. -/
def noting (registry : Registry κ) : Registry (κ × List String) :=
  ⟨registry.passes.map Registered.noting, registry.aliases⟩

theorem pass?_noting (name : String) :
    registry.noting.pass? name = (registry.pass? name).map Registered.noting := List.find?_map

theorem requirePass_noting : registry.noting.requirePass = registry.requirePass := by
  funext name
  simp only [requirePass, hasPass, pass?_noting, Option.isSome_map]
  rfl

theorem insertAll_noting (plan : Plan) (insertions : List String) :
    Run.Beside (registry.noting.insertAll plan insertions)
      (registry.insertAll plan insertions : Run Failure σ Plan) := by
  induction insertions generalizing plan with
  | nil => exact fun s names => rfl
  | cons insertion rest ih =>
    rw [insertAll, insertAll, requirePass_noting]
    cases splitOnce ':' insertion with
    | none => exact (Run.beside_report _).bind fun _ => ih plan
    | some found =>
      refine (Run.beside_ofExcept _).bind fun _ => (Run.beside_ofExcept _).bind fun _ => ?_
      cases plan.insert? found.1 found.2 with
      | some next => exact ih next
      | none => exact (Run.beside_report _).bind fun _ => ih plan

theorem plan_noting (included excluded insertions : List String) :
    Run.Beside (registry.noting.plan included excluded insertions)
      (registry.plan included excluded insertions : Run Failure σ Plan) := by
  rw [Registry.plan, Registry.plan, requirePass_noting]
  exact (Run.beside_ofExcept _).bind fun _ => insertAll_noting _ insertions

theorem requireConsistent_noting (name : String) :
    Run.Beside (requireConsistent (view ∘ Prod.fst) name) (requireConsistent view name) := by
  intro s names
  unfold requireConsistent
  rw [Run.bind_ok (Run.state_apply _), Run.bind_ok (Run.state_apply _)]
  simp only [Function.comp_apply]
  cases (inconsistencies name (view s)).isEmpty <;> rfl

/-- A pass of the plan that is not excluded. -/
def runs (registry : Registry κ) (plan : Plan) (name : String) : Bool :=
  !plan.excluded.contains name && registry.hasPass name

/-- Running a pass of a plan writes its name down, if it is one that runs. -/
theorem runPass_noting (name : String) (s : κ) (names : List String) :
    registry.noting.runPass (view ∘ Prod.fst) plan dump name (s, names)
      = (registry.runPass view plan dump name s).noted
        (names ++ if registry.runs plan name then [name] else []) := by
  unfold runPass runs hasPass
  rw [pass?_noting]
  cases plan.excluded.contains name with
  | true => simp; rfl
  | false =>
    cases hpass : registry.pass? name with
    | none => simp; rfl
    | some pass =>
      have hname : pass.info.name = name := by simpa using List.find?_some hpass
      -- Neither the check behind the pass nor what is printed looks at the names.
      have hdone : Run.Beside (κ := κ) (ε := Failure) (Run.log .info (name ++ ": <time>"))
          (Run.log .info (name ++ ": <time>")) := Run.beside_report _
      simp only [Option.map_some, Option.isSome_some, Bool.not_false, Bool.and_self,
        Bool.false_eq_true, if_false, if_true]
      refine Run.bind_noted (by simp [Registered.noting, hname]) fun _ => ?_
      exact .ite ((requireConsistent_noting name).bind fun _ => .ite (fun _ _ => rfl) hdone)
        (.ite (fun _ _ => rfl) hdone)

/-- **The passes of a plan that run are run in its order**, up to one that fails. -/
theorem each_runPass_noting (registry : Registry κ) (view : κ → Context) (plan : Plan) (dump : Bool)
    (items : List String) (s : κ) (names : List String) :
    ∃ ran, Run.each (registry.noting.runPass (view ∘ Prod.fst) plan dump) items (s, names)
        = (Run.each (registry.runPass view plan dump) items s).noted (names ++ ran) ∧
      ran <+: items.filter (registry.runs plan) ∧
      ((Run.each (registry.runPass view plan dump) items s).result = .ok () →
        ran = items.filter (registry.runs plan)) := by
  induction items generalizing s names with
  | nil => exact ⟨[], by rw [List.append_nil]; rfl, List.nil_prefix, fun _ => rfl⟩
  | cons name rest ih =>
    have hhead : (name :: rest).filter (registry.runs plan)
        = (if registry.runs plan name then [name] else []) ++ rest.filter (registry.runs plan) := by
      cases hname : registry.runs plan name <;> simp [hname]
    rw [hhead]
    simp only [Run.each, Run.bind, runPass_noting]
    cases registry.runPass view plan dump name s with
    | mk result s' reports =>
      cases result with
      | error e => exact ⟨_, rfl, List.prefix_append _ _, fun hok => absurd hok (by simp)⟩
      | ok value =>
        obtain ⟨ran, hrest, hfirst, hall⟩ :=
          ih s' (names ++ if registry.runs plan name then [name] else [])
        refine ⟨(if registry.runs plan name then [name] else []) ++ ran, ?_,
          (List.prefix_append_right_inj _).mpr hfirst, fun hok => by rw [hall hok]⟩
        simp only [Outcome.noted] at hrest ⊢
        rw [hrest, List.append_assoc]
        rfl

/-- The passes that run when a plan is executed. -/
def ran (registry : Registry κ) (view : κ → Context) (included excluded insertions : List String)
    (dump : Bool) (s : κ) : List String :=
  (registry.noting.execute (view ∘ Prod.fst) included excluded insertions dump (s, [])).state.2

/-- **Writing down which passes run changes nothing else.**  None of them runs where no plan is
made; otherwise they are those of the plan, up to one that fails. -/
theorem execute_noting (registry : Registry κ) (view : κ → Context)
    (included excluded insertions : List String) (dump : Bool) (s : κ) :
    registry.noting.execute (view ∘ Prod.fst) included excluded insertions dump (s, [])
      = (registry.execute view included excluded insertions dump s).noted
        (registry.ran view included excluded insertions dump s) ∧
    (registry.plan included excluded insertions).Ends s fun r s' =>
      (∀ failure, r = .error failure →
        (registry.execute view included excluded insertions dump s).result = .error failure ∧
        (registry.execute view included excluded insertions dump s).state = s' ∧
        registry.ran view included excluded insertions dump s = []) ∧
      ∀ plan, r = .ok plan →
        registry.ran view included excluded insertions dump s <+: plan.passes.filter
          (registry.runs plan) ∧
        ((registry.execute view included excluded insertions dump s).result = .ok () →
          registry.ran view included excluded insertions dump s
            = plan.passes.filter (registry.runs plan)) := by
  have hplan := registry.plan_noting included excluded insertions s []
  unfold ran Run.Ends execute
  cases hmade : registry.plan included excluded insertions s with
  | mk result s' reports =>
    rw [hmade] at hplan
    cases result with
    | error e =>
      rw [Run.bind_error hmade, Run.bind_error hplan]
      refine ⟨rfl, fun failure hfailure => ?_, fun plan hok => absurd hok (by simp)⟩
      obtain rfl := Except.error.inj hfailure
      exact ⟨rfl, rfl, rfl⟩
    | ok plan =>
      obtain ⟨ran, heach, hfirst, hall⟩ :=
        registry.each_runPass_noting view plan dump plan.passes s' []
      rw [List.nil_append] at heach
      rw [Run.bind_ok hmade, Run.bind_ok hplan, heach]
      refine ⟨rfl, fun failure hfailure => absurd hfailure (by simp), fun made hok => ?_⟩
      obtain rfl := Except.ok.inj hok
      exact ⟨hfirst, hall⟩

end Registry

/-- Of a plan that is made, all passes run but those that are excluded. -/
theorem Registrations.Sound.filter_runs {κ : Type} {built : Registrations κ} {plan : Plan}
    {included excluded insertions : List String} (h : built.Sound)
    (hmakes : ¬ built.registry.Refuses included excluded insertions)
    (hperm : plan.passes.Perm (included.flatMap built.registry.expand)) :
    plan.passes.filter (built.registry.runs plan)
      = plan.passes.filter fun name => !plan.excluded.contains name := by
  refine List.filter_congr fun pass hpass => ?_
  obtain ⟨name, hname, hpass⟩ := List.mem_flatMap.mp (hperm.mem_iff.mp hpass)
  have hknown : built.registry.Known name := by
    by_contra hunknown
    exact hmakes (.inl ⟨name, List.mem_append_left _ hname, hunknown⟩)
  rw [Registry.runs, h.passes_of_known hknown hpass, Bool.and_true]

/-! ## 7. Plans of any registry -/

variable {κ σ : Type}

/-- **What the aliases of a registry stand for.** -/
structure Registrations.AliasesExpanded (built : Registrations κ) : Prop where
  /-- The entries of an alias are expanded through the aliases before it. -/
  expand : ∀ name, built.registry.expand name = expandThrough built.aliases name
  /-- An alias stands for registered passes only. -/
  passes : ∀ name ∈ built.aliases.map Prod.fst, ∀ pass ∈ built.registry.expand name,
    built.registry.hasPass pass = true
  /-- If no alias has the name of a pass, the entries may as well be expanded now. -/
  unfolds : (∀ name ∈ built.aliases.map Prod.fst, built.registry.hasPass name = false) →
    ∀ name entries, (name, entries) ∈ built.aliases →
      built.registry.expand name = entries.flatMap built.registry.expand

/-- **What making a plan comes to.** -/
structure Registry.Planned (registry : Registry κ)
    (included excluded insertions : List String) (s : σ)
    (r : Except Failure Plan) (s' : σ) : Prop where
  unchanged : s' = s
  fails_iff : (∃ failure, r = .error failure) ↔ registry.Refuses included excluded insertions
  /-- The inclusions are expanded and the insertions carried out one after the other. -/
  made : ∀ plan, r = .ok plan → plan = insertions.foldl Plan.carryOut
    ⟨included.flatMap registry.expand, excluded.flatMap registry.expand⟩
  perm : ∀ plan, r = .ok plan → plan.passes.Perm (included.flatMap registry.expand)

/-- **Which passes run when a plan is executed**, read off from what they write down. -/
structure Registry.Executed (registry : Registry κ) (view : κ → Context)
    (included excluded insertions : List String) (dump : Bool) (s : κ)
    (o : Outcome Failure κ Unit) (ran : List String) : Prop where
  noting : registry.noting.execute (view ∘ Prod.fst) included excluded insertions dump (s, [])
    = o.noted ran
  refused : registry.Refuses included excluded insertions →
    (∃ failure, o.result = .error failure) ∧ o.state = s ∧ ran = []
  /-- All passes run that are not excluded, up to one that fails. -/
  followed : ¬ registry.Refuses included excluded insertions → ∃ plan,
    (registry.plan included excluded insertions s).result = .ok plan ∧
    ran <+: plan.passes.filter (fun name => !plan.excluded.contains name) ∧
    (o.result = .ok () → ran = plan.passes.filter fun name => !plan.excluded.contains name)

/-- **What an insertion does to a plan**: `after` comes to stand right behind `before`, unless it
stands behind it already. -/
structure Plan.CarriedOut (plan : Plan) (before after : String) : Prop where
  stays : before = after ∨ [before, after] <+ plan.passes →
    plan.carryOut (before ++ ":" ++ after) = plan
  moves : before ≠ after → ¬ [before, after] <+ plan.passes → ∃ front between behind,
    plan.passes = front ++ after :: (between ++ before :: behind) ∧
    (plan.carryOut (before ++ ":" ++ after)).passes
      = front ++ (between ++ before :: after :: behind)

/-- **Plans neither drop nor invent passes**, whatever calls have built the registry, accepted or
refused.

An alias stands for registered passes only, in the order in which its entries are expanded through
the aliases before it; if no alias has the name of a pass, that is also what expanding its entries
comes to now.

A plan is refused exactly if nobody knows one of its names or an insertion names something other
than a pass on one side of its first colon.  Then executing it fails, leaves the state as it is and
runs no pass.  Otherwise the plan has the passes of the inclusions, each as often as there, and
those of them that are not excluded are run in its order, up to one that fails.

An insertion over two passes that are not excluded and occur once does nothing if `after` stands
behind `before` already; otherwise it moves `after`, right behind `before`, and nothing else. -/
theorem Registrations.plans_conserve_passes (calls : List (Registration κ)) :
    let built := calls.foldl Registrations.perform {}
    built.AliasesExpanded ∧
    (∀ (included excluded insertions : List String) (s : σ),
      (built.registry.plan included excluded insertions).Ends s
        (built.registry.Planned included excluded insertions s)) ∧
    (∀ (view : κ → Context) (included excluded insertions : List String) (dump : Bool) (s : κ),
      built.registry.Executed view included excluded insertions dump s
        (built.registry.execute view included excluded insertions dump s)
        (built.registry.ran view included excluded insertions dump s)) ∧
    ∀ (plan : Plan) (before after : String), ':' ∉ before.toList →
      before ∉ plan.excluded ∧ after ∉ plan.excluded →
      plan.passes.count before = 1 → plan.passes.count after = 1 →
        plan.CarriedOut before after := by
  intro built
  have h : built.Sound := Registrations.sound_foldl calls
  refine ⟨⟨h.expand, fun name hname pass => h.passes (h.contains.mpr hname) pass,
    fun hplain name entries => h.unfolds hplain⟩, ?_, ?_, ?_⟩
  · intro included excluded insertions s
    refine (h.plan_follows included excluded insertions).imp fun r s' hend => ?_
    obtain ⟨rfl, ⟨hrefuses, failure, rfl⟩ | ⟨hmakes, rfl⟩⟩ := hend
    · exact ⟨rfl, iff_of_true ⟨failure, rfl⟩ hrefuses, fun plan hok => absurd hok (by simp),
        fun plan hok => absurd hok (by simp)⟩
    · refine ⟨rfl, iff_of_false (by simp) hmakes, fun plan hok => (Except.ok.inj hok).symm,
        fun plan hok => ?_⟩
      obtain rfl := Except.ok.inj hok
      exact (Plan.foldl_carryOut_perm _ _).1
  · intro view included excluded insertions dump s
    obtain ⟨hnoting, hends⟩ :=
      built.registry.execute_noting view included excluded insertions dump s
    have hplan := h.plan_follows (s := s) included excluded insertions
    refine ⟨hnoting, fun hrefuses => ?_, fun hmakes => ?_⟩
    · obtain ⟨hstate, ⟨-, failure, hfailure⟩ | ⟨hmakes, -⟩⟩ := hplan
      · obtain ⟨hresult, hsame, hnone⟩ := hends.1 failure hfailure
        exact ⟨⟨failure, hresult⟩, hsame.trans hstate, hnone⟩
      · exact absurd hrefuses hmakes
    · obtain ⟨-, ⟨hrefuses, -⟩ | ⟨-, hok⟩⟩ := hplan
      · exact absurd hrefuses hmakes
      · have hran := hends.2 _ hok
        rw [h.filter_runs hmakes (Plan.foldl_carryOut_perm insertions _).1] at hran
        exact ⟨_, hok, hran⟩
  · intro plan before after hfree hruns hbefore hafter
    obtain ⟨hstays, hmoves⟩ :=
      Plan.carryOut_of_count (splitOnce_eq_some_iff.mpr ⟨rfl, hfree⟩) hruns hbefore hafter
    exact ⟨hstays, hmoves⟩

/-- The calls that build the standard registry, and one that is refused. -/
def standardCalls : List (Registration Context) :=
  (verification :: transformations).map .addPass ++
    [.addAlias "validate" ["verify"], .addAlias "pre-opt" transformationNames,
      .addAlias "nothing" ["nobody"], .addAlias "all" ["validate", "pre-opt", "validate"]]

/-- An alias is not a pass, so nothing can be put behind it. -/
def behindAlias : List String := ["validate:canonicalize"]

/-- Such a plan is refused and nothing runs; behind a pass, one that stands in front of it is
moved. -/
theorem Registrations.plans_conserve_passes_standard :
    (standardCalls.foldl Registrations.perform {}).registry = usualRegistry ∧
    (∃ failure, (usualRegistry.execute id ["all"] [] behindAlias false Context.untidied).result
      = .error failure) ∧
    (usualRegistry.execute id ["all"] [] behindAlias false Context.untidied).state
      = Context.untidied ∧
    usualRegistry.ran id ["all"] [] behindAlias false Context.untidied = [] ∧
    (∃ front between behind, ["canonicalize", "constant-folding", "verify"]
        = front ++ "canonicalize" :: (between ++ "verify" :: behind) ∧
      ((⟨["canonicalize", "constant-folding", "verify"], []⟩ : Plan).carryOut
        "verify:canonicalize").passes
        = front ++ (between ++ "verify" :: "canonicalize" :: behind)) := by
  have hbuilt : (standardCalls.foldl Registrations.perform {}).registry = usualRegistry := rfl
  obtain ⟨-, -, hruns, hinsert⟩ :=
    Registrations.plans_conserve_passes (σ := Context) standardCalls
  rw [hbuilt] at hruns
  have halias : usualRegistry.hasPass "validate" = false := by cbv
  have hrefuses : usualRegistry.Refuses ["all"] [] behindAlias :=
    .inr ⟨"validate:canonicalize", by simp [behindAlias], "validate",
      "canonicalize", by decide, by decide, by simp [halias]⟩
  have hexecuted := hruns id ["all"] [] behindAlias false Context.untidied
  obtain ⟨hresult, hstate, hnone⟩ := hexecuted.refused hrefuses
  refine ⟨hbuilt, hresult, hstate, hnone, ?_⟩
  have hcarried :=
    hinsert ⟨["canonicalize", "constant-folding", "verify"], []⟩ "verify" "canonicalize"
    (by decide) (by decide) (by decide) (by decide)
  exact hcarried.moves (by decide) (by decide)

end BehaviorGraph
