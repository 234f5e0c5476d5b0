/-
# What options come to

A text sets an option of a pass in one of two ways (`PassInfo.Sets`).  A text `pass:option=value`
sets it to what the parser of the option makes of the value, if it makes something of it; a text
`pass:option` sets it to true, and the parser is not asked.  No other text has any effect.

**Every declared option has exactly one value**: what the last text that sets it says, or else its
default (`PassInfo.Settles`, `PassInfo.get?_settled_iff`).  So the value of an option is one its
parser gave, its default, or true, and true need not be a value the parser would give.  A pass that
wants a number then does not start: that is the only way in which inlining fails to
(`options_resolved_and_inlining_started`).
-/
import BehaviorGraph.Proofs.Plans
import BehaviorGraph.Proofs.Programs

namespace BehaviorGraph

namespace PassInfo

variable {info : PassInfo} {o : PassOption} {text name : String} {given : List String}
  {value : OptionValue} {values : Table String OptionValue}

/-! ## 1. What one text says -/

/-- The option of a name.  **The first one declared counts.** -/
def option? (info : PassInfo) (name : String) : Option PassOption :=
  info.options.find? fun o => decide (o.name = name)

theorem name_of_option? (h : info.option? name = some o) : o.name = name := by
  simpa using List.find?_some h

/-- **A text sets an option to a value.**  The name of the pass ends at the first colon and that of
the option at the first equals sign behind it. -/
inductive Sets (info : PassInfo) (text name : String) : OptionValue → Prop where
  /-- The text gives a value, and it parses. -/
  | parsed {o : PassOption} {written : String} {value : OptionValue}
    (hpass : ':' ∉ info.name.toList)
    (hname : '=' ∉ name.toList) (hoption : info.option? name = some o)
    (htext : text = info.name ++ ":" ++ (name ++ "=" ++ written))
    (hparse : o.parse written = some value) :
    Sets info text name value
  /-- The text gives no value.  That stands for true. -/
  | bare {o : PassOption} (hpass : ':' ∉ info.name.toList) (hname : '=' ∉ name.toList)
    (hoption : info.option? name = some o) (htext : text = info.name ++ ":" ++ name) :
    Sets info text name (.bool true)

/-- A text without a separator is not split. -/
theorem splitOnce_eq_none_iff {separator : Char} :
    splitOnce separator text = none ↔ separator ∉ text.toList := by
  rw [splitOnce]
  cases hdrop : text.toList.drop (text.toList.takeWhile fun c =>
    !decide (c = separator)).length with
  | nil =>
    refine iff_of_true rfl fun hin => ?_
    have hall := (List.takeWhile_prefix _).eq_of_length_le (List.drop_eq_nil_iff.mp hdrop)
    have hall' := List.takeWhile_eq_self_iff.mp hall _ hin
    simp at hall'
  | cons first rest =>
    refine iff_of_false (by simp) fun hfree => ?_
    have hall : text.toList.takeWhile (fun c => !decide (c = separator)) = text.toList := by
      refine List.takeWhile_eq_self_iff.mpr fun c hc => ?_
      have hne : c ≠ separator := fun heq => hfree (heq ▸ hc)
      simp [hne]
    rw [hall, List.drop_length] at hdrop
    exact absurd hdrop (by simp)

/-- **Reading a text finds out what it sets.** -/
theorem readOption_eq_set_iff :
    info.readOption text = .set name value ↔ info.Sets text name value := by
  constructor
  · intro h
    unfold readOption at h
    split at h
    · exact absurd h (by simp)
    · rename_i pass rest hsplit
      obtain ⟨rfl, hpass⟩ := splitOnce_eq_some_iff.mp hsplit
      split at h
      · subst pass
        cases hwritten : splitOnce '=' rest with
        | none =>
          simp only [hwritten] at h
          cases hoption : info.option? rest with
          | none => simp [show info.options.find? _ = none from hoption] at h
          | some o =>
            rw [show info.options.find? _ = some o from hoption] at h
            obtain ⟨rfl, rfl⟩ := Reading.set.inj h
            obtain rfl := name_of_option? hoption
            exact .bare hpass (splitOnce_eq_none_iff.mp hwritten) hoption rfl
        | some found =>
          obtain ⟨before, written⟩ := found
          obtain ⟨rfl, hbefore⟩ := splitOnce_eq_some_iff.mp hwritten
          simp only [hwritten] at h
          cases hoption : info.option? before with
          | none => simp [show info.options.find? _ = none from hoption] at h
          | some o =>
            rw [show info.options.find? _ = some o from hoption] at h
            cases hparse : o.parse written with
            | none => simp [hparse] at h
            | some parsed =>
              simp only [hparse] at h
              obtain ⟨rfl, rfl⟩ := Reading.set.inj h
              obtain rfl := name_of_option? hoption
              exact .parsed hpass hbefore hoption rfl hparse
      · exact absurd h (by simp)
  · intro h
    cases h with
    | @parsed o written value hpass hname hoption htext hparse =>
      have hsplit : splitOnce ':' text = some (info.name, name ++ "=" ++ written) :=
        splitOnce_eq_some_iff.mpr ⟨htext, hpass⟩
      have hwritten : splitOnce '=' (name ++ "=" ++ written) = some (name, written) :=
        splitOnce_eq_some_iff.mpr ⟨rfl, hname⟩
      rw [option?] at hoption
      simp [readOption, hsplit, hwritten, hoption, hparse, name_of_option? hoption]
    | @bare o hpass hname hoption htext =>
      have hsplit : splitOnce ':' text = some (info.name, name) :=
        splitOnce_eq_some_iff.mpr ⟨htext, hpass⟩
      have hwritten : splitOnce '=' name = none := splitOnce_eq_none_iff.mpr hname
      rw [option?] at hoption
      simp [readOption, hsplit, hwritten, hoption, name_of_option? hoption]

/-- A text sets one option to one value. -/
theorem Sets.unique {other : String} {value' : OptionValue} (h : info.Sets text name value)
    (h' : info.Sets text other value') : name = other ∧ value = value' := by
  have hread := (readOption_eq_set_iff.mpr h).symm.trans (readOption_eq_set_iff.mpr h')
  exact Reading.set.inj hread

theorem Sets.exists_option (h : info.Sets text name value) : ∃ o, info.option? name = some o := by
  cases h with
  | parsed _ _ hoption _ _ => exact ⟨_, hoption⟩
  | bare _ _ hoption _ => exact ⟨_, hoption⟩

/-! ## 2. What many texts say -/

/-- **What an option comes to**, given some texts. -/
inductive Settles (info : PassInfo) (given : List String) (o : PassOption) :
    OptionValue → Prop where
  /-- The last text that sets the option says so. -/
  | last {before after : List String} {text : String} {value : OptionValue}
    (hgiven : given = before ++ text :: after)
    (hsets : info.Sets text o.name value) (hafter : ∀ later ∈ after, ∀ other,
      ¬ info.Sets later o.name other) :
    Settles info given o value
  /-- No text sets the option. -/
  | default (hnone : ∀ text ∈ given, ∀ other, ¬ info.Sets text o.name other) :
    Settles info given o o.default

/-- The last text that sets an option cannot be in two places. -/
theorem Sets.eq_of_last {before before' after after' : List String} {text' : String}
    {value' : OptionValue}
    (h : info.Sets text name value)
    (hafter : ∀ later ∈ after, ∀ other, ¬ info.Sets later name other)
    (h' : info.Sets text' name value')
    (hafter' : ∀ later ∈ after', ∀ other, ¬ info.Sets later name other)
    (hgiven : before ++ text :: after = before' ++ text' :: after') : value = value' := by
  rcases List.append_eq_append_iff.mp hgiven with ⟨between, -, hrest⟩ | ⟨between, -, hrest⟩
  · cases between with
    | nil =>
      obtain ⟨rfl, -⟩ := List.cons.inj hrest
      exact (h.unique h').2
    | cons first between =>
      obtain ⟨-, rfl⟩ := List.cons.inj hrest
      exact absurd h' (hafter text' (by simp) value')
  · cases between with
    | nil =>
      obtain ⟨rfl, -⟩ := List.cons.inj hrest
      exact (h.unique h').2
    | cons first between =>
      obtain ⟨-, rfl⟩ := List.cons.inj hrest
      exact absurd h (hafter' text (by simp) value)

/-- **An option comes to one value.** -/
theorem Settles.unique {value' : OptionValue} (h : info.Settles given o value)
    (h' : info.Settles given o value') :
    value = value' := by
  cases h with
  | last hgiven hsets hafter =>
    cases h' with
    | last hgiven' hsets' hafter' =>
      exact hsets.eq_of_last hafter hsets' hafter' (hgiven.symm.trans hgiven')
    | default hnone => exact absurd hsets (hnone _ (by simp [hgiven]) _)
  | default hnone =>
    cases h' with
    | last hgiven' hsets' hafter' => exact absurd hsets' (hnone _ (by simp [hgiven']) _)
    | default _ => rfl

theorem collect_of_sets (h : info.Sets text name value) :
    info.collect values text = values.insert name value := by
  rw [collect, readOption_eq_set_iff.mpr h]

/-- A text that sets no option is as good as not given. -/
theorem collect_of_not_sets (h : ∀ name value, ¬ info.Sets text name value) :
    info.collect values text = values := by
  rw [collect]
  split
  · exact absurd (readOption_eq_set_iff.mp ‹_›) (h _ _)
  · rfl

theorem get?_collect_of_not_sets (h : ∀ value, ¬ info.Sets text name value) :
    (info.collect values text).get? name = values.get? name := by
  by_cases hsets : ∃ other value, info.Sets text other value
  · obtain ⟨other, value, hother⟩ := hsets
    have hne : name ≠ other := by
      rintro rfl
      exact h value hother
    rw [collect_of_sets hother, Table.get?_insert_of_ne _ _ hne]
  · rw [collect_of_not_sets fun other value hother => hsets ⟨other, value, hother⟩]

/-- **What is collected for an option** is what the last text that sets it says, if there is one. -/
theorem get?_foldl_collect (info : PassInfo) (given : List String)
    (values : Table String OptionValue) (name : String) :
    (∃ before text after value, given = before ++ text :: after ∧ info.Sets text name value ∧
      (∀ later ∈ after, ∀ other, ¬ info.Sets later name other) ∧
      (given.foldl info.collect values).get? name = some value) ∨
    ((∀ text ∈ given, ∀ other, ¬ info.Sets text name other) ∧
      (given.foldl info.collect values).get? name = values.get? name) := by
  induction given using List.reverseRecOn with
  | nil => exact .inr ⟨by simp, rfl⟩
  | append_singleton rest text ih =>
    rw [List.foldl_append, List.foldl_cons, List.foldl_nil]
    by_cases hsets : ∃ value, info.Sets text name value
    · obtain ⟨value, hvalue⟩ := hsets
      refine .inl ⟨rest, text, [], value, rfl, hvalue, by simp, ?_⟩
      rw [collect_of_sets hvalue, Table.get?_insert_self]
    · have hfree : ∀ value, ¬ info.Sets text name value := fun value hvalue => hsets ⟨value, hvalue⟩
      rw [get?_collect_of_not_sets hfree]
      refine ih.imp ?_ fun hnone => ⟨?_, hnone.2⟩
      · rintro ⟨before, found, after, value, rfl, hvalue, hafter, hget⟩
        refine ⟨before, found, after ++ [text], value, by simp, hvalue, ?_, hget⟩
        exact List.forall_mem_append.mpr ⟨hafter, by simpa using hfree⟩
      · exact List.forall_mem_append.mpr ⟨hnone.1, by simpa using hfree⟩

theorem uniqueKeys_foldl_collect (info : PassInfo) (given : List String) (h : values.UniqueKeys) :
    (given.foldl info.collect values).UniqueKeys := by
  induction given generalizing values with
  | nil => exact h
  | cons text rest ih =>
    refine ih ?_
    rw [collect]
    split
    · exact h.insert _ _
    · exact h

/-! ## 3. Defaults -/

/-- **A default counts where nothing is set.** -/
theorem get?_fillDefaults (info : PassInfo) (values : Table String OptionValue) (name : String) :
    (info.fillDefaults values).get? name = (values.get? name).or
      ((info.option? name).map PassOption.default) := by
  unfold fillDefaults option?
  induction info.options generalizing values with
  | nil => simp
  | cons o rest ih =>
    rw [List.foldl_cons, ih, List.find?_cons]
    by_cases hname : o.name = name
    · subst hname
      cases hset : values.get? o.name with
      | none => simp [Table.contains, hset, Table.get?_insert_self]
      | some value => simp [Table.contains, hset]
    · simp only [hname, decide_false]
      split
      · rfl
      · rw [Table.get?_insert_of_ne _ _ (Ne.symm hname)]

theorem uniqueKeys_fillDefaults (info : PassInfo) (h : values.UniqueKeys) :
    (info.fillDefaults values).UniqueKeys := by
  unfold fillDefaults
  induction info.options generalizing values with
  | nil => exact h
  | cons o rest ih =>
    refine ih ?_
    dsimp only
    split
    · exact h
    · exact h.insert _ _

/-! ## 4. The values of a pass -/

/-- **Every declared option has the value it comes to.** -/
theorem get?_settled_iff (given : List String) (hoption : info.option? name = some o) :
    (info.settled given).get? name = some value ↔ info.Settles given o value := by
  obtain ⟨found, hget, hsettles⟩ : ∃ found, (info.settled given).get? name = some found ∧
      info.Settles given o found := by
    obtain rfl := name_of_option? hoption
    rw [settled, get?_fillDefaults, hoption]
    obtain ⟨before, text, after, found, hgiven, hsets, hafter, hget⟩ | ⟨hnone, hget⟩ :=
      info.get?_foldl_collect given Table.empty o.name
    · exact ⟨found, by rw [hget]; rfl, .last hgiven hsets hafter⟩
    · exact ⟨o.default, by rw [hget]; rfl, .default hnone⟩
  rw [hget, Option.some.injEq]
  constructor
  · rintro rfl
    exact hsettles
  · exact hsettles.unique

/-- **Declared options have a value, and no others.** -/
theorem contains_settled_iff (given : List String) :
    (info.settled given).contains name = true ↔ ∃ o, info.option? name = some o := by
  rw [Table.contains, settled, get?_fillDefaults]
  cases hoption : info.option? name with
  | some o => simp
  | none =>
    have hget : (given.foldl info.collect Table.empty).get? name = none := by
      obtain ⟨_, _, _, _, _, hsets, -⟩ | ⟨-, hget⟩ := info.get?_foldl_collect given Table.empty name
      · obtain ⟨o, ho⟩ := hsets.exists_option
        exact absurd (hoption.symm.trans ho) (by simp)
      · exact hget
    simp [hget]

/-- Texts that set nothing may be left out. -/
theorem settled_of_not_sets {before after : List String}
    (h : ∀ name value, ¬ info.Sets text name value) :
    info.settled (before ++ text :: after) = info.settled (before ++ after) := by
  rw [settled, settled, List.foldl_append, List.foldl_append, List.foldl_cons,
    collect_of_not_sets h]

end PassInfo

/-! ## 5. The limit of inlining -/

namespace Inlining

variable {given : List String} {value : OptionValue}

/-- The limit was last given without a number. -/
def Unnumbered (given : List String) : Prop :=
  ∃ before after, given = before ++ "function-inliner:max-nodes" :: after ∧
    ∀ later ∈ after, ∀ value, ¬ info.Sets later "max-nodes" value

theorem option?_maxNodes : info.option? "max-nodes" = some maxNodes := rfl

/-- **The limit comes to a number, or to true** if it was last given without one. -/
theorem settles_cases (h : info.Settles given maxNodes value) :
    (∃ n, value = .num n ∧ ¬ Unnumbered given) ∨ (value = .bool true ∧ Unnumbered given) := by
  have hbare : info.Sets "function-inliner:max-nodes" "max-nodes" (.bool true) :=
    .bare (by decide) (by decide) option?_maxNodes rfl
  cases h with
  | default hnone =>
    refine .inl ⟨256, rfl, ?_⟩
    rintro ⟨before, after, hgiven, -⟩
    exact hnone _ (by simp [hgiven]) _ hbare
  | last hgiven hsets hafter =>
    have hsets' := hsets
    cases hsets with
    | bare _ _ _ htext =>
      subst htext
      exact .inr ⟨rfl, _, _, hgiven, hafter⟩
    | parsed _ _ hoption _ hparse =>
      obtain rfl := Option.some.inj (option?_maxNodes.symm.trans hoption)
      obtain ⟨n, -, rfl⟩ := Option.map_eq_some_iff.mp hparse
      refine .inl ⟨n, rfl, ?_⟩
      rintro ⟨before, after, hgiven', hafter'⟩
      exact OptionValue.noConfusion (hsets'.eq_of_last hafter hbare hafter'
        (hgiven.symm.trans hgiven'))

/-- True is no number. -/
theorem ofValue_true :
    Memory.ofValue (.bool true) = .error (.error (.other "Expected number, got true")) := by
  have htext : "Expected number, got " ++ (OptionValue.bool true).text
      = "Expected number, got true" := by
    rw [OptionValue.text]
    rfl
  rw [← htext]
  rfl

/-- **Inlining starts unless its limit was last given without a number.** -/
theorem init_settles (context : Context) : init.Ends context fun r context' => context' = context ∧
    ((¬ Unnumbered context.options ∧ ∃ memory, r = .ok memory) ∨
      (Unnumbered context.options ∧ r = .error (.error (.other "Expected number, got true")))) := by
  obtain ⟨value, hget, hsettles⟩ : ∃ value, (info.settled context.options).get? maxNodes.name
    = some value ∧
      info.Settles context.options maxNodes value := by
    have hcontains : (info.settled context.options).contains maxNodes.name = true :=
      PassInfo.contains_settled_iff _ |>.mpr ⟨_, option?_maxNodes⟩
    obtain ⟨value, hget⟩ := Option.isSome_iff_exists.mp hcontains
    exact ⟨value, hget, (PassInfo.get?_settled_iff _ option?_maxNodes).mp hget⟩
  refine (init_ends (info.resolve_eq_settled context.options context)).imp fun r context' hend => ?_
  obtain ⟨rfl, rfl⟩ := hend
  rw [hget, Option.getD_some]
  obtain ⟨n, rfl, hnumbered⟩ | ⟨rfl, hunnumbered⟩ := settles_cases hsettles
  · cases n <;> exact ⟨rfl, .inl ⟨hnumbered, _, rfl⟩⟩
  · exact ⟨rfl, .inr ⟨hunnumbered, ofValue_true⟩⟩

end Inlining

/-- **What the texts given to a pass come to**: values for the options it declares, and for no
others. -/
structure PassInfo.Resolved (ε σ : Type) (info : PassInfo) (given : List String)
    (values : Table String OptionValue) : Prop where
  resolves : ∀ s : σ, (info.resolve given : Run ε σ _).Ends s fun r s' => r = .ok values ∧ s' = s
  unique_keys : values.UniqueKeys
  declared_iff : ∀ name, values.contains name = true ↔ ∃ o, info.option? name = some o
  value_iff : ∀ name o, info.option? name = some o →
    ∀ value, values.get? name = some value ↔ info.Settles given o value
  /-- A text that sets no option may as well be left out. -/
  resolves_without : ∀ before text after, given = before ++ text :: after →
    (∀ name value, ¬ info.Sets text name value) →
    ∀ s : σ, (info.resolve (before ++ after) : Run ε σ _).Ends s fun r s' => r = .ok values ∧ s' = s

/-- **How inlining starts**: it does unless its limit was last given without a number. -/
structure Inlining.Started (context : Context) (r : Except Abort Inlining.Memory)
    (context' : Context) : Prop where
  unchanged : context' = context
  ok_iff : (∃ memory, r = .ok memory) ↔ ¬ Inlining.Unnumbered context.options
  refused : Inlining.Unnumbered context.options →
    r = .error (.error (.other "Expected number, got true"))

/-- **Every declared option has exactly one value**, whatever texts are given: what the last text
that sets it says, or its default.  A text `pass:option=value` sets an option if the pass declares
it and its parser takes the value, and a text `pass:option` sets it to true; texts that set no
option may as well be left out.

The parser of a number never gives true, so inlining, which wants a number, does not always start:
it fails exactly if the last text that sets its limit is `function-inliner:max-nodes`. -/
theorem options_resolved_and_inlining_started {ε σ : Type} (info : PassInfo) (given : List String) :
    (∃ values, info.Resolved ε σ given values) ∧
      ∀ context : Context, Inlining.init.Ends context (Inlining.Started context) := by
  refine ⟨⟨info.settled given, info.resolve_eq_settled given, ?_, fun name =>
    PassInfo.contains_settled_iff given,
    fun name o hoption value => PassInfo.get?_settled_iff given hoption, ?_⟩, fun context => ?_⟩
  · exact info.uniqueKeys_fillDefaults (info.uniqueKeys_foldl_collect given Table.uniqueKeys_empty)
  · rintro before text after rfl hnothing s
    rw [PassInfo.settled_of_not_sets hnothing]
    exact info.resolve_eq_settled (before ++ after) s
  · refine (Inlining.init_settles context).imp fun r context' hend => ?_
    obtain ⟨rfl, ⟨hnumbered, memory, rfl⟩ | ⟨hunnumbered, rfl⟩⟩ := hend
    · exact ⟨rfl, iff_of_true ⟨memory, rfl⟩ hnumbered, fun hunnumbered =>
        absurd hunnumbered hnumbered⟩
    · exact ⟨rfl, iff_of_false (by simp) (not_not.mpr hunnumbered), fun _ => rfl⟩

/-- Texts of which the last one gives the limit of inlining no number. -/
def unnumbered : List String :=
  ["function-inliner:max-nodes=8", "function-inliner:max-nodes", "function-inliner:max-nodes=many",
    "verify:max-nodes=3"]

/-- The limit is true then, and inlining does not start. -/
theorem options_resolved_and_inlining_started_unnumbered :
    (∃ values, ((Inlining.info.resolve unnumbered : Run Abort Context _) ⟨[], unnumbered⟩).result
      = .ok values ∧
      values.get? "max-nodes" = some (.bool true)) ∧
    (Inlining.init ⟨[], unnumbered⟩).result = .error
      (.error (.other "Expected number, got true")) := by
  have hsets : Inlining.info.Sets "function-inliner:max-nodes" "max-nodes" (.bool true) :=
    .bare (by decide) (by decide) Inlining.option?_maxNodes rfl
  have hafter : ∀ later ∈ ["function-inliner:max-nodes=many", "verify:max-nodes=3"],
      ∀ value, ¬ Inlining.info.Sets later "max-nodes" value := by
    have hinvalid : Inlining.info.readOption "function-inliner:max-nodes=many"
        = .invalid "max-nodes" "many" := by cbv
    have hirrelevant : Inlining.info.readOption "verify:max-nodes=3" = .irrelevant := by cbv
    intro later hlater value hset
    rw [← PassInfo.readOption_eq_set_iff] at hset
    rcases List.mem_cons.mp hlater with rfl | hlast
    · exact absurd (hinvalid.symm.trans hset) (by simp)
    · rw [List.mem_singleton.mp hlast, hirrelevant] at hset
      exact absurd hset (by simp)
  have hgiven : unnumbered = ["function-inliner:max-nodes=8"] ++ "function-inliner:max-nodes" ::
      ["function-inliner:max-nodes=many", "verify:max-nodes=3"] := rfl
  have hlast : Inlining.Unnumbered unnumbered := ⟨_, _, hgiven, hafter⟩
  obtain ⟨⟨values, hresolved⟩, hstarted⟩ :=
    options_resolved_and_inlining_started (ε := Abort) (σ := Context) Inlining.info unnumbered
  refine ⟨⟨values, (hresolved.resolves _).1, ?_⟩, (hstarted ⟨[], unnumbered⟩).refused hlast⟩
  exact (hresolved.value_iff _ _ Inlining.option?_maxNodes _).mpr (.last hgiven hsets hafter)

end BehaviorGraph
