/-
# Tours of the definitions

A pass goes through the definitions of a context.  At each place it takes the definition out, hands
it to a callback together with the others, and puts back what the callback leaves.  What the
callback is given can be written down by the callback itself (`recording`), and **writing it down
changes nothing else** (`updateAll_recording`).

What is written down is a tour (`Tour`).  No place is visited twice, each definition is given as it
was at the start, and the others are given in their order: those that were visited as their visits
left them, the rest as they were.  This holds however the pass ends and whatever the names are,
because every schedule is a permutation of the places (`schedule_perm`).

So a callback that keeps names leaves every definition in its place (`Pass.visit_keeps_places`).
-/
import BehaviorGraph.Proofs.Scheduling
import BehaviorGraph.Proofs.Visiting

namespace BehaviorGraph

variable {ε σ : Type} {definitions start now : List Definition} {place : Nat}
  {change : List Definition → Run ε (VisitState σ) Unit}

/-! ## 1. Writing down what a callback is given -/

/-- What a callback was given at one place, and what it left there. -/
structure Visit where
  given : Definition
  others : List Definition
  left : Definition

/-- The callback, which also writes down in its memory what it is given and what it leaves. -/
def recording (change : List Definition → Run ε (VisitState σ) Unit) (others : List Definition) :
    Run ε (VisitState (σ × List Visit)) Unit := fun v =>
  let o := change others ⟨v.memory.1, v.definition⟩
  ⟨o.result,
    ⟨(o.state.memory, v.memory.2 ++ [⟨v.definition, others, o.state.definition⟩]),
      o.state.definition⟩,
    o.reports⟩

/-- The same outcome, with a record beside the memory. -/
def Outcome.recorded {α : Type} (o : Outcome ε (PassState σ) α) (visits : List Visit) :
    Outcome ε (PassState (σ × List Visit)) α :=
  ⟨o.result, ⟨(o.state.memory, visits), o.state.context⟩, o.reports⟩

theorem updateAt_recording (change : List Definition → Run ε (VisitState σ) Unit) (place : Nat)
    (memory : σ) (context : Context) (visits : List Visit) :
    ∃ visits', updateAt (recording change) place ⟨(memory, visits), context⟩
      = (updateAt change place ⟨memory, context⟩).recorded visits' := by
  cases hd : context.definitions[place]? with
  | none => exact ⟨visits, by simp [updateAt, hd, Outcome.recorded]⟩
  | some d =>
    refine ⟨visits ++ [⟨d, context.definitions.eraseIdx place,
      (change (context.definitions.eraseIdx place) ⟨memory, d⟩).state.definition⟩], ?_⟩
    simp only [updateAt, hd, recording, Outcome.recorded]

theorem each_recording (change : List Definition → Run ε (VisitState σ) Unit) (places : List Nat)
    (memory : σ) (context : Context) (visits : List Visit) :
    ∃ visits', Run.each (updateAt (recording change)) places ⟨(memory, visits), context⟩
      = (Run.each (updateAt change) places ⟨memory, context⟩).recorded visits' := by
  induction places generalizing memory context visits with
  | nil => exact ⟨visits, rfl⟩
  | cons place rest ih =>
    obtain ⟨between, hfirst⟩ := updateAt_recording change place memory context visits
    simp only [Run.each, Run.bind, hfirst]
    cases hstep : updateAt change place ⟨memory, context⟩ with
    | mk result state reports =>
      cases result with
      | error e => exact ⟨between, rfl⟩
      | ok value =>
        obtain ⟨visits', hrest⟩ := ih state.memory state.context between
        refine ⟨visits', ?_⟩
        simp only [Outcome.recorded] at hrest ⊢
        rw [hrest]
        rfl

/-- **Writing visits down changes nothing else.** -/
theorem updateAll_recording (blame : Error → ε) (order : CallOrder)
    (change : List Definition → Run ε (VisitState σ) Unit) (memory : σ) (context : Context)
    (visits : List Visit) :
    ∃ visits', updateAll blame order (recording change) ⟨(memory, visits), context⟩
      = (updateAll blame order change ⟨memory, context⟩).recorded visits' := by
  unfold updateAll
  rw [Run.bind_ok (Run.state_apply _), Run.bind_ok (Run.state_apply _)]
  cases hschedule : (schedule context.definitions order).mapError blame with
  | error e => exact ⟨visits, rfl⟩
  | ok places =>
    obtain ⟨visits', heach⟩ := each_recording change places memory context visits
    refine ⟨visits', ?_⟩
    have hok : ∀ {τ : Type} (s : τ), (Run.ofExcept (.ok places) : Run ε τ (List Nat)) s
        = ⟨.ok places, s, []⟩ := fun _ => rfl
    rw [Run.bind_ok (hok _), Run.bind_ok (hok _), heach]
    rfl

/-! ## 2. Tours -/

/-- **A tour of the definitions `start` with a callback**: the visits by their places, and the
definitions as they are after them.  A place is visited once, so its definition is given as it was
at the start; the others are given as they are then; and what the callback leaves is put back
between them. -/
inductive Tour (change : List Definition → Run ε (VisitState σ) Unit) (start : List Definition) :
    List (Nat × Visit) → List Definition → Prop where
  | none : Tour change start [] start
  | next {done : List (Nat × Visit)} {now : List Definition} {place : Nat} {visit : Visit}
    (h : Tour change start done now) (hfresh : place ∉ done.map Prod.fst)
    (hgiven : start[place]? = some visit.given) (hothers : visit.others = now.eraseIdx place)
    (hleft : ∃ memory, (change visit.others ⟨memory, visit.given⟩).state.definition = visit.left) :
    Tour change start (done ++ [(place, visit)]) (visit.others.insertIdx place visit.left)

/-- The definitions with those visited as their visits left them. -/
def leave (start : List Definition) (tour : List (Nat × Visit)) : List Definition :=
  tour.foldl (fun now entry => now.set entry.1 entry.2.left) start

namespace Tour

variable {tour : List (Nat × Visit)} {visit : Visit}

theorem length_eq (h : Tour change start tour now) : now.length = start.length := by
  induction h with
  | none => rfl
  | @next done now place visit h hfresh hgiven hothers hleft ih =>
    have hlt := (List.getElem?_eq_some_iff.mp hgiven).1
    rw [hothers, List.insertIdx_eraseIdx_self (by omega), List.length_set, ih]

/-- Taking a definition out and putting another in its place is the same as overwriting it. -/
theorem insertIdx_others (h : Tour change start tour now)
    (hgiven : start[place]? = some visit.given) (hothers : visit.others = now.eraseIdx place) :
    visit.others.insertIdx place visit.left = now.set place visit.left := by
  have hlt := (List.getElem?_eq_some_iff.mp hgiven).1
  have hlength := h.length_eq
  rw [hothers, List.insertIdx_eraseIdx_self (by omega)]

/-- **No place is visited twice.** -/
theorem nodup (h : Tour change start tour now) : (tour.map Prod.fst).Nodup := by
  induction h with
  | none => exact List.nodup_nil
  | next h hfresh hgiven hothers hleft ih =>
    rw [List.map_append, List.map_singleton]
    refine List.nodup_append.mpr ⟨ih, List.nodup_singleton _, fun a ha b hb hab => hfresh ?_⟩
    rwa [hab, List.mem_singleton.mp hb] at ha

/-- **A place that was not visited has its definition unchanged.** -/
theorem getElem?_of_not_mem (h : Tour change start tour now) (hout : place ∉ tour.map Prod.fst) :
    now[place]? = start[place]? := by
  induction h with
  | none => rfl
  | @next done now other visit h hfresh hgiven hothers hleft ih =>
    rw [List.map_append, List.map_singleton, List.mem_append, List.mem_singleton, not_or] at hout
    rw [h.insertIdx_others hgiven hothers, List.getElem?_set_ne (Ne.symm hout.2), ih hout.1]

/-- A place that was visited has what its visit left. -/
theorem getElem?_of_mem (h : Tour change start tour now) (hin : (place, visit) ∈ tour) :
    now[place]? = some visit.left := by
  induction h with
  | none => exact absurd hin (by simp)
  | @next done now other last h hfresh hgiven hothers hleft ih =>
    have hlt := (List.getElem?_eq_some_iff.mp hgiven).1
    have hlength := h.length_eq
    rw [h.insertIdx_others hgiven hothers]
    rcases List.mem_append.mp hin with hearlier | hlast
    · have hne : other ≠ place := by
        rintro rfl
        exact hfresh (List.mem_map.mpr ⟨_, hearlier, rfl⟩)
      rw [List.getElem?_set_ne hne, ih hearlier]
    · obtain ⟨rfl, rfl⟩ := Prod.mk.inj (List.mem_singleton.mp hlast)
      rw [List.getElem?_set_self (by omega)]

/-- What a visit of a tour was given, and that the callback left what it left. -/
theorem given {done rest : List (Nat × Visit)}
    (h : Tour change start (done ++ (place, visit) :: rest) now) :
    ∃ before, Tour change start done before ∧ start[place]? = some visit.given ∧
      visit.others = before.eraseIdx place ∧
      ∃ memory, (change visit.others ⟨memory, visit.given⟩).state.definition = visit.left := by
  generalize htour : done ++ (place, visit) :: rest = tour at h
  induction h generalizing rest with
  | none => exact absurd htour (by simp)
  | @next earlier now last lastVisit h hfresh hgiven hothers hleft ih =>
    rcases List.eq_nil_or_concat rest with rfl | ⟨rest', entry, rfl⟩
    · obtain ⟨rfl, hentry⟩ := List.append_inj' htour rfl
      obtain ⟨rfl, rfl⟩ := Prod.mk.inj (List.cons.inj hentry).1
      exact ⟨now, h, hgiven, hothers, hleft⟩
    · rw [List.concat_eq_append, ← List.cons_append, ← List.append_assoc] at htour
      exact ih (List.append_inj' htour rfl).1

/-- What a tour leaves is known from its visits. -/
theorem eq_leave (h : Tour change start tour now) : now = leave start tour := by
  induction h with
  | none => rfl
  | @next done now place visit h hfresh hgiven hothers hleft ih =>
    rw [h.insertIdx_others hgiven hothers, ih, leave, leave, List.foldl_append]
    rfl

/-- **A callback that keeps names keeps the list of names.** -/
theorem map_name (h : Tour change start tour now)
    (hkeeps : ∀ others v, (change others).Ends v fun _ v' => v'.definition.name
      = v.definition.name) :
    now.map Definition.name = start.map Definition.name := by
  induction h with
  | none => rfl
  | @next done now place visit h hfresh hgiven hothers hleft ih =>
    obtain ⟨memory, hleft⟩ := hleft
    have hname : visit.left.name = visit.given.name :=
      hleft ▸ hkeeps visit.others ⟨memory, visit.given⟩
    have hat : (start.map Definition.name)[place]? = some visit.given.name := by
      rw [List.getElem?_map, hgiven, Option.map_some]
    obtain ⟨hlt, hget⟩ := List.getElem?_eq_some_iff.mp hat
    rw [h.insertIdx_others hgiven hothers, List.map_set, ih, hname, ← hget, List.set_getElem_self]

/-- The others are given in their order. -/
theorem map_name_others (h : Tour change start tour now)
    (hothers : visit.others = now.eraseIdx place)
    (hkeeps : ∀ others v, (change others).Ends v fun _ v' => v'.definition.name
      = v.definition.name) :
    visit.others.map Definition.name = (start.map Definition.name).eraseIdx place := by
  rw [hothers, ← List.eraseIdx_map, h.map_name hkeeps]

end Tour

/-! ## 3. Passes make tours -/

/-- **What every element hands on to the next holds where a run of a list stops**, for the elements
that had their turn by then.  They are all of them if the run succeeds. -/
theorem Run.each_stops {α τ : Type} {s : τ} {m : α → Run ε τ Unit} {items : List α}
    {P : List α → τ → Prop}
    (hstep : ∀ {done a rest s}, items = done ++ a :: rest → P done s →
      (m a).Ends s fun _ s' => P (done ++ [a]) s') (h : P [] s) :
    (Run.each m items).Ends s fun r s' =>
      ∃ done rest, items = done ++ rest ∧ P done s' ∧ (r = .ok () → rest = []) := by
  suffices hrun : ∀ rest done s, items = done ++ rest → P done s →
      (Run.each m rest).Ends s fun r s' =>
        ∃ done rest, items = done ++ rest ∧ P done s' ∧ (r = .ok () → rest = []) from
    hrun items [] s rfl h
  intro rest
  induction rest with
  | nil =>
    intro done s hitems hdone
    exact ⟨done, [], hitems, hdone, fun _ => rfl⟩
  | cons a rest ih =>
    intro done s hitems hdone
    show (m a >>= fun _ => Run.each m rest).Ends s _
    rw [Run.ends_bind]
    refine (hstep hitems hdone).imp fun r s' hend => ?_
    have hnext : items = (done ++ [a]) ++ rest := by rw [hitems]; simp
    cases r with
    | error e => exact ⟨done ++ [a], rest, hnext, hend, fun hok => absurd hok (by simp)⟩
    | ok value => exact ih (done ++ [a]) s' hnext hend

/-- One more visit makes a tour longer. -/
theorem ends_updateAt_recording {p : PassState (σ × List Visit)} {tour : List (Nat × Visit)}
    (htour : Tour change start tour p.context.definitions)
    (hrecord : tour.map Prod.snd = p.memory.2)
    (hfresh : place ∉ tour.map Prod.fst) (hlt : place < start.length) :
    (updateAt (recording change) place).Ends p fun _ p' =>
      ∃ visit, Tour change start (tour ++ [(place, visit)]) p'.context.definitions ∧
        (tour ++ [(place, visit)]).map Prod.snd = p'.memory.2 ∧
        p'.context.options = p.context.options := by
  have hgiven : start[place]? = some start[place] := List.getElem?_eq_getElem hlt
  have hd : p.context.definitions[place]? = some start[place] :=
    (htour.getElem?_of_not_mem hfresh).trans hgiven
  rw [ends_updateAt hd]
  let visit : Visit := ⟨start[place], p.context.definitions.eraseIdx place,
    (change (p.context.definitions.eraseIdx place) ⟨p.memory.1, start[place]⟩).state.definition⟩
  have hnext : Tour change start (tour ++ [(place, visit)])
      (visit.others.insertIdx place visit.left) :=
    htour.next hfresh hgiven rfl ⟨p.memory.1, rfl⟩
  rw [htour.insertIdx_others hgiven rfl] at hnext
  refine ⟨visit, hnext, ?_, rfl⟩
  rw [List.map_append, hrecord]
  rfl

/-- **What a callback writes down is a tour**, along the schedule as far as the run gets. -/
theorem updateAll_tour {blame : Error → ε} {order : CallOrder} {memory : σ} {context : Context}
    {places : List Nat} (hschedule : schedule context.definitions order = .ok places) :
    (updateAll blame order (recording change)).Ends ⟨(memory, []), context⟩ fun r p =>
      ∃ tour, Tour change context.definitions tour p.context.definitions ∧
        tour.map Prod.snd = p.memory.2 ∧ p.context.options = context.options ∧
        tour.map Prod.fst <+: places ∧ (r = .ok () → tour.map Prod.fst = places) := by
  have hperm := schedule_perm hschedule
  have hnodup : places.Nodup := hperm.nodup_iff.mpr List.nodup_range
  rw [updateAll, Run.ends_bind, Run.ends_state]
  simp only
  rw [Run.ends_bind, Run.ends_ofExcept, hschedule]
  refine (Run.each_stops (P := fun done (p : PassState (σ × List Visit)) =>
    ∃ tour, Tour change context.definitions tour p.context.definitions ∧
      tour.map Prod.snd = p.memory.2 ∧ p.context.options = context.options ∧
      tour.map Prod.fst = done) ?_ ⟨[], .none, rfl, rfl, rfl⟩).imp fun r p hend => ?_
  · rintro done place rest p hplaces ⟨tour, htour, hrecord, hoptions, rfl⟩
    have hfresh : place ∉ tour.map Prod.fst := fun hin =>
      (List.nodup_append.mp (hplaces ▸ hnodup)).2.2 place hin place (by simp) rfl
    have hlt : place < context.definitions.length :=
      List.mem_range.mp (hperm.mem_iff.mp (by simp [hplaces]))
    refine (ends_updateAt_recording htour hrecord hfresh hlt).imp fun r p' hend => ?_
    obtain ⟨visit, htour', hrecord', hoptions'⟩ := hend
    exact ⟨_, htour', hrecord', hoptions'.trans hoptions, by simp⟩
  · obtain ⟨done, rest, hplaces, ⟨tour, htour, hrecord, hoptions, rfl⟩, hall⟩ := hend
    refine ⟨tour, htour, hrecord, hoptions, ⟨rest, hplaces.symm⟩, fun hok => ?_⟩
    rw [hplaces, hall hok, List.append_nil]

namespace Pass

variable {pass : Pass σ} {p : PassState σ}

/-- Visit a context, writing down what is visited. -/
def visitRecording (pass : Pass σ) : Run Abort (PassState (σ × List Visit)) Unit := do
  let p ← Run.state
  match pass.visitor.precondition p.memory.1 p.context with
  | some reason => Run.log .info ("Skipping `" ++ pass.info.name ++ "': " ++ reason)
  | none => updateAll Abort.error pass.visitor.callOrder (recording pass.visitor.visitDefinition)

/-- What a pass does that is not skipped. -/
theorem visit_of_none (h : pass.visitor.precondition p.memory p.context = none) :
    pass.visit p
      = (updateAll Abort.error pass.visitor.callOrder pass.visitor.visitDefinition p).after [] := by
  unfold visit
  rw [Run.bind_ok (Run.state_apply _)]
  simp only [h]

theorem visitRecording_of_none {p : PassState (σ × List Visit)}
    (h : pass.visitor.precondition p.memory.1 p.context = none) :
    pass.visitRecording p = (updateAll Abort.error pass.visitor.callOrder
      (recording pass.visitor.visitDefinition) p).after [] := by
  unfold visitRecording
  rw [Run.bind_ok (Run.state_apply _)]
  simp only [h]

/-- The visits of a pass, as it writes them down. -/
def visits (pass : Pass σ) (p : PassState σ) : List Visit :=
  (pass.visitRecording ⟨(p.memory, []), p.context⟩).state.memory.2

/-- **The pass that writes its visits down is the same pass.** -/
theorem visitRecording_eq (pass : Pass σ) (p : PassState σ) :
    pass.visitRecording ⟨(p.memory, []), p.context⟩ = (pass.visit p).recorded (pass.visits p) := by
  suffices h : ∃ visits, pass.visitRecording ⟨(p.memory, []), p.context⟩
      = (pass.visit p).recorded visits by
    obtain ⟨found, hfound⟩ := h
    rw [visits, hfound]
    rfl
  cases hskip : pass.visitor.precondition p.memory p.context with
  | some reason =>
    refine ⟨[], ?_⟩
    unfold visitRecording visit
    rw [Run.bind_ok (Run.state_apply _), Run.bind_ok (Run.state_apply _)]
    simp only [hskip]
    rfl
  | none =>
    obtain ⟨found, hfound⟩ := updateAll_recording Abort.error pass.visitor.callOrder
      pass.visitor.visitDefinition p.memory p.context []
    refine ⟨found, ?_⟩
    rw [visit_of_none hskip, visitRecording_of_none hskip, hfound]
    rfl

/-- A pass that is skipped visits nothing and changes nothing. -/
theorem visit_of_some {reason : String}
    (h : pass.visitor.precondition p.memory p.context = some reason) :
    pass.visit.Ends p fun r p' => r = .ok () ∧ p' = p ∧ pass.visits p = [] := by
  unfold Run.Ends visits visitRecording visit
  rw [Run.bind_ok (Run.state_apply _), Run.bind_ok (Run.state_apply _)]
  simp only [h]
  exact ⟨rfl, rfl, rfl⟩

/-- Neither does a pass that cannot be scheduled. -/
theorem visit_of_error {error : Error} (h : pass.visitor.precondition p.memory p.context = none)
    (herror : schedule p.context.definitions pass.visitor.callOrder = .error error) :
    pass.visit.Ends p fun r p' => r = .error (.error error) ∧ p' = p ∧ pass.visits p = [] := by
  unfold Run.Ends
  rw [visits, visit_of_none h, visitRecording_of_none h, updateAll, updateAll,
    Run.bind_ok (Run.state_apply _), Run.bind_ok (Run.state_apply _)]
  simp only [herror]
  exact ⟨rfl, rfl, rfl⟩

/-- **A pass that is scheduled makes a tour**, however it ends.  It goes along the schedule, and to
its end if it succeeds. -/
theorem exists_tour_of_ok {places : List Nat}
    (h : pass.visitor.precondition p.memory p.context = none)
    (hschedule : schedule p.context.definitions pass.visitor.callOrder = .ok places) :
    pass.visit.Ends p fun r p' => p'.context.options = p.context.options ∧
      ∃ tour, Tour pass.visitor.visitDefinition p.context.definitions tour p'.context.definitions ∧
        tour.map Prod.snd = pass.visits p ∧ tour.map Prod.fst <+: places ∧
        (r = .ok () → tour.map Prod.fst = places) := by
  have htour := @updateAll_tour Abort σ pass.visitor.visitDefinition Abort.error
    pass.visitor.callOrder p.memory p.context places hschedule
  have hsame := pass.visitRecording_eq p
  rw [visitRecording_of_none h] at hsame
  -- What is known of the run that writes its visits down is known of the other.
  have hresult := congrArg Outcome.result hsame
  have hstate := congrArg Outcome.state hsame
  simp only [Outcome.after, Outcome.recorded] at hresult hstate
  unfold Run.Ends at htour ⊢
  rw [hresult, hstate] at htour
  obtain ⟨tour, htour, hrecord, hoptions, hprefix, hall⟩ := htour
  exact ⟨hoptions, tour, htour, hrecord, hprefix, hall⟩

/-- **Every pass makes a tour.** -/
theorem exists_tour (pass : Pass σ) (p : PassState σ) :
    pass.visit.Ends p fun r p' => p'.context.options = p.context.options ∧
      ∃ tour, Tour pass.visitor.visitDefinition p.context.definitions tour p'.context.definitions ∧
        tour.map Prod.snd = pass.visits p ∧
        (pass.visitor.precondition p.memory p.context = none → r = .ok () →
          schedule p.context.definitions pass.visitor.callOrder = .ok (tour.map Prod.fst)) := by
  cases hskip : pass.visitor.precondition p.memory p.context with
  | some reason =>
    refine (visit_of_some hskip).imp fun r p' hend => ?_
    obtain ⟨-, rfl, hvisits⟩ := hend
    exact ⟨rfl, [], .none, hvisits.symm, fun hnone => absurd hnone (by simp)⟩
  | none =>
    cases hschedule : schedule p.context.definitions pass.visitor.callOrder with
    | error error =>
      refine (visit_of_error hskip hschedule).imp fun r p' hend => ?_
      obtain ⟨rfl, rfl, hvisits⟩ := hend
      exact ⟨rfl, [], .none, hvisits.symm, fun _ hok => absurd hok (by simp)⟩
    | ok places =>
      refine (exists_tour_of_ok hskip hschedule).imp fun r p' hend => ?_
      obtain ⟨hoptions, tour, htour, hrecord, -, hall⟩ := hend
      exact ⟨hoptions, tour, htour, hrecord, fun _ hok => by rw [hall hok]⟩

end Pass

/-! ## 4. Keeping names and places -/

/-- The definition under visit has a name. -/
def VisitState.Named (name : String) (v : VisitState σ) : Prop := v.definition.name = name

theorem onGraph_preserves_name {α : Type} (m : Run Abort Graph α) (name : String) :
    Run.Preserves (@VisitState.Named σ name) (Visiting.onGraph m) := by
  intro v hname
  rw [ends_onGraph]
  exact hname

/-- **A visitor keeps names if what it does before, at and after the nodes does.** -/
theorem Visitor.visitDefinition_preserves_name {visitor : Visitor σ} {name : String}
    (hstart : ∀ others, Run.Preserves (VisitState.Named name) (visitor.start others))
    (hhook : ∀ {hook act}, visitor.hook hook = some act →
      ∀ others id, Run.Preserves (VisitState.Named name) (act others id))
    (hfinish : ∀ others, Run.Preserves (VisitState.Named name) (visitor.finish others))
    (others : List Definition) :
    Run.Preserves (VisitState.Named name) (visitor.visitDefinition others) := by
  have hclear : Run.Preserves (VisitState.Named name) (Visiting.remember visitor.clear) :=
    fun v hname => hname
  have hstep : ∀ id, Run.Preserves (VisitState.Named name) (visitor.visitStep others id) := by
    intro id
    refine .bind (.bind (fun v hname => hname) fun g => ?_) fun action =>
      onGraph_preserves_name _ name
    split
    · rename_i act hact
      obtain ⟨kind, -, hact⟩ := Option.bind_eq_some_iff.mp hact
      obtain ⟨hook, -, hact⟩ := List.exists_of_findSome?_eq_some hact
      exact hhook hact others id
    · exact fun v hname => hname
  have hnodes : ∀ ids, Run.Preserves (VisitState.Named name) (visitor.visitNodes others ids) := by
    intro ids v hname
    refine (visitNodes_keeps (P := VisitState.Named name) (A := fun _ _ => True) ?_ ids hname).imp
      fun r v' hend => hend.1
    exact fun hname _ => (hstep _ _ hname).imp fun r v' hend => ⟨hend, fun _ _ => trivial⟩
  refine .bind (hstart others) fun action => ?_
  split
  · refine .bind (fun v hname => hname) fun g => .bind (fun v hname => ?_) fun order => ?_
    · exact (Run.ends_ofExcept _ _).mpr hname
    · exact .bind (hnodes order) fun _ => .bind (hfinish others) fun _ => hclear
  · exact hclear

/-- The visit of one place, after those listed in `done`. -/
structure Pass.VisitedAt (pass : Pass σ) (p : PassState σ) (done : List (Nat × Visit)) (place : Nat)
    (visit : Visit) : Prop where
  /-- The definition is given as it was at the start. -/
  given : p.context.definitions[place]? = some visit.given
  /-- The others are those visited before as they were left, and the rest as they were. -/
  others : visit.others = (leave p.context.definitions done).eraseIdx place
  names : visit.others.map Definition.name
    = (p.context.definitions.map Definition.name).eraseIdx place
  left : ∃ memory, (pass.visitor.visitDefinition visit.others
    ⟨memory, visit.given⟩).state.definition = visit.left

/-- What a pass did to the definitions of its context, told by a tour of the places it visited.  The
tour is what the pass itself writes down, so nothing was visited that is not in it. -/
structure Pass.Toured (pass : Pass σ) (p p' : PassState σ) (tour : List (Nat × Visit)) : Prop where
  recorded : tour.map Prod.snd = pass.visits p
  once : (tour.map Prod.fst).Nodup
  visited : ∀ done place visit rest, tour = done ++ (place, visit) :: rest →
    pass.VisitedAt p done place visit
  unvisited : ∀ place, place ∉ tour.map Prod.fst →
    p'.context.definitions[place]? = p.context.definitions[place]?
  definitions : p'.context.definitions = leave p.context.definitions tour

/-- A tour of a pass whose visitor keeps names. -/
theorem Tour.toured {pass : Pass σ} {p p' : PassState σ} {tour : List (Nat × Visit)}
    (htour : Tour pass.visitor.visitDefinition p.context.definitions tour p'.context.definitions)
    (hrecord : tour.map Prod.snd = pass.visits p)
    (hkeeps : ∀ others v, (pass.visitor.visitDefinition others).Ends v fun _ v' =>
      v'.definition.name = v.definition.name) : pass.Toured p p' tour where
  recorded := hrecord
  once := htour.nodup
  visited := by
    rintro done place visit rest rfl
    obtain ⟨before, hbefore, hgiven, hothers, hleft⟩ := htour.given
    refine ⟨hgiven, ?_, hbefore.map_name_others hothers hkeeps, hleft⟩
    rw [hothers, hbefore.eq_leave]
  unvisited place hout := htour.getElem?_of_not_mem hout
  definitions := htour.eq_leave

/-- **A pass whose visitor keeps names keeps every definition in its place, however it ends.**

What the visitor is given is told by the pass that writes it down, which is the same pass
otherwise.  The visits are a tour: no place twice; each definition given as it was at the start;
beside it the others, which are those visited before as they were left and the rest as they were,
in the order in which they are listed.  Places not visited are unchanged, and nothing is visited if
the pass is skipped or cannot be scheduled.  A pass that succeeds visits every place, in the order
of the schedule. -/
theorem Pass.visit_keeps_places {pass : Pass σ} {p : PassState σ}
    (hkeeps : ∀ others v, (pass.visitor.visitDefinition others).Ends v fun _ v' =>
      v'.definition.name = v.definition.name) :
    pass.visitRecording ⟨(p.memory, []), p.context⟩ = (pass.visit p).recorded (pass.visits p) ∧
    pass.visit.Ends p fun r p' =>
      p'.context.options = p.context.options ∧
      p'.context.definitions.map Definition.name = p.context.definitions.map Definition.name ∧
      (∃ tour, pass.Toured p p' tour ∧
        (pass.visitor.precondition p.memory p.context = none → r = .ok () →
          schedule p.context.definitions pass.visitor.callOrder = .ok (tour.map Prod.fst) ∧
          (tour.map Prod.fst).Perm (List.range p.context.definitions.length))) ∧
      (pass.visitor.precondition p.memory p.context ≠ none → r = .ok () ∧ p' = p ∧
        pass.visits p = []) ∧
      (∀ error, pass.visitor.precondition p.memory p.context = none →
        schedule p.context.definitions pass.visitor.callOrder = .error error →
        r = .error (.error error) ∧ p' = p ∧ pass.visits p = []) := by
  refine ⟨pass.visitRecording_eq p, ?_⟩
  obtain ⟨hoptions, tour, htour, hrecord, hall⟩ := pass.exists_tour p
  refine ⟨hoptions, htour.map_name hkeeps, ⟨tour, htour.toured hrecord hkeeps, ?_⟩, ?_, ?_⟩
  · intro hnone hok
    have hschedule := hall hnone hok
    exact ⟨hschedule, schedule_perm hschedule⟩
  · intro hskip
    obtain ⟨reason, hreason⟩ := Option.ne_none_iff_exists'.mp hskip
    exact visit_of_some hreason
  · exact fun error hnone herror => visit_of_error hnone herror

/-- Copy the first node of every definition, callees first. -/
def copyingFirst : Pass Unit where
  info := { name := "copy-first", description := "copy the first node" }
  init := pure ()
  visitor := {
    callOrder := .calleesFirst
    start := fun _ => do
      let g ← Visiting.graph
      if g.members = [] then Run.fail (.error (.other "nothing to copy"))
      else
        let _ ← Visiting.edit (Graph.shallowCopy ⟨0⟩)
        return .stop }

/-- A caller and two functions of one name.  The second of them is visited first, and then the
first of them, where there is nothing to copy. -/
def halfEmpty : Context := { definitions := [calling "c" ["f"], calling "f" [], calling "f" ["g"]] }

/-- The pass fails in the middle, and the caller is as it was. -/
theorem Pass.visit_keeps_places_halfEmpty :
    (∀ others v, (copyingFirst.visitor.visitDefinition others).Ends v fun _ v' =>
      v'.definition.name = v.definition.name) ∧
    copyingFirst.visit.Ends ⟨(), halfEmpty⟩ fun r p =>
      r = .error (.error (.other "nothing to copy")) ∧
      p.context.definitions.map Definition.name = ["c", "f", "f"] ∧
      p.context.definitions[0]? = some (calling "c" ["f"]) ∧
      (copyingFirst.visits ⟨(), halfEmpty⟩).map
          (fun visit => (visit.given.name, visit.others.map Definition.name))
        = [("f", ["c", "f"]), ("f", ["c", "f"])] := by
  have hkeeps : ∀ others v, (copyingFirst.visitor.visitDefinition others).Ends v fun _ v' =>
      v'.definition.name = v.definition.name := by
    intro others v
    refine copyingFirst.visitor.visitDefinition_preserves_name (fun _ => ?_)
      (fun hnone => absurd hnone (by simp [copyingFirst])) (fun _ v hname => hname) others v rfl
    refine .bind (fun v hname => hname) fun g => ?_
    split
    · exact fun v hname => hname
    · exact .bind (onGraph_preserves_name _ _) fun _ v hname => hname
  obtain ⟨-, hends⟩ := Pass.visit_keeps_places (p := ⟨(), halfEmpty⟩) hkeeps
  have hvisits : (copyingFirst.visits ⟨(), halfEmpty⟩).map
      (fun visit => (visit.given.name, visit.others.map Definition.name))
      = [("f", ["c", "f"]), ("f", ["c", "f"])] := by cbv
  obtain ⟨-, hnames, ⟨tour, htoured, -⟩, -, -⟩ := hends
  refine ⟨hkeeps, by cbv, hnames, htoured.unvisited 0 fun hin => ?_, hvisits⟩
  -- Whoever was visited has the name `f`.
  obtain ⟨⟨place, visit⟩, hentry, rfl⟩ := List.mem_map.mp hin
  obtain ⟨done, rest, htour⟩ := List.append_of_mem hentry
  have hname : visit.given.name = "c" := by
    rw [← Option.some.inj (htoured.visited done _ visit rest htour).given]
    rfl
  have hvisit : visit ∈ copyingFirst.visits ⟨(), halfEmpty⟩ :=
    htoured.recorded ▸ List.mem_map.mpr ⟨_, hentry, rfl⟩
  have hseen : (visit.given.name, visit.others.map Definition.name)
      ∈ [("f", ["c", "f"]), ("f", ["c", "f"])] :=
    hvisits ▸ List.mem_map.mpr ⟨visit, hvisit, rfl⟩
  simp [hname] at hseen

end BehaviorGraph
