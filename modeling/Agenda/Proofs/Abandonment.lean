import Mathlib
import Agenda.Proofs.Attribution
import Agenda.Proofs.OfflineFailures
import Agenda.Proofs.Progress

/-!
# What is given up does not surface

An action that is to be started inside of a construct that was given up ends with a failure of its own kind. No work
that is waited for ever ends so, and none of its parts does: only what was detached from it, which lies inside of a
closed scope. All other failures come up before anything is executed, or report how an execution ended.
-/

namespace Agenda

set_option autoImplicit false

/-! ### Failures that come up before anything is executed -/

theorem Failure.ne_abandoned_of_eval {e : Failure} (h : ∃ error, e = .eval error) : e ≠ .abandoned := by
  obtain ⟨error, rfl⟩ := h
  rintro ⟨⟩

namespace Program

theorem Hinders.ne_abandoned {P : Program → Prop} {e : Failure} (h : Hinders P e) : e ≠ .abandoned := by
  cases h <;> rintro ⟨⟩

theorem Refuses.ne_abandoned {c : Setting} {s : State} {p : Program} {e : Failure} (h : p.Refuses c s e) :
    e ≠ .abandoned := by
  cases h with
  | condition _ _ h => exact Failure.ne_abandoned_of_eval (Expr.decide_eq_error h)
  | test h => exact Failure.ne_abandoned_of_eval (Expr.decide_eq_error h)
  | assertion _ => rintro ⟨⟩
  | call h =>
    obtain ⟨error, rfl⟩ | ⟨error, rfl⟩ := Domain.resolve_eq_error h
    · rintro ⟨⟩
    · rintro ⟨⟩
  | choice => rintro ⟨⟩
  | search _ h => exact (hinders_of_search hereditary_true _ _ _ _ _ _ trivial h).ne_abandoned
  | planless _ _ => rintro ⟨⟩
  | bodiless => rintro ⟨⟩
  | branches _ h => exact Failure.ne_abandoned_of_eval (finalityFailure_eq_some h)
  | statement _ h => exact Failure.ne_abandoned_of_eval (isFinal_eq_error s _ h)
  | blocked => rintro ⟨⟩

end Program

/-! ### Failures inside of a work -/

/-- The work, or something under way in it, or something that came to an end in it and is not folded yet, ended with the
failure. -/
inductive Work.Reports (e : Failure) : Work → Prop
  | settled : Reports e (.settled (.error e))
  | batch {s : Scheduler Work} {c : Completion} : c ∈ s.batch → c.outcome = .error e → Reports e (.group s)
  | flight {s : Scheduler Work} {f : Flight Work} : f ∈ s.flights → Reports e f.work → Reports e (.group s)

namespace Scheduler

theorem foldAll_eq_error {τ : Type} {s : Scheduler τ} {cs : List Completion} {e : Failure}
    (h : s.foldAll cs = .error e) :
    (∃ c ∈ cs, c.outcome = .error e) ∨
      ∃ c ∈ cs, ∃ p u, Frame.residual c.frames = some p ∧ p.isFinal u = .error e := by
  induction cs generalizing s with
  | nil => cases h
  | cons c rest ih =>
    rw [foldAll] at h
    split at h
    · cases h
    · obtain h | ⟨t, -, h⟩ := Except.error_of_bind h
      · unfold complete at h
        split at h
        · rename_i e' ho
          cases h
          exact .inl ⟨c, List.mem_cons_self, ho⟩
        · right
          obtain h | ⟨next, -, h⟩ := Except.error_of_bind h
          · rw [Frame.continuation_resume] at h
            unfold nextSlot at h
            split at h
            · cases h
            · rename_i p hp
              obtain h | ⟨final, -, h⟩ := Except.error_of_bind h
              · exact ⟨c, List.mem_cons_self, p, _, hp, h⟩
              · cases final <;> cases h
          · cases h
      · obtain ⟨d, hd, ho⟩ | ⟨d, hd, ho⟩ := ih h
        · exact .inl ⟨d, List.mem_cons_of_mem c hd, ho⟩
        · exact .inr ⟨d, List.mem_cons_of_mem c hd, ho⟩

theorem foldBatch_eq_error {τ : Type} {s : Scheduler τ} {e : Failure} (h : s.foldBatch = .error e) :
    (∃ c ∈ s.batch, c.outcome = .error e) ∨
      ∃ c ∈ s.batch, ∃ p u, Frame.residual c.frames = some p ∧ p.isFinal u = .error e := by
  obtain ⟨c, hc, ho⟩ | ⟨c, hc, ho⟩ := foldAll_eq_error h
  · exact .inl ⟨c, List.mem_mergeSort.mp hc, ho⟩
  · exact .inr ⟨c, List.mem_mergeSort.mp hc, ho⟩

end Scheduler

namespace Work

variable {c : Setting} {σ τ : World} {w w' : Work}

theorem Stirs.reports {e : Failure} (h : Stirs w w') (hr : w'.Reports e) : w.Reports e := by
  induction h with
  | settled outcome => exact hr
  | acting _ _ _ => cases hr
  | group fs he hp _ ih =>
    cases hr with
    | batch hc ho => exact .batch hc ho
    | flight hf hr =>
      obtain ⟨x, hx, h₀, rfl⟩ := exists_of_mem_stirred he hp hf
      exact .flight h₀ (ih x hx hr)

/-- What has to be shown of works `Q` and failures `R` so that only such failures come up when these works move. -/
structure ReportCases (c : Setting) (σ : World) (Q : Work → Prop) (R : Failure → Prop) : Prop where
  flight : ∀ s f, Q (.group s) → f ∈ s.flights → Q f.work
  act : ∀ e w τ, Q (.acting e) → e.advance σ = some (w, τ) → ∀ x, w.Reports x → R x
  starve : ∀ s, Q (.group s) → s.isFinished = false → s.batch = [] → s.flights = [] →
    R (.noTransition (.noRunnableBranch s.kind))
  fold : ∀ s d p u e, Q (.group s) → d ∈ s.batch → Frame.residual d.frames = some p → p.isFinal u = .error e → R e
  launch : ∀ s t, Q (.group s) → s.foldBatch = .ok t →
    ∀ f ∈ (Program.dispatchSlots c t.state (t.scope :: t.outer) (fun _ => false) 0 t.nextSeq t.slots σ).flights,
    ∀ x, f.work.Reports x → R x

theorem Moves.reports {Q : Work → Prop} {R : Failure → Prop} {x : Failure} (h : Moves c w σ w' τ)
    (hc : ReportCases c σ Q R) (hw : Q w) (hx : w'.Reports x) : w.Reports x ∨ R x := by
  induction h with
  | act h => exact .inr (hc.act _ _ _ hw h x hx)
  | finish _ _ => cases hx
  | starve hs hb hf =>
    cases hx
    exact .inr (hc.starve _ hw hs.unfinished hb hf)
  | rest _ _ _ => exact .inl ((stirs_look _ _).reports hx)
  | fail _ _ he =>
    cases hx
    obtain ⟨d, hd, ho⟩ | ⟨d, hd, p, u, hp, hf⟩ := Scheduler.foldBatch_eq_error he
    · exact .inl (.batch hd ho)
    · exact .inr (hc.fold _ d p u x hw hd hp hf)
  | decide _ _ _ _ => cases hx
  | @go s t σ _ _ _ ht _ =>
    obtain ⟨he, hb⟩ := Scheduler.flights_foldBatch ht
    cases hx with
    | batch hd _ =>
      have hd : _ ∈ t.batch := hd
      rw [hb] at hd
      cases hd
    | flight hm hx =>
      rcases Scheduler.mem_flights_dispatchLive hm with hm | hm
      · exact .inl (.flight (he ▸ hm) hx)
      · exact .inr (hc.launch s t hw ht _ hm x hx)
  | @follow s f rest σ τ w hs _ ih =>
    cases hx with
    | batch hd ho => exact .inl (.batch hd ho)
    | flight hm hx =>
      rcases hs.mem_flights_follow hm with rfl | hm
      · exact (ih hc (hc.flight s f hw hs.mem_flights) hx).imp_left (.flight hs.mem_flights)
      · exact .inl (.flight hm hx)
  | @receive s f rest σ hs _ =>
    left
    obtain ⟨outcome, hset, he⟩ | hst := receive_cases hs.queue
    · rw [he] at hx
      cases hx with
      | batch hd ho =>
        rcases List.mem_append.mp hd with hd | hd
        · exact .batch hd ho
        · obtain rfl := List.mem_singleton.mp hd
          -- what the flight ended with is in the batch now
          have ho : outcome = .error x := ho
          refine .flight hs.mem_flights ?_
          rw [hset, ho]
          exact .settled
      | flight hm hx => exact .flight (hs.mem_flights_of_mem_rest hm) hx
    · exact hst.reports hx

end Work

/-! ### What is given up -/

namespace World

variable {σ : World} {scopes : List Nat}

theorem Admits.of_cons {i : Nat} (h : σ.Admits (i :: scopes)) : σ.Admits scopes :=
  ⟨fun j hj => h.opened j (List.mem_cons_of_mem i hj), h.fresh⟩

theorem Admits.record_dispatched (h : σ.Admits scopes) (b : BoundAction) (around : List Nat) (time : Nat) :
    (σ.record (.dispatched b around time)).Admits scopes :=
  h.of_closed_eq (σ.closedScopes_record_dispatched b around time) (Nat.le_refl _)

theorem Admits.record_completed (h : σ.Admits scopes) (record : ActionRecord) (time : Nat) :
    (σ.record (.completed record time)).Admits scopes :=
  h.of_closed_eq (σ.closedScopes_record_completed record time) (Nat.le_refl _)

theorem Regular.admits_nil (h : σ.Regular) : σ.Admits [] := by
  refine ⟨List.forall_mem_nil _, fun i hi => Multiset.mem_range.mp ?_⟩
  exact Multiset.mem_of_le h.scopes (Multiset.mem_add.mpr (.inl hi))

end World

namespace Work

variable {c : Setting} {σ τ : World} {w w' : Work}

theorem not_reports_perform {scopes : List Nat} (h : σ.Admits scopes) (updates : List Update) (trace : List BoundAction)
    (s : State) (bound : BoundAction) :
    ¬ (perform scopes updates trace s bound σ).1.Reports .abandoned ∧
      (perform scopes updates trace s bound σ).2.Admits scopes := by
  unfold perform
  rw [h.any_isClosed, if_neg Bool.false_ne_true]
  split
  · exact ⟨by rintro ⟨⟩, h⟩
  · exact ⟨by rintro ⟨⟩, h.record_dispatched bound scopes σ.clock⟩

theorem not_reports_performAll {scopes : List Nat} (h : σ.Admits scopes) (s : State) (trace : List BoundAction) :
    ¬ (performAll scopes s σ trace).1.Reports .abandoned ∧ (performAll scopes s σ trace).2.Admits scopes := by
  obtain ⟨-, he⟩ | ⟨bound, rest, -, he⟩ := performAll_cases scopes s σ trace
  · rw [he]
    exact ⟨by rintro ⟨⟩, h⟩
  · rw [he]
    exact not_reports_perform h [] rest s bound

theorem not_reports_complete {e : Execution} (h : σ.Admits e.scopes) : ¬ (e.complete σ).1.Reports .abandoned := by
  obtain ⟨message, he⟩ | ⟨result, -, he⟩ | ⟨bound, trace, -, he⟩ := e.complete_cases σ
  · rw [he]
    rintro ⟨⟩
  · rw [he]
    rintro ⟨⟩
  · rw [he]
    exact (not_reports_perform (h.record_completed _ _) _ trace e.after bound).1

theorem not_reports_advance {e : Execution} (h : e.advance σ = some (w, τ)) (ho : σ.Admits e.scopes) :
    ¬ w.Reports .abandoned := by
  obtain ⟨allowance, he⟩ | ⟨timer, postponed, rfl, -⟩ := Execution.advance_ends_or_stays h
  · have hr := not_reports_complete (σ := { σ with allowance }) ⟨ho.opened, ho.fresh⟩
    rwa [← he] at hr
  · rintro ⟨⟩

end Work

theorem Program.reports_cases (c : Setting) (s : State) :
    DispatchCases c s
      (fun _ scopes σ l => σ.Admits scopes → ¬ l.work.Reports .abandoned ∧ l.world.Admits scopes)
      (fun _ scopes _ _ _ σ r => σ.Admits scopes →
        (∀ f ∈ r.flights, ¬ f.work.Reports .abandoned) ∧ r.world.Admits scopes) where
  failed _ _ _ _ hr h := by
    refine ⟨?_, h⟩
    rintro ⟨⟩
    exact hr.ne_abandoned rfl
  finished _ _ _ _ h := ⟨by rintro ⟨⟩, h⟩
  call _ _ _ _ bound _ h := Work.not_reports_perform h [] [] s bound
  plan _ _ _ _ plan _ h := Work.not_reports_performAll h s plan.trace
  enter _ _ _ _ _ _ hl h := hl h
  skip _ _ _ _ _ _ hl h := hl h
  before _ _ _ _ _ _ hl h := hl h
  bind _ _ _ _ _ hl h := hl h
  decided _ _ _ _ _ _ _ _ h := by
    refine ⟨?_, h.openScope.of_cons⟩
    intro hr
    cases hr with
    | batch hc _ => exact absurd hc List.not_mem_nil
    | flight hf _ => exact absurd hf List.not_mem_nil
  group _ _ _ _ r _ _ _ _ hr h := by
    obtain ⟨hf, hσ⟩ := hr h.openScope
    refine ⟨?_, hσ.of_cons⟩
    intro hr
    cases hr with
    | batch hc _ => exact absurd hc List.not_mem_nil
    | @flight _ f hm hr =>
      rw [Scheduler.flights, List.append_nil] at hm
      exact hf f hm hr
  nil _ _ _ _ _ h := ⟨List.forall_mem_nil _, h⟩
  done _ _ _ _ _ _ _ _ _ hr h := hr h
  mark _ _ _ _ _ _ _ _ _ _ hr h := hr h
  start _ _ _ _ _ _ _ l r _ _ hl hr h := by
    obtain ⟨hw, hσ⟩ := hl h
    obtain ⟨hf, hτ⟩ := hr hσ
    exact ⟨List.forall_mem_cons.mpr ⟨hw, hf⟩, hτ⟩

namespace Work

variable {c : Setting} {σ τ : World} {w w' : Work}

theorem reportCases_open (c : Setting) (σ : World) :
    ReportCases c σ (fun w => ∃ around, w.Open σ around) (· ≠ .abandoned) where
  flight s f ho hf := by
    obtain ⟨around, ho⟩ := ho
    exact ⟨_, ho.flight hf⟩
  act e w τ ho h := by
    obtain ⟨around, ho⟩ := ho
    rintro _ hx rfl
    exact not_reports_advance h ho.admits_acting hx
  starve _ _ _ _ _ := by rintro ⟨⟩
  fold _ _ p u _ _ _ _ hf := Failure.ne_abandoned_of_eval (Program.isFinal_eq_error u p hf)
  launch s t ho ht f hf := by
    obtain ⟨around, ho⟩ := ho
    obtain ⟨hsc, hou⟩ := Scheduler.scope_foldBatch ht
    -- folding the batch changes neither the scope nor those around it
    have ha : σ.Admits (t.scope :: t.outer) := by
      rw [hsc, hou]
      exact ho.admits_group
    have hr := ((Program.reports_cases c t.state).round t.slots _ (fun _ => false) 0 t.nextSeq σ ha).1 f hf
    rintro _ hx rfl
    exact hr hx

end Work

namespace Machine

/-- The work that is waited for does not report that anything was given up. -/
structure Silent (m : Machine) : Prop extends Scoped m where
  silent : ¬ m.main.Reports .abandoned

theorem Steps.silent {c : Setting} {m m' : Machine} (h : Steps c m m') (hm : m.Silent) : m'.Silent := by
  refine ⟨h.scoped hm.toScoped, ?_⟩
  cases h with
  | move h =>
    intro hr
    obtain hr | hn := h.reports (Work.reportCases_open c m.world) ⟨[], hm.open⟩ hr
    · exact hm.silent hr
    · exact hn rfl
  | takeUp _ _ => exact mt (Work.stirs_takeUp _).reports hm.silent
  | wake _ _ _ => exact mt (Work.stirs_wake _).reports hm.silent
  | detached _ _ _ => exact hm.silent
  | @ring time _ _ => exact mt (Work.stirs_ring _ time).reports hm.silent

end Machine

namespace Program

variable {c : Setting} {p : Program} {s : State} {σ : World}

theorem silent_started (h : σ.Regular) : (p.started c s σ).Silent :=
  ⟨scoped_started c p s h, ((reports_cases c s).dispatch p [] σ h.admits_nil).1⟩

theorem transition_eq_error {e : Failure} (h : (p.transition c s σ).1 = .error e) :
    ((p.started c s σ).settle c).main = .settled (.error e) := by
  obtain ⟨outcome, ho⟩ := settles_started c p s σ
  rw [result_transition, Machine.outcome, ho] at h
  cases outcome with
  | ok o => cases h
  | error e' =>
    cases h
    exact ho

/-- A run fails because it cannot be told whether the program may end, or because of how a work that it waited for came
to its end. -/
theorem drive_eq_error {f : RunFailure} (h : (p.drive c s σ).result = .error f) :
    (∃ error, f.failure = .eval error) ∨
      ∃ before m, p.Visits c s σ before m ∧ m.main = .settled (.error f.failure) := by
  fun_induction drive c p s σ with
  | case1 p s σ e he =>
    cases h
    exact .inl (isFinal_eq_error s p he)
  | case2 => cases h
  | case3 p s σ hf e τ ht =>
    cases h
    obtain ⟨before, hv⟩ := (Visits.start (c := c) hf).settle
    exact .inr ⟨before, _, hv, transition_eq_error (congrArg Prod.fst ht)⟩
  | case4 => cases h
  | case5 p s σ hf t τ ht q hc ih =>
    have h1 : (p.transition c s σ).1 = .ok t := congrArg Prod.fst ht
    have h2 : (p.transition c s σ).2 = τ := congrArg Prod.snd ht
    refine (ih h).imp_right ?_
    rintro ⟨before, m, hv, hm⟩
    exact ⟨before, m, .next hf h1 hc (h2 ▸ hv), hm⟩

theorem Visits.silent {before : World} {m : Machine} (h : Visits c p s σ before m) (hσ : σ.Regular) : m.Silent := by
  induction h with
  | start _ => exact silent_started hσ
  | step _ _ hs ih => exact (Machine.steps_of_step hs).silent (ih hσ)
  | next _ _ _ _ ih => exact ih (regular_transition _ _ _ hσ)

theorem failure_drive (h : σ.Regular) {f : RunFailure} (hf : (p.drive c s σ).result = .error f) :
    f.failure ≠ .abandoned := by
  obtain he | ⟨before, m, hv, hm⟩ := drive_eq_error hf
  · exact Failure.ne_abandoned_of_eval he
  · intro he
    rw [he] at hm
    apply (hv.silent h).silent
    rw [hm]
    exact .settled

/-- No run fails because something was given up. Nothing in what a run waits for ends so at any time: only what was
detached can, and that lies inside of a construct that was given up before. -/
theorem abandoned_never_surfaces (c : Setting) (p : Program) (s : State) :
    (∀ f, (p.run c s).result = .error f → f.failure ≠ .abandoned) ∧
    ∀ before m, p.Visits c s c.initial before m → ¬ m.main.Reports .abandoned ∧
      ∀ w ∈ m.world.detached, ∃ around, w.Inside around ∧ ∃ i ∈ around, m.world.isClosed i = true := by
  have hr := World.regular_initial c.budget
  constructor
  · intro f hf
    unfold run at hf
    split at hf
    · cases hf
      rintro ⟨⟩
    · exact failure_drive hr hf
  · intro before m hv
    have hm := hv.silent hr
    refine ⟨hm.silent, ?_⟩
    intro w hw
    obtain ⟨around, hi, i, hia, hic⟩ := hm.sealed w hw
    exact ⟨around, hi, i, hia, (m.world.isClosed_iff i).mpr hic⟩

/-- The race is decided while its loser is in the midst of a plan, and is not waited for any more when that goes on. -/
def raceBesideSleep : Program := .control .conc [raceWithPlan, .call "Sleep" [("time", .const (.int 10))]]

theorem abandoned_never_surfaces_raceBesideSleep :
    (raceBesideSleep.run Setting.standard {}).result.toOption.isSome = true ∧
    ∃ before m, raceBesideSleep.Visits Setting.standard {} Setting.standard.initial before m ∧
      ¬ m.main.Reports .abandoned ∧ (∃ w ∈ m.world.detached, w.Reports .abandoned) ∧
      ∀ w ∈ m.world.detached, ∃ around, w.Inside around ∧ ∃ i ∈ around, m.world.isClosed i = true := by
  have hs : (raceBesideSleep.run Setting.standard {}).result.toOption.isSome = true := by
    rw [run_of_validate _ _ rfl, drive_eq]
    cbv
  have hf : raceBesideSleep.isFinal {} = .ok false := by cbv
  obtain ⟨before, hv⟩ := (Visits.start (c := Setting.standard) (σ := Setting.standard.initial) hf).settle
  have hd : ((raceBesideSleep.started Setting.standard {} Setting.standard.initial).settle
      Setting.standard).world.detached = [.settled (.error .abandoned)] := by cbv
  obtain ⟨-, hm⟩ := abandoned_never_surfaces Setting.standard raceBesideSleep {}
  obtain ⟨hr, hw⟩ := hm before _ hv
  refine ⟨hs, before, _, hv, hr, ⟨.settled (.error .abandoned), ?_, .settled⟩, hw⟩
  rw [hd]
  exact List.mem_singleton_self _

end Program

end Agenda
