import Mathlib
import Agenda.Proofs.Counters
import Agenda.Proofs.Sequence

/-!
# Plans come true

A plan is found by following effects through all that a program does in between, bindings included. What is executed is
the bare list of its actions, and each of them is checked again. For actions that look at facts only and change facts
only this makes no difference: the execution dispatches the actions of the plan in order and ends with the facts that
were foreseen, unless one of them is an action that fails.
-/

namespace Agenda

set_option autoImplicit false

/-! ### Actions on facts -/

namespace Action

/-- The action does not look at variables and does not bind any. -/
structure FactsOnly (a : Action) : Prop where
  possible : ∀ {s t : State}, s.facts = t.facts → a.possible s = a.possible t
  facts : ∀ {s t : State}, s.facts = t.facts → (a.effect s).facts = (a.effect t).facts
  vars : ∀ s : State, (a.effect s).vars = s.vars

def fails (a : Action) : Bool :=
  match a.outcome with
  | .error _ => true
  | .ok _ => false

theorem factsOnly_idle (latency : Option Nat) (outcome : Except String (Option Value)) (recorded : Bool) :
    FactsOnly { latency, outcome, recorded } :=
  ⟨fun _ => rfl, fun h => h, fun _ => rfl⟩

theorem factsOnly_factAction (args : Fields Value) {possible : State → Bool} {effect : State → State}
    (hp : ∀ s t : State, s.facts = t.facts → possible s = possible t)
    (he : ∀ s t : State, s.facts = t.facts → (effect s).facts = (effect t).facts)
    (hv : ∀ s : State, (effect s).vars = s.vars) : FactsOnly (Domain.factAction args possible effect) :=
  ⟨fun h => hp _ _ h, fun h => he _ _ h, hv⟩

end Action

theorem Fields.mem_of_get? {α : Type} {fields : Fields α} {key : String} {a : α} (h : fields.get? key = some a) :
    (key, a) ∈ fields := by
  induction fields with
  | nil => cases h
  | cons entry rest ih =>
    obtain ⟨name, b⟩ := entry
    rw [Fields.get?_cons] at h
    split at h
    · rename_i hn
      cases h
      rw [hn]
      exact List.mem_cons_self
    · exact List.mem_cons_of_mem _ (ih h)

namespace Domain

theorem wait_eq_ok {latency : Nat} {args : Fields Value} {a : Action} (h : wait latency args = .ok a) :
    a.FactsOnly ∧ a.fails = false := by
  cases h
  exact ⟨Action.factsOnly_idle _ _ _, rfl⟩

theorem sleep_eq_ok {args : Fields Value} {a : Action} (h : sleep args = .ok a) : a.FactsOnly ∧ a.fails = false := by
  unfold sleep at h
  obtain ⟨time, -, h⟩ := Except.exists_of_bind_eq_ok h
  split at h
  · cases h
    exact ⟨Action.factsOnly_idle _ _ _, rfl⟩
  · cases h

theorem identity_eq_ok {args : Fields Value} {a : Action} (h : identity args = .ok a) :
    a.FactsOnly ∧ a.fails = false := by
  cases h
  exact ⟨Action.factsOnly_idle _ _ _, rfl⟩

theorem fail_eq_ok {latency : Nat} {args : Fields Value} {a : Action} (h : fail latency args = .ok a) :
    a.FactsOnly ∧ a.fails = true := by
  cases h
  exact ⟨Action.factsOnly_idle _ _ _, rfl⟩

theorem goTo_eq_ok {roads : RoadMap} {latency : Nat} {args : Fields Value} {a : Action}
    (h : goTo roads latency args = .ok a) : a.FactsOnly ∧ a.fails = false := by
  unfold goTo at h
  obtain ⟨destination, -, h⟩ := Except.exists_of_bind_eq_ok h
  split at h
  · cases h
    refine ⟨⟨?_, ?_, fun _ => rfl⟩, rfl⟩
    · intro s t hs
      simp only [State.fact?, hs]
    · intro s t hs
      simp only [State.withFact, hs]
  · cases h

theorem inc_eq_ok {args : Fields Value} {a : Action} (h : inc args = .ok a) : a.FactsOnly ∧ a.fails = false := by
  cases h
  refine ⟨Action.factsOnly_factAction args (fun _ _ _ => rfl) ?_ (fun _ => rfl), rfl⟩
  intro s t hs
  simp only [State.withFact, State.fact?, hs]

theorem put_eq_ok {args : Fields Value} {a : Action} (h : put args = .ok a) : a.FactsOnly ∧ a.fails = false := by
  cases h
  refine ⟨Action.factsOnly_factAction args (fun _ _ _ => rfl) ?_ (fun _ => rfl), rfl⟩
  intro s t hs
  simp only [State.withFact, hs]

theorem need_eq_ok {args : Fields Value} {a : Action} (h : need args = .ok a) : a.FactsOnly ∧ a.fails = false := by
  cases h
  refine ⟨Action.factsOnly_factAction args ?_ (fun _ _ hs => hs) (fun _ => rfl), rfl⟩
  intro s t hs
  simp only [State.fact?, hs]

def Has (d : Domain) (b : BoundAction) : Prop := ∃ s name args, d.resolve s name args = .ok b

/-- All standard actions are about facts only, and the one that fails goes by its name. -/
theorem standard_has {latency : Nat} {roads : RoadMap} {b : BoundAction} (h : (standard latency roads).Has b) :
    b.action.FactsOnly ∧ (b.action.fails = true ↔ b.record.name = "Fail") := by
  obtain ⟨s, name, args, h⟩ := h
  obtain ⟨values, build, -, hg, ha, he⟩ := resolve_eq_ok h
  have sound {name : String} (hn : name ≠ "Fail") (hb : b.action.FactsOnly ∧ b.action.fails = false) :
      b.action.FactsOnly ∧ (b.action.fails = true ↔ name = "Fail") := by
    rw [hb.2]
    exact ⟨hb.1, iff_of_false Bool.false_ne_true hn⟩
  have hr : b.record.name = name := by rw [he]
  rw [hr]
  have hm := Fields.mem_of_get? hg
  simp only [standard, delivery, general, onFacts, List.mem_append, List.mem_cons, List.not_mem_nil, or_false,
    Prod.mk.injEq] at hm
  rcases hm with ((⟨rfl, rfl⟩ | ⟨rfl, rfl⟩ | ⟨rfl, rfl⟩ | ⟨rfl, rfl⟩ | ⟨rfl, rfl⟩) | ⟨rfl, rfl⟩) |
    ⟨rfl, rfl⟩ | ⟨rfl, rfl⟩ | ⟨rfl, rfl⟩
  · exact sound (by decide) (wait_eq_ok ha)
  · exact sound (by decide) (wait_eq_ok ha)
  · exact sound (by decide) (sleep_eq_ok ha)
  · exact sound (by decide) (identity_eq_ok ha)
  · obtain ⟨hf, hb⟩ := fail_eq_ok ha
    exact ⟨hf, iff_of_true hb rfl⟩
  · exact sound (by decide) (goTo_eq_ok ha)
  · exact sound (by decide) (inc_eq_ok ha)
  · exact sound (by decide) (put_eq_ok ha)
  · exact sound (by decide) (need_eq_ok ha)

end Domain

/-! ### What a plan foresees -/

inductive Performs : State → List BoundAction → State → Prop
  | nil (s : State) : Performs s [] s
  | cons {s t : State} {b : BoundAction} {rest : List BoundAction} : b.action.possible s = true →
      Performs (b.action.effect s) rest t → Performs s (b :: rest) t

theorem Performs.of_facts {s s' t : State} {trace : List BoundAction} (h : Performs s trace t)
    (hf : ∀ b ∈ trace, b.action.FactsOnly) (hs : s'.facts = s.facts) :
    ∃ t', Performs s' trace t' ∧ t'.facts = t.facts := by
  induction h generalizing s' with
  | nil s => exact ⟨s', .nil s', hs⟩
  | cons hp _ ih =>
    rw [List.forall_mem_cons] at hf
    obtain ⟨t', ht, he⟩ := ih hf.2 (hf.1.facts hs)
    exact ⟨t', .cons ((hf.1.possible hs).trans hp) ht, he⟩

theorem Performs.vars {s t : State} {trace : List BoundAction} (h : Performs s trace t)
    (hf : ∀ b ∈ trace, b.action.FactsOnly) : t.vars = s.vars := by
  induction h with
  | nil s => rfl
  | cons _ _ ih =>
    rw [List.forall_mem_cons] at hf
    exact (ih hf.2).trans (hf.1.vars _)

namespace Program

theorem Leads.planStep_cases {d : Domain} {s : State} {p : Program} {t : Successor} (h : Leads d s p t) :
    t.planStep = [] ∧ t.state.facts = s.facts ∨
      ∃ b, d.Has b ∧ b.action.possible s = true ∧ t.planStep = [b] ∧
        t.state.facts = (b.action.effect s).facts := by
  induction h with
  | empty | pass _ _ | test _ | done => exact .inl ⟨rfl, rfl⟩
  | skip _ _ ih => exact ih
  | before _ _ _ ih => exact ih
  | consequent _ _ _ ih => exact ih
  | alternate _ _ _ ih => exact ih
  | @call name args b hr hp => exact .inr ⟨b, ⟨s, name, args, hr⟩, hp, rfl, rfl⟩
  | bind var _ ih =>
    unfold Successor.bound
    split
    · exact ih
    · exact ih
  | choice _ _ ih => exact ih
  | plan _ ih => exact ih

theorem Chain.performs {d : Domain} (hd : ∀ b, d.Has b → b.action.FactsOnly) {p : Program} {s : State}
    {places : List Nat} {plan : Plan} (h : Chain d p s places plan) :
    (∀ b ∈ plan.trace, d.Has b) ∧ ∃ t, Performs s plan.trace t ∧ t.facts = plan.state.facts := by
  induction h with
  | @stop p s _ => exact ⟨List.forall_mem_nil _, s, .nil s, rfl⟩
  | @step p s ts t i places plan _ hs hi _ ih =>
    obtain ⟨hb, u, hu, hf⟩ := ih
    have ho : ∀ b ∈ plan.trace, b.action.FactsOnly := fun b hm => hd b (hb b hm)
    obtain ⟨hn, he⟩ | ⟨b, hh, hp, hn, he⟩ :=
      (leads_of_mem_successors d s p hs t (List.mem_of_getElem? hi)).planStep_cases
    · rw [hn]
      obtain ⟨v, hv, hvf⟩ := hu.of_facts ho he.symm
      exact ⟨hb, v, hv, hvf.trans hf⟩
    · rw [hn]
      obtain ⟨v, hv, hvf⟩ := hu.of_facts ho he.symm
      exact ⟨List.forall_mem_cons.mpr ⟨hh, hb⟩, v, .cons hp hv, hvf.trans hf⟩

end Program

/-! ### How a plan is executed -/

namespace Machine

/-- The machine executes the actions of a trace in order, nothing else being under way, towards a state; or it is
through with them; or one of them has failed. -/
inductive Enacts (trace : List BoundAction) (t : State) : Machine → Prop
  | acting {e : Execution} {σ : World} (front : List BoundAction) : front ++ e.bound :: e.trace = trace →
      (∀ b ∈ front, b.action.fails = false) → Performs e.after e.trace t → e.scopes = [] →
      (e.postponed.isSome = true → σ.allowance = 0) → σ.detached = [] → σ.dispatched = front ++ [e.bound] →
      Enacts trace t ⟨.acting e, σ⟩
  | done {result : Option Value} {updates : List Update} {σ : World} : (∀ b ∈ trace, b.action.fails = false) →
      σ.dispatched = trace → Enacts trace t ⟨.settled (.ok ⟨t, result, updates⟩), σ⟩
  | failed {b : BoundAction} {rest : List BoundAction} {message : String} {σ : World} (front : List BoundAction) :
      front ++ b :: rest = trace → (∀ a ∈ front, a.action.fails = false) → b.action.outcome = .error message →
      σ.dispatched = front ++ [b] → Enacts trace t ⟨.settled (.error (.actionFailed b.record message)), σ⟩

variable {trace : List BoundAction} {t : State}

theorem enacts_perform {s : State} {b : BoundAction} {front rest : List BoundAction} {updates : List Update} {σ : World}
    (he : front ++ b :: rest = trace) (hs : ∀ a ∈ front, a.action.fails = false) (hp : Performs s (b :: rest) t)
    (hd : σ.detached = []) (hσ : σ.dispatched = front) :
    Enacts trace t ⟨(Work.perform [] updates rest s b σ).1, (Work.perform [] updates rest s b σ).2⟩ := by
  cases hp with
  | cons hb hr =>
    have hw : Work.perform [] updates rest s b σ =
        (.acting { bound := b, after := b.action.effect s, trace := rest, updates, scopes := [] },
          σ.record (.dispatched b [] σ.clock)) := by
      simp only [Work.perform, List.any_nil, hb, Bool.not_true, Bool.false_eq_true, if_false]
    rw [hw]
    refine .acting front he hs hr rfl ?_ hd ?_
    · rintro ⟨⟩
    · rw [World.dispatched_record_dispatched, hσ]

theorem enacts_complete {e : Execution} {σ : World} {front : List BoundAction}
    (he : front ++ e.bound :: e.trace = trace)
    (hs : ∀ a ∈ front, a.action.fails = false) (hp : Performs e.after e.trace t) (hc : e.scopes = [])
    (hd : σ.detached = []) (hσ : σ.dispatched = front ++ [e.bound]) :
    Enacts trace t ⟨(e.complete σ).1, (e.complete σ).2⟩ := by
  have hr : (σ.record (.completed e.bound.record σ.clock)).dispatched = front ++ [e.bound] := by
    rw [World.dispatched_record_completed, hσ]
  unfold Execution.complete
  simp only
  split
  · rename_i message hm
    exact .failed front he hs hm hr
  · rename_i result ho
    have hb : e.bound.action.fails = false := by rw [Action.fails, ho]
    have hs' : ∀ a ∈ front ++ [e.bound], a.action.fails = false := by
      intro a ha
      rcases List.mem_append.mp ha with ha | ha
      · exact hs a ha
      · rw [List.mem_singleton.mp ha]
        exact hb
    split
    · rename_i ht
      rw [ht] at he hp
      cases hp
      subst he
      exact .done hs' hr
    · rename_i b rest ht
      rw [ht] at he hp
      rw [hc]
      refine enacts_perform ?_ hs' hp hd hr
      rw [List.append_assoc]
      exact he

theorem Steps.enacts {c : Setting} {m m' : Machine} (h : Steps c m m') (hn : ∀ outcome, m.main ≠ .settled outcome)
    (hm : Enacts trace t m) : Enacts trace t m' := by
  cases hm with
  | @acting e σ front he hs hp hc ha hd hσ =>
    cases h with
    | move hw =>
      cases hw with
      | act hw =>
        obtain ⟨-, hn⟩ | ⟨-, ⟨-, hn⟩ | ⟨-, hn⟩ | ⟨hz, hn⟩ | ⟨latency, hz, hn⟩⟩ := Execution.advance_cases hw
        · cases hn
          refine .acting front he hs hp hc ha hd ?_
          rw [World.dispatched_record_started]
          exact hσ
        · have hr := enacts_complete he hs hp hc hd hσ
          rwa [← hn] at hr
        · have hr := enacts_complete (σ := σ.spend) he hs hp hc hd hσ
          rwa [← hn] at hr
        · cases hn
          exact .acting front he hs hp hc (fun _ => hz) hd hσ
        · cases hn
          exact .acting front he hs hp hc ha hd hσ
    | takeUp _ _ =>
      refine .acting front he hs hp hc ?_ hd hσ
      rintro ⟨⟩
    | wake _ _ hk => cases hk
    | detached _ hl _ =>
      rw [hd] at hl
      exact absurd hl.symm (List.append_ne_nil_of_right_ne_nil _ (List.cons_ne_nil _ _))
    | @ring time hw _ =>
      -- what waits for its timer is not postponed, so it may hear it
      have hq : e.postponed.isSome = true → c.budget.val = 0 := fun hi => absurd (ha hi) hw.rested
      have hd' : σ.detached.map (Work.ring time) = [] := by rw [hd, List.map_nil]
      rw [Machine.ring, Work.ring]
      split
      · split
        · exact .acting front he hs hp hc hq hd' hσ
        · exact .acting front he hs hp hc hq hd' hσ
      · exact .acting front he hs hp hc hq hd' hσ
  | done _ _ => exact absurd rfl (hn _)
  | failed _ _ _ _ _ => exact absurd rfl (hn _)

theorem Enacts.progress {c : Setting} {m : Machine} (hm : Enacts trace t m) (h : m.step c = none) :
    ∃ outcome, m.main = .settled outcome := by
  cases hm with
  | @acting e σ front he hs hp hc ha hd hσ =>
    obtain ⟨hw, hn⟩ := waits_of_step_eq_none h
    have hq : e.postponed.isSome = false := by
      rw [Bool.eq_false_iff]
      exact fun hi => hw.rested (ha hi)
    have hs := hw.still
    simp only [Work.isStill, Execution.isStill, hq, Bool.false_or] at hs
    -- an execution that is still and not postponed has set its timer
    split at hs
    · rename_i latency ticket due _ ht
      simp only [nextDue, Work.nextDue, ht, hd, List.foldr_nil] at hn
      cases hn
    · cases hs
  | done _ _ => exact ⟨_, rfl⟩
  | failed _ _ _ _ _ => exact ⟨_, rfl⟩

end Machine

namespace Program

def recordsOf (trace : List BoundAction) : List ActionRecord := (trace.filter (·.action.recorded)).map (·.record)

variable {c : Setting} {body : Program} {s : State} {plan : Plan}

theorem enacts_started {t : State} (h : body.plan c.domain c.planLimit s = .ok (some plan))
    (hp : Performs s plan.trace t) : ((control .plan [body]).started c s c.initial).Enacts plan.trace t := by
  have hw : (control .plan [body]).started c s c.initial =
      ⟨(Work.performAll [] s c.initial plan.trace).1, (Work.performAll [] s c.initial plan.trace).2⟩ := by
    simp only [started, dispatch, h]
  rw [hw]
  obtain ⟨ht, he⟩ | ⟨b, rest, ht, he⟩ := Work.performAll_cases [] s c.initial plan.trace
  · rw [he]
    rw [ht] at hp ⊢
    cases hp
    exact .done (List.forall_mem_nil _) rfl
  · rw [he]
    rw [ht] at hp
    have hn : [] ++ b :: rest = plan.trace := ht.symm
    exact Machine.enacts_perform hn (List.forall_mem_nil _) hp rfl rfl

/-- A construct that plans dispatches the actions of the plan one by one, until one of them fails. -/
theorem transition_plan {t : State} (h : body.plan c.domain c.planLimit s = .ok (some plan))
    (hp : Performs s plan.trace t) :
    (∃ u, (∀ b ∈ plan.trace, b.action.fails = false) ∧ ((control .plan [body]).transition c s c.initial).1 = .ok u ∧
        u.continuation = none ∧ u.state = t ∧
        ((control .plan [body]).transition c s c.initial).2.dispatched = plan.trace) ∨
      ∃ front b rest message, plan.trace = front ++ b :: rest ∧ (∀ a ∈ front, a.action.fails = false) ∧
        b.action.outcome = .error message ∧
        ((control .plan [body]).transition c s c.initial).1 = .error (.actionFailed b.record message) ∧
        ((control .plan [body]).transition c s c.initial).2.dispatched = front ++ [b] := by
  obtain ⟨he, outcome, ho⟩ := Machine.settle_progress (c := c) (P := Machine.Enacts plan.trace t)
    (fun m m' hn hm hs => hs.enacts hn hm) (fun m hm hs => hm.progress hs) _ (enacts_started h hp)
  have hf : ((control .plan [body]).dispatch c s [] c.initial).frames = [] := by simp only [dispatch, h]
  rw [result_transition, world_transition, hf]
  generalize ((control .plan [body]).started c s c.initial).settle c = m at he ho ⊢
  cases he with
  | acting _ _ _ _ _ _ _ _ => cases ho
  | done hs hσ => exact .inl ⟨_, hs, rfl, rfl, rfl, hσ⟩
  | @failed b rest message σ front he hs hm hσ => exact .inr ⟨front, b, rest, message, he.symm, hs, hm, rfl, hσ⟩

theorem exists_isFinal_of_plan {d : Domain} {limit : Option Nat} (h : body.plan d limit s = .ok (some plan)) :
    body.isFinal s = .ok false ∨ body.isFinal s = .ok true ∧ plan = ⟨[], s⟩ := by
  rw [Program.plan, search_eq] at h
  split at h
  · cases h
  · rename_i hf
    cases h
    exact .inr ⟨hf, rfl⟩
  · rename_i hf
    exact .inl hf

/-- A plan that is found for a body comes true when the body is run as a plan: the run ends with the facts that were
foreseen, and its history shows the actions of the plan in order; or an action whose execution always fails is among
them, and the run fails at the first of these. -/
theorem run_plan_as_foreseen {latency : Nat} {roads : RoadMap} {limit : Option Nat} {budget : Budget}
    (hv : body.validate = .ok ())
    (h : body.plan (Domain.standard latency roads) limit s = .ok (some plan)) :
    ((∀ b ∈ plan.trace, b.record.name ≠ "Fail") ∧
      ((control .plan [body]).run ⟨Domain.standard latency roads, limit, budget⟩ s).result =
        .ok { s with facts := plan.state.facts } ∧
      ((control .plan [body]).run ⟨Domain.standard latency roads, limit, budget⟩ s).history = recordsOf plan.trace) ∨
    ∃ front b rest message, plan.trace = front ++ b :: rest ∧ (∀ a ∈ front, a.record.name ≠ "Fail") ∧
      b.record.name = "Fail" ∧
      ((control .plan [body]).run ⟨Domain.standard latency roads, limit, budget⟩ s).result =
        .error ⟨.actionFailed b.record message, control .plan [body], s⟩ ∧
      ((control .plan [body]).run ⟨Domain.standard latency roads, limit, budget⟩ s).history =
        recordsOf (front ++ [b]) := by
  have hvp : (control .plan [body]).validate = .ok () := by
    simp only [validate, validateAll, hv]
    rfl
  obtain ⟨places, rest, hc, ht, -, -⟩ := answers_search _ limit body s 0 [] h
  obtain ⟨hb, t, hp, hf⟩ := hc.performs fun b hb => (Domain.standard_has hb).1
  rw [List.nil_append] at ht
  simp only [← ht] at hb hp hf
  have hfo : ∀ b ∈ plan.trace, b.action.FactsOnly := fun b hm => (Domain.standard_has (hb b hm)).1
  have named : ∀ b ∈ plan.trace, b.action.fails = false → b.record.name ≠ "Fail" := by
    intro b hm hn he
    rw [(Domain.standard_has (hb b hm)).2.mpr he] at hn
    cases hn
  -- the search may bind variables on its way, the actions by themselves do not
  have hst : t = { s with facts := plan.state.facts } := by
    rw [← hf, ← hp.vars hfo]
  rw [run_of_validate _ _ hvp]
  simp only [Run.history, World.history_eq, recordsOf]
  rw [drive_eq, isFinal_plan]
  obtain hn | ⟨hn, he⟩ := exists_isFinal_of_plan h
  · rw [hn]
    dsimp only
    obtain ⟨u, hs, hu, hc, rfl, hd⟩ | ⟨front, b, rest, message, he, hs, hm, hr, hd⟩ :=
      transition_plan (c := ⟨Domain.standard latency roads, limit, budget⟩) h hp
    · rw [hu]
      dsimp only
      rw [hc, hd]
      exact .inl ⟨fun b hm => named b hm (hs b hm), congrArg _ hst, rfl⟩
    · rw [hr]
      dsimp only
      rw [hd]
      refine .inr ⟨front, b, rest, message, he, ?_, ?_, rfl, rfl⟩
      · intro a ha
        exact named a (by rw [he]; exact List.mem_append_left _ ha) (hs a ha)
      · have hbm : b ∈ plan.trace := by
          rw [he]
          exact List.mem_append_right _ List.mem_cons_self
        apply (Domain.standard_has (hb b hbm)).2.mp
        rw [Action.fails, hm]
  · rw [hn, he]
    exact .inl ⟨List.forall_mem_nil _, rfl, rfl⟩

/-- The choice is bound to a variable, and its first branch leads to nothing. -/
def bindBeforeNeed : Program :=
  .block [.bind "x" (.control .or [.call "Put" [("value", .const (.bool false))],
      .block [.call "Inc" [("ms", .const (.int 3))], .call "Put" [("value", .const (.bool true))]]]),
    .call "Sleep" [("time", .const (.int 5))], .call "Need" [("value", .const (.bool true))]]

theorem run_plan_as_foreseen_bindBeforeNeed :
    bindBeforeNeed.validate = .ok () ∧
    ∃ plan, bindBeforeNeed.plan (Domain.standard 100 .delivery) none {} = .ok (some plan) ∧
      plan.trace.map (·.record.name) = ["Inc", "Put", "Sleep", "Need"] ∧
      ((control .plan [bindBeforeNeed]).run Setting.standard {}).result =
        .ok { facts := plan.state.facts } ∧
      ((control .plan [bindBeforeNeed]).run Setting.standard {}).history =
        recordsOf plan.trace := by
  have hv : bindBeforeNeed.validate = .ok () := by decide
  obtain ⟨plan, hp, hn⟩ : ∃ plan, bindBeforeNeed.plan (Domain.standard 100 .delivery) none {} = .ok (some plan) ∧
      plan.trace.map (·.record.name) = ["Inc", "Put", "Sleep", "Need"] :=
    Plan.exists_of_map (fun plan => plan.trace.map (·.record.name)) (by cbv)
  refine ⟨hv, plan, hp, hn, ?_⟩
  obtain ⟨-, hr, hh⟩ | ⟨front, b, rest, message, ht, -, hb, -⟩ := run_plan_as_foreseen hv hp
  · exact ⟨hr, hh⟩
  · have hm : "Fail" ∈ plan.trace.map (·.record.name) := by
      rw [ht, ← hb]
      exact List.mem_map_of_mem (List.mem_append_right front List.mem_cons_self)
    rw [hn] at hm
    exact absurd hm (by decide)

end Program

end Agenda
