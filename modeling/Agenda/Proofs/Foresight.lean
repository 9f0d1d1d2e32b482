import Mathlib
import Agenda.Proofs.OfflineFailures
import Agenda.Proofs.Prediction

/-!
# Straight programs run as planned

A program of blocks, conditions, tests and calls leaves nothing to choose: in every state it has one successor at most.
Planning it follows the same way as running it, the one over effects alone and the other one over executions. So both
come to the same end, unless an execution fails. Where a run fails because a condition does not hold or an action is
impossible, planning finds nothing; every other failure it meets as well.
-/

namespace Agenda

set_option autoImplicit false

/-- Whether planning goes without a plan where a run has the failure, instead of failing itself. -/
def Failure.prunes : Failure → Bool
  | .assertionFailed _ => true
  | .noTransition _ => true
  | _ => false

theorem Failure.prunes_of_eval {e : Failure} (h : ∃ error, e = .eval error) : e.prunes = false := by
  obtain ⟨error, rfl⟩ := h
  rfl

theorem Plan.first_singleton {α : Type} (search : α → Except Failure (Option Plan)) (a : α) :
    first search [a] = search a := by
  rw [first]
  cases search a with
  | error e => rfl
  | ok found =>
    cases found with
    | none => rfl
    | some plan => rfl

namespace Program

mutual
def isStraight (admits : String → Bool) : Program → Bool
  | .block statements => areStraight admits statements
  | .branch _ consequent none => consequent.isStraight admits
  | .branch _ consequent (some alternate) => consequent.isStraight admits && alternate.isStraight admits
  | .test _ => true
  | .call name _ => admits name
  | .bind _ _ => false
  | .control _ _ => false
  | .done => false
  | .blocked => false
termination_by structural p => p

def areStraight (admits : String → Bool) : List Program → Bool
  | [] => true
  | p :: rest => p.isStraight admits && areStraight admits rest
termination_by structural ps => ps
end

variable {admits : String → Bool} {d : Domain} {s : State} {p q : Program}

theorem isStraight_block_cons (rest : List Program) :
    (block (p :: rest)).isStraight admits = true ↔
      p.isStraight admits = true ∧ (block rest).isStraight admits = true := by
  rw [isStraight, areStraight, Bool.and_eq_true, isStraight]

theorem Enters.isStraight (h : p.Enters s q) (hp : p.isStraight admits = true) : q.isStraight admits = true := by
  cases h with
  | consequent _ alternate _ =>
    cases alternate with
    | none => rwa [Program.isStraight] at hp
    | some r =>
      rw [Program.isStraight, Bool.and_eq_true] at hp
      exact hp.1
  | alternate _ _ _ =>
    rw [Program.isStraight, Bool.and_eq_true] at hp
    exact hp.2
  | first _ _ => cases hp

theorem Enters.successors_eq (h : p.Enters s q) (hp : p.isStraight admits = true) :
    p.successors d s = q.successors d s := by
  cases h with
  | consequent _ alternate hc => exact successors_consequent hc q alternate
  | alternate r _ hc => exact successors_alternate hc r q
  | first _ _ => cases hp

theorem Passes.successors_eq (h : p.Passes s) : p.successors d s = .ok [.finished s] := by
  cases h with
  | empty => rfl
  | pass q hc => exact successors_pass hc q
  | test hc =>
    rw [successors, hc]
    rfl
  | done => rfl

theorem successors_block_skip (hf : p.isFinal s = .ok true) (rest : List Program) :
    (block (p :: rest)).successors d s = (block rest).successors d s := by
  rw [successors, blockSuccessors, hf, successors]
  rfl

theorem successors_block_before (hf : p.isFinal s = .ok false) (rest : List Program) :
    (block (p :: rest)).successors d s = (p.successors d s).map (List.map (.before rest)) := by
  rw [successors, blockSuccessors, hf]
  cases p.successors d s with
  | error e => rfl
  | ok ts => rfl

end Program

def Frame.Straight (admits : String → Bool) : Frame → Prop
  | .before rest => (Program.block rest).isStraight admits = true
  | .bind _ => False

namespace Frame

variable {admits : String → Bool} {frames : List Frame}

theorem state_resume_of_straight (h : ∀ f ∈ frames, f.Straight admits) (o : Outcome) :
    (resume frames o).state = o.state := by
  suffices ha : ∀ t : Successor, (frames.foldl apply t).state = t.state from ha _
  induction frames with
  | nil => exact fun t => rfl
  | cons f rest ih =>
    intro t
    rw [List.forall_mem_cons] at h
    rw [List.foldl_cons, ih h.2]
    cases f with
    | before ps => rfl
    | bind var => exact h.1.elim

theorem planStep_resume (frames : List Frame) (o : Outcome) : (resume frames o).planStep = [] := by
  induction frames using List.reverseRecOn with
  | nil => rfl
  | append_singleton frames f ih =>
    rw [resume_concat]
    cases f with
    | before rest => exact ih
    | bind var =>
      rw [apply, Successor.bound]
      split
      · exact ih
      · exact ih

theorem isStraight_residual (h : ∀ f ∈ frames, f.Straight admits) {p : Program} (hp : residual frames = some p) :
    p.isStraight admits = true := by
  induction frames using List.reverseRecOn generalizing p with
  | nil => cases hp
  | append_singleton frames f ih =>
    rw [residual_concat] at hp
    have hf := h f (List.mem_append_right _ List.mem_cons_self)
    cases f with
    | bind var => exact hf.elim
    | before rest =>
      rw [wrap] at hp
      cases hr : residual frames with
      | none =>
        rw [hr] at hp
        cases rest with
        | nil => cases hp
        | cons q rest =>
          cases hp
          exact hf
      | some q =>
        rw [hr] at hp
        cases hp
        exact (Program.isStraight_block_cons rest).mpr
          ⟨ih (fun g hg => h g (List.mem_append_left _ hg)) hr, hf⟩

end Frame

/-- A launch inside of no construct, beside the offline successors of its program: it fails at once, or passes at once,
or dispatches the action of the only successor. -/
inductive Launch.Foreseen (s : State) (σ : World) : Launch → Except Failure (List Successor) → Prop
  | refused {frames : List Frame} {e : Failure} : e.prunes = false →
      Foreseen s σ ⟨frames, .settled (.error e), σ⟩ (.error e)
  | pruned {frames : List Frame} {e : Failure} : e.prunes = true →
      Foreseen s σ ⟨frames, .settled (.error e), σ⟩ (.ok [])
  | passed {frames : List Frame} :
      Foreseen s σ ⟨frames, .settled (.ok { state := s }), σ⟩ (.ok [Frame.resume frames { state := s }])
  | started {frames : List Frame} {b : BoundAction} : b.action.possible s = true → b.action.fails = false →
      Foreseen s σ ⟨frames, (Work.perform [] [] [] s b σ).1, (Work.perform [] [] [] s b σ).2⟩
        (.ok [{ Frame.resume frames { state := b.action.effect s } with planStep := [b] }])

theorem Launch.Foreseen.before {s : State} {σ : World} {l : Launch} {r : Except Failure (List Successor)}
    (h : l.Foreseen s σ r) (rest : List Program) :
    (l.within (.before rest)).Foreseen s σ (r.map (List.map (.before rest))) := by
  cases h with
  | refused he => exact .refused he
  | pruned he => exact .pruned he
  | @passed frames =>
    have hr := Frame.resume_concat frames (.before rest) { state := s }
    have hp : Foreseen s σ ⟨frames ++ [.before rest], _, σ⟩ _ := .passed
    rwa [hr] at hp
  | @started frames b hb hn =>
    have hr := Frame.resume_concat frames (.before rest) { state := b.action.effect s }
    have hp : Foreseen s σ ⟨frames ++ [.before rest], _, _⟩ _ := .started hb hn
    rwa [hr] at hp

def Domain.Dependable (d : Domain) (admits : String → Bool) : Prop :=
  ∀ {s : State} {name : String} {args : Fields Expr} {b : BoundAction}, admits name = true →
    d.resolve s name args = .ok b → b.action.fails = false

namespace Program

variable {admits : String → Bool} {s : State} {p q : Program}

theorem Refuses.foreseen {c : Setting} {e : Failure} (h : p.Refuses c s e) (hp : p.isStraight admits = true)
    (σ : World) : (Launch.failed e σ).Foreseen s σ (p.successors c.domain s) := by
  cases h with
  | @condition condition _ q alternate hc =>
    have hs : (branch condition q alternate).successors c.domain s = .error e := by
      cases alternate <;> rw [successors, hc] <;> rfl
    rw [hs]
    exact .refused (Failure.prunes_of_eval (Expr.decide_eq_error hc))
  | @test condition _ hc =>
    rw [successors, hc]
    exact .refused (Failure.prunes_of_eval (Expr.decide_eq_error hc))
  | assertion hc =>
    rw [successors, hc]
    exact .pruned rfl
  | call hr =>
    rw [successors, hr]
    apply Launch.Foreseen.refused
    obtain he | ⟨error, rfl⟩ := Domain.resolve_eq_error hr
    · exact Failure.prunes_of_eval he
    · rfl
  | statement rest hf =>
    rw [successors, blockSuccessors, hf]
    exact .refused (Failure.prunes_of_eval (isFinal_eq_error s _ hf))
  | choice => cases hp
  | search _ _ => cases hp
  | planless _ _ => cases hp
  | bodiless => cases hp
  | branches _ _ => cases hp
  | blocked => cases hp

theorem foreseen_call {c : Setting} {name : String} {args : Fields Expr} {b : BoundAction}
    (hr : c.domain.resolve s name args = .ok b) (hn : b.action.fails = false) (σ : World) :
    Launch.Foreseen s σ ⟨[], (Work.perform [] [] [] s b σ).1, (Work.perform [] [] [] s b σ).2⟩
      ((call name args).successors c.domain s) := by
  have hs : (call name args).successors c.domain s =
      if b.action.possible s then .ok [{ continuation := none, state := b.action.effect s, planStep := [b] }]
      else .ok [] := by
    rw [successors, hr]
    rfl
  rw [hs]
  cases hp : b.action.possible s with
  | true => exact .started hp hn
  | false =>
    have hw : Work.perform [] [] [] s b σ = (.settled (.error (.noTransition (.impossible b.record))), σ) := by
      simp only [Work.perform, List.any_nil, hp, Bool.not_false, Bool.false_eq_true, if_false, if_true]
    rw [hw]
    exact .pruned rfl

theorem foreseen_cases {c : Setting} (hd : c.domain.Dependable admits) (s : State) :
    DispatchCases c s
      (fun p scopes σ l => p.isStraight admits = true → scopes = [] →
        (∀ f ∈ l.frames, f.Straight admits) ∧ l.Foreseen s σ (p.successors c.domain s))
      (fun _ _ _ _ _ _ _ => True) where
  failed p _ σ _ h hp _ := ⟨List.forall_mem_nil _, h.foreseen hp σ⟩
  finished p _ σ h _ _ := by
    rw [h.successors_eq]
    exact ⟨List.forall_mem_nil _, .passed⟩
  call name args scopes σ b hr hp hs := by
    rw [isStraight] at hp
    subst hs
    exact ⟨List.forall_mem_nil _, foreseen_call hr (hd hp hr) σ⟩
  plan _ _ _ _ _ _ hp _ := by cases hp
  enter p q _ _ l he h hp hs := by
    rw [he.successors_eq hp]
    exact h (he.isStraight hp) hs
  skip p rest _ _ l hf h hp hs := by
    rw [successors_block_skip hf]
    exact h ((isStraight_block_cons rest).mp hp).2 hs
  before p rest _ σ l hf h hp hs := by
    rw [isStraight_block_cons] at hp
    obtain ⟨hl, hr⟩ := h hp.1 hs
    rw [successors_block_before hf]
    refine ⟨?_, hr.before rest⟩
    intro f hm
    rcases List.mem_append.mp hm with hm | hm
    · exact hl f hm
    · obtain rfl := List.mem_singleton.mp hm
      exact hp.2
  bind _ _ _ _ _ _ hp _ := by cases hp
  decided _ _ _ _ _ _ _ _ hp _ := by cases hp
  group _ _ _ _ _ _ _ _ _ _ hp _ := by cases hp
  nil _ _ _ _ _ := trivial
  done _ _ _ _ _ _ _ _ _ _ := trivial
  mark _ _ _ _ _ _ _ _ _ _ _ := trivial
  start _ _ _ _ _ _ _ _ _ _ _ _ _ := trivial

/-- How a transition ends and what it dispatches, beside the offline successors. -/
inductive Foretold : Except Failure (List Successor) → Except Failure Successor → List BoundAction → Prop
  | refused {e : Failure} : e.prunes = false → Foretold (.error e) (.error e) []
  | pruned {e : Failure} : e.prunes = true → Foretold (.ok []) (.error e) []
  | passed {t u : Successor} {acts : List BoundAction} : u.continuation = t.continuation → u.state = t.state →
      acts = t.planStep → Foretold (.ok [t]) (.ok u) acts

variable {c : Setting} {σ : World}

theorem foretold_settle {l : Launch} {r : Except Failure (List Successor)} {allowance : Nat}
    (h : l.Foreseen s { allowance } r) (hf : ∀ f ∈ l.frames, f.Straight admits) :
    Foretold r ((Machine.settle c ⟨l.work, l.world⟩).outcome.map (Frame.resume l.frames))
      (Machine.settle c ⟨l.work, l.world⟩).world.dispatched := by
  cases h with
  | refused he =>
    rw [Machine.settle_of_settled rfl]
    exact .refused he
  | pruned he =>
    rw [Machine.settle_of_settled rfl]
    exact .pruned he
  | passed =>
    rw [Machine.settle_of_settled rfl]
    exact .passed rfl rfl (Frame.planStep_resume _ _).symm
  | @started frames b hb hn =>
    have hs : Machine.Enacts [b] (b.action.effect s) ⟨(Work.perform [] [] [] s b { allowance }).1, _⟩ :=
      Machine.enacts_perform (List.nil_append [b]) (List.forall_mem_nil _) (.cons hb (.nil _)) rfl rfl
    obtain ⟨he, outcome, ho⟩ := Machine.settle_progress (c := c) (fun m m' hm he hs => hs.enacts hm he)
      (fun m he hs => he.progress hs) _ hs
    generalize Machine.settle c _ = m at he ho ⊢
    cases he with
    | acting _ _ _ _ _ _ _ _ => cases ho
    | done _ hσ =>
      refine .passed ?_ ?_ hσ
      · exact (Frame.continuation_resume _ _).trans (Frame.continuation_resume _ _).symm
      · exact (Frame.state_resume_of_straight hf _).trans
          (Frame.state_resume_of_straight hf { state := b.action.effect s }).symm
    | @failed a _ _ _ front hl _ hm _ =>
      -- the one that fails would have to be the only action there is
      have ha : a ∈ [b] := hl ▸ List.mem_append_right front List.mem_cons_self
      obtain rfl := List.mem_singleton.mp ha
      rw [Action.fails, hm] at hn
      cases hn

theorem foretold_transition (hd : c.domain.Dependable admits) (hp : p.isStraight admits = true) (s : State)
    (hσ : σ.Regular) :
    ∃ acts, (p.transition c s σ).2.dispatched = σ.dispatched ++ acts ∧
      Foretold (p.successors c.domain s) (p.transition c s σ).1 acts ∧
      ∀ t q, (p.transition c s σ).1 = .ok t → t.continuation = some q → q.isStraight admits = true := by
  obtain ⟨heq, ⟨acts, hacts, hfresh⟩, -⟩ := transition_alike c s hσ (World.regular_initial σ.allowance) (.inl rfl)
  obtain ⟨hf, hl⟩ := (foreseen_cases hd s).dispatch p [] { allowance := σ.allowance } hp rfl
  have ht := foretold_settle (c := c) hl hf
  rw [← started, ← result_transition, ← world_transition, hfresh, ← heq] at ht
  refine ⟨acts, hacts, ht, ?_⟩
  intro t q hr hc
  rw [heq] at hr
  obtain ⟨o, -, rfl⟩ := transition_eq_ok hr
  rw [Frame.continuation_resume] at hc
  exact Frame.isStraight_residual hf hc

end Program

def Run.foreseen (r : Run) : Except Failure (Option Plan) :=
  match r.result with
  | .ok s => .ok (some ⟨r.world.dispatched, s⟩)
  | .error f => if f.failure.prunes then .ok none else .error f.failure

namespace Program

variable {admits : String → Bool} {c : Setting} {s : State} {p q : Program} {σ : World}

/-- The search and the run go the same way, from one transition to the next. -/
theorem search_eq_foreseen (hd : c.domain.Dependable admits) (hp : p.isStraight admits = true) (s : State) (depth : Nat)
    (hσ : σ.Regular) : p.search c.domain none s depth σ.dispatched = (p.drive c s σ).foreseen := by
  fun_induction drive c p s σ generalizing depth with
  | case1 p s σ e he =>
    rw [search_eq, he, Run.foreseen]
    simp only [Failure.prunes_of_eval (isFinal_eq_error s p he), Bool.false_eq_true, if_false]
  | case2 p s σ hf =>
    rw [search_eq, hf]
    rfl
  | case3 p s σ hf e τ ht =>
    obtain ⟨acts, -, hr, -⟩ := foretold_transition hd hp s hσ
    rw [ht] at hr
    rw [search_eq, hf, Run.foreseen]
    generalize p.successors c.domain s = r at hr
    cases hr with
    | refused he => simp only [Plan.exhausted, he, Bool.false_eq_true, if_false]
    | pruned he => simp only [Plan.exhausted, Plan.first, he, Bool.false_eq_true, if_false, if_true]
  | case4 p s σ hf u τ ht hc =>
    obtain ⟨acts, ha, hr, -⟩ := foretold_transition hd hp s hσ
    rw [ht] at ha hr
    rw [search_eq, hf, Run.foreseen]
    generalize p.successors c.domain s = r at hr
    cases hr with
    | @passed t _ _ hcon hst hacts =>
      simp only [Plan.exhausted, Bool.false_eq_true, if_false, Plan.first_singleton]
      rw [Successor.remaining, ← hcon, hc, Option.getD_none, search_eq, ← hacts, ← ha, hst]
      rfl
  | case5 p s σ hf u τ ht q hc ih =>
    obtain ⟨acts, ha, hr, hq⟩ := foretold_transition hd hp s hσ
    have hτ := regular_transition c p s hσ
    rw [ht] at ha hr hq hτ
    rw [search_eq, hf, ← ih (hq u q rfl hc) (depth + 1) hτ]
    generalize p.successors c.domain s = r at hr
    cases hr with
    | @passed t _ _ hcon hst hacts =>
      simp only [Plan.exhausted, Bool.false_eq_true, if_false, Plan.first_singleton]
      rw [Successor.remaining, ← hcon, hc, Option.getD_some, ← hacts, ← ha, hst]

theorem planValid_eq_foreseen (hd : c.domain.Dependable admits) (hl : c.planLimit = none)
    (hp : p.isStraight admits = true) (s : State) : p.planValid c s = (p.run c s).foreseen := by
  unfold planValid run
  split
  · rfl
  · rw [hl]
    exact search_eq_foreseen hd hp s 0 (World.regular_initial _)

theorem dependable_standard (latency : Nat) (roads : RoadMap) :
    (Domain.standard latency roads).Dependable (· != "Fail") := by
  intro s name args b hn hr
  obtain ⟨-, hb⟩ := Domain.standard_has ⟨s, name, args, hr⟩
  obtain ⟨values, build, -, -, -, he⟩ := Domain.resolve_eq_ok hr
  rw [he] at hb
  rw [Bool.eq_false_iff]
  intro hf
  exact absurd (hb.mp hf) (bne_iff_ne.mp hn)

/-- Planning and running agree on programs of blocks, conditions, tests and calls, none of them a call to fail. A plan
is found just when the run succeeds, and it foresees the state at its end and its history; no plan is found just when
the run fails at a condition that does not hold or at an action that is impossible; and planning fails just when the run
fails otherwise, both with the same failure. -/
theorem straight_plan_iff_run {latency : Nat} {roads : RoadMap} {c : Setting}
    (hd : c.domain = Domain.standard latency roads) (hl : c.planLimit = none) {p : Program}
    (hp : p.isStraight (· != "Fail") = true) (s : State) :
    ((∃ plan, p.planValid c s = .ok (some plan)) ↔ ∃ t, (p.run c s).result = .ok t) ∧
    (∀ plan, p.planValid c s = .ok (some plan) →
      (p.run c s).result = .ok plan.state ∧ (p.run c s).history = recordsOf plan.trace) ∧
    (p.planValid c s = .ok none ↔ ∃ f, (p.run c s).result = .error f ∧ f.failure.prunes = true) ∧
    ∀ e, p.planValid c s = .error e ↔
      e.prunes = false ∧ ∃ f, (p.run c s).result = .error f ∧ f.failure = e := by
  have hs : c.domain.Dependable (· != "Fail") := hd ▸ dependable_standard latency roads
  have hh : (p.run c s).history = recordsOf (p.run c s).world.dispatched := World.history_eq _
  rw [planValid_eq_foreseen hs hl hp s, Run.foreseen, hh]
  cases (p.run c s).result with
  | ok t =>
    refine ⟨⟨fun _ => ⟨t, rfl⟩, fun _ => ⟨_, rfl⟩⟩, ?_, ⟨?_, ?_⟩, fun e => ⟨?_, ?_⟩⟩
    · rintro plan ⟨⟩
      exact ⟨rfl, rfl⟩
    · rintro ⟨⟩
    · rintro ⟨f, ⟨⟩, -⟩
    · rintro ⟨⟩
    · rintro ⟨-, f, ⟨⟩, -⟩
  | error f =>
    dsimp only
    cases hf : f.failure.prunes with
    | true =>
      rw [if_pos rfl]
      refine ⟨⟨?_, ?_⟩, ?_, ⟨fun _ => ⟨f, rfl, hf⟩, fun _ => rfl⟩, fun e => ⟨?_, ?_⟩⟩
      · rintro ⟨plan, ⟨⟩⟩
      · rintro ⟨t, ⟨⟩⟩
      · rintro plan ⟨⟩
      · rintro ⟨⟩
      · rintro ⟨he, g, ⟨⟩, rfl⟩
        rw [hf] at he
        cases he
    | false =>
      rw [if_neg Bool.false_ne_true]
      refine ⟨⟨?_, ?_⟩, ?_, ⟨?_, ?_⟩, fun e => ⟨?_, ?_⟩⟩
      · rintro ⟨plan, ⟨⟩⟩
      · rintro ⟨t, ⟨⟩⟩
      · rintro plan ⟨⟩
      · rintro ⟨⟩
      · rintro ⟨g, ⟨⟩, hg⟩
        rw [hf] at hg
        cases hg
      · rintro ⟨⟩
        exact ⟨hf, f, rfl, rfl⟩
      · rintro ⟨-, g, ⟨⟩, rfl⟩
        rfl

/-- Sets a fact after a condition, and waits; how the program ends lies with its last statement. -/
def putThen (last : Program) : Program :=
  .block [.branch (.const (.bool true)) (.call "Put" [("value", .const (.int 1)), ("ms", .const (.int 3))])
      (some (.call "Inc" [])), .call "Sleep" [("time", .const (.int 2))], last]

/-- A plan that comes true, one that is not there, and a call of no action. -/
theorem straight_plan_iff_run_putThen :
    (∃ plan, (putThen (.call "Need" [("value", .const (.int 1))])).planValid Setting.standard {} = .ok (some plan) ∧
      plan.trace.map (·.record.name) = ["Put", "Sleep", "Need"] ∧
      ((putThen (.call "Need" [("value", .const (.int 1))])).run Setting.standard {}).result = .ok plan.state ∧
      ((putThen (.call "Need" [("value", .const (.int 1))])).run Setting.standard {}).history = recordsOf plan.trace) ∧
    (∃ f, ((putThen (.test (.const (.bool false)))).run Setting.standard {}).result = .error f ∧
      f.failure.prunes = true) ∧
    ∃ f, ((putThen (.call "Nothing" [])).run Setting.standard {}).result = .error f ∧
      f.failure = .action (.unknown "Nothing") := by
  refine ⟨?_, ?_, ?_⟩
  · obtain ⟨-, hr, -, -⟩ := straight_plan_iff_run (c := Setting.standard) rfl rfl
      (p := putThen (.call "Need" [("value", .const (.int 1))])) (by decide) {}
    obtain ⟨plan, hp, hn⟩ : ∃ plan,
        (putThen (.call "Need" [("value", .const (.int 1))])).planValid Setting.standard {} =
        .ok (some plan) ∧ plan.trace.map (·.record.name) = ["Put", "Sleep", "Need"] :=
      Plan.exists_of_map (fun plan => plan.trace.map (·.record.name)) (by cbv)
    obtain ⟨hs, hh⟩ := hr plan hp
    exact ⟨plan, hp, hn, hs, hh⟩
  · obtain ⟨-, -, hr, -⟩ := straight_plan_iff_run (c := Setting.standard) rfl rfl
      (p := putThen (.test (.const (.bool false)))) (by decide) {}
    apply hr.mp
    cbv
  · obtain ⟨-, -, -, hr⟩ := straight_plan_iff_run (c := Setting.standard) rfl rfl
      (p := putThen (.call "Nothing" [])) (by decide) {}
    apply ((hr (.action (.unknown "Nothing"))).mp ?_).2
    cbv

end Program

end Agenda
