import Mathlib
import Agenda.Proofs.PlanBindings

/-!
# What a transition of a plan does

Whatever a program looks like, each of its successors comes about by one action at most. The state after it is made by
the effect of this action, if there is one, and by bindings of the program that store null. A transition without an
action is one that comes to the end of a program that could have ended before, or one that makes bindings. So a program
without bindings that may not end yet goes on only by an action.
-/

namespace Agenda

set_option autoImplicit false

def BoundAction.afterAll (s : State) (acts : List BoundAction) : State := acts.foldl (fun u b => b.action.effect u) s

namespace State

def bindNulls (s : State) (names : List String) : State := names.foldl (fun u name => u.bindVar name .null) s

theorem bindNulls_concat (s : State) (names : List String) (name : String) :
    s.bindNulls (names ++ [name]) = (s.bindNulls names).bindVar name .null := by
  rw [bindNulls, List.foldl_append]
  rfl

theorem vars_bindNulls_congr {s t : State} (h : s.vars = t.vars) (names : List String) :
    (s.bindNulls names).vars = (t.bindNulls names).vars := by
  induction names using List.reverseRecOn with
  | nil => exact h
  | append_singleton names name ih =>
    rw [bindNulls_concat, bindNulls_concat]
    exact congrArg (Fields.insert · name .null) ih

end State

namespace Successor

theorem planStep_bound (t : Successor) (var : String) : (t.bound var).planStep = t.planStep := by
  unfold Successor.bound
  split <;> rfl

theorem updates_bound_eq_nil {t : Successor} {var : String} (h : (t.bound var).updates = []) :
    t.continuation ≠ none ∧ t.updates = [] := by
  unfold Successor.bound at h
  split at h
  · rename_i init hc
    rw [hc]
    exact ⟨Option.some_ne_none init, h⟩
  · exact absurd h (List.append_ne_nil_of_right_ne_nil _ (List.cons_ne_nil _ _))

/-- The successor is made by its actions and by bindings of the program that store null. -/
structure Made (s : State) (p : Program) (t : Successor) : Prop where
  result : t.result = none
  state : ∃ names, (∀ name ∈ names, p.binds name = true) ∧
    t.state = (BoundAction.afterAll s t.planStep).bindNulls names

namespace Made

variable {s : State} {p q : Program} {t : Successor}

theorem finished (s : State) (p : Program) : (finished s).Made s p :=
  ⟨rfl, [], List.forall_mem_nil _, rfl⟩

theorem mono (h : t.Made s q) (hb : ∀ name, q.binds name = true → p.binds name = true) : t.Made s p := by
  obtain ⟨hr, names, hn, hs⟩ := h
  exact ⟨hr, names, fun name hm => hb name (hn name hm), hs⟩

theorem before (h : t.Made s p) (rest : List Program) : (t.before rest).Made s p := ⟨h.result, h.state⟩

theorem bound (h : t.Made s p) (var : String) : (t.bound var).Made s (.bind var p) := by
  have hb : ∀ name, p.binds name = true → (Program.bind var p).binds name = true := by
    intro name hn
    rw [Program.binds, hn, Bool.or_true]
  obtain ⟨hr, names, hn, hs⟩ := h.mono hb
  unfold Successor.bound
  split
  · exact ⟨hr, names, hn, hs⟩
  · -- there is no result offline, so null is bound
    refine ⟨rfl, names ++ [var], List.forall_mem_append.mpr ⟨hn, List.forall_mem_singleton.mpr ?_⟩, ?_⟩
    · rw [Program.binds, beq_self_eq_true, Bool.true_or]
    · rw [hr, Option.getD_none, State.bindNulls_concat, ← hs]

end Made

end Successor

namespace Program

variable {d : Domain} {s : State} {p q : Program} {ts : List Successor} {t : Successor}

theorem binds_block_of_rest {var : String} {rest : List Program} (h : (block rest).binds var = true) :
    (block (p :: rest)).binds var = true := by
  obtain ⟨q, hq, hb⟩ := (binds_block_iff var rest).mp h
  exact (binds_block_iff var _).mpr ⟨q, List.mem_cons_of_mem p hq, hb⟩

theorem binds_block_of_first {var : String} {rest : List Program} (h : p.binds var = true) :
    (block (p :: rest)).binds var = true :=
  (binds_block_iff var _).mpr ⟨p, List.mem_cons_self, h⟩

theorem binds_consequent {var : String} {condition : Expr} {alternate : Option Program} (h : p.binds var = true) :
    (branch condition p alternate).binds var = true := by
  cases alternate with
  | none => rwa [binds]
  | some q => rw [binds, h, Bool.true_or]

theorem binds_alternate {var : String} {condition : Expr} (h : q.binds var = true) :
    (branch condition p (some q)).binds var = true := by
  rw [binds, h, Bool.or_true]

theorem Leads.made (h : Leads d s p t) : t.Made s p := by
  induction h with
  | empty | pass _ _ | test _ | done => exact .finished s _
  | skip _ _ ih => exact ih.mono fun _ => binds_block_of_rest
  | before rest _ _ ih => exact (ih.before rest).mono fun _ => binds_block_of_first
  | consequent _ _ _ ih => exact ih.mono fun _ => binds_consequent
  | alternate _ _ _ ih => exact ih.mono fun _ => binds_alternate
  | call _ _ => exact ⟨rfl, [], List.forall_mem_nil _, rfl⟩
  | bind var _ ih => exact ih.bound var
  | choice hm _ ih => exact ih.mono fun _ => binds_control_of_mem hm .or
  | plan _ ih => exact ih.mono fun _ => binds_control_of_mem List.mem_cons_self .plan

/-- A transition that does nothing, neither an action nor a binding, is the end of a program that may end. -/
theorem Leads.eq_finished (h : Leads d s p t) (ha : t.planStep = []) (hu : t.updates = []) :
    t = .finished s ∧ p.isFinal s ≠ .ok false := by
  induction h with
  | empty | done => exact ⟨rfl, by rintro ⟨⟩⟩
  | pass p hc =>
    rw [isFinal_pass hc]
    exact ⟨rfl, by rintro ⟨⟩⟩
  | test hc =>
    rw [isFinal, hc]
    exact ⟨rfl, by rintro ⟨⟩⟩
  | skip hp _ ih =>
    rw [isFinal_block_cons, hp]
    exact ih ha hu
  | before rest hp _ ih => exact absurd hp (ih ha hu).2
  | consequent alternate hc _ ih =>
    rw [isFinal_consequent hc]
    exact ih ha hu
  | alternate p hc _ ih =>
    rw [isFinal_alternate hc]
    exact ih ha hu
  | call _ _ => cases ha
  | @bind init t var _ ih =>
    -- a binding is made when nothing remains, and before that the initialiser has done something
    rw [Successor.planStep_bound] at ha
    obtain ⟨hr, hn⟩ := Successor.updates_bound_eq_nil hu
    rw [(ih ha hn).1] at hr
    exact absurd rfl hr
  | choice hm _ ih =>
    obtain ⟨he, hf⟩ := ih ha hu
    exact ⟨he, fun hn => hf (forall_of_anyFinal hn _ hm)⟩
  | plan _ ih =>
    rw [isFinal_plan]
    exact ih ha hu

theorem Leads.updates_eq_nil (h : Leads d s p t) (hb : ∀ var, p.binds var ≠ true) : t.updates = [] := by
  induction h with
  | empty | pass _ _ | test _ | call _ _ | done => rfl
  | skip _ _ ih => exact ih fun var hv => hb var (binds_block_of_rest hv)
  | before rest _ _ ih => exact ih fun var hv => hb var (binds_block_of_first hv)
  | consequent _ _ _ ih => exact ih fun var hv => hb var (binds_consequent hv)
  | alternate _ _ _ ih => exact ih fun var hv => hb var (binds_alternate hv)
  | bind var _ _ =>
    refine absurd ?_ (hb var)
    rw [binds, beq_self_eq_true, Bool.true_or]
  | choice hm _ ih => exact ih fun var hv => hb var (binds_control_of_mem hm .or hv)
  | plan _ ih => exact ih fun var hv => hb var (binds_control_of_mem List.mem_cons_self .plan hv)

/-- Without bindings, and where the program may not end yet, it takes an action to go on. -/
theorem Leads.planStep_ne_nil (h : Leads d s p t) (hb : ∀ var, p.binds var ≠ true) (hf : p.isFinal s = .ok false) :
    t.planStep ≠ [] :=
  fun ha => (h.eq_finished ha (h.updates_eq_nil hb)).2 hf

mutual
theorem exists_isFinal (d : Domain) (s : State) :
    ∀ (p : Program) {ts : List Successor}, p.successors d s = .ok ts → ∃ final, p.isFinal s = .ok final
  | .block ps, _, h => exists_allFinal d s ps (by simpa only [successors] using h)
  | .branch condition p none, ts, h => by
    rw [successors] at h
    obtain ⟨taken, hc, h⟩ := Except.exists_of_bind_eq_ok h
    cases taken with
    | true =>
      rw [isFinal_consequent hc]
      exact exists_isFinal d s p h
    | false => exact ⟨true, isFinal_pass hc p⟩
  | .branch condition p (some q), ts, h => by
    rw [successors] at h
    obtain ⟨taken, hc, h⟩ := Except.exists_of_bind_eq_ok h
    cases taken with
    | true =>
      rw [isFinal_consequent hc]
      exact exists_isFinal d s p h
    | false =>
      rw [isFinal_alternate hc]
      exact exists_isFinal d s q h
  | .test condition, ts, h => by
    rw [successors] at h
    obtain ⟨taken, hc, -⟩ := Except.exists_of_bind_eq_ok h
    exact ⟨taken, hc⟩
  | .call _ _, _, _ => ⟨false, rfl⟩
  | .bind _ _, _, _ => ⟨false, rfl⟩
  | .control .or ps, _, h => exists_anyFinal d s ps (by simpa only [successors] using h)
  | .control .plan [body], _, h => by
    rw [isFinal_plan]
    exact exists_isFinal d s body (by simpa only [successors] using h)
  | .control .plan [], _, h => by cases h
  | .control .plan (_ :: _ :: _), _, h => by cases h
  | .control .conc _, _, h => by cases h
  | .control .either _, _, h => by cases h
  | .done, _, _ => ⟨true, rfl⟩
  | .blocked, _, h => by cases h

theorem exists_allFinal (d : Domain) (s : State) :
    ∀ (ps : List Program) {ts : List Successor}, blockSuccessors d s ps = .ok ts → ∃ final, allFinal s ps = .ok final
  | [], _, _ => ⟨true, rfl⟩
  | p :: rest, ts, h => by
    rw [blockSuccessors] at h
    obtain ⟨final, hf, h⟩ := Except.exists_of_bind_eq_ok h
    rw [allFinal, hf]
    cases final with
    | true => exact exists_allFinal d s rest h
    | false => exact ⟨false, rfl⟩

theorem exists_anyFinal (d : Domain) (s : State) :
    ∀ (ps : List Program) {ts : List Successor}, choiceSuccessors d s ps = .ok ts → ∃ final, anyFinal s ps = .ok final
  | [], _, _ => ⟨false, rfl⟩
  | p :: rest, ts, h => by
    rw [choiceSuccessors] at h
    obtain ⟨us, hu, h⟩ := Except.exists_of_bind_eq_ok h
    obtain ⟨vs, hv, -⟩ := Except.exists_of_bind_eq_ok h
    obtain ⟨final, hf⟩ := exists_isFinal d s p hu
    rw [anyFinal, hf]
    cases final with
    | true => exact ⟨true, rfl⟩
    | false => exact exists_anyFinal d s rest hv
end

theorem Leads.vars_afterAll (h : Leads d s p t) (hd : ∀ b, d.Has b → b.action.FactsOnly) :
    (BoundAction.afterAll s t.planStep).vars = s.vars := by
  obtain ⟨he, -⟩ | ⟨b, hb, -, he, -⟩ := h.planStep_cases
  · rw [he]
    rfl
  · rw [he]
    exact (hd b hb).vars s

/-- A successor comes about by one action at most. With an action, that is possible in the state before and the facts
are those of its effect; without one, the facts stay. The variables are those that the action leaves, with some
variables that the program binds set to null; standard actions leave all variables as they are. And a program that has
no bindings and may not end yet has only successors with an action. -/
theorem successor_by_one_action (h : p.successors d s = .ok ts) (ht : t ∈ ts) :
    t.planStep.length ≤ 1 ∧
    (∀ b ∈ t.planStep, b.action.possible s = true ∧ t.state.facts = (b.action.effect s).facts) ∧
    (t.planStep = [] → t.state.facts = s.facts) ∧
    (∃ names, (∀ name ∈ names, p.binds name = true) ∧
      t.state.vars = ((BoundAction.afterAll s t.planStep).bindNulls names).vars ∧
      ∀ latency roads, d = Domain.standard latency roads → t.state.vars = (s.bindNulls names).vars) ∧
    ((∀ name, p.binds name = false) → p.isFinal s ≠ .ok true → t.planStep.length = 1) := by
  have hl := leads_of_mem_successors d s p h t ht
  have hvars : ∃ names, (∀ name ∈ names, p.binds name = true) ∧
      t.state.vars = ((BoundAction.afterAll s t.planStep).bindNulls names).vars ∧
      ∀ latency roads, d = Domain.standard latency roads → t.state.vars = (s.bindNulls names).vars := by
    obtain ⟨-, names, hn, hs⟩ := hl.made
    refine ⟨names, hn, by rw [← hs], ?_⟩
    rintro latency roads rfl
    rw [hs]
    exact State.vars_bindNulls_congr (hl.vars_afterAll fun b hb => (Domain.standard_has hb).1) names
  have hacts : (∀ name, p.binds name = false) → p.isFinal s ≠ .ok true → t.planStep ≠ [] := by
    intro hb hn
    obtain ⟨final, hf⟩ := exists_isFinal d s p h
    cases final with
    | true => exact absurd hf hn
    | false => exact hl.planStep_ne_nil (fun name => Bool.eq_false_iff.mp (hb name)) hf
  obtain ⟨he, hf⟩ | ⟨b, -, hp, he, hf⟩ := hl.planStep_cases
  · rw [he] at hvars hacts ⊢
    exact ⟨Nat.zero_le 1, List.forall_mem_nil _, fun _ => hf, hvars, fun hb hn => absurd rfl (hacts hb hn)⟩
  · rw [he] at hvars ⊢
    exact ⟨le_rfl, List.forall_mem_singleton.mpr ⟨hp, hf⟩, fun hn => absurd hn (List.cons_ne_nil b []), hvars,
      fun _ _ => rfl⟩

/-- A fact is set, or nothing is done, and the result is bound. -/
def bindChoice : Program :=
  .bind "x" (.control .or [.call "Put" [("value", .const (.int 1))], .test (.const (.bool true))])

/-- A fact is set, or a condition is asked for that does not hold. -/
def putOrNothing : Program := .control .or [.call "Put" [("value", .const (.int 1))], .test (.const (.bool false))]

/-- One successor with an action and one without, and a program that goes on by an action only. -/
theorem successor_by_one_action_choices :
    (∃ ts, bindChoice.successors (Domain.standard 100 .delivery) { vars := [("y", .int 2)] } = .ok ts ∧
      ts.map (·.planStep.length) = [1, 0] ∧
      ∀ t ∈ ts, ∃ names, (∀ name ∈ names, bindChoice.binds name = true) ∧
        t.state.vars = (State.bindNulls { vars := [("y", .int 2)] } names).vars) ∧
    ∃ ts, putOrNothing.successors (Domain.standard 100 .delivery) {} = .ok ts ∧ ts.length = 1 ∧
      ∀ t ∈ ts, t.planStep.length = 1 := by
  constructor
  · have hs : (bindChoice.successors (Domain.standard 100 .delivery) { vars := [("y", .int 2)] }).toOption.map
        (·.map (·.planStep.length)) = some [1, 0] := by cbv
    cases h : bindChoice.successors (Domain.standard 100 .delivery) { vars := [("y", .int 2)] } with
    | error e =>
      rw [h] at hs
      cases hs
    | ok ts =>
      rw [h] at hs
      refine ⟨ts, rfl, Option.some.inj hs, fun t ht => ?_⟩
      obtain ⟨-, -, -, ⟨names, hn, -, hv⟩, -⟩ := successor_by_one_action h ht
      exact ⟨names, hn, hv 100 .delivery rfl⟩
  · have hs : (putOrNothing.successors (Domain.standard 100 .delivery) {}).toOption.map (·.length) = some 1 := by cbv
    cases h : putOrNothing.successors (Domain.standard 100 .delivery) {} with
    | error e =>
      rw [h] at hs
      cases hs
    | ok ts =>
      rw [h] at hs
      refine ⟨ts, rfl, Option.some.inj hs, fun t ht => ?_⟩
      exact (successor_by_one_action h ht).2.2.2.2 (fun _ => rfl) (by rintro ⟨⟩)

end Program

end Agenda
