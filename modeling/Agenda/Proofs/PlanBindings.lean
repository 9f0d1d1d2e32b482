import Mathlib
import Agenda.Proofs.Prediction

/-!
# What a plan leaves of its bindings

While a program is planned its bindings are made, each with null, for there is no result yet. What is executed after
that is the list of actions alone. So a body that is run as a plan leaves all variables as they were before it, and what
its bindings would have bound is unknown to the statements after it.
-/

namespace Agenda

set_option autoImplicit false

namespace Program

mutual
def binds (var : String) : Program → Bool
  | .block statements => anyBinds var statements
  | .branch _ consequent none => consequent.binds var
  | .branch _ consequent (some alternate) => consequent.binds var || alternate.binds var
  | .bind name init => name == var || init.binds var
  | .control _ branches => anyBinds var branches
  | .test _ => false
  | .call _ _ => false
  | .done => false
  | .blocked => false
termination_by structural p => p

def anyBinds (var : String) : List Program → Bool
  | [] => false
  | p :: rest => p.binds var || anyBinds var rest
termination_by structural ps => ps
end

theorem anyBinds_iff (var : String) (ps : List Program) : anyBinds var ps = true ↔ ∃ p ∈ ps, p.binds var = true := by
  induction ps with
  | nil => simp [anyBinds]
  | cons p rest ih => simp [anyBinds, ih]

theorem binds_block_iff (var : String) (ps : List Program) :
    (block ps).binds var = true ↔ ∃ p ∈ ps, p.binds var = true := by
  rw [binds, anyBinds_iff]

theorem binds_control_of_mem {var : String} {ps : List Program} {p : Program} (h : p ∈ ps) (kind : Control)
    (hp : p.binds var = true) : (control kind ps).binds var = true := by
  rw [binds, anyBinds_iff]
  exact ⟨p, h, hp⟩

end Program

/-- What a successor of the program has of the variable: the value from before, or null from a binding. -/
structure Successor.Foresees (s : State) (p : Program) (var : String) (t : Successor) : Prop where
  result : t.result = none
  value : t.state.var? var = s.var? var ∨ p.binds var = true ∧ t.state.var? var = some .null
  rest : ∀ q, t.continuation = some q → q.binds var = true → p.binds var = true

namespace Successor.Foresees

variable {s : State} {p q : Program} {var : String} {t : Successor}

theorem of_vars_eq (hr : t.result = none) (hv : t.state.vars = s.vars) (hc : t.continuation = none) :
    t.Foresees s p var := by
  refine ⟨hr, .inl ?_, ?_⟩
  · rw [State.var?, State.var?, hv]
  · rw [hc]
    rintro q ⟨⟩

theorem mono (h : t.Foresees s q var) (hb : q.binds var = true → p.binds var = true) : t.Foresees s p var :=
  ⟨h.result, h.value.imp_right (And.imp_left hb), fun r hc hr => hb (h.rest r hc hr)⟩

theorem before (h : t.Foresees s p var) (rest : List Program) :
    (t.before rest).Foresees s (.block (p :: rest)) var := by
  have hp (hb : p.binds var = true) : (Program.block (p :: rest)).binds var = true :=
    (Program.binds_block_iff var _).mpr ⟨p, List.mem_cons_self, hb⟩
  refine ⟨h.result, h.value.imp_right (And.imp_left hp), ?_⟩
  intro r hr hb
  have hrest : ∀ u ∈ rest, u.binds var = true → (Program.block (p :: rest)).binds var = true := fun u hu hb =>
    (Program.binds_block_iff var _).mpr ⟨u, List.mem_cons_of_mem p hu, hb⟩
  rw [Successor.before] at hr
  simp only at hr
  cases hc : t.continuation with
  | none =>
    rw [hc] at hr
    cases rest with
    | nil => cases hr
    | cons q rest =>
      cases hr
      obtain ⟨u, hu, hub⟩ := (Program.binds_block_iff var _).mp hb
      exact hrest u hu hub
  | some q =>
    rw [hc] at hr
    cases hr
    obtain ⟨u, hu, hub⟩ := (Program.binds_block_iff var _).mp hb
    rcases List.mem_cons.mp hu with rfl | hu
    · exact hp (h.rest u hc hub)
    · exact hrest u hu hub

theorem bound (h : t.Foresees s p var) (name : String) : (t.bound name).Foresees s (.bind name p) var := by
  have hb (hp : p.binds var = true) : (Program.bind name p).binds var = true := by
    rw [Program.binds, hp, Bool.or_true]
  unfold Successor.bound
  split
  · rename_i init hc
    refine ⟨h.result, h.value.imp_right (And.imp_left hb), ?_⟩
    rintro q ⟨⟩ hq
    rw [Program.binds, Bool.or_eq_true] at hq ⊢
    exact hq.imp_right (h.rest init hc)
  · rename_i hc
    -- there is no result offline, so null is bound
    rw [h.result, Option.getD_none]
    refine ⟨rfl, ?_, ?_⟩
    · rcases eq_or_ne name var with rfl | hn
      · right
        refine ⟨?_, Fields.get?_insert_self _ _ _⟩
        rw [Program.binds, beq_self_eq_true, Bool.true_or]
      · have hi : (t.state.bindVar name .null).var? var = t.state.var? var := Fields.get?_insert_of_ne _ _ hn
        rw [hi]
        exact h.value.imp_right (And.imp_left hb)
    · simp only [hc]
      rintro q ⟨⟩

end Successor.Foresees

namespace Program

variable {d : Domain} {c : Setting} {s : State} {p body : Program} {plan : Plan}

theorem Leads.foresees (hd : ∀ b, d.Has b → b.action.FactsOnly) {t : Successor} (h : Leads d s p t) (var : String) :
    t.Foresees s p var := by
  induction h with
  | empty | pass _ _ | test _ | done => exact .of_vars_eq rfl rfl rfl
  | @skip p rest t _ _ ih =>
    apply ih.mono
    intro hb
    obtain ⟨u, hu, hub⟩ := (binds_block_iff var rest).mp hb
    exact (binds_block_iff var _).mpr ⟨u, List.mem_cons_of_mem p hu, hub⟩
  | before rest _ _ ih => exact ih.before rest
  | @consequent condition p t alternate _ _ ih =>
    apply ih.mono
    intro hb
    cases alternate with
    | none => rwa [binds]
    | some q => rw [binds, hb, Bool.true_or]
  | @alternate condition q t p _ _ ih =>
    apply ih.mono
    intro hb
    rw [binds, hb, Bool.or_true]
  | @call name args b hr _ => exact .of_vars_eq rfl ((hd b ⟨s, name, args, hr⟩).vars s) rfl
  | bind name _ ih => exact ih.bound name
  | choice hm _ ih => exact ih.mono (binds_control_of_mem hm .or)
  | plan _ ih => exact ih.mono (binds_control_of_mem List.mem_cons_self .plan)

theorem Chain.foresees (hd : ∀ b, d.Has b → b.action.FactsOnly) {places : List Nat} (h : Chain d p s places plan)
    (var : String) :
    plan.state.var? var = s.var? var ∨ p.binds var = true ∧ plan.state.var? var = some .null := by
  induction h with
  | stop _ => exact .inl rfl
  | @step p s ts t i places plan _ hs hi _ ih =>
    have ht := (leads_of_mem_successors d s p hs t (List.mem_of_getElem? hi)).foresees hd var
    have hr : t.remaining.binds var = true → p.binds var = true := by
      unfold Successor.remaining
      cases hc : t.continuation with
      | none => rintro ⟨⟩
      | some q => exact ht.rest q hc
    rcases ih with hv | ⟨hb, hv⟩
    · rcases ht.value with hv' | ⟨hb, hv'⟩
      · exact .inl (hv.trans hv')
      · exact .inr ⟨hb, hv.trans hv'⟩
    · exact .inr ⟨hr hb, hv⟩

theorem vars_drive_plan (hd : ∀ b, c.domain.Has b → b.action.FactsOnly)
    (h : body.plan c.domain c.planLimit s = .ok (some plan)) {t : State}
    (hr : ((control .plan [body]).drive c s c.initial).result = .ok t) : t.vars = s.vars := by
  obtain ⟨places, rest, hc, ht, -, -⟩ := answers_search _ _ body s 0 [] h
  obtain ⟨hb, u, hp, -⟩ := hc.performs hd
  rw [List.nil_append] at ht
  simp only [← ht] at hb hp
  have hu := hp.vars fun b hm => hd b (hb b hm)
  rw [drive_eq, isFinal_plan] at hr
  obtain hn | ⟨hn, -⟩ := exists_isFinal_of_plan h
  · rw [hn] at hr
    dsimp only at hr
    obtain ⟨v, -, hv, hcon, rfl, -⟩ | ⟨front, b, rest, message, -, -, -, hv, -⟩ := transition_plan h hp
    · rw [hv] at hr
      dsimp only at hr
      rw [hcon] at hr
      cases hr
      exact hu
    · rw [hv] at hr
      cases hr
  · rw [hn] at hr
    cases hr
    rfl

/-- A body that is run as a plan leaves the variables as they were. What was foreseen for a variable is this as well, or
it is null and the body has a binding of the variable. So all variables that are bound in the foreseen state are bound
after the run just when they all were bound before it. -/
theorem run_plan_binds_nothing {latency : Nat} {roads : RoadMap} {limit : Option Nat} {budget : Budget}
    (hv : body.validate = .ok ())
    (h : body.plan (Domain.standard latency roads) limit s = .ok (some plan)) {t : State}
    (hr : ((control .plan [body]).run ⟨Domain.standard latency roads, limit, budget⟩ s).result = .ok t) :
    t.vars = s.vars ∧
    (∀ var, plan.state.var? var = t.var? var ∨ body.binds var = true ∧ plan.state.var? var = some .null) ∧
    ((∀ var, (plan.state.var? var).isSome = true → (t.var? var).isSome = true) ↔
      ∀ var, (plan.state.var? var).isSome = true → (s.var? var).isSome = true) := by
  have hvp : (control .plan [body]).validate = .ok () := by
    simp only [validate, validateAll, hv]
    rfl
  have hd : ∀ b, (Domain.standard latency roads).Has b → b.action.FactsOnly := fun b hb => (Domain.standard_has hb).1
  rw [run_of_validate _ _ hvp] at hr
  have ht : t.vars = s.vars := vars_drive_plan hd h hr
  have hs : ∀ var, t.var? var = s.var? var := by
    intro var
    rw [State.var?, State.var?, ht]
  refine ⟨ht, ?_, ?_⟩
  · intro var
    obtain ⟨places, rest, hc, -, -, -⟩ := answers_search _ _ body s 0 [] h
    rw [hs]
    exact hc.foresees hd var
  · simp only [hs]

def bindCounts : Program :=
  .block [.bind "x" (.call "Inc" [("result", .const (.int 1))]), .bind "y" (.call "Inc" [("ms", .const (.int 3))])]

theorem run_plan_binds_nothing_bindCounts :
    bindCounts.validate = .ok () ∧
    ∃ plan t, bindCounts.plan (Domain.standard 100 .delivery) none { vars := [("x", .int 0)] } = .ok (some plan) ∧
      ((control .plan [bindCounts]).run Setting.standard { vars := [("x", .int 0)] }).result = .ok t ∧
      t.vars = [("x", .int 0)] ∧
      (∀ var, plan.state.var? var = t.var? var ∨ bindCounts.binds var = true ∧ plan.state.var? var = some .null) := by
  have hv : bindCounts.validate = .ok () := by decide
  obtain ⟨plan, hp, -⟩ : ∃ plan, bindCounts.plan (Domain.standard 100 .delivery) none { vars := [("x", .int 0)] } =
      .ok (some plan) ∧ plan.trace.length = 2 := Plan.exists_of_map (·.trace.length) (by cbv)
  have hs : ((control .plan [bindCounts]).run Setting.standard { vars := [("x", .int 0)] }).result.toOption.isSome =
      true := by
    rw [run_of_validate _ _ rfl, drive_eq]
    cbv
  cases hr : ((control .plan [bindCounts]).run Setting.standard { vars := [("x", .int 0)] }).result with
  | error f =>
    rw [hr] at hs
    cases hs
  | ok t =>
    obtain ⟨ht, hf, -⟩ := run_plan_binds_nothing hv hp hr
    exact ⟨hv, plan, t, hp, rfl, ht, hf⟩

/-- A binding in a body does not come about when the body is run as a plan, though it was foreseen. -/
theorem binding_lost_by_plan :
    (bind "x" (.call "Put" [("value", .const (.int 1))])).validate = .ok () ∧
    ∃ plan t, (bind "x" (.call "Put" [("value", .const (.int 1))])).plan (Domain.standard 100 .delivery) none {} =
        .ok (some plan) ∧
      ((control .plan [bind "x" (.call "Put" [("value", .const (.int 1))])]).run Setting.standard {}).result = .ok t ∧
      (plan.state.var? "x").isSome = true ∧ (t.var? "x").isSome = false := by
  have hv : (bind "x" (.call "Put" [("value", .const (.int 1))])).validate = .ok () := by decide
  obtain ⟨plan, hp, hx⟩ : ∃ plan, (bind "x" (.call "Put" [("value", .const (.int 1))])).plan
      (Domain.standard 100 .delivery) none {} = .ok (some plan) ∧ (plan.state.var? "x").isSome = true :=
    Plan.exists_of_map (fun plan => (plan.state.var? "x").isSome) (by cbv)
  have hs : ((control .plan [bind "x" (.call "Put" [("value", .const (.int 1))])]).run Setting.standard
      {}).result.toOption.map (fun t => (t.var? "x").isSome) = some false := by
    rw [run_of_validate _ _ rfl, drive_eq]
    cbv
  cases hr : ((control .plan [bind "x" (.call "Put" [("value", .const (.int 1))])]).run Setting.standard {}).result with
  | error f =>
    rw [hr] at hs
    cases hs
  | ok t =>
    rw [hr] at hs
    exact ⟨hv, plan, t, hp, rfl, hx, Option.some.inj hs⟩

end Program

end Agenda
