import Mathlib
import Agenda.Proofs.Leads
import Agenda.Proofs.Planning

/-!
# How deep planning goes

A transition from where a program may not end uses up one of its calls or bindings. Below a binding there are
transitions of programs that may end already: those leave nothing behind, and then the binding itself is used up. So the
search goes no deeper than there are calls and bindings, and a limit beyond that number makes no difference.
-/

namespace Agenda

set_option autoImplicit false

theorem Plan.first_congr {α : Type} {search search' : α → Except Failure (Option Plan)} {as : List α}
    (h : ∀ a ∈ as, search a = search' a) : first search as = first search' as := by
  induction as with
  | nil => rfl
  | cons a rest ih =>
    obtain ⟨ha, hr⟩ := List.forall_mem_cons.mp h
    rw [first, first, ha, ih hr]

namespace Program

mutual
def steps : Program → Nat
  | .block statements => stepsOfAll statements
  | .branch _ consequent none => consequent.steps
  | .branch _ consequent (some alternate) => consequent.steps + alternate.steps
  | .call _ _ => 1
  | .bind _ init => init.steps + 1
  | .control _ branches => stepsOfAll branches
  | .test _ => 0
  | .done => 0
  | .blocked => 0
termination_by structural p => p

def stepsOfAll : List Program → Nat
  | [] => 0
  | p :: rest => p.steps + stepsOfAll rest
termination_by structural ps => ps
end

def stepsOption : Option Program → Nat
  | none => 0
  | some p => p.steps

theorem steps_le_stepsOfAll {p : Program} {ps : List Program} (h : p ∈ ps) : p.steps ≤ stepsOfAll ps := by
  induction ps with
  | nil => cases h
  | cons q rest ih =>
    rw [stepsOfAll]
    rcases List.mem_cons.mp h with rfl | h
    · omega
    · have := ih h
      omega

theorem steps_consequent_le (condition : Expr) (p : Program) (alternate : Option Program) :
    p.steps ≤ (branch condition p alternate).steps := by
  cases alternate with
  | none => rw [steps]
  | some q =>
    rw [steps]
    omega

theorem stepsOption_resequence (head : Option Program) (rest : List Program) :
    stepsOption (Successor.resequence head rest) = stepsOption head + stepsOfAll rest := by
  cases head <;> cases rest <;> simp [Successor.resequence, stepsOption, steps, stepsOfAll]

theorem steps_remaining (t : Successor) : t.remaining.steps = stepsOption t.continuation := by
  unfold Successor.remaining
  cases t.continuation with
  | none => rw [Option.getD_none, steps, stepsOption]
  | some p => rfl

variable {d : Domain} {s : State} {p : Program}

/-- A transition leaves nothing behind or uses up a call or a binding, and it does the latter where the program may not
end. -/
theorem Leads.steps_lt {t : Successor} (h : Leads d s p t) :
    (t.continuation = none ∨ stepsOption t.continuation < p.steps) ∧
      (p.isFinal s = .ok false → stepsOption t.continuation < p.steps) := by
  induction h with
  | empty =>
    refine ⟨.inl rfl, ?_⟩
    rintro ⟨⟩
  | @skip p rest t hf _ ih =>
    obtain ⟨hc, hn⟩ := ih
    rw [isFinal_block_cons, hf]
    simp only [steps, stepsOfAll] at hc hn ⊢
    constructor
    · refine hc.imp_right ?_
      omega
    · intro hb
      have := hn hb
      omega
  | @before p t rest hf _ ih =>
    -- the statement may not end, so it is the second part that carries over
    have hn := ih.2 hf
    have hr : stepsOption (t.before rest).continuation < (block (p :: rest)).steps := by
      rw [Successor.before, stepsOption_resequence, steps, stepsOfAll]
      omega
    exact ⟨.inr hr, fun _ => hr⟩
  | @consequent condition p t alternate hc _ ih =>
    have hl := steps_consequent_le condition p alternate
    rw [isFinal_consequent hc]
    exact ⟨ih.1.imp_right fun h => h.trans_le hl, fun hf => (ih.2 hf).trans_le hl⟩
  | @alternate condition q t p hc _ ih =>
    have hl : q.steps ≤ (branch condition p (some q)).steps := by
      rw [steps]
      omega
    rw [isFinal_alternate hc]
    exact ⟨ih.1.imp_right fun h => h.trans_le hl, fun hf => (ih.2 hf).trans_le hl⟩
  | pass p hc =>
    rw [isFinal_pass hc]
    refine ⟨.inl rfl, ?_⟩
    rintro ⟨⟩
  | test hc =>
    rw [isFinal, hc]
    refine ⟨.inl rfl, ?_⟩
    rintro ⟨⟩
  | call _ _ =>
    refine ⟨.inl rfl, fun _ => ?_⟩
    rw [steps, stepsOption]
    omega
  | @bind init t var _ ih =>
    have hr : stepsOption (t.bound var).continuation < (Program.bind var init).steps := by
      rw [continuation_bound, steps]
      rcases ih.1 with hc | hc
      · rw [hc, Option.map_none, stepsOption]
        omega
      · cases ht : t.continuation with
        | none =>
          rw [Option.map_none, stepsOption]
          omega
        | some q =>
          rw [ht, stepsOption] at hc
          rw [Option.map_some, stepsOption, steps]
          omega
    exact ⟨.inr hr, fun _ => hr⟩
  | @choice p branches t hm _ ih =>
    have hl : p.steps ≤ (control .or branches).steps := by
      rw [steps]
      exact steps_le_stepsOfAll hm
    constructor
    · exact ih.1.imp_right fun h => h.trans_le hl
    · intro hf
      rw [isFinal] at hf
      exact (ih.2 (forall_of_anyFinal hf p hm)).trans_le hl
  | @plan body t _ ih =>
    have hl : body.steps ≤ (control .plan [body]).steps := by
      rw [steps]
      exact steps_le_stepsOfAll List.mem_cons_self
    rw [isFinal_plan]
    exact ⟨ih.1.imp_right fun h => h.trans_le hl, fun hf => (ih.2 hf).trans_le hl⟩
  | done =>
    refine ⟨.inl rfl, ?_⟩
    rintro ⟨⟩

theorem steps_remaining_lt {ts : List Successor} {t : Successor} (hf : p.isFinal s = .ok false)
    (hs : p.successors d s = .ok ts) (ht : t ∈ ts) : t.remaining.steps < p.steps := by
  rw [steps_remaining]
  exact (leads_of_mem_successors d s p hs t ht).steps_lt.2 hf

inductive Transits (d : Domain) : Program × State → Program × State → Prop
  | intro {p : Program} {s : State} {ts : List Successor} {t : Successor} : p.isFinal s = .ok false →
      p.successors d s = .ok ts → t ∈ ts → Transits d (p, s) (t.remaining, t.state)

inductive Walk (d : Domain) : Nat → Program × State → Program × State → Prop
  | refl (a : Program × State) : Walk d 0 a a
  | step {n : Nat} {a b c : Program × State} : Transits d a b → Walk d n b c → Walk d (n + 1) a c

theorem Transits.steps_lt {a b : Program × State} (h : Transits d a b) : b.1.steps < a.1.steps := by
  obtain ⟨hf, hs, ht⟩ := h
  exact steps_remaining_lt hf hs ht

theorem Walk.length_le {n : Nat} {a b : Program × State} (h : Walk d n a b) : n + b.1.steps ≤ a.1.steps := by
  induction h with
  | refl a => omega
  | step ht _ ih =>
    have := ht.steps_lt
    omega

theorem wellFounded_transits (d : Domain) : WellFounded fun next now => Transits d now next := by
  apply Subrelation.wf ?_ (measure fun a : Program × State => a.1.steps).wf
  intro next now h
  exact h.steps_lt

/-- Where the limit leaves room for every call and binding, the search never comes to it. -/
theorem search_some_eq_search_none {n depth : Nat} (trace : List BoundAction) (h : depth + p.steps < n) :
    p.search d (some n) s depth trace = p.search d none s depth trace := by
  induction hk : p.steps using Nat.strongRecOn generalizing p s depth trace with
  | ind k ih =>
    rw [search_eq d (some n), search_eq d none]
    cases hf : p.isFinal s with
    | error e => rfl
    | ok final =>
      cases final with
      | true => rfl
      | false =>
        have hx : Plan.exhausted (some n) depth = false := decide_eq_false (by omega)
        rw [hx]
        cases hs : p.successors d s with
        | error e => rfl
        | ok ts =>
          apply Plan.first_congr
          intro t ht
          have hlt := steps_remaining_lt hf hs ht
          exact ih t.remaining.steps (by omega) _ (by omega) rfl

/-- Planning comes to an end. A chain of transitions from where the program may not end is no longer than the program
has calls and bindings, so none goes on forever. A plan has no more actions than the program has calls, and with a limit
beyond the calls and bindings planning answers the same as without one, failures included. -/
theorem planning_ends (d : Domain) (p : Program) (s : State) :
    (∀ n b, Walk d n (p, s) b → n ≤ p.steps) ∧
    (WellFounded fun next now => Transits d now next) ∧
    (∀ limit plan, p.plan d limit s = .ok (some plan) → plan.trace.length ≤ p.calls) ∧
    ∀ n, p.steps < n → p.plan d (some n) s = p.plan d none s := by
  refine ⟨?_, wellFounded_transits d, ?_, ?_⟩
  · intro n b hw
    exact (Nat.le_add_right n _).trans hw.length_le
  · intro limit plan h
    exact length_trace_plan d limit p s h
  · intro n hn
    exact search_some_eq_search_none [] (by omega)

/-- The first transition runs no action: it uses up the binding alone. -/
def bindBeforePut : Program :=
  .block [.bind "x" (.control .or [.test (.const (.bool true))]), .call "Put" [],
    .call "Need" [("value", .const .null)]]

theorem planning_ends_bindBeforePut :
    bindBeforePut.steps = 3 ∧ (∃ b, Walk (Domain.standard 100 .delivery) 3 (bindBeforePut, {}) b) ∧
    (∀ n b, Walk (Domain.standard 100 .delivery) n (bindBeforePut, {}) b → n ≤ 3) ∧
    (∃ plan, bindBeforePut.plan (Domain.standard 100 .delivery) none {} = .ok (some plan) ∧ plan.trace.length = 2 ∧
      plan.trace.length ≤ bindBeforePut.calls) ∧
    bindBeforePut.plan (Domain.standard 100 .delivery) (some 4) {} =
      bindBeforePut.plan (Domain.standard 100 .delivery) none {} := by
  obtain ⟨hw, -, ht, hl⟩ := planning_ends (Domain.standard 100 .delivery) bindBeforePut {}
  obtain ⟨plan, hp, hn⟩ : ∃ plan, bindBeforePut.plan (Domain.standard 100 .delivery) none {} = .ok (some plan) ∧
      plan.trace.length = 2 := Plan.exists_of_map (·.trace.length) (by cbv)
  refine ⟨rfl, ?_, hw, ⟨plan, hp, hn, ht none plan hp⟩, hl 4 (by decide)⟩
  constructor
  exact .step (.intro rfl rfl List.mem_cons_self) (.step (.intro rfl rfl List.mem_cons_self)
    (.step (.intro rfl rfl List.mem_cons_self) (.refl _)))

/-- The limit has to be greater: at the number of calls and bindings a failure may lie beyond it. -/
example : (control .conc [.test (.const (.bool false))]).steps = 0 ∧
    ((control .conc [.test (.const (.bool false))]).plan (Domain.standard 100 .delivery) (some 0) {}).isOk = true ∧
    ((control .conc [.test (.const (.bool false))]).plan (Domain.standard 100 .delivery) none {}).isOk = false := by
  refine ⟨rfl, ?_, ?_⟩ <;> cbv

end Program

end Agenda
