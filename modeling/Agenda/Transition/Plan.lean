import Agenda.Transition.Descent

/-!
# Planning

A plan is the first sequence of actions, in the order in which successors are tried, that takes a program to where it
may end. Only effects are followed; nothing is executed.
-/

namespace Agenda

set_option autoImplicit false

structure Plan where
  trace : List BoundAction
  state : State

/-- The first plan among several, or the first failure before it. -/
def Plan.first {α : Type} (search : α → Except Failure (Option Plan)) : List α → Except Failure (Option Plan)
  | [] => .ok none
  | a :: rest => do
    match ← search a with
    | some plan => return some plan
    | none => Plan.first search rest

def Plan.exhausted (limit : Option Nat) (depth : Nat) : Bool :=
  match limit with
  | some n => n ≤ depth
  | none => false

namespace Program

/-- Searches in depth, after `depth` transitions and the actions of `trace`. -/
def search (d : Domain) (limit : Option Nat) (p : Program) (s : State) (depth : Nat) (trace : List BoundAction) :
    Except Failure (Option Plan) :=
  match p.isFinal s with
  | .error e => .error e
  | .ok true => .ok (some ⟨trace, s⟩)
  | .ok false =>
    if Plan.exhausted limit depth then .ok none
    else
      match _h : p.successors d s with
      | .error e => .error e
      | .ok ts => Plan.first (fun t : { t // t ∈ ts } =>
          match _hc : t.val.continuation with
          | none => .ok (some ⟨trace ++ t.val.planStep, t.val.state⟩)
          | some q => search d limit q t.val.state (depth + 1) (trace ++ t.val.planStep)) ts.attach
termination_by p.size
decreasing_by
  have := (within_of_mem_successors d s p _h t.val t.property).size
  rw [_hc] at this
  simp only [sizeOption] at this
  omega

/-- The plan for a program, if there is one. With a limit, plans with more transitions are not found. -/
def plan (d : Domain) (limit : Option Nat) (p : Program) (s : State) : Except Failure (Option Plan) :=
  p.search d limit s 0 []

end Program

theorem Plan.first_eq_some {α : Type} {search : α → Except Failure (Option Plan)} {as : List α} {plan : Plan}
    (h : Plan.first search as = .ok (some plan)) : ∃ a ∈ as, search a = .ok (some plan) := by
  induction as with
  | nil => cases h
  | cons a rest ih =>
    rw [Plan.first] at h
    obtain ⟨r, hr, h⟩ := Except.exists_of_bind_eq_ok h
    cases r with
    | some found =>
      cases h
      exact ⟨a, List.mem_cons_self, hr⟩
    | none =>
      obtain ⟨b, hb, he⟩ := ih h
      exact ⟨b, List.mem_cons_of_mem _ hb, he⟩

namespace Program

theorem length_trace_search (d : Domain) (limit : Option Nat) (p : Program) (s : State) (depth : Nat)
    (trace : List BoundAction) {plan : Plan} (h : p.search d limit s depth trace = .ok (some plan)) :
    plan.trace.length ≤ trace.length + p.calls := by
  fun_induction search d limit p s depth trace with
  | case1 => cases h
  | case2 =>
    cases h
    simp
  | case3 => cases h
  | case4 => cases h
  | case5 p s depth trace _ _ ts hts ih =>
    obtain ⟨⟨t, ht⟩, -, h⟩ := Plan.first_eq_some h
    have hw := (within_of_mem_successors d s p hts t ht).calls
    simp only at h
    split at h
    · cases h
      simp only [List.length_append]
      omega
    · rename_i q hc
      have := ih ⟨t, ht⟩ q hc h
      simp only [hc, callsOption] at hw
      simp only [List.length_append] at this
      omega

theorem length_trace_plan (d : Domain) (limit : Option Nat) (p : Program) (s : State) {plan : Plan}
    (h : p.plan d limit s = .ok (some plan)) : plan.trace.length ≤ p.calls := by
  simpa using length_trace_search d limit p s 0 [] h

end Program

end Agenda
