import Mathlib
import Agenda.Proofs.SearchDepth
import Agenda.Proofs.Vocabulary

/-!
# Plan wrappers

A search follows effects and executes nothing, so that a `plan` inside of what is planned has nothing to do: its body is
searched like everything around it. A program and the same program with all its `plan` nodes replaced by their bodies
have the same successors in the same order, up to such nodes in what remains, and therefore the same plan.
-/

namespace Agenda

set_option autoImplicit false

namespace Program

inductive SinglePlans : Program → Prop
  | block {ps : List Program} : (∀ p ∈ ps, SinglePlans p) → SinglePlans (.block ps)
  | branch {condition : Expr} {p : Program} : SinglePlans p → SinglePlans (.branch condition p none)
  | branches {condition : Expr} {p q : Program} : SinglePlans p → SinglePlans q →
      SinglePlans (.branch condition p (some q))
  | test {condition : Expr} : SinglePlans (.test condition)
  | call {name : String} {args : Fields Expr} : SinglePlans (.call name args)
  | bind {var : String} {init : Program} : SinglePlans init → SinglePlans (.bind var init)
  | plan {body : Program} : SinglePlans body → SinglePlans (.control .plan [body])
  | control {kind : Control} {ps : List Program} : kind ≠ .plan → (∀ p ∈ ps, SinglePlans p) →
      SinglePlans (.control kind ps)
  | done : SinglePlans .done
  | blocked : SinglePlans .blocked

theorem hereditary_singlePlans : Hereditary SinglePlans where
  block ps := by
    refine ⟨?_, .block⟩
    rintro ⟨h⟩
    exact h
  bind var init := by
    refine ⟨?_, .bind⟩
    rintro ⟨⟩
    assumption
  consequent _ _ _ h := by
    cases h with
    | branch hp => exact hp
    | branches hp _ => exact hp
  alternate _ _ _ h := by
    cases h with
    | branches _ hq => exact hq
  control _ _ h := by
    cases h with
    | plan hb => exact List.forall_mem_singleton.mpr hb
    | control _ hp => exact hp

mutual
/-- The program with every `plan` around a single body replaced by this body, wherever it stands. -/
def unwrapped : Program → Program
  | .block statements => .block (allUnwrapped statements)
  | .branch condition consequent none => .branch condition consequent.unwrapped none
  | .branch condition consequent (some alternate) => .branch condition consequent.unwrapped (some alternate.unwrapped)
  | .bind var init => .bind var init.unwrapped
  | .control .plan [body] => body.unwrapped
  | .control kind branches => .control kind (allUnwrapped branches)
  | .test condition => .test condition
  | .call name args => .call name args
  | .done => .done
  | .blocked => .blocked
termination_by structural p => p

def allUnwrapped : List Program → List Program
  | [] => []
  | p :: rest => p.unwrapped :: allUnwrapped rest
termination_by structural ps => ps
end

theorem allUnwrapped_eq (ps : List Program) : allUnwrapped ps = ps.map unwrapped := by
  induction ps with
  | nil => rfl
  | cons p rest ih => exact congrArg (p.unwrapped :: ·) ih

theorem unwrapped_control {kind : Control} (h : kind ≠ .plan) (ps : List Program) :
    (control kind ps).unwrapped = .control kind (ps.map unwrapped) := by
  cases kind with
  | plan => exact absurd rfl h
  | or | conc | either => exact congrArg (control _) (allUnwrapped_eq ps)

theorem unwrapped_block (ps : List Program) : (block ps).unwrapped = .block (ps.map unwrapped) :=
  congrArg block (allUnwrapped_eq ps)

variable {s : State} {p : Program} {ps : List Program}

theorem SinglePlans.keepsTo_unwrapped (h : p.SinglePlans) : p.unwrapped.keepsTo (.without [.plan]) = true := by
  induction h with
  | block _ ih =>
    rw [unwrapped_block, keepsTo_block_iff]
    exact List.forall_mem_map.mpr ih
  | branch _ ih =>
    rw [unwrapped, keepsTo, ih]
    rfl
  | branches _ _ ihp ihq =>
    rw [unwrapped, keepsTo, ihp, ihq]
    rfl
  | bind _ ih =>
    rw [unwrapped, keepsTo]
    exact ih
  | plan _ ih =>
    rw [unwrapped]
    exact ih
  | @control kind ps hk _ ih =>
    rw [unwrapped_control hk, keepsTo_control_iff]
    refine ⟨?_, List.forall_mem_map.mpr ih⟩
    cases kind with
    | plan => exact absurd rfl hk
    | _ => rfl
  | test | call | done | blocked => rfl

/-! ### Ends -/

theorem allFinal_congr {f : Program → Program} (h : ∀ p ∈ ps, (f p).isFinal s = p.isFinal s) :
    allFinal s (ps.map f) = allFinal s ps := by
  induction ps with
  | nil => rfl
  | cons p rest ih =>
    obtain ⟨hp, hr⟩ := List.forall_mem_cons.mp h
    rw [List.map_cons, allFinal, allFinal, hp, ih hr]

theorem anyFinal_congr {f : Program → Program} (h : ∀ p ∈ ps, (f p).isFinal s = p.isFinal s) :
    anyFinal s (ps.map f) = anyFinal s ps := by
  induction ps with
  | nil => rfl
  | cons p rest ih =>
    obtain ⟨hp, hr⟩ := List.forall_mem_cons.mp h
    rw [List.map_cons, anyFinal, anyFinal, hp, ih hr]

theorem SinglePlans.isFinal_unwrapped (h : p.SinglePlans) (s : State) : p.unwrapped.isFinal s = p.isFinal s := by
  induction h with
  | block _ ih =>
    rw [unwrapped_block, isFinal, isFinal]
    exact allFinal_congr ih
  | branch _ ih => rw [unwrapped, isFinal, isFinal, ih]
  | branches _ _ ihp ihq => rw [unwrapped, isFinal, isFinal, ihp, ihq]
  | bind _ _ => rw [unwrapped, isFinal, isFinal]
  | plan _ ih => rw [unwrapped, isFinal_plan, ih]
  | @control kind ps hk _ ih =>
    rw [unwrapped_control hk]
    cases kind with
    | plan => exact absurd rfl hk
    | conc =>
      rw [isFinal, isFinal]
      exact allFinal_congr ih
    | or =>
      rw [isFinal, isFinal]
      exact anyFinal_congr ih
    | either =>
      rw [isFinal, isFinal]
      exact anyFinal_congr ih
  | test | call | done | blocked => rfl

end Program

/-! ### Successors -/

def Successor.unwrapped (t : Successor) : Successor :=
  { t with continuation := t.continuation.map Program.unwrapped }

namespace Successor

theorem unwrapped_before (rest : List Program) (t : Successor) :
    (t.before rest).unwrapped = t.unwrapped.before (rest.map Program.unwrapped) := by
  obtain ⟨continuation, state, result, planStep, updates⟩ := t
  cases continuation <;> cases rest <;>
    simp [before, resequence, unwrapped, Program.unwrapped_block]

theorem unwrapped_bound (var : String) (t : Successor) : (t.bound var).unwrapped = t.unwrapped.bound var := by
  obtain ⟨continuation, state, result, planStep, updates⟩ := t
  cases continuation <;> simp [bound, unwrapped, Program.unwrapped]

theorem remaining_unwrapped (t : Successor) : t.unwrapped.remaining = t.remaining.unwrapped := by
  unfold remaining unwrapped
  cases t.continuation <;> rfl

end Successor

def Successor.allUnwrapped (ts : Except Failure (List Successor)) : Except Failure (List Successor) :=
  ts.map (List.map Successor.unwrapped)

namespace Program

variable {d : Domain} {s : State} {p : Program} {ps : List Program}

theorem blockSuccessors_unwrapped (h : ∀ p ∈ ps, p.SinglePlans)
    (ih : ∀ p ∈ ps, p.unwrapped.successors d s = Successor.allUnwrapped (p.successors d s)) :
    blockSuccessors d s (ps.map unwrapped) = Successor.allUnwrapped (blockSuccessors d s ps) := by
  induction ps with
  | nil => rfl
  | cons p rest ihr =>
    obtain ⟨hp, hr⟩ := List.forall_mem_cons.mp h
    obtain ⟨hs, hrs⟩ := List.forall_mem_cons.mp ih
    rw [List.map_cons, blockSuccessors, blockSuccessors, hp.isFinal_unwrapped, hs, ihr hr hrs]
    cases p.isFinal s with
    | error e => rfl
    | ok final =>
      cases final with
      | true => rfl
      | false =>
        cases p.successors d s with
        | error e => rfl
        | ok ts =>
          refine congrArg Except.ok ?_
          rw [List.map_map, List.map_map]
          exact List.map_congr_left fun t _ => (Successor.unwrapped_before rest t).symm

theorem choiceSuccessors_unwrapped
    (ih : ∀ p ∈ ps, p.unwrapped.successors d s = Successor.allUnwrapped (p.successors d s)) :
    choiceSuccessors d s (ps.map unwrapped) = Successor.allUnwrapped (choiceSuccessors d s ps) := by
  induction ps with
  | nil => rfl
  | cons p rest ihr =>
    obtain ⟨hs, hrs⟩ := List.forall_mem_cons.mp ih
    rw [List.map_cons, choiceSuccessors, choiceSuccessors, hs, ihr hrs]
    cases p.successors d s with
    | error e => rfl
    | ok ts =>
      cases choiceSuccessors d s rest with
      | error e => rfl
      | ok us => exact congrArg Except.ok List.map_append.symm

theorem SinglePlans.successors_unwrapped (h : p.SinglePlans) (d : Domain) (s : State) :
    p.unwrapped.successors d s = Successor.allUnwrapped (p.successors d s) := by
  induction h with
  | block hp ih =>
    rw [unwrapped_block, successors, successors]
    exact blockSuccessors_unwrapped hp ih
  | @branch condition p _ ih =>
    rw [unwrapped, successors, successors, ih]
    cases condition.decide s with
    | error e => rfl
    | ok taken => cases taken <;> rfl
  | @branches condition p q _ _ ihp ihq =>
    rw [unwrapped, successors, successors, ihp, ihq]
    cases condition.decide s with
    | error e => rfl
    | ok taken => cases taken <;> rfl
  | @test condition =>
    rw [unwrapped, successors]
    cases condition.decide s with
    | error e => rfl
    | ok taken => cases taken <;> rfl
  | @call name args =>
    rw [unwrapped, successors]
    cases d.resolve s name args with
    | error e => rfl
    | ok bound =>
      change (if bound.action.possible s then _ else _) = Successor.allUnwrapped (if _ then _ else _)
      split <;> rfl
  | @bind var init _ ih =>
    rw [unwrapped, successors, successors, ih]
    cases init.successors d s with
    | error e => rfl
    | ok ts =>
      refine congrArg Except.ok ?_
      rw [List.map_map, List.map_map]
      exact List.map_congr_left fun t _ => (Successor.unwrapped_bound var t).symm
  | plan _ ih =>
    rw [unwrapped, successors]
    exact ih
  | @control kind ps hk _ ih =>
    rw [unwrapped_control hk]
    cases kind with
    | plan => exact absurd rfl hk
    | or =>
      rw [successors, successors]
      exact choiceSuccessors_unwrapped ih
    | conc => rfl
    | either => rfl
  | done => rfl
  | blocked => rfl

/-! ### The search -/

/-- Step by step the two searches go through the same states, at the same depths and with the same actions. -/
theorem SinglePlans.search_unwrapped (h : p.SinglePlans) (d : Domain) (limit : Option Nat) (s : State) (depth : Nat)
    (trace : List BoundAction) : p.unwrapped.search d limit s depth trace = p.search d limit s depth trace := by
  induction hsize : p.size using Nat.strongRecOn generalizing p s depth trace with
  | ind size ih =>
    rw [search_eq, search_eq, h.isFinal_unwrapped, h.successors_unwrapped]
    cases p.isFinal s with
    | error e => rfl
    | ok final =>
      cases final with
      | true => rfl
      | false =>
        refine ite_congr rfl (fun _ => rfl) (fun _ => ?_)
        cases hs : p.successors d s with
        | error e => rfl
        | ok ts =>
          refine (Plan.first_map Successor.unwrapped _ ts).trans (Plan.first_congr ?_)
          intro t ht
          rw [Successor.remaining_unwrapped]
          have hw := (within_of_mem_successors d s p hs t ht).size
          have hl := (leads_of_mem_successors d s p hs t ht).hereditary hereditary_singlePlans h
          unfold Successor.remaining
          cases hc : t.continuation with
          | none => rfl
          | some q =>
            rw [hc] at hw
            simp only [sizeOption] at hw
            exact ih q.size (by omega) (hl q hc) t.state (depth + 1) _ rfl

/-- Where every `plan` has one branch, the planner takes no notice of it: without all of them, wherever they stand, it
comes to the same plan, the same lack of one or the same failure, with every limit. -/
theorem plan_unwrapped (h : p.SinglePlans) :
    p.unwrapped.keepsTo (.without [.plan]) = true ∧
      ∀ (d : Domain) (limit : Option Nat) (s : State), p.unwrapped.plan d limit s = p.plan d limit s :=
  ⟨h.keepsTo_unwrapped, fun d limit s => h.search_unwrapped d limit s 0 []⟩

/-- The first value that is put is not the one needed: the search has to come back into the wrapped choice. -/
def wrappedChoice : Program :=
  .block [.bind "x" (.control .plan [.control .or [.call "Put" [], .call "Put" [("value", .const (.int 1))]]]),
    .control .plan [.control .plan [.call "Need" [("value", .const (.int 1))]]]]

theorem plan_unwrapped_wrappedChoice :
    wrappedChoice.unwrapped =
      .block [.bind "x" (.control .or [.call "Put" [], .call "Put" [("value", .const (.int 1))]]),
        .call "Need" [("value", .const (.int 1))]] ∧
    wrappedChoice.unwrapped.keepsTo (.without [.plan]) = true ∧
    (∃ plan, wrappedChoice.plan (Domain.standard 100 .delivery) none {} = .ok (some plan) ∧ plan.trace.length = 2 ∧
      wrappedChoice.unwrapped.plan (Domain.standard 100 .delivery) none {} = .ok (some plan)) ∧
    wrappedChoice.unwrapped.plan (Domain.standard 100 .delivery) (some 1) {} = .ok none := by
  have hs : wrappedChoice.SinglePlans := by
    refine .block (List.forall_mem_cons.mpr ⟨.bind (.plan (.control (by decide) ?_)),
      List.forall_mem_singleton.mpr (.plan (.plan .call))⟩)
    exact List.forall_mem_cons.mpr ⟨.call, List.forall_mem_singleton.mpr .call⟩
  obtain ⟨hk, hu⟩ := plan_unwrapped hs
  obtain ⟨plan, hp, hn⟩ : ∃ plan, wrappedChoice.plan (Domain.standard 100 .delivery) none {} = .ok (some plan) ∧
      plan.trace.length = 2 := Plan.exists_of_map (·.trace.length) (by cbv)
  refine ⟨rfl, hk, ⟨plan, hp, hn, (hu _ _ _).trans hp⟩, (hu _ _ _).trans ?_⟩
  cbv

end Program

end Agenda
