import Mathlib
import Agenda.Proofs.Foresight
import Agenda.Proofs.SuccessorShape

/-!
# Where a program may end

Whether a program may end in a state is told by one recursion, where it can go from there by another one. Only a block
asks the first one in the second: a choice lists the successors of all its branches, and a binding those of its
initialiser, whether these may end or not. Still the two agree. A program may end just where one of its successors is
the end that leaves everything as it is; and where it may not end, going on means to act or to bind.
-/

namespace Agenda.Program

set_option autoImplicit false

variable {d : Domain} {s : State} {p : Program} {ts : List Successor} {t : Successor}

theorem successors_block_of_allFinal (d : Domain) {ps : List Program} (h : allFinal s ps = .ok true) :
    (block ps).successors d s = .ok [.finished s] := by
  induction ps with
  | nil => rfl
  | cons p rest ih =>
    rw [allFinal] at h
    obtain ⟨final, hp, h⟩ := Except.exists_of_bind_eq_ok h
    cases final with
    | true =>
      rw [successors_block_skip hp]
      exact ih h
    | false => cases h

mutual
theorem finished_mem_successors (d : Domain) (s : State) :
    ∀ (p : Program) {ts : List Successor}, p.successors d s = .ok ts → p.isFinal s = .ok true → .finished s ∈ ts
  | .block ps, ts, h, hf => by
    rw [isFinal] at hf
    rw [successors_block_of_allFinal d hf] at h
    cases h
    exact List.mem_singleton_self _
  | .branch condition p none, ts, h, hf => by
    obtain ⟨taken, hc⟩ := exists_of_isFinal_branch hf
    cases taken with
    | true =>
      rw [successors_consequent hc] at h
      rw [isFinal_consequent hc] at hf
      exact finished_mem_successors d s p h hf
    | false =>
      rw [successors_pass hc] at h
      cases h
      exact List.mem_singleton_self _
  | .branch condition p (some q), ts, h, hf => by
    obtain ⟨taken, hc⟩ := exists_of_isFinal_branch hf
    cases taken with
    | true =>
      rw [successors_consequent hc] at h
      rw [isFinal_consequent hc] at hf
      exact finished_mem_successors d s p h hf
    | false =>
      rw [successors_alternate hc] at h
      rw [isFinal_alternate hc] at hf
      exact finished_mem_successors d s q h hf
  | .test condition, ts, h, hf => by
    rw [Passes.successors_eq (.test hf)] at h
    cases h
    exact List.mem_singleton_self _
  | .call _ _, _, _, hf => by cases hf
  | .bind _ _, _, _, hf => by cases hf
  | .control .or ps, _, h, hf => by
    rw [successors] at h
    rw [isFinal] at hf
    exact finished_mem_choiceSuccessors d s ps h hf
  | .control .plan [body], _, h, hf => by
    rw [successors] at h
    rw [isFinal_plan] at hf
    exact finished_mem_successors d s body h hf
  | .control .plan [], _, h, _ => by cases h
  | .control .plan (_ :: _ :: _), _, h, _ => by cases h
  | .control .conc _, _, h, _ => by cases h
  | .control .either _, _, h, _ => by cases h
  | .done, ts, h, _ => by
    cases h
    exact List.mem_singleton_self _
  | .blocked, _, h, _ => by cases h

theorem finished_mem_choiceSuccessors (d : Domain) (s : State) :
    ∀ (ps : List Program) {ts : List Successor}, choiceSuccessors d s ps = .ok ts → anyFinal s ps = .ok true →
      .finished s ∈ ts
  | [], _, _, hf => by cases hf
  | p :: rest, ts, h, hf => by
    rw [choiceSuccessors] at h
    obtain ⟨us, hu, h⟩ := Except.exists_of_bind_eq_ok h
    obtain ⟨vs, hv, h⟩ := Except.exists_of_bind_eq_ok h
    cases h
    rw [anyFinal] at hf
    obtain ⟨final, hp, hf⟩ := Except.exists_of_bind_eq_ok hf
    -- no branch is asked after the first one that may end, but all of them have given their successors
    cases final with
    | true => exact List.mem_append_left vs (finished_mem_successors d s p hu hp)
    | false => exact List.mem_append_right us (finished_mem_choiceSuccessors d s rest hv hf)
end

theorem isFinal_of_idle (h : p.successors d s = .ok ts) (ht : t ∈ ts) (ha : t.planStep = []) (hu : t.updates = []) :
    p.isFinal s = .ok true := by
  obtain ⟨final, hf⟩ := exists_isFinal d s p h
  cases final with
  | true => exact hf
  | false => exact absurd hf ((leads_of_mem_successors d s p h t ht).eq_finished ha hu).2

theorem calls_pos_of_planStep (h : p.successors d s = .ok ts) (ht : t ∈ ts) (ha : t.planStep ≠ []) : 0 < p.calls := by
  have hw := (within_of_mem_successors d s p h t ht).calls
  have hl := List.length_pos_of_ne_nil ha
  omega

/-- Finality and transitions agree, for every program whose successors are known. The program may end in the state just
if one of its successors has nothing left to do, took no action, made no binding and is in the same state. And if it may
not end and has a successor all the same, there is a call in it or a binding. -/
theorem isFinal_iff_idle_successor (h : p.successors d s = .ok ts) :
    (p.isFinal s = .ok true ↔
      ∃ t ∈ ts, t.continuation = none ∧ t.planStep = [] ∧ t.updates = [] ∧ t.state = s) ∧
    (p.isFinal s ≠ .ok true → ts ≠ [] → 0 < p.calls ∨ ∃ var, p.binds var = true) := by
  refine ⟨⟨?_, ?_⟩, ?_⟩
  · intro hf
    exact ⟨.finished s, finished_mem_successors d s p h hf, rfl, rfl, rfl, rfl⟩
  · rintro ⟨t, ht, -, ha, hu, -⟩
    exact isFinal_of_idle h ht ha hu
  · intro hf hn
    obtain ⟨t, ht⟩ := List.exists_mem_of_ne_nil ts hn
    by_cases ha : t.planStep = []
    · right
      by_contra hb
      have hu := (leads_of_mem_successors d s p h t ht).updates_eq_nil (not_exists.mp hb)
      exact hf (isFinal_of_idle h ht ha hu)
    · exact .inl (calls_pos_of_planStep h ht ha)

/-- A fact is set, or conditions are asked for that hold. -/
def putAtWill : Program :=
  .control .plan [.control .or [.call "Put" [("value", .const (.int 1))],
    .block [.test (.const (.bool true)), .branch (.const (.bool false)) (.call "Inc" [("ms", .const (.int 3))]) none]]]

def bindNothing : Program := .bind "x" (.block [])

/-- A choice that may end has the end as its second successor. A binding may not end, although it goes on without an
action and stays in the same state, where the variable is null already. -/
theorem isFinal_iff_idle_successor_choices :
    (∃ ts, putAtWill.successors (Domain.standard 100 .delivery) {} = .ok ts ∧ ts.map (·.planStep.length) = [1, 0] ∧
      putAtWill.isFinal {} = .ok true ∧
      ∃ t ∈ ts, t.continuation = none ∧ t.planStep = [] ∧ t.updates = [] ∧ t.state = {}) ∧
    ∃ t, bindNothing.successors (Domain.standard 100 .delivery) { vars := [("x", .null)] } = .ok [t] ∧
      t.continuation = none ∧ t.planStep = [] ∧ t.state = { vars := [("x", .null)] } ∧
      bindNothing.isFinal { vars := [("x", .null)] } ≠ .ok true ∧
      (0 < bindNothing.calls ∨ ∃ var, bindNothing.binds var = true) := by
  constructor
  · have hs : (putAtWill.successors (Domain.standard 100 .delivery) {}).toOption.map (·.map (·.planStep.length)) =
        some [1, 0] := by cbv
    have hf : putAtWill.isFinal {} = .ok true := rfl
    cases h : putAtWill.successors (Domain.standard 100 .delivery) {} with
    | error e =>
      rw [h] at hs
      cases hs
    | ok ts =>
      rw [h] at hs
      exact ⟨ts, rfl, Option.some.inj hs, hf, (isFinal_iff_idle_successor h).1.mp hf⟩
  · have hf : bindNothing.isFinal { vars := [("x", .null)] } ≠ .ok true := by rintro ⟨⟩
    have h : bindNothing.successors (Domain.standard 100 .delivery) { vars := [("x", .null)] } =
        .ok [(Successor.finished { vars := [("x", .null)] }).bound "x"] := rfl
    exact ⟨_, h, rfl, rfl, rfl, hf, (isFinal_iff_idle_successor h).2 hf (List.cons_ne_nil _ _)⟩

end Agenda.Program
