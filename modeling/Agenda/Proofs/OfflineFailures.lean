import Mathlib
import Agenda.Execution.Dispatch
import Agenda.Proofs.Leads

/-!
# Failures that come up before anything is executed

Whether a program may end can only fail to be told because an expression has no value. Its transitions can also fail
because a call names no action, or because of a part of the program that cannot be planned over. That part is named by
what the program and all its parts have in common.
-/

namespace Agenda

set_option autoImplicit false

theorem Except.error_of_bind {ε α β : Type} {x : Except ε α} {f : α → Except ε β} {e : ε}
    (h : (x >>= f) = .error e) : x = .error e ∨ ∃ a, x = .ok a ∧ f a = .error e := by
  cases x with
  | error e' =>
    cases h
    exact .inl rfl
  | ok a => exact .inr ⟨a, rfl, h⟩

theorem Except.error_of_mapError {ε ε' α : Type} {x : Except ε α} {f : ε → ε'} {e : ε'}
    (h : x.mapError f = .error e) : ∃ error, e = f error := by
  cases x with
  | error error =>
    cases h
    exact ⟨error, rfl⟩
  | ok a => cases h

theorem Expr.decide_eq_error {condition : Expr} {s : State} {e : Failure} (h : condition.decide s = .error e) :
    ∃ error, e = .eval error :=
  Except.error_of_mapError h

theorem evalArgs_eq_error {s : State} {args : Fields Expr} {e : Failure} (h : evalArgs s args = .error e) :
    ∃ error, e = .eval error := by
  induction args with
  | nil => cases h
  | cons entry rest ih =>
    rw [evalArgs] at h
    obtain h | ⟨v, -, h⟩ := Except.error_of_bind h
    · exact Except.error_of_mapError h
    · obtain h | ⟨vs, -, h⟩ := Except.error_of_bind h
      · exact ih h
      · cases h

theorem Domain.resolve_eq_error {d : Domain} {s : State} {name : String} {args : Fields Expr} {e : Failure}
    (h : d.resolve s name args = .error e) : (∃ error, e = .eval error) ∨ ∃ error, e = .action error := by
  unfold resolve at h
  obtain h | ⟨values, -, h⟩ := Except.error_of_bind h
  · exact .inl (evalArgs_eq_error h)
  · exact .inr (Except.error_of_mapError h)

theorem Plan.first_eq_error {α : Type} {search : α → Except Failure (Option Plan)} {as : List α} {e : Failure}
    (h : Plan.first search as = .error e) : ∃ a ∈ as, search a = .error e := by
  induction as with
  | nil => cases h
  | cons a rest ih =>
    rw [Plan.first] at h
    obtain h | ⟨found, -, h⟩ := Except.error_of_bind h
    · exact ⟨a, List.mem_cons_self, h⟩
    · cases found with
      | some plan => cases h
      | none =>
        obtain ⟨b, hb, h⟩ := ih h
        exact ⟨b, List.mem_cons_of_mem a hb, h⟩

namespace Program

mutual
theorem isFinal_eq_error (s : State) :
    ∀ (p : Program) {e : Failure}, p.isFinal s = .error e → ∃ error, e = .eval error
  | .block ps, e, h => allFinal_eq_error s ps (by simpa only [isFinal] using h)
  | .branch condition p none, e, h => by
    rw [isFinal] at h
    obtain h | ⟨taken, -, h⟩ := Except.error_of_bind h
    · exact Expr.decide_eq_error h
    · cases taken with
      | true => exact isFinal_eq_error s p h
      | false => cases h
  | .branch condition p (some q), e, h => by
    rw [isFinal] at h
    obtain h | ⟨taken, -, h⟩ := Except.error_of_bind h
    · exact Expr.decide_eq_error h
    · cases taken with
      | true => exact isFinal_eq_error s p h
      | false => exact isFinal_eq_error s q h
  | .test condition, e, h => Expr.decide_eq_error h
  | .call _ _, e, h => by cases h
  | .bind _ _, e, h => by cases h
  | .control .conc ps, e, h => allFinal_eq_error s ps (by simpa only [isFinal] using h)
  | .control .plan ps, e, h => allFinal_eq_error s ps (by simpa only [isFinal] using h)
  | .control .or ps, e, h => anyFinal_eq_error s ps (by simpa only [isFinal] using h)
  | .control .either ps, e, h => anyFinal_eq_error s ps (by simpa only [isFinal] using h)
  | .done, e, h => by cases h
  | .blocked, e, h => by cases h

theorem allFinal_eq_error (s : State) :
    ∀ (ps : List Program) {e : Failure}, allFinal s ps = .error e → ∃ error, e = .eval error
  | [], e, h => by cases h
  | p :: rest, e, h => by
    rw [allFinal] at h
    obtain h | ⟨final, -, h⟩ := Except.error_of_bind h
    · exact isFinal_eq_error s p h
    · cases final with
      | true => exact allFinal_eq_error s rest h
      | false => cases h

theorem anyFinal_eq_error (s : State) :
    ∀ (ps : List Program) {e : Failure}, anyFinal s ps = .error e → ∃ error, e = .eval error
  | [], e, h => by cases h
  | p :: rest, e, h => by
    rw [anyFinal] at h
    obtain h | ⟨final, -, h⟩ := Except.error_of_bind h
    · exact isFinal_eq_error s p h
    · cases final with
      | true => cases h
      | false => exact anyFinal_eq_error s rest h
end

theorem finalityFailure_eq_some {s : State} {ps : List Program} {e : Failure} (h : finalityFailure? s ps = some e) :
    ∃ error, e = .eval error := by
  induction ps with
  | nil => cases h
  | cons p rest ih =>
    rw [finalityFailure?] at h
    split at h
    · rename_i hf
      cases h
      exact isFinal_eq_error s p hf
    · exact ih h

/-- What can keep programs with the property, and all parts of them, from being planned over. -/
inductive Hinders (P : Program → Prop) : Failure → Prop
  | eval (error : EvalError) : Hinders P (.eval error)
  | action (error : ActionError) : Hinders P (.action error)
  | bodies {branches : List Program} : P (.control .plan branches) → branches.length ≠ 1 →
      Hinders P (.unsupported (.planBranches branches.length))
  | abreast {kind : Control} {branches : List Program} : kind = .conc ∨ kind = .either →
      P (.control kind branches) → Hinders P (.unsupported (.notPlannable kind))
  | blocked : P .blocked → Hinders P (.unsupported .strayBlocked)

variable {P : Program → Prop}

theorem hereditary_true : Hereditary fun _ => True :=
  ⟨fun _ => ⟨fun _ _ _ => trivial, fun _ => trivial⟩, fun _ _ => Iff.rfl, fun _ _ _ _ => trivial,
    fun _ _ _ _ => trivial, fun _ _ _ _ _ => trivial⟩

theorem hinders_of_eval {e : Failure} (h : ∃ error, e = .eval error) : Hinders P e := by
  obtain ⟨error, rfl⟩ := h
  exact .eval error

mutual
theorem hinders_of_successors (hP : Hereditary P) (d : Domain) (s : State) :
    ∀ (p : Program) {e : Failure}, P p → p.successors d s = .error e → Hinders P e
  | .block ps, e, hp, h =>
    hinders_of_blockSuccessors hP d s ps ((hP.block ps).mp hp) (by simpa only [successors] using h)
  | .branch condition p none, e, hp, h => by
    rw [successors] at h
    obtain h | ⟨taken, -, h⟩ := Except.error_of_bind h
    · exact hinders_of_eval (Expr.decide_eq_error h)
    · cases taken with
      | true => exact hinders_of_successors hP d s p (hP.consequent _ _ _ hp) h
      | false => cases h
  | .branch condition p (some q), e, hp, h => by
    rw [successors] at h
    obtain h | ⟨taken, -, h⟩ := Except.error_of_bind h
    · exact hinders_of_eval (Expr.decide_eq_error h)
    · cases taken with
      | true => exact hinders_of_successors hP d s p (hP.consequent _ _ _ hp) h
      | false => exact hinders_of_successors hP d s q (hP.alternate _ _ _ hp) h
  | .test condition, e, _, h => by
    rw [successors] at h
    obtain h | ⟨taken, -, h⟩ := Except.error_of_bind h
    · exact hinders_of_eval (Expr.decide_eq_error h)
    · cases taken <;> cases h
  | .call name args, e, _, h => by
    rw [successors] at h
    obtain h | ⟨bound, -, h⟩ := Except.error_of_bind h
    · obtain he | ⟨error, rfl⟩ := Domain.resolve_eq_error h
      · exact hinders_of_eval he
      · exact .action error
    · split at h <;> cases h
  | .bind var init, e, hp, h => by
    rw [successors] at h
    obtain h | ⟨ts, -, h⟩ := Except.error_of_bind h
    · exact hinders_of_successors hP d s init ((hP.bind var init).mp hp) h
    · cases h
  | .control .or ps, e, hp, h =>
    hinders_of_choiceSuccessors hP d s ps (hP.control _ _ hp) (by simpa only [successors] using h)
  | .control .plan [body], e, hp, h =>
    hinders_of_successors hP d s body (hP.control _ _ hp body List.mem_cons_self) (by simpa only [successors] using h)
  | .control .plan [], e, hp, h => by
    cases h
    exact .bodies hp Nat.zero_ne_one
  | .control .plan (p :: q :: rest), e, hp, h => by
    cases h
    exact .bodies hp (by simp)
  | .control .conc _, e, hp, h => by
    cases h
    exact .abreast (.inl rfl) hp
  | .control .either _, e, hp, h => by
    cases h
    exact .abreast (.inr rfl) hp
  | .done, e, _, h => by cases h
  | .blocked, e, hp, h => by
    cases h
    exact .blocked hp

theorem hinders_of_blockSuccessors (hP : Hereditary P) (d : Domain) (s : State) :
    ∀ (ps : List Program) {e : Failure}, (∀ p ∈ ps, P p) → blockSuccessors d s ps = .error e → Hinders P e
  | [], e, _, h => by cases h
  | p :: rest, e, hp, h => by
    obtain ⟨hp, hr⟩ := List.forall_mem_cons.mp hp
    rw [blockSuccessors] at h
    obtain h | ⟨final, -, h⟩ := Except.error_of_bind h
    · exact hinders_of_eval (isFinal_eq_error s p h)
    · cases final with
      | true => exact hinders_of_blockSuccessors hP d s rest hr h
      | false =>
        obtain h | ⟨ts, -, h⟩ := Except.error_of_bind h
        · exact hinders_of_successors hP d s p hp h
        · cases h

theorem hinders_of_choiceSuccessors (hP : Hereditary P) (d : Domain) (s : State) :
    ∀ (ps : List Program) {e : Failure}, (∀ p ∈ ps, P p) → choiceSuccessors d s ps = .error e → Hinders P e
  | [], e, _, h => by cases h
  | p :: rest, e, hp, h => by
    obtain ⟨hp, hr⟩ := List.forall_mem_cons.mp hp
    rw [choiceSuccessors] at h
    obtain h | ⟨ts, -, h⟩ := Except.error_of_bind h
    · exact hinders_of_successors hP d s p hp h
    · obtain h | ⟨us, -, h⟩ := Except.error_of_bind h
      · exact hinders_of_choiceSuccessors hP d s rest hr h
      · cases h
end

/-- What comes up during a search comes from the program that is planned over. -/
theorem hinders_of_search (hP : Hereditary P) (d : Domain) (limit : Option Nat) (p : Program) (s : State) (depth : Nat)
    (trace : List BoundAction) {e : Failure} (hp : P p) (h : p.search d limit s depth trace = .error e) :
    Hinders P e := by
  fun_induction search d limit p s depth trace with
  | case1 p s depth trace e' hf =>
    cases h
    exact hinders_of_eval (isFinal_eq_error s p hf)
  | case2 => cases h
  | case3 => cases h
  | case4 p s depth trace _ _ e' hs =>
    cases h
    exact hinders_of_successors hP d s p hp hs
  | case5 p s depth trace _ _ ts hs ih =>
    obtain ⟨⟨t, ht⟩, -, h⟩ := Plan.first_eq_error h
    simp only at h
    split at h
    · cases h
    · rename_i q hc
      exact ih ⟨t, ht⟩ q hc ((leads_of_mem_successors d s p hs t ht).hereditary hP hp q hc) h

end Program

end Agenda
