import Mathlib
import Agenda.Transition.Descent

/-!
# The offline transition relation

The list of successors of a program, read as a relation: one constructor for each way in which a transition comes about.
What all successors have in common is shown by going through these constructors.
-/

namespace Agenda.Program

set_option autoImplicit false

theorem isFinal_plan (s : State) (body : Program) : (control .plan [body]).isFinal s = body.isFinal s := by
  simp only [isFinal, allFinal]
  cases body.isFinal s with
  | error e => rfl
  | ok final => cases final <;> rfl

section

variable {d : Domain} {s : State} {condition : Expr}

theorem isFinal_consequent (hc : condition.decide s = .ok true) (p : Program) (alternate : Option Program) :
    (branch condition p alternate).isFinal s = p.isFinal s := by
  cases alternate with
  | none =>
    rw [isFinal, hc]
    rfl
  | some q =>
    rw [isFinal, hc]
    rfl

theorem isFinal_alternate (hc : condition.decide s = .ok false) (p q : Program) :
    (branch condition p (some q)).isFinal s = q.isFinal s := by
  rw [isFinal, hc]
  rfl

theorem isFinal_pass (hc : condition.decide s = .ok false) (p : Program) :
    (branch condition p none).isFinal s = .ok true := by
  rw [isFinal, hc]
  rfl

theorem successors_consequent (hc : condition.decide s = .ok true) (p : Program) (alternate : Option Program) :
    (branch condition p alternate).successors d s = p.successors d s := by
  cases alternate with
  | none =>
    rw [successors, hc]
    rfl
  | some q =>
    rw [successors, hc]
    rfl

theorem successors_alternate (hc : condition.decide s = .ok false) (p q : Program) :
    (branch condition p (some q)).successors d s = q.successors d s := by
  rw [successors, hc]
  rfl

theorem successors_pass (hc : condition.decide s = .ok false) (p : Program) :
    (branch condition p none).successors d s = .ok [.finished s] := by
  rw [successors, hc]
  rfl

theorem exists_of_isFinal_branch {p : Program} {alternate : Option Program} {final : Bool}
    (h : (branch condition p alternate).isFinal s = .ok final) : ∃ taken, condition.decide s = .ok taken := by
  cases alternate with
  | none =>
    rw [isFinal] at h
    obtain ⟨taken, hc, -⟩ := Except.exists_of_bind_eq_ok h
    exact ⟨taken, hc⟩
  | some q =>
    rw [isFinal] at h
    obtain ⟨taken, hc, -⟩ := Except.exists_of_bind_eq_ok h
    exact ⟨taken, hc⟩

end

theorem exists_of_anyFinal {s : State} {ps : List Program} (h : anyFinal s ps = .ok true) :
    ∃ p ∈ ps, p.isFinal s = .ok true := by
  induction ps with
  | nil => cases h
  | cons p rest ih =>
    rw [anyFinal] at h
    obtain ⟨final, hp, h⟩ := Except.exists_of_bind_eq_ok h
    cases final with
    | true => exact ⟨p, List.mem_cons_self, hp⟩
    | false =>
      obtain ⟨q, hq, hf⟩ := ih h
      exact ⟨q, List.mem_cons_of_mem p hq, hf⟩

theorem forall_of_anyFinal {s : State} {ps : List Program} (h : anyFinal s ps = .ok false) :
    ∀ p ∈ ps, p.isFinal s = .ok false := by
  induction ps with
  | nil => exact List.forall_mem_nil _
  | cons p rest ih =>
    rw [anyFinal] at h
    obtain ⟨final, hp, h⟩ := Except.exists_of_bind_eq_ok h
    cases final with
    | true => cases h
    | false => exact List.forall_mem_cons.mpr ⟨hp, ih h⟩

/-- The program has a transition, in the state, to the successor. -/
inductive Leads (d : Domain) (s : State) : Program → Successor → Prop
  | empty : Leads d s (.block []) (.finished s)
  | skip {p : Program} {rest : List Program} {t : Successor} : p.isFinal s = .ok true →
      Leads d s (.block rest) t → Leads d s (.block (p :: rest)) t
  | before {p : Program} {t : Successor} (rest : List Program) : p.isFinal s = .ok false →
      Leads d s p t → Leads d s (.block (p :: rest)) (t.before rest)
  | consequent {condition : Expr} {p : Program} {t : Successor} (alternate : Option Program) :
      condition.decide s = .ok true → Leads d s p t → Leads d s (.branch condition p alternate) t
  | alternate {condition : Expr} {q : Program} {t : Successor} (p : Program) :
      condition.decide s = .ok false → Leads d s q t → Leads d s (.branch condition p (some q)) t
  | pass {condition : Expr} (p : Program) : condition.decide s = .ok false →
      Leads d s (.branch condition p none) (.finished s)
  | test {condition : Expr} : condition.decide s = .ok true → Leads d s (.test condition) (.finished s)
  | call {name : String} {args : Fields Expr} {bound : BoundAction} : d.resolve s name args = .ok bound →
      bound.action.possible s = true →
      Leads d s (.call name args) { continuation := none, state := bound.action.effect s, planStep := [bound] }
  | bind {init : Program} {t : Successor} (var : String) : Leads d s init t → Leads d s (.bind var init) (t.bound var)
  | choice {p : Program} {branches : List Program} {t : Successor} : p ∈ branches → Leads d s p t →
      Leads d s (.control .or branches) t
  | plan {body : Program} {t : Successor} : Leads d s body t → Leads d s (.control .plan [body]) t
  | done : Leads d s .done (.finished s)

mutual
theorem leads_of_mem_successors (d : Domain) (s : State) :
    ∀ (p : Program) {ts : List Successor}, p.successors d s = .ok ts → ∀ t ∈ ts, Leads d s p t
  | .block statements, ts, h, t, ht => by
    simp only [successors] at h
    exact leads_of_mem_blockSuccessors d s statements h t ht
  | .branch condition consequent none, ts, h, t, ht => by
    simp only [successors] at h
    obtain ⟨b, hb, h⟩ := Except.exists_of_bind_eq_ok h
    cases b with
    | true => exact .consequent none hb (leads_of_mem_successors d s consequent h t ht)
    | false =>
      cases h
      obtain rfl := List.mem_singleton.mp ht
      exact .pass consequent hb
  | .branch condition consequent (some alternate), ts, h, t, ht => by
    simp only [successors] at h
    obtain ⟨b, hb, h⟩ := Except.exists_of_bind_eq_ok h
    cases b with
    | true => exact .consequent (some alternate) hb (leads_of_mem_successors d s consequent h t ht)
    | false => exact .alternate consequent hb (leads_of_mem_successors d s alternate h t ht)
  | .test condition, ts, h, t, ht => by
    simp only [successors] at h
    obtain ⟨b, hb, h⟩ := Except.exists_of_bind_eq_ok h
    cases b with
    | true =>
      cases h
      obtain rfl := List.mem_singleton.mp ht
      exact .test hb
    | false =>
      cases h
      cases ht
  | .call name args, ts, h, t, ht => by
    simp only [successors] at h
    obtain ⟨bound, hb, h⟩ := Except.exists_of_bind_eq_ok h
    split at h
    · rename_i hp
      cases h
      obtain rfl := List.mem_singleton.mp ht
      exact .call hb hp
    · cases h
      cases ht
  | .bind var init, ts, h, t, ht => by
    simp only [successors] at h
    obtain ⟨us, hu, h⟩ := Except.exists_of_bind_eq_ok h
    cases h
    obtain ⟨u, hm, rfl⟩ := List.mem_map.mp ht
    exact .bind var (leads_of_mem_successors d s init hu u hm)
  | .control .or branches, ts, h, t, ht => by
    simp only [successors] at h
    obtain ⟨p, hp, hl⟩ := leads_of_mem_choiceSuccessors d s branches h t ht
    exact .choice hp hl
  | .control .plan [body], ts, h, t, ht => by
    simp only [successors] at h
    exact .plan (leads_of_mem_successors d s body h t ht)
  | .control .plan [], ts, h, t, ht => by simp [successors] at h
  | .control .plan (_ :: _ :: _), ts, h, t, ht => by simp [successors] at h
  | .control .conc _, ts, h, t, ht => by simp [successors] at h
  | .control .either _, ts, h, t, ht => by simp [successors] at h
  | .done, ts, h, t, ht => by
    simp only [successors] at h
    cases h
    obtain rfl := List.mem_singleton.mp ht
    exact .done
  | .blocked, ts, h, t, ht => by simp [successors] at h

theorem leads_of_mem_blockSuccessors (d : Domain) (s : State) :
    ∀ (ps : List Program) {ts : List Successor}, blockSuccessors d s ps = .ok ts → ∀ t ∈ ts, Leads d s (.block ps) t
  | [], ts, h, t, ht => by
    simp only [blockSuccessors] at h
    cases h
    obtain rfl := List.mem_singleton.mp ht
    exact .empty
  | p :: rest, ts, h, t, ht => by
    simp only [blockSuccessors] at h
    obtain ⟨b, hb, h⟩ := Except.exists_of_bind_eq_ok h
    cases b with
    | true => exact .skip hb (leads_of_mem_blockSuccessors d s rest h t ht)
    | false =>
      obtain ⟨us, hu, h⟩ := Except.exists_of_bind_eq_ok h
      cases h
      obtain ⟨u, hm, rfl⟩ := List.mem_map.mp ht
      exact .before rest hb (leads_of_mem_successors d s p hu u hm)

theorem leads_of_mem_choiceSuccessors (d : Domain) (s : State) :
    ∀ (ps : List Program) {ts : List Successor}, choiceSuccessors d s ps = .ok ts →
      ∀ t ∈ ts, ∃ p ∈ ps, Leads d s p t
  | [], ts, h, t, ht => by
    simp only [choiceSuccessors] at h
    cases h
    cases ht
  | p :: rest, ts, h, t, ht => by
    simp only [choiceSuccessors] at h
    obtain ⟨us, hu, h⟩ := Except.exists_of_bind_eq_ok h
    obtain ⟨vs, hv, h⟩ := Except.exists_of_bind_eq_ok h
    cases h
    rcases List.mem_append.mp ht with hm | hm
    · exact ⟨p, List.mem_cons_self, leads_of_mem_successors d s p hu t hm⟩
    · obtain ⟨q, hq, hl⟩ := leads_of_mem_choiceSuccessors d s rest hv t hm
      exact ⟨q, List.mem_cons_of_mem p hq, hl⟩
end

theorem continuation_bound (t : Successor) (var : String) :
    (t.bound var).continuation = t.continuation.map (.bind var) := by
  unfold Successor.bound
  split
  · rename_i hc
    rw [hc]
    rfl
  · rename_i hc
    rw [hc]
    rfl

/-- A property of programs that is one of all their parts, as far as transitions take programs apart and put them
together. -/
structure Hereditary (P : Program → Prop) : Prop where
  block : ∀ ps, P (.block ps) ↔ ∀ p ∈ ps, P p
  bind : ∀ var init, P (.bind var init) ↔ P init
  consequent : ∀ condition p alternate, P (.branch condition p alternate) → P p
  alternate : ∀ condition p q, P (.branch condition p (some q)) → P q
  control : ∀ kind branches, P (.control kind branches) → ∀ p ∈ branches, P p

theorem Hereditary.resequence {P : Program → Prop} (h : Hereditary P) {head : Option Program} {rest : List Program}
    (hh : ∀ p, head = some p → P p) (hr : ∀ p ∈ rest, P p) : ∀ p, Successor.resequence head rest = some p → P p := by
  intro p hp
  cases head with
  | none =>
    cases rest with
    | nil => cases hp
    | cons q rest =>
      cases hp
      exact (h.block _).mpr hr
  | some q =>
    cases hp
    rw [h.block]
    exact List.forall_mem_cons.mpr ⟨hh q rfl, hr⟩

theorem Leads.hereditary {P : Program → Prop} (hP : Hereditary P) {d : Domain} {s : State} {p : Program} {t : Successor}
    (h : Leads d s p t) (hp : P p) : ∀ q, t.continuation = some q → P q := by
  induction h with
  | empty => rintro _ ⟨⟩
  | skip _ _ ih =>
    rw [hP.block, List.forall_mem_cons] at hp
    exact ih ((hP.block _).mpr hp.2)
  | before rest _ _ ih =>
    rw [hP.block, List.forall_mem_cons] at hp
    exact hP.resequence (ih hp.1) hp.2
  | consequent _ _ _ ih => exact ih (hP.consequent _ _ _ hp)
  | alternate _ _ _ ih => exact ih (hP.alternate _ _ _ hp)
  | pass _ _ => rintro _ ⟨⟩
  | test _ => rintro _ ⟨⟩
  | call _ _ => rintro _ ⟨⟩
  | bind var _ ih =>
    rw [continuation_bound]
    intro q hq
    obtain ⟨init, hc, rfl⟩ := Option.map_eq_some_iff.mp hq
    exact (hP.bind var init).mpr (ih ((hP.bind _ _).mp hp) init hc)
  | choice hm _ ih => exact ih (hP.control _ _ hp _ hm)
  | plan _ ih => exact ih (hP.control _ _ hp _ List.mem_cons_self)
  | done => rintro _ ⟨⟩

end Agenda.Program
