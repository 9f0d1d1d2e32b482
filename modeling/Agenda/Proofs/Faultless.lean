import Mathlib
import Agenda.Proofs.CallCount
import Agenda.Proofs.StructuralFailures

/-!
# Programs that cannot fail

A program without conditions, choices, races and plans has nothing to fail with if its calls always stand for actions
that are possible and succeed. What is left are failures of form, which a valid program does not have, and that
something was given up, which does not surface.
-/

namespace Agenda

set_option autoImplicit false

/-- Calls that always stand for actions which are possible in every state and never fail. -/
structure Vocabulary.Faultless (v : Vocabulary) (d : Domain) : Prop extends v.Unconditional where
  resolves : ∀ s name args, v.call name args = true → ∃ bound, d.resolve s name args = .ok bound
  possible : ∀ bound, d.Offers v bound → ∀ s, bound.action.possible s = true
  succeeds : ∀ bound, d.Offers v bound → ∃ result, bound.action.outcome = .ok result

def Failure.Precluded (e : Failure) : Prop := e = .abandoned ∨ e.isStructural = true

namespace Program

variable {v : Vocabulary} {c : Setting} {s : State} {p : Program} {e : Failure}

mutual
theorem isFinal_ne_error (hv : v.Unconditional) :
    ∀ p : Program, p.keepsTo v = true → p.isFinal s ≠ .error e
  | .block statements, hp => by
    rw [keepsTo] at hp
    rw [isFinal]
    exact allFinal_ne_error hv statements hp
  | .branch condition p alternate, hp => by
    rw [hv.not_branch] at hp
    cases hp
  | .test condition, hp => by
    rw [hv.not_test] at hp
    cases hp
  | .control kind branches, hp => by
    rw [keepsTo, Bool.and_eq_true] at hp
    obtain rfl := hv.control kind hp.1
    rw [isFinal]
    exact allFinal_ne_error hv branches hp.2
  | .call _ _, _ => by
    rw [isFinal]
    rintro ⟨⟩
  | .bind _ _, _ => by
    rw [isFinal]
    rintro ⟨⟩
  | .done, _ => by
    rw [isFinal]
    rintro ⟨⟩
  | .blocked, _ => by
    rw [isFinal]
    rintro ⟨⟩

theorem allFinal_ne_error (hv : v.Unconditional) :
    ∀ ps : List Program, keepToAll v ps = true → allFinal s ps ≠ .error e
  | [], _ => by
    rw [allFinal]
    rintro ⟨⟩
  | p :: rest, hp => by
    rw [keepToAll, Bool.and_eq_true] at hp
    rw [allFinal]
    intro h
    obtain h | ⟨final, -, h⟩ := Except.error_of_bind h
    · exact isFinal_ne_error hv p hp.1 h
    · cases final with
      | false => cases h
      | true => exact allFinal_ne_error hv rest hp.2 h
end

theorem finalityFailure?_eq_none (hv : v.Unconditional) {ps : List Program} (hp : ∀ p ∈ ps, p.keepsTo v = true) :
    finalityFailure? s ps = none := by
  induction ps with
  | nil => rfl
  | cons p rest ih =>
    obtain ⟨hp, hr⟩ := List.forall_mem_cons.mp hp
    rw [finalityFailure?]
    split
    · rename_i h
      exact absurd h (isFinal_ne_error hv p hp)
    · exact ih hr

theorem Refuses.precluded (hv : v.Faultless c.domain) (hp : p.keepsTo v = true) (h : p.Refuses c s e) :
    e.Precluded := by
  cases h with
  | condition _ _ _ =>
    rw [hv.not_branch] at hp
    cases hp
  | test _ =>
    rw [hv.not_test] at hp
    cases hp
  | assertion _ =>
    rw [hv.not_test] at hp
    cases hp
  | @call name args _ h =>
    rw [keepsTo] at hp
    obtain ⟨bound, hb⟩ := hv.resolves s name args hp
    rw [hb] at h
    cases h
  | choice => exact .inr rfl
  | search _ _ => cases hv.control .plan ((keepsTo_control_iff v .plan _).mp hp).1
  | planless _ _ => cases hv.control .plan ((keepsTo_control_iff v .plan _).mp hp).1
  | bodiless => exact .inr rfl
  | branches kind h =>
    rw [finalityFailure?_eq_none hv.toUnconditional ((keepsTo_control_iff v kind _).mp hp).2] at h
    cases h
  | @statement p _ rest h =>
    exact absurd h (isFinal_ne_error hv.toUnconditional p ((keepsTo_block_iff v _).mp hp p List.mem_cons_self))
  | blocked => exact .inr rfl

end Program

namespace Work

variable {v : Vocabulary} {c : Setting} {σ τ : World} {w : Work}

theorem precluded_perform {bound : BoundAction} {s : State} (h : bound.action.possible s = true) (scopes : List Nat)
    (updates : List Update) (trace : List BoundAction) (σ : World) :
    ∀ e, (perform scopes updates trace s bound σ).1.Reports e → e.Precluded := by
  intro e hr
  unfold perform at hr
  split at hr
  · cases hr
    exact .inl rfl
  · rw [h] at hr
    cases hr

theorem precluded_complete (hv : v.Faultless c.domain) {e : Execution} (he : (acting e).KeepsTo c.domain v)
    (σ : World) : ∀ x, (e.complete σ).1.Reports x → x.Precluded := by
  cases he with
  | acting hb ht =>
    obtain ⟨result, hr⟩ := hv.succeeds e.bound hb
    intro x h
    unfold Execution.complete at h
    simp only [hr] at h
    split at h
    · cases h
    · rename_i bound trace hc
      rw [hc] at ht
      exact precluded_perform (hv.possible bound (ht bound List.mem_cons_self) e.after) _ _ _ _ x h

theorem precluded_advance (hv : v.Faultless c.domain) {e : Execution} (he : (acting e).KeepsTo c.domain v)
    (h : e.advance σ = some (w, τ)) : ∀ x, w.Reports x → x.Precluded := by
  obtain ⟨allowance, hc⟩ | ⟨timer, postponed, rfl, -⟩ := Execution.advance_ends_or_stays h
  · have hr := precluded_complete hv he { σ with allowance }
    rwa [← hc] at hr
  · rintro _ ⟨⟩

end Work

theorem Program.precluded_cases {v : Vocabulary} {c : Setting} (hv : v.Faultless c.domain) (s : State) :
    DispatchCases c s (fun p _ _ l => p.keepsTo v = true → ∀ e, l.work.Reports e → e.Precluded)
      (fun ps _ _ _ _ _ r => (∀ p ∈ ps, p.isMark = false → p.keepsTo v = true) →
        ∀ f ∈ r.flights, ∀ e, f.work.Reports e → e.Precluded) := by
  refine failure_cases (hereditary_keepsTo v) (fun _ _ hp h => h.precluded hv hp) ?_ ?_
  · intro name args bound hp hb scopes σ
    rw [keepsTo] at hp
    exact Work.precluded_perform (hv.possible bound ⟨s, name, args, hp, hb⟩ s) scopes [] [] σ
  · intro body rest plan hp
    cases hv.control .plan ((keepsTo_control_iff v .plan _).mp hp).1

theorem Work.reportCases_keepsTo {v : Vocabulary} {c : Setting} (hv : v.Faultless c.domain) (σ : World) :
    ReportCases c σ (KeepsTo c.domain v) Failure.Precluded where
  flight _ f hw hf := hw.inv.2 f hf
  act _ _ _ hw h := precluded_advance hv hw h
  starve _ _ _ _ _ := .inr rfl
  fold _ d p _ _ hw hd hp hf :=
    absurd hf (Program.isFinal_ne_error hv.toUnconditional p (Frame.keepsTo_residual (hw.inv.1.batch d hd) p hp))
  launch _ t hw ht := (Program.precluded_cases hv t.state).round t.slots (t.scope :: t.outer) (fun _ => false) 0
    t.nextSeq σ fun p hp _ => (hw.inv.1.foldBatch ht).slots p hp

namespace Machine

structure Unfailing (c : Setting) (v : Vocabulary) (m : Machine) : Prop extends KeepsTo c.domain v m where
  reports : ∀ e, m.main.Reports e → e.Precluded

theorem Steps.unfailing {c : Setting} {v : Vocabulary} {m m' : Machine} (h : Steps c m m') (hv : v.Faultless c.domain)
    (hm : m.Unfailing c v) : m'.Unfailing c v := by
  refine ⟨h.keepsTo hm.toKeepsTo, ?_⟩
  intro e he
  cases h with
  | move h => exact (h.reports (Work.reportCases_keepsTo hv _) hm.main he).elim (hm.reports e) id
  | takeUp _ _ => exact hm.reports e ((Work.stirs_takeUp _).reports he)
  | wake _ _ _ => exact hm.reports e ((Work.stirs_wake _).reports he)
  | detached _ _ _ => exact hm.reports e he
  | ring _ _ => exact hm.reports e ((Work.stirs_ring _ _).reports he)

end Machine

namespace Program

variable {v : Vocabulary} {c : Setting} {p : Program} {σ : World}

theorem unfailing_settle (hv : v.Faultless c.domain) (hp : p.keepsTo v = true) (hσ : σ.KeepsTo c.domain v) (s : State) :
    ((p.started c s σ).settle c).Unfailing c v := by
  have hl := (keepsTo_cases v c s).dispatch p [] σ hp hσ
  exact Machine.settle_induction (fun _ _ hm hs => Machine.Steps.unfailing hs hv hm) _
    ⟨⟨hl.work, hl.world⟩, (precluded_cases hv s).dispatch p [] σ hp⟩

theorem precluded_drive (hv : v.Faultless c.domain) (hp : p.keepsTo v = true) (hσ : σ.KeepsTo c.domain v) {s : State}
    {f : RunFailure} (h : (p.drive c s σ).result = .error f) : f.failure.Precluded := by
  fun_induction drive c p s σ with
  | case1 p s σ e he => exact absurd he (isFinal_ne_error hv.toUnconditional p hp)
  | case2 => cases h
  | case3 p s σ _ e τ ht =>
    cases h
    apply (unfailing_settle hv hp hσ s).reports
    rw [transition_eq_error (congrArg Prod.fst ht)]
    exact .settled
  | case4 => cases h
  | case5 p s σ _ t τ ht q hc ih =>
    have hr : (p.transition c s σ).1 = .ok t := congrArg Prod.fst ht
    have hk := (unfailing_settle hv hp hσ s).world
    rw [← world_transition, ht] at hk
    exact ih ((hereditary_keepsTo v).transition hp hr hc) hk h

/-- A valid program without conditions succeeds in every state, if its actions are possible and succeed. -/
theorem run_succeeds (hv : v.Faultless c.domain) (hp : p.keepsTo v = true) (hval : p.validate = .ok ()) (s : State) :
    ∃ s', (p.run c s).result = .ok s' := by
  cases h : (p.run c s).result with
  | ok s' => exact ⟨s', rfl⟩
  | error f =>
    have hf := (ordinary_run hereditary_remnant (fun _ hp => hp) hval (.valid hval) h).form
    rw [run_of_validate c s hval] at h
    rcases precluded_drive hv hp (World.keepsTo_initial c v) h with he | he
    · exact absurd he (failure_drive (World.regular_initial c.budget) h)
    · rw [hf] at he
      cases he

end Program

end Agenda
