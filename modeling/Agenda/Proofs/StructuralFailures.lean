import Mathlib
import Agenda.Proofs.Abandonment
import Agenda.Proofs.Occupancy
import Agenda.Proofs.Resolution

/-!
# Failures that validity rules out

A choice without branches, a plan without its one body, a mark where no construct keeps its slots and a construct none
of whose branches can go on are failures of the form of a program. What remains of a valid program keeps its form, and
no slot table ever comes to a state in which nothing is under way. What is left is that a plan has something to run side
by side in it, and then that plan is one of the program.
-/

namespace Agenda

set_option autoImplicit false

namespace Program

mutual
/-- Whether nothing is to run side by side inside of a plan. -/
def plansSequentially : Program → Bool
  | .block statements => planSequentiallyAll statements
  | .branch _ consequent none => consequent.plansSequentially
  | .branch _ consequent (some alternate) => consequent.plansSequentially && alternate.plansSequentially
  | .bind _ init => init.plansSequentially
  | .control .plan branches => keepToAll (.without [.conc, .either]) branches
  | .control _ branches => planSequentiallyAll branches
  | .test _ => true
  | .call _ _ => true
  | .done => true
  | .blocked => true
termination_by structural p => p

def planSequentiallyAll : List Program → Bool
  | [] => true
  | p :: rest => p.plansSequentially && planSequentiallyAll rest
termination_by structural ps => ps
end

theorem planSequentiallyAll_iff (ps : List Program) :
    planSequentiallyAll ps = true ↔ ∀ p ∈ ps, p.plansSequentially = true := by
  induction ps with
  | nil => simp [planSequentiallyAll]
  | cons p rest ih => simp [planSequentiallyAll, ih]

mutual
theorem plansSequentially_of_keepsTo :
    ∀ p : Program, p.keepsTo (.without [.conc, .either]) = true → p.plansSequentially = true
  | .block ps, h => by
    rw [keepsTo] at h
    rw [plansSequentially]
    exact planSequentiallyAll_of_keepToAll ps h
  | .branch _ p none, h => by
    rw [plansSequentially]
    exact plansSequentially_of_keepsTo p (keepsTo_consequent h)
  | .branch _ p (some q), h => by
    rw [plansSequentially, plansSequentially_of_keepsTo p (keepsTo_consequent h),
      plansSequentially_of_keepsTo q (keepsTo_alternate h)]
    rfl
  | .bind _ init, h => by
    rw [keepsTo] at h
    rw [plansSequentially]
    exact plansSequentially_of_keepsTo init h
  | .control .plan branches, h => by
    rw [keepsTo, Bool.and_eq_true] at h
    rw [plansSequentially]
    exact h.2
  | .control .or branches, h => by
    rw [keepsTo, Bool.and_eq_true] at h
    rw [plansSequentially]
    · exact planSequentiallyAll_of_keepToAll branches h.2
    · rintro ⟨⟩
  | .control .conc _, h => by cases h
  | .control .either _, h => by cases h
  | .test _, _ => rfl
  | .call _ _, _ => rfl
  | .done, _ => rfl
  | .blocked, _ => rfl

theorem planSequentiallyAll_of_keepToAll :
    ∀ ps : List Program, keepToAll (.without [.conc, .either]) ps = true → planSequentiallyAll ps = true
  | [], _ => rfl
  | p :: rest, h => by
    rw [keepToAll, Bool.and_eq_true] at h
    rw [planSequentiallyAll, plansSequentially_of_keepsTo p h.1, planSequentiallyAll_of_keepToAll rest h.2]
    rfl
end

theorem plansSequentially_control {kind : Control} (hk : kind ≠ .plan) (branches : List Program) :
    (control kind branches).plansSequentially = planSequentiallyAll branches := by
  cases kind with
  | plan => exact absurd rfl hk
  | _ => rfl

theorem hereditary_plansSequentially : Hereditary fun p => p.plansSequentially = true where
  block ps := by rw [plansSequentially, planSequentiallyAll_iff]
  bind var init := by rw [plansSequentially]
  consequent _ p alternate h := by
    cases alternate with
    | none => rwa [plansSequentially] at h
    | some q =>
      rw [plansSequentially, Bool.and_eq_true] at h
      exact h.1
  alternate _ p q h := by
    rw [plansSequentially, Bool.and_eq_true] at h
    exact h.2
  control kind branches h p hp := by
    by_cases hk : kind = .plan
    · rw [hk, plansSequentially, keepToAll_iff] at h
      exact plansSequentially_of_keepsTo p (h p hp)
    · rw [plansSequentially_control hk, planSequentiallyAll_iff] at h
      exact h p hp

end Program

/-! ### Ordinary failures -/

namespace Failure

def isStructural : Failure → Bool
  | .unsupported (.notPlannable _) => false
  | .unsupported _ => true
  | .noTransition (.impossible _) => false
  | .noTransition _ => true
  | _ => false

/-- The failure is none of form. If something cannot be planned over, it stands in a plan with the property. -/
structure Ordinary (P : Program → Prop) (e : Failure) : Prop where
  form : e.isStructural = false
  plan : ∀ kind, e = .unsupported (.notPlannable kind) →
    ∃ body rest, P (.control .plan (body :: rest)) ∧ body.keepsTo (.without [.conc, .either]) = false

variable {P : Program → Prop} {e : Failure}

theorem ordinary_of_eval (h : ∃ error, e = .eval error) : e.Ordinary P := by
  obtain ⟨error, rfl⟩ := h
  refine ⟨rfl, ?_⟩
  rintro _ ⟨⟩

theorem ordinary_action (error : ActionError) : (Failure.action error).Ordinary P := by
  refine ⟨rfl, ?_⟩
  rintro _ ⟨⟩

end Failure

namespace Program

variable {P : Program → Prop} {c : Setting} {s : State} {p : Program} {e : Failure}

theorem Hinders.of_plannable (h : Hinders Plannable e) : (∃ error, e = .eval error) ∨ ∃ error, e = .action error := by
  cases h with
  | eval error => exact .inl ⟨error, rfl⟩
  | action error => exact .inr ⟨error, rfl⟩
  | bodies hp hn =>
    cases hp with
    | plan _ => exact absurd rfl hn
  | abreast hk hp =>
    cases hp with
    | choice _ _ => simp at hk
    | plan _ => simp at hk
  | blocked hp => cases hp

theorem Hinders.of_remnant (h : Hinders Remnant e) : e.isStructural = false := by
  cases h with
  | eval _ => rfl
  | action _ => rfl
  | bodies hp hn => exact absurd ((checkArity_eq_ok (validate_control hp.validate_control).1).2 rfl) hn
  | abreast _ _ => rfl
  | blocked hp => exact absurd hp not_remnant_blocked

theorem Refuses.ordinary (hr : ∀ p, P p → Remnant p) (h : p.Refuses c s e) (hp : P p) : e.Ordinary P := by
  cases h with
  | condition _ _ h => exact Failure.ordinary_of_eval (Expr.decide_eq_error h)
  | test h => exact Failure.ordinary_of_eval (Expr.decide_eq_error h)
  | assertion _ =>
    refine ⟨rfl, ?_⟩
    rintro _ ⟨⟩
  | call h =>
    obtain he | ⟨error, rfl⟩ := Domain.resolve_eq_error h
    · exact Failure.ordinary_of_eval he
    · exact Failure.ordinary_action error
  | choice => exact absurd rfl (checkArity_eq_ok (validate_control (hr _ hp).validate_control).1).1
  | @search body _ rest h =>
    have hv := (validate_control (hr _ hp).validate_control).2 body List.mem_cons_self
    cases hk : body.keepsTo (.without [.conc, .either]) with
    | true =>
      have hb := hinders_of_search hereditary_plannable _ _ _ _ _ _ (plannable_of_validate body hv hk) h
      obtain he | ⟨error, rfl⟩ := hb.of_plannable
      · exact Failure.ordinary_of_eval he
      · exact Failure.ordinary_action error
    | false =>
      have hb := hinders_of_search hereditary_remnant _ _ _ _ _ _ (.valid hv) h
      exact ⟨hb.of_remnant, fun _ _ => ⟨body, rest, hp, hk⟩⟩
  | planless _ _ =>
    refine ⟨rfl, ?_⟩
    rintro _ ⟨⟩
  | bodiless => exact absurd rfl (checkArity_eq_ok (validate_control (hr _ hp).validate_control).1).1
  | branches _ h => exact Failure.ordinary_of_eval (finalityFailure_eq_some h)
  | statement _ h => exact Failure.ordinary_of_eval (isFinal_eq_error s _ h)
  | blocked => exact absurd (hr _ hp) not_remnant_blocked

end Program

/-! ### Failures in what is under way -/

namespace Scheduler

theorem slotsFinished_of_done {kind : Control} {slots : List Program} (hn : slots ≠ [])
    (h : ∀ p ∈ slots, p = .done) : slotsFinished kind slots = true := by
  obtain ⟨p, rest, rfl⟩ := List.exists_cons_of_ne_nil hn
  unfold slotsFinished
  split
  · rw [List.any_eq_true]
    exact ⟨p, List.mem_cons_self, h p List.mem_cons_self ▸ rfl⟩
  · rw [List.all_eq_true]
    exact fun q hq => h q hq ▸ rfl

theorem Rooted.not_starved {c : Setting} {P : Program → Prop} {s : Scheduler Work} (h : s.Rooted c P)
    (hr : ∀ p, P p → p.Remnant) (hf : s.isFinished = false) (hb : s.batch = []) : s.flights ≠ [] := by
  intro he
  obtain ⟨branches, start, hp, hs⟩ := h.origin
  have hv := (hr _ hp).validate_control
  have ha := (hs.orderly h.kind hv).accounted hs.tabled ⟨hf, hb⟩
  have hn : s.slots ≠ [] := by
    apply List.ne_nil_of_length_pos
    rw [ha.slots]
    exact Nat.pos_of_ne_zero (Program.checkArity_eq_ok (Program.validate_control hv).1).1
  have hd : s.isFinished = true := by
    refine slotsFinished_of_done hn ?_
    intro p hm
    rcases ha.marks p hm with hd | rfl
    · exact hd
    · -- a slot that reads `blocked` has a flight
      obtain ⟨i, hi⟩ := List.mem_iff_getElem?.mp hm
      have hc := ha.blocked i hi
      rw [he] at hc
      cases hc
  rw [hd] at hf
  cases hf

end Scheduler

namespace Work

variable {c : Setting} {P : Program → Prop} {w w' : Work} {σ τ : World}

theorem ordinary_perform (scopes : List Nat) (updates : List Update) (trace : List BoundAction) (s : State)
    (bound : BoundAction) (σ : World) :
    ∀ e, (perform scopes updates trace s bound σ).1.Reports e → e.Ordinary P := by
  intro e h
  unfold perform at h
  split at h
  · cases h
    refine ⟨rfl, ?_⟩
    rintro _ ⟨⟩
  · split at h
    · cases h
      refine ⟨rfl, ?_⟩
      rintro _ ⟨⟩
    · cases h

theorem ordinary_advance {e : Execution} (h : e.advance σ = some (w, τ)) : ∀ e, w.Reports e → e.Ordinary P := by
  have hc : ∀ σ e', (e.complete σ).1.Reports e' → e'.Ordinary P := by
    intro σ e' hr
    obtain ⟨message, he⟩ | ⟨result, -, he⟩ | ⟨bound, trace, -, he⟩ := e.complete_cases σ
    · rw [he] at hr
      cases hr
      refine ⟨rfl, ?_⟩
      rintro _ ⟨⟩
    · rw [he] at hr
      cases hr
    · rw [he] at hr
      exact ordinary_perform e.scopes _ trace e.after bound _ e' hr
  obtain ⟨allowance, he⟩ | ⟨timer, postponed, rfl, -⟩ := Execution.advance_ends_or_stays h
  · have hr := hc { σ with allowance }
    rwa [← he] at hr
  · rintro _ ⟨⟩

end Work

/-- Where refusing to be dispatched and performing end with certain failures only, so does all that is launched. -/
theorem Program.failure_cases {P : Program → Prop} {R : Failure → Prop} (hP : Hereditary P) {c : Setting} {s : State}
    (hr : ∀ p e, P p → p.Refuses c s e → R e)
    (hc : ∀ name args bound, P (.call name args) → c.domain.resolve s name args = .ok bound → ∀ scopes σ e,
      (Work.perform scopes [] [] s bound σ).1.Reports e → R e)
    (hpl : ∀ body rest plan, P (.control .plan (body :: rest)) → body.plan c.domain c.planLimit s = .ok (some plan) →
      ∀ scopes σ e, (Work.performAll scopes s σ plan.trace).1.Reports e → R e) :
    DispatchCases c s (fun p _ _ l => P p → ∀ e, l.work.Reports e → R e)
      (fun ps _ _ _ _ _ r => (∀ p ∈ ps, p.isMark = false → P p) → ∀ f ∈ r.flights, ∀ e, f.work.Reports e → R e) where
  failed p _ _ e h hp := by
    rintro _ ⟨⟩
    exact hr p e hp h
  finished _ _ _ _ _ := by rintro _ ⟨⟩
  call name args scopes σ bound hb hp := hc name args bound hp hb scopes σ
  plan body rest scopes σ plan hb hp := hpl body rest plan hp hb scopes σ
  enter _ _ _ _ _ he h hp := h (hP.enters he hp)
  skip _ rest _ _ _ _ h hp := by
    rw [hP.block, List.forall_mem_cons] at hp
    exact h ((hP.block rest).mpr hp.2)
  before _ _ _ _ _ _ h hp := by
    rw [hP.block, List.forall_mem_cons] at hp
    exact h hp.1
  bind var init _ _ _ h hp := h ((hP.bind var init).mp hp)
  decided _ _ _ _ _ _ _ _ _ := by
    intro e h
    cases h with
    | batch hd _ => exact absurd hd List.not_mem_nil
    | flight hf _ => exact absurd hf List.not_mem_nil
  group kind branches _ _ r _ _ _ _ h hp := by
    have hf := h fun q hq _ => hP.control kind branches hp q hq
    intro e hr
    cases hr with
    | batch hd _ => exact absurd hd List.not_mem_nil
    | @flight _ f hm hr =>
      rw [Scheduler.flights, List.append_nil] at hm
      exact hf f hm e hr
  nil _ _ _ _ _ _ := List.forall_mem_nil _
  done _ _ _ _ _ _ _ _ _ h hp := h (List.forall_mem_cons.mp hp).2
  mark _ _ _ _ _ _ _ _ _ _ h hp := h (List.forall_mem_cons.mp hp).2
  start _ _ _ _ _ _ _ _ _ _ hm hl h hp := by
    obtain ⟨hp, hrest⟩ := List.forall_mem_cons.mp hp
    exact List.forall_mem_cons.mpr ⟨hl (hp hm), h hrest⟩

theorem Program.ordinary_cases {P : Program → Prop} (hP : Hereditary P) (hr : ∀ p, P p → Remnant p) (c : Setting)
    (s : State) :
    DispatchCases c s (fun p _ _ l => P p → ∀ e, l.work.Reports e → e.Ordinary P)
      (fun ps _ _ _ _ _ r => (∀ p ∈ ps, p.isMark = false → P p) →
        ∀ f ∈ r.flights, ∀ e, f.work.Reports e → e.Ordinary P) := by
  refine failure_cases hP (fun _ _ hp h => h.ordinary hr hp) ?_ ?_
  · exact fun _ _ bound _ _ scopes σ => Work.ordinary_perform scopes [] [] s bound σ
  · intro body rest plan _ _ scopes σ
    obtain ⟨-, he⟩ | ⟨bound, trace, -, he⟩ := Work.performAll_cases scopes s σ plan.trace
    · rw [he]
      rintro _ ⟨⟩
    · rw [he]
      exact Work.ordinary_perform scopes [] trace s bound σ

namespace Work

structure Ordinary (c : Setting) (P : Program → Prop) (w : Work) : Prop where
  rooted : w.Rooted c P
  reports : ∀ e, w.Reports e → e.Ordinary P

variable {c : Setting} {P : Program → Prop} {w w' : Work} {σ τ : World}

theorem Ordinary.flight {s : Scheduler Work} {f : Flight Work} (h : Ordinary c P (.group s)) (hf : f ∈ s.flights) :
    f.work.Ordinary c P :=
  ⟨h.rooted.inv.2 f hf, fun e he => h.reports e (.flight hf he)⟩

theorem reportCases_rooted (hP : Program.Hereditary P) (hr : ∀ p, P p → p.Remnant) (c : Setting) (σ : World) :
    ReportCases c σ (Rooted c P) (·.Ordinary P) where
  flight _ f hw hf := hw.inv.2 f hf
  act _ _ _ _ h := ordinary_advance h
  starve _ hw hn hb hf := absurd hf (hw.inv.1.not_starved hr hn hb)
  fold _ _ p u _ _ _ _ hf := Failure.ordinary_of_eval (Program.isFinal_eq_error u p hf)
  launch _ t hw ht := (Program.ordinary_cases hP hr c t.state).round t.slots (t.scope :: t.outer) (fun _ => false) 0
    t.nextSeq σ (hw.inv.1.slots_foldBatch hP ht)

theorem lasting_ordinary (hP : Program.Hereditary P) (hr : ∀ p, P p → p.Remnant) (c : Setting) :
    Lasting c (Ordinary c P) where
  move h hw := by
    refine ⟨h.rooted hP hw.rooted, ?_⟩
    intro e he
    exact (h.reports (reportCases_rooted hP hr c _) hw.rooted he).elim (hw.reports e) id
  stir h hw := ⟨h.rooted hw.rooted, fun e he => hw.reports e (h.reports he)⟩
  flight hw hf := hw.flight hf

end Work

namespace Program

variable {P : Program → Prop} {c : Setting} {p : Program} {s : State}

/-- Where a program and all its parts have a property that what remains of valid programs has, a run of the program
fails with ordinary failures only. -/
theorem ordinary_run (hP : Hereditary P) (hr : ∀ p, P p → Remnant p) (hv : p.validate = .ok ()) (hp : P p)
    {f : RunFailure} (h : (p.run c s).result = .error f) : f.failure.Ordinary P := by
  rw [run_of_validate c s hv] at h
  obtain he | ⟨before, m, hm, hs⟩ := drive_eq_error h
  · exact Failure.ordinary_of_eval he
  · have hl : ∀ p s σ, P p → (p.dispatch c s [] σ).work.Ordinary c P := fun p s σ hp =>
      ⟨((rooted_cases hP c s).dispatch p [] σ hp).work, (ordinary_cases hP hr c s).dispatch p [] σ hp⟩
    have hw := hm.lasting hP (Work.lasting_ordinary hP hr c) hl hp (List.forall_mem_nil _) m.main List.mem_cons_self
    apply hw.reports
    rw [hs]
    exact .settled

/-- A run of a valid program never fails because of the form of the program, nor does it wait for nothing. Where nothing
is to run side by side inside of a plan, it deals with every construct. And where nothing is to run side by side at all,
so does planning. -/
theorem valid_form_never_fails (c : Setting) {p : Program} (s : State) (hv : p.validate = .ok ()) :
    (∀ f, (p.run c s).result = .error f →
      f.failure ≠ .unsupported .strayBlocked ∧ f.failure ≠ .unsupported .emptyPlan ∧
      (∀ n, f.failure ≠ .unsupported (.planBranches n)) ∧ f.failure ≠ .noTransition .emptyChoice ∧
      (∀ kind, f.failure ≠ .noTransition (.noRunnableBranch kind)) ∧ f.failure ≠ .noTransition .standstill) ∧
    (p.plansSequentially = true → ∀ f, (p.run c s).result = .error f → ∀ u, f.failure ≠ .unsupported u) ∧
    (p.keepsTo (.without [.conc, .either]) = true → ∀ u, p.planValid c s ≠ .error (.unsupported u)) := by
  refine ⟨?_, ?_, ?_⟩
  · intro f hf
    have ho := (ordinary_run hereditary_remnant (fun _ hp => hp) hv (.valid hv) hf).form
    refine ⟨?_, ?_, ?_, ?_, ?_, ?_⟩
    · intro he
      cases he ▸ ho
    · intro he
      cases he ▸ ho
    · intro n he
      cases he ▸ ho
    · intro he
      cases he ▸ ho
    · intro kind he
      cases he ▸ ho
    · intro he
      cases he ▸ ho
  · intro hp f hf u he
    have ho := ordinary_run (hereditary_remnant.and hereditary_plansSequentially) (fun _ hp => hp.1) hv
      ⟨.valid hv, hp⟩ hf
    rw [he] at ho
    cases u with
    | notPlannable kind =>
      -- the plan that is to blame is one of the program, and there is no such plan
      obtain ⟨body, rest, ⟨-, hs⟩, hk⟩ := ho.plan kind rfl
      rw [plansSequentially, keepToAll, Bool.and_eq_true, hk] at hs
      cases hs.1
    | _ => cases ho.form
  · intro hk u h
    unfold planValid at h
    rw [hv] at h
    have hb := hinders_of_search hereditary_plannable _ _ _ _ _ _ (plannable_of_validate p hv hk) h
    obtain ⟨error, he⟩ | ⟨error, he⟩ := hb.of_plannable
    · cases he
    · cases he

def needAfterPut : Program :=
  .control .plan [.block [.call "Put" [], .call "Need" [("value", .const .null)]]]

/-- The plan beside a race in which an action fails. -/
def raceBesidePlan : Program :=
  .control .conc [needAfterPut, .control .either [.call "Sleep" [("time", .const (.int 500))], .call "Fail" []]]

theorem valid_form_never_fails_raceBesidePlan :
    raceBesidePlan.plansSequentially = true ∧
    (∃ f, (raceBesidePlan.run Setting.standard {}).result = .error f ∧
      (∀ kind, f.failure ≠ .noTransition (.noRunnableBranch kind)) ∧ f.failure ≠ .noTransition .standstill ∧
      ∀ u, f.failure ≠ .unsupported u) ∧
    needAfterPut.keepsTo (.without [.conc, .either]) = true ∧
    ∀ u, needAfterPut.planValid Setting.standard {} ≠ .error (.unsupported u) := by
  obtain ⟨h1, h2, -⟩ := valid_form_never_fails Setting.standard {} (by cbv : raceBesidePlan.validate = .ok ())
  obtain ⟨-, -, h3⟩ := valid_form_never_fails Setting.standard {} (by cbv : needAfterPut.validate = .ok ())
  have hf : (raceBesidePlan.run Setting.standard {}).result.toOption.isNone = true := by
    rw [run_of_validate _ _ rfl, drive_eq]
    cbv
  refine ⟨rfl, ?_, rfl, h3 rfl⟩
  cases hr : (raceBesidePlan.run Setting.standard {}).result with
  | ok s =>
    rw [hr] at hf
    cases hf
  | error f =>
    obtain ⟨-, -, -, -, hn, hs⟩ := h1 f hr
    exact ⟨f, rfl, hn, hs, h2 rfl f hr⟩

/-- Something to run side by side inside of a plan is valid, and cannot be dealt with. -/
example : (control .plan [.control .conc [.call "Inc" []]]).validate = .ok () ∧
    ((control .plan [.control .conc [.call "Inc" []]]).dispatch Setting.standard {} [] {}).work =
      .settled (.error (.unsupported (.notPlannable .conc))) := by
  constructor <;> cbv

end Program

end Agenda
