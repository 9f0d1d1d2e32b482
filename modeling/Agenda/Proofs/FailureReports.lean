import Mathlib
import Agenda.Proofs.EffectSources
import Agenda.Proofs.Executions

/-!
# What a failed run reports

A run that fails reports the program and the state from before the transition that failed, whatever had happened in that
transition by then. The history does show what had happened: all that was dispatched.
-/

namespace Agenda

set_option autoImplicit false

namespace Program

/-- Transitions one after the other, each from where the program may not end yet, and all their updates. -/
inductive Reaches (c : Setting) : Program → State → World → Program → State → World → List Update → Prop
  | refl (p : Program) (s : State) (σ : World) : Reaches c p s σ p s σ []
  | step {p q r : Program} {s s' : State} {σ τ υ : World} {t : Successor} {updates : List Update} :
      p.isFinal s = .ok false → p.transition c s σ = (.ok t, τ) → t.continuation = some q →
      Reaches c q t.state τ r s' υ updates → Reaches c p s σ r s' υ (t.updates ++ updates)

/-- It cannot be told whether the program may end, or its transition fails. -/
inductive Halts (c : Setting) (p : Program) (s : State) (σ : World) (e : Failure) : World → Prop
  | finality : p.isFinal s = .error e → Halts c p s σ e σ
  | transition {τ : World} : p.isFinal s = .ok false → p.transition c s σ = (.error e, τ) → Halts c p s σ e τ

variable {c : Setting} {p q : Program} {s s' : State} {σ τ : World} {updates : List Update} {e : Failure}

theorem Reaches.drive_eq (h : Reaches c p s σ q s' τ updates) : p.drive c s σ = q.drive c s' τ := by
  induction h with
  | refl p s σ => rfl
  | step hf ht hc _ ih =>
    rw [Program.drive_eq, hf, ht]
    simp only [hc]
    exact ih

theorem Halts.drive_eq (h : Halts c p s σ e τ) : p.drive c s σ = ⟨.error ⟨e, p, s⟩, τ⟩ := by
  cases h with
  | finality he => rw [Program.drive_eq, he]
  | transition hf ht => rw [Program.drive_eq, hf, ht]

theorem exists_halts_of_drive {f : RunFailure} (h : (p.drive c s σ).result = .error f) :
    ∃ τ updates, Reaches c p s σ f.program f.state τ updates ∧
      f.program.Halts c f.state τ f.failure (p.drive c s σ).world := by
  fun_induction drive c p s σ with
  | case1 p s σ e he =>
    cases h
    exact ⟨σ, [], .refl p s σ, .finality he⟩
  | case2 => cases h
  | case3 p s σ hf e τ ht =>
    cases h
    exact ⟨σ, [], .refl p s σ, .transition hf ht⟩
  | case4 => cases h
  | case5 p s σ hf t τ ht q hc ih =>
    obtain ⟨υ, updates, hr, hh⟩ := ih h
    exact ⟨υ, t.updates ++ updates, .step hf ht hc hr, hh⟩

theorem Reaches.replays (h : Reaches c p s σ q s' τ updates) : Update.applyAll s updates = s' := by
  induction h with
  | refl p s σ => rfl
  | step _ ht _ _ ih =>
    rw [Update.applyAll_append, (resolves_transition (congrArg Prod.fst ht)).replays]
    exact ih

theorem Reaches.backs (h : Reaches c p s σ q s' τ updates) {others : Multiset BoundAction} (hσ : σ.Backs others) :
    τ.Backs (↑(Update.effects updates) + others) := by
  induction h generalizing others with
  | refl p s σ => exact hσ.mono (zero_add others).le
  | step _ ht _ _ ih =>
    have hb := backs_transition (congrArg Prod.fst ht) hσ
    rw [ht] at hb
    rw [Update.effects_append, ← Multiset.coe_add, add_assoc, add_left_comm]
    exact ih hb

theorem Reaches.attributed (h : Reaches c p s σ q s' τ updates) (hσ : σ.Attributed) : τ.Attributed := by
  induction h with
  | refl p s σ => exact hσ
  | @step p _ _ s _ σ _ _ _ _ _ ht _ _ ih =>
    have ha := attributed_transition (c := c) (p := p) (s := s) hσ
    rw [ht] at ha
    exact ih ha

theorem log_transition (hσ : σ.Attributed) : σ.log <+: (p.transition c s σ).2.log := by
  obtain ⟨hs, events, hl, -⟩ := attributed_started (c := c) (p := p) (s := s) hσ
  refine (Machine.settle_induction (P := fun m => m.Attributed ∧ σ.log <+: m.world.log) ?_ (p.started c s σ)
    ⟨hs, events, hl.symm⟩).2
  rintro m m' ⟨hm, hp⟩ hst
  obtain ⟨events, ha⟩ := hst.adds hm.toScoped
  exact ⟨hst.attributed hm, hp.trans ⟨events, ha.log.symm⟩⟩

theorem Halts.dispatched (h : Halts c p s σ e τ) (hσ : σ.Attributed) : σ.dispatched <+: τ.dispatched := by
  apply List.IsPrefix.filterMap
  cases h with
  | finality _ => exact List.prefix_rfl
  | transition _ ht =>
    have hl := log_transition (c := c) (p := p) (s := s) hσ
    rwa [ht] at hl

/-- A run fails with a report just when transitions lead from its start to the program and the state of the report, and
the program halts there with the failure of the report. The state is that of the start with the updates of these
transitions, and their effects are those of actions that had been dispatched before the transition that failed: nothing
of that one is in it. The history does show the recorded actions that had been dispatched by then, and those of that
transition after them. Each of them has ended, or goes on by itself. -/
theorem failure_report_exact (c : Setting) {p : Program} (s : State) (hv : p.validate = .ok ()) (f : RunFailure) :
    ((p.run c s).result = .error f ↔ ∃ σ updates τ, p.Reaches c s c.initial f.program f.state σ updates ∧
      f.program.Halts c f.state σ f.failure τ) ∧
    ∀ σ updates τ, p.Reaches c s c.initial f.program f.state σ updates → f.program.Halts c f.state σ f.failure τ →
      Update.applyAll s updates = f.state ∧ (↑(Update.effects updates) : Multiset BoundAction) ≤ ↑σ.dispatched ∧
      (p.run c s).world = τ ∧
      (∃ acts, τ.dispatched = σ.dispatched ++ acts ∧
        (p.run c s).history = ((σ.dispatched ++ acts).filter (·.action.recorded)).map (·.record)) ∧
      τ.Owes 0 := by
  have hd : ∀ σ updates τ, p.Reaches c s c.initial f.program f.state σ updates →
      f.program.Halts c f.state σ f.failure τ → p.run c s = ⟨.error f, τ⟩ := by
    intro σ updates τ hr hh
    rw [run_of_validate c s hv, hr.drive_eq, hh.drive_eq]
  constructor
  · constructor
    · intro h
      rw [run_of_validate c s hv] at h
      obtain ⟨σ, updates, hr, hh⟩ := exists_halts_of_drive h
      exact ⟨σ, updates, _, hr, hh⟩
    · rintro ⟨σ, updates, τ, hr, hh⟩
      rw [hd σ updates τ hr hh]
  · intro σ updates τ hr hh
    have hrun := hd σ updates τ hr hh
    obtain ⟨acts, ha⟩ := hh.dispatched (hr.attributed (World.attributed_initial c))
    refine ⟨hr.replays, ?_, by rw [hrun], ⟨acts, ha.symm, ?_⟩, ?_⟩
    · exact (hr.backs (Multiset.zero_le _)).mono (add_zero _).ge
    · rw [hrun, Run.history, World.history_eq, ha]
    · have ho := Account.ends.holds_run c p s
      rwa [hrun, ← World.owes_iff] at ho

/-- After one count, an action fails when a second count has been taken into the state of its construct and a third one
is under way. -/
def failBesideCounts : Program :=
  .block [.bind "first" (.call "Inc" [("ms", .const (.int 3)), ("result", .const (.int 1))]),
    .control .conc [.bind "second" (.call "Inc" [("ms", .const (.int 3)), ("result", .const (.int 2))]),
      .call "Fail" [], .call "Inc" [("ms", .const (.int 200))]]]

theorem failure_report_exact_failBesideCounts :
    ∃ f σ updates τ, failBesideCounts.run Setting.standard {} = ⟨.error f, τ⟩ ∧
      failBesideCounts.Reaches Setting.standard {} Setting.standard.initial f.program f.state σ updates ∧
      (↑(Update.effects updates) : Multiset BoundAction) ≤ ↑σ.dispatched ∧
      Update.applyAll {} updates = f.state ∧ f.state = { vars := [("first", .int 1)], facts := [("count", .int 1)] } ∧
      τ.history.map (·.name) = ["Inc", "Inc", "Fail", "Inc"] ∧ τ.completions.map (·.1) = [3, 6, 103] ∧ τ.Owes 0 := by
  have hs : (match failBesideCounts.run Setting.standard {} with
      | ⟨.error f, τ⟩ => some (f.state, τ.history.map (·.name), τ.completions.map (·.1))
      | ⟨.ok _, _⟩ => none) =
      some ({ vars := [("first", .int 1)], facts := [("count", .int 1)] }, ["Inc", "Inc", "Fail", "Inc"],
        [3, 6, 103]) := by
    rw [run_of_validate _ _ rfl, drive_eq]
    conv in drive _ _ _ _ => rw [drive_eq]
    cbv
  rcases hr : failBesideCounts.run Setting.standard {} with ⟨e | s, τ⟩
  · rw [hr] at hs
    obtain ⟨hst, hl⟩ := Prod.mk.inj (Option.some.inj hs)
    obtain ⟨hh, hc⟩ := Prod.mk.inj hl
    obtain ⟨hi, hw⟩ := failure_report_exact Setting.standard (p := failBesideCounts) {} rfl e
    obtain ⟨σ, updates, υ, hre, hha⟩ := hi.mp (congrArg Run.result hr)
    obtain ⟨hu, hb, hυ, -, ho⟩ := hw σ updates υ hre hha
    rw [hr] at hυ
    cases hυ
    exact ⟨e, σ, updates, τ, rfl, hre, hb, hu, hst, hh, hc, ho⟩
  · rw [hr] at hs
    cases hs

end Program

end Agenda
