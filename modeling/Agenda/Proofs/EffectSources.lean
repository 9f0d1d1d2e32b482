import Mathlib
import Agenda.Proofs.Attribution

/-!
# Where effects come from

Ends of races are discarded, and so is what was done in a construct that fails. But an effect that is passed on is
always that of an action that was dispatched, and no dispatch stands for two effects.
-/

namespace Agenda

set_option autoImplicit false

namespace World

/-- The actions are among those that were dispatched, each as often. -/
def Backs (σ : World) (acts : Multiset BoundAction) : Prop := acts ≤ ↑σ.dispatched

variable {σ τ : World} {acts fewer others : Multiset BoundAction}

theorem Backs.mono (h : σ.Backs acts) (hl : fewer ≤ acts) : σ.Backs fewer := le_trans hl h

theorem Backs.reduce (h : σ.Backs (acts + others)) (hl : fewer ≤ acts) : σ.Backs (fewer + others) :=
  h.mono (add_le_add_left hl others)

theorem Backs.later (h : σ.Backs acts) (hd : σ.dispatched <+: τ.dispatched) : τ.Backs acts :=
  le_trans h (Multiset.coe_le.mpr hd.sublist.subperm)

theorem Backs.of_dispatched_eq (h : σ.Backs acts) (hd : τ.dispatched = σ.dispatched) : τ.Backs acts := by
  rw [Backs, hd]
  exact h

theorem Backs.dispatch (h : σ.Backs acts) (bound : BoundAction) (scopes : List Nat) (time : Nat) :
    (σ.record (.dispatched bound scopes time)).Backs (acts + {bound}) := by
  unfold Backs
  rw [dispatched_record_dispatched, ← Multiset.coe_add]
  exact add_le_add_left h _

theorem Backs.complete (h : σ.Backs acts) (record : ActionRecord) (time : Nat) :
    (σ.record (.completed record time)).Backs acts := by
  unfold Backs
  rw [dispatched_record_completed]
  exact h

theorem Backs.abandon (h : σ.Backs acts) (scope : Nat) (works : List Work) : (σ.abandon scope works).Backs acts := by
  unfold Backs
  rw [dispatched_abandon]
  exact h

end World

theorem Work.backs_perform {scopes : List Nat} {updates : List Update} {trace : List BoundAction} {s : State}
    {bound : BoundAction} {σ : World} {others : Multiset BoundAction}
    (h : σ.Backs (↑(Update.effects updates) + others)) :
    (perform scopes updates trace s bound σ).2.Backs ((perform scopes updates trace s bound σ).1.acts + others) := by
  obtain ⟨e, he⟩ | ⟨-, he⟩ := perform_cases scopes updates trace s bound σ
  · rw [he, acts, zero_add]
    exact h.mono (Multiset.le_add_left _ _)
  · rw [he, acts, add_right_comm]
    exact h.dispatch bound scopes σ.clock

theorem Execution.backs_complete (e : Execution) {σ : World} {others : Multiset BoundAction}
    (h : σ.Backs ((Work.acting e).acts + others)) : (e.complete σ).2.Backs ((e.complete σ).1.acts + others) := by
  have hu : (↑(Update.effects (e.updates ++ [.effect e.bound])) : Multiset BoundAction) = (Work.acting e).acts := by
    rw [Update.effects_concat_effect, Work.acts, ← Multiset.coe_add, Multiset.coe_singleton]
  have hc := h.complete e.bound.record σ.clock
  obtain ⟨message, he⟩ | ⟨result, -, he⟩ | ⟨bound, trace, -, he⟩ := e.complete_cases σ
  · rw [he, Work.acts, zero_add]
    exact hc.mono (Multiset.le_add_left _ _)
  · rw [he, Work.acts, hu]
    exact hc
  · rw [he]
    apply Work.backs_perform
    rw [hu]
    exact hc

theorem Program.backs_cases (c : Setting) (s : State) :
    DispatchCases c s
      (fun _ _ σ l => ∀ others, σ.Backs others → l.world.Backs (l.work.acts + others))
      (fun _ _ _ _ _ σ r => ∀ others, σ.Backs others →
        r.world.Backs ((r.flights.map (·.work.acts)).sum + others)) where
  failed _ _ _ _ _ others h := by
    rw [Launch.failed, Work.acts, zero_add]
    exact h
  finished _ _ _ _ others h := by
    have he : (↑(Update.effects []) : Multiset BoundAction) = 0 := rfl
    rw [Launch.finished, Work.acts, he, zero_add]
    exact h
  call _ _ _ σ _ _ others h := by
    apply Work.backs_perform
    exact h.mono (zero_add others).le
  plan _ _ scopes σ plan _ others h := by
    obtain ⟨-, he⟩ | ⟨bound, rest, -, he⟩ := Work.performAll_cases scopes s σ plan.trace
    · rw [he]
      exact h.mono (zero_add others).le
    · rw [he]
      apply Work.backs_perform
      exact h.mono (zero_add others).le
  enter _ _ _ _ _ _ h := h
  skip _ _ _ _ _ _ h := h
  before _ _ _ _ _ _ h := h
  bind _ _ _ _ _ h := h
  decided _ _ _ _ _ _ _ _ others h := by
    rw [Launch.group, Work.acts_group_nothing rfl rfl]
    exact (h.of_dispatched_eq rfl).mono (zero_add others).le
  group _ _ _ _ r _ _ _ _ hr others h := by
    refine (hr others (h.of_dispatched_eq rfl)).mono ?_
    rw [Launch.group, Work.acts_group]
    simp [Scheduler.flights, Update.effects]
  nil _ _ _ _ _ others h := by
    rw [List.map_nil, List.sum_nil, zero_add]
    exact h
  done _ _ _ _ _ _ _ _ _ h := h
  mark _ _ _ _ _ _ _ _ _ _ h := h
  start _ _ _ _ _ _ _ l r _ _ hl hr others h := by
    have h := hr _ (hl others h)
    rw [Round.start, List.map_cons, List.sum_cons, add_assoc, add_left_comm]
    exact h

namespace Scheduler

variable {s t : Scheduler Work}

theorem effects_foldAll_le {cs : List Completion} (h : s.foldAll cs = .ok t) :
    (↑(Update.effects t.applied) : Multiset BoundAction) ≤
      ↑(Update.effects s.applied) + (cs.map Completion.acts).sum := by
  induction cs generalizing s with
  | nil =>
    cases h
    exact Multiset.le_add_right _ _
  | cons c rest ih =>
    rw [foldAll] at h
    split at h
    · cases h
      exact Multiset.le_add_right _ _
    · obtain ⟨u, hu, h⟩ := Except.exists_of_bind_eq_ok h
      rw [List.map_cons, List.sum_cons, ← add_assoc, ← effects_complete hu]
      exact ih h

theorem acts_foldBatch_le (h : s.foldBatch = .ok t) : (Work.group t).acts ≤ (Work.group s).acts := by
  have hp := List.mergeSort_perm s.batch fun a b => decide (a.seq ≤ b.seq)
  have he := effects_foldAll_le h
  rw [(hp.map _).sum_eq] at he
  obtain ⟨hf, hb⟩ := flights_foldBatch h
  rw [Work.acts_group, Work.acts_group, hf, hb, List.map_nil, List.sum_nil, add_zero]
  exact add_le_add_left he _

end Scheduler

namespace Work

variable {c : Setting} {w w' : Work} {σ τ : World}

theorem effects_applied_le (s : Scheduler Work) : (settled (.ok s.outcome)).acts ≤ (group s).acts := by
  rw [acts_group, add_assoc]
  exact Multiset.le_add_right _ _

theorem backs_advance {e : Execution} (h : e.advance σ = some (w, τ)) {others : Multiset BoundAction}
    (hσ : σ.Backs ((acting e).acts + others)) : τ.Backs (w.acts + others) := by
  obtain ⟨allowance, he⟩ | ⟨timer, postponed, rfl, hτ⟩ := Execution.advance_ends_or_stays h
  · have hc := e.backs_complete (σ := { σ with allowance }) (hσ.of_dispatched_eq rfl)
    rwa [← he] at hc
  · exact hσ.of_dispatched_eq hτ.dispatched

/-- One step of a work passes on effects of actions that were dispatched, each once. -/
theorem Moves.backs (h : Moves c w σ w' τ) :
    ∀ others, σ.Backs (w.acts + others) → τ.Backs (w'.acts + others) := by
  induction h with
  | act h => exact fun others hσ => backs_advance h hσ
  | @finish s _ _ _ =>
    intro others hσ
    exact (hσ.reduce (effects_applied_le s)).abandon _ _
  | starve _ _ _ => exact fun others hσ => hσ.reduce (Multiset.zero_le _)
  | rest _ _ _ =>
    intro others hσ
    rwa [(stirs_look _ _).acts_eq]
  | fail _ _ _ =>
    intro others hσ
    exact World.Backs.abandon (hσ.reduce (Multiset.zero_le _)) _ _
  | @decide s t _ _ _ _ ht _ =>
    intro others hσ
    have hl := (effects_applied_le t).trans (Scheduler.acts_foldBatch_le ht)
    exact (hσ.reduce hl).abandon _ _
  | @go s t σ _ _ _ ht _ =>
    intro others hσ
    have hσ := hσ.reduce (Scheduler.acts_foldBatch_le ht)
    have hr := (Program.backs_cases c t.state).round t.slots (t.scope :: t.outer) (fun _ => false) 0 t.nextSeq σ _ hσ
    refine hr.mono (le_of_eq ?_)
    rw [Scheduler.dispatchLive, acts_group, acts_group]
    simp only [Scheduler.flights, List.map_append, List.sum_append]
    ac_rfl
  | @follow s f rest σ τ w hs _ ih =>
    intro others hσ
    rw [acts_group_cons hs.flights_eq, add_assoc] at hσ
    rw [acts_group_cons rfl, add_assoc]
    exact ih _ hσ
  | @receive s f rest σ hs _ =>
    intro others hσ
    obtain ⟨outcome, ho, he⟩ | hst := receive_cases hs.queue
    · refine hσ.mono (le_of_eq ?_)
      -- the end of the flight in front moves to the batch
      have ha : f.work.acts = Completion.acts ⟨f.slot, f.seq, f.frames, outcome⟩ := by
        rw [ho]
        cases outcome <;> rfl
      rw [he, acts_group, acts_group_cons hs.flights_eq, ha]
      simp only [Scheduler.flights, List.map_append, List.map_cons, List.map_nil, List.sum_append, List.sum_cons,
        List.sum_nil, add_zero]
      ac_rfl
    · rwa [hst.acts_eq]

end Work

theorem Machine.Steps.backs {c : Setting} {m m' : Machine} {others : Multiset BoundAction} (h : Steps c m m')
    (hm : m.world.Backs (m.main.acts + others)) : m'.world.Backs (m'.main.acts + others) := by
  cases h with
  | move h => exact h.backs others hm
  | takeUp _ _ =>
    rw [(Work.stirs_takeUp _).acts_eq]
    exact hm.of_dispatched_eq rfl
  | wake _ _ _ =>
    rw [(Work.stirs_wake _).acts_eq]
    exact hm.of_dispatched_eq rfl
  | @detached front rest w w' τ _ _ hd =>
    refine hm.later ?_
    obtain hmv | ⟨-, -, rfl, rfl⟩ := Work.move_cases hd
    · obtain ⟨⟨events, hl, -⟩, -⟩ := hmv.notes
      exact List.IsPrefix.filterMap _ ⟨events, hl.symm⟩
    · exact List.prefix_rfl
  | @ring time _ _ =>
    rw [Machine.ring, (Work.stirs_ring _ time).acts_eq]
    exact hm.of_dispatched_eq rfl

theorem Program.backs_transition {c : Setting} {p : Program} {s : State} {σ : World} {t : Successor}
    {others : Multiset BoundAction} (h : (p.transition c s σ).1 = .ok t) (hσ : σ.Backs others) :
    (p.transition c s σ).2.Backs (↑(Update.effects t.updates) + others) := by
  obtain ⟨o, ho, rfl⟩ := transition_eq_ok h
  have hm := Machine.settle_induction (c := c) (P := fun m => m.world.Backs (m.main.acts + others))
    (fun _ _ hm hs => hs.backs hm) (p.started c s σ) ((backs_cases c s).dispatch p [] σ others hσ)
  rw [ho] at hm
  rw [Frame.effects_resume]
  exact hm

end Agenda
