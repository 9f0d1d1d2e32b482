import Mathlib
import Agenda.Domain.Standard
import Agenda.Proofs.Launches
import Agenda.Proofs.Stirring

/-!
# Replaying updates

A transition reports the state that it leads to and, separately, the updates behind that state. Constructs around it
trust only the updates. Here the two agree: the updates, applied in order to the state in which the program was
dispatched, give the state that is reported. The order in which the executions inside come to their end, and the worlds
in which they do, are left open.
-/

namespace Agenda

set_option autoImplicit false

theorem Update.applyAll_append (s : State) (us vs : List Update) :
    applyAll s (us ++ vs) = applyAll (applyAll s us) vs := List.foldl_append

def Successor.Replays (s : State) (t : Successor) : Prop := Update.applyAll s t.updates = t.state

namespace Frame

theorem replays_apply {s : State} {t : Successor} (h : t.Replays s) (f : Frame) : (f.apply t).Replays s := by
  cases f with
  | before rest => exact h
  | bind var =>
    change (t.bound var).Replays s
    unfold Successor.bound
    split
    · exact h
    · simp only [Successor.Replays, Update.applyAll_append]
      rw [h]
      rfl

theorem replays_resume {s : State} {o : Outcome} (h : Update.applyAll s o.updates = o.state) (frames : List Frame) :
    (resume frames o).Replays s := by
  suffices hf : ∀ t : Successor, t.Replays s → (frames.foldl apply t).Replays s from hf _ h
  intro t ht
  induction frames generalizing t with
  | nil => exact ht
  | cons f rest ih => exact ih (f.apply t) (replays_apply ht f)

end Frame

namespace Work

/-- The updates gathered so far lead from the given state to where the work stands. -/
def Replays (s : State) : Work → Prop
  | .settled (.ok o) => Update.applyAll s o.updates = o.state
  | .settled (.error _) => True
  | .acting e => e.after = e.bound.action.effect (Update.applyAll s e.updates)
  | .group sch => Update.applyAll s sch.applied = sch.state

theorem replays_perform {s after : State} {updates : List Update} (h : Update.applyAll s updates = after)
    (scopes : List Nat) (trace : List BoundAction) (bound : BoundAction) (σ : World) :
    (perform scopes updates trace after bound σ).1.Replays s := by
  obtain ⟨e, he⟩ | ⟨-, he⟩ := perform_cases scopes updates trace after bound σ
  · rw [he]
    trivial
  · rw [he, ← h]
    rfl

theorem replays_performAll (scopes : List Nat) (s : State) (σ : World) (trace : List BoundAction) :
    (performAll scopes s σ trace).1.Replays s := by
  obtain ⟨-, he⟩ | ⟨bound, rest, -, he⟩ := performAll_cases scopes s σ trace
  · rw [he]
    rfl
  · rw [he]
    exact replays_perform rfl scopes rest bound σ

theorem Stirs.replays {s : State} {w w' : Work} (h : Stirs w w') (hw : w.Replays s) : w'.Replays s := by
  cases h <;> exact hw

end Work

theorem Execution.replays_complete {s : State} {e : Execution} (h : (Work.acting e).Replays s) (σ : World) :
    (e.complete σ).1.Replays s := by
  have hu : Update.applyAll s (e.updates ++ [.effect e.bound]) = e.after := by
    rw [Update.applyAll_append]
    exact h.symm
  obtain ⟨message, he⟩ | ⟨result, -, he⟩ | ⟨bound, trace, -, he⟩ := e.complete_cases σ
  · rw [he]
    trivial
  · rw [he]
    exact hu
  · rw [he]
    exact Work.replays_perform hu e.scopes trace bound _

theorem Scheduler.replays_foldBatch {s : State} {sch t : Scheduler Work} (h : Update.applyAll s sch.applied = sch.state)
    (ht : sch.foldBatch = .ok t) : Update.applyAll s t.applied = t.state := by
  refine foldBatch_induction (P := fun u => Update.applyAll s u.applied = u.state) ?_ h ht
  intro u c v _ hu _ hc
  obtain ⟨o, next, -, -, rfl⟩ := complete_eq_ok hc
  rw [Update.applyAll_append, hu]

namespace Work

theorem Moves.replays {c : Setting} {s : State} {w w' : Work} {σ τ : World} (h : Moves c w σ w' τ)
    (hw : w.Replays s) : w'.Replays s := by
  cases h with
  | act h =>
    obtain ⟨allowance, he⟩ | ⟨timer, postponed, rfl, -⟩ := Execution.advance_ends_or_stays h
    · have hc := Execution.replays_complete hw { σ with allowance }
      rwa [← he] at hc
    · exact hw
  | finish _ _ => exact hw
  | starve _ _ _ => trivial
  | rest _ _ _ => exact hw
  | fail _ _ _ => trivial
  | decide _ _ ht _ => exact Scheduler.replays_foldBatch hw ht
  | go _ _ ht _ =>
    have hf := Scheduler.replays_foldBatch hw ht
    exact hf
  | follow _ _ => exact hw
  | receive _ _ =>
    unfold Scheduler.receive
    split
    · exact hw
    · split <;> exact hw

/-- The courses that a work can take: it moves, in whatever world it finds, time passes, what was postponed is taken up,
and it is looked at again, in any order. -/
inductive Course (c : Setting) : Work → Work → Prop
  | refl (w : Work) : Course c w w
  | move {w w' v : Work} {σ τ : World} : Moves c w σ w' τ → Course c w' v → Course c w v
  | ring {w v : Work} (time : Nat) : Course c (w.ring time) v → Course c w v
  | takeUp {w v : Work} : Course c w.takeUp v → Course c w v
  | wake {w v : Work} : Course c w.wake v → Course c w v

theorem Course.trans {c : Setting} {u v w : Work} (h : Course c u v) (hw : Course c v w) : Course c u w := by
  induction h with
  | refl _ => exact hw
  | move hm _ ih => exact .move hm (ih hw)
  | ring time _ ih => exact .ring time (ih hw)
  | takeUp _ ih => exact .takeUp (ih hw)
  | wake _ ih => exact .wake (ih hw)

theorem Course.replays {c : Setting} {s : State} {w v : Work} (h : Course c w v) (hw : w.Replays s) : v.Replays s := by
  induction h with
  | refl _ => exact hw
  | move hm _ ih => exact ih (hm.replays hw)
  | ring time _ ih => exact ih ((stirs_ring _ time).replays hw)
  | takeUp _ ih => exact ih ((stirs_takeUp _).replays hw)
  | wake _ ih => exact ih ((stirs_wake _).replays hw)

end Work

namespace Machine

theorem Steps.course {c : Setting} {m m' : Machine} (h : Steps c m m') : Work.Course c m.main m'.main := by
  cases h with
  | move hm => exact .move hm (.refl _)
  | takeUp _ _ => exact .takeUp (.refl _)
  | wake _ _ _ => exact .wake (.refl _)
  | detached _ _ _ => exact .refl _
  | ring _ _ => exact .ring _ (.refl _)

theorem course_settle (c : Setting) (m : Machine) : Work.Course c m.main (m.settle c).main := by
  refine settle_induction (P := fun m' => Work.Course c m.main m'.main) ?_ m (.refl _)
  intro m₁ m₂ h hs
  exact h.trans hs.course

end Machine

namespace Program

theorem replays_cases (c : Setting) (s : State) :
    DispatchCases c s (fun _ _ _ l => l.work.Replays s) (fun _ _ _ _ _ _ _ => True) where
  failed _ _ _ _ _ := trivial
  finished _ _ _ _ := rfl
  call _ _ scopes σ bound _ := Work.replays_perform rfl scopes [] bound σ
  plan _ _ scopes σ plan _ := Work.replays_performAll scopes s σ plan.trace
  enter _ _ _ _ _ _ h := h
  skip _ _ _ _ _ _ h := h
  before _ _ _ _ _ _ h := h
  bind _ _ _ _ _ h := h
  decided _ _ _ _ _ _ _ _ := rfl
  group _ _ _ _ _ _ _ _ _ _ := rfl
  nil _ _ _ _ _ := trivial
  done _ _ _ _ _ _ _ _ _ _ := trivial
  mark _ _ _ _ _ _ _ _ _ _ _ := trivial
  start _ _ _ _ _ _ _ _ _ _ _ _ _ := trivial

/-- The program, dispatched in the world, can come to this successor by some course of what it has under way. -/
def Resolves (c : Setting) (p : Program) (s : State) (scopes : List Nat) (σ : World) (t : Successor) : Prop :=
  ∃ o, Work.Course c (p.dispatch c s scopes σ).work (.settled (.ok o)) ∧
    t = Frame.resume (p.dispatch c s scopes σ).frames o

theorem resolves_transition {c : Setting} {p : Program} {s : State} {σ : World} {t : Successor}
    (h : (p.transition c s σ).1 = .ok t) : p.Resolves c s [] σ t := by
  obtain ⟨o, hm, rfl⟩ := transition_eq_ok h
  have hc := Machine.course_settle c (p.started c s σ)
  rw [hm] at hc
  exact ⟨o, hc, rfl⟩

theorem Resolves.replays {c : Setting} {p : Program} {s : State} {scopes : List Nat} {σ : World} {t : Successor}
    (h : p.Resolves c s scopes σ t) : t.Replays s := by
  obtain ⟨o, hc, rfl⟩ := h
  exact Frame.replays_resume (hc.replays ((replays_cases c s).dispatch p scopes σ)) _

/-- Whatever the program, the state and the order in which executions end, the updates of a transition lead to its
state. The transition of the machine is one of the courses. -/
theorem updates_lead_to_state (c : Setting) (p : Program) (s : State) :
    (∀ (σ : World) (t : Successor), (p.transition c s σ).1 = .ok t → p.Resolves c s [] σ t) ∧
      ∀ (scopes : List Nat) (σ : World) (t : Successor), p.Resolves c s scopes σ t →
        Update.applyAll s t.updates = t.state :=
  ⟨fun _ _ h => resolves_transition h, fun _ _ _ h => h.replays⟩

/-- Two counts side by side, the slower one bound, before a binding of the whole. -/
def countsAndBindings : Program :=
  .bind "all" (.control .conc
    [.call "Inc" [("ms", .const (.int 7)), ("result", .const (.int 1))],
      .block [.bind "first" (.call "Identity" [("value", .const (.text "a"))]), .call "Inc" []]])

theorem updates_lead_to_state_countsAndBindings :
    ∃ t, (countsAndBindings.transition Setting.standard {} {}).1 = .ok t ∧
      t.updates.length = 5 ∧ Update.applyAll {} t.updates = t.state := by
  have hl : (countsAndBindings.transition Setting.standard {} {}).1.toOption.map
      (·.updates.length) = some 5 := by cbv
  cases ht : (countsAndBindings.transition Setting.standard {} {}).1 with
  | error e =>
    rw [ht] at hl
    cases hl
  | ok t =>
    rw [ht] at hl
    obtain ⟨hr, hu⟩ := updates_lead_to_state Setting.standard countsAndBindings {}
    exact ⟨t, rfl, Option.some.inj hl, hu [] {} t (hr {} t ht)⟩

end Program

end Agenda
