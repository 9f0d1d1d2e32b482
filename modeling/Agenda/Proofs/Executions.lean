import Mathlib
import Agenda.Proofs.Progress

/-!
# What becomes of executions

An execution that was dispatched is under way until it ends: in the work that is waited for, or by itself after the
construct around it was given up. None is lost, none ends twice, and none is there that was not dispatched. In the same
way none starts twice, and none that was not dispatched.

Both are accounts: events enter something and strike something out, and what was entered and is not struck out is open
in the executions that are under way. What one event does to one execution is all that has to be known of an account.
-/

namespace Agenda

set_option autoImplicit false

/-- An account of executions: what an event enters, what it strikes out, and what is open of an execution. -/
structure Account (α : Type) where
  entered : Event → Option α
  struck : Event → Option α
  due : Execution → Multiset α
  dispatch (bound : BoundAction) (after : State) (trace : List BoundAction) (updates : List Update) (scopes : List Nat)
    (time : Nat) : ((entered (.dispatched bound scopes time)).toList : Multiset α) =
      (struck (.dispatched bound scopes time)).toList + due { bound, after, trace, updates, scopes }
  start (e : Execution) (time : Nat) : e.timer = .idle →
    (entered (.started e.bound e.scopes time)).toList + due e =
      (struck (.started e.bound e.scopes time)).toList + due { e with timer := .unset }
  complete (e : Execution) (time : Nat) : e.timer ≠ .idle →
    (entered (.completed e.bound.record time)).toList + due e = (struck (.completed e.bound.record time)).toList
  close (scope : Nat) : entered (.closed scope) = struck (.closed scope)
  stir (e : Execution) (timer : Timer) (postponed : Option Nat) : (timer = .idle ↔ e.timer = .idle) →
    due { e with timer, postponed } = due e

namespace Account

variable {α : Type} (a : Account α)

mutual
def held : Work → Multiset α
  | .settled _ => 0
  | .acting e => a.due e
  | .group s => heldInFlights s.queue + heldInFlights s.waiting
termination_by structural w => w

def heldInFlights : List (Flight Work) → Multiset α
  | [] => 0
  | f :: rest => held f.work + heldInFlights rest
termination_by structural fs => fs
end

theorem heldInFlights_eq (fs : List (Flight Work)) : a.heldInFlights fs = (fs.map (a.held ·.work)).sum := by
  induction fs with
  | nil => rfl
  | cons f rest ih => rw [heldInFlights, ih, List.map_cons, List.sum_cons]

theorem held_group (s : Scheduler Work) : a.held (.group s) = (s.flights.map (a.held ·.work)).sum := by
  rw [held, heldInFlights_eq, heldInFlights_eq, Scheduler.flights, List.map_append, List.sum_append]

theorem held_works (s : Scheduler Work) : (s.works.map a.held).sum = a.held (.group s) := by
  rw [held_group, Scheduler.works, List.map_map]
  rfl

theorem held_stirs {w w' : Work} (h : Work.Stirs w w') : a.held w' = a.held w := by
  induction h with
  | settled outcome => rfl
  | acting e timer postponed hi => exact a.stir e timer postponed hi
  | @group s queue waiting attention fs he hp _ ih =>
    rw [held_group, held_group]
    exact (Work.map_stirred_perm (a.held ·.work) he hp ih).sum_eq

theorem map_held_stirs {g : Work → Work} (hg : ∀ w, Work.Stirs w (g w)) (ws : List Work) :
    (ws.map g).map a.held = ws.map a.held := by
  rw [List.map_map]
  exact List.map_congr_left fun w _ => a.held_stirs (hg w)

/-- What was entered is struck out, or open in what goes on by itself, or it is what is given. -/
def Holds (σ : World) (waited : Multiset α) : Prop :=
  (↑(σ.log.filterMap a.entered) : Multiset α) =
    ↑(σ.log.filterMap a.struck) + (σ.detached.map a.held).sum + waited

variable {a} {σ τ : World} {waited before after : Multiset α}

theorem Holds.of_eq (h : a.Holds σ waited) (hl : τ.log = σ.log) (hd : τ.detached.map a.held = σ.detached.map a.held) :
    a.Holds τ waited := by
  unfold Holds
  rw [hl, hd]
  exact h

theorem Holds.record (h : a.Holds σ before) {event : Event}
    (he : (a.entered event).toList + before = (a.struck event).toList + after) : a.Holds (σ.record event) after := by
  have hone (f : Event → Option α) : [event].filterMap f = (f event).toList := by
    cases hf : f event <;> simp [hf]
  unfold Holds at h ⊢
  simp only [World.record, List.filterMap_append, hone, ← Multiset.coe_add]
  calc (↑(σ.log.filterMap a.entered) : Multiset α) + ↑(a.entered event).toList
      = ↑(σ.log.filterMap a.struck) + (σ.detached.map a.held).sum + (↑(a.entered event).toList + before) := by
        rw [h]
        ac_rfl
    _ = ↑(σ.log.filterMap a.struck) + (σ.detached.map a.held).sum + (↑(a.struck event).toList + after) := by rw [he]
    _ = ↑(σ.log.filterMap a.struck) + ↑(a.struck event).toList + (σ.detached.map a.held).sum + after := by ac_rfl

theorem Holds.abandon {works : List Work} (h : a.Holds σ ((works.map a.held).sum + waited)) (scope : Nat) :
    a.Holds (σ.abandon scope works) waited := by
  have hr : a.Holds (σ.record (.closed scope)) _ := h.record (by rw [a.close])
  unfold Holds at hr ⊢
  rw [World.abandon, List.map_append, List.sum_append, a.map_held_stirs Work.stirs_takeUp]
  refine hr.trans ?_
  rw [add_assoc, add_assoc, add_assoc]
  rfl

/-- A work that goes on by itself is taken out of the others, and put back. -/
theorem Holds.takeOut {front rest : List Work} {w : Work} (h : a.Holds σ waited) (he : σ.detached = front ++ w :: rest)
    (allowance : Nat) :
    a.Holds { σ with detached := [], allowance } (a.held w + (((front ++ rest).map a.held).sum + waited)) := by
  unfold Holds at h ⊢
  rw [h, he]
  simp only [List.map_append, List.map_cons, List.map_nil, List.sum_append, List.sum_cons, List.sum_nil, add_zero]
  ac_rfl

theorem Holds.putBack {front rest : List Work} {w : Work}
    (h : a.Holds σ (a.held w + (((front ++ rest).map a.held).sum + waited))) (allowance : Nat) :
    a.Holds { σ with detached := front ++ w :: rest ++ σ.detached, allowance } waited := by
  unfold Holds at h ⊢
  simp only [List.map_append, List.map_cons, List.sum_append, List.sum_cons] at h ⊢
  rw [h]
  ac_rfl

/-! ### Launches and moves -/

theorem holds_perform (scopes : List Nat) (updates : List Update) (trace : List BoundAction) (s : State)
    (bound : BoundAction) (h : a.Holds σ waited) :
    a.Holds (Work.perform scopes updates trace s bound σ).2
      (a.held (Work.perform scopes updates trace s bound σ).1 + waited) := by
  obtain ⟨e, he⟩ | ⟨-, he⟩ := Work.perform_cases scopes updates trace s bound σ
  · rw [he, held, zero_add]
    exact h
  · rw [he, held]
    refine h.record ?_
    rw [a.dispatch bound (bound.action.effect s) trace updates scopes σ.clock, add_assoc]

theorem holds_complete {e : Execution} (ht : e.timer ≠ .idle) (h : a.Holds σ (a.held (.acting e) + waited)) :
    a.Holds (e.complete σ).2 (a.held (e.complete σ).1 + waited) := by
  have hc : a.Holds (σ.record (.completed e.bound.record σ.clock)) waited := by
    refine h.record ?_
    rw [held, ← add_assoc, a.complete e σ.clock ht]
  obtain ⟨message, he⟩ | ⟨result, -, he⟩ | ⟨bound, trace, -, he⟩ := e.complete_cases σ
  · rw [he, held, zero_add]
    exact hc
  · rw [he, held, zero_add]
    exact hc
  · rw [he]
    exact holds_perform e.scopes _ trace e.after bound hc

theorem dispatch_cases (a : Account α) (c : Setting) (s : State) :
    DispatchCases c s
      (fun _ _ σ l => ∀ waited, a.Holds σ waited → a.Holds l.world (a.held l.work + waited))
      (fun _ _ _ _ _ σ r => ∀ waited, a.Holds σ waited →
        a.Holds r.world ((r.flights.map (a.held ·.work)).sum + waited)) where
  failed _ _ _ _ _ waited h := by
    rw [Launch.failed, held, zero_add]
    exact h
  finished _ _ _ _ waited h := by
    rw [Launch.finished, held, zero_add]
    exact h
  call _ _ scopes _ bound _ _ h := holds_perform scopes [] [] s bound h
  plan _ _ scopes σ plan _ waited h := by
    obtain ⟨-, he⟩ | ⟨bound, rest, -, he⟩ := Work.performAll_cases scopes s σ plan.trace
    · rw [he, held, zero_add]
      exact h
    · rw [he]
      exact holds_perform scopes [] rest s bound h
  enter _ _ _ _ _ _ h := h
  skip _ _ _ _ _ _ h := h
  before _ _ _ _ _ _ h := h
  bind _ _ _ _ _ h := h
  decided _ _ _ _ _ _ _ _ waited h := by
    rw [Launch.group, held_group, Scheduler.flights, List.append_nil, List.map_nil, List.sum_nil, zero_add]
    exact h.of_eq rfl rfl
  group _ _ _ _ r _ _ _ _ hr waited h := by
    rw [Launch.group, held_group, Scheduler.flights, List.append_nil]
    exact hr waited (h.of_eq rfl rfl)
  nil _ _ _ _ _ waited h := by
    rw [List.map_nil, List.sum_nil, zero_add]
    exact h
  done _ _ _ _ _ _ _ _ _ h := h
  mark _ _ _ _ _ _ _ _ _ _ h := h
  start _ _ _ _ _ _ _ l r _ _ hl hr waited h := by
    have h := hr _ (hl waited h)
    rw [Round.start, List.map_cons, List.sum_cons, add_assoc, add_left_comm]
    exact h

theorem holds_advance {e : Execution} {w : Work} (h : e.advance σ = some (w, τ))
    (hσ : a.Holds σ (a.held (.acting e) + waited)) : a.Holds τ (a.held w + waited) := by
  obtain ⟨ht, he⟩ | ⟨ht, ⟨-, he⟩ | ⟨-, he⟩ | ⟨-, he⟩ | ⟨latency, -, he⟩⟩ := Execution.advance_cases h
  · cases he
    refine hσ.record ?_
    rw [held, held, ← add_assoc, a.start e σ.clock ht, add_assoc]
  · have hc := holds_complete ht hσ
    rwa [← he] at hc
  · have hc := holds_complete (σ := σ.spend) ht (hσ.of_eq rfl rfl)
    rwa [← he] at hc
  · cases he
    rw [held, a.stir e e.timer (some σ.nextTicket) .rfl]
    exact hσ.of_eq rfl rfl
  · cases he
    rw [held, a.stir e (.set σ.nextTicket (σ.clock + latency)) e.postponed (by simp [ht])]
    exact hσ.of_eq rfl rfl

theorem holds_conclude {s t : Scheduler Work} (ht : t.flights = s.flights)
    (h : a.Holds σ (a.held (.group s) + waited)) (outcome : Except Failure Outcome) :
    a.Holds (σ.abandon t.scope t.works) (a.held (.settled outcome) + waited) := by
  rw [held, zero_add]
  refine Holds.abandon ?_ t.scope
  rw [held_works, held_group, ht, ← held_group]
  exact h

/-- One step of a work keeps the account. -/
theorem holds_moves {c : Setting} {w w' : Work} (h : Work.Moves c w σ w' τ) :
    ∀ waited, a.Holds σ (a.held w + waited) → a.Holds τ (a.held w' + waited) := by
  induction h with
  | act h => exact fun waited hσ => holds_advance h hσ
  | finish _ _ => exact fun waited hσ => holds_conclude rfl hσ _
  | starve _ _ hf =>
    intro waited hσ
    rw [held_group, hf] at hσ
    exact hσ
  | rest _ _ _ =>
    intro waited hσ
    rwa [a.held_stirs (Work.stirs_look _ _)]
  | fail _ _ _ => exact fun waited hσ => holds_conclude rfl hσ _
  | decide _ _ ht _ => exact fun waited hσ => holds_conclude (Scheduler.flights_foldBatch ht).1 hσ _
  | @go s t σ _ _ _ ht _ =>
    intro waited hσ
    have hr := (a.dispatch_cases c t.state).round t.slots (t.scope :: t.outer) (fun _ => false) 0 t.nextSeq σ _ hσ
    rw [held_group, ← (Scheduler.flights_foldBatch ht).1] at hr
    rw [Scheduler.dispatchLive, held_group]
    simp only [Scheduler.flights, List.map_append, List.sum_append] at hr ⊢
    convert hr using 1
    ac_rfl
  | @follow s f rest σ τ w hs _ ih =>
    intro waited hσ
    rw [held_group, hs.flights_eq, List.map_cons, List.sum_cons, add_assoc] at hσ
    have hτ := ih _ hσ
    rw [← add_assoc] at hτ
    rw [Scheduler.follow, held_group]
    exact hτ
  | @receive s f rest σ hs hf =>
    intro waited hσ
    obtain ⟨outcome, ho, he⟩ | hst := Work.receive_cases hs.queue
    · rw [held_group, hs.flights_eq, List.map_cons, List.sum_cons, ho, held, zero_add] at hσ
      rw [he, held_group]
      exact hσ
    · rwa [a.held_stirs hst]

theorem holds_steps {c : Setting} {m m' : Machine} (h : m.Steps c m') (hm : a.Holds m.world (a.held m.main)) :
    a.Holds m'.world (a.held m'.main) := by
  cases h with
  | move h =>
    have hw := holds_moves (a := a) h 0
    rw [add_zero, add_zero] at hw
    exact hw hm
  | takeUp _ _ =>
    rw [a.held_stirs (Work.stirs_takeUp _)]
    exact hm.of_eq rfl rfl
  | wake _ _ _ =>
    rw [a.held_stirs (Work.stirs_wake _)]
    exact hm.of_eq rfl rfl
  | @detached front rest w w' τ _ he hd =>
    have hσ := hm.takeOut he c.budget
    refine Holds.putBack ?_ m.world.allowance
    obtain hmv | ⟨-, -, rfl, rfl⟩ := Work.move_cases hd
    · exact holds_moves hmv _ hσ
    · rw [a.held_stirs (Work.stirs_wake w)]
      exact hσ
  | @ring time _ _ =>
    rw [Machine.ring, a.held_stirs (Work.stirs_ring _ time)]
    exact hm.of_eq rfl (a.map_held_stirs (fun w => Work.stirs_ring w time) _)

theorem holds_initial (a : Account α) (c : Setting) : a.Holds c.initial 0 := rfl

theorem holds_started {c : Setting} {p : Program} {s : State} (h : a.Holds σ 0) :
    a.Holds (p.started c s σ).world (a.held (p.started c s σ).main) := by
  have hl := (a.dispatch_cases c s).dispatch p [] σ 0 h
  rw [add_zero] at hl
  exact hl

/-- When a transition is over, whatever is open is so in what goes on by itself. -/
theorem holds_transition {c : Setting} {p : Program} {s : State} (h : a.Holds σ 0) :
    a.Holds (p.transition c s σ).2 0 := by
  have hm := Machine.settle_induction (c := c) (P := fun m => a.Holds m.world (a.held m.main))
    (fun _ _ hm hs => holds_steps hs hm) (p.started c s σ) (holds_started h)
  obtain ⟨outcome, ho⟩ := Program.settles_started c p s σ
  rw [ho] at hm
  exact hm

theorem holds_drive {c : Setting} {p : Program} {s : State} (h : a.Holds σ 0) : a.Holds (p.drive c s σ).world 0 :=
  Program.drive_induction (P := fun _ σ => a.Holds σ 0) (fun _ _ h => h) (fun _ _ _ h => holds_transition h)
    (fun _ _ _ _ _ h _ _ => holds_transition h) s h

theorem holds_run (a : Account α) (c : Setting) (p : Program) (s : State) : a.Holds (p.run c s).world 0 := by
  unfold Program.run
  split
  · exact a.holds_initial c
  · exact holds_drive (a.holds_initial c)

/-! ### Ends -/

/-- Every execution is open until it ends. -/
def ends : Account ActionRecord where
  entered event := event.dispatched?.map (·.record)
  struck event := event.completed?.map (·.2)
  due e := {e.bound.record}
  dispatch _ _ _ _ _ _ := rfl
  start _ _ _ := rfl
  complete _ _ _ := rfl
  close _ := rfl
  stir _ _ _ _ := rfl

end Account

def Work.underway (w : Work) : Multiset ActionRecord := Account.ends.held w

namespace World

/-- The executions that were dispatched and have not ended are those that go on by themselves and the given ones. -/
def Owes (σ : World) (waited : Multiset ActionRecord) : Prop :=
  (↑(σ.dispatched.map (·.record)) : Multiset ActionRecord) =
    ↑(σ.completions.map (·.2)) + (σ.detached.map Work.underway).sum + waited

theorem owes_iff (σ : World) (waited : Multiset ActionRecord) : σ.Owes waited ↔ Account.ends.Holds σ waited := by
  rw [Owes, dispatched, completions, List.map_filterMap, List.map_filterMap]
  rfl

end World

/-! ### Starts -/

namespace Event

def dispatch? : Event → Option (BoundAction × List Nat)
  | .dispatched bound scopes _ => some (bound, scopes)
  | _ => none

def start? : Event → Option (BoundAction × List Nat)
  | .started bound scopes _ => some (bound, scopes)
  | _ => none

end Event

def Execution.unstarted (e : Execution) : Multiset (BoundAction × List Nat) :=
  match e.timer with
  | .idle => {(e.bound, e.scopes)}
  | _ => 0

theorem Execution.unstarted_of_idle {e : Execution} (h : e.timer = .idle) : e.unstarted = {(e.bound, e.scopes)} := by
  rw [unstarted, h]

theorem Execution.unstarted_of_ne {e : Execution} (h : e.timer ≠ .idle) : e.unstarted = 0 := by
  unfold unstarted
  split
  · rename_i ht
    exact absurd ht h
  · rfl

/-- Every execution is open until it starts. -/
def Account.starts : Account (BoundAction × List Nat) where
  entered := Event.dispatch?
  struck := Event.start?
  due := Execution.unstarted
  dispatch _ _ _ _ _ _ := rfl
  start e _ h := by
    rw [Execution.unstarted_of_idle h]
    rfl
  complete e _ h := by
    rw [Execution.unstarted_of_ne h]
    rfl
  close _ := rfl
  stir e timer _ h := by
    by_cases ht : e.timer = .idle
    · rw [Execution.unstarted_of_idle ht, Execution.unstarted_of_idle (h.mpr ht)]
    · rw [Execution.unstarted_of_ne ht, Execution.unstarted_of_ne (mt h.mp ht)]

end Agenda
