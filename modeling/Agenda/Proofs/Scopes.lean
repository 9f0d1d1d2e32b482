import Mathlib
import Agenda.Proofs.Accounting

/-!
# Scopes

Every construct has a scope of its own, and everything that is under way in it carries that scope and the scopes around
it. Closed scopes, the scopes of what goes on by itself and those of the work that is waited for are all different. So
the scopes of the work that is waited for are open, and what was given up lies in a closed scope and dispatches nothing.
-/

namespace Agenda

set_option autoImplicit false

namespace Work

mutual
def scopes : Work → Multiset Nat
  | .settled _ => 0
  | .acting _ => 0
  | .group s => {s.scope} + (flightsScopes s.queue + flightsScopes s.waiting)
termination_by structural w => w

def flightsScopes : List (Flight Work) → Multiset Nat
  | [] => 0
  | f :: rest => f.work.scopes + flightsScopes rest
termination_by structural fs => fs
end

theorem flightsScopes_eq (fs : List (Flight Work)) : flightsScopes fs = (fs.map (·.work.scopes)).sum := by
  induction fs with
  | nil => rfl
  | cons f rest ih => rw [flightsScopes, ih, List.map_cons, List.sum_cons]

theorem scopes_group (s : Scheduler Work) : (group s).scopes = {s.scope} + (s.flights.map (·.work.scopes)).sum := by
  rw [scopes, flightsScopes_eq, flightsScopes_eq, Scheduler.flights, List.map_append, List.sum_append]

/-- Everything in the work carries the scopes of the constructs around it, from the inside out. -/
inductive Inside : List Nat → Work → Prop
  | settled (around : List Nat) (outcome : Except Failure Outcome) : Inside around (.settled outcome)
  | acting {around : List Nat} {e : Execution} : e.scopes = around → Inside around (.acting e)
  | group {around : List Nat} {s : Scheduler Work} : s.outer = around →
      (∀ f ∈ s.flights, Inside (s.scope :: around) f.work) → Inside around (.group s)

theorem Inside.inv {around : List Nat} {s : Scheduler Work} (h : Inside around (.group s)) :
    s.outer = around ∧ ∀ f ∈ s.flights, f.work.Inside (s.scope :: around) := by
  cases h with
  | group ho hf => exact ⟨ho, hf⟩

theorem Stirs.inside {w w' : Work} (h : Stirs w w') {around : List Nat} (hw : w.Inside around) : w'.Inside around := by
  induction h generalizing around with
  | settled outcome => exact hw
  | acting e timer postponed _ =>
    cases hw with
    | acting he => exact .acting he
  | @group s queue waiting attention fs he hp _ ih =>
    obtain ⟨ho, hf⟩ := hw.inv
    refine .group ho ?_
    intro f hm
    obtain ⟨x, hx, h₀, rfl⟩ := exists_of_mem_stirred he hp hm
    exact ih x hx (hf x.1 h₀)

theorem Stirs.scopes_eq {w w' : Work} (h : Stirs w w') : w'.scopes = w.scopes := by
  induction h with
  | settled outcome => rfl
  | acting e timer postponed _ => rfl
  | @group s queue waiting attention fs he hp _ ih =>
    rw [scopes_group, scopes_group]
    exact congrArg _ (map_stirred_perm (·.work.scopes) he hp ih).sum_eq

theorem inside_perform (scopes : List Nat) (updates : List Update) (trace : List BoundAction) (s : State)
    (bound : BoundAction) (σ : World) : (perform scopes updates trace s bound σ).1.Inside scopes := by
  obtain ⟨e, he⟩ | ⟨-, he⟩ := perform_cases scopes updates trace s bound σ
  · rw [he]
    exact .settled scopes _
  · rw [he]
    exact .acting rfl

theorem scopes_of_isPlain {w : Work} (h : w.isPlain = true) : w.scopes = 0 := by
  cases w with
  | settled outcome => rfl
  | acting e => rfl
  | group s => cases h

end Work

def Event.closed? : Event → Option Nat
  | .closed scope => some scope
  | _ => none

namespace World

def closedScopes (σ : World) : Multiset Nat := ↑(σ.log.filterMap Event.closed?)

def detachedScopes (σ : World) : Multiset Nat := (σ.detached.map Work.scopes).sum

theorem isClosed_iff (σ : World) (scope : Nat) : σ.isClosed scope = true ↔ scope ∈ σ.closedScopes := by
  rw [closedScopes, Multiset.mem_coe, List.mem_filterMap, isClosed, List.any_eq_true]
  constructor
  · rintro ⟨e, he, hc⟩
    refine ⟨e, he, ?_⟩
    cases e with
    | closed id => exact congrArg some (eq_of_beq hc)
    | _ => cases hc
  · rintro ⟨e, he, hc⟩
    refine ⟨e, he, ?_⟩
    cases e with
    | closed id => exact beq_iff_eq.mpr (Option.some.inj hc)
    | _ => cases hc

theorem closedScopes_record_dispatched (σ : World) (bound : BoundAction) (scopes : List Nat) (time : Nat) :
    (σ.record (.dispatched bound scopes time)).closedScopes = σ.closedScopes := by
  rw [closedScopes, record, List.filterMap_append]
  exact congrArg _ (List.append_nil _)

theorem closedScopes_record_completed (σ : World) (record : ActionRecord) (time : Nat) :
    (σ.record (.completed record time)).closedScopes = σ.closedScopes := by
  rw [closedScopes, World.record, List.filterMap_append]
  exact congrArg _ (List.append_nil _)

theorem Idles.closedScopes {σ τ : World} (h : σ.Idles τ) : τ.closedScopes = σ.closedScopes :=
  congrArg ((↑) : List Nat → Multiset Nat) (h.filterMap_log fun _ _ _ => rfl)

theorem closedScopes_abandon (σ : World) (scope : Nat) (works : List Work) :
    (σ.abandon scope works).closedScopes = σ.closedScopes + {scope} := by
  simp [closedScopes, abandon, record, Event.closed?, ← Multiset.coe_add]

theorem detachedScopes_abandon (σ : World) (scope : Nat) (works : List Work) :
    (σ.abandon scope works).detachedScopes = σ.detachedScopes + (works.map Work.scopes).sum := by
  have ht : (works.map Work.takeUp).map Work.scopes = works.map Work.scopes := by
    rw [List.map_map]
    exact List.map_congr_left fun w _ => (Work.stirs_takeUp w).scopes_eq
  rw [detachedScopes, abandon, List.map_append, List.sum_append, ht]
  rfl

def Sealed (σ : World) (w : Work) : Prop := ∃ around, w.Inside around ∧ ∃ i ∈ around, i ∈ σ.closedScopes

theorem Sealed.mono {σ τ : World} {w : Work} (h : σ.Sealed w) (hc : σ.closedScopes ≤ τ.closedScopes) : τ.Sealed w := by
  obtain ⟨around, hw, i, hi, hm⟩ := h
  exact ⟨around, hw, i, hi, Multiset.mem_of_le hc hm⟩

theorem Sealed.stirs {σ : World} {w w' : Work} (h : σ.Sealed w) (hw : Work.Stirs w w') : σ.Sealed w' := by
  obtain ⟨around, hi, hc⟩ := h
  exact ⟨around, hw.inside hi, hc⟩

/-- What dispatching inside of scopes does to the world: some scopes are opened, and in a closed scope nothing is
dispatched. -/
structure Enlarges (σ τ : World) (around : List Nat) (opened : Multiset Nat) : Prop where
  detached : τ.detached = σ.detached
  closed : τ.closedScopes = σ.closedScopes
  le : σ.nextScope ≤ τ.nextScope
  opened : opened ≤ Multiset.Ico σ.nextScope τ.nextScope
  silent : (∃ i ∈ around, i ∈ σ.closedScopes) → τ.dispatched = σ.dispatched

theorem enlarges_refl (σ : World) (around : List Nat) : σ.Enlarges σ around 0 :=
  ⟨rfl, rfl, Nat.le_refl _, Multiset.zero_le _, fun _ => rfl⟩

theorem Enlarges.trans {σ τ υ : World} {around : List Nat} {a b : Multiset Nat} (h : σ.Enlarges τ around a)
    (hτ : τ.Enlarges υ around b) : σ.Enlarges υ around (a + b) where
  detached := hτ.detached.trans h.detached
  closed := hτ.closed.trans h.closed
  le := h.le.trans hτ.le
  opened := by
    rw [← Multiset.Ico_add_Ico_eq_Ico h.le hτ.le]
    exact add_le_add h.opened hτ.opened
  silent hc := by
    rw [hτ.silent (by rwa [h.closed]), h.silent hc]

theorem Enlarges.of_cons {σ τ : World} {i : Nat} {around : List Nat} {opened : Multiset Nat}
    (h : σ.Enlarges τ (i :: around) opened) : σ.Enlarges τ around opened := by
  refine ⟨h.detached, h.closed, h.le, h.opened, ?_⟩
  rintro ⟨j, hj, hc⟩
  exact h.silent ⟨j, List.mem_cons_of_mem i hj, hc⟩

theorem enlarges_openScope (σ : World) (around : List Nat) : σ.Enlarges σ.openScope around {σ.nextScope} := by
  refine ⟨rfl, rfl, Nat.le_succ _, ?_, fun _ => rfl⟩
  exact le_of_eq (congrArg Finset.val (Nat.Ico_succ_singleton σ.nextScope)).symm

theorem enlarges_perform (scopes : List Nat) (updates : List Update) (trace : List BoundAction) (s : State)
    (bound : BoundAction) (σ : World) :
    σ.Enlarges (Work.perform scopes updates trace s bound σ).2 scopes 0 := by
  obtain ⟨e, he⟩ | ⟨ho, he⟩ := Work.perform_cases scopes updates trace s bound σ
  · rw [he]
    exact σ.enlarges_refl scopes
  · rw [he]
    refine ⟨rfl, σ.closedScopes_record_dispatched bound scopes σ.clock, Nat.le_refl _, Multiset.zero_le _, ?_⟩
    -- an action is dispatched in open scopes only
    rintro ⟨i, hi, hc⟩
    have hn := List.any_eq_false.mp ho i hi
    exact absurd ((σ.isClosed_iff i).mpr hc) hn

end World

theorem Program.scopes_cases (c : Setting) (s : State) :
    DispatchCases c s
      (fun _ around σ l => l.work.Inside around ∧ σ.Enlarges l.world around l.work.scopes)
      (fun _ around _ _ _ σ r => (∀ f ∈ r.flights, f.work.Inside around) ∧
        σ.Enlarges r.world around (r.flights.map (·.work.scopes)).sum) where
  failed _ around σ _ _ := ⟨.settled around _, σ.enlarges_refl around⟩
  finished _ around σ _ := ⟨.settled around _, σ.enlarges_refl around⟩
  call _ _ around σ bound _ := by
    refine ⟨Work.inside_perform around [] [] s bound σ, ?_⟩
    rw [Work.scopes_of_isPlain (Work.isPlain_perform around [] [] s bound σ)]
    exact World.enlarges_perform around [] [] s bound σ
  plan _ _ around σ plan _ := by
    obtain ⟨-, he⟩ | ⟨bound, rest, -, he⟩ := Work.performAll_cases around s σ plan.trace
    · simp only [he]
      exact ⟨.settled around _, σ.enlarges_refl around⟩
    · simp only [he]
      refine ⟨Work.inside_perform around [] rest s bound σ, ?_⟩
      rw [Work.scopes_of_isPlain (Work.isPlain_perform around [] rest s bound σ)]
      exact World.enlarges_perform around [] rest s bound σ
  enter _ _ _ _ _ _ h := h
  skip _ _ _ _ _ _ h := h
  before _ _ _ _ _ _ h := h
  bind _ _ _ _ _ h := h
  decided kind branches around σ _ _ _ _ := by
    refine ⟨.group rfl (List.forall_mem_nil _), ?_⟩
    rw [Launch.group, Work.scopes_group]
    exact σ.enlarges_openScope around
  group kind branches around σ r _ _ _ _ h := by
    obtain ⟨hi, hσ⟩ := h
    have hf : ∀ f ∈ r.flights ++ [], f.work.Inside (σ.nextScope :: around) := by
      rw [List.append_nil]
      exact hi
    refine ⟨.group rfl hf, ?_⟩
    rw [Launch.group, Work.scopes_group, Scheduler.flights, List.append_nil]
    exact (σ.enlarges_openScope around).trans hσ.of_cons
  nil around _ _ _ σ := ⟨List.forall_mem_nil _, σ.enlarges_refl around⟩
  done _ _ _ _ _ _ _ _ _ h := h
  mark _ _ _ _ _ _ _ _ _ _ h := h
  start _ _ _ _ _ _ _ l r _ _ hl hr := by
    refine ⟨?_, ?_⟩
    · intro f hf
      rcases List.mem_cons.mp hf with rfl | hf
      · exact hl.1
      · exact hr.1 f hf
    · simp only [Round.start, List.map_cons, List.sum_cons]
      exact hl.2.trans hr.2

namespace World

/-- What a step of a work inside of scopes does to the world. No scope comes up a second time, what is detached lies in
a closed scope, and a work in a closed scope dispatches nothing. -/
structure Passes (σ τ : World) (around : List Nat) (before after : Multiset Nat) : Prop where
  le : σ.nextScope ≤ τ.nextScope
  closed : σ.closedScopes ≤ τ.closedScopes
  scopes : τ.closedScopes + τ.detachedScopes + after ≤
    σ.closedScopes + σ.detachedScopes + before + Multiset.Ico σ.nextScope τ.nextScope
  detached : ∃ ds, τ.detached = σ.detached ++ ds ∧ ∀ d ∈ ds, τ.Sealed d
  silent : (∃ i ∈ around, i ∈ σ.closedScopes) → τ.dispatched = σ.dispatched

theorem Enlarges.passes {σ τ : World} {around : List Nat} {opened : Multiset Nat} (h : σ.Enlarges τ around opened)
    (before : Multiset Nat) : σ.Passes τ around before (before + opened) where
  le := h.le
  closed := le_of_eq h.closed.symm
  scopes := by
    rw [h.closed, detachedScopes, h.detached, ← detachedScopes, ← add_assoc]
    exact add_le_add_right h.opened _
  detached := ⟨[], by rw [h.detached, List.append_nil], List.forall_mem_nil _⟩
  silent := h.silent

theorem passes_refl (σ : World) (around : List Nat) (scopes : Multiset Nat) : σ.Passes σ around scopes scopes := by
  have h := (σ.enlarges_refl around).passes scopes
  rwa [add_zero] at h

theorem Passes.weaken {σ τ : World} {around : List Nat} {before after less : Multiset Nat}
    (h : σ.Passes τ around before after) (hl : less ≤ after) : σ.Passes τ around before less :=
  ⟨h.le, h.closed, (add_le_add_right hl _).trans h.scopes, h.detached, h.silent⟩

theorem Passes.widen {σ τ : World} {i : Nat} {around : List Nat} {before after : Multiset Nat}
    (h : σ.Passes τ (i :: around) before after) (others : Multiset Nat) :
    σ.Passes τ around (others + before) (others + after) where
  le := h.le
  closed := h.closed
  scopes := by
    rw [add_left_comm, add_left_comm _ others before, add_assoc others]
    exact add_le_add_right h.scopes others
  detached := h.detached
  silent := by
    rintro ⟨j, hj, hc⟩
    exact h.silent ⟨j, List.mem_cons_of_mem i hj, hc⟩

theorem passes_abandon {σ : World} {s : Scheduler Work} {around : List Nat} (h : (Work.group s).Inside around) :
    σ.Passes (σ.abandon s.scope s.works) around (Work.group s).scopes 0 where
  le := Nat.le_refl _
  closed := by
    rw [closedScopes_abandon]
    exact le_add_right (le_refl _)
  scopes := by
    rw [closedScopes_abandon, detachedScopes_abandon, Work.scopes_group, Scheduler.works, List.map_map, add_zero]
    refine le_add_right (le_of_eq ?_)
    rw [add_add_add_comm]
    rfl
  detached := by
    refine ⟨s.works.map Work.takeUp, rfl, ?_⟩
    intro d hd
    obtain ⟨_, hw, rfl⟩ := List.mem_map.mp hd
    obtain ⟨f, hf, rfl⟩ := List.mem_map.mp hw
    refine ⟨s.scope :: around, (Work.stirs_takeUp f.work).inside (h.inv.2 f hf), s.scope, List.mem_cons_self, ?_⟩
    rw [closedScopes_abandon]
    exact Multiset.mem_add.mpr (.inr (Multiset.mem_singleton_self _))
  silent _ := dispatched_abandon σ s.scope s.works

end World

theorem Execution.enlarges_complete (e : Execution) (σ : World) : σ.Enlarges (e.complete σ).2 e.scopes 0 := by
  have hr : σ.Enlarges (σ.record (.completed e.bound.record σ.clock)) e.scopes 0 :=
    ⟨rfl, σ.closedScopes_record_completed _ _, Nat.le_refl _, Multiset.zero_le _,
      fun _ => σ.dispatched_record_completed _ _⟩
  obtain ⟨message, he⟩ | ⟨result, -, he⟩ | ⟨bound, trace, -, he⟩ := e.complete_cases σ
  · rw [he]
    exact hr
  · rw [he]
    exact hr
  · rw [he]
    exact hr.trans (World.enlarges_perform e.scopes _ trace e.after bound _)

theorem Execution.inside_complete (e : Execution) (σ : World) : (e.complete σ).1.Inside e.scopes := by
  obtain ⟨message, he⟩ | ⟨result, -, he⟩ | ⟨bound, trace, -, he⟩ := e.complete_cases σ
  · rw [he]
    exact .settled e.scopes _
  · rw [he]
    exact .settled e.scopes _
  · rw [he]
    exact Work.inside_perform e.scopes _ trace e.after bound _

theorem Execution.enlarges_advance {e : Execution} {σ τ : World} {w : Work} (h : e.advance σ = some (w, τ)) :
    w.Inside e.scopes ∧ σ.Enlarges τ e.scopes 0 := by
  obtain ⟨allowance, he⟩ | ⟨timer, postponed, rfl, hτ⟩ := advance_ends_or_stays h
  · have hi := e.inside_complete { σ with allowance }
    have hc := e.enlarges_complete { σ with allowance }
    rw [← he] at hi hc
    exact ⟨hi, hc.detached, hc.closed, hc.le, hc.opened, hc.silent⟩
  · exact ⟨.acting rfl, hτ.detached, hτ.closedScopes, hτ.nextScope.ge, Multiset.zero_le _, fun _ => hτ.dispatched⟩

theorem Scheduler.scope_foldBatch {τ : Type} {s t : Scheduler τ} (h : s.foldBatch = .ok t) :
    t.scope = s.scope ∧ t.outer = s.outer := by
  refine foldBatch_induction (P := fun u => u.scope = s.scope ∧ u.outer = s.outer) ?_ ⟨rfl, rfl⟩ h
  intro u d v _ hu _ hv
  obtain ⟨o, next, -, -, rfl⟩ := complete_eq_ok hv
  exact hu

namespace Work

theorem Inside.foldBatch {around : List Nat} {s t : Scheduler Work} (h : Inside around (.group s))
    (ht : s.foldBatch = .ok t) : (Work.group t).Inside around ∧ (Work.group t).scopes = (Work.group s).scopes := by
  obtain ⟨ho, hf⟩ := h.inv
  obtain ⟨he, ho'⟩ := Scheduler.scope_foldBatch ht
  have hn := (Scheduler.flights_foldBatch ht).1
  constructor
  · refine .group (ho'.trans ho) ?_
    rw [he, hn]
    exact hf
  · rw [scopes_group, scopes_group, he, hn]

theorem passes_dispatchLive {around : List Nat} {s : Scheduler Work} (h : (group s).Inside around) (c : Setting)
    (σ : World) : (s.dispatchLive c σ).1.Inside around ∧
      σ.Passes (s.dispatchLive c σ).2 around (group s).scopes (s.dispatchLive c σ).1.scopes := by
  obtain ⟨rfl, hf⟩ := h.inv
  obtain ⟨hi, hσ⟩ := (Program.scopes_cases c s.state).round s.slots (s.scope :: s.outer) (fun _ => false) 0 s.nextSeq σ
  constructor
  · refine .group rfl ?_
    intro f hm
    rcases Scheduler.mem_flights_dispatchLive hm with hm | hm
    · exact hf f hm
    · exact hi f hm
  · have hp := hσ.of_cons.passes (group s).scopes
    refine cast ?_ hp
    congr 1
    rw [Scheduler.dispatchLive, scopes_group, scopes_group]
    simp only [Scheduler.flights, List.map_append, List.sum_append]
    ac_rfl

theorem Moves.passes {c : Setting} {w w' : Work} {σ τ : World} (h : Moves c w σ w' τ) {around : List Nat}
    (hw : w.Inside around) : w'.Inside around ∧ σ.Passes τ around w.scopes w'.scopes := by
  induction h generalizing around with
  | @act e σ τ w h =>
    cases hw with
    | acting he =>
      obtain rfl := he
      obtain ⟨hi, hσ⟩ := Execution.enlarges_advance h
      refine ⟨hi, ?_⟩
      rw [scopes_of_isPlain (Execution.isPlain_advance h)]
      exact hσ.passes 0
  -- what ends gives its scopes to those that are closed or detached
  | finish _ _ => exact ⟨.settled around _, World.passes_abandon hw⟩
  | @starve s σ short _ _ _ => exact ⟨.settled around _, (σ.passes_refl around _).weaken (Multiset.zero_le _)⟩
  | @rest s σ short _ _ _ =>
    have hst := stirs_look s (.resting (s.attention.again || short))
    refine ⟨hst.inside hw, ?_⟩
    rw [hst.scopes_eq]
    exact σ.passes_refl around _
  | fail _ _ _ => exact ⟨.settled around _, World.passes_abandon hw⟩
  | decide _ _ ht _ =>
    obtain ⟨hi, he⟩ := hw.foldBatch ht
    rw [← he]
    exact ⟨.settled around _, World.passes_abandon hi⟩
  | @go s t σ short _ _ ht _ =>
    obtain ⟨hi, he⟩ := hw.foldBatch ht
    rw [← he]
    exact passes_dispatchLive hi c σ
  | @follow s f rest σ τ w hs _ ih =>
    obtain ⟨ho, hf⟩ := hw.inv
    obtain ⟨hi, hp⟩ := ih (hf f hs.mem_flights)
    constructor
    · refine .group ho ?_
      intro g hm
      rcases hs.mem_flights_follow hm with rfl | hm
      · exact hi
      · exact hf g hm
    · have hw := hp.widen ({s.scope} + ((rest ++ s.waiting).map (·.work.scopes)).sum)
      rw [scopes_group, scopes_group]
      simp only [Scheduler.follow, Scheduler.flights, hs.queue, List.cons_append, List.map_cons, List.sum_cons]
      rwa [add_right_comm, add_assoc, add_right_comm, add_assoc] at hw
  | @receive s f rest σ hs _ =>
    obtain ⟨outcome, hset, he⟩ | hst := receive_cases hs.queue
    · obtain ⟨ho, hf⟩ := hw.inv
      rw [he]
      refine ⟨.group ho fun g hm => hf g (hs.mem_flights_of_mem_rest hm), ?_⟩
      rw [scopes_group, scopes_group]
      simp only [Scheduler.flights, hs.queue, List.cons_append, List.map_cons, List.sum_cons, hset, scopes, zero_add]
      exact σ.passes_refl around _
    · refine ⟨hst.inside hw, ?_⟩
      rw [hst.scopes_eq]
      exact σ.passes_refl around _

end Work

namespace Machine

structure Scoped (m : Machine) : Prop where
  inside : m.main.Inside []
  sealed : ∀ w ∈ m.world.detached, m.world.Sealed w
  scopes : m.world.closedScopes + m.world.detachedScopes + m.main.scopes ≤ Multiset.range m.world.nextScope

theorem Scoped.not_closed {m : Machine} (h : m.Scoped) {i : Nat} (hi : i ∈ m.main.scopes) :
    m.world.isClosed i = false := by
  cases hc : m.world.isClosed i with
  | false => rfl
  | true =>
    have hd := Multiset.nodup_of_le h.scopes (Multiset.nodup_range _)
    rw [add_assoc, Multiset.nodup_add] at hd
    have hm := (m.world.isClosed_iff i).mp hc
    exact absurd (Multiset.mem_add.mpr (.inr hi)) (Multiset.disjoint_left.mp hd.2.2 hm)

theorem Scoped.closed_lt {m : Machine} (h : m.Scoped) {i : Nat} (hi : m.world.isClosed i = true) :
    i < m.world.nextScope := by
  have hm := Multiset.mem_of_le h.scopes (Multiset.mem_add.mpr (.inl (Multiset.mem_add.mpr (.inl
    ((m.world.isClosed_iff i).mp hi)))))
  exact Multiset.mem_range.mp hm

theorem range_add_Ico {a b : Nat} (h : a ≤ b) : Multiset.range a + Multiset.Ico a b = Multiset.range b := by
  have hr (n : Nat) : Multiset.range n = Multiset.Ico 0 n := congrArg Finset.val (Finset.range_eq_Ico n)
  rw [hr a, hr b]
  exact Multiset.Ico_add_Ico_eq_Ico (Nat.zero_le a) h

theorem Scoped.stirs {m : Machine} (h : m.Scoped) {w : Work} (hw : Work.Stirs m.main w) {σ : World}
    (hl : σ.log = m.world.log) (hn : σ.nextScope = m.world.nextScope) {g : Work → Work}
    (hg : ∀ w, Work.Stirs w (g w)) (hd : σ.detached = m.world.detached.map g) : Scoped ⟨w, σ⟩ := by
  have hc : σ.closedScopes = m.world.closedScopes := by rw [World.closedScopes, hl, World.closedScopes]
  refine ⟨hw.inside h.inside, ?_, ?_⟩
  · intro u hu
    rw [hd] at hu
    obtain ⟨v, hv, rfl⟩ := List.mem_map.mp hu
    exact ((h.sealed v hv).mono (le_of_eq hc.symm)).stirs (hg v)
  · have hs : σ.detachedScopes = m.world.detachedScopes := by
      rw [World.detachedScopes, hd, List.map_map, World.detachedScopes]
      exact congrArg List.sum (List.map_congr_left fun v _ => (hg v).scopes_eq)
    rw [hc, hs, hn, hw.scopes_eq]
    exact h.scopes

/-- A work that goes on by itself dispatches nothing, and does not touch the scopes of others. -/
theorem Scoped.move_detached {c : Setting} {m : Machine} (h : m.Scoped) {front rest : List Work} {w w' : Work}
    {τ : World} (he : m.world.detached = front ++ w :: rest)
    (hm : w.move c { m.world.renew c with detached := [] } = some (w', τ)) (allowance : Nat) :
    Scoped ⟨m.main, { τ with detached := front ++ w' :: rest ++ τ.detached, allowance }⟩ ∧
      m.world.nextScope ≤ τ.nextScope ∧ τ.dispatched = m.world.dispatched := by
  have hs := h.sealed
  rw [he] at hs
  obtain ⟨around, hi, hc⟩ := hs w (List.mem_append_right _ List.mem_cons_self)
  obtain ⟨hi', hp⟩ : w'.Inside around ∧
      ({ m.world.renew c with detached := [] } : World).Passes τ around w.scopes w'.scopes := by
    obtain hmv | ⟨-, -, rfl, rfl⟩ := Work.move_cases hm
    · exact hmv.passes hi
    · have hst := Work.stirs_wake w
      refine ⟨hst.inside hi, ?_⟩
      rw [hst.scopes_eq]
      exact World.passes_refl _ around _
  refine ⟨⟨h.inside, ?_, ?_⟩, hp.le, hp.silent hc⟩
  · obtain ⟨ds, hd, hds⟩ := hp.detached
    have hle : m.world.closedScopes ≤ τ.closedScopes := hp.closed
    intro u hu
    rcases List.mem_append.mp hu with hu | hu
    · rcases List.mem_append.mp hu with hu | hu
      · exact (hs u (List.mem_append_left _ hu)).mono hle
      · rcases List.mem_cons.mp hu with rfl | hu
        · obtain ⟨i, hi₀, hi₁⟩ := hc
          exact ⟨around, hi', i, hi₀, Multiset.mem_of_le hle hi₁⟩
        · exact (hs u (List.mem_append_right _ (List.mem_cons_of_mem w hu))).mono hle
    · rw [hd, List.nil_append] at hu
      exact hds u hu
  · have hd : m.world.detachedScopes = (front.map Work.scopes).sum + (w.scopes + (rest.map Work.scopes).sum) := by
      rw [World.detachedScopes, he, List.map_append, List.sum_append, List.map_cons, List.sum_cons]
    calc τ.closedScopes + ((front ++ w' :: rest ++ τ.detached).map Work.scopes).sum + m.main.scopes
        = (front.map Work.scopes).sum + (rest.map Work.scopes).sum + m.main.scopes +
            (τ.closedScopes + τ.detachedScopes + w'.scopes) := by
          simp only [List.map_append, List.sum_append, List.map_cons, List.sum_cons, World.detachedScopes]
          ac_rfl
      _ ≤ (front.map Work.scopes).sum + (rest.map Work.scopes).sum + m.main.scopes +
            (m.world.closedScopes + 0 + w.scopes + Multiset.Ico m.world.nextScope τ.nextScope) :=
          add_le_add_right hp.scopes _
      _ = m.world.closedScopes + m.world.detachedScopes + m.main.scopes +
            Multiset.Ico m.world.nextScope τ.nextScope := by
          rw [hd, add_zero]
          ac_rfl
      _ ≤ Multiset.range m.world.nextScope + Multiset.Ico m.world.nextScope τ.nextScope := add_le_add_left h.scopes _
      _ = Multiset.range τ.nextScope := range_add_Ico hp.le

theorem Steps.scoped {c : Setting} {m m' : Machine} (h : Steps c m m') (hm : m.Scoped) : m'.Scoped := by
  cases h with
  | move h =>
    obtain ⟨hi, hp⟩ := h.passes hm.inside
    refine ⟨hi, ?_, ?_⟩
    · obtain ⟨ds, hd, hds⟩ := hp.detached
      intro w hw
      rw [hd] at hw
      rcases List.mem_append.mp hw with hw | hw
      · exact (hm.sealed w hw).mono hp.closed
      · exact hds w hw
    · rw [← range_add_Ico hp.le]
      exact hp.scopes.trans (add_le_add_left hm.scopes _)
  | takeUp _ _ => exact hm.stirs (Work.stirs_takeUp _) rfl rfl Work.stirs_refl (List.map_id _).symm
  | wake _ _ _ => exact hm.stirs (Work.stirs_wake _) rfl rfl Work.stirs_refl (List.map_id _).symm
  | detached _ he hd => exact (hm.move_detached he hd _).1
  | @ring time _ _ => exact hm.stirs (Work.stirs_ring _ time) rfl rfl (fun w => Work.stirs_ring w time) rfl

end Machine

end Agenda
