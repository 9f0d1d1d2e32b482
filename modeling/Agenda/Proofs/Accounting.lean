import Mathlib
import Agenda.Proofs.Replay
import Agenda.Proofs.SlotTable
import Agenda.Proofs.Vocabulary

/-!
# Every effect is counted once

An action that is dispatched is on its way until its effect is among the updates of the transition. In programs without
races nothing that was dispatched is ever discarded: what is dispatched and what is on its way change by the same
actions, at every step and at every depth, unless something fails.
-/

namespace Agenda

set_option autoImplicit false

def Update.effect? : Update → Option BoundAction
  | .effect bound => some bound
  | .bind _ _ => none

def Update.effects (updates : List Update) : List BoundAction := updates.filterMap Update.effect?

namespace Update

theorem effects_append (us vs : List Update) : effects (us ++ vs) = effects us ++ effects vs := List.filterMap_append

theorem effects_concat_effect (us : List Update) (bound : BoundAction) :
    effects (us ++ [.effect bound]) = effects us ++ [bound] := by
  rw [effects_append]
  rfl

end Update

theorem World.history_eq (σ : World) : σ.history = (σ.dispatched.filter (·.action.recorded)).map (·.record) := by
  unfold history dispatched
  induction σ.log with
  | nil => rfl
  | cons e rest ih =>
    cases e with
    | dispatched bound scopes time =>
      by_cases hr : bound.action.recorded = true <;> simp [Event.recorded?, Event.dispatched?, hr, ih]
    | started _ _ _ => exact ih
    | completed _ _ => exact ih
    | closed _ => exact ih

theorem Frame.effects_resume (frames : List Frame) (o : Outcome) :
    Update.effects (resume frames o).updates = Update.effects o.updates := by
  suffices hf : ∀ t : Successor, Update.effects (frames.foldl apply t).updates = Update.effects t.updates from hf _
  intro t
  induction frames generalizing t with
  | nil => rfl
  | cons f rest ih =>
    rw [List.foldl_cons, ih]
    cases f with
    | before rest => rfl
    | bind var =>
      change Update.effects (t.bound var).updates = _
      unfold Successor.bound
      split
      · rfl
      · simp [Update.effects, Update.effect?]

def Completion.acts (c : Completion) : Multiset BoundAction :=
  match c.outcome with
  | .ok o => ↑(Update.effects o.updates)
  | .error _ => 0

namespace Work

mutual
/-- The actions that were dispatched in a work and whose effects are not passed on yet. -/
def acts : Work → Multiset BoundAction
  | .settled (.ok o) => ↑(Update.effects o.updates)
  | .settled (.error _) => 0
  | .acting e => ↑(Update.effects e.updates) + {e.bound}
  | .group s => ↑(Update.effects s.applied) + (s.batch.map Completion.acts).sum + flightsActs s.queue +
      flightsActs s.waiting
termination_by structural w => w

def flightsActs : List (Flight Work) → Multiset BoundAction
  | [] => 0
  | f :: rest => f.work.acts + flightsActs rest
termination_by structural fs => fs
end

theorem flightsActs_eq (fs : List (Flight Work)) : flightsActs fs = (fs.map (·.work.acts)).sum := by
  induction fs with
  | nil => rfl
  | cons f rest ih => rw [flightsActs, ih, List.map_cons, List.sum_cons]

theorem acts_group (s : Scheduler Work) :
    (group s).acts =
      ↑(Update.effects s.applied) + (s.batch.map Completion.acts).sum + (s.flights.map (·.work.acts)).sum := by
  rw [acts, flightsActs_eq, flightsActs_eq, Scheduler.flights, List.map_append, List.sum_append, add_assoc]

theorem acts_group_cons {s : Scheduler Work} {f : Flight Work} {fs : List (Flight Work)} (h : s.flights = f :: fs) :
    (group s).acts = f.work.acts +
      (↑(Update.effects s.applied) + (s.batch.map Completion.acts).sum + (fs.map (·.work.acts)).sum) := by
  rw [acts_group, h, List.map_cons, List.sum_cons, add_left_comm]

inductive Whole : Work → Prop
  | settled (o : Outcome) : Whole (.settled (.ok o))
  | acting (e : Execution) : Whole (.acting e)
  | group {s : Scheduler Work} : (∀ c ∈ s.batch, ∃ o, c.outcome = .ok o) → (∀ f ∈ s.flights, Whole f.work) →
      Whole (.group s)

theorem Whole.inv {s : Scheduler Work} (h : Whole (.group s)) :
    (∀ c ∈ s.batch, ∃ o, c.outcome = .ok o) ∧ ∀ f ∈ s.flights, f.work.Whole := by
  cases h with
  | group hb hf => exact ⟨hb, hf⟩

theorem not_whole_error (e : Failure) : ¬ Whole (.settled (.error e)) := nofun

theorem Stirs.whole_iff {w w' : Work} (h : Stirs w w') : w'.Whole ↔ w.Whole := by
  induction h with
  | settled outcome => exact .rfl
  | acting e timer postponed _ => exact ⟨fun _ => .acting e, fun _ => .acting _⟩
  | @group s queue waiting attention fs he hp _ ih =>
    constructor
    · intro hw
      obtain ⟨hb, hf⟩ := hw.inv
      refine .group hb ?_
      intro f hm
      rw [← he] at hm
      obtain ⟨x, hx, rfl⟩ := List.mem_map.mp hm
      exact (ih x hx).mp (hf x.flight (hp.mem_iff.mpr (List.mem_map_of_mem hx)))
    · intro hw
      obtain ⟨hb, hf⟩ := hw.inv
      refine .group hb ?_
      intro f hm
      obtain ⟨x, hx, h₀, rfl⟩ := exists_of_mem_stirred he hp hm
      exact (ih x hx).mpr (hf x.1 h₀)

theorem Stirs.acts_eq {w w' : Work} (h : Stirs w w') : w'.acts = w.acts := by
  induction h with
  | settled outcome => rfl
  | acting e timer postponed _ => rfl
  | @group s queue waiting attention fs he hp _ ih =>
    rw [acts_group, acts_group]
    exact congrArg _ (map_stirred_perm (·.work.acts) he hp ih).sum_eq

end Work

namespace Scheduler

theorem KeepsTo.not_race {v : Vocabulary} {s : Scheduler Work} (h : s.KeepsTo v) (hv : v.control .either = false) :
    s.kind ≠ .either := by
  intro he
  have hk := h.kind
  rw [he, hv] at hk
  cases hk

/-- A construct other than a race folds every transition that came to its end, if none of them failed. So what each of
them adds to an account is added. -/
theorem sum_foldAll {M : Type} [AddMonoid M] (account : Scheduler Work → M) {value : Completion → M}
    {s t : Scheduler Work} {cs : List Completion} {pending : List Nat}
    (step : ∀ u c u', c ∈ cs → u.slots[c.slot]? = some .blocked → u.complete c = .ok u' →
      account u' = account u + value c)
    (hk : s.kind ≠ .either) (hm : Marks s.slots (cs.map (·.slot) ++ pending)) (ht : s.foldAll cs = .ok t) :
    (∀ c ∈ cs, ∃ o, c.outcome = .ok o) ∧ account t = account s + (cs.map value).sum := by
  induction cs generalizing s with
  | nil =>
    cases ht
    exact ⟨nofun, by simp⟩
  | cons c rest ih =>
    obtain ⟨u, hu, hk', hm', ht⟩ := foldAll_cons_eq_ok hk hm ht
    obtain ⟨o, next, ho, -, -⟩ := complete_eq_ok hu
    obtain ⟨hr, he⟩ := ih (fun x d y hd => step x d y (List.mem_cons_of_mem c hd)) hk' hm' ht
    constructor
    · exact List.forall_mem_cons.mpr ⟨⟨o, ho⟩, hr⟩
    · rw [he, step s c u List.mem_cons_self (hm.blocked c.slot List.mem_cons_self) hu, List.map_cons, List.sum_cons,
        add_assoc]

theorem sum_foldBatch {M : Type} [AddCommMonoid M] (account : Scheduler Work → M) {value : Completion → M}
    {s t : Scheduler Work}
    (step : ∀ u c u', c ∈ s.batch → u.slots[c.slot]? = some .blocked → u.complete c = .ok u' →
      account u' = account u + value c)
    (hk : s.kind ≠ .either) (hs : s.Tabled) (ht : s.foldBatch = .ok t) :
    (∀ c ∈ s.batch, ∃ o, c.outcome = .ok o) ∧ account t = account { s with batch := [] } + (s.batch.map value).sum := by
  have hp := List.mergeSort_perm s.batch fun a b => decide (a.seq ≤ b.seq)
  have hm : Marks s.slots ((s.batch.mergeSort fun a b => decide (a.seq ≤ b.seq)).map (·.slot) ++
      s.flights.map (·.slot)) := hs.perm (((hp.map _).append_right _).trans List.perm_append_comm)
  obtain ⟨ho, he⟩ := sum_foldAll account (s := { s with batch := [] })
    (fun u c u' hc => step u c u' (hp.mem_iff.mp hc)) hk hm ht
  exact ⟨fun c hc => ho c (hp.mem_iff.mpr hc), by rw [he, (hp.map _).sum_eq]⟩

theorem effects_complete {s t : Scheduler Work} {c : Completion} (h : s.complete c = .ok t) :
    (↑(Update.effects t.applied) : Multiset BoundAction) = ↑(Update.effects s.applied) + c.acts := by
  obtain ⟨o, next, ho, -, rfl⟩ := complete_eq_ok h
  rw [Completion.acts, ho, Update.effects_append, Frame.effects_resume, ← Multiset.coe_add]

theorem acts_foldBatch {s t : Scheduler Work} (hk : s.kind ≠ .either) (hs : s.Tabled) (ht : s.foldBatch = .ok t) :
    (∀ c ∈ s.batch, ∃ o, c.outcome = .ok o) ∧ (Work.group t).acts = (Work.group s).acts := by
  obtain ⟨ho, he⟩ := sum_foldBatch (fun u => (↑(Update.effects u.applied) : Multiset BoundAction))
    (fun u c u' _ _ h => effects_complete h) hk hs ht
  obtain ⟨hf, hb⟩ := flights_foldBatch ht
  refine ⟨ho, ?_⟩
  rw [Work.acts_group, Work.acts_group, hf, hb, he]
  simp

end Scheduler

/-- From one world to the next, what was dispatched and what is on its way grow by the same actions. -/
structure World.Balances (σ τ : World) (before after : Multiset BoundAction) : Prop where
  detached : τ.detached = σ.detached
  acts : (↑τ.dispatched : Multiset BoundAction) + before = ↑σ.dispatched + after

theorem World.balances_refl (σ : World) (acts : Multiset BoundAction) : σ.Balances σ acts acts := ⟨rfl, rfl⟩

namespace Work

theorem balances_perform {scopes : List Nat} {updates : List Update} {trace : List BoundAction} {s : State}
    {bound : BoundAction} {σ : World} (h : (perform scopes updates trace s bound σ).1.Whole) :
    σ.Balances (perform scopes updates trace s bound σ).2 ↑(Update.effects updates)
      (perform scopes updates trace s bound σ).1.acts := by
  obtain ⟨e, he⟩ | ⟨-, he⟩ := perform_cases scopes updates trace s bound σ
  · rw [he] at h
    exact absurd h (not_whole_error e)
  · rw [he]
    refine ⟨rfl, ?_⟩
    rw [World.dispatched_record_dispatched, acts, ← Multiset.coe_add, Multiset.coe_singleton, add_right_comm,
      add_assoc]

end Work

theorem Execution.balances_complete {e : Execution} {σ : World} (h : (e.complete σ).1.Whole) :
    σ.Balances (e.complete σ).2 (Work.acting e).acts (e.complete σ).1.acts := by
  have hu : (↑(Update.effects (e.updates ++ [.effect e.bound])) : Multiset BoundAction) = (Work.acting e).acts := by
    rw [Update.effects_concat_effect, Work.acts, ← Multiset.coe_add, Multiset.coe_singleton]
  obtain ⟨message, he⟩ | ⟨result, -, he⟩ | ⟨bound, trace, -, he⟩ := e.complete_cases σ
  · rw [he] at h
    exact absurd h (Work.not_whole_error _)
  · rw [he]
    refine ⟨rfl, ?_⟩
    rw [World.dispatched_record_completed, Work.acts, hu]
  · rw [he] at h ⊢
    have hb := Work.balances_perform h
    rw [hu] at hb
    refine ⟨hb.detached, ?_⟩
    rw [hb.acts, World.dispatched_record_completed]

theorem Program.balances_cases (c : Setting) (s : State) :
    DispatchCases c s
      (fun _ _ σ l => l.work.Whole → σ.Balances l.world 0 l.work.acts)
      (fun _ _ _ _ _ σ r => (∀ f ∈ r.flights, f.work.Whole) →
        σ.Balances r.world 0 (r.flights.map (·.work.acts)).sum) where
  failed _ _ _ e _ h := absurd h (Work.not_whole_error e)
  finished _ _ σ _ _ := σ.balances_refl 0
  call _ _ scopes σ bound _ h := Work.balances_perform h
  plan _ _ scopes σ plan _ h := by
    obtain ⟨-, he⟩ | ⟨bound, rest, -, he⟩ := Work.performAll_cases scopes s σ plan.trace
    · simp only [he]
      exact σ.balances_refl 0
    · simp only [he] at h ⊢
      exact Work.balances_perform h
  enter _ _ _ _ _ _ h := h
  skip _ _ _ _ _ _ h := h
  before _ _ _ _ _ _ h := h
  bind _ _ _ _ _ h := h
  decided _ _ _ σ _ _ _ _ _ := ⟨rfl, rfl⟩
  group _ _ _ _ r _ _ _ _ h hw := by
    have hb := h fun f hf => hw.inv.2 f (List.mem_append_left _ hf)
    refine ⟨hb.detached, hb.acts.trans ?_⟩
    rw [Launch.group, Work.acts_group]
    simp [Scheduler.flights, Update.effects]
    rfl
  nil _ _ _ _ σ _ := σ.balances_refl 0
  done _ _ _ _ _ _ _ _ _ h := h
  mark _ _ _ _ _ _ _ _ _ _ h := h
  start _ _ _ _ _ _ _ l r _ _ hl hr h := by
    have hl := hl (h _ List.mem_cons_self)
    have hr := hr fun f hf => h f (List.mem_cons_of_mem _ hf)
    refine ⟨hr.detached.trans hl.detached, ?_⟩
    have he := hr.acts
    have hd := hl.acts
    rw [add_zero] at he hd ⊢
    rw [Round.start, he, hd, List.map_cons, List.sum_cons, add_assoc]

namespace Work

theorem acts_group_nothing {s : Scheduler Work} (hf : s.flights = []) (hb : s.batch = []) :
    (group s).acts = ↑(Update.effects s.applied) := by
  rw [acts_group, hf, hb]
  simp

theorem balances_dispatchLive {s : Scheduler Work} {c : Setting} {σ : World} (h : (s.dispatchLive c σ).1.Whole) :
    (group s).Whole ∧ σ.Balances (s.dispatchLive c σ).2 (group s).acts (s.dispatchLive c σ).1.acts := by
  obtain ⟨hb, hf⟩ := h.inv
  constructor
  · refine .group hb ?_
    intro f hm
    rcases List.mem_append.mp hm with hm | hm
    · exact hf f (List.mem_append_left _ (List.mem_append_left _ hm))
    · exact hf f (List.mem_append_right _ hm)
  · have hr := (Program.balances_cases c s.state).round s.slots (s.scope :: s.outer) (fun _ => false) 0 s.nextSeq σ
      fun f hm => hf f (List.mem_append_left _ (List.mem_append_right _ hm))
    have he := hr.acts
    rw [add_zero] at he
    refine ⟨hr.detached, ?_⟩
    rw [Scheduler.dispatchLive, acts_group, acts_group, he]
    simp only [Scheduler.flights, List.map_append, List.sum_append]
    ac_rfl

/-- One step of a work without races: unless something fails, every action that is dispatched gets on its way, and none
that is on its way is lost. -/
theorem Moves.balances {c : Setting} {v : Vocabulary} {w w' : Work} {σ τ : World} (h : Moves c w σ w' τ)
    (hv : v.control .either = false) (hk : w.KeepsTo c.domain v) (ht : w.Tabled) (hw : w'.Whole) :
    w.Whole ∧ σ.Balances τ w.acts w'.acts := by
  induction h with
  | @act e σ τ w h =>
    refine ⟨.acting e, ?_⟩
    obtain ⟨allowance, he⟩ | ⟨timer, postponed, rfl, hτ⟩ := Execution.advance_ends_or_stays h
    · have hc := Execution.balances_complete (e := e) (σ := { σ with allowance })
      rw [← he] at hc
      exact ⟨(hc hw).detached, (hc hw).acts⟩
    · exact ⟨hτ.detached, by rw [hτ.dispatched]; rfl⟩
  | @finish s σ _ hf =>
    obtain ⟨hn, hb⟩ := ht.inv.1.nothing_pending (hk.inv.1.not_race hv) hf
    refine ⟨.group (by simp [hb]) (by simp [hn]), ?_⟩
    refine ⟨by simp [World.abandon, Scheduler.works, hn], ?_⟩
    rw [World.dispatched_abandon, acts_group_nothing hn hb]
    rfl
  | starve _ _ _ => exact absurd hw (not_whole_error _)
  | @rest s σ short _ _ _ =>
    have hst := stirs_look s (.resting (s.attention.again || short))
    refine ⟨hst.whole_iff.mp hw, ?_⟩
    rw [hst.acts_eq]
    exact σ.balances_refl _
  | fail _ _ _ => exact absurd hw (not_whole_error _)
  | @decide s t σ short _ _ hf hd =>
    obtain ⟨ho, ha⟩ := Scheduler.acts_foldBatch (hk.inv.1.not_race hv) ht.inv.1 hf
    obtain ⟨hn, hb⟩ := (ht.inv.1.foldBatch hf).nothing_pending ((hk.inv.1.foldBatch hf).not_race hv) hd
    refine ⟨.group ho ?_, ?_⟩
    · rw [← (Scheduler.flights_foldBatch hf).1, hn]
      exact List.forall_mem_nil _
    · refine ⟨by simp [World.abandon, Scheduler.works, hn], ?_⟩
      rw [World.dispatched_abandon, ← ha, acts_group_nothing hn hb]
      rfl
  | @go s t σ short _ _ hf hd =>
    obtain ⟨ho, ha⟩ := Scheduler.acts_foldBatch (hk.inv.1.not_race hv) ht.inv.1 hf
    obtain ⟨hg, hb⟩ := balances_dispatchLive hw
    rw [ha] at hb
    refine ⟨.group ho ?_, hb⟩
    rw [← (Scheduler.flights_foldBatch hf).1]
    exact hg.inv.2
  | @follow s f rest σ τ w hs _ ih =>
    obtain ⟨hb, hf⟩ := hw.inv
    obtain ⟨h₀, hσ⟩ := ih (hk.inv.2 f hs.mem_flights) (ht.inv.2 f hs.mem_flights) (hf _ List.mem_cons_self)
    constructor
    · refine .group hb ?_
      intro g hm
      rw [Scheduler.flights, hs.queue] at hm
      rcases List.mem_cons.mp hm with rfl | hm
      · exact h₀
      · exact hf g (List.mem_cons_of_mem _ hm)
    · refine ⟨hσ.detached, ?_⟩
      rw [acts_group_cons hs.flights_eq, acts_group_cons rfl, ← add_assoc, hσ.acts, add_assoc]
      rfl
  | @receive s f rest σ hs _ =>
    obtain ⟨outcome, ho, he⟩ | hst := receive_cases hs.queue
    · rw [he] at hw ⊢
      obtain ⟨hb, hf⟩ := hw.inv
      obtain ⟨o, rfl⟩ := hb ⟨f.slot, f.seq, f.frames, outcome⟩ (List.mem_append_right _ List.mem_cons_self)
      constructor
      · refine .group (fun d hd => hb d (List.mem_append_left _ hd)) ?_
        intro g hm
        rw [Scheduler.flights, hs.queue] at hm
        rcases List.mem_cons.mp hm with rfl | hm
        · rw [ho]
          exact .settled o
        · exact hf g hm
      · refine ⟨rfl, ?_⟩
        -- the end of the flight in front moves to the batch
        rw [acts_group, acts_group]
        simp only [Scheduler.flights, hs.queue, List.cons_append, List.map_cons, List.map_append, List.map_nil,
          List.sum_cons, List.sum_append, List.sum_nil, add_zero, ho, acts, Completion.acts]
        ac_rfl
    · refine ⟨hst.whole_iff.mp hw, ?_⟩
      rw [hst.acts_eq]
      exact σ.balances_refl _

end Work

namespace Machine

/-- As long as nothing has failed, nothing is detached, and what was dispatched since some point is on its way. -/
def Balanced (since : Multiset BoundAction) (m : Machine) : Prop :=
  m.main.Whole → m.world.detached = [] ∧ (↑m.world.dispatched : Multiset BoundAction) = since + m.main.acts

theorem Balanced.stirs {since : Multiset BoundAction} {m : Machine} (h : m.Balanced since) {w : Work}
    (hw : Work.Stirs m.main w) {σ : World} (hl : σ.log = m.world.log)
    (hd : m.world.detached = [] → σ.detached = []) : Balanced since ⟨w, σ⟩ := by
  intro hh
  obtain ⟨hn, ha⟩ := h (hw.whole_iff.mp hh)
  refine ⟨hd hn, ?_⟩
  rw [hw.acts_eq, ← ha, World.dispatched, World.dispatched, hl]

structure InOrder (c : Setting) (v : Vocabulary) (since : Multiset BoundAction) (m : Machine) : Prop where
  vocabulary : m.KeepsTo c.domain v
  tabled : m.main.Tabled
  balanced : m.Balanced since

theorem Steps.inOrder {c : Setting} {v : Vocabulary} {since : Multiset BoundAction} {m m' : Machine}
    (h : Steps c m m') (hv : v.control .either = false) (hm : m.InOrder c v since) : m'.InOrder c v since := by
  obtain ⟨hk, ht, hb⟩ := hm
  refine ⟨h.keepsTo hk, ?_, ?_⟩
  · cases h with
    | move h => exact h.tabled ht
    | takeUp _ _ => exact (Work.stirs_takeUp _).tabled ht
    | wake _ _ _ => exact (Work.stirs_wake _).tabled ht
    | detached _ _ _ => exact ht
    | ring _ _ => exact (Work.stirs_ring _ _).tabled ht
  · cases h with
    | move h =>
      intro hw
      obtain ⟨h₀, hσ⟩ := h.balances hv hk.main ht hw
      obtain ⟨hd, ha⟩ := hb h₀
      refine ⟨hσ.detached.trans hd, ?_⟩
      have he := hσ.acts
      rw [ha, add_right_comm] at he
      exact add_right_cancel he
    | takeUp _ _ => exact hb.stirs (Work.stirs_takeUp _) rfl id
    | wake _ _ _ => exact hb.stirs (Work.stirs_wake _) rfl id
    | detached _ he _ =>
      intro hw
      obtain ⟨hd, -⟩ := hb hw
      rw [hd] at he
      cases List.append_eq_nil_iff.mp he.symm |>.2
    | ring _ _ => exact hb.stirs (Work.stirs_ring _ _) rfl fun hd => by simp [hd]

end Machine

namespace Program

theorem inOrder_started {c : Setting} {v : Vocabulary} {p : Program} {σ : World} (hp : p.keepsTo v = true)
    (hσ : σ.KeepsTo c.domain v) (hd : σ.detached = []) (s : State) :
    (p.started c s σ).InOrder c v ↑σ.dispatched := by
  have hl := (keepsTo_cases v c s).dispatch p [] σ hp hσ
  refine ⟨⟨hl.work, hl.world⟩, (tabled_cases c s).dispatch p [] σ, ?_⟩
  intro hw
  obtain ⟨hn, ha⟩ := (balances_cases c s).dispatch p [] σ hw
  rw [add_zero] at ha
  exact ⟨hn.trans hd, ha⟩

theorem effects_transition {c : Setting} {v : Vocabulary} {p : Program} {s : State} {σ : World} {t : Successor}
    (hv : v.control .either = false) (hp : p.keepsTo v = true) (hσ : σ.KeepsTo c.domain v) (hd : σ.detached = [])
    (h : (p.transition c s σ).1 = .ok t) :
    (p.transition c s σ).2.KeepsTo c.domain v ∧ (p.transition c s σ).2.detached = [] ∧
      (∀ q, t.continuation = some q → q.keepsTo v = true) ∧
      (↑(p.transition c s σ).2.dispatched : Multiset BoundAction) = ↑σ.dispatched + ↑(Update.effects t.updates) := by
  obtain ⟨o, hs, rfl⟩ := transition_eq_ok h
  have hm := Machine.settle_induction (fun m m' hm hs => Machine.Steps.inOrder hs hv hm) _ (inOrder_started hp hσ hd s)
  obtain ⟨hn, ha⟩ := hm.balanced (by rw [hs]; exact .settled o)
  refine ⟨hm.vocabulary.world, hn, ?_, ?_⟩
  · rw [Frame.continuation_resume]
    exact Frame.keepsTo_residual ((keepsTo_cases v c s).dispatch p [] σ hp hσ).frames
  · rw [world_transition, ha, hs, Frame.effects_resume]
    rfl

theorem effects_drive {c : Setting} {v : Vocabulary} {p : Program} {s s' : State} {σ : World}
    (hv : v.control .either = false) (hp : p.keepsTo v = true) (hσ : σ.KeepsTo c.domain v) (hd : σ.detached = [])
    (h : (p.drive c s σ).result = .ok s') :
    ∃ updates, Update.applyAll s updates = s' ∧ (p.drive c s σ).world.KeepsTo c.domain v ∧
      (↑(p.drive c s σ).world.dispatched : Multiset BoundAction) = ↑σ.dispatched + ↑(Update.effects updates) := by
  fun_induction drive c p s σ with
  | case1 => cases h
  | case2 p s σ =>
    cases h
    exact ⟨[], rfl, hσ, (add_zero _).symm⟩
  | case3 => cases h
  | case4 p s σ _ t τ ht hc =>
    cases h
    have hr : (p.transition c s σ).1 = .ok t := congrArg Prod.fst ht
    obtain ⟨hk, -, -, ha⟩ := effects_transition hv hp hσ hd hr
    rw [ht] at hk ha
    exact ⟨t.updates, (resolves_transition hr).replays, hk, ha⟩
  | case5 p s σ _ t τ ht q hc ih =>
    have hr : (p.transition c s σ).1 = .ok t := congrArg Prod.fst ht
    obtain ⟨hk, hd, hq, ha⟩ := effects_transition hv hp hσ hd hr
    rw [ht] at hk hd ha
    obtain ⟨updates, hu, hk, he⟩ := ih (hq q hc) hk hd h
    refine ⟨t.updates ++ updates, ?_, hk, ?_⟩
    · rw [Update.applyAll_append, (resolves_transition hr).replays, hu]
    · rw [he, ha, Update.effects_append, ← Multiset.coe_add, add_assoc]

end Program

end Agenda
