import Mathlib
import Agenda.Proofs.Attribution
import Agenda.Proofs.Executions

/-!
# What is given up comes to its end

What goes on by itself waits for nothing but its own timers, just as the work does that is waited for. When all of them
have rung, every execution that was ever started has ended, and none has ended twice. Nothing of this shows in what a
run reports: a run that forgets at once whatever it gives up ends in the same way, after the same dispatches.
-/

namespace Agenda

set_option autoImplicit false

namespace Work

variable {c : Setting} {w w' : Work} {σ τ : World}

structure Alert (w : Work) : Prop where
  watchful : w.Watchful
  unpostponed : w.Unpostponed

theorem Alert.ring (h : w.Alert) (time : Nat) : (w.ring time).Alert := ⟨h.watchful.ring time, h.unpostponed.ring time⟩

theorem Watchful.flight {s : Scheduler Work} (h : Watchful (.group s)) {f : Flight Work} (hf : f ∈ s.flights) :
    f.work.Watchful := by
  obtain ⟨-, hw, hq⟩ := h.inv
  rcases List.mem_append.mp hf with hf | hf
  · exact hq f hf
  · exact (hw f hf).watchful

/-- What is given up is taken up before it goes on by itself, so nothing in it stays postponed. -/
theorem Watchful.alert_abandon {s t : Scheduler Work} (h : Watchful (.group s)) (ht : t.flights = s.flights)
    (hσ : ∀ d ∈ σ.detached, d.Alert) : ∀ d ∈ (σ.abandon t.scope t.works).detached, d.Alert := by
  intro d hd
  rcases List.mem_append.mp hd with hd | hd
  · exact hσ d hd
  · obtain ⟨w, hw, rfl⟩ := List.mem_map.mp hd
    obtain ⟨f, hf, rfl⟩ := List.mem_map.mp hw
    rw [ht] at hf
    exact ⟨(h.flight hf).takeUp, unpostponed_takeUp f.work⟩

theorem Moves.alert_detached (h : Moves c w σ w' τ) (hw : w.Watchful) (hσ : ∀ d ∈ σ.detached, d.Alert) :
    ∀ d ∈ τ.detached, d.Alert := by
  induction h with
  | act h =>
    rw [(Execution.enlarges_advance h).2.detached]
    exact hσ
  | finish _ _ => exact hw.alert_abandon rfl hσ
  | starve _ _ _ => exact hσ
  | rest _ _ _ => exact hσ
  | fail _ _ _ => exact hw.alert_abandon rfl hσ
  | decide _ _ ht _ => exact hw.alert_abandon (Scheduler.flights_foldBatch ht).1 hσ
  | @go s t σ _ _ _ _ _ =>
    have hr := (Program.steady_cases c t.state).round t.slots (t.scope :: t.outer) (fun _ => false) 0 t.nextSeq σ
    rw [Scheduler.dispatchLive]
    simp only [hr.detached]
    exact hσ
  | follow hs _ ih => exact ih (hw.flight hs.mem_flights) hσ
  | receive _ _ => exact hσ

theorem Alert.move (h : w.Alert) (hm : w.move c { σ.renew c with detached := [] } = some (w', τ)) :
    w'.Alert ∧ ∀ d ∈ τ.detached, d.Alert := by
  obtain hm | ⟨-, -, rfl, rfl⟩ := move_cases hm
  · exact ⟨⟨hm.watchful h.watchful, hm.unpostponed c.budget_ne_zero h.unpostponed⟩,
      hm.alert_detached h.watchful (List.forall_mem_nil _)⟩
  · exact ⟨⟨h.watchful.wake, h.unpostponed.wake⟩, List.forall_mem_nil _⟩

theorem underway_sum_of_settled {ws : List Work} (h : ∀ w ∈ ws, ∃ outcome, w = .settled outcome) :
    (ws.map underway).sum = 0 := by
  refine List.sum_eq_zero fun acts ha => ?_
  obtain ⟨w, hw, rfl⟩ := List.mem_map.mp ha
  obtain ⟨outcome, rfl⟩ := h w hw
  rfl

end Work

namespace Machine

variable {c : Setting} {m m' : Machine}

structure Wakeful (m : Machine) : Prop extends Lively m where
  detached : ∀ w ∈ m.world.detached, w.Alert

theorem Steps.wakeful (h : Steps c m m') (hm : m.Wakeful) : m'.Wakeful := by
  refine ⟨h.lively hm.toLively, ?_⟩
  cases h with
  | move h => exact h.alert_detached hm.watchful hm.detached
  | takeUp _ _ => exact hm.detached
  | wake _ _ _ => exact hm.detached
  | @detached front rest w w' τ _ he hv =>
    have hd := hm.detached
    rw [he, List.forall_mem_append, List.forall_mem_cons] at hd
    obtain ⟨hfront, hw, hrest⟩ := hd
    obtain ⟨hw', hτ⟩ := hw.move hv
    refine List.forall_mem_append.mpr ⟨List.forall_mem_append.mpr ⟨hfront, ?_⟩, hτ⟩
    exact List.forall_mem_cons.mpr ⟨hw', hrest⟩
  | @ring time _ _ =>
    intro d hd
    obtain ⟨v, hv, rfl⟩ := List.mem_map.mp hd
    exact (hm.detached v hv).ring time

theorem advanceDetached_eq_none {before ws : List Work} {σ : World} (h : advanceDetached c before ws σ = none) :
    ∀ w ∈ ws, w.isStill = true ∧ w.asks = false := by
  induction ws generalizing before with
  | nil => exact List.forall_mem_nil _
  | cons w rest ih =>
    rw [advanceDetached] at h
    split at h
    · cases h
    · rename_i hn
      refine List.forall_mem_cons.mpr ⟨?_, ih h⟩
      unfold Work.move at hn
      split at hn
      · cases hn
      · rename_i ha
        refine ⟨(Work.advance_eq_none_iff c w _).mp ha, ?_⟩
        split at hn
        · cases hn
        · rename_i hk
          exact Bool.not_eq_true _ ▸ hk

theorem nextDue_eq_none {ws : List Work} (h : ws.foldr (fun w t => Option.merge min w.nextDue t) none = none) :
    ∀ w ∈ ws, w.nextDue = none := by
  induction ws with
  | nil => exact List.forall_mem_nil _
  | cons w rest ih =>
    obtain ⟨hw, hr⟩ := Option.merge_eq_none_iff.mp h
    exact List.forall_mem_cons.mpr ⟨hw, ih hr⟩

/-- When nothing can happen any more, all that went on by itself has come to its end. -/
theorem Wakeful.settled_of_step_eq_none (hm : m.Wakeful) (h : m.step c = none) :
    ∀ w ∈ m.world.detached, ∃ outcome, w = .settled outcome := by
  obtain ⟨hw, hn⟩ := waits_of_step_eq_none h
  have hd : advanceDetached c [] m.world.detached m.world = none := by
    unfold step at h
    rw [(Work.advance_eq_none_iff c m.main m.world).mpr hw.still] at h
    simp only at h
    rw [if_neg hw.rested, if_neg (Bool.eq_false_iff.mp hw.quiet)] at h
    split at h
    · cases h
    · rename_i hd
      exact hd
  intro w hmem
  obtain ⟨hs, ha⟩ := advanceDetached_eq_none hd w hmem
  have hal := hm.detached w hmem
  obtain ho | hz := hal.watchful.dormant hs ha
  · exact ho
  · -- a timer would be left to ring
    have hdue := nextDue_eq_none (Option.merge_eq_none_iff.mp hn).2 w hmem
    exact absurd hdue (hz.nextDue_ne_none hal.unpostponed)

/-- From some time on it makes no difference any more how long one waits. -/
theorem drain_ends {P : Machine → Prop} (step : ∀ m m', P m → Steps c m m' → P m') (m : Machine) (h : P m) :
    ∃ last m', P m' ∧ m'.step c = none ∧ ∀ time, last ≤ time → m.drain c time = m' := by
  match hs : m.step c with
  | none =>
    refine ⟨0, m, h, hs, fun time _ => ?_⟩
    rw [drain]
    split
    · rfl
    · rename_i hm
      rw [hs] at hm
      cases hm
  | some m₁ =>
    obtain ⟨last, m', hm', hn, hd⟩ := drain_ends step m₁ (step m m₁ h (steps_of_step hs))
    refine ⟨max last (m₁.world.clock + 1), m', hm', hn, fun time ht => ?_⟩
    rw [drain]
    split
    · rename_i hm
      rw [hs] at hm
      cases hm
    · rename_i m₂ hm
      obtain rfl := Option.some.inj (hs.symm.trans hm)
      rw [if_pos (by omega)]
      exact hd time (by omega)
termination_by (m.weight, m.fatigue, m.unrest)
decreasing_by exact m.lex_step c hs

end Machine

/-- All that goes on by itself has come to its end, and so have all executions. -/
structure World.Spent (σ : World) : Prop where
  settled : ∀ w ∈ σ.detached, ∃ outcome, w = .settled outcome
  completed : (↑(σ.completions.map (·.2)) : Multiset ActionRecord) = ↑(σ.dispatched.map (·.record))

theorem World.spent_drain {σ : World} (c : Setting) (ho : Account.ends.Holds σ 0) (hd : ∀ w ∈ σ.detached, w.Alert) :
    ∃ last, ∀ time, last ≤ time → (σ.drain c time).Spent := by
  have hw : Machine.Wakeful ⟨.settled (.error .abandoned), σ⟩ := ⟨⟨.plain rfl, fun _ => .settled _⟩, hd⟩
  obtain ⟨last, m, hw, hn, he⟩ := Machine.drain_ends (fun _ _ hw h => h.wakeful hw) _ hw
  refine ⟨last, fun time ht => ?_⟩
  have hs : ∀ w ∈ (σ.drain c time).detached, ∃ outcome, w = .settled outcome := by
    rw [World.drain, he time ht]
    exact hw.settled_of_step_eq_none hn
  have ho := Account.holds_drain ho c time
  rw [← World.owes_iff, World.Owes, Work.underway_sum_of_settled hs, add_zero, add_zero] at ho
  exact ⟨hs, ho.symm⟩

/-- Two worlds side by side that have dispatched the same. In the second one nothing goes on by itself. -/
structure World.Forgets (σ : World) (load : Nat) (τ : World) : Prop where
  regular : σ.Regular
  regular' : τ.Regular
  detached : τ.detached = []
  beside : ∃ g R, g.before = [] ∧ σ.Beside g R τ
  even : World.Even load σ τ

theorem World.forgets_initial (c : Setting) (load : Nat) : c.initial.Forgets load c.initial :=
  ⟨regular_initial _, regular_initial _, rfl, ⟨⟨0, 0, []⟩, fun _ _ => False, rfl, rfl, rfl, Pairing.nothing _ _, rfl⟩,
    .inl rfl⟩

namespace Program

variable {c : Setting} {p : Program} {s : State} {σ τ : World}

theorem wakeful_started (c : Setting) (p : Program) (s : State) (h : ∀ w ∈ σ.detached, w.Alert) :
    (p.started c s σ).Wakeful := by
  obtain ⟨hw, hu⟩ := (watchful_cases c s).dispatch p [] σ
  refine ⟨⟨hw, fun _ => hu⟩, ?_⟩
  rw [started, ((steady_cases c s).dispatch p [] σ).detached]
  exact h

theorem alert_transition (c : Setting) (p : Program) (s : State) (h : ∀ w ∈ σ.detached, w.Alert) :
    ∀ w ∈ (p.transition c s σ).2.detached, w.Alert :=
  (Machine.settle_induction (fun _ _ hm hs => hs.wakeful hm) _ (wakeful_started c p s h)).detached

theorem alert_drive (h : ∀ w ∈ σ.detached, w.Alert) : ∀ w ∈ (p.drive c s σ).world.detached, w.Alert :=
  drive_induction (P := fun _ σ => ∀ w ∈ σ.detached, w.Alert) (Q := fun σ => ∀ w ∈ σ.detached, w.Alert)
    (fun _ _ h => h) (fun p s _ h => alert_transition c p s h) (fun p s _ _ _ h _ _ => alert_transition c p s h) s h

/-! ### Runs that forget -/

def transitionAlone (c : Setting) (p : Program) (s : State) (σ : World) : Except Failure Successor × World :=
  let l := p.dispatch c s [] σ
  let m := Machine.settleAlone c ⟨l.work, l.world⟩
  (m.outcome.map (Frame.resume l.frames), m.world)

theorem size_continuation_transitionAlone (c : Setting) (p : Program) (s : State) (σ : World) {t : Successor}
    (h : (p.transitionAlone c s σ).1 = .ok t) : sizeOption t.continuation + 2 ≤ p.size := by
  have hw := (within_dispatch c s p [] σ).weight
  simp only [transitionAlone] at h
  revert h
  cases (Machine.settleAlone c ⟨(p.dispatch c s [] σ).work, (p.dispatch c s [] σ).world⟩).outcome with
  | error e =>
    intro h
    cases h
  | ok o =>
    intro h
    cases h
    rw [Frame.continuation_resume]
    simp only [Frame.rest] at hw
    omega

/-- Takes transitions until the program may end or a transition fails, and forgets whatever is given up: nothing of it
is executed any further. -/
def driveAlone (c : Setting) (p : Program) (s : State) (σ : World) : Run :=
  match p.isFinal s with
  | .error e => ⟨.error ⟨e, p, s⟩, σ⟩
  | .ok true => ⟨.ok s, σ⟩
  | .ok false =>
    match _h : p.transitionAlone c s σ with
    | (.error e, σ) => ⟨.error ⟨e, p, s⟩, σ⟩
    | (.ok t, σ) =>
      match _hc : t.continuation with
      | none => ⟨.ok t.state, σ⟩
      | some q => q.driveAlone c t.state σ
termination_by p.size
decreasing_by
  have := size_continuation_transitionAlone c p s _ (congrArg Prod.fst _h)
  rw [_hc] at this
  simp only [sizeOption] at this
  omega

def runAlone (c : Setting) (p : Program) (s : State) : Run :=
  match p.validate with
  | .error violation => ⟨.error ⟨.invalid violation, p, s⟩, {}⟩
  | .ok () => p.driveAlone c s c.initial

theorem driveAlone_eq (c : Setting) (p : Program) (s : State) (σ : World) :
    p.driveAlone c s σ =
      match p.isFinal s with
      | .error e => ⟨.error ⟨e, p, s⟩, σ⟩
      | .ok true => ⟨.ok s, σ⟩
      | .ok false =>
        match (p.transitionAlone c s σ).1 with
        | .error e => ⟨.error ⟨e, p, s⟩, (p.transitionAlone c s σ).2⟩
        | .ok t =>
          match t.continuation with
          | none => ⟨.ok t.state, (p.transitionAlone c s σ).2⟩
          | some q => q.driveAlone c t.state (p.transitionAlone c s σ).2 := by
  rw [driveAlone]
  cases p.isFinal s with
  | error e => rfl
  | ok final =>
    cases final with
    | true => rfl
    | false =>
      dsimp only
      split
      · rename_i h
        rw [h]
      · rename_i t τ h
        rw [h]
        dsimp only
        split
        · rename_i hc
          rw [hc]
        · rename_i q hc
          rw [hc]

theorem forgets_transition (c : Setting) (s : State) (h : σ.Forgets p.calls τ) :
    (p.transition c s σ).1 = (p.transitionAlone c s τ).1 ∧
      (p.transition c s σ).2.dispatched = (p.transitionAlone c s τ).2.dispatched ∧
      ∀ t, (p.transition c s σ).1 = .ok t →
        (p.transition c s σ).2.Forgets (callsOption t.continuation) (p.transitionAlone c s τ).2 := by
  obtain ⟨g, R, hg, hb⟩ := h.beside
  obtain ⟨hf, hs⟩ := follows_started_beside c p s h.regular h.regular' h.detached hb h.even
  have hs := Machine.follows_settle (c := c) hs
  rw [hg] at hs
  refine ⟨?_, hs.dispatched, ?_⟩
  · rw [result_transition, hs.outcome_eq, ← hf]
    rfl
  · intro t ht
    obtain ⟨o, hm, rfl⟩ := transition_eq_ok ht
    rw [Frame.continuation_resume, ← Frame.calls]
    exact ⟨hs.left.regular, hs.right.regular, hs.alone, hs.beside hm, hs.even hm⟩

/-- A run and one that forgets what it gives up go side by side, transition by transition. -/
theorem drive_eq_driveAlone (h : σ.Forgets p.calls τ) :
    (p.drive c s σ).result = (p.driveAlone c s τ).result ∧
      (p.drive c s σ).world.dispatched = (p.driveAlone c s τ).world.dispatched := by
  have hd : σ.dispatched = τ.dispatched := by
    obtain ⟨g, R, hg, hb⟩ := h.beside
    rw [hb.dispatched, hg, List.nil_append]
  fun_induction drive c p s σ generalizing τ with
  | case1 p s σ e hf =>
    rw [driveAlone_eq, hf]
    exact ⟨rfl, hd⟩
  | case2 p s σ hf =>
    rw [driveAlone_eq, hf]
    exact ⟨rfl, hd⟩
  | case3 p s σ hf e σ' ht =>
    obtain ⟨hr, hd, -⟩ := forgets_transition c s h
    rw [ht] at hr hd
    rw [driveAlone_eq, hf]
    simp only
    rw [← hr]
    exact ⟨rfl, hd⟩
  | case4 p s σ hf t σ' ht hc =>
    obtain ⟨hr, hd, -⟩ := forgets_transition c s h
    rw [ht] at hr hd
    rw [driveAlone_eq, hf]
    simp only
    rw [← hr]
    simp only
    rw [hc]
    exact ⟨rfl, hd⟩
  | case5 p s σ hf t σ' ht q hc ih =>
    obtain ⟨hr, hd, hn⟩ := forgets_transition c s h
    have hn := hn t (congrArg Prod.fst ht)
    rw [ht] at hr hd hn
    rw [hc] at hn
    rw [driveAlone_eq, hf]
    simp only
    rw [← hr]
    simp only
    rw [hc]
    exact ih hn hd

/-- Every execution that a run dispatches ends, and ends once, however long one has to wait for it after the run, and
nothing else is executed or dispatched in the meantime: in the end all that was given up is settled, at every depth.
None of it has an influence on the run, which reports what it would report if everything given up were forgotten at
once. -/
theorem every_dispatch_completes_once (c : Setting) (p : Program) (s : State) :
    (∃ last, ∀ time, last ≤ time →
      (↑(((p.run c s).world.drain c time).completions.map (·.2)) : Multiset ActionRecord) =
        ↑((p.run c s).world.dispatched.map (·.record)) ∧
      ((p.run c s).world.drain c time).dispatched = (p.run c s).world.dispatched ∧
      ((p.run c s).world.drain c time).history = (p.run c s).history ∧
      ∀ w ∈ ((p.run c s).world.drain c time).detached, ∃ outcome, w = .settled outcome) ∧
    (p.run c s).result = (p.runAlone c s).result ∧ (p.run c s).history = (p.runAlone c s).history := by
  constructor
  · have ha : ∀ w ∈ (p.run c s).world.detached, w.Alert := by
      unfold run
      split
      · exact List.forall_mem_nil _
      · exact alert_drive (List.forall_mem_nil _)
    obtain ⟨last, hl⟩ := World.spent_drain c (Account.ends.holds_run c p s) ha
    refine ⟨last, fun time ht => ?_⟩
    have hd := ((attributed_run c p s).drain c time).2
    refine ⟨?_, hd, ?_, (hl time ht).settled⟩
    · rw [(hl time ht).completed, hd]
    · rw [Run.history, World.history_eq, World.history_eq, hd]
  · rw [Run.history, Run.history, World.history_eq, World.history_eq]
    unfold run runAlone
    cases p.validate with
    | error violation => exact ⟨rfl, rfl⟩
    | ok _ =>
      obtain ⟨hr, hd⟩ := drive_eq_driveAlone (c := c) (s := s) (World.forgets_initial c p.calls)
      exact ⟨hr, congrArg _ (congrArg _ hd)⟩

end Program

end Agenda
