import Mathlib
import Agenda.Execution.Run

/-!
# What a work can do

One small step of a work is told here once, as a relation with a constructor for each kind of step. Everything that is
kept by all steps is shown by going through these constructors. Whether a work can move does not depend on the world
around it.
-/

namespace Agenda

set_option autoImplicit false

/-- Only the log and the scopes in use may have changed. -/
structure World.Steady (σ τ : World) : Prop where
  clock : τ.clock = σ.clock
  allowance : τ.allowance = σ.allowance
  nextTicket : τ.nextTicket = σ.nextTicket
  detached : τ.detached = σ.detached

theorem World.steady_refl (σ : World) : σ.Steady σ := ⟨rfl, rfl, rfl, rfl⟩

theorem World.Steady.trans {σ τ υ : World} (h : σ.Steady τ) (h' : τ.Steady υ) : σ.Steady υ :=
  ⟨h'.clock.trans h.clock, h'.allowance.trans h.allowance, h'.nextTicket.trans h.nextTicket,
    h'.detached.trans h.detached⟩

/-- Nothing has happened but that executions were started and tickets were drawn. -/
structure World.Idles (σ τ : World) : Prop where
  clock : τ.clock = σ.clock
  allowance : τ.allowance = σ.allowance
  nextScope : τ.nextScope = σ.nextScope
  detached : τ.detached = σ.detached
  log : ∃ events, τ.log = σ.log ++ events ∧ ∀ event ∈ events, ∃ b scopes time, event = Event.started b scopes time

theorem World.Idles.filterMap_log {α : Type} {σ τ : World} (h : σ.Idles τ) {f : Event → Option α}
    (hf : ∀ b scopes time, f (.started b scopes time) = none) : τ.log.filterMap f = σ.log.filterMap f := by
  obtain ⟨events, hl, he⟩ := h.log
  rw [hl, List.filterMap_append, List.append_right_eq_self, List.filterMap_eq_nil_iff]
  intro event hm
  obtain ⟨b, scopes, time, rfl⟩ := he event hm
  exact hf b scopes time

namespace Work

def isPlain : Work → Bool
  | .group _ => false
  | _ => true

theorem perform_cases (scopes : List Nat) (updates : List Update) (trace : List BoundAction) (s : State)
    (bound : BoundAction) (σ : World) :
    (∃ e, perform scopes updates trace s bound σ = (.settled (.error e), σ)) ∨
      scopes.any σ.isClosed = false ∧
        perform scopes updates trace s bound σ =
          (.acting { bound, after := bound.action.effect s, trace, updates, scopes },
            σ.record (.dispatched bound scopes σ.clock)) := by
  unfold perform
  split
  · exact .inl ⟨_, rfl⟩
  · rename_i hc
    split
    · exact .inl ⟨_, rfl⟩
    · exact .inr ⟨Bool.not_eq_true _ ▸ hc, rfl⟩

theorem performAll_cases (scopes : List Nat) (s : State) (σ : World) (trace : List BoundAction) :
    trace = [] ∧ performAll scopes s σ trace = (.settled (.ok { state := s }), σ) ∨
      ∃ bound rest, trace = bound :: rest ∧ performAll scopes s σ trace = perform scopes [] rest s bound σ := by
  cases trace with
  | nil => exact .inl ⟨rfl, rfl⟩
  | cons bound rest => exact .inr ⟨bound, rest, rfl, rfl⟩

theorem isPlain_perform (scopes : List Nat) (updates : List Update) (trace : List BoundAction) (s : State)
    (bound : BoundAction) (σ : World) : (perform scopes updates trace s bound σ).1.isPlain = true := by
  obtain ⟨e, he⟩ | ⟨-, he⟩ := perform_cases scopes updates trace s bound σ <;> rw [he] <;> rfl

theorem steady_perform (scopes : List Nat) (updates : List Update) (trace : List BoundAction) (s : State)
    (bound : BoundAction) (σ : World) : σ.Steady (perform scopes updates trace s bound σ).2 := by
  obtain ⟨e, he⟩ | ⟨-, he⟩ := perform_cases scopes updates trace s bound σ
  · rw [he]
    exact σ.steady_refl
  · rw [he]
    exact ⟨rfl, rfl, rfl, rfl⟩

theorem isPlain_performAll (scopes : List Nat) (s : State) (σ : World) (trace : List BoundAction) :
    (performAll scopes s σ trace).1.isPlain = true := by
  obtain ⟨-, he⟩ | ⟨bound, rest, -, he⟩ := performAll_cases scopes s σ trace
  · rw [he]
    rfl
  · rw [he]
    exact isPlain_perform scopes [] rest s bound σ

end Work

namespace Execution

theorem advance_cases {e : Execution} {σ : World} {next : Work × World} (h : e.advance σ = some next) :
    e.timer = .idle ∧ next = e.start σ ∨
      e.timer ≠ .idle ∧
        (e.bound.action.latency = none ∧ next = e.complete σ ∨
          σ.allowance ≠ 0 ∧ next = e.complete σ.spend ∨
          σ.allowance = 0 ∧ next = e.postpone σ ∨
          ∃ latency, σ.allowance ≠ 0 ∧ next = e.setTimer latency σ) := by
  unfold advance at h
  split at h
  · cases h
  · split at h
    · rename_i ht
      cases h
      exact .inl ⟨ht, rfl⟩
    · rename_i hl ht
      cases h
      exact .inr ⟨ht, .inl ⟨hl, rfl⟩⟩
    · rename_i latency _ ht
      refine .inr ⟨by rw [ht]; exact Timer.noConfusion, .inr ?_⟩
      split at h
      · rename_i ha
        cases h
        exact .inr (.inl ⟨ha, rfl⟩)
      · rename_i ha
        split at h
        · cases h
          exact .inl ⟨ha, rfl⟩
        · cases h
          exact .inr (.inr ⟨latency, ha, rfl⟩)
    · cases h
    · rename_i ht
      refine .inr ⟨by rw [ht]; exact Timer.noConfusion, .inr ?_⟩
      split at h
      · rename_i ha
        cases h
        exact .inr (.inl ⟨ha, rfl⟩)
      · rename_i ha
        cases h
        exact .inl ⟨ha, rfl⟩

theorem idles_start (e : Execution) (σ : World) : σ.Idles (e.start σ).2 := by
  refine ⟨rfl, rfl, rfl, rfl, [.started e.bound e.scopes σ.clock], rfl, ?_⟩
  intro event hm
  exact ⟨_, _, _, List.mem_singleton.mp hm⟩

theorem advance_ends_or_stays {e : Execution} {σ τ : World} {w : Work} (h : e.advance σ = some (w, τ)) :
    (∃ allowance, (w, τ) = e.complete { σ with allowance }) ∨
      ∃ timer postponed, w = .acting { e with timer, postponed } ∧ σ.Idles τ := by
  obtain ⟨-, he⟩ | ⟨-, ⟨-, he⟩ | ⟨-, he⟩ | ⟨-, he⟩ | ⟨latency, -, he⟩⟩ := advance_cases h
  · cases he
    exact .inr ⟨.unset, e.postponed, rfl, e.idles_start σ⟩
  · exact .inl ⟨σ.allowance, he⟩
  · exact .inl ⟨σ.allowance - 1, he⟩
  · cases he
    exact .inr ⟨e.timer, some σ.nextTicket, rfl, rfl, rfl, rfl, rfl, [], (List.append_nil _).symm, nofun⟩
  · cases he
    exact .inr ⟨.set σ.nextTicket (σ.clock + latency), e.postponed, rfl, rfl, rfl, rfl, rfl, [],
      (List.append_nil _).symm, nofun⟩

theorem complete_cases (e : Execution) (σ : World) :
    (∃ message, e.complete σ =
        (.settled (.error (.actionFailed e.bound.record message)), σ.record (.completed e.bound.record σ.clock))) ∨
      (∃ result, e.trace = [] ∧ e.complete σ =
        (.settled (.ok ⟨e.after, result, e.updates ++ [.effect e.bound]⟩),
          σ.record (.completed e.bound.record σ.clock))) ∨
      ∃ bound trace, e.trace = bound :: trace ∧ e.complete σ =
        Work.perform e.scopes (e.updates ++ [.effect e.bound]) trace e.after bound
          (σ.record (.completed e.bound.record σ.clock)) := by
  unfold complete
  simp only
  split
  · exact .inl ⟨_, rfl⟩
  · rename_i result _
    split
    · rename_i ht
      exact .inr (.inl ⟨result, ht, rfl⟩)
    · rename_i bound trace ht
      exact .inr (.inr ⟨bound, trace, ht, rfl⟩)

theorem isPlain_complete (e : Execution) (σ : World) : (e.complete σ).1.isPlain = true := by
  obtain ⟨message, he⟩ | ⟨result, -, he⟩ | ⟨bound, trace, -, he⟩ := e.complete_cases σ
  · rw [he]
    rfl
  · rw [he]
    rfl
  · rw [he]
    exact Work.isPlain_perform e.scopes _ trace e.after bound _

theorem steady_complete (e : Execution) (σ : World) : σ.Steady (e.complete σ).2 := by
  have hr : σ.Steady (σ.record (.completed e.bound.record σ.clock)) := ⟨rfl, rfl, rfl, rfl⟩
  obtain ⟨message, he⟩ | ⟨result, -, he⟩ | ⟨bound, trace, -, he⟩ := e.complete_cases σ
  · rw [he]
    exact hr
  · rw [he]
    exact hr
  · rw [he]
    exact hr.trans (Work.steady_perform e.scopes _ trace e.after bound _)

theorem isPlain_advance {e : Execution} {σ τ : World} {w : Work} (h : e.advance σ = some (w, τ)) :
    w.isPlain = true := by
  obtain ⟨allowance, he⟩ | ⟨timer, postponed, rfl, -⟩ := advance_ends_or_stays h
  · have hc := e.isPlain_complete { σ with allowance }
    rwa [← he] at hc
  · rfl

def isStill (e : Execution) : Bool :=
  e.postponed.isSome ||
    match e.bound.action.latency, e.timer with
    | some _, .set _ _ => true
    | _, _ => false

theorem advance_eq_none_iff (e : Execution) (σ : World) : e.advance σ = none ↔ e.isStill = true := by
  unfold advance isStill
  cases e.postponed.isSome with
  | true => simp
  | false =>
    simp only [Bool.false_eq_true, if_false, Bool.false_or]
    cases e.bound.action.latency <;> cases e.timer <;> simp only [reduceCtorEq, Bool.false_eq_true] <;>
      split <;> (try split) <;> simp

end Execution

namespace Scheduler

structure Live (s : Scheduler Work) : Prop where
  looking : s.attention.isResting = false
  unfinished : s.isFinished = false

/-- A construct in a sweep, with a flight in front of its queue. -/
structure Faces (s : Scheduler Work) (f : Flight Work) (rest : List (Flight Work)) : Prop extends Live s where
  unspent : s.attention.isSpent s.flights.length = false
  queue : s.queue = f :: rest

theorem Faces.flights_eq {s : Scheduler Work} {f : Flight Work} {rest : List (Flight Work)} (h : s.Faces f rest) :
    s.flights = f :: (rest ++ s.waiting) := by
  rw [flights, h.queue, List.cons_append]

theorem Faces.mem_flights {s : Scheduler Work} {f : Flight Work} {rest : List (Flight Work)} (h : s.Faces f rest) :
    f ∈ s.flights := by
  rw [h.flights_eq]
  exact List.mem_cons_self

theorem Faces.mem_flights_of_mem_rest {s : Scheduler Work} {f g : Flight Work} {rest : List (Flight Work)}
    (h : s.Faces f rest) (hg : g ∈ rest ++ s.waiting) : g ∈ s.flights := by
  rw [h.flights_eq]
  exact List.mem_cons_of_mem f hg

theorem Faces.mem_flights_follow {s : Scheduler Work} {f g : Flight Work} {rest : List (Flight Work)} {w : Work}
    (h : s.Faces f rest) (hg : g ∈ (s.follow f rest w).flights) : g = { f with work := w } ∨ g ∈ s.flights := by
  rcases List.mem_cons.mp hg with hg | hg
  · exact .inl hg
  · exact .inr (h.mem_flights_of_mem_rest hg)

/-- A construct at the end of a sweep, which may have been cut short. -/
structure Turns (s : Scheduler Work) (short : Bool) : Prop extends Live s where
  spent : s.attention.isSpent s.flights.length = short
  queue : short = false → s.queue = []

end Scheduler

namespace Work

/-- A work that cannot move without waiting and without another look at it. -/
def isStill : Work → Bool
  | .settled _ => true
  | .acting e => e.isStill
  | .group s => s.attention.isResting

inductive Moves (c : Setting) : Work → World → Work → World → Prop
  | act {e : Execution} {σ τ : World} {w : Work} : e.advance σ = some (w, τ) → Moves c (.acting e) σ w τ
  | finish {s : Scheduler Work} {σ : World} : s.attention.isResting = false → s.isFinished = true →
      Moves c (.group s) σ (.settled (.ok s.outcome)) (σ.abandon s.scope s.works)
  | starve {s : Scheduler Work} {σ : World} {short : Bool} : s.Turns short → s.batch = [] → s.flights = [] →
      Moves c (.group s) σ (.settled (.error (.noTransition (.noRunnableBranch s.kind)))) σ
  | rest {s : Scheduler Work} {σ : World} {short : Bool} : s.Turns short → s.batch = [] → s.flights ≠ [] →
      Moves c (.group s) σ (.group { s with attention := .resting (s.attention.again || short) }) σ
  | fail {s : Scheduler Work} {σ : World} {short : Bool} {e : Failure} : s.Turns short → s.batch ≠ [] →
      s.foldBatch = .error e → Moves c (.group s) σ (.settled (.error e)) (σ.abandon s.scope s.works)
  | decide {s t : Scheduler Work} {σ : World} {short : Bool} : s.Turns short → s.batch ≠ [] →
      s.foldBatch = .ok t → t.isFinished = true →
      Moves c (.group s) σ (.settled (.ok t.outcome)) (σ.abandon t.scope t.works)
  | go {s t : Scheduler Work} {σ : World} {short : Bool} : s.Turns short → s.batch ≠ [] →
      s.foldBatch = .ok t → t.isFinished = false →
      Moves c (.group s) σ (t.dispatchLive c σ).1 (t.dispatchLive c σ).2
  | follow {s : Scheduler Work} {f : Flight Work} {rest : List (Flight Work)} {σ τ : World} {w : Work} :
      s.Faces f rest → Moves c f.work σ w τ → Moves c (.group s) σ (.group (s.follow f rest w)) τ
  | receive {s : Scheduler Work} {f : Flight Work} {rest : List (Flight Work)} {σ : World} :
      s.Faces f rest → f.work.isStill = true → Moves c (.group s) σ (.group (s.receive f rest)) σ

theorem advance_eq_none_iff (c : Setting) (w : Work) (σ : World) : w.advance c σ = none ↔ w.isStill = true := by
  cases w with
  | settled outcome => simp [advance, isStill]
  | acting e => simpa only [advance, isStill] using e.advance_eq_none_iff σ
  | group s =>
    simp only [advance, isStill]
    split
    · rename_i h
      simp [h]
    · rename_i h
      simp only [h, Bool.false_eq_true, iff_false]
      split
      · exact Option.some_ne_none _
      · split
        · exact Option.some_ne_none _
        · split <;> exact Option.some_ne_none _

end Work

theorem Scheduler.Turns.moves {c : Setting} {s : Scheduler Work} {short : Bool} (h : s.Turns short) (σ : World) :
    Work.Moves c (.group s) σ (s.turn c short σ).1 (s.turn c short σ).2 := by
  unfold turn
  split
  · rename_i hb hf
    exact .starve h hb hf
  · rename_i f rest hb hf
    exact .rest h hb (by rw [hf]; exact List.cons_ne_nil f rest)
  · rename_i b rest hb
    have hb : s.batch ≠ [] := by rw [hb]; exact List.cons_ne_nil b rest
    split
    · rename_i e he
      exact .fail h hb he
    · rename_i t ht
      split
      · rename_i hf
        exact .decide h hb ht hf
      · rename_i hf
        exact .go h hb ht (Bool.not_eq_true _ ▸ hf)

namespace Work

mutual
theorem moves_of_advance (c : Setting) :
    ∀ (w : Work) {σ τ : World} {w' : Work}, w.advance c σ = some (w', τ) → Moves c w σ w' τ
  | .settled _, σ, τ, w', h => by simp [advance] at h
  | .acting e, σ, τ, w', h => .act (by simpa only [advance] using h)
  | .group s, σ, τ, w', h => by
    simp only [advance] at h
    split at h
    · cases h
    · rename_i hr
      rw [Bool.not_eq_true] at hr
      split at h
      · rename_i hf
        cases h
        exact .finish hr hf
      · rename_i hf
        rw [Bool.not_eq_true] at hf
        split at h
        · rename_i hs
          have hm := Scheduler.Turns.moves (c := c) ⟨⟨hr, hf⟩, hs, nofun⟩ σ
          rwa [Option.some.inj h] at hm
        · rename_i hs
          rw [Bool.not_eq_true] at hs
          split at h
          · rename_i hq
            have hm := Scheduler.Turns.moves (c := c) ⟨⟨hr, hf⟩, hs, fun _ => hq⟩ σ
            rwa [Option.some.inj h] at hm
          · rename_i f rest work world hq hw
            cases h
            exact .follow ⟨⟨hr, hf⟩, hs, hq⟩ (moves_of_advanceFirst c s.queue hw f rest hq)
          · rename_i f rest hq hw
            cases h
            refine .receive ⟨⟨hr, hf⟩, hs, hq⟩ ((advance_eq_none_iff c f.work σ).mp ?_)
            rw [hq, advanceFirst] at hw
            exact hw

theorem moves_of_advanceFirst (c : Setting) :
    ∀ (fs : List (Flight Work)) {σ τ : World} {w' : Work}, advanceFirst c fs σ = some (w', τ) →
      ∀ f rest, fs = f :: rest → Moves c f.work σ w' τ
  | [], σ, τ, w', h => by simp [advanceFirst] at h
  | g :: _, σ, τ, w', h => by
    intro f rest hf
    cases hf
    rw [advanceFirst] at h
    exact moves_of_advance c g.work h
end

theorem advance_of_turns {c : Setting} {s : Scheduler Work} {short : Bool} (h : s.Turns short) (σ : World) :
    (Work.group s).advance c σ = some (s.turn c short σ) := by
  obtain ⟨⟨hr, hf⟩, hs, hq⟩ := h
  cases short with
  | true => simp [advance, hr, hf, hs]
  | false => simp [advance, hr, hf, hs, hq rfl]

theorem advance_of_faces {c : Setting} {s : Scheduler Work} {f : Flight Work} {rest : List (Flight Work)}
    (h : s.Faces f rest) (σ : World) :
    (Work.group s).advance c σ = some (match f.work.advance c σ with
      | some (w, τ) => (.group (s.follow f rest w), τ)
      | none => (.group (s.receive f rest), σ)) := by
  obtain ⟨⟨hr, hf⟩, hs, hq⟩ := h
  simp only [advance, hr, hf, hs, hq, advanceFirst, Bool.false_eq_true, if_false]
  cases f.work.advance c σ <;> rfl

theorem advance_eq_some_iff {c : Setting} {w w' : Work} {σ τ : World} :
    w.advance c σ = some (w', τ) ↔ Moves c w σ w' τ := by
  constructor
  · exact moves_of_advance c w
  · intro h
    induction h with
    | act h => exact h
    | finish hr hf => simp [advance, hr, hf, Scheduler.conclude]
    | starve h hb hf => simp [advance_of_turns h, Scheduler.turn, hb, hf]
    | @rest s σ short h hb hf =>
      obtain ⟨f, rest, hf⟩ := List.exists_cons_of_ne_nil hf
      simp [advance_of_turns h, Scheduler.turn, hb, hf]
    | @fail s σ short e h hb he =>
      obtain ⟨b, rest, hb⟩ := List.exists_cons_of_ne_nil hb
      simp [advance_of_turns h, Scheduler.turn, hb, he, Scheduler.conclude]
    | @decide s t σ short h hb ht hf =>
      obtain ⟨b, rest, hb⟩ := List.exists_cons_of_ne_nil hb
      simp [advance_of_turns h, Scheduler.turn, hb, ht, hf, Scheduler.conclude]
    | @go s t σ short h hb ht hf =>
      obtain ⟨b, rest, hb⟩ := List.exists_cons_of_ne_nil hb
      simp [advance_of_turns h, Scheduler.turn, hb, ht, hf]
    | follow h _ ih => simp [advance_of_faces h, ih]
    | receive h hs => simp [advance_of_faces h, (advance_eq_none_iff c _ _).mpr hs]

theorem Moves.isStill_eq_false {c : Setting} {w w' : Work} {σ τ : World} (h : Moves c w σ w' τ) :
    w.isStill = false := by
  cases hs : w.isStill with
  | false => rfl
  | true =>
    have hn := (advance_eq_none_iff c w σ).mpr hs
    rw [advance_eq_some_iff.mpr h] at hn
    cases hn

theorem move_cases {c : Setting} {w w' : Work} {σ τ : World} (h : w.move c σ = some (w', τ)) :
    Moves c w σ w' τ ∨ w.isStill = true ∧ w.asks = true ∧ w' = w.wake ∧ τ = σ := by
  unfold move at h
  split at h
  · rename_i hm
    cases h
    exact .inl (advance_eq_some_iff.mp hm)
  · rename_i hn
    split at h
    · rename_i ha
      cases h
      exact .inr ⟨(advance_eq_none_iff c w σ).mp hn, ha, rfl, rfl⟩
    · cases h

end Work

namespace Scheduler

variable {τ : Type}

/-- What holds of a construct and is kept by each fold of a batch is kept by the batch. -/
theorem foldAll_induction {P : Scheduler τ → Prop} {cs : List Completion}
    (step : ∀ s c t, c ∈ cs → P s → s.isFinished = false → s.complete c = .ok t → P t)
    {s t : Scheduler τ} (hs : P s) (h : s.foldAll cs = .ok t) : P t := by
  induction cs generalizing s with
  | nil =>
    cases h
    exact hs
  | cons c rest ih =>
    rw [foldAll] at h
    split at h
    · cases h
      exact hs
    · rename_i hf
      obtain ⟨u, hu, h⟩ := Except.exists_of_bind_eq_ok h
      have hu := step s c u List.mem_cons_self hs (Bool.not_eq_true _ ▸ hf) hu
      exact ih (fun s d t hd => step s d t (List.mem_cons_of_mem c hd)) hu h

theorem foldBatch_induction {P : Scheduler τ → Prop} {s t : Scheduler τ}
    (step : ∀ u c v, c ∈ s.batch → P u → u.isFinished = false → u.complete c = .ok v → P v)
    (hs : P { s with batch := [] }) (h : s.foldBatch = .ok t) : P t :=
  foldAll_induction (fun u c v hc => step u c v (List.mem_mergeSort.mp hc)) hs h

theorem flights_foldBatch {s t : Scheduler τ} (h : s.foldBatch = .ok t) : t.flights = s.flights ∧ t.batch = [] := by
  obtain ⟨-, hq, hw, hb⟩ := foldBatch_spec s h
  exact ⟨by rw [flights, flights, hq, hw], hb⟩

theorem nextSlot_cases {s : State} {continuation : Option Program} {next : Program}
    (h : nextSlot s continuation = .ok next) : next = .done ∨ continuation = some next := by
  cases continuation with
  | none =>
    cases h
    exact .inl rfl
  | some p =>
    obtain ⟨final, -, h⟩ := Except.exists_of_bind_eq_ok h
    cases final with
    | true =>
      cases h
      exact .inl rfl
    | false =>
      cases h
      exact .inr rfl

theorem complete_eq_ok {s t : Scheduler τ} {c : Completion} (h : s.complete c = .ok t) :
    ∃ o next, c.outcome = .ok o ∧
      nextSlot (Update.applyAll s.state (Frame.resume c.frames o).updates) (Frame.residual c.frames) = .ok next ∧
      t = { s with
        slots := s.slots.set c.slot next
        state := Update.applyAll s.state (Frame.resume c.frames o).updates
        result := (Frame.resume c.frames o).result.or s.result
        applied := s.applied ++ (Frame.resume c.frames o).updates } := by
  unfold complete at h
  split at h
  · cases h
  · rename_i o ho
    simp only [absorb] at h
    obtain ⟨next, hn, h⟩ := Except.exists_of_bind_eq_ok h
    cases h
    rw [Frame.continuation_resume] at hn
    exact ⟨o, next, ho, hn, rfl⟩

theorem mem_flights_dispatchLive {c : Setting} {s : Scheduler Work} {σ : World} {f : Flight Work}
    (h : f ∈ (s.queue ++ (Program.dispatchSlots c s.state (s.scope :: s.outer) (fun _ => false) 0 s.nextSeq s.slots
      σ).flights) ++ s.waiting) :
    f ∈ s.flights ∨ f ∈ (Program.dispatchSlots c s.state (s.scope :: s.outer) (fun _ => false) 0 s.nextSeq s.slots
      σ).flights := by
  rcases List.mem_append.mp h with h | h
  · rcases List.mem_append.mp h with h | h
    · exact .inl (List.mem_append_left _ h)
    · exact .inr h
  · exact .inl (List.mem_append_right _ h)

end Scheduler

namespace Machine

theorem advanceDetached_cases {c : Setting} {before ws : List Work} {σ σ' : World}
    (h : advanceDetached c before ws σ = some σ') :
    ∃ front w rest w' τ, ws = front ++ w :: rest ∧ w.move c { σ.renew c with detached := [] } = some (w', τ) ∧
      σ' = { τ with detached := before ++ front ++ w' :: rest ++ τ.detached, allowance := σ.allowance } := by
  induction ws generalizing before with
  | nil => cases h
  | cons w rest ih =>
    rw [advanceDetached] at h
    split at h
    · rename_i w' τ hw
      cases h
      exact ⟨[], w, rest, w', τ, rfl, hw, by simp⟩
    · obtain ⟨front, v, rest, v', τ, rfl, hv, rfl⟩ := ih h
      exact ⟨w :: front, v, rest, v', τ, rfl, hv, by simp⟩

/-- A machine whose main work can neither move nor be looked at again waits for a timer. -/
structure Waits (m : Machine) : Prop where
  still : m.main.isStill = true
  rested : m.world.allowance ≠ 0
  quiet : m.main.asks = false

inductive Steps (c : Setting) (m : Machine) : Machine → Prop
  | move {main : Work} {world : World} : Work.Moves c m.main m.world main world → Steps c m ⟨main, world⟩
  | takeUp : m.main.isStill = true → m.world.allowance = 0 → Steps c m ⟨m.main.takeUp, m.world.renew c⟩
  | wake : m.main.isStill = true → m.world.allowance ≠ 0 → m.main.asks = true → Steps c m ⟨m.main.wake, m.world.renew c⟩
  | detached {front rest : List Work} {w w' : Work} {τ : World} : m.Waits → m.world.detached = front ++ w :: rest →
      w.move c { m.world.renew c with detached := [] } = some (w', τ) →
      Steps c m ⟨m.main, { τ with detached := front ++ w' :: rest ++ τ.detached, allowance := m.world.allowance }⟩
  | ring {time : Nat} : m.Waits → m.nextDue = some time → Steps c m (m.ring c time)

theorem steps_of_step {c : Setting} {m m' : Machine} (h : m.step c = some m') : Steps c m m' := by
  unfold step at h
  split at h
  · rename_i main world hm
    cases h
    exact .move (Work.advance_eq_some_iff.mp hm)
  · rename_i hn
    have hs := (Work.advance_eq_none_iff c m.main m.world).mp hn
    split at h
    · rename_i ha
      cases h
      exact .takeUp hs ha
    · rename_i ha
      split at h
      · rename_i hk
        cases h
        exact .wake hs ha hk
      · rename_i hk
        have hw : m.Waits := ⟨hs, ha, Bool.not_eq_true _ ▸ hk⟩
        split at h
        · rename_i world hd
          cases h
          obtain ⟨front, w, rest, w', τ, he, hm, rfl⟩ := advanceDetached_cases hd
          exact .detached hw he hm
        · obtain ⟨time, ht, rfl⟩ := Option.map_eq_some_iff.mp h
          exact .ring hw ht

/-- What holds of a machine and is kept by its steps holds when its main work is settled. -/
theorem settle_induction {c : Setting} {P : Machine → Prop}
    (step : ∀ m m', P m → Steps c m m' → P m') (m : Machine) (h : P m) : P (m.settle c) := by
  fun_induction settle c m with
  | case1 => exact h
  | case2 => exact h
  | case3 m m' hm _ ih => exact ih (step m m' h (steps_of_step hm))

/-- A machine that does not stand still before its main work is settled comes to settle it. -/
theorem settle_progress {c : Setting} {P : Machine → Prop}
    (step : ∀ m m', (∀ outcome, m.main ≠ .settled outcome) → P m → Steps c m m' → P m')
    (progress : ∀ m, P m → m.step c = none → ∃ outcome, m.main = .settled outcome) (m : Machine) (h : P m) :
    P (m.settle c) ∧ ∃ outcome, (m.settle c).main = .settled outcome := by
  fun_induction settle c m with
  | case1 m outcome hm => exact ⟨h, outcome, hm⟩
  | case2 m hn _ => exact ⟨h, progress m h hn⟩
  | case3 m m' hm hs ih => exact ih (step m m' hs h (steps_of_step hm))

theorem settle_of_settled {c : Setting} {m : Machine} {outcome : Except Failure Outcome}
    (h : m.main = .settled outcome) : m.settle c = m := by
  rw [settle, h]

theorem settle_of_some {c : Setting} {m m' : Machine} (hm : ∀ outcome, m.main ≠ .settled outcome)
    (h : m.step c = some m') : m.settle c = m'.settle c := by
  rw [settle]
  split
  · rename_i outcome ho
    exact absurd ho (hm outcome)
  · split
    · rename_i hs
      rw [h] at hs
      cases hs
    · rename_i u hs
      rw [h] at hs
      cases hs
      rfl

theorem outcome_eq_ok {m : Machine} {o : Outcome} (h : m.outcome = .ok o) : m.main = .settled (.ok o) := by
  unfold outcome at h
  split at h
  · rename_i hm
    rw [hm, h]
  · cases h

end Machine

def Program.started (c : Setting) (p : Program) (s : State) (σ : World) : Machine :=
  ⟨(p.dispatch c s [] σ).work, (p.dispatch c s [] σ).world⟩

theorem Program.transition_eq_ok {c : Setting} {p : Program} {s : State} {σ : World} {t : Successor}
    (h : (p.transition c s σ).1 = .ok t) :
    ∃ o, ((p.started c s σ).settle c).main = .settled (.ok o) ∧ t = Frame.resume (p.dispatch c s [] σ).frames o := by
  unfold transition at h
  simp only at h
  cases ho : ((p.started c s σ).settle c).outcome with
  | error e =>
    rw [started] at ho
    rw [ho] at h
    cases h
  | ok o =>
    rw [started] at ho
    rw [ho] at h
    cases h
    exact ⟨o, Machine.outcome_eq_ok ho, rfl⟩

theorem Program.drive_eq (c : Setting) (p : Program) (s : State) (σ : World) :
    p.drive c s σ =
      match p.isFinal s with
      | .error e => ⟨.error ⟨e, p, s⟩, σ⟩
      | .ok true => ⟨.ok s, σ⟩
      | .ok false =>
        match (p.transition c s σ).1 with
        | .error e => ⟨.error ⟨e, p, s⟩, (p.transition c s σ).2⟩
        | .ok t =>
          match t.continuation with
          | none => ⟨.ok t.state, (p.transition c s σ).2⟩
          | some q => q.drive c t.state (p.transition c s σ).2 := by
  rw [drive]
  cases p.isFinal s with
  | error e => rfl
  | ok final =>
    cases final with
    | true => rfl
    | false =>
      dsimp only
      split
      · rename_i h
        rw [h]
      · rename_i t τ h
        rw [h]
        dsimp only
        split
        · rename_i hc
          rw [hc]
        · rename_i q hc
          rw [hc]

/-- What holds of a program and the world and is kept by every transition gives what holds of the world after a run. -/
theorem Program.drive_induction {c : Setting} {P : Program → World → Prop} {Q : World → Prop}
    (final : ∀ p σ, P p σ → Q σ) (failed : ∀ p s σ, P p σ → Q (p.transition c s σ).2)
    (step : ∀ p s σ t q, P p σ → (p.transition c s σ).1 = .ok t → t.continuation = some q → P q (p.transition c s σ).2)
    {p : Program} {σ : World} (s : State) (h : P p σ) : Q (p.drive c s σ).world := by
  fun_induction drive c p s σ with
  | case1 p s σ _ _ => exact final p σ h
  | case2 p s σ _ => exact final p σ h
  | case3 p s σ _ e τ ht =>
    have hr := failed p s σ h
    rwa [ht] at hr
  | case4 p s σ _ t τ ht _ =>
    have hr := failed p s σ h
    rwa [ht] at hr
  | case5 p s σ _ t τ ht q hc ih =>
    have hr := step p s σ t q h (congrArg Prod.fst ht) hc
    rw [ht] at hr
    exact ih hr

theorem Program.result_transition (c : Setting) (p : Program) (s : State) (σ : World) :
    (p.transition c s σ).1 =
      ((p.started c s σ).settle c).outcome.map (Frame.resume (p.dispatch c s [] σ).frames) := rfl

theorem Program.world_transition (c : Setting) (p : Program) (s : State) (σ : World) :
    (p.transition c s σ).2 = ((p.started c s σ).settle c).world := rfl

end Agenda
