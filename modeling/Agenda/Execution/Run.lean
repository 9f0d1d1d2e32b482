import Agenda.Execution.Weight

/-!
# Runs

A run takes one transition after the other until the program may end or a transition fails.
-/

namespace Agenda

set_option autoImplicit false

namespace Machine

def settle (c : Setting) (m : Machine) : Machine :=
  match m.main with
  | .settled _ => m
  | _ =>
    match _h : m.step c with
    | none => m
    | some m' => m'.settle c
termination_by (m.weight, m.fatigue, m.unrest)
decreasing_by exact m.lex_step c _h

/-- Steps until nothing is left to happen before a time. -/
def drain (c : Setting) (time : Nat) (m : Machine) : Machine :=
  match _h : m.step c with
  | none => m
  | some m' => if m'.world.clock < time then m'.drain c time else m
termination_by (m.weight, m.fatigue, m.unrest)
decreasing_by exact m.lex_step c _h

def outcome (m : Machine) : Except Failure Outcome :=
  match m.main with
  | .settled outcome => outcome
  | _ => .error (.noTransition .standstill)

end Machine

def World.drain (c : Setting) (time : Nat) (σ : World) : World :=
  (Machine.drain c time ⟨.settled (.error .abandoned), σ⟩).world

/-- Executes a single action, possible or not. -/
def BoundAction.execute (bound : BoundAction) (s : State) (c : Setting) (σ : World) : Except Failure Outcome × World :=
  let σ := σ.record (.dispatched bound [] σ.clock)
  let e : Execution := { bound, after := bound.action.effect s, trace := [], updates := [], scopes := [] }
  let m := Machine.settle c ⟨.acting e, σ⟩
  (m.outcome, m.world)

namespace Program

def transition (c : Setting) (p : Program) (s : State) (σ : World) : Except Failure Successor × World :=
  let l := p.dispatch c s [] σ
  let m := Machine.settle c ⟨l.work, l.world⟩
  (m.outcome.map (Frame.resume l.frames), m.world)

/-- A transition leaves a smaller program behind. -/
theorem size_continuation_transition (c : Setting) (p : Program) (s : State) (σ : World) {t : Successor}
    (h : (p.transition c s σ).1 = .ok t) : sizeOption t.continuation + 2 ≤ p.size := by
  have hw := (within_dispatch c s p [] σ).weight
  simp only [transition] at h
  revert h
  cases (Machine.settle c ⟨(p.dispatch c s [] σ).work, (p.dispatch c s [] σ).world⟩).outcome with
  | error e => exact fun h => nomatch h
  | ok o =>
    intro h
    cases h
    rw [Frame.continuation_resume]
    simp only [Frame.rest] at hw
    omega

end Program

structure RunFailure where
  failure : Failure
  program : Program
  state : State

structure Run where
  result : Except RunFailure State
  world : World

namespace Run

def history (r : Run) : List ActionRecord := r.world.history

end Run

namespace Program

/-- Takes transitions until the program may end or a transition fails. -/
def drive (c : Setting) (p : Program) (s : State) (σ : World) : Run :=
  match p.isFinal s with
  | .error e => ⟨.error ⟨e, p, s⟩, σ⟩
  | .ok true => ⟨.ok s, σ⟩
  | .ok false =>
    match _h : p.transition c s σ with
    | (.error e, σ) => ⟨.error ⟨e, p, s⟩, σ⟩
    | (.ok t, σ) =>
      match _hc : t.continuation with
      | none => ⟨.ok t.state, σ⟩
      | some q => q.drive c t.state σ
termination_by p.size
decreasing_by
  have := size_continuation_transition c p s _ (congrArg Prod.fst _h)
  rw [_hc] at this
  simp only [sizeOption] at this
  omega

def run (c : Setting) (p : Program) (s : State) : Run :=
  match p.validate with
  | .error violation => ⟨.error ⟨.invalid violation, p, s⟩, c.initial⟩
  | .ok () => p.drive c s c.initial

def planValid (c : Setting) (p : Program) (s : State) : Except Failure (Option Plan) :=
  match p.validate with
  | .error violation => .error (.invalid violation)
  | .ok () => p.plan c.domain c.planLimit s

end Program

end Agenda
