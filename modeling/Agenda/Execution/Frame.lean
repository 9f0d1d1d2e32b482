import Agenda.Transition.Descent

/-!
# Frames

While a statement inside a program is under way, frames say what surrounds it: the statements after it in its block, and
the binding that waits for its result.
-/

namespace Agenda

set_option autoImplicit false

/-- What surrounds a statement, one level of it. -/
inductive Frame where
  | before (rest : List Program)
  | bind (var : String)

structure Outcome where
  state : State
  result : Option Value := none
  updates : List Update := []

namespace Frame

def apply (t : Successor) : Frame → Successor
  | .before rest => t.before rest
  | .bind var => t.bound var

def wrap (continuation : Option Program) : Frame → Option Program
  | .before rest => Successor.resequence continuation rest
  | .bind var => continuation.map (.bind var)

/-- The successor of the whole program; frames are listed from the inside out. -/
def resume (frames : List Frame) (o : Outcome) : Successor :=
  frames.foldl apply { continuation := none, state := o.state, result := o.result, updates := o.updates }

def residual (frames : List Frame) : Option Program := frames.foldl wrap none

def rest (frames : List Frame) : Nat := Program.sizeOption (residual frames)

theorem continuation_apply (t : Successor) (f : Frame) : (f.apply t).continuation = f.wrap t.continuation := by
  cases f with
  | before rest => rfl
  | bind var =>
    obtain ⟨continuation, state, result, planStep, updates⟩ := t
    cases continuation <;> rfl

theorem continuation_resume (frames : List Frame) (o : Outcome) :
    (resume frames o).continuation = residual frames := by
  suffices h : ∀ t : Successor, (frames.foldl apply t).continuation = frames.foldl wrap t.continuation from h _
  intro t
  induction frames generalizing t with
  | nil => rfl
  | cons f rest ih => rw [List.foldl_cons, List.foldl_cons, ih, continuation_apply]

theorem residual_concat (frames : List Frame) (f : Frame) : residual (frames ++ [f]) = f.wrap (residual frames) := by
  rw [residual, List.foldl_append, List.foldl_cons, List.foldl_nil, ← residual]

theorem resume_concat (frames : List Frame) (f : Frame) (o : Outcome) :
    resume (frames ++ [f]) o = f.apply (resume frames o) := by
  rw [resume, List.foldl_append, List.foldl_cons, List.foldl_nil, ← resume]

theorem rest_nil : rest [] = 0 := rfl

theorem rest_concat_before (frames : List Frame) (ps : List Program) :
    rest (frames ++ [.before ps]) ≤ rest frames + Program.sizes ps + 2 := by
  simpa [rest, residual, wrap] using Successor.sizeOption_resequence (residual frames) ps

theorem rest_concat_bind (frames : List Frame) (var : String) :
    rest (frames ++ [.bind var]) ≤ rest frames + 2 := by
  simp only [rest, residual, List.foldl_append, List.foldl_cons, List.foldl_nil, wrap]
  cases List.foldl wrap none frames <;> simp [Program.sizeOption, Program.size]

end Frame

end Agenda
