import Agenda.Value

/-!
# States

A state holds the facts of the domain and the variables that a program has bound. The two have names of their own.
-/

namespace Agenda

set_option autoImplicit false

structure State where
  vars : Fields Value := []
  facts : Fields Value := []

namespace State

def fact? (s : State) (key : String) : Option Value := s.facts.get? key

def var? (s : State) (name : String) : Option Value := s.vars.get? name

def withFact (s : State) (key : String) (v : Value) : State :=
  { s with facts := s.facts.insert key v }

def overwrite (s : State) (facts : Fields Value) : State :=
  { s with facts := s.facts.insertAll facts }

def bindVar (s : State) (name : String) (v : Value) : State :=
  { s with vars := s.vars.insert name v }

/-- Equality of states, by strict equality of values and whatever the order of the names. -/
def equals (s t : State) : Bool :=
  (Value.record s.vars).equals (.record t.vars) && (Value.record s.facts).equals (.record t.facts)

@[simp] theorem vars_withFact (s : State) (key : String) (v : Value) : (s.withFact key v).vars = s.vars := rfl

@[simp] theorem facts_bindVar (s : State) (name : String) (v : Value) : (s.bindVar name v).facts = s.facts := rfl

end State

end Agenda
