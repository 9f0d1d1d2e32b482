import Mathlib
import Agenda.Expr.Eval

/-!
# Integers are exact

Arithmetic on integers of 64 bits never rounds and never wraps around. An expression over integers has the value that it
has among all integers, with division toward zero, as long as every part of it has a value of 64 bits. Otherwise the
first part without one tells what is wrong, in the order in which the parts are evaluated.
-/

namespace Agenda

set_option autoImplicit false

namespace Operator

/-- What an operator of arithmetic computes among all integers. -/
def onIntegers? : Operator → Option (Int → Int → Int)
  | .add => some (· + ·)
  | .sub => some (· - ·)
  | .mul => some (· * ·)
  | .div => some Int.tdiv
  | .mod => some Int.tmod
  | _ => none

def divides : Operator → Bool
  | .div => true
  | .mod => true
  | _ => false

end Operator

namespace Value

def exact : Value → Int
  | .int n => n.toInt
  | _ => 0

def Fits (n : Int) : Prop := Int64.minValue.toInt ≤ n ∧ n ≤ Int64.maxValue.toInt

instance (n : Int) : Decidable (Fits n) := inferInstanceAs (Decidable (_ ∧ _))

theorem fits_toInt (n : Int64) : Fits n.toInt := ⟨n.minValue_le_toInt, n.toInt_le⟩

theorem Fits.toInt_ofInt {n : Int} (h : Fits n) : (Int64.ofInt n).toInt = n := by
  obtain ⟨hl, hu⟩ := h
  rw [Int64.toInt_minValue] at hl
  rw [Int64.toInt_maxValue] at hu
  exact Int64.toInt_ofInt_of_le hl (by omega)

theorem ofExact_eq (o : Operator) (n : Int) :
    ofExact o n = if Fits n then .ok (.int (.ofInt n)) else .error (.overflow o) := rfl

end Value

open Value (Fits)

theorem Operator.apply_integers {o : Operator} {f : Int → Int → Int} (h : o.onIntegers? = some f) (m n : Int64) :
    o.apply (.int m) (.int n) =
      if o.divides = true ∧ n.toInt = 0 then .error (.divisionByZero o)
      else if o = .mod ∧ m.toInt = Int64.minValue.toInt ∧ n.toInt = -1 then .error (.overflow o)
      else Value.ofExact o (f m.toInt n.toInt) := by
  have hz : n.toInt = 0 ↔ n = 0 := Int64.toInt_inj (y := 0)
  have hn : n.toInt = -1 ↔ n = -1 := Int64.toInt_inj (y := -1)
  have hm : m.toInt = Int64.minValue.toInt ↔ m = Int64.minValue := Int64.toInt_inj
  cases o with
  | add | sub | mul =>
    cases h
    rfl
  | div =>
    cases h
    simp [Operator.apply, Value.quotient, Value.isZero, Operator.divides, Value.arithmetic, hz]
  | mod =>
    cases h
    simp only [Operator.apply, Value.remainder, Value.isZero, Operator.divides, hz, hn, hm, beq_iff_eq, true_and]
  | _ => cases h

namespace Expr

/-- Integers and references to integers, put together by arithmetic. -/
inductive Integral (s : State) : Expr → Prop
  | const (n : Int64) : Integral s (.const (.int n))
  | ref {path : String} {n : Int64} : Path.resolve s (Path.parts path) = .int n → Integral s (.ref path)
  | op {o : Operator} {f : Int → Int → Int} {left right : Expr} : o.onIntegers? = some f → Integral s left →
      Integral s right → Integral s (.op o left right)

def exact (s : State) : Expr → Int
  | .ref path => (Path.resolve s (Path.parts path)).exact
  | .const literal => literal.toValue.exact
  | .op o left right =>
    match o.onIntegers? with
    | some f => f (left.exact s) (right.exact s)
    | none => 0

/-- The expression and all its parts, each after its own parts and from left to right. -/
def parts : Expr → List Expr
  | .op o left right => left.parts ++ right.parts ++ [.op o left right]
  | e => [e]

/-- The expression has a value of 64 bits as far as it depends on itself: it does not divide by zero, its value is not
too great or too small, and it is not the remainder of the least integer by minus one. -/
structure Computes (s : State) (e : Expr) : Prop where
  divisor : ∀ o left right, e = .op o left right → o.divides = true → right.exact s ≠ 0
  fits : Fits (e.exact s)
  remainder : ∀ left right, e = .op .mod left right → left.exact s = Int64.minValue.toInt → right.exact s ≠ -1

/-- What is wrong with an operation whose sides have values. -/
def fault? (s : State) : Expr → Option EvalError
  | .op o left right =>
    if o.divides = true ∧ right.exact s = 0 then some (.divisionByZero o)
    else if o = .mod ∧ left.exact s = Int64.minValue.toInt ∧ right.exact s = -1 then some (.overflow o)
    else if Fits ((op o left right).exact s) then none
    else some (.overflow o)
  | _ => none

variable {s : State} {e left right : Expr} {o : Operator} {f : Int → Int → Int}

theorem eval_op (h : o.onIntegers? = some f) (left right : Expr) :
    (op o left right).eval s = left.eval s >>= fun a => right.eval s >>= fun b => o.apply a b := by
  cases o with
  | add | sub | mul | div | mod => rfl
  | _ => cases h

theorem exact_op (h : o.onIntegers? = some f) (left right : Expr) :
    (op o left right).exact s = f (left.exact s) (right.exact s) := by
  rw [exact, h]

theorem mem_parts_self (e : Expr) : e ∈ e.parts := by
  cases e with
  | op o left right => exact List.mem_append_right _ (List.mem_singleton_self _)
  | ref path => exact List.mem_singleton_self _
  | const literal => exact List.mem_singleton_self _

theorem Integral.of_mem_parts (h : e.Integral s) {x : Expr} (hx : x ∈ e.parts) : x.Integral s := by
  induction h with
  | const n =>
    rw [List.mem_singleton.mp hx]
    exact .const n
  | ref hr =>
    rw [List.mem_singleton.mp hx]
    exact .ref hr
  | op hf hl hr ihl ihr =>
    rw [parts, List.mem_append, List.mem_append, List.mem_singleton] at hx
    rcases hx with (hx | hx) | rfl
    · exact ihl hx
    · exact ihr hx
    · exact .op hf hl hr

theorem computes_op_iff : (op o left right).Computes s ↔
    ¬(o.divides = true ∧ right.exact s = 0) ∧
      ¬(o = .mod ∧ left.exact s = Int64.minValue.toInt ∧ right.exact s = -1) ∧ Fits ((op o left right).exact s) := by
  constructor
  · intro h
    refine ⟨fun hx => h.divisor o left right rfl hx.1 hx.2, ?_, h.fits⟩
    rintro ⟨rfl, hl, hr⟩
    exact h.remainder left right rfl hl hr
  · rintro ⟨hd, hm, hf⟩
    refine ⟨?_, hf, ?_⟩
    · rintro o left right ⟨⟩ ho hz
      exact hd ⟨ho, hz⟩
    · rintro left right ⟨⟩ hl hr
      exact hm ⟨rfl, hl, hr⟩

theorem Integral.fault?_eq_none_iff (h : e.Integral s) : e.fault? s = none ↔ e.Computes s := by
  have leaf (hv : Fits (e.exact s)) (hn : ∀ o left right, e ≠ .op o left right) : e.Computes s :=
    ⟨fun o l r he => absurd he (hn o l r), hv, fun l r he => absurd he (hn .mod l r)⟩
  cases h with
  | const n =>
    refine ⟨fun _ => leaf (Value.fits_toInt n) ?_, fun _ => rfl⟩
    rintro o left right ⟨⟩
  | @ref path n hr =>
    refine ⟨fun _ => leaf ?_ ?_, fun _ => rfl⟩
    · rw [exact, hr]
      exact Value.fits_toInt n
    · rintro o left right ⟨⟩
  | op _ _ _ =>
    rw [computes_op_iff, fault?]
    split_ifs with hd hm hf
    · exact iff_of_false id (fun hx => hx.1 hd)
    · exact iff_of_false id (fun hx => hx.2.1 hm)
    · exact iff_of_true rfl ⟨hd, hm, hf⟩
    · exact iff_of_false id (fun hx => hf hx.2.2)

theorem fault?_op_eq_some {error : EvalError} (h : (op o left right).fault? s = some error) :
    error = if o.divides = true ∧ right.exact s = 0 then .divisionByZero o else .overflow o := by
  rw [fault?] at h
  split_ifs at h with hd hm hf
  · rw [if_pos hd]
    exact (Option.some.inj h).symm
  · rw [if_neg hd]
    exact (Option.some.inj h).symm
  · rw [if_neg hd]
    exact (Option.some.inj h).symm

/-- The first part at fault decides; without one the value is exact. -/
theorem Integral.eval_eq (h : e.Integral s) :
    e.eval s = match e.parts.findSome? (fault? s) with
      | some error => .error error
      | none => .ok (.int (.ofInt (e.exact s))) := by
  induction h with
  | const n =>
    rw [exact, Literal.toValue, Value.exact, Int64.ofInt_toInt]
    rfl
  | ref hr =>
    rw [eval, exact, hr, Value.exact, Int64.ofInt_toInt]
    rfl
  | @op o f left right hf hl hr ihl ihr =>
    rw [eval_op hf, ihl, ihr, parts, List.findSome?_append, List.findSome?_append]
    cases hfl : left.parts.findSome? (fault? s) with
    | some error => rfl
    | none =>
      cases hfr : right.parts.findSome? (fault? s) with
      | some error => rfl
      | none =>
        have hleft := (hl.fault?_eq_none_iff.mp (List.findSome?_eq_none_iff.mp hfl left left.mem_parts_self)).fits
        have hright := (hr.fault?_eq_none_iff.mp (List.findSome?_eq_none_iff.mp hfr right right.mem_parts_self)).fits
        refine (Operator.apply_integers hf _ _).trans ?_
        rw [hleft.toInt_ofInt, hright.toInt_ofInt, ← exact_op hf, Value.ofExact_eq, Option.none_or, Option.none_or,
          List.findSome?_singleton, fault?]
        split_ifs <;> rfl

/-- An expression over integers has a value just when no part of it divides by zero, leaves the 64 bits or is the
remainder of the least integer by minus one, and then its value is the exact one. Otherwise the failure is that of the
first such part in the order of evaluation: that it divides by zero if it does, and that it leaves the 64 bits if not.
-/
theorem integers_exact_or_first_fault {s : State} {e : Expr} (h : e.Integral s) :
    (∀ n, e.eval s = .ok (.int n) ↔ (∀ x ∈ e.parts, x.Computes s) ∧ n.toInt = e.exact s) ∧
    ((∃ x ∈ e.parts, ¬x.Computes s) →
      ∃ before o left right after, e.parts = before ++ .op o left right :: after ∧ (∀ x ∈ before, x.Computes s) ∧
        ¬(op o left right).Computes s ∧
        e.eval s = .error (if o.divides = true ∧ right.exact s = 0 then .divisionByZero o else .overflow o)) := by
  have hnone : ∀ x ∈ e.parts, x.fault? s = none ↔ x.Computes s := fun x hx => (h.of_mem_parts hx).fault?_eq_none_iff
  rw [h.eval_eq]
  constructor
  · intro n
    cases hf : e.parts.findSome? (fault? s) with
    | none =>
      have hc : ∀ x ∈ e.parts, x.Computes s := fun x hx => (hnone x hx).mp (List.findSome?_eq_none_iff.mp hf x hx)
      have he := (hc e e.mem_parts_self).fits.toInt_ofInt
      simp only [Except.ok.injEq, Value.int.injEq]
      refine ⟨?_, fun hn => Int64.toInt_inj.mp (he.trans hn.2.symm)⟩
      rintro rfl
      exact ⟨hc, he⟩
    | some error =>
      refine iff_of_false (by rintro ⟨⟩) fun hc => ?_
      obtain ⟨x, hx, he⟩ := List.exists_of_findSome?_eq_some hf
      rw [(hnone x hx).mpr (hc.1 x hx)] at he
      cases he
  · rintro ⟨x, hx, hc⟩
    cases hf : e.parts.findSome? (fault? s) with
    | none => exact absurd ((hnone x hx).mp (List.findSome?_eq_none_iff.mp hf x hx)) hc
    | some error =>
      obtain ⟨before, y, after, hp, hy, hb⟩ := List.findSome?_eq_some_iff.mp hf
      have hmem : ∀ z ∈ before ++ y :: after, z ∈ e.parts := fun z hz => hp ▸ hz
      have hfault : ¬y.Computes s := by
        intro hc
        rw [(hnone y (hmem y (List.mem_append_right _ List.mem_cons_self))).mpr hc] at hy
        cases hy
      cases y with
      | ref path => cases hy
      | const literal => cases hy
      | op o left right =>
        refine ⟨before, o, left, right, after, hp, ?_, hfault, ?_⟩
        · exact fun z hz => (hnone z (hmem z (List.mem_append_left _ hz))).mp (hb z hz)
        · rw [fault?_op_eq_some hy]

def halfLessRest (x : Expr) : Expr :=
  .op .sub (.op .div x (.const (.int 2))) (.op .mod x (.const (.int 2)))

def afterGreatest : Expr := .op .div (.op .add (.const (.int Int64.maxValue)) (.const (.int 1))) (.const (.int 0))

/-- A value that is exact though negative numbers are divided, and a first fault before another one. -/
theorem integers_exact_or_first_fault_halfLessRest :
    (halfLessRest (.ref "x")).eval { vars := [("x", .int (-7))] } = .ok (.int (-2)) ∧
    ∃ error, afterGreatest.eval {} = .error error ∧ ∃ before o left right after,
      afterGreatest.parts = before ++ .op o left right :: after ∧ (∀ x ∈ before, x.Computes {}) ∧
      error = if o.divides = true ∧ right.exact {} = 0 then .divisionByZero o else .overflow o := by
  have hx : Integral { vars := [("x", .int (-7))] } (.ref "x") := .ref (n := -7) (by cbv)
  have hh : (halfLessRest (.ref "x")).Integral { vars := [("x", .int (-7))] } :=
    .op rfl (.op rfl hx (.const 2)) (.op rfl hx (.const 2))
  have hg : afterGreatest.Integral {} := .op rfl (.op rfl (.const _) (.const 1)) (.const 0)
  constructor
  · refine ((integers_exact_or_first_fault hh).1 (-2)).mpr ⟨fun x hm => ?_, by cbv⟩
    refine (hh.of_mem_parts hm).fault?_eq_none_iff.mp (List.findSome?_eq_none_iff.mp ?_ x hm)
    cbv
  · have hfault : ∃ x ∈ afterGreatest.parts, ¬x.Computes {} := by
      refine ⟨afterGreatest, afterGreatest.mem_parts_self, fun hc => ?_⟩
      exact hc.divisor _ _ _ rfl rfl (by cbv)
    obtain ⟨before, o, left, right, after, hp, hb, -, he⟩ := (integers_exact_or_first_fault hg).2 hfault
    exact ⟨_, he, before, o, left, right, after, hp, hb, rfl⟩

end Expr

end Agenda
