import Mathlib
import Agenda.Proofs.Leads
import Agenda.Proofs.Moves

/-!
# What dispatching can start

Dispatching a program goes through its statements in one fixed way. The cases of that way are told here once, so that
what holds of all launches is shown case by case.
-/

namespace Agenda

set_option autoImplicit false

/-- Dispatching the first program in the state is dispatching the second one, which is part of it. -/
inductive Program.Enters (s : State) : Program → Program → Prop
  | consequent {condition : Expr} (p : Program) (alternate : Option Program) : condition.decide s = .ok true →
      Enters s (.branch condition p alternate) p
  | alternate {condition : Expr} (p q : Program) : condition.decide s = .ok false →
      Enters s (.branch condition p (some q)) q
  | first (p : Program) (rest : List Program) : Enters s (.control .or (p :: rest)) p

inductive Program.Passes (s : State) : Program → Prop
  | empty : Passes s (.block [])
  | pass {condition : Expr} (p : Program) : condition.decide s = .ok false → Passes s (.branch condition p none)
  | test {condition : Expr} : condition.decide s = .ok true → Passes s (.test condition)
  | done : Passes s .done

theorem Program.Passes.isFinal {s : State} {p : Program} (h : p.Passes s) : p.isFinal s = .ok true := by
  cases h with
  | empty => rfl
  | pass q hc => exact isFinal_pass hc q
  | test hc => rwa [Program.isFinal]
  | done => rfl

/-- The program cannot be dispatched in the state, and why. -/
inductive Program.Refuses (c : Setting) (s : State) : Program → Failure → Prop
  | condition {condition : Expr} {e : Failure} (p : Program) (alternate : Option Program) :
      condition.decide s = .error e → Refuses c s (.branch condition p alternate) e
  | test {condition : Expr} {e : Failure} : condition.decide s = .error e → Refuses c s (.test condition) e
  | assertion {condition : Expr} : condition.decide s = .ok false →
      Refuses c s (.test condition) (.assertionFailed condition)
  | call {name : String} {args : Fields Expr} {e : Failure} : c.domain.resolve s name args = .error e →
      Refuses c s (.call name args) e
  | choice : Refuses c s (.control .or []) (.noTransition .emptyChoice)
  | search {body : Program} {e : Failure} (rest : List Program) : body.plan c.domain c.planLimit s = .error e →
      Refuses c s (.control .plan (body :: rest)) e
  | planless {body : Program} (rest : List Program) : body.plan c.domain c.planLimit s = .ok none →
      Refuses c s (.control .plan (body :: rest)) .planNotFound
  | bodiless : Refuses c s (.control .plan []) (.unsupported .emptyPlan)
  | branches {branches : List Program} {e : Failure} (kind : Control) : Program.finalityFailure? s branches = some e →
      Refuses c s (.control kind branches) e
  | statement {p : Program} {e : Failure} (rest : List Program) : p.isFinal s = .error e →
      Refuses c s (.block (p :: rest)) e
  | blocked : Refuses c s .blocked (.unsupported .strayBlocked)

theorem Program.dispatch_construct (c : Setting) (s : State) {kind : Control} (hk : kind = .conc ∨ kind = .either)
    (branches : List Program) (scopes : List Nat) (σ : World) :
    (control kind branches).dispatch c s scopes σ =
      match finalityFailure? s branches with
      | some e => .failed e σ
      | none =>
        if Scheduler.slotsFinished kind (markFinal s branches) then
          .group kind s scopes σ ⟨markFinal s branches, [], σ.openScope⟩
        else
          .group kind s scopes σ
            (dispatchSlots c s (σ.nextScope :: scopes) (startsFinal s) 0 0 branches σ.openScope) := by
  rcases hk with rfl | rfl <;> rfl

/-- What has to be shown of launches `P` and of rounds `Q` so that it holds whenever something is dispatched. -/
structure DispatchCases (c : Setting) (s : State) (P : Program → List Nat → World → Launch → Prop)
    (Q : List Program → List Nat → (Program → Bool) → Nat → Nat → World → Round → Prop) : Prop where
  failed : ∀ p scopes σ e, p.Refuses c s e → P p scopes σ (.failed e σ)
  finished : ∀ p scopes σ, p.Passes s → P p scopes σ (.finished s σ)
  call : ∀ name args scopes σ bound, c.domain.resolve s name args = .ok bound →
    P (.call name args) scopes σ
      ⟨[], (Work.perform scopes [] [] s bound σ).1, (Work.perform scopes [] [] s bound σ).2⟩
  plan : ∀ body rest scopes σ plan, body.plan c.domain c.planLimit s = .ok (some plan) →
    P (.control .plan (body :: rest)) scopes σ
      ⟨[], (Work.performAll scopes s σ plan.trace).1, (Work.performAll scopes s σ plan.trace).2⟩
  enter : ∀ p q scopes σ l, p.Enters s q → P q scopes σ l → P p scopes σ l
  skip : ∀ p rest scopes σ l, p.isFinal s = .ok true → P (.block rest) scopes σ l → P (.block (p :: rest)) scopes σ l
  before : ∀ p rest scopes σ l, p.isFinal s = .ok false → P p scopes σ l →
    P (.block (p :: rest)) scopes σ (l.within (.before rest))
  bind : ∀ var init scopes σ l, P init scopes σ l → P (.bind var init) scopes σ (l.within (.bind var))
  decided : ∀ kind branches scopes σ, kind = .conc ∨ kind = .either → Program.finalityFailure? s branches = none →
    Scheduler.slotsFinished kind (Program.markFinal s branches) = true →
    (Program.control kind branches).dispatch c s scopes σ =
      .group kind s scopes σ ⟨Program.markFinal s branches, [], σ.openScope⟩ →
    P (.control kind branches) scopes σ (.group kind s scopes σ ⟨Program.markFinal s branches, [], σ.openScope⟩)
  group : ∀ kind branches scopes σ r, kind = .conc ∨ kind = .either → Program.finalityFailure? s branches = none →
    Scheduler.slotsFinished kind (Program.markFinal s branches) = false →
    (Program.control kind branches).dispatch c s scopes σ = .group kind s scopes σ r →
    Q branches (σ.nextScope :: scopes) (Program.startsFinal s) 0 0 σ.openScope r →
    P (.control kind branches) scopes σ (.group kind s scopes σ r)
  nil : ∀ scopes final slot seq σ, Q [] scopes final slot seq σ ⟨[], [], σ⟩
  done : ∀ p rest scopes final slot seq σ r, final p = true → Q rest scopes final (slot + 1) seq σ r →
    Q (p :: rest) scopes final slot seq σ (r.keep .done)
  mark : ∀ p rest scopes final slot seq σ r, final p = false → p.isMark = true →
    Q rest scopes final (slot + 1) seq σ r → Q (p :: rest) scopes final slot seq σ (r.keep p)
  start : ∀ p rest scopes final slot seq σ l r, final p = false → p.isMark = false → P p scopes σ l →
    Q rest scopes final (slot + 1) (seq + 1) l.world r →
    Q (p :: rest) scopes final slot seq σ (r.start ⟨slot, seq, l.frames, l.work⟩)

namespace DispatchCases

variable {c : Setting} {s : State} {P : Program → List Nat → World → Launch → Prop}
  {Q : List Program → List Nat → (Program → Bool) → Nat → Nat → World → Round → Prop}

open Program

mutual
theorem dispatch (h : DispatchCases c s P Q) :
    ∀ (p : Program) (scopes : List Nat) (σ : World), P p scopes σ (p.dispatch c s scopes σ)
  | .block statements, scopes, σ => by
    simpa only [Program.dispatch] using h.block statements scopes σ
  | .branch condition consequent none, scopes, σ => by
    simp only [Program.dispatch]
    split
    · rename_i hc
      exact h.failed _ _ _ _ (.condition consequent none hc)
    · rename_i hc
      exact h.enter _ _ _ _ _ (.consequent consequent none hc) (h.dispatch consequent scopes σ)
    · rename_i hc
      exact h.finished _ _ _ (.pass consequent hc)
  | .branch condition consequent (some alternate), scopes, σ => by
    simp only [Program.dispatch]
    split
    · rename_i hc
      exact h.failed _ _ _ _ (.condition consequent (some alternate) hc)
    · rename_i hc
      exact h.enter _ _ _ _ _ (.consequent consequent (some alternate) hc) (h.dispatch consequent scopes σ)
    · rename_i hc
      exact h.enter _ _ _ _ _ (.alternate consequent alternate hc) (h.dispatch alternate scopes σ)
  | .test condition, scopes, σ => by
    simp only [Program.dispatch]
    split
    · rename_i hc
      exact h.failed _ _ _ _ (.test hc)
    · rename_i hc
      exact h.finished _ _ _ (.test hc)
    · rename_i hc
      exact h.failed _ _ _ _ (.assertion hc)
  | .call name args, scopes, σ => by
    simp only [Program.dispatch]
    split
    · rename_i hb
      exact h.failed _ _ _ _ (.call hb)
    · rename_i bound hb
      exact h.call name args scopes σ bound hb
  | .bind var init, scopes, σ => by
    simp only [Program.dispatch]
    exact h.bind var init scopes σ _ (h.dispatch init scopes σ)
  | .control .or (first :: rest), scopes, σ => by
    simp only [Program.dispatch]
    exact h.enter _ _ _ _ _ (.first first rest) (h.dispatch first scopes σ)
  | .control .or [], scopes, σ => by
    simp only [Program.dispatch]
    exact h.failed _ _ _ _ .choice
  | .control .plan (body :: rest), scopes, σ => by
    simp only [Program.dispatch]
    split
    · rename_i hp
      exact h.failed _ _ _ _ (.search rest hp)
    · rename_i hp
      exact h.failed _ _ _ _ (.planless rest hp)
    · rename_i plan hp
      exact h.plan body rest scopes σ plan hp
  | .control .plan [], scopes, σ => by
    simp only [Program.dispatch]
    exact h.failed _ _ _ _ .bodiless
  | .control .conc branches, scopes, σ => by
    have hd := dispatch_construct c s (.inl rfl : Control.conc = .conc ∨ Control.conc = .either) branches scopes σ
    split at hd
    · rename_i hn
      rw [hd]
      exact h.failed _ _ _ _ (.branches .conc hn)
    · rename_i hn
      split at hd
      · rename_i hf
        rw [hd]
        exact h.decided .conc branches scopes σ (.inl rfl) hn hf hd
      · rename_i hf
        rw [Bool.not_eq_true] at hf
        rw [hd]
        exact h.group .conc branches scopes σ _ (.inl rfl) hn hf hd (h.round branches _ _ 0 0 _)
  | .control .either branches, scopes, σ => by
    have hd := dispatch_construct c s (.inr rfl : Control.either = .conc ∨ Control.either = .either) branches scopes σ
    split at hd
    · rename_i hn
      rw [hd]
      exact h.failed _ _ _ _ (.branches .either hn)
    · rename_i hn
      split at hd
      · rename_i hf
        rw [hd]
        exact h.decided .either branches scopes σ (.inr rfl) hn hf hd
      · rename_i hf
        rw [Bool.not_eq_true] at hf
        rw [hd]
        exact h.group .either branches scopes σ _ (.inr rfl) hn hf hd (h.round branches _ _ 0 0 _)
  | .done, scopes, σ => by
    simp only [Program.dispatch]
    exact h.finished _ _ _ .done
  | .blocked, scopes, σ => by
    simp only [Program.dispatch]
    exact h.failed _ _ _ _ .blocked

theorem block (h : DispatchCases c s P Q) :
    ∀ (ps : List Program) (scopes : List Nat) (σ : World), P (.block ps) scopes σ (dispatchBlock c s scopes ps σ)
  | [], scopes, σ => by
    simp only [dispatchBlock]
    exact h.finished _ _ _ .empty
  | p :: rest, scopes, σ => by
    simp only [dispatchBlock]
    split
    · rename_i hf
      exact h.failed _ _ _ _ (.statement rest hf)
    · rename_i hf
      exact h.skip p rest scopes σ _ hf (h.block rest scopes σ)
    · rename_i hf
      exact h.before p rest scopes σ _ hf (h.dispatch p scopes σ)

theorem round (h : DispatchCases c s P Q) :
    ∀ (ps : List Program) (scopes : List Nat) (final : Program → Bool) (slot seq : Nat) (σ : World),
      Q ps scopes final slot seq σ (dispatchSlots c s scopes final slot seq ps σ)
  | [], scopes, final, slot, seq, σ => by
    simp only [dispatchSlots]
    exact h.nil scopes final slot seq σ
  | p :: rest, scopes, final, slot, seq, σ => by
    simp only [dispatchSlots]
    split
    · rename_i hf
      exact h.done p rest scopes final slot seq σ _ hf (h.round rest scopes final (slot + 1) seq σ)
    · rename_i hf
      rw [Bool.not_eq_true] at hf
      split
      · rename_i hm
        exact h.mark p rest scopes final slot seq σ _ hf hm (h.round rest scopes final (slot + 1) seq σ)
      · rename_i hm
        rw [Bool.not_eq_true] at hm
        exact h.start p rest scopes final slot seq σ _ _ hf hm (h.dispatch p scopes σ)
          (h.round rest scopes final (slot + 1) (seq + 1) _)
end

end DispatchCases

theorem Program.steady_cases (c : Setting) (s : State) :
    DispatchCases c s (fun _ _ σ l => σ.Steady l.world) (fun _ _ _ _ _ σ r => σ.Steady r.world) where
  failed _ _ σ _ _ := σ.steady_refl
  finished _ _ σ _ := σ.steady_refl
  call _ _ scopes σ bound _ := Work.steady_perform scopes [] [] s bound σ
  plan _ _ scopes σ plan _ := by
    obtain ⟨-, he⟩ | ⟨bound, rest, -, he⟩ := Work.performAll_cases scopes s σ plan.trace
    · simp only [he]
      exact σ.steady_refl
    · simp only [he]
      exact Work.steady_perform scopes [] rest s bound σ
  enter _ _ _ _ _ _ h := h
  skip _ _ _ _ _ _ h := h
  before _ _ _ _ _ _ h := h
  bind _ _ _ _ _ h := h
  decided _ _ _ _ _ _ _ _ := ⟨rfl, rfl, rfl, rfl⟩
  group _ _ _ _ _ _ _ _ _ h := ⟨h.clock, h.allowance, h.nextTicket, h.detached⟩
  nil _ _ _ _ σ := σ.steady_refl
  done _ _ _ _ _ _ _ _ _ h := h
  mark _ _ _ _ _ _ _ _ _ _ h := h
  start _ _ _ _ _ _ _ _ _ _ _ hl h := hl.trans h

end Agenda
