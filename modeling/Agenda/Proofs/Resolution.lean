import Mathlib
import Agenda.Proofs.Vocabulary

/-!
# Choices and their resolutions

A choice stands for any one of its branches. A resolution of a program has one branch in the place of every choice, each
chosen by itself. The search finds a plan exactly if some resolution has one that is prompt: a block skips every
statement that may end where the block comes to it, so a choice that may end there is not tried any further, and
neither may its resolution do anything.
-/

namespace Agenda.Program

set_option autoImplicit false

/-- Programs that can be planned over: choices have branches, plans have one body, and nothing runs side by side. -/
inductive Plannable : Program → Prop
  | block {ps : List Program} : (∀ p ∈ ps, Plannable p) → Plannable (.block ps)
  | branch {condition : Expr} {p : Program} {alternate : Option Program} : Plannable p →
      (∀ q, alternate = some q → Plannable q) → Plannable (.branch condition p alternate)
  | test (condition : Expr) : Plannable (.test condition)
  | call (name : String) (args : Fields Expr) : Plannable (.call name args)
  | bind {init : Program} (var : String) : Plannable init → Plannable (.bind var init)
  | choice {branches : List Program} : branches ≠ [] → (∀ p ∈ branches, Plannable p) →
      Plannable (.control .or branches)
  | plan {body : Program} : Plannable body → Plannable (.control .plan [body])
  | done : Plannable .done

theorem hereditary_plannable : Hereditary Plannable where
  block ps := ⟨fun h => by cases h with | block hp => exact hp, .block⟩
  bind var init := ⟨fun h => by cases h with | bind _ hi => exact hi, .bind var⟩
  consequent _ _ _ h := by cases h with | branch hp _ => exact hp
  alternate _ _ _ h := by cases h with | branch _ hq => exact hq _ rfl
  control _ _ h := by
    cases h with
    | choice _ hp => exact hp
    | plan hb => exact List.forall_mem_singleton.mpr hb

theorem checkArity_eq_ok {kind : Control} {count : Nat} (h : checkArity kind count = .ok ()) :
    count ≠ 0 ∧ (kind = .plan → count = 1) := by
  unfold checkArity at h
  split at h
  · split at h
    · rename_i hc
      exact ⟨by omega, fun _ => hc⟩
    · cases h
  · rename_i hk
    split at h
    · cases h
    · rename_i hc
      exact ⟨hc, fun hp => absurd hp hk⟩

mutual
theorem plannable_of_validate : ∀ p : Program, p.validate = .ok () →
    p.keepsTo (.without [.conc, .either]) = true → Plannable p
  | .block ps, hv, hk => by
    rw [validate] at hv
    rw [keepsTo] at hk
    exact .block (plannable_of_validateAll ps hv hk)
  | .branch _ p none, hv, hk => by
    rw [validate] at hv
    exact .branch (plannable_of_validate p hv (keepsTo_consequent hk)) nofun
  | .branch _ p (some q), hv, hk => by
    rw [validate] at hv
    obtain ⟨_, hp, hq⟩ := Except.exists_of_bind_eq_ok hv
    refine .branch (plannable_of_validate p hp (keepsTo_consequent hk)) ?_
    rintro _ ⟨⟩
    exact plannable_of_validate q hq (keepsTo_alternate hk)
  | .test condition, _, _ => .test condition
  | .call name args, _, _ => .call name args
  | .bind var init, hv, hk => by
    rw [validate] at hv
    rw [keepsTo] at hk
    obtain ⟨_, -, hi⟩ := Except.exists_of_bind_eq_ok hv
    exact .bind var (plannable_of_validate init hi hk)
  | .control kind branches, hv, hk => by
    rw [validate] at hv
    rw [keepsTo, Bool.and_eq_true] at hk
    obtain ⟨_, ha, hb⟩ := Except.exists_of_bind_eq_ok hv
    obtain ⟨hn, hp⟩ := checkArity_eq_ok ha
    have hall := plannable_of_validateAll branches hb hk.2
    cases kind with
    | or => exact .choice (List.ne_nil_of_length_pos (Nat.pos_of_ne_zero hn)) hall
    | plan =>
      obtain ⟨body, rfl⟩ := List.length_eq_one_iff.mp (hp rfl)
      exact .plan (hall body List.mem_cons_self)
    | conc => cases hk.1
    | either => cases hk.1
  | .done, hv, _ => by cases hv
  | .blocked, hv, _ => by cases hv

theorem plannable_of_validateAll : ∀ ps : List Program, validateAll ps = .ok () →
    keepToAll (.without [.conc, .either]) ps = true → ∀ p ∈ ps, Plannable p
  | [], _, _ => List.forall_mem_nil _
  | p :: rest, hv, hk => by
    rw [validateAll] at hv
    rw [keepToAll, Bool.and_eq_true] at hk
    obtain ⟨_, hp, hr⟩ := Except.exists_of_bind_eq_ok hv
    exact List.forall_mem_cons.mpr ⟨plannable_of_validate p hp hk.1, plannable_of_validateAll rest hr hk.2⟩
end

/-! ### Resolutions -/

/-- The second program is the first one with one branch in the place of every choice. -/
inductive Resolution : Program → Program → Prop
  | nil : Resolution (.block []) (.block [])
  | cons {p q : Program} {ps qs : List Program} : Resolution p q → Resolution (.block ps) (.block qs) →
      Resolution (.block (p :: ps)) (.block (q :: qs))
  | branch {p q : Program} (condition : Expr) : Resolution p q →
      Resolution (.branch condition p none) (.branch condition q none)
  | branches {p q p' q' : Program} (condition : Expr) : Resolution p q → Resolution p' q' →
      Resolution (.branch condition p (some p')) (.branch condition q (some q'))
  | test (condition : Expr) : Resolution (.test condition) (.test condition)
  | call (name : String) (args : Fields Expr) : Resolution (.call name args) (.call name args)
  | bind {p q : Program} (var : String) : Resolution p q → Resolution (.bind var p) (.bind var q)
  | choice {branches : List Program} {p q : Program} : p ∈ branches → Resolution p q →
      Resolution (.control .or branches) q
  | plan {p q : Program} : Resolution p q → Resolution (.control .plan [p]) (.control .plan [q])
  | done : Resolution .done .done

theorem Resolution.isFinal_eq_true {p q : Program} {s : State} {final : Bool} (h : Resolution p q)
    (hq : q.isFinal s = .ok true) (hp : p.isFinal s = .ok final) : final = true := by
  induction h generalizing final with
  | nil =>
    cases hp
    rfl
  | @cons p q ps qs _ _ ih ihs =>
    rw [isFinal_block_cons] at hp hq
    split at hq
    · cases hq
    · rename_i hq₁
      split at hp
      · cases hp
      · exact ihs hq hp
      · rename_i hp₁
        exact absurd (ih hq₁ hp₁) Bool.false_ne_true
    · cases hq
  | branch condition _ ih =>
    obtain ⟨taken, hc⟩ := exists_of_isFinal_branch hp
    cases taken with
    | true =>
      rw [isFinal_consequent hc] at hp hq
      exact ih hq hp
    | false =>
      rw [isFinal_pass hc] at hp
      cases hp
      rfl
  | branches condition _ _ ih ih' =>
    obtain ⟨taken, hc⟩ := exists_of_isFinal_branch hp
    cases taken with
    | true =>
      rw [isFinal_consequent hc] at hp hq
      exact ih hq hp
    | false =>
      rw [isFinal_alternate hc] at hp hq
      exact ih' hq hp
  | test condition =>
    rw [hq] at hp
    cases hp
    rfl
  | call name args => cases hq
  | bind var _ _ => cases hq
  | choice hm _ ih =>
    rw [isFinal] at hp
    cases final with
    | true => rfl
    | false => exact ih hq (forall_of_anyFinal hp _ hm)
  | plan _ ih =>
    rw [isFinal_plan] at hp hq
    exact ih hq hp
  | done =>
    cases hp
    rfl

theorem exists_resolution_block {ps : List Program} (h : ∀ p ∈ ps, ∃ q, Resolution p q) :
    ∃ qs, Resolution (.block ps) (.block qs) := by
  induction ps with
  | nil => exact ⟨[], .nil⟩
  | cons p rest ih =>
    rw [List.forall_mem_cons] at h
    obtain ⟨q, hq⟩ := h.1
    obtain ⟨qs, hqs⟩ := ih h.2
    exact ⟨q :: qs, .cons hq hqs⟩

theorem Plannable.exists_resolution {p : Program} (h : Plannable p) : ∃ q, Resolution p q := by
  induction h with
  | block _ ih =>
    obtain ⟨qs, hqs⟩ := exists_resolution_block ih
    exact ⟨.block qs, hqs⟩
  | @branch condition p alternate _ _ ih ih' =>
    obtain ⟨q, hq⟩ := ih
    cases alternate with
    | none => exact ⟨_, .branch condition hq⟩
    | some p' =>
      obtain ⟨q', hq'⟩ := ih' p' rfl
      exact ⟨_, .branches condition hq hq'⟩
  | test condition => exact ⟨_, .test condition⟩
  | call name args => exact ⟨_, .call name args⟩
  | bind var _ ih =>
    obtain ⟨q, hq⟩ := ih
    exact ⟨_, .bind var hq⟩
  | choice hn _ ih =>
    obtain ⟨p, hp⟩ := List.exists_mem_of_ne_nil _ hn
    obtain ⟨q, hq⟩ := ih p hp
    exact ⟨q, .choice hp hq⟩
  | plan _ ih =>
    obtain ⟨q, hq⟩ := ih
    exact ⟨_, .plan hq⟩
  | done => exact ⟨_, .done⟩

theorem Plannable.exists_resolution_consequent {condition : Expr} {p q : Program} {alternate : Option Program}
    (h : Plannable (.branch condition p alternate)) (hq : Resolution p q) :
    ∃ alternate', Resolution (.branch condition p alternate) (.branch condition q alternate') := by
  cases alternate with
  | none => exact ⟨none, .branch condition hq⟩
  | some p' =>
    obtain ⟨q', hq'⟩ := (hereditary_plannable.alternate _ _ _ h).exists_resolution
    exact ⟨some q', .branches condition hq hq'⟩

/-- The resolution is prompt from the state on: a statement that may end where its block comes to it has a resolution
that may end there. A block comes to a statement where the chain of the one before it ends. -/
inductive Prompt (d : Domain) : State → Program → Program → Prop
  | nil (s : State) : Prompt d s (.block []) (.block [])
  | cons {s : State} {p q : Program} {ps qs : List Program} : Resolution (.block ps) (.block qs) →
      (p.isFinal s = .ok true → q.isFinal s = .ok true) → Prompt d s p q →
      (∀ places plan, Chain d q s places plan → Prompt d plan.state (.block ps) (.block qs)) →
      Prompt d s (.block (p :: ps)) (.block (q :: qs))
  | consequent {s : State} {condition : Expr} {p q : Program} {alternate alternate' : Option Program} :
      Resolution (.branch condition p alternate) (.branch condition q alternate') → condition.decide s = .ok true →
      Prompt d s p q → Prompt d s (.branch condition p alternate) (.branch condition q alternate')
  | alternate {s : State} {condition : Expr} {p q p' q' : Program} : Resolution p q → condition.decide s = .ok false →
      Prompt d s p' q' → Prompt d s (.branch condition p (some p')) (.branch condition q (some q'))
  | pass {s : State} {condition : Expr} {p q : Program} : Resolution p q → condition.decide s = .ok false →
      Prompt d s (.branch condition p none) (.branch condition q none)
  | test (s : State) (condition : Expr) : Prompt d s (.test condition) (.test condition)
  | call (s : State) (name : String) (args : Fields Expr) : Prompt d s (.call name args) (.call name args)
  | bind {s : State} {p q : Program} (var : String) : Prompt d s p q → Prompt d s (.bind var p) (.bind var q)
  | choice {s : State} {branches : List Program} {p q : Program} : p ∈ branches → Prompt d s p q →
      Prompt d s (.control .or branches) q
  | plan {s : State} {p q : Program} : Prompt d s p q → Prompt d s (.control .plan [p]) (.control .plan [q])
  | done (s : State) : Prompt d s .done .done

variable {d : Domain} {s : State} {p q : Program}

theorem Prompt.resolution (h : Prompt d s p q) : Resolution p q := by
  induction h with
  | nil _ => exact .nil
  | cons hr _ _ _ ih _ => exact .cons ih hr
  | consequent hr _ _ _ => exact hr
  | alternate hr _ _ ih => exact .branches _ hr ih
  | pass hr _ => exact .branch _ hr
  | test _ condition => exact .test condition
  | call _ name args => exact .call name args
  | bind var _ ih => exact .bind var ih
  | choice hm _ ih => exact .choice hm ih
  | plan _ ih => exact .plan ih
  | done _ => exact .done

theorem Prompt.isFinal_eq_false (h : Prompt d s p q) (hp : p.isFinal s = .ok false) : q.isFinal s = .ok false := by
  induction h with
  | nil _ => cases hp
  | cons _ hf _ _ ih ihs =>
    rw [isFinal_block_cons] at hp ⊢
    split at hp
    · cases hp
    · rename_i hp₁
      -- the first statement ends at once, so the block comes to the others in the same state
      rw [hf hp₁]
      exact ihs _ _ (.stop (hf hp₁)) hp
    · rename_i hp₁
      rw [ih hp₁]
  | consequent _ hc _ ih =>
    rw [isFinal_consequent hc] at hp ⊢
    exact ih hp
  | alternate _ hc _ ih =>
    rw [isFinal_alternate hc] at hp ⊢
    exact ih hp
  | pass _ hc =>
    rw [isFinal_pass hc] at hp
    cases hp
  | test _ _ => exact hp
  | call _ _ _ => exact hp
  | bind _ _ _ => rfl
  | choice hm _ ih =>
    rw [isFinal] at hp
    exact ih (forall_of_anyFinal hp _ hm)
  | plan _ ih =>
    rw [isFinal_plan] at hp ⊢
    exact ih hp
  | done _ => cases hp

theorem exists_prompt_of_allFinal {ps : List Program}
    (h : ∀ p ∈ ps, p.isFinal s = .ok true → ∃ q, Prompt d s p q ∧ q.isFinal s = .ok true)
    (hf : (block ps).isFinal s = .ok true) :
    ∃ qs, Prompt d s (.block ps) (.block qs) ∧ (block qs).isFinal s = .ok true := by
  induction ps with
  | nil => exact ⟨[], .nil s, rfl⟩
  | cons p rest ih =>
    rw [List.forall_mem_cons] at h
    rw [isFinal_block_cons] at hf
    split at hf
    · cases hf
    · rename_i hp
      obtain ⟨q, hq, hqf⟩ := h.1 hp
      obtain ⟨qs, hqs, hqsf⟩ := ih h.2 hf
      refine ⟨q :: qs, .cons hqs.resolution (fun _ => hqf) hq ?_, ?_⟩
      · intro places plan hc
        rw [(hc.inv_final hqf).2]
        exact hqs
      · rw [isFinal_block_cons, hqf]
        exact hqsf
    · cases hf

theorem Plannable.exists_prompt_isFinal (d : Domain) (h : Plannable p) (hf : p.isFinal s = .ok true) :
    ∃ q, Prompt d s p q ∧ q.isFinal s = .ok true := by
  induction h with
  | block _ ih =>
    obtain ⟨qs, hqs, hqf⟩ := exists_prompt_of_allFinal ih hf
    exact ⟨_, hqs, hqf⟩
  | @branch condition p alternate hp ha ih ih' =>
    obtain ⟨taken, hc⟩ := exists_of_isFinal_branch hf
    cases taken with
    | true =>
      rw [isFinal_consequent hc] at hf
      obtain ⟨q, hq, hqf⟩ := ih hf
      obtain ⟨alternate', hr⟩ := (Plannable.branch hp ha).exists_resolution_consequent hq.resolution
      exact ⟨_, .consequent hr hc hq, (isFinal_consequent hc q alternate').trans hqf⟩
    | false =>
      obtain ⟨q, hq⟩ := hp.exists_resolution
      cases alternate with
      | none => exact ⟨_, .pass hq hc, isFinal_pass hc q⟩
      | some p' =>
        rw [isFinal_alternate hc] at hf
        obtain ⟨q', hq', hqf⟩ := ih' p' rfl hf
        exact ⟨_, .alternate hq hc hq', (isFinal_alternate hc q q').trans hqf⟩
  | test condition => exact ⟨_, .test s condition, hf⟩
  | call _ _ => cases hf
  | bind _ _ _ => cases hf
  | choice _ _ ih =>
    rw [isFinal] at hf
    obtain ⟨p, hm, hp⟩ := exists_of_anyFinal hf
    obtain ⟨q, hq, hqf⟩ := ih p hm hp
    exact ⟨q, .choice hm hq, hqf⟩
  | plan _ ih =>
    rw [isFinal_plan] at hf
    obtain ⟨q, hq, hqf⟩ := ih hf
    exact ⟨_, .plan hq, (isFinal_plan s q).trans hqf⟩
  | done => exact ⟨_, .done s, rfl⟩

/-! ### One transition of a program and of a resolution -/

/-- What remains after a transition is a block or a binding. -/
inductive Resumed : Program → Prop
  | block (ps : List Program) : Resumed (.block ps)
  | bind (var : String) (init : Program) : Resumed (.bind var init)

theorem Leads.resumed {t : Successor} (h : Leads d s p t) : ∀ q, t.continuation = some q → Resumed q := by
  induction h with
  | empty => rintro _ ⟨⟩
  | skip _ _ ih => exact ih
  | @before _ t rest _ _ _ =>
    intro q hq
    unfold Successor.before Successor.resequence at hq
    split at hq
    · cases hq
    · cases hq
      exact .block _
    · cases hq
      exact .block _
  | consequent _ _ _ ih => exact ih
  | alternate _ _ _ ih => exact ih
  | pass _ _ => rintro _ ⟨⟩
  | test _ => rintro _ ⟨⟩
  | call _ _ => rintro _ ⟨⟩
  | bind var _ _ =>
    rw [continuation_bound]
    intro q hq
    obtain ⟨init, -, rfl⟩ := Option.map_eq_some_iff.mp hq
    exact .bind var init
  | choice _ _ ih => exact ih
  | plan _ ih => exact ih
  | done => rintro _ ⟨⟩

theorem Prompt.isFinal_of_resumed (h : Prompt d s p q) (hr : Resumed p) (hp : p.isFinal s = .ok true) :
    q.isFinal s = .ok true := by
  induction h with
  | nil _ => exact hp
  | cons _ hf _ _ _ ihs =>
    rw [isFinal_block_cons] at hp ⊢
    split at hp
    · cases hp
    · rename_i hp₁
      rw [hf hp₁]
      exact ihs _ _ (.stop (hf hp₁)) (.block _) hp
    · cases hp
  | bind _ _ _ => cases hp
  | _ => cases hr

theorem Prompt.inv_block {ps : List Program} (h : Prompt d s (.block ps) q) : ∃ qs, q = .block qs := by
  cases h with
  | nil _ => exact ⟨_, rfl⟩
  | cons _ _ _ _ => exact ⟨_, rfl⟩

theorem prompt_resequence {head head' : Option Program} {rest rest' : List Program}
    (hr : ∀ c, head = some c → Resumed c) (hh : Option.Rel (Prompt d s) head head')
    (hs : Resolution (.block rest) (.block rest'))
    (hc : ∀ places plan, Chain d (head'.getD .done) s places plan → Prompt d plan.state (.block rest) (.block rest')) :
    Option.Rel (Prompt d s) (Successor.resequence head rest) (Successor.resequence head' rest') := by
  cases hh with
  | none =>
    have hp := hc [] ⟨[], s⟩ (.stop rfl)
    cases hs with
    | nil => exact .none
    | cons _ _ => exact .some hp
  | some hq => exact .some (.cons hs (fun hf => hq.isFinal_of_resumed (hr _ rfl) hf) hq hc)

theorem exists_of_prompt_resequence {head after : Option Program} {rest : List Program}
    (h : Option.Rel (Prompt d s) (Successor.resequence head rest) after) :
    ∃ head' rest', after = Successor.resequence head' rest' ∧ Option.Rel (Prompt d s) head head' ∧
      Resolution (.block rest) (.block rest') ∧
      ∀ places plan, Chain d (head'.getD .done) s places plan →
        Prompt d plan.state (.block rest) (.block rest') := by
  cases head with
  | none =>
    cases rest with
    | nil =>
      cases h with
      | none => exact ⟨none, [], rfl, .none, .nil, fun _ plan _ => .nil plan.state⟩
    | cons p rest =>
      cases h with
      | some hp =>
        cases hp with
        | @cons _ _ q _ qs hr hf hq hc =>
          refine ⟨none, q :: qs, rfl, .none, .cons hq.resolution hr, ?_⟩
          intro places plan hd
          rw [(hd.inv_final rfl).2]
          exact .cons hr hf hq hc
  | some c =>
    cases h with
    | some hp =>
      cases hp with
      | @cons _ _ q _ qs hr _ hq hc => exact ⟨some q, qs, rfl, .some hq, hr, hc⟩

theorem exists_of_prompt_bound {t : Successor} {var : String} {after : Option Program}
    (h : Option.Rel (Prompt d (t.bound var).state) (t.bound var).continuation after) :
    ∃ after', after = after'.map (.bind var) ∧ Option.Rel (Prompt d t.state) t.continuation after' := by
  unfold Successor.bound at h
  split at h
  · rename_i hc
    cases h with
    | some hp =>
      cases hp with
      | bind _ hq =>
        rw [hc]
        exact ⟨some _, rfl, .some hq⟩
  · rename_i hc
    simp only [hc] at h
    cases h with
    | none =>
      rw [hc]
      exact ⟨none, rfl, .none⟩

/-- The second successor is one of a resolution, where the first one is one of the program. -/
structure Mirrors (d : Domain) (t u : Successor) : Prop where
  state : u.state = t.state
  result : u.result = t.result
  planStep : u.planStep = t.planStep
  continuation : Option.Rel (Prompt d t.state) t.continuation u.continuation

theorem mirrors_finished (d : Domain) (s : State) : Mirrors d (.finished s) (.finished s) := ⟨rfl, rfl, rfl, .none⟩

theorem Mirrors.bound {t u : Successor} (h : Mirrors d t u) (var : String) : Mirrors d (t.bound var) (u.bound var) := by
  obtain ⟨hs, hr, hp, hc⟩ := h
  unfold Successor.bound
  generalize t.continuation = c, u.continuation = c' at hc ⊢
  cases hc with
  | none =>
    refine ⟨?_, rfl, hp, .none⟩
    simp only [hs, hr]
  | some hq => exact ⟨hs, hr, hp, .some (.bind var hq)⟩

theorem Mirrors.remaining {t u : Successor} (h : Mirrors d t u) : Prompt d t.state t.remaining u.remaining := by
  have hc := h.continuation
  unfold Successor.remaining
  generalize t.continuation = c, u.continuation = c' at hc
  cases hc with
  | none => exact .done _
  | some hq => exact hq

theorem exists_of_choiceSuccessors {branches : List Program} {ts : List Successor}
    (h : choiceSuccessors d s branches = .ok ts) : ∀ p ∈ branches, ∃ us, p.successors d s = .ok us ∧ us ⊆ ts := by
  induction branches generalizing ts with
  | nil => exact List.forall_mem_nil _
  | cons p rest ih =>
    rw [choiceSuccessors] at h
    obtain ⟨us, hu, h⟩ := Except.exists_of_bind_eq_ok h
    obtain ⟨vs, hv, h⟩ := Except.exists_of_bind_eq_ok h
    cases h
    refine List.forall_mem_cons.mpr ⟨⟨us, hu, List.subset_append_left us vs⟩, ?_⟩
    intro q hq
    obtain ⟨ws, hw, hs⟩ := ih hv q hq
    exact ⟨ws, hw, List.Subset.trans hs (List.subset_append_right us vs)⟩

/-- Whatever a prompt resolution can do next, the program can. -/
theorem Prompt.exists_mirror (h : Prompt d s p q) {ts us : List Successor} (hp : p.successors d s = .ok ts)
    (hq : q.successors d s = .ok us) : ∀ u ∈ us, ∃ t ∈ ts, Mirrors d t u := by
  induction h generalizing ts us with
  | nil s =>
    cases hp
    cases hq
    exact List.forall_mem_singleton.mpr ⟨_, List.mem_cons_self, mirrors_finished d s⟩
  | @cons s p q ps qs hr hf hh hc ih ihs =>
    simp only [successors, blockSuccessors] at hp hq
    obtain ⟨final, hpf, hp⟩ := Except.exists_of_bind_eq_ok hp
    obtain ⟨final', hqf, hq⟩ := Except.exists_of_bind_eq_ok hq
    cases final with
    | true =>
      cases (hf hpf).symm.trans hqf
      exact ihs _ _ (.stop hqf) hp hq
    | false =>
      cases (hh.isFinal_eq_false hpf).symm.trans hqf
      obtain ⟨ts, hts, hp⟩ := Except.exists_of_bind_eq_ok hp
      obtain ⟨us, hus, hq⟩ := Except.exists_of_bind_eq_ok hq
      cases hp
      cases hq
      rw [List.forall_mem_map]
      intro u hu
      obtain ⟨t, ht, hm⟩ := ih hts hus u hu
      refine ⟨t.before ps, List.mem_map_of_mem ht, hm.state, hm.result, hm.planStep, ?_⟩
      obtain ⟨i, hi⟩ := List.mem_iff_getElem?.mp hu
      refine prompt_resequence (leads_of_mem_successors d s p hts t ht).resumed hm.continuation hr ?_
      intro places plan hd
      -- the chain of what remains, with this transition before it, is one of the statement
      exact hc (i :: places) ⟨u.planStep ++ plan.trace, plan.state⟩ (.step hqf hus hi (hm.state ▸ hd))
  | consequent _ hc _ ih =>
    rw [successors_consequent hc] at hp hq
    exact ih hp hq
  | alternate _ hc _ ih =>
    rw [successors_alternate hc] at hp hq
    exact ih hp hq
  | pass _ hc =>
    rw [successors_pass hc] at hp hq
    cases hp
    cases hq
    exact List.forall_mem_singleton.mpr ⟨_, List.mem_cons_self, mirrors_finished d _⟩
  | test s condition =>
    rw [hp] at hq
    cases hq
    intro u hu
    cases leads_of_mem_successors d s _ hp u hu with
    | test _ => exact ⟨_, hu, mirrors_finished d s⟩
  | call s name args =>
    rw [hp] at hq
    cases hq
    intro u hu
    cases leads_of_mem_successors d s _ hp u hu with
    | call _ _ => exact ⟨_, hu, rfl, rfl, rfl, .none⟩
  | bind var _ ih =>
    rw [successors] at hp hq
    obtain ⟨ts, hts, hp⟩ := Except.exists_of_bind_eq_ok hp
    obtain ⟨us, hus, hq⟩ := Except.exists_of_bind_eq_ok hq
    cases hp
    cases hq
    rw [List.forall_mem_map]
    intro u hu
    obtain ⟨t, ht, hm⟩ := ih hts hus u hu
    exact ⟨t.bound var, List.mem_map_of_mem ht, hm.bound var⟩
  | choice hm _ ih =>
    rw [successors] at hp
    obtain ⟨ts', hts, hsub⟩ := exists_of_choiceSuccessors hp _ hm
    intro u hu
    obtain ⟨t, ht, hm⟩ := ih hts hq u hu
    exact ⟨t, hsub ht, hm⟩
  | plan _ ih =>
    rw [successors] at hp hq
    exact ih hp hq
  | done s =>
    cases hp
    cases hq
    exact List.forall_mem_singleton.mpr ⟨_, List.mem_cons_self, mirrors_finished d s⟩

/-- Whatever the program can do next, some prompt resolution does, and nothing else. How it goes on may be chosen. -/
theorem Leads.exists_prompt {t : Successor} {after : Option Program} (h : Leads d s p t) (hp : Plannable p)
    (ha : Option.Rel (Prompt d t.state) t.continuation after) :
    ∃ q u, Prompt d s p q ∧ q.successors d s = .ok [u] ∧ Mirrors d t u ∧ u.continuation = after := by
  induction h generalizing after with
  | empty =>
    cases ha with
    | none => exact ⟨_, _, .nil s, rfl, mirrors_finished d s, rfl⟩
  | @skip p rest t hf _ ih =>
    rw [hereditary_plannable.block, List.forall_mem_cons] at hp
    obtain ⟨q, hq, hqf⟩ := hp.1.exists_prompt_isFinal d hf
    obtain ⟨_, u, hr, hs, hm, hu⟩ := ih ((hereditary_plannable.block rest).mpr hp.2) ha
    obtain ⟨qs, rfl⟩ := hr.inv_block
    refine ⟨.block (q :: qs), u, .cons hr.resolution (fun _ => hqf) hq ?_, ?_, hm, hu⟩
    · intro places plan hc
      rw [(hc.inv_final hqf).2]
      exact hr
    · rw [successors, blockSuccessors, hqf]
      exact hs
  | @before p t rest hf _ ih =>
    rw [hereditary_plannable.block, List.forall_mem_cons] at hp
    obtain ⟨head', rest', rfl, hh, hr, hc⟩ := exists_of_prompt_resequence ha
    obtain ⟨q, u, hq, hs, hm, rfl⟩ := ih hp.1 hh
    have hqf := hq.isFinal_eq_false hf
    refine ⟨.block (q :: rest'), u.before rest', .cons hr ?_ hq ?_, ?_, ?_, rfl⟩
    · intro ht
      rw [hf] at ht
      cases ht
    · intro places plan hd
      -- the resolution has this one transition, so its chains are those of what remains with the transition before them
      obtain ⟨i, v, places', plan', hi, hd', -, rfl⟩ := hd.inv_step hqf hs
      obtain rfl := List.mem_singleton.mp (List.mem_of_getElem? hi)
      exact hc places' plan' (hm.state ▸ hd')
    · rw [successors, blockSuccessors, hqf, hs]
      rfl
    · exact ⟨hm.state, hm.result, hm.planStep, ha⟩
  | @consequent condition p t alternate hc _ ih =>
    obtain ⟨q, u, hq, hs, hm, hu⟩ := ih (hereditary_plannable.consequent _ _ _ hp) ha
    obtain ⟨alternate', hr⟩ := hp.exists_resolution_consequent hq.resolution
    exact ⟨_, u, .consequent hr hc hq, (successors_consequent hc q alternate').trans hs, hm, hu⟩
  | alternate p hc _ ih =>
    obtain ⟨q, hq⟩ := (hereditary_plannable.consequent _ _ _ hp).exists_resolution
    obtain ⟨q', u, hq', hs, hm, hu⟩ := ih (hereditary_plannable.alternate _ _ _ hp) ha
    exact ⟨_, u, .alternate hq hc hq', (successors_alternate hc q q').trans hs, hm, hu⟩
  | pass p hc =>
    obtain ⟨q, hq⟩ := (hereditary_plannable.consequent _ _ _ hp).exists_resolution
    cases ha with
    | none => exact ⟨_, .finished s, .pass hq hc, successors_pass hc q, mirrors_finished d s, rfl⟩
  | @test condition hc =>
    cases ha with
    | none =>
      refine ⟨_, .finished s, .test s condition, ?_, mirrors_finished d s, rfl⟩
      rw [successors, hc]
      rfl
  | @call name args bound hb hpos =>
    cases ha with
    | none =>
      refine ⟨_, { continuation := none, state := bound.action.effect s, planStep := [bound] }, .call s name args, ?_,
        ⟨rfl, rfl, rfl, .none⟩, rfl⟩
      rw [successors, hb]
      exact if_pos hpos
  | bind var _ ih =>
    obtain ⟨_, rfl, hb⟩ := exists_of_prompt_bound ha
    obtain ⟨q, u, hq, hs, hm, rfl⟩ := ih ((hereditary_plannable.bind _ _).mp hp) hb
    refine ⟨.bind var q, u.bound var, .bind var hq, ?_, hm.bound var, continuation_bound u var⟩
    rw [successors, hs]
    rfl
  | choice hm _ ih =>
    obtain ⟨q, u, hq, hs, ht, hu⟩ := ih (hereditary_plannable.control _ _ hp _ hm) ha
    exact ⟨q, u, .choice hm hq, hs, ht, hu⟩
  | plan _ ih =>
    obtain ⟨q, u, hq, hs, ht, hu⟩ := ih (hereditary_plannable.control _ _ hp _ List.mem_cons_self) ha
    refine ⟨_, u, .plan hq, ?_, ht, hu⟩
    rw [successors]
    exact hs
  | done =>
    cases ha with
    | none => exact ⟨_, _, .done s, rfl, mirrors_finished d s, rfl⟩

/-! ### Whole searches -/

theorem search_of_isFinal (hf : q.isFinal s = .ok true) (limit : Option Nat) (depth : Nat) (trace : List BoundAction) :
    q.search d limit s depth trace = .ok (some ⟨trace, s⟩) := by
  rw [search_eq, hf]

theorem search_of_singleton {u : Successor} (hf : q.isFinal s = .ok false) (hs : q.successors d s = .ok [u])
    (depth : Nat) (trace : List BoundAction) {plan : Plan}
    (h : u.remaining.search d none u.state (depth + 1) (trace ++ u.planStep) = .ok (some plan)) :
    q.search d none s depth trace = .ok (some plan) := by
  rw [search_eq, hf, hs]
  simp only [Plan.exhausted, Plan.first, h]
  rfl

/-- Every completing chain of a program is the one of a prompt resolution, and the search finds it there. -/
theorem Chain.exists_prompt {places : List Nat} {plan : Plan} (h : Chain d p s places plan) (hp : Plannable p) :
    ∃ q, Prompt d s p q ∧
      ∀ depth trace, q.search d none s depth trace = .ok (some ⟨trace ++ plan.trace, plan.state⟩) := by
  induction h with
  | @stop p s hf =>
    obtain ⟨q, hq, hqf⟩ := hp.exists_prompt_isFinal d hf
    refine ⟨q, hq, fun depth trace => ?_⟩
    rw [search_of_isFinal hqf, List.append_nil]
  | @step p s ts t i places plan hf hs hi _ ih =>
    have hl := leads_of_mem_successors d s p hs t (List.mem_of_getElem? hi)
    have hh := hl.hereditary hereditary_plannable hp
    -- how to go on is chosen first, and the transition is resolved so that it leads there
    obtain ⟨after, ha, hsearch⟩ : ∃ after, Option.Rel (Prompt d t.state) t.continuation after ∧
        ∀ depth trace, (after.getD .done).search d none t.state depth trace =
          .ok (some ⟨trace ++ plan.trace, plan.state⟩) := by
      unfold Successor.remaining at ih
      generalize t.continuation = c at ih hh ⊢
      cases c with
      | none =>
        obtain ⟨q, hq, hqs⟩ := ih .done
        cases hq
        exact ⟨none, .none, hqs⟩
      | some c =>
        obtain ⟨q, hq, hqs⟩ := ih (hh c rfl)
        exact ⟨some q, .some hq, hqs⟩
    obtain ⟨q, u, hq, hqs, hm, rfl⟩ := hl.exists_prompt hp ha
    refine ⟨q, hq, fun depth trace => search_of_singleton (hq.isFinal_eq_false hf) hqs depth trace ?_⟩
    rw [hm.state, hm.planStep, ← List.append_assoc]
    exact hsearch (depth + 1) (trace ++ t.planStep)

theorem search_eq_none {depth : Nat} {trace : List BoundAction} (h : p.search d none s depth trace = .ok none) :
    p.isFinal s = .ok false ∧ ∃ ts, p.successors d s = .ok ts ∧
      ∀ t ∈ ts, t.remaining.search d none t.state (depth + 1) (trace ++ t.planStep) = .ok none := by
  rw [search_eq] at h
  split at h
  · cases h
  · cases h
  · rename_i hf
    simp only [Plan.exhausted, Bool.false_eq_true, if_false] at h
    split at h
    · cases h
    · rename_i ts hs
      exact ⟨hf, ts, hs, Plan.first_eq_none h⟩

/-- Where a prompt resolution has a completing chain, the program's search does not go without a plan. -/
theorem Prompt.search_ne_none {places : List Nat} {plan : Plan} (hc : Chain d q s places plan) (h : Prompt d s p q)
    (depth : Nat) (trace : List BoundAction) : p.search d none s depth trace ≠ .ok none := by
  induction hc generalizing p depth trace with
  | stop hqf =>
    intro hn
    obtain ⟨hpf, -⟩ := search_eq_none hn
    exact Bool.false_ne_true (h.resolution.isFinal_eq_true hqf hpf)
  | step _ hs hi _ ih =>
    intro hn
    obtain ⟨-, ts, hts, hall⟩ := search_eq_none hn
    obtain ⟨t, ht, hm⟩ := h.exists_mirror hts hs _ (List.mem_of_getElem? hi)
    exact ih (hm.state ▸ hm.remaining) _ _ (hm.state ▸ hall t ht)

/-- Over a program with choices the search finds a plan just if a prompt resolution has one, and then it is the plan of
a prompt resolution. -/
theorem plan_iff_prompt_resolution (d : Domain) (p : Program) (s : State) (hv : p.validate = .ok ())
    (hk : p.keepsTo (.without [.conc, .either]) = true) {found : Option Plan} (h : p.plan d none s = .ok found) :
    (found.isSome ↔ ∃ q plan, Resolution p q ∧ Prompt d s p q ∧ q.plan d none s = .ok (some plan)) ∧
    ∀ plan, found = some plan → ∃ q, Resolution p q ∧ Prompt d s p q ∧ q.plan d none s = .ok (some plan) := by
  have hp := plannable_of_validate p hv hk
  have found_of : ∀ plan, found = some plan →
      ∃ q, Resolution p q ∧ Prompt d s p q ∧ q.plan d none s = .ok (some plan) := by
    rintro plan rfl
    obtain ⟨places, rest, hc, hr, -, -⟩ := answers_search d none p s 0 [] h
    obtain ⟨q, hq, hs⟩ := hc.exists_prompt hp
    refine ⟨q, hq.resolution, hq, (hs 0 []).trans ?_⟩
    rw [← hr]
  refine ⟨⟨?_, ?_⟩, found_of⟩
  · intro hf
    obtain ⟨plan, rfl⟩ := Option.isSome_iff_exists.mp hf
    obtain ⟨q, hr, hq, hs⟩ := found_of plan rfl
    exact ⟨q, plan, hr, hq, hs⟩
  · rintro ⟨q, plan, -, hq, hs⟩
    obtain ⟨places, rest, hc, -⟩ := answers_search d none q s 0 [] hs
    rw [Option.isSome_iff_ne_none]
    rintro rfl
    exact hq.search_ne_none hc 0 [] h

theorem plan_iff_prompt_resolution_putBeforeNeed :
    putBeforeNeed.validate = .ok () ∧ putBeforeNeed.keepsTo (.without [.conc, .either]) = true ∧
    ∃ q plan, Resolution putBeforeNeed q ∧ Prompt (Domain.standard 100 .delivery) {} putBeforeNeed q ∧
      q.plan (Domain.standard 100 .delivery) none {} = .ok (some plan) ∧ plan.trace.length = 3 := by
  have hv : putBeforeNeed.validate = .ok () := by decide
  have hk : putBeforeNeed.keepsTo (.without [.conc, .either]) = true := by decide
  obtain ⟨plan, hp, hl⟩ : ∃ plan, putBeforeNeed.plan (Domain.standard 100 .delivery) none {} = .ok (some plan) ∧
      plan.trace.length = 3 := Plan.exists_of_map (·.trace.length) (by cbv)
  obtain ⟨q, hr, hq, hs⟩ := (plan_iff_prompt_resolution _ _ _ hv hk hp).2 plan rfl
  exact ⟨hv, hk, q, plan, hr, hq, hs, hl⟩

/-- The choice may stop at once, and then nothing is put where something is needed. -/
def stopOrPut : Program :=
  .block [.control .or [.test (.const (.bool true)), .call "Put" [("value", .const (.bool true))]],
    .call "Need" [("value", .const (.bool true))]]

/-- A choice that may stop is not tried any further, although one of its branches would have led to a plan. -/
theorem no_plan_of_stopOrPut :
    stopOrPut.validate = .ok () ∧ stopOrPut.keepsTo (.without [.conc, .either]) = true ∧
    stopOrPut.plan (Domain.standard 100 .delivery) none {} = .ok none ∧
    ∃ q plan, Resolution stopOrPut q ∧ q.plan (Domain.standard 100 .delivery) none {} = .ok (some plan) := by
  refine ⟨by decide, by decide, by cbv, ?_⟩
  obtain ⟨plan, hp, -⟩ : ∃ plan, (block [.call "Put" [("value", .const (.bool true))],
      .call "Need" [("value", .const (.bool true))]]).plan (Domain.standard 100 .delivery) none {} = .ok (some plan) ∧
      plan.trace.length = 2 := Plan.exists_of_map (·.trace.length) (by cbv)
  refine ⟨_, plan, .cons (.choice ?_ (.call _ _)) (.cons (.call _ _) .nil), hp⟩
  exact List.mem_cons_of_mem _ List.mem_cons_self

end Agenda.Program
