import Mathlib
import Agenda.Proofs.CallCount
import Agenda.Proofs.Origins

/-!
# The script of a program

What a program without conditions, choices, races and plans does can be read off its text. If at most one branch of each
construct says anything in that reading, the updates of a run say the same as the text, and in the same order, whatever
the order in which the branches come to their ends.
-/

namespace Agenda

set_option autoImplicit false

/-! ### Parts of which at most one says anything -/

namespace Parts

variable {α : Type} {ps qs : List (List α)}

/-- At most one of the parts is not empty. -/
def Lone (ps : List (List α)) : Prop := (ps.filter (!·.isEmpty)).length ≤ 1

/-- The same parts in any order, whatever parts are empty. -/
def Same (ps qs : List (List α)) : Prop := (ps.filter (!·.isEmpty)).Perm (qs.filter (!·.isEmpty))

theorem same_of_perm (h : ps.Perm qs) : Same ps qs := h.filter _

theorem Same.symm (h : Same ps qs) : Same qs ps := List.Perm.symm h

theorem Same.trans {rs : List (List α)} (h : Same ps qs) (hq : Same qs rs) : Same ps rs := List.Perm.trans h hq

theorem Same.append {ps' qs' : List (List α)} (h : Same ps qs) (h' : Same ps' qs') : Same (ps ++ ps') (qs ++ qs') := by
  rw [Same, List.filter_append, List.filter_append]
  exact List.Perm.append h h'

theorem Same.append_left (h : Same ps qs) (rs : List (List α)) : Same (rs ++ ps) (rs ++ qs) :=
  (same_of_perm (.refl rs)).append h

theorem Same.cons (h : Same ps qs) (a : List α) : Same (a :: ps) (a :: qs) := h.append_left [a]

theorem same_cons_nil (ps : List (List α)) : Same ps ([] :: ps) := List.Perm.refl _

theorem same_middle (a : List α) (ps qs : List (List α)) : Same (ps ++ a :: qs) (a :: (ps ++ qs)) :=
  same_of_perm List.perm_middle

theorem Same.lone (h : Same ps qs) (hl : Lone qs) : Lone ps := (List.Perm.length_eq h).trans_le hl

theorem Same.flatten_eq (h : Same ps qs) (hl : Lone qs) : ps.flatten = qs.flatten := by
  rw [← List.flatten_filter_not_isEmpty (L := ps), ← List.flatten_filter_not_isEmpty (L := qs)]
  congr 1
  rw [Lone] at hl
  rw [Same] at h
  generalize qs.filter (!·.isEmpty) = qs at h hl
  match qs with
  | [] => exact h.eq_nil
  | [a] => exact List.perm_singleton.mp h
  | a :: b :: rest => exact absurd hl (by simp)

theorem Lone.of_append {a b : List α} (h : Lone ((a ++ b) :: ps)) : Lone (b :: ps) := by
  cases b with
  | nil =>
    refine Nat.le_trans ?_ h
    exact (List.Sublist.filter _ (List.sublist_cons_self (a ++ []) ps)).length_le
  | cons x b =>
    rw [Lone, List.filter_cons_of_pos (by simp)] at h ⊢
    exact h

theorem lone_of_pairwise (h : ps.Pairwise fun a b => a = [] ∨ b = []) : Lone ps := by
  have hf := h.filter (!·.isEmpty)
  have hn : ∀ x ∈ ps.filter (!·.isEmpty), x ≠ [] := by
    intro x hx
    simpa using (List.mem_filter.mp hx).2
  rw [Lone]
  generalize ps.filter (!·.isEmpty) = qs at hf hn
  match qs with
  | [] => exact Nat.zero_le 1
  | [a] => exact Nat.le_refl 1
  | a :: b :: rest =>
    rcases (List.pairwise_cons.mp hf).1 b List.mem_cons_self with rfl | rfl
    · exact absurd rfl (hn [] List.mem_cons_self)
    · exact absurd rfl (hn [] (List.mem_cons_of_mem a List.mem_cons_self))

end Parts

/-- A way to read what programs do: each call says something, and so does each action. All bindings say the same. -/
structure Reading (α : Type) where
  call : String → Fields Expr → List α
  act : BoundAction → List α
  bound : List α

namespace Reading

variable {α : Type}

/-- An action says what the call of the vocabulary says that it stands for. -/
def Fits (r : Reading α) (d : Domain) (v : Vocabulary) : Prop :=
  ∀ s name args bound, v.call name args = true → d.resolve s name args = .ok bound → r.act bound = r.call name args

def update (r : Reading α) : Update → List α
  | .effect bound => r.act bound
  | .bind _ _ => r.bound

def updates (r : Reading α) (us : List Update) : List α := us.flatMap r.update

theorem updates_append (r : Reading α) (us vs : List Update) : r.updates (us ++ vs) = r.updates us ++ r.updates vs :=
  List.flatMap_append

end Reading

namespace Program

variable {α : Type}

mutual
def script (r : Reading α) : Program → List α
  | .block statements => scripts r statements
  | .branch _ consequent none => consequent.script r
  | .branch _ consequent (some alternate) => consequent.script r ++ alternate.script r
  | .test _ => []
  | .call name args => r.call name args
  | .bind _ init => init.script r ++ r.bound
  | .control _ branches => scripts r branches
  | .done => []
  | .blocked => []
termination_by structural p => p

def scripts (r : Reading α) : List Program → List α
  | [] => []
  | p :: rest => p.script r ++ scripts r rest
termination_by structural ps => ps
end

def scriptOption (r : Reading α) : Option Program → List α
  | none => []
  | some p => p.script r

mutual
/-- Of the branches of each construct in the program, at most one says anything. -/
def apart (r : Reading α) : Program → Prop
  | .block statements => allApart r statements
  | .branch _ consequent none => consequent.apart r
  | .branch _ consequent (some alternate) => consequent.apart r ∧ alternate.apart r
  | .bind _ init => init.apart r
  | .control _ branches => Parts.Lone (branches.map (script r)) ∧ allApart r branches
  | .test _ => True
  | .call _ _ => True
  | .done => True
  | .blocked => True
termination_by structural p => p

def allApart (r : Reading α) : List Program → Prop
  | [] => True
  | p :: rest => p.apart r ∧ allApart r rest
termination_by structural ps => ps
end

variable (r : Reading α)

theorem scripts_eq (ps : List Program) : scripts r ps = (ps.map (script r)).flatten := by
  induction ps with
  | nil => rfl
  | cons p rest ih => rw [scripts, ih, List.map_cons, List.flatten_cons]

theorem allApart_iff (ps : List Program) : allApart r ps ↔ ∀ p ∈ ps, p.apart r := by
  induction ps with
  | nil => simp [allApart]
  | cons p rest ih => simp [allApart, ih]

theorem apart_control_iff (kind : Control) (ps : List Program) :
    (control kind ps).apart r ↔ Parts.Lone (ps.map (script r)) ∧ ∀ p ∈ ps, p.apart r := by
  rw [apart, allApart_iff]

theorem hereditary_apart : Hereditary (apart r) where
  block ps := by rw [apart, allApart_iff]
  bind var init := by rw [apart]
  consequent _ _ alternate h := by
    cases alternate with
    | none => rwa [apart] at h
    | some q =>
      rw [apart] at h
      exact h.1
  alternate _ _ _ h := by
    rw [apart] at h
    exact h.2
  control kind ps h := ((apart_control_iff r kind ps).mp h).2

theorem script_of_isMark {p : Program} (h : p.isMark = true) : p.script r = [] := by
  cases p with
  | done => rfl
  | blocked => rfl
  | _ => cases h

mutual
theorem script_of_isFinal {v : Vocabulary} (hv : v.Unconditional) {s : State} :
    ∀ p : Program, p.keepsTo v = true → p.isFinal s = .ok true → p.script r = []
  | .block statements, hp, hf => by
    rw [keepsTo] at hp
    rw [isFinal] at hf
    rw [script]
    exact scripts_of_allFinal hv statements hp hf
  | .branch condition p alternate, hp, _ => by
    rw [hv.not_branch] at hp
    cases hp
  | .test _, _, _ => rfl
  | .call _ _, _, hf => by
    rw [isFinal] at hf
    cases hf
  | .bind _ _, _, hf => by
    rw [isFinal] at hf
    cases hf
  | .control kind branches, hp, hf => by
    rw [keepsTo, Bool.and_eq_true] at hp
    obtain rfl := hv.control kind hp.1
    rw [isFinal] at hf
    rw [script]
    exact scripts_of_allFinal hv branches hp.2 hf
  | .done, _, _ => rfl
  | .blocked, _, _ => rfl

theorem scripts_of_allFinal {v : Vocabulary} (hv : v.Unconditional) {s : State} :
    ∀ ps : List Program, keepToAll v ps = true → allFinal s ps = .ok true → scripts r ps = []
  | [], _, _ => rfl
  | p :: rest, hp, hf => by
    rw [keepToAll, Bool.and_eq_true] at hp
    rw [allFinal] at hf
    obtain ⟨final, hq, hf⟩ := Except.exists_of_bind_eq_ok hf
    cases final with
    | false => cases hf
    | true => rw [scripts, script_of_isFinal hv p hp.1 hq, scripts_of_allFinal hv rest hp.2 hf, List.append_nil]
end

theorem script_of_startsFinal {v : Vocabulary} (hv : v.Unconditional) {s : State} {p : Program}
    (hp : p.keepsTo v = true) (hf : p.startsFinal s = true) : p.script r = [] := by
  unfold startsFinal at hf
  split at hf
  · rename_i final h
    rw [hf] at h
    exact script_of_isFinal r hv p hp h
  · cases hf

theorem map_script_markFinal {v : Vocabulary} (hv : v.Unconditional) (s : State) {ps : List Program}
    (hp : ∀ p ∈ ps, p.keepsTo v = true) : (markFinal s ps).map (script r) = ps.map (script r) := by
  rw [markFinal, List.map_map]
  apply List.map_congr_left
  intro p hm
  rw [Function.comp_apply]
  split
  · rename_i hf
    exact (script_of_startsFinal r hv (hp p hm) hf).symm
  · rfl

/-- A slot that waits says nothing, so what comes into it is said besides the others. -/
theorem same_set {ps : List Program} {i : Nat} (h : ps[i]? = some .blocked) (p : Program) :
    Parts.Same ((ps.set i p).map (script r)) (p.script r :: ps.map (script r)) := by
  induction ps generalizing i with
  | nil => cases h
  | cons q rest ih =>
    cases i with
    | zero =>
      cases h
      exact (Parts.same_cons_nil _).cons _
    | succ i =>
      rw [List.set_cons_succ, List.map_cons, List.map_cons]
      exact ((ih h).cons _).trans (Parts.same_of_perm (.swap _ _ _))

end Program

def Frame.script {α : Type} (r : Reading α) : Frame → List α
  | .before rest => Program.scripts r rest
  | .bind _ => r.bound

abbrev Frame.scripts {α : Type} (r : Reading α) (frames : List Frame) : List α := frames.flatMap (script r)

def Successor.script {α : Type} (r : Reading α) (t : Successor) : List α :=
  r.updates t.updates ++ Program.scriptOption r t.continuation

theorem Successor.script_apply {α : Type} (r : Reading α) (t : Successor) (f : Frame) :
    (f.apply t).script r = t.script r ++ f.script r := by
  obtain ⟨continuation, state, result, planStep, updates⟩ := t
  cases f with
  | before rest =>
    cases continuation <;> cases rest <;>
      simp [Frame.apply, before, resequence, script, Frame.script, Program.scriptOption, Program.script,
        Program.scripts]
  | bind var =>
    cases continuation with
    | none => simp [Frame.apply, bound, script, Frame.script, Program.scriptOption, Reading.updates, Reading.update]
    | some q => simp [Frame.apply, bound, script, Frame.script, Program.scriptOption, Program.script]

/-- Whether a binding around a statement comes about at once or is left for later, it is said after the statement. -/
theorem Frame.script_resume {α : Type} (r : Reading α) (frames : List Frame) (o : Outcome) :
    (resume frames o).script r = r.updates o.updates ++ scripts r frames := by
  induction frames using List.reverseRecOn with
  | nil => simp [resume, Successor.script, Program.scriptOption]
  | append_singleton frames f ih =>
    rw [resume_concat, Successor.script_apply, ih]
    simp

def Completion.script {α : Type} (r : Reading α) (c : Completion) : List α :=
  match c.outcome with
  | .ok o => r.updates o.updates ++ Frame.scripts r c.frames
  | .error _ => []

namespace Work

variable {α : Type}

mutual
/-- What a work says: what it has done and what it still has to do. -/
def script (r : Reading α) : Work → List α
  | .settled (.ok o) => r.updates o.updates
  | .settled (.error _) => []
  | .acting e => r.updates e.updates ++ (r.act e.bound ++ e.trace.flatMap r.act)
  | .group s => r.updates s.applied ++
      (s.batch.map (Completion.script r) ++ (flightScripts r s.queue ++ flightScripts r s.waiting) ++
        s.slots.map (Program.script r)).flatten
termination_by structural w => w

def flightScripts (r : Reading α) : List (Flight Work) → List (List α)
  | [] => []
  | f :: rest => (f.work.script r ++ Frame.scripts r f.frames) :: flightScripts r rest
termination_by structural fs => fs
end

variable (r : Reading α)

abbrev scriptOfFlight (f : Flight Work) : List α := f.work.script r ++ Frame.scripts r f.frames

theorem flightScripts_eq (fs : List (Flight Work)) : flightScripts r fs = fs.map (scriptOfFlight r) := by
  induction fs with
  | nil => rfl
  | cons f rest ih => rw [flightScripts, ih, List.map_cons]

end Work

/-- What the branches of a construct say: those that came to their ends, those under way and those in the slots. -/
def Scheduler.parts {α : Type} (r : Reading α) (s : Scheduler Work) : List (List α) :=
  s.batch.map (Completion.script r) ++ s.flights.map (Work.scriptOfFlight r) ++ s.slots.map (Program.script r)

namespace Work

variable {α : Type} {r : Reading α}

theorem script_group (r : Reading α) (s : Scheduler Work) :
    (group s).script r = r.updates s.applied ++ (s.parts r).flatten := by
  rw [script, flightScripts_eq, flightScripts_eq, Scheduler.parts, Scheduler.flights, List.map_append]

/-- Of the branches of each construct in the work, at most one says anything. -/
inductive Apart (r : Reading α) : Work → Prop
  | plain {w : Work} : w.isPlain = true → Apart r w
  | group {s : Scheduler Work} : Parts.Lone (s.parts r) → (∀ f ∈ s.flights, Apart r f.work) → Apart r (.group s)

theorem Apart.inv {s : Scheduler Work} (h : Apart r (.group s)) :
    Parts.Lone (s.parts r) ∧ ∀ f ∈ s.flights, f.work.Apart r := by
  cases h with
  | plain h => cases h
  | group hs hf => exact ⟨hs, hf⟩

theorem Stirs.script_eq {w w' : Work} (h : Stirs w w') (hw : w.Apart r) : w'.Apart r ∧ w'.script r = w.script r := by
  induction h with
  | settled outcome => exact ⟨hw, rfl⟩
  | acting e timer postponed _ => exact ⟨.plain rfl, rfl⟩
  | @group s queue waiting attention fs he hp _ ih =>
    obtain ⟨hl, hf⟩ := hw.inv
    have hx : ∀ x ∈ fs, x.1 ∈ s.flights := fun x hx => he ▸ List.mem_map_of_mem hx
    have hs : Parts.Same (Scheduler.parts r { s with queue, waiting, attention }) (s.parts r) := by
      refine Parts.same_of_perm (((map_stirred_perm (scriptOfFlight r) he hp ?_).append_left _).append_right _)
      intro x hm
      rw [scriptOfFlight, (ih x hm (hf x.1 (hx x hm))).2]
    constructor
    · refine .group (hs.lone hl) ?_
      intro f hm
      obtain ⟨x, hx, h₀, rfl⟩ := exists_of_mem_stirred he hp hm
      exact (ih x hx (hf x.1 h₀)).1
    · rw [script_group, script_group, hs.flatten_eq hl]

theorem script_perform {scopes : List Nat} {updates : List Update} {trace : List BoundAction} {s : State}
    {bound : BoundAction} {σ : World} (h : (perform scopes updates trace s bound σ).1.Whole) :
    (perform scopes updates trace s bound σ).1.script r =
      r.updates updates ++ (r.act bound ++ trace.flatMap r.act) := by
  obtain ⟨e, he⟩ | ⟨-, he⟩ := perform_cases scopes updates trace s bound σ
  · rw [he] at h
    exact absurd h (not_whole_error e)
  · rw [he, script]

end Work

theorem Execution.script_complete {α : Type} {r : Reading α} {e : Execution} {σ : World} (h : (e.complete σ).1.Whole) :
    (e.complete σ).1.script r = (Work.acting e).script r := by
  have hu : r.updates (e.updates ++ [.effect e.bound]) = r.updates e.updates ++ r.act e.bound := by
    simp [Reading.updates, Reading.update]
  rw [Work.script]
  obtain ⟨message, he⟩ | ⟨result, ht, he⟩ | ⟨bound, trace, ht, he⟩ := e.complete_cases σ
  · rw [he] at h
    exact absurd h (Work.not_whole_error _)
  · rw [he, ht, Work.script, hu, List.flatMap_nil, List.append_nil]
  · rw [he] at h ⊢
    rw [Work.script_perform h, hu, ht, List.flatMap_cons, List.append_assoc]

theorem Launch.script_group {α : Type} {r : Reading α} {rd : Round} {ps : List (List α)} (hl : Parts.Lone ps)
    (hf : ∀ f ∈ rd.flights, f.work.Apart r)
    (hs : Parts.Same (rd.flights.map (Work.scriptOfFlight r) ++ rd.slots.map (Program.script r)) ps)
    (kind : Control) (s : State) (scopes : List Nat) (σ : World) :
    (group kind s scopes σ rd).work.Apart r ∧
      (group kind s scopes σ rd).work.script r ++ Frame.scripts r (group kind s scopes σ rd).frames = ps.flatten := by
  rw [group]
  constructor
  · refine .group ?_ ?_
    · rw [Scheduler.parts, Scheduler.flights, List.append_nil]
      exact hs.lone hl
    · rw [Scheduler.flights, List.append_nil]
      exact hf
  · rw [Work.script_group, Scheduler.parts, Scheduler.flights, List.append_nil]
    exact (List.append_nil _).trans (hs.flatten_eq hl)

theorem Program.script_cases {α : Type} {r : Reading α} {c : Setting} {v : Vocabulary} (hv : v.Unconditional)
    (hr : r.Fits c.domain v) (s : State) :
    DispatchCases c s
      (fun p _ _ l => p.keepsTo v = true → p.apart r → l.work.Whole →
        l.work.Apart r ∧ l.work.script r ++ Frame.scripts r l.frames = p.script r)
      (fun ps _ final _ _ _ rd => (∀ p ∈ ps, p.keepsTo v = true) → (∀ p ∈ ps, p.isMark = false → p.apart r) →
        (∀ p ∈ ps, final p = true → p.script r = []) → (∀ f ∈ rd.flights, f.work.Whole) →
        (∀ f ∈ rd.flights, f.work.Apart r) ∧
          Parts.Same (rd.flights.map (Work.scriptOfFlight r) ++ rd.slots.map (script r)) (ps.map (script r))) where
  failed _ _ _ e _ _ _ h := absurd h (Work.not_whole_error e)
  finished p _ σ h hp _ _ := by
    refine ⟨.plain rfl, ?_⟩
    cases h with
    | empty => rfl
    | done => rfl
    | test _ => rfl
    | pass q _ =>
      rw [hv.not_branch] at hp
      cases hp
  call name args scopes σ bound hb hp _ h := by
    refine ⟨.plain (Work.isPlain_perform scopes [] [] s bound σ), ?_⟩
    rw [keepsTo] at hp
    rw [Work.script_perform h, hr s name args bound hp hb, script]
    simp [Reading.updates]
  plan body rest _ _ _ _ hp _ _ := by
    rw [keepsTo_control_iff] at hp
    cases hv.control .plan hp.1
  enter _ _ _ _ _ he _ hp _ _ := by
    cases he with
    | consequent _ _ _ =>
      rw [hv.not_branch] at hp
      cases hp
    | alternate _ _ _ =>
      rw [hv.not_branch] at hp
      cases hp
    | first p rest =>
      rw [keepsTo_control_iff] at hp
      cases hv.control .or hp.1
  skip p rest _ _ _ hf h hp ha hw := by
    rw [keepsTo_block_iff, List.forall_mem_cons] at hp
    rw [(hereditary_apart r).block, List.forall_mem_cons] at ha
    have hs := h ((keepsTo_block_iff v rest).mpr hp.2) (((hereditary_apart r).block rest).mpr ha.2) hw
    rwa [script, scripts, script_of_isFinal r hv p hp.1 hf, List.nil_append, ← script]
  before p rest _ _ l _ h hp ha hw := by
    rw [keepsTo_block_iff, List.forall_mem_cons] at hp
    rw [(hereditary_apart r).block, List.forall_mem_cons] at ha
    obtain ⟨hl, hs⟩ := h hp.1 ha.1 hw
    refine ⟨hl, ?_⟩
    rw [script, scripts, ← hs]
    simp [Launch.within, Frame.script]
  bind var init _ _ l h hp ha hw := by
    obtain ⟨hl, hs⟩ := h (by rwa [keepsTo] at hp) (((hereditary_apart r).bind var init).mp ha) hw
    refine ⟨hl, ?_⟩
    rw [script, ← hs]
    simp [Launch.within, Frame.script]
  decided kind branches scopes σ _ _ _ _ hp ha _ := by
    obtain ⟨-, hb⟩ := (keepsTo_control_iff v kind branches).mp hp
    obtain ⟨hl, -⟩ := (apart_control_iff r kind branches).mp ha
    rw [script, scripts_eq]
    refine Launch.script_group hl (List.forall_mem_nil _) ?_ kind s scopes σ
    rw [List.map_nil, List.nil_append, map_script_markFinal r hv s hb]
    exact Parts.same_of_perm (.refl _)
  group kind branches scopes σ rd _ _ _ _ h hp ha hw := by
    obtain ⟨-, hb⟩ := (keepsTo_control_iff v kind branches).mp hp
    obtain ⟨hl, hba⟩ := (apart_control_iff r kind branches).mp ha
    obtain ⟨hf, hs⟩ := h hb (fun p hp _ => hba p hp) (fun p hp hf => script_of_startsFinal r hv (hb p hp) hf)
      fun f hf => hw.inv.2 f (List.mem_append_left _ hf)
    rw [script, scripts_eq]
    exact Launch.script_group hl hf hs kind s scopes σ
  nil _ _ _ _ _ _ _ _ _ := ⟨List.forall_mem_nil _, Parts.same_of_perm (.refl _)⟩
  done p rest _ _ _ _ _ rd hf h hp ha hz hw := by
    rw [List.forall_mem_cons] at hp ha hz
    obtain ⟨hl, hs⟩ := h hp.2 ha.2 hz.2 hw
    refine ⟨hl, ?_⟩
    rw [List.map_cons, hz.1 hf]
    exact (Parts.same_middle [] _ _).trans (hs.cons [])
  mark p rest _ _ _ _ _ rd _ _ h hp ha hz hw := by
    rw [List.forall_mem_cons] at hp ha hz
    obtain ⟨hl, hs⟩ := h hp.2 ha.2 hz.2 hw
    refine ⟨hl, ?_⟩
    exact (Parts.same_middle (p.script r) _ _).trans (hs.cons _)
  start p rest _ _ _ _ _ l rd _ hm hl h hp ha hz hw := by
    rw [List.forall_mem_cons] at hp ha hz
    obtain ⟨hw, hws⟩ := List.forall_mem_cons.mp hw
    obtain ⟨hl, he⟩ := hl hp.1 (ha.1 hm) hw
    obtain ⟨hf, hs⟩ := h hp.2 ha.2 hz.2 hws
    refine ⟨List.forall_mem_cons.mpr ⟨hl, hf⟩, ?_⟩
    rw [List.map_cons, ← he]
    exact (((Parts.same_middle [] _ _).trans (Parts.same_cons_nil _).symm).trans hs).cons _

namespace Scheduler

variable {α : Type} {r : Reading α} {v : Vocabulary} {s t : Scheduler Work}

theorem script_nextSlot (r : Reading α) (hv : v.Unconditional) {s : State} {continuation : Option Program}
    {next : Program} (hc : ∀ p, continuation = some p → p.keepsTo v = true)
    (h : nextSlot s continuation = .ok next) : next.script r = Program.scriptOption r continuation := by
  cases continuation with
  | none =>
    cases h
    rfl
  | some p =>
    obtain ⟨final, hf, h⟩ := Except.exists_of_bind_eq_ok h
    cases final with
    | true =>
      cases h
      exact (Program.script_of_isFinal r hv p (hc p rfl) hf).symm
    | false =>
      cases h
      rfl

/-- What a branch has done goes to the updates of the construct, and what it still has to do into its slot. -/
theorem script_complete (hv : v.Unconditional) {c : Completion} (hb : s.slots[c.slot]? = some .blocked)
    (hf : ∀ f ∈ c.frames, f.KeepsTo v) (h : s.complete c = .ok t) :
    ∃ did todo, c.script r = did ++ todo ∧ r.updates t.applied = r.updates s.applied ++ did ∧
      Parts.Same (t.slots.map (Program.script r)) (todo :: s.slots.map (Program.script r)) := by
  obtain ⟨o, next, ho, hn, rfl⟩ := complete_eq_ok h
  refine ⟨r.updates (Frame.resume c.frames o).updates, next.script r, ?_, ?_, Program.same_set r hb next⟩
  · rw [script_nextSlot r hv (Frame.keepsTo_residual hf) hn, ← Frame.continuation_resume c.frames o,
      ← Successor.script, Frame.script_resume, Completion.script, ho]
  · exact r.updates_append _ _

/-- A construct other than a race folds every transition that came to its end. Since at most one branch says anything,
the order in which they are folded cannot be told from the updates. -/
theorem script_foldAll (hv : v.Unconditional) {cs : List Completion} {pending : List Nat} {others : List (List α)}
    (hk : s.kind ≠ .either) (hm : Marks s.slots (cs.map (·.slot) ++ pending))
    (hf : ∀ c ∈ cs, ∀ f ∈ c.frames, f.KeepsTo v)
    (hl : Parts.Lone (cs.map (Completion.script r) ++ (others ++ s.slots.map (Program.script r))))
    (h : s.foldAll cs = .ok t) :
    Parts.Lone (others ++ t.slots.map (Program.script r)) ∧
      r.updates t.applied ++ (others ++ t.slots.map (Program.script r)).flatten = r.updates s.applied ++
        (cs.map (Completion.script r) ++ (others ++ s.slots.map (Program.script r))).flatten := by
  induction cs generalizing s with
  | nil =>
    cases h
    exact ⟨hl, rfl⟩
  | cons c rest ih =>
    obtain ⟨u, hu, hk', hm', h⟩ := foldAll_cons_eq_ok hk hm h
    obtain ⟨hc, hf⟩ := List.forall_mem_cons.mp hf
    obtain ⟨did, todo, he, ha, hs⟩ := script_complete (r := r) hv (hm.blocked c.slot List.mem_cons_self) hc hu
    have hs : Parts.Same (rest.map (Completion.script r) ++ (others ++ u.slots.map (Program.script r)))
        (todo :: (rest.map (Completion.script r) ++ (others ++ s.slots.map (Program.script r)))) := by
      refine ((hs.append_left others).append_left _).trans ?_
      refine ((Parts.same_middle todo _ _).append_left _).trans ?_
      exact Parts.same_middle todo _ _
    rw [List.map_cons, List.cons_append, he] at hl ⊢
    have hl' := hl.of_append
    obtain ⟨hl, hi⟩ := ih hk' hm' hf (hs.lone hl') h
    refine ⟨hl, ?_⟩
    rw [hi, hs.flatten_eq hl', ha, List.flatten_cons, List.flatten_cons, List.append_assoc, List.append_assoc]

theorem script_foldBatch (hv : v.Unconditional) (hk : s.KeepsTo v) (hs : s.Tabled) (hl : Parts.Lone (s.parts r))
    (h : s.foldBatch = .ok t) :
    Parts.Lone (t.parts r) ∧ (Work.group t).script r = (Work.group s).script r := by
  have hp := List.mergeSort_perm s.batch fun a b => decide (a.seq ≤ b.seq)
  have hm : Marks s.slots ((s.batch.mergeSort fun a b => decide (a.seq ≤ b.seq)).map (·.slot) ++
      s.flights.map (·.slot)) := hs.perm (((hp.map _).append_right _).trans List.perm_append_comm)
  have hq : Parts.Same ((s.batch.mergeSort fun a b => decide (a.seq ≤ b.seq)).map (Completion.script r) ++
      (s.flights.map (Work.scriptOfFlight r) ++ s.slots.map (Program.script r))) (s.parts r) := by
    rw [parts, List.append_assoc]
    exact Parts.same_of_perm ((hp.map _).append_right _)
  obtain ⟨hl', he⟩ := script_foldAll (s := { s with batch := [] }) hv (hk.not_race hv.no_race) hm
    (fun c hc => hk.batch c (hp.mem_iff.mp hc)) (hq.lone hl) h
  obtain ⟨hf, hb⟩ := flights_foldBatch h
  have ht : t.parts r = s.flights.map (Work.scriptOfFlight r) ++ t.slots.map (Program.script r) := by
    rw [parts, hf, hb, List.map_nil, List.nil_append]
  refine ⟨ht ▸ hl', ?_⟩
  rw [Work.script_group, Work.script_group, ht, he, hq.flatten_eq hl]

theorem script_of_isFinished (hk : s.kind ≠ .either) (hs : s.Tabled) (hf : s.isFinished = true) :
    (Work.group s).script r = r.updates s.applied := by
  obtain ⟨hn, hb⟩ := hs.nothing_pending hk hf
  rw [isFinished, slotsFinished_of_ne_either hk, List.all_eq_true] at hf
  have hd : (s.slots.map (Program.script r)).flatten = [] := by
    rw [List.flatten_eq_nil_iff]
    intro l hl
    obtain ⟨p, hp, rfl⟩ := List.mem_map.mp hl
    exact Program.script_of_isMark r (Program.isMark_of_isDone (hf p hp))
  rw [Work.script_group, parts, hn, hb, List.map_nil, List.map_nil, List.nil_append, List.nil_append, hd,
    List.append_nil]

end Scheduler

namespace Work

variable {α : Type} {r : Reading α} {c : Setting} {v : Vocabulary}

theorem script_dispatchLive (hv : v.Unconditional) (hr : r.Fits c.domain v) {s : Scheduler Work} {σ : World}
    (hk : s.KeepsTo v) (hp : ∀ p ∈ s.slots, p.isMark = false → p.apart r) (ha : (group s).Apart r)
    (h : (s.dispatchLive c σ).1.Whole) :
    (s.dispatchLive c σ).1.Apart r ∧ (s.dispatchLive c σ).1.script r = (group s).script r := by
  obtain ⟨hl, hf⟩ := ha.inv
  obtain ⟨hrf, hrs⟩ := (Program.script_cases hv hr s.state).round s.slots (s.scope :: s.outer) (fun _ => false) 0
    s.nextSeq σ hk.slots hp nofun fun f hm => h.inv.2 f (List.mem_append_left _ (List.mem_append_right _ hm))
  rw [Scheduler.dispatchLive]
  generalize Program.dispatchSlots c s.state (s.scope :: s.outer) (fun _ => false) 0 s.nextSeq s.slots σ = rd at hrf hrs
  have hs : Parts.Same (Scheduler.parts r { s with
      slots := rd.slots
      queue := s.queue ++ rd.flights
      nextSeq := s.nextSeq + rd.flights.length
      attention := s.attention.renewed }) (s.parts r) := by
    refine (Parts.same_of_perm ?_).trans (hrs.append_left (s.batch.map (Completion.script r) ++
      s.flights.map (scriptOfFlight r)))
    simp only [Scheduler.parts, Scheduler.flights, List.map_append, List.append_assoc]
    exact ((List.perm_append_comm_assoc _ _ _).append_left _).append_left _
  refine ⟨.group (hs.lone hl) ?_, ?_⟩
  · intro f hm
    rcases List.mem_append.mp hm with hm | hm
    · rcases List.mem_append.mp hm with hm | hm
      · exact hf f (List.mem_append_left _ hm)
      · exact hrf f hm
    · exact hf f (List.mem_append_right _ hm)
  · rw [script_group, script_group, hs.flatten_eq hl]

/-- One step of a work without conditions whose branches are apart: unless something fails, it says the same after. -/
theorem Moves.script_eq {w w' : Work} {σ τ : World} (h : Moves c w σ w' τ) (hv : v.Unconditional)
    (hr : r.Fits c.domain v) (hk : w.KeepsTo c.domain v) (ht : w.Tabled) (hp : w.Rooted c (Program.apart r))
    (ha : w.Apart r) (hw : w'.Whole) : w'.Apart r ∧ w'.script r = w.script r := by
  induction h with
  | @act e σ τ w h =>
    refine ⟨.plain (Execution.isPlain_advance h), ?_⟩
    obtain ⟨allowance, he⟩ | ⟨timer, postponed, rfl, -⟩ := Execution.advance_ends_or_stays h
    · have hc := Execution.script_complete (r := r) (e := e) (σ := { σ with allowance })
      rw [← he] at hc
      exact hc hw
    · rfl
  | @finish s σ _ hf =>
    refine ⟨.plain rfl, ?_⟩
    rw [Scheduler.script_of_isFinished (hk.inv.1.not_race hv.no_race) ht.inv.1 hf]
    rfl
  | starve _ _ _ => exact absurd hw (not_whole_error _)
  | rest _ _ _ => exact (stirs_look _ _).script_eq ha
  | fail _ _ _ => exact absurd hw (not_whole_error _)
  | @decide s t σ short _ _ hf hd =>
    refine ⟨.plain rfl, ?_⟩
    rw [← (Scheduler.script_foldBatch hv hk.inv.1 ht.inv.1 ha.inv.1 hf).2, Scheduler.script_of_isFinished
      ((hk.inv.1.foldBatch hf).not_race hv.no_race) (ht.inv.1.foldBatch hf) hd]
    rfl
  | @go s t σ short _ _ hf hd =>
    obtain ⟨hl, he⟩ := Scheduler.script_foldBatch hv hk.inv.1 ht.inv.1 ha.inv.1 hf
    have hg : (group t).Apart r := by
      refine .group hl ?_
      rw [(Scheduler.flights_foldBatch hf).1]
      exact ha.inv.2
    rw [← he]
    exact script_dispatchLive hv hr (hk.inv.1.foldBatch hf)
      (hp.inv.1.slots_foldBatch (Program.hereditary_apart r) hf) hg hw
  | @follow s f rest σ τ w hs _ ih =>
    obtain ⟨hl, hf⟩ := ha.inv
    have hm := hs.mem_flights
    obtain ⟨hfa, he⟩ := ih (hk.inv.2 f hm) (ht.inv.2 f hm) (hp.inv.2 f hm) (hf f hm) (hw.inv.2 _ List.mem_cons_self)
    have hparts : (s.follow f rest w).parts r = s.parts r := by
      simp only [Scheduler.parts, Scheduler.follow, Scheduler.flights, hs.queue, List.cons_append, List.map_cons,
        scriptOfFlight, he]
    refine ⟨.group (hparts ▸ hl) ?_, ?_⟩
    · intro g hg
      rcases hs.mem_flights_follow hg with rfl | hg
      · exact hfa
      · exact hf g hg
    · rw [script_group, script_group, hparts]
      rfl
  | @receive s f rest σ hs _ =>
    obtain ⟨outcome, ho, he⟩ | hst := receive_cases hs.queue
    · rw [he] at hw ⊢
      obtain ⟨hl, hf⟩ := ha.inv
      obtain ⟨o, rfl⟩ := hw.inv.1 ⟨f.slot, f.seq, f.frames, outcome⟩ (List.mem_append_right _ List.mem_cons_self)
      -- the end of the flight in front moves to the batch
      have hparts : Scheduler.parts r { s with
          queue := rest
          batch := s.batch ++ [⟨f.slot, f.seq, f.frames, .ok o⟩]
          attention := s.attention.renewed } = s.parts r := by
        simp only [Scheduler.parts, Scheduler.flights, hs.queue, List.cons_append, List.map_cons, List.map_append,
          List.map_nil, List.append_assoc, List.nil_append, Completion.script, scriptOfFlight, ho, script]
      refine ⟨.group (hparts ▸ hl) fun g hg => hf g (hs.mem_flights_of_mem_rest hg), ?_⟩
      rw [script_group, script_group, hparts]
    · exact hst.script_eq ha

end Work

namespace Machine

variable {α : Type} {r : Reading α} {c : Setting} {v : Vocabulary}

/-- As long as nothing has failed, the branches are apart, and what the work says with what is around it is this. -/
def Tells (r : Reading α) (around total : List α) (m : Machine) : Prop :=
  m.main.Whole → m.main.Apart r ∧ m.main.script r ++ around = total

theorem Tells.stirs {around total : List α} {m : Machine} (h : m.Tells r around total) {w : Work}
    (hw : Work.Stirs m.main w) (σ : World) : Tells r around total ⟨w, σ⟩ := by
  intro hh
  obtain ⟨ha, ht⟩ := h (hw.whole_iff.mp hh)
  obtain ⟨ha, he⟩ := hw.script_eq ha
  exact ⟨ha, by rw [he, ht]⟩

/-- A machine without conditions, all of whose constructs stem from programs that are apart. -/
structure OnScript (c : Setting) (v : Vocabulary) (r : Reading α) (since : Multiset BoundAction) (around total : List α)
    (m : Machine) : Prop where
  inOrder : m.InOrder c v since
  rooted : ∀ w ∈ m.works, w.Rooted c (Program.apart r)
  tells : m.Tells r around total

theorem Steps.onScript {since : Multiset BoundAction} {around total : List α} {m m' : Machine} (h : Steps c m m')
    (hv : v.Unconditional) (hr : r.Fits c.domain v) (hm : m.OnScript c v r since around total) :
    m'.OnScript c v r since around total := by
  refine ⟨h.inOrder hv.no_race hm.inOrder, h.lasting (Work.lasting_rooted (Program.hereditary_apart r) c) hm.rooted, ?_⟩
  cases h with
  | move h =>
    intro hw
    obtain ⟨ha, ht⟩ := hm.tells (h.balances hv.no_race hm.inOrder.vocabulary.main hm.inOrder.tabled hw).1
    obtain ⟨ha, he⟩ := h.script_eq hv hr hm.inOrder.vocabulary.main hm.inOrder.tabled (hm.rooted _ List.mem_cons_self)
      ha hw
    exact ⟨ha, by rw [he, ht]⟩
  | takeUp _ _ => exact hm.tells.stirs (Work.stirs_takeUp _) _
  | wake _ _ _ => exact hm.tells.stirs (Work.stirs_wake _) _
  | detached _ _ _ => exact hm.tells
  | ring _ _ => exact hm.tells.stirs (Work.stirs_ring _ _) _

end Machine

namespace Program

variable {α : Type} {r : Reading α} {c : Setting} {v : Vocabulary} {p : Program} {s s' : State} {σ : World}

theorem offers_transition (hv : v.control .either = false) (hp : p.keepsTo v = true) (hσ : σ.KeepsTo c.domain v)
    (hd : σ.detached = []) {t : Successor} (h : (p.transition c s σ).1 = .ok t) :
    ∀ b ∈ Update.effects t.updates, c.domain.Offers v b := by
  obtain ⟨hk, -, -, ha⟩ := effects_transition hv hp hσ hd h
  intro b hb
  apply hk.dispatched b
  rw [← Multiset.mem_coe, ha, Multiset.mem_add]
  exact .inr hb

theorem onScript_started (hv : v.Unconditional) (hr : r.Fits c.domain v) (hp : p.keepsTo v = true) (ha : p.apart r)
    (hσ : σ.KeepsTo c.domain v) (hd : σ.detached = []) (s : State) :
    (p.started c s σ).OnScript c v r ↑σ.dispatched (Frame.scripts r (p.dispatch c s [] σ).frames) (p.script r) := by
  refine ⟨inOrder_started hp hσ hd s, ?_, fun hw => (script_cases hv hr s).dispatch p [] σ hp ha hw⟩
  apply lasting_started ((rooted_cases (hereditary_apart r) c s).dispatch p [] σ ha).work
  rw [hd]
  exact List.forall_mem_nil _

theorem script_transition (hv : v.Unconditional) (hr : r.Fits c.domain v) (hp : p.keepsTo v = true) (ha : p.apart r)
    (hσ : σ.KeepsTo c.domain v) (hd : σ.detached = []) {t : Successor} (h : (p.transition c s σ).1 = .ok t) :
    t.script r = p.script r := by
  obtain ⟨o, hs, rfl⟩ := transition_eq_ok h
  have hm := Machine.settle_induction (fun m m' hm hs => Machine.Steps.onScript hs hv hr hm) _
    (onScript_started hv hr hp ha hσ hd s)
  obtain ⟨-, he⟩ := hm.tells (by rw [hs]; exact .settled o)
  rw [Frame.script_resume, ← he, hs, Work.script]

/-- What a run of a program without conditions does is told by its text, in every reading in which its branches are
apart. -/
theorem script_drive (hv : v.Unconditional) (hp : p.keepsTo v = true) (hσ : σ.KeepsTo c.domain v)
    (hd : σ.detached = []) (h : (p.drive c s σ).result = .ok s') :
    ∃ updates, Update.applyAll s updates = s' ∧ (∀ b ∈ Update.effects updates, c.domain.Offers v b) ∧
      ∀ {α : Type} (r : Reading α), r.Fits c.domain v → p.apart r → r.updates updates = p.script r := by
  fun_induction drive c p s σ with
  | case1 => cases h
  | case2 p s σ hf =>
    cases h
    exact ⟨[], rfl, List.forall_mem_nil _, fun r _ _ => (script_of_isFinal r hv p hp hf).symm⟩
  | case3 => cases h
  | case4 p s σ _ t τ ht hc =>
    cases h
    have hr : (p.transition c s σ).1 = .ok t := congrArg Prod.fst ht
    refine ⟨t.updates, (resolves_transition hr).replays, offers_transition hv.no_race hp hσ hd hr, ?_⟩
    intro α r hf ha
    rw [← script_transition hv hf hp ha hσ hd hr, Successor.script, hc, scriptOption, List.append_nil]
  | case5 p s σ _ t τ ht q hc ih =>
    have hr : (p.transition c s σ).1 = .ok t := congrArg Prod.fst ht
    obtain ⟨hk, hd', hq, -⟩ := effects_transition hv.no_race hp hσ hd hr
    rw [ht] at hk hd'
    obtain ⟨updates, hu, ho, hs⟩ := ih (hq q hc) hk hd' h
    refine ⟨t.updates ++ updates, ?_, ?_, ?_⟩
    · rw [Update.applyAll_append, (resolves_transition hr).replays, hu]
    · rw [Update.effects_append, List.forall_mem_append]
      exact ⟨offers_transition hv.no_race hp hσ hd hr, ho⟩
    · intro α r hf ha
      rw [r.updates_append, hs r hf ((hereditary_apart r).transition ha hr hc),
        ← script_transition hv hf hp ha hσ hd hr, Successor.script, hc, scriptOption]

end Program

end Agenda
