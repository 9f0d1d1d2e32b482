import Mathlib
import Agenda.Proofs.Stirring

/-!
# Works that are alike

One program that is under way in two worlds is not the same work twice. The clocks of the worlds differ, and tickets and
scopes are drawn from counters that others have used before. Works that differ in nothing else are alike. They can do
the same, and stirring keeps them alike.
-/

namespace Agenda

set_option autoImplicit false

/-- Tickets that belong together were drawn in the same order from two counters. -/
structure Pairing (R : Nat → Nat → Prop) (n m : Nat) : Prop where
  lt {a b : Nat} : R a b → a < n ∧ b < m
  le_iff {a b a' b' : Nat} : R a b → R a' b' → (a ≤ a' ↔ b ≤ b')

namespace Pairing

variable {R : Nat → Nat → Prop} {n m : Nat}

theorem nothing (n m : Nat) : Pairing (fun _ _ => False) n m := ⟨False.elim, fun h _ => h.elim⟩

theorem later (h : Pairing R n m) {n' : Nat} (hn : n ≤ n') : Pairing R n' m :=
  ⟨fun hR => ⟨(h.lt hR).1.trans_le hn, (h.lt hR).2⟩, h.le_iff⟩

theorem draw (h : Pairing R n m) : Pairing (fun a b => R a b ∨ a = n ∧ b = m) (n + 1) (m + 1) := by
  constructor
  · rintro a b (hR | ⟨rfl, rfl⟩)
    · have hl := h.lt hR
      omega
    · omega
  · rintro a b a' b' (hR | ⟨rfl, rfl⟩) (hR' | ⟨rfl, rfl⟩)
    · exact h.le_iff hR hR'
    · have hl := h.lt hR
      omega
    · have hl := h.lt hR'
      omega
    · omega

theorem min (h : Pairing R n m) {a b a' b' : Nat} (hR : R a b) (hR' : R a' b') : R (min a a') (min b b') := by
  by_cases hl : a ≤ a'
  · rw [min_eq_left hl, min_eq_left ((h.le_iff hR hR').mp hl)]
    exact hR
  · have hb := mt (h.le_iff hR hR').mpr hl
    rw [min_eq_right (Nat.le_of_not_le hl), min_eq_right (Nat.le_of_not_le hb)]
    exact hR'

theorem max (h : Pairing R n m) {a b a' b' : Nat} (hR : R a b) (hR' : R a' b') : R (max a a') (max b b') := by
  by_cases hl : a ≤ a'
  · rw [max_eq_right hl, max_eq_right ((h.le_iff hR hR').mp hl)]
    exact hR'
  · have hb := mt (h.le_iff hR hR').mpr hl
    rw [max_eq_left (Nat.le_of_not_le hl), max_eq_left (Nat.le_of_not_le hb)]
    exact hR

theorem decide_getD_le (h : Pairing R n m) {x x' y y' : Option Nat} (hx : Option.Rel R x y) (hx' : Option.Rel R x' y') :
    decide (x.getD 0 ≤ x'.getD 0) = decide (y.getD 0 ≤ y'.getD 0) ∨ x.isSome = false ∨ x'.isSome = false := by
  cases hx with
  | none => exact .inr (.inl rfl)
  | some hR =>
    cases hx' with
    | none => exact .inr (.inr rfl)
    | some hR' => exact .inl (Bool.decide_congr (h.le_iff hR hR'))

end Pairing

theorem rel_merge {R : Nat → Nat → Prop} {f g : Nat → Nat → Nat}
    (h : ∀ {a b a' b' : Nat}, R a b → R a' b' → R (f a a') (g b b')) {x x' y y' : Option Nat} (hx : Option.Rel R x y)
    (hx' : Option.Rel R x' y') : Option.Rel R (Option.merge f x x') (Option.merge g y y') := by
  cases hx with
  | none =>
    cases hx' with
    | none => exact .none
    | some hR' => exact .some hR'
  | some hR =>
    cases hx' with
    | none => exact .some hR
    | some hR' => exact .some (h hR hR')

theorem rel_isSome {R : Nat → Nat → Prop} {x y : Option Nat} (h : Option.Rel R x y) : x.isSome = y.isSome := by
  cases h <;> rfl

theorem rel_mono {R R' : Nat → Nat → Prop} (hR : ∀ a b, R a b → R' a b) {x y : Option Nat} (h : Option.Rel R x y) :
    Option.Rel R' x y := by
  cases h with
  | none => exact .none
  | some h => exact .some (hR _ _ h)

/-- Timers that ring after the same time; the first clock is ahead. -/
inductive Timer.Alike (delay : Nat) (R : Nat → Nat → Prop) : Timer → Timer → Prop
  | idle : Alike delay R .idle .idle
  | unset : Alike delay R .unset .unset
  | set {a b : Nat} (due : Nat) : R a b → Alike delay R (.set a (due + delay)) (.set b due)
  | rung : Alike delay R .rung .rung

theorem Timer.Alike.mono {delay : Nat} {R R' : Nat → Nat → Prop} (hR : ∀ a b, R a b → R' a b) {t t' : Timer}
    (h : t.Alike delay R t') : t.Alike delay R' t' := by
  cases h with
  | idle => exact .idle
  | unset => exact .unset
  | set due h => exact .set due (hR _ _ h)
  | rung => exact .rung

namespace Work

/-- Works that differ only in the time, the tickets and the scopes. -/
inductive Alike (delay : Nat) (R : Nat → Nat → Prop) : Work → Work → Prop
  | settled (outcome : Except Failure Outcome) : Alike delay R (.settled outcome) (.settled outcome)
  | acting {e : Execution} {timer : Timer} {postponed : Option Nat} (scopes : List Nat) :
      e.timer.Alike delay R timer → Option.Rel R e.postponed postponed →
      Alike delay R (.acting e) (.acting { e with scopes, timer, postponed })
  | group {s : Scheduler Work} (scope : Nat) (outer : List Nat) (queue waiting : List Renewal) :
      queue.map (·.1) = s.queue → waiting.map (·.1) = s.waiting → (∀ x ∈ queue, Alike delay R x.1.work x.2) →
      (∀ x ∈ waiting, Alike delay R x.1.work x.2) →
      Alike delay R (.group s)
        (.group { s with scope, outer, queue := queue.map (·.flight), waiting := waiting.map (·.flight) })

def AlikeFlights (delay : Nat) (R : Nat → Nat → Prop) (fs fs' : List (Flight Work)) : Prop :=
  ∃ xs : List Renewal, xs.map (·.1) = fs ∧ xs.map (·.flight) = fs' ∧ ∀ x ∈ xs, Alike delay R x.1.work x.2

section

variable {delay : Nat} {R : Nat → Nat → Prop}

theorem alikeFlights_nil : AlikeFlights delay R [] [] := ⟨[], rfl, rfl, List.forall_mem_nil _⟩

theorem AlikeFlights.cons {f : Flight Work} {w : Work} {fs fs' : List (Flight Work)} (hf : Alike delay R f.work w)
    (h : AlikeFlights delay R fs fs') : AlikeFlights delay R (f :: fs) ({ f with work := w } :: fs') := by
  obtain ⟨xs, rfl, rfl, hx⟩ := h
  exact ⟨(f, w) :: xs, rfl, rfl, List.forall_mem_cons.mpr ⟨hf, hx⟩⟩

theorem AlikeFlights.append {fs gs fs' gs' : List (Flight Work)} (h : AlikeFlights delay R fs fs')
    (hg : AlikeFlights delay R gs gs') : AlikeFlights delay R (fs ++ gs) (fs' ++ gs') := by
  obtain ⟨xs, rfl, rfl, hx⟩ := h
  obtain ⟨ys, rfl, rfl, hy⟩ := hg
  refine ⟨xs ++ ys, List.map_append, List.map_append, ?_⟩
  intro x hm
  exact (List.mem_append.mp hm).elim (hx x) (hy x)

theorem AlikeFlights.reverse {fs fs' : List (Flight Work)} (h : AlikeFlights delay R fs fs') :
    AlikeFlights delay R fs.reverse fs'.reverse := by
  obtain ⟨xs, rfl, rfl, hx⟩ := h
  exact ⟨xs.reverse, List.map_reverse, List.map_reverse, fun x hm => hx x (List.mem_reverse.mp hm)⟩

theorem AlikeFlights.length_eq {fs fs' : List (Flight Work)} (h : AlikeFlights delay R fs fs') :
    fs'.length = fs.length := by
  obtain ⟨xs, rfl, rfl, -⟩ := h
  rw [List.length_map, List.length_map]

theorem AlikeFlights.eq_nil_iff {fs fs' : List (Flight Work)} (h : AlikeFlights delay R fs fs') :
    fs' = [] ↔ fs = [] := by
  rw [← List.length_eq_zero_iff, h.length_eq, List.length_eq_zero_iff]

theorem AlikeFlights.of_cons {f : Flight Work} {fs gs : List (Flight Work)} (h : AlikeFlights delay R (f :: fs) gs) :
    ∃ w fs', gs = { f with work := w } :: fs' ∧ Alike delay R f.work w ∧ AlikeFlights delay R fs fs' := by
  obtain ⟨xs, hf, rfl, hx⟩ := h
  cases xs with
  | nil => cases hf
  | cons x xs =>
    obtain ⟨rfl, rfl⟩ := List.cons.inj hf
    refine ⟨x.2, xs.map (·.flight), rfl, hx x List.mem_cons_self, xs, rfl, rfl, ?_⟩
    intro y hy
    exact hx y (List.mem_cons_of_mem x hy)

theorem alike_group {s : Scheduler Work} {queue waiting : List (Flight Work)} (scope : Nat) (outer : List Nat)
    (hq : AlikeFlights delay R s.queue queue) (hw : AlikeFlights delay R s.waiting waiting) :
    Alike delay R (.group s) (.group { s with scope, outer, queue, waiting }) := by
  obtain ⟨xs, hx, rfl, hxs⟩ := hq
  obtain ⟨ys, hy, rfl, hys⟩ := hw
  exact .group scope outer xs ys hx hy hxs hys

theorem Alike.of_group {s : Scheduler Work} {w : Work} (h : Alike delay R (.group s) w) :
    ∃ scope outer queue waiting, w = .group { s with scope, outer, queue, waiting } ∧
      AlikeFlights delay R s.queue queue ∧ AlikeFlights delay R s.waiting waiting := by
  cases h with
  | group scope outer xs ys hx hy hxs hys =>
    exact ⟨scope, outer, _, _, rfl, ⟨xs, hx, rfl, hxs⟩, ⟨ys, hy, rfl, hys⟩⟩

theorem Alike.mono {R' : Nat → Nat → Prop} (hR : ∀ a b, R a b → R' a b) {w w' : Work} (h : Alike delay R w w') :
    Alike delay R' w w' := by
  induction h with
  | settled outcome => exact .settled outcome
  | acting scopes ht hp => exact .acting scopes (ht.mono hR) (rel_mono hR hp)
  | group scope outer queue waiting hq hw _ _ ihq ihw => exact .group scope outer queue waiting hq hw ihq ihw

theorem AlikeFlights.mono {R' : Nat → Nat → Prop} (hR : ∀ a b, R a b → R' a b) {fs fs' : List (Flight Work)}
    (h : AlikeFlights delay R fs fs') : AlikeFlights delay R' fs fs' := by
  obtain ⟨xs, hf, hf', hx⟩ := h
  exact ⟨xs, hf, hf', fun x hm => (hx x hm).mono hR⟩

theorem Alike.eq_settled_iff {w w' : Work} (h : Alike delay R w w') (outcome : Except Failure Outcome) :
    w' = .settled outcome ↔ w = .settled outcome := by
  cases h with
  | settled outcome' => rfl
  | acting scopes _ _ => exact ⟨fun h => Work.noConfusion h, fun h => Work.noConfusion h⟩
  | group scope outer queue waiting _ _ _ _ => exact ⟨fun h => Work.noConfusion h, fun h => Work.noConfusion h⟩

theorem Alike.asks_eq {w w' : Work} (h : Alike delay R w w') : w'.asks = w.asks := by
  cases h <;> rfl

theorem Alike.again_eq {w w' : Work} (h : Alike delay R w w') : w'.again = w.again := by
  cases h <;> rfl

theorem Alike.isStill_eq {w w' : Work} (h : Alike delay R w w') : w'.isStill = w.isStill := by
  cases h with
  | settled outcome => rfl
  | @acting e timer postponed scopes ht hp =>
    simp only [isStill, Execution.isStill]
    rw [rel_isSome hp]
    generalize e.timer = t at ht
    cases ht with
    | idle => rfl
    | unset => rfl
    | set due h => cases e.bound.action.latency <;> rfl
    | rung => rfl
  | group scope outer queue waiting _ _ _ _ => rfl

theorem Alike.wake {w w' : Work} (h : Alike delay R w w') : Alike delay R w.wake w'.wake := by
  cases h with
  | settled outcome => exact .settled outcome
  | acting scopes ht hp => exact .acting scopes ht hp
  | group scope outer queue waiting hq hw hqs hws => exact .group scope outer queue waiting hq hw hqs hws

/-! ### Timers and postponed executions -/

theorem takeUpFlights_eq_map (fs : List (Flight Work)) :
    takeUpFlights fs = fs.map fun f => (f.work.lastPostponed, { f with work := f.work.takeUp }) := by
  induction fs with
  | nil => rfl
  | cons f rest ih => rw [takeUpFlights, ih, List.map_cons]

theorem ringFlights_eq_map (time : Nat) (fs : List (Flight Work)) :
    ringFlights time fs = fs.map fun f => (f.work.dueTicket time, { f with work := f.work.ring time }) := by
  induction fs with
  | nil => rfl
  | cons f rest ih => rw [ringFlights, ih, List.map_cons]

theorem byTicket_map {α : Type} (xs : List α) (k : α → Option Nat) (F : α → Flight Work) :
    byTicket (xs.map fun x => (k x, F x)) =
      ((xs.filter fun x => (k x).isSome).mergeSort fun a b => (k a).getD 0 ≤ (k b).getD 0).map F := by
  have hs := List.map_mergeSort (r := fun a b => decide ((k a).getD 0 ≤ (k b).getD 0))
    (s := fun a b : Option Nat × Flight Work => decide (a.1.getD 0 ≤ b.1.getD 0)) (f := fun x => (k x, F x))
    (l := xs.filter fun x => (k x).isSome) fun _ _ _ _ => rfl
  rw [byTicket, List.filter_map]
  refine (congrArg _ hs.symm).trans ?_
  rw [List.map_map]
  rfl

theorem ticketless_map {α : Type} (xs : List α) (k : α → Option Nat) (F : α → Flight Work) :
    ticketless (xs.map fun x => (k x, F x)) = (xs.filter fun x => !(k x).isSome).map F := by
  rw [ticketless, List.filter_map, List.map_map]
  rfl

theorem byTicket_map_none (fs : List (Flight Work)) : byTicket (fs.map fun f => (none, f)) = [] := by
  rw [byTicket_map fs (fun _ => none) fun f => f]
  simp

theorem ticketless_map_none (fs : List (Flight Work)) : ticketless (fs.map fun f => (none, f)) = fs := by
  rw [ticketless_map fs (fun _ => none) fun f => f]
  simp

theorem mergeSort_congr {α : Type} {n m : Nat} (hR : Pairing R n m) (xs : List α) (k k' : α → Option Nat)
    (h : ∀ x ∈ xs, Option.Rel R (k x) (k' x)) :
    ((xs.filter fun x => (k' x).isSome).mergeSort fun a b => (k' a).getD 0 ≤ (k' b).getD 0) =
      (xs.filter fun x => (k x).isSome).mergeSort fun a b => (k a).getD 0 ≤ (k b).getD 0 := by
  have hf : (xs.filter fun x => (k' x).isSome) = xs.filter fun x => (k x).isSome :=
    List.filter_congr fun x hx => (rel_isSome (h x hx)).symm
  have hs := List.map_mergeSort (r := fun a b => decide ((k a).getD 0 ≤ (k b).getD 0))
    (s := fun a b => decide ((k' a).getD 0 ≤ (k' b).getD 0)) (f := id) (l := xs.filter fun x => (k x).isSome) ?_
  · rw [List.map_id, List.map_id] at hs
    rw [hf, hs]
  · intro a ha b hb
    obtain ⟨ha, has⟩ := List.mem_filter.mp ha
    obtain ⟨hb, hbs⟩ := List.mem_filter.mp hb
    obtain he | hn | hn := hR.decide_getD_le (h a ha) (h b hb)
    · exact he
    · exact absurd (hn.symm.trans has) Bool.false_ne_true
    · exact absurd (hn.symm.trans hbs) Bool.false_ne_true

theorem alikeFlights_map {g g' : Work → Work} (xs : List Renewal) (h : ∀ x ∈ xs, Alike delay R (g x.1.work) (g' x.2)) :
    AlikeFlights delay R (xs.map fun x => { x.1 with work := g x.1.work })
      (xs.map fun x => { x.flight with work := g' x.2 }) := by
  refine ⟨xs.map fun x => ({ x.1 with work := g x.1.work }, g' x.2), ?_, ?_, ?_⟩
  · rw [List.map_map]
    rfl
  · rw [List.map_map]
    rfl
  · intro y hm
    obtain ⟨x, hx, rfl⟩ := List.mem_map.mp hm
    exact h x hx

section

variable {n m : Nat} {g g' : Work → Work} {k k' : Work → Option Nat} (xs : List Renewal)

theorem alikeFlights_byTicket (hR : Pairing R n m) (hk : ∀ x ∈ xs, Option.Rel R (k x.1.work) (k' x.2))
    (hg : ∀ x ∈ xs, Alike delay R (g x.1.work) (g' x.2)) :
    AlikeFlights delay R
      (byTicket ((xs.map (·.1)).map fun f => (k f.work, { f with work := g f.work })))
      (byTicket ((xs.map (·.flight)).map fun f => (k' f.work, { f with work := g' f.work }))) := by
  have h := byTicket_map xs (fun x => k x.1.work) (fun x => { x.1 with work := g x.1.work })
  have h' := byTicket_map xs (fun x => k' x.2) (fun x => { x.flight with work := g' x.2 })
  rw [mergeSort_congr hR xs _ _ hk] at h'
  rw [List.map_map, List.map_map, Function.comp_def, Function.comp_def, h, h']
  apply alikeFlights_map _
  intro y hy
  exact hg y (List.mem_filter.mp (List.mem_mergeSort.mp hy)).1

theorem alikeFlights_ticketless (hk : ∀ x ∈ xs, Option.Rel R (k x.1.work) (k' x.2))
    (hg : ∀ x ∈ xs, Alike delay R (g x.1.work) (g' x.2)) :
    AlikeFlights delay R
      (ticketless ((xs.map (·.1)).map fun f => (k f.work, { f with work := g f.work })))
      (ticketless ((xs.map (·.flight)).map fun f => (k' f.work, { f with work := g' f.work }))) := by
  have h := ticketless_map xs (fun x => k x.1.work) (fun x => { x.1 with work := g x.1.work })
  have h' := ticketless_map xs (fun x => k' x.2) (fun x => { x.flight with work := g' x.2 })
  rw [List.filter_congr fun x hx => congrArg _ (rel_isSome (hk x hx)).symm] at h'
  rw [List.map_map, List.map_map, Function.comp_def, Function.comp_def, h, h']
  apply alikeFlights_map _
  intro y hy
  exact hg y (List.mem_filter.mp hy).1

end

theorem lastPostponedOfFlights_eq (fs : List (Flight Work)) :
    lastPostponedOfFlights fs = fs.foldr (fun f t => Option.merge max f.work.lastPostponed t) none := by
  induction fs with
  | nil => rfl
  | cons f rest ih => rw [lastPostponedOfFlights, ih, List.foldr_cons]

theorem dueTicketOfFlights_eq (time : Nat) (fs : List (Flight Work)) :
    dueTicketOfFlights time fs = fs.foldr (fun f t => Option.merge min (f.work.dueTicket time) t) none := by
  induction fs with
  | nil => rfl
  | cons f rest ih => rw [dueTicketOfFlights, ih, List.foldr_cons]

theorem rel_foldr_merge {f : Nat → Nat → Nat} (hf : ∀ {a b a' b' : Nat}, R a b → R a' b' → R (f a a') (f b b'))
    (xs : List Renewal) {k k' : Work → Option Nat} (h : ∀ x ∈ xs, Option.Rel R (k x.1.work) (k' x.2)) :
    Option.Rel R ((xs.map (·.1)).foldr (fun g t => Option.merge f (k g.work) t) none)
      ((xs.map (·.flight)).foldr (fun g t => Option.merge f (k' g.work) t) none) := by
  induction xs with
  | nil => exact .none
  | cons x xs ih =>
    exact rel_merge hf (h x List.mem_cons_self) (ih fun y hy => h y (List.mem_cons_of_mem x hy))

theorem Alike.lastPostponed_rel {n m : Nat} (hR : Pairing R n m) {w w' : Work} (h : Alike delay R w w') :
    Option.Rel R w.lastPostponed w'.lastPostponed := by
  induction h with
  | settled outcome => exact .none
  | acting scopes _ hp => exact hp
  | @group s scope outer queue waiting _ hw _ _ _ ih =>
    simp only [lastPostponed, lastPostponedOfFlights_eq]
    rw [← hw]
    exact rel_foldr_merge hR.max waiting ih

theorem Alike.takeUp {n m : Nat} (hR : Pairing R n m) {w w' : Work} (h : Alike delay R w w') :
    Alike delay R w.takeUp w'.takeUp := by
  induction h with
  | settled outcome => exact .settled outcome
  | acting scopes ht _ => exact .acting scopes ht .none
  | @group s scope outer queue waiting hq hw _ hws ihq ihw =>
    have hk : ∀ x ∈ waiting, Option.Rel R x.1.work.lastPostponed x.2.lastPostponed :=
      fun x hx => (hws x hx).lastPostponed_rel hR
    have hs : (lastPostponedOfFlights (waiting.map (·.flight))).isSome = (lastPostponedOfFlights s.waiting).isSome := by
      rw [← hw, lastPostponedOfFlights_eq, lastPostponedOfFlights_eq]
      exact (rel_isSome (rel_foldr_merge hR.max waiting hk)).symm
    have hf : AlikeFlights delay R ((takeUpFlights s.queue).map (·.2))
        ((takeUpFlights (queue.map (·.flight))).map (·.2)) := by
      rw [← hq, takeUpFlights_eq, takeUpFlights_eq, List.map_map, List.map_map]
      exact alikeFlights_map queue ihq
    have hb : AlikeFlights delay R (byTicket (takeUpFlights s.waiting))
        (byTicket (takeUpFlights (waiting.map (·.flight)))) := by
      rw [← hw, takeUpFlights_eq_map, takeUpFlights_eq_map]
      exact alikeFlights_byTicket waiting hR hk ihw
    have hl : AlikeFlights delay R (ticketless (takeUpFlights s.waiting))
        (ticketless (takeUpFlights (waiting.map (·.flight)))) := by
      rw [← hw, takeUpFlights_eq_map, takeUpFlights_eq_map]
      exact alikeFlights_ticketless waiting hk ihw
    simp only [Work.takeUp]
    rw [hs]
    exact alike_group (s := { s with
      queue := _, waiting := _, attention := _ }) scope outer (hf.append hb.reverse) hl

/-! ### The time -/

theorem merge_min_map_add (x y : Option Nat) (delay : Nat) :
    Option.merge min (x.map (· + delay)) (y.map (· + delay)) = (Option.merge min x y).map (· + delay) := by
  cases x with
  | none => cases y <;> rfl
  | some a =>
    cases y with
    | none => rfl
    | some b => exact congrArg some (Nat.add_min_add_right a b delay)

theorem nextDueOfFlights_map (xs : List Renewal) (h : ∀ x ∈ xs, x.1.work.nextDue = x.2.nextDue.map (· + delay)) :
    nextDueOfFlights (xs.map (·.1)) = (nextDueOfFlights (xs.map (·.flight))).map (· + delay) := by
  induction xs with
  | nil => rfl
  | cons x xs ih =>
    simp only [List.map_cons, nextDueOfFlights]
    rw [h x List.mem_cons_self, ih fun y hy => h y (List.mem_cons_of_mem x hy), merge_min_map_add]

theorem Alike.nextDue_eq {w w' : Work} (h : Alike delay R w w') : w.nextDue = w'.nextDue.map (· + delay) := by
  induction h with
  | settled outcome => rfl
  | @acting e timer postponed scopes ht _ =>
    simp only [nextDue]
    generalize e.timer = t at ht
    cases ht <;> rfl
  | group scope outer queue waiting _ hw _ _ _ ih =>
    simp only [nextDue]
    rw [← hw]
    exact nextDueOfFlights_map waiting ih

theorem Alike.dueTicket_rel {n m : Nat} (hR : Pairing R n m) {w w' : Work} (h : Alike delay R w w') (time : Nat) :
    Option.Rel R (w.dueTicket (time + delay)) (w'.dueTicket time) := by
  induction h with
  | settled outcome => exact .none
  | @acting e timer postponed scopes ht _ =>
    simp only [dueTicket]
    generalize e.timer = t at ht
    cases ht with
    | idle => exact .none
    | unset => exact .none
    | set due h =>
      simp only [Nat.add_le_add_iff_right]
      split
      · exact .some h
      · exact .none
    | rung => exact .none
  | @group s scope outer queue waiting _ hw _ _ _ ih =>
    simp only [dueTicket, dueTicketOfFlights_eq]
    rw [← hw]
    exact rel_foldr_merge hR.min waiting ih

theorem Alike.ring {n m : Nat} (hR : Pairing R n m) {w w' : Work} (h : Alike delay R w w') (time : Nat) :
    Alike delay R (w.ring (time + delay)) (w'.ring time) := by
  induction h with
  | settled outcome => exact .settled outcome
  | @acting e timer postponed scopes ht hp =>
    simp only [Work.ring]
    generalize he : e.timer = t at ht
    cases ht with
    | idle => exact .acting scopes (by rw [he]; exact .idle) hp
    | unset => exact .acting scopes (by rw [he]; exact .unset) hp
    | set due h =>
      simp only [Nat.add_le_add_iff_right]
      split
      · exact .acting scopes .rung hp
      · exact .acting scopes (by rw [he]; exact .set due h) hp
    | rung => exact .acting scopes (by rw [he]; exact .rung) hp
  | @group s scope outer queue waiting hq hw hqs hws _ ihw =>
    have hk : ∀ x ∈ waiting, Option.Rel R (x.1.work.dueTicket (time + delay)) (x.2.dueTicket time) :=
      fun x hx => (hws x hx).dueTicket_rel hR time
    have hs : (dueTicketOfFlights time (waiting.map (·.flight))).isSome =
        (dueTicketOfFlights (time + delay) s.waiting).isSome := by
      rw [← hw, dueTicketOfFlights_eq, dueTicketOfFlights_eq]
      exact (rel_isSome (rel_foldr_merge hR.min waiting hk)).symm
    have hf : AlikeFlights delay R s.queue (queue.map (·.flight)) := ⟨queue, hq, rfl, hqs⟩
    have hb : AlikeFlights delay R (byTicket (ringFlights (time + delay) s.waiting))
        (byTicket (ringFlights time (waiting.map (·.flight)))) := by
      rw [← hw, ringFlights_eq_map, ringFlights_eq_map]
      exact alikeFlights_byTicket waiting hR hk ihw
    have hl : AlikeFlights delay R (ticketless (ringFlights (time + delay) s.waiting))
        (ticketless (ringFlights time (waiting.map (·.flight)))) := by
      rw [← hw, ringFlights_eq_map, ringFlights_eq_map]
      exact alikeFlights_ticketless waiting hk ihw
    simp only [Work.ring]
    rw [hs]
    exact alike_group (s := { s with queue := _, waiting := _, attention := _ }) scope outer (hf.append hb) hl

end

/-! ### Timers that are not due -/

theorem lt_of_merge_min {x y : Option Nat} {time : Nat} (h : ∀ due, Option.merge min x y = some due → time < due) :
    (∀ due, x = some due → time < due) ∧ ∀ due, y = some due → time < due := by
  constructor
  · rintro due rfl
    cases y with
    | none => exact h due rfl
    | some b => exact (h _ rfl).trans_le (min_le_left due b)
  · rintro due rfl
    cases x with
    | none => exact h due rfl
    | some a => exact (h _ rfl).trans_le (min_le_right a due)

theorem lt_of_nextDueOfFlights {fs : List (Flight Work)} {time : Nat}
    (h : ∀ due, nextDueOfFlights fs = some due → time < due) :
    ∀ f ∈ fs, ∀ due, f.work.nextDue = some due → time < due := by
  induction fs with
  | nil => exact List.forall_mem_nil _
  | cons f rest ih =>
    obtain ⟨hf, hr⟩ := lt_of_merge_min h
    exact List.forall_mem_cons.mpr ⟨hf, ih hr⟩

theorem dueTicketOfFlights_eq_none {fs : List (Flight Work)} {time : Nat} (h : ∀ f ∈ fs, f.work.dueTicket time = none) :
    dueTicketOfFlights time fs = none := by
  induction fs with
  | nil => rfl
  | cons f rest ih =>
    rw [dueTicketOfFlights, h f List.mem_cons_self, ih fun g hg => h g (List.mem_cons_of_mem f hg)]
    rfl

theorem ring_of_lt_nextDue {w : Work} {time : Nat} (h : ∀ due, w.nextDue = some due → time < due) :
    w.dueTicket time = none ∧ w.ring time = w := by
  induction w using induction with
  | settled outcome => exact ⟨rfl, rfl⟩
  | acting e =>
    simp only [nextDue] at h
    simp only [dueTicket, ring]
    split
    · rename_i ticket due ht
      simp only [ht] at h
      rw [if_neg (Nat.not_le_of_lt (h due rfl)), if_neg (Nat.not_le_of_lt (h due rfl))]
      exact ⟨rfl, rfl⟩
    · exact ⟨rfl, rfl⟩
  | group s ih =>
    simp only [nextDue] at h
    have hf : ∀ f ∈ s.waiting, f.work.dueTicket time = none ∧ f.work.ring time = f.work :=
      fun f hf => ih f (List.mem_append_right _ hf) (lt_of_nextDueOfFlights h f hf)
    have hr : ringFlights time s.waiting = s.waiting.map fun f => (none, f) := by
      rw [ringFlights_eq_map]
      refine List.map_congr_left fun f hm => ?_
      rw [(hf f hm).1, (hf f hm).2]
    have hd := dueTicketOfFlights_eq_none fun f hm => (hf f hm).1
    refine ⟨hd, ?_⟩
    simp only [ring, hr, byTicket_map_none, ticketless_map_none, hd, List.append_nil]
    rfl

end Work

end Agenda
