import Mathlib
import Agenda.Domain.Standard

/-!
# What building roads leads to

A road that is built counts in both directions, but not alike: in its own direction it replaces what was built before,
and in the other one it counts only if nothing was there. So which road decides a distance depends on the direction in
which the roads between two places were built, and on their order.
-/

namespace Agenda

set_option autoImplicit false

namespace RoadMap

def built (roads : List (String × String × UInt32)) (x y : String) : List UInt32 :=
  (roads.filter fun road => road.1 = x ∧ road.2.1 = y).map (·.2.2)

theorem built_concat (roads : List (String × String × UInt32)) (a b x y : String) (d : UInt32) :
    built (roads ++ [(a, b, d)]) x y = built roads x y ++ if a = x ∧ b = y then [d] else [] := by
  rw [built, List.filter_append, List.map_append, ← built]
  by_cases h : a = x ∧ b = y <;> simp [h]

theorem mem_built_iff (roads : List (String × String × UInt32)) (x y : String) (d : UInt32) :
    d ∈ built roads x y ↔ (x, y, d) ∈ roads := by
  simp only [built, List.mem_map, List.mem_filter, decide_eq_true_eq]
  constructor
  · rintro ⟨⟨a, b, e⟩, ⟨hm, rfl, rfl⟩, rfl⟩
    exact hm
  · intro hm
    exact ⟨_, ⟨hm, rfl, rfl⟩, rfl⟩

theorem ofList_concat (roads : List (String × String × UInt32)) (a b : String) (d : UInt32) :
    ofList (roads ++ [(a, b, d)]) = (ofList roads).connect a b d := by
  rw [ofList, List.foldl_append]
  rfl

theorem distance?_cons (roads : List ((String × String) × UInt32)) (a b x y : String) (d : UInt32) :
    distance? ⟨((a, b), d) :: roads⟩ x y = if a = x ∧ b = y then some d else distance? ⟨roads⟩ x y := by
  simp only [distance?, List.lookup_cons]
  by_cases h : a = x ∧ b = y
  · obtain ⟨rfl, rfl⟩ := h
    simp
  · have hn : ((x, y) == (a, b)) = false := by
      rw [beq_eq_false_iff_ne]
      rintro ⟨⟩
      exact h ⟨rfl, rfl⟩
    rw [hn, if_neg h]

/-- One road more: its own direction is overwritten, the other one is filled in, and no other one changes. -/
theorem distance?_connect (m : RoadMap) (a b x y : String) (d : UInt32) :
    (m.connect a b d).distance? x y =
      if a = x ∧ b = y then some d else if b = x ∧ a = y then (m.distance? x y).or (some d) else m.distance? x y := by
  unfold connect
  dsimp only
  split
  · -- the way back has a distance and keeps it
    rename_i e he
    rw [distance?_cons] at he ⊢
    split_ifs with hf hr
    · rfl
    · obtain ⟨rfl, rfl⟩ := hr
      rw [if_neg hf] at he
      exact he.trans (congrArg (Option.or · (some d)) he).symm
    · rfl
  · -- the way back is filled in; so it is not the way there, which has its distance by now
    rename_i he
    rw [distance?_cons] at he
    rw [distance?_cons, distance?_cons]
    split_ifs with hr hf hf
    · rfl
    · obtain ⟨rfl, rfl⟩ := hr
      rw [if_neg hf] at he
      exact (congrArg (Option.or · (some d)) he).symm
    · rfl
    · rfl

/-- The last road of a direction decides its distance, and without one the first road of the other direction does. -/
theorem distance?_ofList (roads : List (String × String × UInt32)) (x y : String) :
    (ofList roads).distance? x y = (built roads x y).getLast?.or (built roads y x).head? := by
  -- from the end, since one more road is built after all the others
  induction roads using List.reverseRecOn with
  | nil => rfl
  | append_singleton roads road ih =>
    obtain ⟨a, b, d⟩ := road
    rw [ofList_concat, distance?_connect, built_concat, built_concat, ih]
    by_cases hf : a = x ∧ b = y
    · rw [if_pos hf, if_pos hf, List.getLast?_concat, Option.some_or]
    · rw [if_neg hf, if_neg hf, List.append_nil]
      by_cases hr : b = x ∧ a = y
      · rw [if_pos hr, if_pos hr.symm, List.head?_append, List.head?_singleton, Option.or_assoc]
      · rw [if_neg hr, if_neg (mt And.symm hr), List.append_nil]

theorem isSome_distance?_iff (roads : List (String × String × UInt32)) (x y : String) :
    ((ofList roads).distance? x y).isSome = true ↔ ∃ d, (x, y, d) ∈ roads ∨ (y, x, d) ∈ roads := by
  rw [distance?_ofList, Option.isSome_or, Bool.or_eq_true, List.getLast?_isSome, List.isSome_head?]
  simp only [ne_eq, List.eq_nil_iff_forall_not_mem, not_forall, not_not, mem_built_iff, exists_or]

theorem isSome_distance?_comm (roads : List (String × String × UInt32)) (x y : String) :
    ((ofList roads).distance? x y).isSome = true ↔ ((ofList roads).distance? y x).isSome = true := by
  rw [isSome_distance?_iff, isSome_distance?_iff]
  exact exists_congr fun d => or_comm

end RoadMap

namespace Domain

theorem possible_drive (latency : Nat) (m : RoadMap) {args : Fields Value} {x y : String} {s : State}
    (ha : args.get? location = some (.text y)) (hs : s.fact? location = some (.text x)) :
    ∃ drive, (standard latency m).instantiate "GoTo" args = .ok drive ∧
      (drive.action.possible s = true ↔ x ≠ y ∧ (m.distance? x y).isSome = true) := by
  have hb : (standard latency m).instantiate "GoTo" args =
      (goTo m latency args).map fun action => ⟨⟨"GoTo", args⟩, action⟩ := rfl
  rw [hb, goTo, ActionBuilder.requiredArg, ha]
  refine ⟨_, rfl, ?_⟩
  simp only [hs, Bool.and_eq_true, decide_eq_true_eq]

end Domain

namespace RoadMap

open Domain (location standard)

/-- After roads have been built in any order, the distance from one place to another is that of the last road that was
built so, else that of the first road that was built the other way, else there is none. So there is a distance one way
just when there is one the other way, namely when some road was built between the two places, and a drive from the one
to the other is possible just when the drive back is. -/
theorem last_road_there_else_first_back (roads : List (String × String × UInt32)) (x y : String) :
    (ofList roads).distance? x y = (built roads x y).getLast?.or (built roads y x).head? ∧
    (((ofList roads).distance? x y).isSome = true ↔ ((ofList roads).distance? y x).isSome = true) ∧
    ∀ (latency : Nat) (args args' : Fields Value) (s s' : State),
      args.get? location = some (.text y) → s.fact? location = some (.text x) →
      args'.get? location = some (.text x) → s'.fact? location = some (.text y) →
      ∃ there back, (standard latency (ofList roads)).instantiate "GoTo" args = .ok there ∧
        (standard latency (ofList roads)).instantiate "GoTo" args' = .ok back ∧
        (there.action.possible s = true ↔ back.action.possible s' = true) ∧
        (there.action.possible s = true ↔ x ≠ y ∧ ∃ d, (x, y, d) ∈ roads ∨ (y, x, d) ∈ roads) := by
  refine ⟨distance?_ofList roads x y, isSome_distance?_comm roads x y, ?_⟩
  intro latency args args' s s' ha hs ha' hs'
  obtain ⟨there, ht, hp⟩ := Domain.possible_drive latency (ofList roads) ha hs
  obtain ⟨back, hb, hp'⟩ := Domain.possible_drive latency (ofList roads) ha' hs'
  refine ⟨there, back, ht, hb, ?_, ?_⟩
  · rw [hp, hp', ne_comm, isSome_distance?_comm]
  · rw [hp, isSome_distance?_iff]

def builtTwice : List (String × String × UInt32) := [("l1", "l2", 3), ("l1", "l2", 5)]

theorem last_road_there_else_first_back_builtTwice :
    (ofList builtTwice).distance? "l1" "l2" = some 5 ∧ (ofList builtTwice).distance? "l2" "l1" = some 3 ∧
    ∃ there back, (standard 100 (ofList builtTwice)).instantiate "GoTo" [(location, .text "l2")] = .ok there ∧
      (standard 100 (ofList builtTwice)).instantiate "GoTo" [(location, .text "l1")] = .ok back ∧
      there.action.possible { facts := [(location, .text "l1")] } = true ∧
      back.action.possible { facts := [(location, .text "l2")] } = true := by
  obtain ⟨hd, -, h⟩ := last_road_there_else_first_back builtTwice "l1" "l2"
  obtain ⟨there, back, ht, hb, hp, hr⟩ := h 100 [(location, .text "l2")] [(location, .text "l1")]
    { facts := [(location, .text "l1")] } { facts := [(location, .text "l2")] } rfl rfl rfl rfl
  have hs := hr.mpr ⟨by decide, 3, .inl List.mem_cons_self⟩
  exact ⟨hd, (last_road_there_else_first_back builtTwice "l2" "l1").1, there, back, ht, hb, hs, hp.mp hs⟩

end RoadMap

end Agenda
