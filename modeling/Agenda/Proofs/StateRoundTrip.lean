import Mathlib
import Agenda.Proofs.Documents
import Agenda.Wire.Value

/-!
# States and values are read back

Lists of named values stand for maps when no name comes up twice. Every value and every state that is read is of this
kind, and each of them is read back from the text it is written as.
-/

namespace Agenda

set_option autoImplicit false

/-! ### Names that come up once -/

namespace Fields

variable {α : Type}

theorem keys_append (fields entries : Fields α) : keys (fields ++ entries) = fields.keys ++ entries.keys :=
  List.map_append

theorem insert_of_notMem {fields : Fields α} {key : String} (h : key ∉ fields.keys) (a : α) :
    fields.insert key a = fields ++ [(key, a)] := by
  induction fields with
  | nil => rfl
  | cons entry rest ih =>
    obtain ⟨name, b⟩ := entry
    obtain ⟨hn, hr⟩ := not_or.mp (mt List.mem_cons.mpr h)
    rw [insert, if_neg (Ne.symm hn), ih hr, List.cons_append]

theorem insertAll_of_nodup {fields entries : Fields α} (h : (fields ++ entries).keys.Nodup) :
    fields.insertAll entries = fields ++ entries := by
  induction entries generalizing fields with
  | nil => exact (List.append_nil fields).symm
  | cons entry rest ih =>
    have hn : entry.1 ∉ fields.keys := by
      intro hm
      rw [keys_append] at h
      exact (List.nodup_append.mp h).2.2 _ hm _ List.mem_cons_self rfl
    have hs : fields ++ entry :: rest = (fields ++ [entry]) ++ rest := by
      rw [List.append_assoc, List.singleton_append]
    rw [hs] at h ⊢
    exact (congrArg (insertAll · rest) (insert_of_notMem hn entry.2)).trans (ih h)

theorem ofEntries_of_nodup {entries : Fields α} (h : entries.keys.Nodup) : ofEntries entries = entries :=
  insertAll_of_nodup h

theorem mem_of_mem_insert {fields : Fields α} {key : String} {a : α} {entry : String × α}
    (h : entry ∈ fields.insert key a) : entry ∈ fields ∨ entry = (key, a) := by
  induction fields with
  | nil => exact .inr (List.mem_singleton.mp h)
  | cons first rest ih =>
    obtain ⟨name, b⟩ := first
    rw [insert] at h
    split at h
    · rename_i hn
      subst hn
      rcases List.mem_cons.mp h with rfl | hr
      · exact .inr rfl
      · exact .inl (List.mem_cons_of_mem _ hr)
    · rcases List.mem_cons.mp h with rfl | hr
      · exact .inl List.mem_cons_self
      · exact (ih hr).imp_left (List.mem_cons_of_mem _)

theorem nodup_keys_insert {fields : Fields α} (h : fields.keys.Nodup) (key : String) (a : α) :
    (fields.insert key a).keys.Nodup := by
  induction fields with
  | nil => exact List.nodup_singleton key
  | cons first rest ih =>
    obtain ⟨name, b⟩ := first
    obtain ⟨hn, hr⟩ := List.nodup_cons.mp h
    rw [insert]
    split
    · exact h
    · rename_i hk
      refine List.nodup_cons.mpr ⟨?_, ih hr⟩
      intro hm
      obtain ⟨entry, he, hne⟩ := List.mem_map.mp hm
      rcases mem_of_mem_insert he with hi | rfl
      · exact hn (hne ▸ List.mem_map_of_mem hi)
      · exact hk hne.symm

theorem mem_of_mem_insertAll {fields entries : Fields α} {entry : String × α}
    (h : entry ∈ fields.insertAll entries) : entry ∈ fields ∨ entry ∈ entries := by
  induction entries generalizing fields with
  | nil => exact .inl h
  | cons first rest ih =>
    have h : entry ∈ (fields.insert first.1 first.2).insertAll rest := h
    rcases ih h with hi | hr
    · rcases mem_of_mem_insert hi with hf | rfl
      · exact .inl hf
      · exact .inr List.mem_cons_self
    · exact .inr (List.mem_cons_of_mem _ hr)

theorem nodup_keys_insertAll {fields : Fields α} (h : fields.keys.Nodup) (entries : Fields α) :
    (fields.insertAll entries).keys.Nodup := by
  induction entries generalizing fields with
  | nil => exact h
  | cons first rest ih => exact ih (nodup_keys_insert h first.1 first.2)

theorem nodup_keys_ofEntries (entries : Fields α) : (ofEntries entries).keys.Nodup :=
  @nodup_keys_insertAll α [] List.nodup_nil entries

theorem mem_of_mem_ofEntries {entries : Fields α} {entry : String × α} (h : entry ∈ ofEntries entries) :
    entry ∈ entries :=
  (mem_of_mem_insertAll h).resolve_left List.not_mem_nil

end Fields

/-! ### Values -/

namespace Value

mutual
def floats : Value → List Float
  | .float x => [x]
  | .list items => floatsOfItems items
  | .record fields => floatsOfFields fields
  | _ => []
termination_by structural v => v

def floatsOfItems : List Value → List Float
  | [] => []
  | v :: rest => v.floats ++ floatsOfItems rest
termination_by structural items => items

def floatsOfFields : List (String × Value) → List Float
  | [] => []
  | (_, v) :: rest => v.floats ++ floatsOfFields rest
termination_by structural fields => fields
end

mutual
/-- Whether every record in a value is a map: none has two fields of one name. -/
def wellNamed : Value → Bool
  | .list items => itemsWellNamed items
  | .record fields => decide (Fields.keys fields).Nodup && fieldsWellNamed fields
  | _ => true
termination_by structural v => v

def itemsWellNamed : List Value → Bool
  | [] => true
  | v :: rest => v.wellNamed && itemsWellNamed rest
termination_by structural items => items

def fieldsWellNamed : List (String × Value) → Bool
  | [] => true
  | (_, v) :: rest => v.wellNamed && fieldsWellNamed rest
termination_by structural fields => fields
end

mutual
theorem faithful_toJson : ∀ v : Value, (∀ x ∈ v.floats, Json.ReadsBack x) → v.toJson.Faithful
  | .null, _ => .null
  | .bool b, _ => .bool b
  | .int n, _ => .int n
  | .float _, h => .float (h _ List.mem_cons_self)
  | .text s, _ => .string s
  | .list items, h => .array (faithful_itemsToJson items h)
  | .record fields, h => .object (faithful_fieldsToJson fields h)

theorem faithful_itemsToJson : ∀ items : List Value, (∀ x ∈ floatsOfItems items, Json.ReadsBack x) →
    ∀ j ∈ itemsToJson items, j.Faithful
  | [], _ => List.forall_mem_nil _
  | v :: rest, h =>
    have h := List.forall_mem_append.mp h
    List.forall_mem_cons.mpr ⟨faithful_toJson v h.1, faithful_itemsToJson rest h.2⟩

theorem faithful_fieldsToJson : ∀ fields : Fields Value, (∀ x ∈ floatsOfFields fields, Json.ReadsBack x) →
    ∀ m ∈ fieldsToJson fields, m.2.Faithful
  | [], _ => List.forall_mem_nil _
  | (_, v) :: rest, h =>
    have h := List.forall_mem_append.mp h
    List.forall_mem_cons.mpr ⟨faithful_toJson v h.1, faithful_fieldsToJson rest h.2⟩
end

mutual
theorem ofJson_toJson : ∀ v : Value, v.wellNamed = true → ofJson v.toJson = some v
  | .null, _ => rfl
  | .bool _, _ => rfl
  | .int _, _ => rfl
  | .float _, _ => rfl
  | .text _, _ => rfl
  | .list items, h => by
    rw [toJson, ofJson, itemsOfJson_itemsToJson items h, Option.map_some]
  | .record fields, h => by
    obtain ⟨hn, hf⟩ := Bool.and_eq_true_iff.mp h
    rw [toJson, ofJson, entriesOfJson_fieldsToJson fields hf, Option.map_some,
      Fields.ofEntries_of_nodup (of_decide_eq_true hn)]

theorem itemsOfJson_itemsToJson : ∀ items : List Value, itemsWellNamed items = true →
    itemsOfJson (itemsToJson items) = some items
  | [], _ => rfl
  | v :: rest, h => by
    obtain ⟨hv, hr⟩ := Bool.and_eq_true_iff.mp h
    rw [itemsToJson, itemsOfJson, ofJson_toJson v hv, itemsOfJson_itemsToJson rest hr]
    rfl

theorem entriesOfJson_fieldsToJson : ∀ fields : Fields Value, fieldsWellNamed fields = true →
    entriesOfJson (fieldsToJson fields) = some fields
  | [], _ => rfl
  | (_, v) :: rest, h => by
    obtain ⟨hv, hr⟩ := Bool.and_eq_true_iff.mp h
    rw [fieldsToJson, entriesOfJson, ofJson_toJson v hv, entriesOfJson_fieldsToJson rest hr]
    rfl
end

theorem fieldsWellNamed_iff (fields : Fields Value) :
    fieldsWellNamed fields = true ↔ ∀ f ∈ fields, f.2.wellNamed = true := by
  induction fields with
  | nil => exact ⟨fun _ => List.forall_mem_nil _, fun _ => rfl⟩
  | cons first rest ih => rw [fieldsWellNamed, Bool.and_eq_true_iff, ih, List.forall_mem_cons]

theorem wellNamed_ofEntries {entries : Fields Value} (h : ∀ e ∈ entries, e.2.wellNamed = true) :
    (Value.record (Fields.ofEntries entries)).wellNamed = true := by
  rw [wellNamed, Bool.and_eq_true_iff]
  constructor
  · exact decide_eq_true (Fields.nodup_keys_ofEntries entries)
  · exact (fieldsWellNamed_iff _).mpr fun f hf => h f (Fields.mem_of_mem_ofEntries hf)

mutual
theorem wellNamed_of_ofJson : ∀ (j : Json) {v : Value}, ofJson j = some v → v.wellNamed = true
  | .null, _, h => by cases h; rfl
  | .bool _, _, h => by cases h; rfl
  | .number (.int _), _, h => by cases h; rfl
  | .number (.float _), _, h => by cases h; rfl
  | .string _, _, h => by cases h; rfl
  | .array items, _, h => by
    obtain ⟨vs, hvs, rfl⟩ := Option.map_eq_some_iff.mp h
    exact itemsWellNamed_of_itemsOfJson items hvs
  | .object members, _, h => by
    obtain ⟨entries, he, rfl⟩ := Option.map_eq_some_iff.mp h
    exact wellNamed_ofEntries (wellNamed_of_entriesOfJson members he)
  | .unreadable, _, h => by cases h

theorem itemsWellNamed_of_itemsOfJson : ∀ (items : List Json) {vs : List Value},
    itemsOfJson items = some vs → itemsWellNamed vs = true
  | [], _, h => by cases h; rfl
  | j :: rest, _, h => by
    obtain ⟨v, hv, h⟩ := Option.bind_eq_some_iff.mp h
    obtain ⟨vs, hvs, h⟩ := Option.bind_eq_some_iff.mp h
    cases h
    exact Bool.and_eq_true_iff.mpr ⟨wellNamed_of_ofJson j hv, itemsWellNamed_of_itemsOfJson rest hvs⟩

theorem wellNamed_of_entriesOfJson : ∀ (members : List (String × Json)) {entries : List (String × Value)},
    entriesOfJson members = some entries → ∀ e ∈ entries, e.2.wellNamed = true
  | [], _, h => by cases h; exact List.forall_mem_nil _
  | (_, j) :: rest, _, h => by
    obtain ⟨v, hv, h⟩ := Option.bind_eq_some_iff.mp h
    obtain ⟨entries, he, h⟩ := Option.bind_eq_some_iff.mp h
    cases h
    exact List.forall_mem_cons.mpr ⟨wellNamed_of_ofJson j hv, wellNamed_of_entriesOfJson rest he⟩
end

theorem wellNamed_of_fieldsOfJson {j : Json} {fields : Fields Value} (h : fieldsOfJson j = some fields) :
    (Value.record fields).wellNamed = true := by
  cases j with
  | object members =>
    obtain ⟨entries, he, rfl⟩ := Option.map_eq_some_iff.mp h
    exact wellNamed_ofEntries (wellNamed_of_entriesOfJson members he)
  | _ => cases h

theorem keys_entriesOfJson : ∀ (members : List (String × Json)) {entries : Fields Value},
    entriesOfJson members = some entries → entries.keys = members.map (·.1)
  | [], _, h => by cases h; rfl
  | (name, j) :: rest, _, h => by
    obtain ⟨v, -, h⟩ := Option.bind_eq_some_iff.mp h
    obtain ⟨entries, he, h⟩ := Option.bind_eq_some_iff.mp h
    cases h
    exact congrArg (name :: ·) (keys_entriesOfJson rest he)

theorem names_fieldsToJson (fields : Fields Value) : (fieldsToJson fields).map (·.1) = fields.keys := by
  induction fields with
  | nil => rfl
  | cons first rest ih => exact congrArg (first.1 :: ·) ih

theorem parse_of_parseSound {cs : List Char} {v : Value} (h : Json.parseSound cs = some v.toJson)
    (hn : v.wellNamed = true) : parse cs = some v := by
  rw [parse, h, Option.bind_some, ofJson_toJson v hn]

end Value

/-! ### States -/

namespace Json

theorem member?_of_notMem {members : List (String × Json)} {name : String} (h : name ∉ members.map (·.1)) :
    member? members name = some none := by
  have hf : members.filter (·.1 == name) = [] := by
    rw [List.filter_eq_nil_iff]
    intro m hm he
    exact h (eq_of_beq he ▸ List.mem_map_of_mem hm)
  rw [member?, hf]

theorem member?_cons_self {members : List (String × Json)} {name : String} (j : Json)
    (h : name ∉ members.map (·.1)) : member? ((name, j) :: members) name = some (some j) := by
  have hf : ((name, j) :: members).filter (·.1 == name) = [(name, j)] := by
    rw [List.filter_cons, if_pos (beq_self_eq_true name), List.cons_eq_cons, List.filter_eq_nil_iff]
    refine ⟨rfl, ?_⟩
    intro m hm he
    exact h (eq_of_beq he ▸ List.mem_map_of_mem hm)
  rw [member?, hf]

theorem filter_of_notMem {members : List (String × Json)} {name : String} (h : name ∉ members.map (·.1)) :
    members.filter (·.1 != name) = members := by
  rw [List.filter_eq_self]
  intro m hm
  rw [bne_iff_ne]
  intro he
  exact h (he ▸ List.mem_map_of_mem hm)

end Json

namespace State

def floats (s : State) : List Float := Value.floatsOfFields s.vars ++ Value.floatsOfFields s.facts

def wellNamed (s : State) : Bool := (Value.record s.vars).wellNamed && (Value.record s.facts).wellNamed

theorem faithful_toJson {s : State} (h : ∀ x ∈ s.floats, Json.ReadsBack x) : s.toJson.Faithful := by
  obtain ⟨hv, hf⟩ := List.forall_mem_append.mp h
  refine .object (List.forall_mem_append.mpr ⟨?_, Value.faithful_fieldsToJson s.facts hf⟩)
  split
  · exact List.forall_mem_nil _
  · exact List.forall_mem_singleton.mpr (.object (Value.faithful_fieldsToJson s.vars hv))

theorem ofJson_toJson {s : State} (hv : "vars" ∉ s.facts.keys) (hn : s.wellNamed = true) :
    ofJson s.toJson = some s := by
  obtain ⟨vars, facts⟩ := s
  obtain ⟨hnv, hnf⟩ := Bool.and_eq_true_iff.mp hn
  obtain ⟨hd, hf⟩ := Bool.and_eq_true_iff.mp hnf
  rw [← Value.names_fieldsToJson] at hv
  have hfacts := Value.entriesOfJson_fieldsToJson facts hf
  have hkeep := Json.filter_of_notMem hv
  cases vars with
  | nil =>
    simp only [toJson, List.isEmpty_nil, if_true, List.nil_append, ofJson, Json.member?_of_notMem hv, hkeep, hfacts,
      Option.bind_eq_bind, Option.bind_some, Fields.ofEntries_of_nodup (of_decide_eq_true hd)]
    rfl
  | cons first rest =>
    obtain ⟨hdv, hfv⟩ := Bool.and_eq_true_iff.mp hnv
    have hvars : Value.fieldsOfJson (.object (Value.fieldsToJson (first :: rest))) = some (first :: rest) := by
      rw [Value.fieldsOfJson, Value.entriesOfJson_fieldsToJson _ hfv, Option.map_some,
        Fields.ofEntries_of_nodup (of_decide_eq_true hdv)]
    have hrest : (("vars", Json.object (Value.fieldsToJson (first :: rest))) :: Value.fieldsToJson facts).filter
        (·.1 != "vars") = Value.fieldsToJson facts := by
      rw [List.filter_cons_of_neg (by simp), hkeep]
    simp only [toJson, List.isEmpty_cons, Bool.false_eq_true, if_false, List.singleton_append, ofJson,
      Json.member?_cons_self _ hv, hrest, hvars, hfacts, Option.bind_eq_bind, Option.bind_some,
      Fields.ofEntries_of_nodup (of_decide_eq_true hd)]
    rfl

theorem vars_written_iff {s : State} (hv : "vars" ∉ s.facts.keys) :
    ∃ members, s.toJson = .object members ∧ ("vars" ∈ members.map (·.1) ↔ s.vars ≠ []) := by
  refine ⟨_, rfl, ?_⟩
  rw [List.map_append, List.mem_append, Value.names_fieldsToJson, or_iff_left hv]
  cases s.vars with
  | nil => simp
  | cons first rest => simp

theorem of_entriesOfJson {members : List (String × Json)} {vars facts : Fields Value}
    (hv : (Value.record vars).wellNamed = true)
    (h : Value.entriesOfJson (members.filter (·.1 != "vars")) = some facts) :
    "vars" ∉ (Fields.ofEntries facts).keys ∧ wellNamed ⟨vars, Fields.ofEntries facts⟩ = true := by
  constructor
  · intro hm
    obtain ⟨entry, he, hname⟩ := List.mem_map.mp hm
    have hin : entry.1 ∈ Fields.keys facts := List.mem_map_of_mem (Fields.mem_of_mem_ofEntries he)
    rw [Value.keys_entriesOfJson _ h, hname] at hin
    obtain ⟨m, hmem, hm⟩ := List.mem_map.mp hin
    exact bne_iff_ne.mp (List.mem_filter.mp hmem).2 hm
  · exact Bool.and_eq_true_iff.mpr ⟨hv, Value.wellNamed_ofEntries (Value.wellNamed_of_entriesOfJson _ h)⟩

theorem of_ofJson {j : Json} {s : State} (h : ofJson j = some s) : "vars" ∉ s.facts.keys ∧ s.wellNamed = true := by
  cases j with
  | object members =>
    obtain ⟨found, -, h⟩ := Option.bind_eq_some_iff.mp h
    cases found with
    | none =>
      obtain ⟨vars, hvars, h⟩ := Option.bind_eq_some_iff.mp h
      obtain ⟨facts, hfacts, h⟩ := Option.bind_eq_some_iff.mp h
      cases hvars
      cases h
      exact of_entriesOfJson rfl hfacts
    | some j =>
      obtain ⟨vars, hvars, h⟩ := Option.bind_eq_some_iff.mp h
      obtain ⟨facts, hfacts, h⟩ := Option.bind_eq_some_iff.mp h
      cases h
      exact of_entriesOfJson (Value.wellNamed_of_fieldsOfJson hvars) hfacts
  | _ => cases h

theorem of_parse {cs : List Char} {s : State} (h : parse cs = some s) :
    "vars" ∉ s.facts.keys ∧ s.wellNamed = true := by
  obtain ⟨j, -, hj⟩ := Option.bind_eq_some_iff.mp h
  exact of_ofJson hj

theorem parse_of_parseSound {cs : List Char} {s : State} (h : Json.parseSound cs = some s.toJson)
    (hv : "vars" ∉ s.facts.keys) (hn : s.wellNamed = true) : parse cs = some s := by
  rw [parse, h, Option.bind_some, ofJson_toJson hv hn]

/-- States and values are read back just as they were, the order of their names included, from either form of the text
that they are written as. What is read is always written again in this way: it has no fact named `vars` and no name
twice. Of the printer it is assumed that the text of each finite number in the state or value is read as this number. -/
theorem states_and_values_read_back :
    (∀ s : State, "vars" ∉ s.facts.keys → s.wellNamed = true → (∀ x ∈ s.floats, x.isFinite = true) →
      (∀ x ∈ s.floats, x.isFinite = true → Json.ReadsBack x) → s.toJson.levels ≤ Json.maxLevels →
        parse s.toJson.compact.toList = some s ∧ parse s.toJson.pretty.toList = some s ∧
          ∃ members, s.toJson = .object members ∧ ("vars" ∈ members.map (·.1) ↔ s.vars ≠ [])) ∧
    (∀ v : Value, v.wellNamed = true → (∀ x ∈ v.floats, x.isFinite = true) →
      (∀ x ∈ v.floats, x.isFinite = true → Json.ReadsBack x) → v.toJson.levels ≤ Json.maxLevels →
        Value.parse v.toJson.compact.toList = some v ∧ Value.parse v.toJson.pretty.toList = some v) ∧
    (∀ (cs : List Char) (s : State), parse cs = some s → "vars" ∉ s.facts.keys ∧ s.wellNamed = true) ∧
    ∀ (cs : List Char) (v : Value), Value.parse cs = some v → v.wellNamed = true := by
  refine ⟨?_, ?_, fun _ _ => of_parse, ?_⟩
  · intro s hv hn hfin hprint hl
    have hf := faithful_toJson fun x hx => hprint x hx (hfin x hx)
    refine ⟨?_, ?_, vars_written_iff hv⟩
    · exact parse_of_parseSound (hf.parseSound_compact hl) hv hn
    · exact parse_of_parseSound (hf.parseSound_pretty hl) hv hn
  · intro v hn hfin hprint hl
    have hf := Value.faithful_toJson v fun x hx => hprint x hx (hfin x hx)
    constructor
    · exact Value.parse_of_parseSound (hf.parseSound_compact hl) hn
    · exact Value.parse_of_parseSound (hf.parseSound_pretty hl) hn
  · intro cs v h
    obtain ⟨j, -, hj⟩ := Option.bind_eq_some_iff.mp h
    exact Value.wellNamed_of_ofJson j hj

/-- A state in which variables and facts share a name and hold records, lists and both kinds of numbers. -/
def orders : State where
  vars := [("route", .list [.text "depot", .null, .int (-7)]), ("load", .float 1.5)]
  facts := [("load", .record [("weight", .float 1.5), ("items", .int 1)]), ("open", .bool true), ("", .text "\n\"")]

theorem states_and_values_read_back_orders :
    parse orders.toJson.compact.toList = some orders ∧ parse orders.toJson.pretty.toList = some orders ∧
      Value.parse (Value.record orders.facts).toJson.compact.toList = some (.record orders.facts) := by
  have hfin : ∀ x ∈ [(1.5 : Float), 1.5], x.isFinite = true := by decide +kernel
  have hread : ∀ x ∈ [(1.5 : Float), 1.5], x.isFinite = true → Json.ReadsBack x := by
    simp [Json.readsBack_threeHalves]
  obtain ⟨hs, hv, -⟩ := states_and_values_read_back
  obtain ⟨hc, hp, -⟩ := hs orders (by decide) (by decide) hfin hread (by decide)
  exact ⟨hc, hp, (hv (.record orders.facts) (by decide) (fun x hx => hfin x (List.mem_cons_of_mem _ hx))
    (fun x hx => hread x (List.mem_cons_of_mem _ hx)) (by decide)).1⟩

end State

end Agenda
