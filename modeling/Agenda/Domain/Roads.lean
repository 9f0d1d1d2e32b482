/-!
# Road maps

Roads lead in both directions. A road that is built again in one direction keeps the distance it has in the other.
-/

namespace Agenda

set_option autoImplicit false

/-- The roads with their distances, each direction by itself; of two entries for a direction the first one counts. -/
structure RoadMap where
  roads : List ((String × String) × UInt32) := []

namespace RoadMap

def distance? (m : RoadMap) (origin destination : String) : Option UInt32 :=
  m.roads.lookup (origin, destination)

def connect (m : RoadMap) (a b : String) (distance : UInt32) : RoadMap :=
  let there : RoadMap := ⟨((a, b), distance) :: m.roads⟩
  match there.distance? b a with
  | some _ => there
  | none => ⟨((b, a), distance) :: there.roads⟩

def ofList (roads : List (String × String × UInt32)) : RoadMap :=
  roads.foldl (fun m road => m.connect road.1 road.2.1 road.2.2) {}

def delivery : RoadMap :=
  ofList [("l1", "l2", 1), ("l1", "l3", 2), ("l2", "l3", 2), ("l2", "l4", 2)]

end RoadMap

end Agenda
