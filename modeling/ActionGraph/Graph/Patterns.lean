import ActionGraph.Graph
namespace ActionGraph.Graph

def delayAction (id : String) (ticks : Int64) : Action :=
  { id := id, kind := "delay", properties := Keyed.empty.insert "ticks" (.int ticks) }

def linear (kinds : List String) : Graph :=
  let ids := kinds.mapIdx fun i _ => "step_" ++ toString i
  let steps := (ids.zip kinds).map fun s => ({ id := s.1, kind := s.2 } : Action)
  { actions := { id := "start", kind := Action.startKind } :: steps ++
      [{ id := "end", kind := Action.endKind }]
    edges := (("start" :: ids).zip (ids ++ ["end"])).map fun e => { source := e.1, target := e.2 } }

def joined (b c : Int64) : Graph :=
  { actions := [
      { id := "start", kind := Action.startKind },
      delayAction "b" b,
      delayAction "c" c,
      { id := "join", kind := Action.joinKind, properties := Keyed.empty.insert "count" (.int 2) },
      { id := "end", kind := Action.endKind }]
    edges := [
      { source := "start", target := "b" }, { source := "start", target := "c" },
      { source := "b", target := "join" }, { source := "c", target := "join" },
      { source := "join", target := "end" }] }

def laneTicks (lane : Nat) : Int64 := Int64.ofNat (lane % 3 + 1)

def fanId (layer : Nat) : String := "fan_" ++ toString layer
def joinId (layer : Nat) : String := "join_" ++ toString layer
def laneId (layer lane : Nat) : String := "wait_" ++ toString layer ++ "_" ++ toString lane

def beforeLayer : Nat → String
  | 0 => "start"
  | layer + 1 => joinId layer

def layerActions (width layer : Nat) : List Action :=
  { id := fanId layer, kind := Action.fanoutKind } ::
  { id := joinId layer, kind := Action.joinKind } ::
  (List.range width).map fun lane => delayAction (laneId layer lane) (laneTicks lane)

def layerEdges (width layer : Nat) : List Edge :=
  { source := beforeLayer layer, target := fanId layer } ::
  (List.range width).flatMap fun lane =>
    [{ source := fanId layer, target := laneId layer lane },
     { source := laneId layer lane, target := joinId layer }]

-- `depth` layers, each a fanout into `width` parallel delays and a join of all of them.
def layered (width depth : Nat) : Graph :=
  { actions := { id := "start", kind := Action.startKind } ::
      (List.range depth).flatMap (layerActions width) ++ [{ id := "end", kind := Action.endKind }]
    edges := (List.range depth).flatMap (layerEdges width) ++
      [{ source := beforeLayer depth, target := "end" }] }

end ActionGraph.Graph
