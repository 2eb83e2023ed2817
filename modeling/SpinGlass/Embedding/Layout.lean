import SpinGlass.Embedding.Router

/-!
# Layout embedding

Variables have places in the plane. The places are mapped onto the grid of cells of a Chimera
graph, and chains are rooted near the cells of their variables.
-/

namespace SpinGlass

/-- Places of variables. -/
abbrev Locations (K : Type) := Table Nat (K × K)

namespace Layout

variable {K : Type} [Coefficient K]

/-- The mean of some points. -/
def centroid (points : List (K × K)) : K × K :=
  let count : K := Coefficient.ofNat points.length
  let total := points.foldl (fun (x, y) p => (x + p.1, y + p.2)) ((0, 0) : K × K)
  (total.1 / count, total.2 / count)

/-- The place of a variable: its own, else the mean of its neighbours', else `everywhere`. -/
def pointOf (locations : Locations K) (logical : LogicalGraph) (everywhere : K × K) (v : Nat) :
    K × K :=
  match locations.get? v with
  | some point => point
  | none =>
    match (logical.neighbors v).filterMap locations.get? with
    | [] => everywhere
    | near => centroid near

/-- The least and the greatest of some numbers, unordered ones left aside. -/
def bounds (values : List K) : Option (K × K) :=
  values.foldl
    (fun known v =>
      if v == v then
        match known with
        | some (least, greatest) =>
          some (Coefficient.smaller least v, Coefficient.larger greatest v)
        | none => some (v, v)
      else known)
    none

/-- The scale that fits an extent into `cells` cells, none if there is no extent. -/
def fit (extent : Option (K × K)) (cells : Nat) : Option K :=
  match extent with
  | some (least, greatest) =>
    if least < greatest then some (Coefficient.ofNat (cells - 1) / (greatest - least)) else none
  | none => none

/-- The common scale of both directions: the smaller one, and zero without any extent. -/
def commonScale (x y : Option K) : K :=
  let scale :=
    match x, y with
    | some a, some b => Coefficient.smaller a b
    | some a, none => a
    | none, some b => b
    | none, none => 0
  if Coefficient.isFinite scale then scale else 0

/-- The cell of a number in one direction. -/
def cellAlong (extent : Option (K × K)) (scale : K) (cells : Nat) (v : K) : Nat :=
  match extent with
  | some (least, _) => min (Coefficient.nearestNat ((v - least) * scale)) (cells - 1)
  | none => 0

/-- The row and column of the cell near which each variable is to be rooted. -/
def hints (locations : Locations K) (logical : LogicalGraph) (shape : Chimera) :
    Except EmbedError (List (Nat × Nat)) :=
  let vars := List.range logical.size
  match vars.filterMap locations.get? with
  | [] => .error .missingLocations
  | known =>
    let points := vars.map (pointOf locations logical (centroid known))
    let xs := bounds (points.map (·.1))
    let ys := bounds (points.map (·.2))
    let scale := commonScale (fit xs shape.cols) (fit ys shape.rows)
    .ok (points.map fun (x, y) =>
      (cellAlong ys scale shape.rows y, cellAlong xs scale shape.cols x))

/-- The bias towards the hints: half a unit for each cell of distance, within bounds that widen by
the radius. -/
def bias (target : Target) (shape : Chimera) (hints : List (Nat × Nat)) (radius : Nat) :
    RootBias K where
  cost v slot attempt :=
    let (row, col) := shape.cellOf (target.qubit slot)
    let (hintRow, hintCol) := hints.getD v (0, 0)
    let d := Chimera.distance row hintRow + Chimera.distance col hintCol
    if d ≤ radius + attempt * max radius 1 then some (Coefficient.ofNat d / Coefficient.ofNat 2)
    else none
  attempts := (shape.rows + shape.cols) / max radius 1 + 2

/-- Whether a variable is placed no later than another: by row, then column, then number. -/
def placedBefore (a b : (Nat × Nat) × Nat) : Bool :=
  (compareLex (compareOn (·.1.1)) (compareLex (compareOn (·.1.2)) (compareOn (·.2))) a b).isLE

/-- The variables in the order of their hints. -/
def order (hints : List (Nat × Nat)) : List Nat :=
  (hints.zipIdx.mergeSort placedBefore).map (·.2)

/-- Routes all variables near their hints. -/
@[specialize] def embed (locations : Locations K) (radius maxRounds : Nat) (seed : UInt64)
    (logical : LogicalGraph) (target : Target) (cancelled : Bool) :
    Except EmbedError Embedding := do
  match target.shape? with
  | none => throw .notChimera
  | some shape =>
    let hints ← hints locations logical shape
    let task : RoutingTask K := ⟨logical, target, bias target shape hints radius⟩
    match Routing.run task (order hints) maxRounds seed cancelled with
    | some chains => return .ofSlots target chains
    | none => throw (if cancelled then .cancelled else .noEmbedding 1)

end Layout

end SpinGlass
