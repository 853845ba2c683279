import ChartNet.Model
import ChartNet.Number.Arithmetic

/-!
# The world of robots

A model may describe a **world**: a polygon as its boundary, robots in it, and how long a step of
the simulation takes. It becomes constants of the model and variables for the state of each
robot. Poses are kept in whole centimetres and degrees; the same in metres and radians, and the
goals, are transient variables.
-/

namespace ChartNet

/-- A point. -/
structure Point where
  x : Float
  y : Float
deriving DecidableEq

/-- Where a robot is, and the direction that it faces. -/
structure Pose where
  x : Float
  y : Float
  theta : Float
deriving DecidableEq

/-- A **robot**: its pose, its shape and how fast it is. -/
structure Robot where
  name : String
  pose : Pose
  radius : Float
  height : Float
  linearVelocity : Float
  angularVelocity : Float
deriving DecidableEq

/-- A **world**; its obstacles are not modelled. -/
structure World where
  step : Float
  boundary : List Point
  robots : List Robot
  obstacles : Option (List Json) := none
deriving DecidableEq

/-! ### Reading and writing -/

namespace World

open Schema

/-- A number that is not negative. -/
def sizeSchema : Schema Float := number [atLeast 0]

/-- The schema of a point. -/
def pointSchema : Schema Point :=
  object (Point.mk <$> field "x" number <*> field "y" number)

/-- The schema of a pose. -/
def poseSchema : Schema Pose :=
  object (Pose.mk <$> field "x" number <*> field "y" number <*> field "theta" number)

/-- The schema of a robot. -/
def robotSchema : Schema Robot :=
  let shape := object (Prod.mk <$> field "radius" sizeSchema <*> field "height" sizeSchema)
  object ((fun name pose (radius, height) linear angular =>
      ⟨name, pose, radius, height, linear, angular⟩)
    <$> field "name" nonEmpty <*> field "pose" poseSchema <*> field "shape" shape
    <*> field "linear_velocity" number <*> field "angular_velocity" number)

/-- The **schema** of a world. -/
def schema : Schema World :=
  object (World.mk <$> field "sim_step" (number [positive])
    <*> field "boundaries" (list pointSchema)
    <*> field "robots" (list robotSchema)
    <*> field "obstacles" (optional (list anything)))

/-- The JSON form of a robot. -/
def robotJson (r : Robot) : Json :=
  .obj [("name", .str r.name),
    ("pose", .obj [("x", .num r.pose.x), ("y", .num r.pose.y), ("theta", .num r.pose.theta)]),
    ("shape", .obj [("radius", .num r.radius), ("height", .num r.height)]),
    ("linear_velocity", .num r.linearVelocity), ("angular_velocity", .num r.angularVelocity)]

/-- The JSON form of a world. -/
def toJson (w : World) : Json :=
  .fields [("sim_step", some (.num w.step)),
    ("boundaries", some (.arr (w.boundary.map fun p => .obj [("x", .num p.x), ("y", .num p.y)]))),
    ("robots", some (.arr (w.robots.map robotJson))),
    ("obstacles", w.obstacles.map .arr)]

/-! ### The world in a model -/

/-- A length in whole centimetres. -/
def centimetres (metres : Float) : Float :=
  Number.truncate (metres * 100)

/-- An angle in whole degrees. -/
def degrees (radians : Float) : Float :=
  Number.truncate (radians * 180 / NamedConstant.pi.value)

/-- A constant of type real. -/
def realConstant (name : String) (x : Float) : Constant :=
  { name, type := .real, value := .real x }

/-- How the names of the variables and constants of a robot start. -/
def robotStart (r : Robot) : String :=
  "robots." ++ r.name ++ "."

/-- The **constants** of the boundary and of time. -/
def boundaryConstants (w : World) : List Constant :=
  [realConstant "sim_step" w.step,
    { name := Macro.boundaryCountName, type := .int, value := .nat w.boundary.length }] ++
  (w.boundary.zipIdx).flatMap fun (p, i) =>
    let start := "boundaries." ++ Number.natText i
    [realConstant (start ++ ".x") p.x, realConstant (start ++ ".y") p.y]

/-- The **variables** of a robot. -/
def robotVariables (r : Robot) : List Variable :=
  let start := robotStart r
  let whole (field : String) (x : Float) : Variable :=
    { name := start ++ field, type := .int, init := .int x }
  [whole "pose.x_cm" (centimetres r.pose.x), whole "pose.y_cm" (centimetres r.pose.y),
    whole "pose.theta_deg" (degrees r.pose.theta)] ++
  ["pose.x", "pose.y", "pose.theta", "goal.x", "goal.y", "goal.theta"].map fun field =>
    { name := start ++ field, type := .real, init := DataType.real.default, transient := true }

/-- The constants of a robot. -/
def robotConstants (r : Robot) : List Constant :=
  let start := robotStart r
  [realConstant (start ++ "shape.radius") r.radius, realConstant (start ++ "shape.height") r.height,
    realConstant (start ++ "linear_velocity") r.linearVelocity,
    realConstant (start ++ "angular_velocity") r.angularVelocity]

end World

namespace Model

/-- Adds constants one by one. -/
def addConstants : List Constant → ModelM Unit
  | [] => return
  | c :: cs => do
    .change (addConstant c)
    addConstants cs

/-- Adds the variables and constants of robots. -/
def addRobots : List Robot → ModelM Unit
  | [] => return
  | r :: rs => do
    addVariables (World.robotVariables r)
    addConstants (World.robotConstants r)
    addRobots rs

/-- Declares what a **world** consists of. -/
def addWorld (w : World) : ModelM Unit := do
  addConstants w.boundaryConstants
  addRobots w.robots

end Model

end ChartNet
