import ChartNet.Macro.Vector
import ChartNet.Error

/-!
# Macros of the robot's world

The world is bounded by a closed polygon, whose vertices are constants of the model. The
**distance** of a robot is its clearance to the nearest wall; its **intersection** is the fraction
of the path back from its goal after which it touches a wall, zero if it never does. Obstacles are
not modelled: their terms are constants.
-/

namespace ChartNet.Macro

open ChartNet.Expr

/-- The constant that holds the number of vertices of the boundary. -/
def boundaryCountName : String := "boundaries.count"

/-- What a robot can meet. -/
inductive Barrier where
  | all
  | boundaries
  | obstacles
deriving DecidableEq

/-- The barrier of a name. -/
def Barrier.ofName (name : String) : Result Barrier :=
  if name = "all" then .ok .all
  else if name = "boundaries" then .ok .boundaries
  else if name = "obstacles" then .ok .obstacles
  else failConfig (.unknownBarrier name)

/-- The number of vertices of the boundary, which must be whole and above one. -/
def boundaryCount (x : Option Float) : Result Nat :=
  match x with
  | none => failConfig .noBoundaries
  | some x =>
    match Number.toNat? x with
    | some n => if 1 < n then .ok n else failConfig (.boundaryCount x)
    | none => failConfig (.boundaryCount x)

/-- A vector of two expressions. -/
structure Vec where
  x : Expr
  y : Expr

/-- The vector from `b` to `a`. -/
def Vec.sub (a b : Vec) : Vec := ⟨minus a.x b.x, minus a.y b.y⟩

/-- The inner product of two vectors. -/
def Vec.dot (a b : Vec) : Expr := dot2d a.x a.y b.x b.y

/-- The cross product of two vectors. -/
def Vec.cross (a b : Vec) : Expr := cross2d a.x a.y b.x b.y

/-- The length of a vector. -/
def Vec.norm (a : Vec) : Expr := norm2d a.x a.y

/-- A vertex of the boundary. -/
def vertex (i : Nat) : Vec :=
  ⟨ident ("boundaries." ++ Number.natText i ++ ".x"),
    ident ("boundaries." ++ Number.natText i ++ ".y")⟩

/-- A name that belongs to a robot. -/
def robotName (robot part : String) : Expr :=
  ident ("robots." ++ robot ++ "." ++ part)

/-- The radius of a robot. -/
def radius (robot : String) : Expr := robotName robot "shape.radius"

/-- The position of a robot. -/
def pose (robot : String) : Vec := ⟨robotName robot "pose.x", robotName robot "pose.y"⟩

/-- The position of a robot in centimetres. -/
def poseCm (robot : String) : Vec := ⟨robotName robot "pose.x_cm", robotName robot "pose.y_cm"⟩

/-- The goal of a robot. -/
def goal (robot : String) : Vec := ⟨robotName robot "goal.x", robotName robot "goal.y"⟩

/-- The larger of two expressions. -/
def maximum (a b : Expr) : Expr := binary .max a b

/-- The smaller of two expressions. -/
def minimum (a b : Expr) : Expr := binary .min a b

/-- The absolute value of an expression. -/
def absolute (a : Expr) : Expr := unary .abs a

/-- The condition that one expression is at least another. -/
def atLeast (a b : Expr) : Expr := binary .ge a b

/-- Where a segment lies as seen from a point: its direction both ways, the vectors from the point
to its ends, its length, the distance of the point from its line and how far the point lies
beyond each of its ends. -/
structure Sight where
  ab : Vec
  ba : Vec
  pa : Vec
  pb : Vec
  norm : Expr
  across : Expr
  beyondA : Expr
  beyondB : Expr

/-- The segment from vertex `i` to the next one as seen from a point. -/
def sight (count i : Nat) (point : Vec) : Sight :=
  let a := vertex i
  let b := vertex ((i + 1) % count)
  let ab := b.sub a
  let ba := a.sub b
  let pa := a.sub point
  let pb := b.sub point
  let norm := ab.norm
  { ab, ba, pa, pb, norm
    across := quot (absolute (ab.cross pa)) norm
    beyondA := quot (ab.dot pa) norm
    beyondB := quot (ba.dot pb) norm }

/-- The **contact** of a robot with a wall: the fraction, in `[0, 1]`, of the way from its goal back
to its pose at which it no longer touches the wall; zero if its goal is free of the wall. -/
def contact (robot : String) (count i : Nat) : Expr :=
  let s := sight count i (goal robot)
  let r := radius robot
  let path := (pose robot).sub (goal robot)
  let perpendicular := eq (s.ab.dot path) (real 0)
  let parallel := eq (s.ab.cross path) (real 0)
  let within (beyond : Expr) : Expr :=
    and (atLeast beyond (real 0)) (binary .lt beyond r)
  let fromA := ite (within s.beyondA)
    (quot (minus (times s.norm r) (s.ab.dot s.pa)) (s.ba.dot path)) (real 1)
  let fromB := ite (within s.beyondB)
    (quot (minus (times s.norm r) (s.ba.dot s.pb)) (s.ab.dot path)) (real 1)
  let along := ite perpendicular (real 1) (minimum fromA fromB)
  let aside := ite (binary .or parallel (atLeast s.across r)) (real 1)
    (quot (minus (times s.norm r) (absolute (s.ab.cross s.pa))) (absolute (s.ab.cross path)))
  ite (atLeast (maximum s.across (maximum s.beyondA s.beyondB)) r) (real 0) (minimum along aside)

/-- The **clearance** between the border of a robot and a wall. -/
def clearance (robot : String) (count i : Nat) : Expr :=
  let s := sight count i (pose robot)
  let beyond := maximum (maximum s.beyondA s.beyondB) (real 0)
  minus (norm2d beyond s.across) (radius robot)

/-- The terms of all walls, combined to the right and ending in `base`. -/
def overWalls (count : Nat) (term : Nat → Expr) (combine : Expr → Expr → Expr) (base : Expr) :
    Expr :=
  (List.range count).foldr (fun i rest => combine (term i) rest) base

/-- The expansion of the intersection of a robot with a barrier. -/
def intersect (robot : String) (barrier : Barrier) (count : Nat) : Expr :=
  let walls := overWalls count (contact robot count) maximum (real 0)
  match barrier with
  | .all => maximum walls (real 0)
  | .boundaries => walls
  | .obstacles => real 0

/-- The expansion of the distance of a robot from a barrier. -/
def distance (robot : String) (barrier : Barrier) (count : Nat) : Expr :=
  let walls := overWalls count (clearance robot count) minimum (bool true)
  match barrier with
  | .all => maximum walls (bool true)
  | .boundaries => walls
  | .obstacles => bool true

/-- The expansion of the distance of a robot from a point. -/
def distanceToPoint (robot : String) (x y : Expr) : Expr :=
  let p := poseCm robot
  toM (norm2d (minus p.x (toCm x)) (minus p.y (toCm y)))

end ChartNet.Macro
