import Mathlib.Tactic

/-!
The Count-Min Sketch of `utils/stdlib/sketch.go`: a table of saturating 32-bit
counters addressed by one salted hash per row, halved every `agingEvery`
observations.
-/

namespace Photon.Stdlib

def minimumCountMinSketchWidth : UInt64 := 16

def maximumCountMinSketchDepth : Int := 8

def maxCounter : Nat := 2 ^ 32 - 1

structure CountMinSketch where
  depth : Nat
  width : UInt64
  mask : UInt64
  rows : List (List Nat)
  salt : List UInt64
  n : Nat
  agingEvery : UInt64

def mix64 (z : UInt64) : UInt64 :=
  let z := (z ^^^ (z >>> 30)) * 0xbf58476d1ce4e5b9
  let z := (z ^^^ (z >>> 27)) * 0x94d049bb133111eb
  z ^^^ (z >>> 31)

def deriveSalts : List UInt64 :=
  [0x9e3779b97f4a7c15, 0xc2b2ae3d27d4eb4f, 0x165667b19e3779f9, 0x85ebca77c2b2ae63,
    0x27d4eb2f165667c5, 0x94d049bb133111eb, 0xbf58476d1ce4e5b9, 0x2545f4914f6cdd1d]

def hash64String (s : String) : UInt64 :=
  s.toUTF8.data.toList.foldl (fun h b => (h ^^^ b.toUInt64) * 1099511628211)
    1469598103934665603

namespace CountMinSketch

/-- Widths that are not a power of two switch the mask off. -/
def new (depth : Int) (width agingEvery : UInt64) : Except String CountMinSketch :=
  if depth ≤ 0 ∨ maximumCountMinSketchDepth < depth then
    .error "countMinSketch: depth must be in [1,8]"
  else if width < minimumCountMinSketchWidth then
    .error "countMinSketch: width must be >= 16"
  else
    .ok {
      depth := depth.toNat
      width := width
      mask := if width &&& (width - 1) ≠ 0 then 0 else width - 1
      rows := List.replicate depth.toNat (List.replicate width.toNat 0)
      salt := deriveSalts
      n := 0
      agingEvery := agingEvery}

variable (c : CountMinSketch)

def index (r : Nat) (h : UInt64) : Nat :=
  let h2 := mix64 (h ^^^ c.salt.getD r 0)
  if c.mask ≠ 0 then (h2 &&& c.mask).toNat else (h2 % c.width).toNat

def age : CountMinSketch :=
  {c with rows := c.rows.map (fun row => row.map (· / 2))}

def reset : CountMinSketch :=
  {c with rows := c.rows.map (fun row => row.map (fun _ => 0)), n := 0}

/-- One observation in every row, with no effect on saturated counters. -/
def bumpRows (h : UInt64) : List (List Nat) :=
  c.rows.mapIdx (fun r row => row.modify (c.index r h)
    (fun v => if v ≠ maxCounter then v + 1 else v))

def increment (h : UInt64) : CountMinSketch :=
  let counted := {c with rows := c.bumpRows h, n := (c.n + 1) % 2 ^ 64}
  if counted.agingEvery ≠ 0 ∧ counted.n % counted.agingEvery.toNat = 0 then
    counted.age
  else counted

def estimate (h : UInt64) : Nat :=
  (List.range c.depth).foldl (fun least r =>
    let v := (c.rows.getD r []).getD (c.index r h) 0
    if v < least then v else least) maxCounter

end CountMinSketch

end Photon.Stdlib
