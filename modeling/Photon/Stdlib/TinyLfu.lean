import Photon.Stdlib.Sketch

/-!
The admission test of `utils/stdlib/tiny_lfu.go`, which compares sketch
estimates of a newcomer and of the entry it would replace.
-/

namespace Photon.Stdlib

structure TinyLfu (K : Type) where
  cms : CountMinSketch
  hash : K → UInt64
  admitOnEq : Bool

namespace TinyLfu

variable {K : Type}

def new (depth : Int) (width agingEvery : UInt64) (hash : K → UInt64) :
    Except String (TinyLfu K) := do
  let cms ← CountMinSketch.new depth width agingEvery
  return ⟨cms, hash, true⟩

def record (t : TinyLfu K) (key : K) : TinyLfu K :=
  {t with cms := t.cms.increment (t.hash key)}

def estimate (t : TinyLfu K) (key : K) : Nat := t.cms.estimate (t.hash key)

def shouldAdmit (t : TinyLfu K) (incoming victim : K) : Bool :=
  let fi := t.cms.estimate (t.hash incoming)
  let fv := t.cms.estimate (t.hash victim)
  if t.admitOnEq then decide (fv ≤ fi) else decide (fv < fi)

end TinyLfu

end Photon.Stdlib
