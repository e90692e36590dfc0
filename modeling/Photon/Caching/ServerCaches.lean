import Photon.Caching.Keys
import Photon.Redis.Keyspace

/-!
The caches whose records live on a server. The Redis cache works on a keyspace with
deadlines, the Memcached cache on a map from keys to items. Either sends one command for
a request, under the key that `formatKey` makes.
-/

namespace Photon.Caching

open Photon.Lib Photon.FlashDb

variable {V : Type} {key other : String}

namespace RedisCache

open Photon.Redis

/-- A stored text. One in the decimal form of an `int64` is kept as its number. -/
def dataOf (bytes : String) : Data :=
  match bytes.toInt? with
  | some n => if toString n = bytes ∧ -2 ^ 63 ≤ n ∧ n < 2 ^ 63 then .number n else .text bytes
  | none => .text bytes

def expiration (ttl : Int64) : Int := wrapI64 (ttl.toInt * 1000000000)

/-- `SET`, with a deadline for a positive expiration. Times of the server are in
milliseconds. -/
def setCommand (ks : Keyspace) (now : Nat) (key bytes : String) (expiration : Int) : Keyspace :=
  ks.put key (some ⟨dataOf bytes,
    if 0 < expiration then some (now + (expiration / 1000000).toNat) else none⟩)

variable (ks : Keyspace) (ctx : Option String) (now : Nat)

def getContext (a : Address) : Except String (Option String) :=
  match ctx with
  | some e => .error e
  | none => ks.get now (formatKey a.ns a.coll a.key)

def setContext (R : AnyValue V) (req : SetRequest V) : Keyspace × Except String Bool :=
  match ctx with
  | some e => (ks, .error e)
  | none =>
    match getSerialisedValue R req.value with
    | .error e => (ks, .error e)
    | .ok bytes =>
      (setCommand ks now (formatKey req.address.ns req.address.coll req.address.key) bytes
        (expiration req.ttl), .ok true)

def deleteContext (a : Address) : Keyspace × Except String Bool :=
  match ctx with
  | some e => (ks, .error e)
  | none =>
    let out := ks.del now (formatKey a.ns a.coll a.key)
    (out.1, .ok (decide (0 < out.2)))

def incrementContext (req : IncrementRequest) : Keyspace × Except String Unit :=
  match ctx with
  | some e => (ks, .error e)
  | none =>
    match ks.incrBy now (formatKey req.address.ns req.address.coll req.address.key)
        req.value.toInt with
    | .error e => (ks, .error e)
    | .ok out => (out.1, .ok ())

def write (R : AnyValue V) : Write V → Keyspace
  | .set req => (setContext ks ctx now R req).1
  | .delete address => (deleteContext ks ctx now address).1
  | .increment req => (incrementContext ks ctx now req).1

theorem incrBy_ne (hne : other ≠ key) (delta : Int) {out : Keyspace × Int}
    (h : ks.incrBy now key delta = .ok out) : out.1 other = ks other := by
  rcases Keyspace.incrBy_congr (rfl : ks key = ks key) now delta with ⟨e, he, -⟩ | ⟨x, n, hok, -⟩
  · rw [he] at h
    cases h
  · rw [hok] at h
    cases h
    exact Keyspace.put_ne hne _

/-- A write under another key leaves the entry of a key as it is. -/
theorem write_ne (R : AnyValue V) (w : Write V) {other : String}
    (hne : other ≠ formatKey w.address.ns w.address.coll w.address.key) :
    write ks ctx now R w other = ks other := by
  cases ctx with
  | some e => cases w <;> rfl
  | none =>
    cases w with
    | set req =>
      simp only [write, setContext]
      split
      · rfl
      · exact Keyspace.put_ne hne _
    | delete address =>
      simp only [write, deleteContext, Keyspace.del]
      split
      · rfl
      · exact Keyspace.put_ne hne _
    | increment req =>
      simp only [write, incrementContext]
      split
      · rfl
      · next out hout => exact incrBy_ne ks now hne _ hout

end RedisCache

namespace MemcachedCache

structure Item where
  value : String
  expiration : Int32
deriving DecidableEq

abbrev Server := String → Option Item

inductive ClientError where
  | cacheMiss
  | other (message : String)
deriving DecidableEq

def memcachedTTL (ttl : Int64) : Except String Int32 :=
  if ttl.toInt < 0 ∨ 2147483647 < ttl.toInt then .error "memcached: TTL out of range"
  else .ok ttl.toInt32

def memcachedDelta (value : Int64) : Except String UInt64 :=
  if value.toInt < 0 then .error "memcached: delta cannot be negative" else .ok value.toUInt64

def counterValue (value : String) : Option Nat :=
  match value.toNat? with
  | some n => if value.toList.all Char.isDigit ∧ n < 2 ^ 64 then some n else none
  | none => none

/-- `incr` of the server: the value is a decimal number, and the sum wraps at 64 bits. -/
def serverIncrement (server : Server) (key : String) (delta : UInt64) :
    Except ClientError Server :=
  match server key with
  | none => .error .cacheMiss
  | some item =>
    match counterValue item.value with
    | none =>
      .error (.other "CLIENT_ERROR cannot increment or decrement non-numeric value")
    | some n =>
      .ok (Function.update server key
        (some {item with value := toString ((n + delta.toNat) % 2 ^ 64)}))

def serverGet (server : Server) (key : String) : Except ClientError Item :=
  match server key with
  | none => .error .cacheMiss
  | some item => .ok item

def serverDelete (server : Server) (key : String) : Server × Except ClientError Unit :=
  match server key with
  | none => (server, .error .cacheMiss)
  | some _ => (Function.update server key none, .ok ())

/-- An error of a method: its context, its own check, or the client. -/
inductive Failure where
  | context (e : String)
  | text (message : String)
  | client (e : ClientError)
deriving DecidableEq

variable (server : Server) (ctx : Option String)

def getContext (a : Address) : Except Failure (Option String) :=
  match ctx with
  | some e => .error (.context e)
  | none =>
    match serverGet server (formatKey a.ns a.coll a.key) with
    | .error .cacheMiss => .ok none
    | .error e => .error (.client e)
    | .ok item => .ok (some item.value)

def setContext (R : AnyValue V) (req : SetRequest V) : Server × Except Failure Bool :=
  match ctx with
  | some e => (server, .error (.context e))
  | none =>
    match memcachedTTL req.ttl with
    | .error e => (server, .error (.text e))
    | .ok expiration =>
      match getSerialisedValue R req.value with
      | .error e => (server, .error (.text e))
      | .ok bytes =>
        (Function.update server
          (formatKey req.address.ns req.address.coll req.address.key)
          (some ⟨bytes, expiration⟩), .ok true)

def deleteContext (a : Address) : Server × Except Failure Bool :=
  match ctx with
  | some e => (server, .error (.context e))
  | none =>
    let out := serverDelete server (formatKey a.ns a.coll a.key)
    match out.2 with
    | .error .cacheMiss => (out.1, .ok false)
    | .error e => (out.1, .error (.client e))
    | .ok () => (out.1, .ok true)

def incrementContext (req : IncrementRequest) : Server × Except Failure Unit :=
  match ctx with
  | some e => (server, .error (.context e))
  | none =>
    match memcachedDelta req.value with
    | .error e => (server, .error (.text e))
    | .ok delta =>
      match serverIncrement server
          (formatKey req.address.ns req.address.coll req.address.key) delta with
      | .error e => (server, .error (.client e))
      | .ok next => (next, .ok ())

def write (R : AnyValue V) : Write V → Server
  | .set req => (setContext server ctx R req).1
  | .delete address => (deleteContext server ctx address).1
  | .increment req => (incrementContext server ctx req).1

theorem serverIncrement_ne (hne : other ≠ key) {delta : UInt64} {next : Server}
    (h : serverIncrement server key delta = .ok next) : next other = server other := by
  unfold serverIncrement at h
  split at h
  · cases h
  · split at h
    · cases h
    · cases h
      exact Function.update_of_ne hne ..

theorem serverDelete_ne (hne : other ≠ key) : (serverDelete server key).1 other = server other := by
  unfold serverDelete
  split
  · rfl
  · exact Function.update_of_ne hne ..

/-- A write under another key leaves the item of a key as it is. -/
theorem write_ne (R : AnyValue V) (w : Write V) {other : String}
    (hne : other ≠ formatKey w.address.ns w.address.coll w.address.key) :
    write server ctx R w other = server other := by
  cases ctx with
  | some e => cases w <;> rfl
  | none =>
    cases w with
    | set req =>
      simp only [write, setContext]
      split
      · rfl
      · split
        · rfl
        · exact Function.update_of_ne hne ..
    | delete address =>
      have hdelete := serverDelete_ne server hne
      simp only [write, deleteContext]
      split <;> exact hdelete
    | increment req =>
      simp only [write, incrementContext]
      split
      · rfl
      · split
        · rfl
        · next next hnext => exact serverIncrement_ne server hne hnext

end MemcachedCache

end Photon.Caching
