import Photon.Caching.FlashCache
import Photon.Caching.ServerCaches
import Photon.FlashDb.StoreInvariant

/-!
Isolation of addresses. Requests made under other addresses leave what a cache holds
under an address alone, as long as the physical keys are different. The Redis and the
Memcached cache give different addresses different keys; FlashDB does not tell a
namespace from a collection when the other name is empty.
-/

namespace Photon.Caching

open Photon.FlashDb Photon.Redis

/-- One address has as its namespace what the other has as its collection, and both leave
the other name empty. -/
def Address.Swapped (a b : Address) : Prop :=
  a.key = b.key ∧
    (a.coll = "" ∧ b.ns = "" ∧ a.ns = b.coll ∨ a.ns = "" ∧ b.coll = "" ∧ a.coll = b.ns)

theorem Address.parts_eq_iff {a b : Address} : a.parts = b.parts ↔ a = b ∨ a.Swapped b := by
  obtain ⟨ns, coll, key⟩ := a
  obtain ⟨ns', coll', key'⟩ := b
  by_cases hns : ns = "" <;> by_cases hcoll : coll = "" <;> by_cases hns' : ns' = "" <;>
    by_cases hcoll' : coll' = "" <;>
    simp [Address.parts, Address.Swapped, hns, hcoll, hns', hcoll'] <;> tauto

/-- A request with the error of its context, if there is one, and the time of the server. -/
structure Sent (V : Type) where
  ctx : Option String
  now : Nat
  write : Write V

variable {L V : Type}

def Sent.address (sent : Sent V) : Address := sent.write.address

variable (R : AnyValue V)

def RedisCache.run (ks : Keyspace) (requests : List (Sent V)) : Keyspace :=
  requests.foldl (fun ks sent => RedisCache.write ks sent.ctx sent.now R sent.write) ks

def MemcachedCache.run (server : MemcachedCache.Server) (requests : List (Sent V)) :
    MemcachedCache.Server :=
  requests.foldl (fun server sent => MemcachedCache.write server sent.ctx R sent.write) server

variable {requests : List (Sent V)}

/-- A sequence of writes leaves alone what each of them leaves alone. -/
private theorem foldl_write_eq {E : Type} {write : (String → E) → Sent V → String → E}
    {other : String} (h : ∀ sent ∈ requests, ∀ server, write server sent other = server other)
    (server : String → E) : requests.foldl write server other = server other := by
  induction requests generalizing server with
  | nil => rfl
  | cons sent requests ih =>
    obtain ⟨hfirst, hrest⟩ := List.forall_mem_cons.mp h
    exact (ih hrest _).trans (hfirst server)

theorem RedisCache.run_ne (ks : Keyspace) {other : String} (hne : ∀ sent ∈ requests,
      other ≠ formatKey sent.address.ns sent.address.coll sent.address.key) :
    RedisCache.run R ks requests other = ks other := by
  apply foldl_write_eq
  intro sent hsent ks
  exact RedisCache.write_ne ks sent.ctx sent.now R sent.write (hne sent hsent)

theorem MemcachedCache.run_ne (server : Server) {other : String} (hne : ∀ sent ∈ requests,
      other ≠ formatKey sent.address.ns sent.address.coll sent.address.key) :
    MemcachedCache.run R server requests other = server other := by
  apply foldl_write_eq
  intro sent hsent server
  exact MemcachedCache.write_ne server sent.ctx R sent.write (hne sent hsent)

variable [AdmissionPolicy L]

def FlashDBCache.run (c : FlashDBCache L) (requests : List (Sent V)) : FlashDBCache L :=
  requests.foldl (fun c sent => c.write R sent.ctx sent.now sent.write) c

/-- After requests under other physical keys the record of an address is the same, or a
`Set` has evicted it. -/
theorem FlashDBCache.recordAt_run (c : FlashDBCache L) {b : Address}
    (hne : ∀ sent ∈ requests, composeKey sent.address.ns sent.address.coll sent.address.key ≠
      composeKey b.ns b.coll b.key) :
    (c.run R requests).recordAt b = c.recordAt b ∨
      (∃ sent ∈ requests, ∃ req, sent.write = .set req) ∧ (c.run R requests).recordAt b = none := by
  induction requests generalizing c with
  | nil => exact Or.inl rfl
  | cons sent requests ih =>
    obtain ⟨hfirst, hrest⟩ := List.forall_mem_cons.mp hne
    have hstep := c.recordAt_write R sent.ctx sent.now sent.write hfirst
    rcases ih (c.write R sent.ctx sent.now sent.write) hrest with
      hsame | ⟨⟨other, hmem, hset⟩, hnone⟩
    · rcases hstep with hstep | ⟨hset, hgone⟩
      · exact Or.inl (hsame.trans hstep)
      · exact Or.inr ⟨⟨sent, List.mem_cons_self, hset⟩, hsame.trans hgone⟩
    · exact Or.inr ⟨⟨other, List.mem_cons_of_mem sent hmem, hset⟩, hnone⟩

/-- Different addresses have different keys on a Redis and on a Memcached server, and
requests under other addresses are not seen there. In FlashDB an address shares its key
with the swapped one; requests under addresses that are not swapped leave its record
alone, apart from eviction. -/
theorem addresses_isolated_unless_swapped (R : AnyValue V) (b : Address) (hb : b.Plain) :
    (∀ a : Address, a.Plain → a ≠ b →
      RedisCache.formatKey a.ns a.coll a.key ≠ RedisCache.formatKey b.ns b.coll b.key ∧
      MemcachedCache.formatKey a.ns a.coll a.key ≠ MemcachedCache.formatKey b.ns b.coll b.key ∧
      (composeKey a.ns a.coll a.key = composeKey b.ns b.coll b.key ↔ a.Swapped b)) ∧
    ∀ requests : List (Sent V),
      (∀ sent ∈ requests, sent.address.Plain ∧ sent.address ≠ b) →
      (∀ ks : Keyspace, RedisCache.run R ks requests (RedisCache.formatKey b.ns b.coll b.key) =
        ks (RedisCache.formatKey b.ns b.coll b.key)) ∧
      (∀ server : MemcachedCache.Server,
        MemcachedCache.run R server requests (MemcachedCache.formatKey b.ns b.coll b.key) =
          server (MemcachedCache.formatKey b.ns b.coll b.key)) ∧
      ((∀ sent ∈ requests, ¬ sent.address.Swapped b) → ∀ c : FlashDBCache L,
        (c.run R requests).recordAt b = c.recordAt b ∨
          (∃ sent ∈ requests, ∃ req, sent.write = .set req) ∧
            (c.run R requests).recordAt b = none) := by
  have hjoin : ∀ a : Address, a.Plain → a ≠ b →
      joinKey a.ns a.coll a.key ≠ joinKey b.ns b.coll b.key :=
    fun a ha hne heq => hne (joinKey_inj ha hb heq)
  have hcompose : ∀ a : Address, a.Plain → a ≠ b →
      (composeKey a.ns a.coll a.key = composeKey b.ns b.coll b.key ↔ a.Swapped b) := by
    intro a ha hne
    rw [composeKey_eq_iff ha hb, Address.parts_eq_iff, or_iff_right hne]
  refine ⟨fun a ha hne => ⟨hjoin a ha hne, hjoin a ha hne, hcompose a ha hne⟩, ?_⟩
  intro requests hrequests
  have hkeys : ∀ sent ∈ requests, joinKey b.ns b.coll b.key ≠
      joinKey sent.address.ns sent.address.coll sent.address.key :=
    fun sent hsent => (hjoin sent.address (hrequests sent hsent).1 (hrequests sent hsent).2).symm
  refine ⟨fun ks => RedisCache.run_ne R ks hkeys,
    fun server => MemcachedCache.run_ne R server hkeys, fun hswapped c => ?_⟩
  refine c.recordAt_run R fun sent hsent heq => hswapped sent hsent ?_
  exact (hcompose sent.address (hrequests sent hsent).1 (hrequests sent hsent).2).mp heq

def stringValues : AnyValue String where
  isNil _ := false
  asFields _ := none
  stored := .string
  asBytes := some
  marshal := .ok

/-- A collection of the same namespace does not see the `Set` of another one. -/
theorem settings_isolated_from_profile :
    RedisCache.run stringValues (fun _ => none)
      [⟨none, 5, .set ⟨⟨"users", "settings", "42"⟩, "dark", none, 60⟩⟩] "users:profile:42" =
        none := by
  have hb : (Address.mk "users" "profile" "42").Plain :=
    ⟨by decide, by decide, by decide, by decide⟩
  refine ((addresses_isolated_unless_swapped (L := Photon.Stdlib.TinyLfu String) stringValues
    ⟨"users", "profile", "42"⟩ hb).2 _ ?_).1 (fun _ => none)
  intro sent hsent
  obtain rfl := List.mem_singleton.mp hsent
  exact ⟨⟨by decide, by decide, by decide, by decide⟩, by decide⟩

/-- What is set in the namespace `acme` without a collection is read from the collection
`acme` without a namespace. -/
theorem namespace_read_as_collection :
    ∃ c : FlashDBCache (Photon.Stdlib.TinyLfu String),
      FlashDb.new smallOptions = .ok c.store ∧
      (Address.mk "acme" "" "k").Plain ∧ (Address.mk "" "acme" "k").Plain ∧
      c.recordAt ⟨"", "acme", "k"⟩ = none ∧
      ((c.write stringValues none 5 (.set ⟨⟨"acme", "", "k"⟩, "v", none, 0⟩)).getContext none
        (some (⟨"", "acme", "k"⟩, [])) 6).2 = .ok (some (AList.singleton "bin" (.string "v"))) := by
  have hnew : ∃ st, FlashDb.new smallOptions = .ok st := ⟨_, rfl⟩
  obtain ⟨st, hst⟩ := hnew
  refine ⟨⟨st, 0⟩, hst, ⟨by decide, by decide, by decide, by decide⟩,
    ⟨by decide, by decide, by decide, by decide⟩, ?_, ?_⟩
  · cases hst
    rfl
  · cases hst
    rfl

end Photon.Caching
