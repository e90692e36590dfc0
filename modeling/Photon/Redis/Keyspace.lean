import Mathlib.Tactic

/-!
The part of a Redis server the lock and rate-limit scripts rely on: keys with an
optional deadline and the commands on them at a server time in milliseconds. A
key whose deadline has passed is absent to every command. Scripts run one at a
time, so a script is a function on the keyspace.
-/

namespace Photon.Redis

/-- What a key holds. A string in decimal form is kept as its number, which is
all a counter and a bucket ever hold. -/
inductive Data where
  | text (s : String)
  | number (n : Int)
  | hash (fields : String → Option Int)

structure Entry where
  data : Data
  deadline : Option Nat

def Entry.gone (e : Entry) (now : Nat) : Bool :=
  match e.deadline with
  | none => false
  | some deadline => decide (deadline < now)

abbrev Keyspace := String → Option Entry

inductive Reply where
  | int (n : Int)
  | bulk (s : String)
  | nil
deriving DecidableEq

def wrongType : String :=
  "WRONGTYPE Operation against a key holding the wrong kind of value"

namespace Keyspace

variable (ks : Keyspace) (now : Nat) (key : String)

def read : Option Entry := (ks key).filter (fun e => !e.gone now)

def put (e : Option Entry) : Keyspace := Function.update ks key e

def existsKey : Bool := (ks.read now key).isSome

def get : Except String (Option String) :=
  match ks.read now key with
  | none => .ok none
  | some ⟨.text s, _⟩ => .ok (some s)
  | some ⟨.number n, _⟩ => .ok (some (toString n))
  | some ⟨.hash _, _⟩ => .error wrongType

def incrBy (delta : Int) : Except String (Keyspace × Int) :=
  match ks.read now key with
  | none => .ok (ks.put key (some ⟨.number delta, none⟩), delta)
  | some ⟨.number n, deadline⟩ =>
    if -2 ^ 63 ≤ n + delta ∧ n + delta < 2 ^ 63 then
      .ok (ks.put key (some ⟨.number (n + delta), deadline⟩), n + delta)
    else .error "ERR increment or decrement would overflow"
  | some ⟨.text _, _⟩ => .error "ERR value is not an integer or out of range"
  | some ⟨.hash _, _⟩ => .error wrongType

def incr : Except String (Keyspace × Int) := ks.incrBy now key 1

def psetex (millis : Int) (value : String) : Except String Keyspace :=
  if millis ≤ 0 then .error "ERR invalid expire time in 'psetex' command"
  else .ok (ks.put key (some ⟨.text value, some (now + millis.toNat)⟩))

def del : Keyspace × Int :=
  match ks.read now key with
  | none => (ks, 0)
  | some _ => (ks.put key none, 1)

/-- A deadline that is not in the future removes the key at once. -/
def pexpire (millis : Int) : Keyspace × Int :=
  match ks.read now key with
  | none => (ks, 0)
  | some e =>
    if millis ≤ 0 then (ks.put key none, 1)
    else (ks.put key (some {e with deadline := some (now + millis.toNat)}), 1)

def hmget (names : List String) : Except String (List (Option Int)) :=
  match ks.read now key with
  | none => .ok (names.map (fun _ => none))
  | some ⟨.hash fields, _⟩ => .ok (names.map fields)
  | some _ => .error wrongType

def assign (fields : String → Option Int) (pairs : List (String × Int)) : String → Option Int :=
  pairs.foldl (fun fields pair => Function.update fields pair.1 (some pair.2)) fields

/-- A new hash has no deadline, an existing one keeps its own. -/
def hmset (pairs : List (String × Int)) : Except String Keyspace :=
  match ks.read now key with
  | none => .ok (ks.put key (some ⟨.hash (assign (fun _ => none) pairs), none⟩))
  | some ⟨.hash fields, deadline⟩ =>
    .ok (ks.put key (some ⟨.hash (assign fields pairs), deadline⟩))
  | some _ => .error wrongType

variable {ks now key}

@[simp]
theorem put_self (e : Option Entry) : ks.put key e key = e := Function.update_self ..

theorem put_ne {other : String} (hne : other ≠ key) (e : Option Entry) :
    ks.put key e other = ks other := Function.update_of_ne hne ..

theorem read_eq_some {e : Entry} :
    ks.read now key = some e ↔ ks key = some e ∧ e.gone now = false := by
  simp [read, Option.filter_eq_some_iff]

theorem read_put_ne {other : String} (hne : other ≠ key) (e : Option Entry) :
    (ks.put key e).read now other = ks.read now other := by
  rw [read, read, put_ne hne]

theorem read_put_self {next : Option Entry} {e : Entry} :
    (ks.put key next).read now key = some e ↔ next = some e ∧ e.gone now = false := by
  rw [read_eq_some, put_self]

theorem pexpire_of_live {e : Entry} (h : ks.read now key = some e) (millis : Int) :
    ks.pexpire now key millis =
      (ks.put key (if millis ≤ 0 then none
        else some {e with deadline := some (now + millis.toNat)}), 1) := by
  unfold pexpire
  rw [h]
  dsimp only
  split <;> rfl

theorem read_eq_none_of_absent (h : ks key = none) : ks.read now key = none := by
  simp [read, h]

/-- What is still there later was there before. -/
theorem read_mono {later : Nat} (hle : now ≤ later) {e : Entry}
    (h : ks.read later key = some e) : ks.read now key = some e := by
  obtain ⟨hkey, hlive⟩ := read_eq_some.mp h
  refine read_eq_some.mpr ⟨hkey, ?_⟩
  unfold Entry.gone at hlive ⊢
  cases hdeadline : e.deadline with
  | none => rfl
  | some deadline =>
    simp only [hdeadline, decide_eq_false_iff_not] at hlive ⊢
    omega

def write (ks : Keyspace) (writes : List (String × Option Entry)) : Keyspace :=
  writes.foldl (fun ks w => ks.put w.1 w.2) ks

variable {name : String}

/-- Servers that agree under a name agree under it after the same writes. -/
theorem write_congr {ks ks' : Keyspace} (h : ks name = ks' name)
    (writes : List (String × Option Entry)) : ks.write writes name = ks'.write writes name := by
  induction writes generalizing ks ks' with
  | nil => exact h
  | cons w rest ih =>
    refine ih ?_
    show ks.put w.1 w.2 name = ks'.put w.1 w.2 name
    by_cases heq : name = w.1
    · rw [heq, put_self, put_self]
    · rw [put_ne heq, put_ne heq, h]

/-- Writes under other names are not seen. -/
theorem write_of_ne {writes : List (String × Option Entry)} (h : ∀ w ∈ writes, w.1 ≠ name) :
    ks.write writes name = ks name := by
  induction writes generalizing ks with
  | nil => rfl
  | cons w rest ih =>
    have hw := h w List.mem_cons_self
    exact (ih fun w hw => h w (List.mem_cons_of_mem _ hw)).trans (put_ne hw.symm w.2)

def LocalTo {β : Type} (names : List String) (script : Keyspace → Keyspace × β) : Prop :=
  ∀ ks ks' : Keyspace, (∀ name ∈ names, ks name = ks' name) →
    ∃ writes reply, (∀ w ∈ writes, w.1 ∈ names) ∧
      script ks = (ks.write writes, reply) ∧ script ks' = (ks'.write writes, reply)

theorem read_congr {ks ks' : Keyspace} (h : ks name = ks' name) (now : Nat) :
    ks.read now name = ks'.read now name := by
  rw [read, read, h]

theorem incrBy_congr {ks ks' : Keyspace} (h : ks name = ks' name) (now : Nat) (delta : Int) :
    (∃ e, ks.incrBy now name delta = .error e ∧ ks'.incrBy now name delta = .error e) ∨
      ∃ x n, ks.incrBy now name delta = .ok (ks.put name x, n) ∧
        ks'.incrBy now name delta = .ok (ks'.put name x, n) := by
  simp only [incrBy, read_congr h now]
  rcases ks'.read now name with _ | ⟨data, deadline⟩
  · exact .inr ⟨_, _, rfl, rfl⟩
  · cases data with
    | text | hash => exact .inl ⟨_, rfl, rfl⟩
    | number n =>
      by_cases hbound : -2 ^ 63 ≤ n + delta ∧ n + delta < 2 ^ 63
      · simp only [if_pos hbound]
        exact .inr ⟨_, _, rfl, rfl⟩
      · simp only [if_neg hbound]
        exact .inl ⟨_, rfl, rfl⟩

theorem del_localTo (now : Nat) (name : String) : LocalTo [name] (fun ks => ks.del now name) := by
  intro ks ks' h
  have hread := read_congr (h name List.mem_cons_self) now
  simp only [del, hread]
  rcases ks'.read now name with _ | e
  · exact ⟨[], 0, by simp, rfl, rfl⟩
  · exact ⟨[(name, none)], 1, by simp, rfl, rfl⟩

theorem pexpire_localTo (now : Nat) (name : String) (millis : Int) :
    LocalTo [name] (fun ks => ks.pexpire now name millis) := by
  intro ks ks' h
  have hread := read_congr (h name List.mem_cons_self) now
  simp only [pexpire, hread]
  rcases ks'.read now name with _ | e
  · exact ⟨[], 0, by simp, rfl, rfl⟩
  · by_cases hmillis : millis ≤ 0
    · simp only [if_pos hmillis]
      exact ⟨[(name, none)], 1, by simp, rfl, rfl⟩
    · simp only [if_neg hmillis]
      exact ⟨[(name, some {e with deadline := some (now + millis.toNat)})], 1, by simp, rfl, rfl⟩

end Keyspace

/-- The conversion of a Lua number to text, of which the scripts use that it is
exact for integers of at most fourteen digits. -/
structure LuaNumbers where
  format : Int → String
  exact : ∀ n : Nat, n < 10 ^ 14 → format n = toString n

end Photon.Redis
